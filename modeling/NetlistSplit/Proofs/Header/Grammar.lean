import NetlistSplit.Proofs.Header.Declaration

/-!
# One header, one name

The parts of a header overlap: `static` and `automatic` are qualifiers and may be names, and
the beginning of a name is a name too.  Still all declarations that a text begins with declare
the same name (`Declaration.name_eq`), since each of them is read, whatever stands behind it
(`reads_declarations`).

## Strategy

A text that is read to its name is split up from the left.  The opener and the white
space behind it are the same for all declarations in front of the text
(`Declaration.rest_eq`).  What stands there is a qualifier if a name follows it, and the
name if a mark follows it, up to white space.  A mark is a hash sign, a parenthesis or a
semicolon, so no text is both (`Declaration.isName_iff`).
-/

namespace NetlistSplit.Header

open Text (Spaces)

/-- Whether a mark that may stand behind a name begins the text, up to white space. -/
def BeginsEnding (text : Text) : Prop :=
  ∃ (gap : Spaces) (mark : UInt8) (later : Text),
    (mark = Byte.leftParen ∨ mark = Byte.semicolon ∨ mark = Byte.hash) ∧
      text = gap.text ++ mark :: later

theorem beginsEnding_of_goesOn {text : Text} (hgoes : goesOn text = true) : BeginsEnding text := by
  obtain ⟨gap, hash, stop, rest, hstop, rfl⟩ := goesOn_iff.mp hgoes
  cases hash with
  | none => exact ⟨gap, stop, rest, hstop.imp_right .inl, rfl⟩
  | some run => exact ⟨gap, Byte.hash, run.text ++ stop :: rest, .inr (.inr rfl), rfl⟩

/-- Neither white space nor a mark belongs to an identifier. -/
theorem BeginsEnding.not_joins {text : Text} (hends : BeginsEnding text) :
    Keyword.joins text.head? = false := by
  obtain ⟨gap, mark, later, hmark, rfl⟩ := hends
  by_cases hgap : gap.chars = []
  · rw [Spaces.text, hgap, List.flatMap_nil, List.nil_append]
    rcases hmark with rfl | rfl | rfl <;> rfl
  · exact joins_head?_spaces hgap _

theorem BeginsEnding.not_joins_dropSpaces {text : Text} (hends : BeginsEnding text) :
    Keyword.joins (Text.dropSpaces text).head? = false := by
  obtain ⟨gap, mark, later, hmark, rfl⟩ := hends
  have hwidth : Text.spaceWidth (mark :: later) = 0 := by
    apply Text.spaceWidth_cons
    rcases hmark with rfl | rfl | rfl <;> decide
  rw [Text.dropSpaces_append, Text.dropSpaces_of_spaceWidth hwidth]
  rcases hmark with rfl | rfl | rfl <;> rfl

namespace Declaration

variable {text : Text} {d : Declaration}

/-- What a text that begins with a declaration is read as does not depend on what stands
behind the declaration. -/
theorem name?_of_isPrefix (hd : d.text <+: text) :
    name? text = some (Text.asciiString d.name) := by
  obtain ⟨later, rfl⟩ := hd
  exact name?_append d later

theorem name_eq {other : Declaration} (hd : d.text <+: text) (hother : other.text <+: text) :
    d.name = other.name := by
  have hsame := (name?_of_isPrefix hd).symm.trans (name?_of_isPrefix hother)
  exact Text.asciiString_injective (Option.some.inj hsame)

/-- Behind the opener and its white space stand the qualifier, if there is one, and the
name. -/
theorem rest_eq {opener rest : Text} {space : Spaces} (hopener : opener ∈ openers)
    (hspace : space.chars ≠ []) (hwidth : Text.spaceWidth rest = 0)
    (hd : d.text <+: opener ++ (space.text ++ rest)) :
    ∃ later, rest = qualifierText d.qualifier ++ (d.name ++ (d.ending ++ later)) := by
  obtain ⟨later, htext⟩ := hd
  refine ⟨later, ?_⟩
  have hread : afterWord? openers (opener ++ (space.text ++ rest)) = some rest :=
    (afterWord?_eq_some_iff eq_of_openers_isPrefix).mpr
      ⟨opener, hopener, space, hspace, rfl, hwidth⟩
  have hreads : afterWord? openers (opener ++ (space.text ++ rest)) =
      some (qualifierText d.qualifier ++ (d.name ++ (d.ending ++ later))) := by
    refine (afterWord?_eq_some_iff eq_of_openers_isPrefix).mpr
      ⟨d.opener, d.opener_mem, d.space, d.space_ne_nil, ?_, ?_⟩
    · rw [← htext]
      simp [Declaration.text, Declaration.front]
    · exact spaceWidth_of_joins (d.joins_head?_qualifier _)
  exact Option.some.inj (hread.symm.trans hreads)

/-- A qualifier where the name may stand is the name just if a mark follows it, up to white
space. -/
theorem isName_iff {opener word rest : Text} {space : Spaces} (hopener : opener ∈ openers)
    (hspace : space.chars ≠ []) (hword : word ∈ qualifiers)
    (hd : d.text <+: opener ++ (space.text ++ (word ++ rest))) :
    (d.qualifier = none ∧ d.name = word) ↔ BeginsEnding rest := by
  have hidentifier := isIdentifier_of_mem_qualifiers hword
  have hwidth : Text.spaceWidth (word ++ rest) = 0 := by
    have hall : ∀ word ∈ qualifiers, word ≠ [] ∧ Keyword.joins word.head? = true := by decide
    obtain ⟨hne, hjoins⟩ := hall word hword
    apply spaceWidth_of_joins
    rwa [List.head?_append_of_ne_nil _ hne]
  obtain ⟨later, hrest⟩ := rest_eq hopener hspace hwidth hd
  have hgoes := d.goesOn_ending later
  constructor
  · rintro ⟨hqualifier, rfl⟩
    rw [hqualifier, qualifierText, List.nil_append] at hrest
    rw [List.append_cancel_left hrest]
    exact beginsEnding_of_goesOn hgoes
  · intro hends
    obtain ⟨htake, hdrop⟩ := span_identifier hidentifier hends.not_joins
    cases hqualifier : d.qualifier with
    | none =>
        rw [hqualifier, qualifierText, List.nil_append] at hrest
        refine ⟨rfl, ?_⟩
        rw [← htake, hrest, (span_identifier d.name_identifier (joins_head?_of_goesOn hgoes)).1]
    | some pair =>
        obtain ⟨other, run⟩ := pair
        obtain ⟨hother, hrun⟩ := d.qualifier_mem _ hqualifier
        rw [hqualifier, qualifierText, List.append_assoc] at hrest
        -- Behind the qualifier stands the name, and no mark.
        have hbehind : rest = run.text ++ (d.name ++ (d.ending ++ later)) := by
          rw [← hdrop, hrest, (span_identifier (isIdentifier_of_mem_qualifiers hother)
            (joins_head?_spaces hrun _)).2]
        have hname := d.joins_head?_name (d.ending ++ later)
        have hmark := hends.not_joins_dropSpaces
        rw [hbehind, Text.dropSpaces_append,
          Text.dropSpaces_of_spaceWidth (spaceWidth_of_joins hname), hname] at hmark
        cases hmark

end Declaration

/-- A header is read just if it is one, and in one way.  Nothing behind it changes that, and
`static` and `automatic` are its name only where nothing else can be. -/
theorem reads_declarations (text : Text) :
    (∀ name, name? text = some name ↔
      ∃ d : Declaration, d.text <+: text ∧ Text.asciiString d.name = name) ∧
    (∀ d other : Declaration, d.text <+: text → other.text <+: text → d.name = other.name) ∧
    (∀ d : Declaration, d.text <+: text → ∀ later,
      name? (d.text ++ later) = name? text ∧ name? (text ++ later) = name? text) ∧
    ∀ (d : Declaration) (opener word rest : Text) (space : Spaces), opener ∈ openers →
      space.chars ≠ [] → word ∈ qualifiers → text = opener ++ (space.text ++ (word ++ rest)) →
      d.text <+: text → ((d.qualifier = none ∧ d.name = word) ↔ BeginsEnding rest) := by
  refine ⟨fun name => name?_eq_some_iff, ?_, ?_, ?_⟩
  · intro d other hd hother
    exact Declaration.name_eq hd hother
  · intro d hd later
    rw [Declaration.name?_of_isPrefix hd]
    exact ⟨name?_append d later,
      Declaration.name?_of_isPrefix (hd.trans (List.prefix_append text later))⟩
  · rintro d opener word rest space hopener hspace hword rfl hd
    exact Declaration.isName_iff hopener hspace hword hd

/-- The qualifier of one header is the name of another, and a name may go on behind it. -/
example :
    name? (Text.ofString "module static automatic #(") = some "automatic" ∧
      name? (Text.ofString "macromodule\nstatic;") = some "static" ∧
      name? (Text.ofString "module static# ;") = some "static" ∧
      name? (Text.ofString "module static$ (") = some "static$" ∧
      name? (Text.ofString "module static") = none := by
  decide

end NetlistSplit.Header
