import Mathlib.Tactic.SplitIfs
import NetlistSplit.Header
import NetlistSplit.Keyword
import NetlistSplit.Proofs.Text.Space

/-!
# What a header is made of

A `Declaration` is a header written out part by part.  Reading a header gives a name
just if the text begins with a declaration of that name (`name?_eq_some_iff`),
whatever stands behind it.

`static` and `automatic` are qualifiers or names.  As a name such a word stands in
front of a hash sign, a parenthesis or a semicolon, up to white space, and as a
qualifier in front of a name, so no header can be read in both ways.
-/

namespace NetlistSplit

namespace Text

theorem ofUInt8_injective : Function.Injective Char.ofUInt8 := by
  intro b c hsame
  have hnat : b.toNat = c.toNat :=
    calc b.toNat
        = (Char.ofUInt8 b).toNat := (UInt8.toNat_toUInt32 b).symm
      _ = (Char.ofUInt8 c).toNat := congrArg Char.toNat hsame
      _ = c.toNat := UInt8.toNat_toUInt32 c
  exact UInt8.toNat_inj.mp hnat

/-- A name tells which bytes it is made of. -/
theorem asciiString_injective : Function.Injective asciiString := by
  intro first second hsame
  exact List.map_injective_iff.mpr ofUInt8_injective (String.ofList_injective hsame)

end Text

namespace Header

open Text (Spaces)

/-- A header, part by part. -/
structure Declaration where
  opener : Text
  space : Spaces
  /-- The qualifier, if there is one, and the white space behind it. -/
  qualifier : Option (Text × Spaces)
  name : Text
  gap : Spaces
  /-- The white space behind the hash sign, if there is one. -/
  hash : Option Spaces
  stop : UInt8
  opener_mem : opener ∈ openers
  space_ne_nil : space.chars ≠ []
  qualifier_mem : ∀ pair ∈ qualifier, pair.1 ∈ qualifiers ∧ pair.2.chars ≠ []
  name_start : ∃ b ∈ name.head?, Byte.isIdentifierStart b = true
  name_identifier : ∀ b ∈ name, Byte.isIdentifier b = true
  stop_eq : stop = Byte.leftParen ∨ stop = Byte.semicolon

/-- A qualifier with the white space behind it. -/
def qualifierText : Option (Text × Spaces) → Text
  | none => []
  | some (word, run) => word ++ run.text

/-- A hash sign with the white space behind it. -/
def hashText : Option Spaces → Text
  | none => []
  | some run => Byte.hash :: run.text

namespace Declaration

/-- What follows the name. -/
def ending (d : Declaration) : Text :=
  d.gap.text ++ (hashText d.hash ++ [d.stop])

/-- The header up to the end of the name. -/
def front (d : Declaration) : Text :=
  d.opener ++ (d.space.text ++ (qualifierText d.qualifier ++ d.name))

/-- The header as it is written. -/
def text (d : Declaration) : Text :=
  d.front ++ d.ending

end Declaration

/-! ## Words -/

theorem isIdentifier_of_mem_openers {word : Text} (hword : word ∈ openers) :
    ∀ b ∈ word, Byte.isIdentifier b = true := by
  have hall : (openers.all fun word => word.all Byte.isIdentifier) = true := by decide
  exact List.all_eq_true.mp (List.all_eq_true.mp hall word hword)

theorem isIdentifier_of_mem_qualifiers {word : Text} (hword : word ∈ qualifiers) :
    ∀ b ∈ word, Byte.isIdentifier b = true := by
  have hall : (qualifiers.all fun word => word.all Byte.isIdentifier) = true := by decide
  exact List.all_eq_true.mp (List.all_eq_true.mp hall word hword)

/-- `module` and `macromodule` do not begin with each other. -/
theorem eq_of_openers_isPrefix : ∀ word ∈ openers, ∀ other ∈ openers,
    word <+: other → word = other := by
  decide

theorem eq_of_qualifiers_isPrefix : ∀ word ∈ qualifiers, ∀ other ∈ qualifiers,
    word <+: other → word = other := by
  decide

/-- An identifier is told apart from what follows it. -/
theorem span_identifier {word rest : Text} (hword : ∀ b ∈ word, Byte.isIdentifier b = true)
    (hrest : Keyword.joins rest.head? = false) :
    (word ++ rest).takeWhile Byte.isIdentifier = word ∧
      (word ++ rest).dropWhile Byte.isIdentifier = rest := by
  rw [List.takeWhile_append_of_pos hword, List.dropWhile_append_of_pos hword]
  cases rest with
  | nil => simp
  | cons b later =>
      have hb : ¬ Byte.isIdentifier b = true := Bool.eq_false_iff.mp hrest
      simp [hb]

theorem joins_head?_spaces {run : Spaces} (hne : run.chars ≠ []) (rest : Text) :
    Keyword.joins (run.text ++ rest).head? = false := by
  have htext : run.text ≠ [] := by
    obtain ⟨chars, hchars⟩ := run
    cases chars with
    | nil => exact absurd rfl hne
    | cons c later =>
        have hc := Text.encoding_ne_nil (List.mem_map_of_mem (hchars c List.mem_cons_self))
        simp [Spaces.text, hc]
  rw [List.head?_append_of_ne_nil _ htext, List.head?_eq_some_head htext]
  exact Spaces.not_identifier_of_mem (List.head_mem htext)

theorem afterWord?_eq_some_iff {words : List Text} {text rest : Text}
    (hwords : ∀ word ∈ words, ∀ other ∈ words, word <+: other → word = other) :
    afterWord? words text = some rest ↔
      ∃ word ∈ words, ∃ run : Spaces, run.chars ≠ [] ∧ text = word ++ (run.text ++ rest) ∧
        Text.spaceWidth rest = 0 := by
  unfold afterWord?
  constructor
  · intro hafter
    obtain ⟨word, hfind, hdrop⟩ := Option.bind_eq_some_iff.mp hafter
    obtain ⟨run, hne, htext, hstop⟩ := Text.dropSpaces?_eq_some_iff.mp hdrop
    have hbegins : word.isPrefixOf text = true := by simpa using List.find?_some hfind
    refine ⟨word, List.mem_of_find?_eq_some hfind, run, hne, ?_, hstop⟩
    rw [← htext]
    exact (List.prefix_iff_eq_append.mp (List.isPrefixOf_iff_prefix.mp hbegins)).symm
  · rintro ⟨word, hword, run, hne, rfl, hstop⟩
    have hfind : (words.find? fun word' => word'.isPrefixOf (word ++ (run.text ++ rest))) =
        some word := by
      cases hfind : words.find? fun word' => word'.isPrefixOf (word ++ (run.text ++ rest)) with
      | none =>
          have hnone := List.find?_eq_none.mp hfind word hword
          exact absurd (List.isPrefixOf_iff_prefix.mpr (List.prefix_append _ _)) hnone
      | some other =>
          have hother := List.mem_of_find?_eq_some hfind
          have hbegins : other.isPrefixOf (word ++ (run.text ++ rest)) = true := by
            simpa using List.find?_some hfind
          rcases List.prefix_or_prefix_of_prefix (List.prefix_append word _)
            (List.isPrefixOf_iff_prefix.mp hbegins) with hle | hle
          · rw [hwords word hword other hother hle]
          · rw [hwords other hother word hword hle]
    rw [hfind, Option.bind_some, List.drop_left]
    exact Text.dropSpaces?_eq_some_iff.mpr ⟨run, hne, rfl, hstop⟩

/-! ## What follows the name -/

/-- A mark that ends a header. -/
private def IsStop (b : UInt8) : Prop :=
  b = Byte.leftParen ∨ b = Byte.semicolon

private theorem spaceWidth_stop {b : UInt8} (hb : IsStop b) (rest : Text) :
    Text.spaceWidth (b :: rest) = 0 := by
  apply Text.spaceWidth_cons
  rcases hb with rfl | rfl <;> decide

/-- The text that is left when the white space behind a name is dropped. -/
private theorem dropSpaces_ending {hash : Option Spaces} {stop : UInt8} (hstop : IsStop stop)
    (gap : Spaces) (rest : Text) :
    Text.dropSpaces (gap.text ++ (hashText hash ++ stop :: rest)) =
      hashText hash ++ stop :: rest := by
  rw [Text.dropSpaces_append]
  cases hash with
  | none => exact Text.dropSpaces_of_spaceWidth (spaceWidth_stop hstop rest)
  | some run =>
      exact Text.dropSpaces_of_spaceWidth (Text.spaceWidth_cons (by decide) _)

theorem dropHash_hash (rest : Text) : dropHash (Byte.hash :: rest) = Text.dropSpaces rest := by
  rw [dropHash, if_pos rfl]

theorem dropHash_of_ne {b : UInt8} (hb : b ≠ Byte.hash) (rest : Text) :
    dropHash (b :: rest) = b :: rest := by
  rw [dropHash, if_neg hb]

theorem goesOn_iff {text : Text} :
    goesOn text = true ↔ ∃ (gap : Spaces) (hash : Option Spaces) (stop : UInt8) (rest : Text),
      (stop = Byte.leftParen ∨ stop = Byte.semicolon) ∧
        text = gap.text ++ (hashText hash ++ stop :: rest) := by
  constructor
  · intro hgoes
    obtain ⟨gap, hgap, -⟩ := Text.exists_spaces text
    unfold goesOn at hgoes
    rcases hcase : Text.dropSpaces text with _ | ⟨b, rest⟩
    · rw [hcase] at hgoes
      cases hgoes
    · rw [hcase] at hgap hgoes
      by_cases hb : b = Byte.hash
      · subst hb
        rw [dropHash_hash] at hgoes
        obtain ⟨run, hrun, -⟩ := Text.exists_spaces rest
        rcases hcase' : Text.dropSpaces rest with _ | ⟨stop, later⟩
        · rw [hcase'] at hgoes
          cases hgoes
        · rw [hcase'] at hrun hgoes
          refine ⟨gap, some run, stop, later, by simpa using hgoes, ?_⟩
          rw [hgap, hrun]
          rfl
      · rw [dropHash_of_ne hb] at hgoes
        exact ⟨gap, none, b, rest, by simpa using hgoes, hgap⟩
  · rintro ⟨gap, hash, stop, rest, hstop, rfl⟩
    rw [goesOn, dropSpaces_ending hstop]
    cases hash with
    | none =>
        have hne : stop ≠ Byte.hash := by
          rcases hstop with rfl | rfl <;> decide
        simpa [hashText, dropHash_of_ne hne] using hstop
    | some run =>
        have hdrop : Text.dropSpaces (run.text ++ stop :: rest) = stop :: rest := by
          rw [Text.dropSpaces_append, Text.dropSpaces_of_spaceWidth (spaceWidth_stop hstop rest)]
        simpa [hashText, dropHash_hash, hdrop] using hstop

theorem joins_head?_of_goesOn {text : Text} (hgoes : goesOn text = true) :
    Keyword.joins text.head? = false := by
  obtain ⟨gap, hash, stop, rest, hstop, rfl⟩ := goesOn_iff.mp hgoes
  by_cases hgap : gap.chars = []
  · rw [Spaces.text, hgap, List.flatMap_nil, List.nil_append]
    cases hash with
    | none => rcases hstop with rfl | rfl <;> rfl
    | some run => rfl
  · exact joins_head?_spaces hgap _

/-! ## Names -/

theorem declared?_eq_some_iff {text : Text} {name : String} :
    declared? text = some name ↔ ∃ word rest, text = word ++ rest ∧
      (∃ b ∈ word.head?, Byte.isIdentifierStart b = true) ∧
      (∀ b ∈ word, Byte.isIdentifier b = true) ∧ goesOn rest = true ∧
      Text.asciiString word = name := by
  constructor
  · intro hname
    unfold declared? at hname
    split at hname
    · cases hname
    · next b rest =>
        split_ifs at hname with hboth
        obtain ⟨hstart, hgoes⟩ := Bool.and_eq_true_iff.mp hboth
        have hb : Byte.isIdentifier b = true := by
          rw [Byte.isIdentifier, hstart]
          rfl
        refine ⟨_, _, List.takeWhile_append_dropWhile.symm, ⟨b, ?_, hstart⟩,
          List.all_eq_true.mp List.all_takeWhile, hgoes, Option.some.inj hname⟩
        rw [List.takeWhile_cons_of_pos hb]
        rfl
  · rintro ⟨word, rest, rfl, ⟨b, hhead, hstart⟩, hword, hgoes, rfl⟩
    obtain ⟨later, rfl⟩ := List.head?_eq_some_iff.mp hhead
    obtain ⟨htake, hdrop⟩ := span_identifier hword (joins_head?_of_goesOn hgoes)
    rw [List.cons_append] at htake hdrop
    rw [List.cons_append, declared?, htake, hdrop, hstart, hgoes]
    rfl

/-- A qualifier that stands where the name does is the name. -/
theorem afterWord?_qualifiers_bind_of_declared {word rest : Text}
    (hword : ∀ b ∈ word, Byte.isIdentifier b = true) (hgoes : goesOn rest = true) :
    (afterWord? qualifiers (word ++ rest)).bind declared? = none := by
  cases hafter : afterWord? qualifiers (word ++ rest) with
  | none => rfl
  | some behind =>
      obtain ⟨qualifier, hqualifier, run, hne, htext, hstop⟩ :=
        (afterWord?_eq_some_iff eq_of_qualifiers_isPrefix).mp hafter
      have hrest : rest = run.text ++ behind := by
        rw [← (span_identifier hword (joins_head?_of_goesOn hgoes)).2, htext,
          (span_identifier (isIdentifier_of_mem_qualifiers hqualifier)
            (joins_head?_spaces hne behind)).2]
      obtain ⟨gap, hash, stop, later, hmark, hending⟩ := goesOn_iff.mp hgoes
      have hbehind : behind = hashText hash ++ stop :: later := by
        rw [← Text.dropSpaces_of_spaceWidth hstop, ← Text.dropSpaces_append run, ← hrest, hending,
          dropSpaces_ending hmark]
      -- Neither a hash sign nor a mark that ends a header begins a name.
      have hmarks : ∀ b ∈ behind.head?, Byte.isIdentifierStart b = false := by
        rw [hbehind]
        cases hash with
        | none => rcases hmark with rfl | rfl <;> simp <;> decide
        | some run' => simp [hashText]; decide
      cases hdeclared : declared? behind with
      | none => simp [hdeclared]
      | some name =>
          obtain ⟨word', rest', rfl, ⟨b, hhead, hstart⟩, -⟩ := declared?_eq_some_iff.mp hdeclared
          obtain ⟨later', rfl⟩ := List.head?_eq_some_iff.mp hhead
          rw [hmarks b rfl] at hstart
          cases hstart

/-! ## Headers -/

theorem spaceWidth_of_joins {text : Text} (hjoins : Keyword.joins text.head? = true) :
    Text.spaceWidth text = 0 := by
  cases text with
  | nil => cases hjoins
  | cons b rest => exact Text.spaceWidth_of_isIdentifier hjoins rest

namespace Declaration

theorem joins_head?_name (d : Declaration) (rest : Text) :
    Keyword.joins (d.name ++ rest).head? = true := by
  obtain ⟨b, hhead, -⟩ := d.name_start
  obtain ⟨later, hname⟩ := List.head?_eq_some_iff.mp hhead
  have hb : Byte.isIdentifier b = true := d.name_identifier b (by simp [hname])
  rw [hname]
  exact hb

theorem joins_head?_qualifier (d : Declaration) (rest : Text) :
    Keyword.joins (qualifierText d.qualifier ++ (d.name ++ rest)).head? = true := by
  cases hqualifier : d.qualifier with
  | none => exact d.joins_head?_name rest
  | some pair =>
      have hall : ∀ word ∈ qualifiers, word ≠ [] ∧ Keyword.joins word.head? = true := by decide
      obtain ⟨hne, hjoins⟩ := hall pair.1 (d.qualifier_mem pair hqualifier).1
      rw [qualifierText, List.append_assoc, List.head?_append_of_ne_nil _ hne]
      exact hjoins

theorem goesOn_ending (d : Declaration) (later : Text) : goesOn (d.ending ++ later) = true :=
  goesOn_iff.mpr ⟨d.gap, d.hash, d.stop, later, d.stop_eq, by simp [Declaration.ending]⟩

end Declaration

/-- The declaration that is read. -/
theorem exists_declaration_of_name? {text : Text} {name : String} (hname : name? text = some name) :
    ∃ d : Declaration, d.text <+: text ∧ Text.asciiString d.name = name := by
  unfold name? at hname
  obtain ⟨rest, hrest, hread⟩ := Option.bind_eq_some_iff.mp hname
  obtain ⟨opener, hopener, space, hspace, rfl, -⟩ :=
    (afterWord?_eq_some_iff eq_of_openers_isPrefix).mp hrest
  -- What stands behind the opener, with a qualifier or without one.
  have hdeclares : ∀ (qualifier : Option (Text × Spaces)) (behind : Text),
      (∀ pair ∈ qualifier, pair.1 ∈ qualifiers ∧ pair.2.chars ≠ []) →
      rest = qualifierText qualifier ++ behind → declared? behind = some name →
      ∃ d : Declaration, d.text <+: opener ++ (space.text ++ rest) ∧
        Text.asciiString d.name = name := by
    intro qualifier behind hqualifier hrest hdeclared
    obtain ⟨word, tail, rfl, hstart, hword, hgoes, hname⟩ := declared?_eq_some_iff.mp hdeclared
    obtain ⟨gap, hash, stop, later, hstop, rfl⟩ := goesOn_iff.mp hgoes
    refine ⟨⟨opener, space, qualifier, word, gap, hash, stop, hopener, hspace, hqualifier, hstart,
      hword, hstop⟩, ⟨later, ?_⟩, hname⟩
    simp [Declaration.text, Declaration.front, Declaration.ending, hrest]
  split at hread
  · next found hfound =>
      obtain rfl := Option.some.inj hread
      obtain ⟨behind, hbehind, hdeclared⟩ := Option.bind_eq_some_iff.mp hfound
      obtain ⟨qualifier, hqualifier, run, hne, hrest, -⟩ :=
        (afterWord?_eq_some_iff eq_of_qualifiers_isPrefix).mp hbehind
      refine hdeclares (some (qualifier, run)) behind ?_ ?_ hdeclared
      · intro pair hpair
        obtain rfl := Option.some.inj hpair
        exact ⟨hqualifier, hne⟩
      · rw [hrest, qualifierText, List.append_assoc]
  · exact hdeclares none rest (by simp) rfl hread

/-- A declaration is read, whatever stands behind it. -/
theorem name?_append (d : Declaration) (later : Text) :
    name? (d.text ++ later) = some (Text.asciiString d.name) := by
  have hgoes := d.goesOn_ending later
  have hdeclared : declared? (d.name ++ (d.ending ++ later)) = some (Text.asciiString d.name) :=
    declared?_eq_some_iff.mpr ⟨d.name, _, rfl, d.name_start, d.name_identifier, hgoes, rfl⟩
  have hname : Text.spaceWidth (d.name ++ (d.ending ++ later)) = 0 :=
    spaceWidth_of_joins (d.joins_head?_name _)
  have htext : d.text ++ later = d.opener ++ (d.space.text ++
      (qualifierText d.qualifier ++ (d.name ++ (d.ending ++ later)))) := by
    simp [Declaration.text, Declaration.front]
  have hafter : afterWord? openers (d.text ++ later) =
      some (qualifierText d.qualifier ++ (d.name ++ (d.ending ++ later))) := by
    refine (afterWord?_eq_some_iff eq_of_openers_isPrefix).mpr
      ⟨d.opener, d.opener_mem, d.space, d.space_ne_nil, htext, ?_⟩
    exact spaceWidth_of_joins (d.joins_head?_qualifier _)
  rw [name?, hafter, Option.bind_some]
  cases hqualifier : d.qualifier with
  | none =>
      rw [qualifierText, List.nil_append,
        afterWord?_qualifiers_bind_of_declared d.name_identifier hgoes]
      exact hdeclared
  | some pair =>
      obtain ⟨word, run⟩ := pair
      obtain ⟨hword, hrun⟩ := d.qualifier_mem _ hqualifier
      have hbehind : afterWord? qualifiers (word ++ run.text ++ (d.name ++ (d.ending ++ later))) =
          some (d.name ++ (d.ending ++ later)) := by
        refine (afterWord?_eq_some_iff eq_of_qualifiers_isPrefix).mpr
          ⟨word, hword, run, hrun, ?_, hname⟩
        rw [List.append_assoc]
      rw [qualifierText, hbehind, Option.bind_some, hdeclared]

/-- Reading a header gives a name just if the text begins with a declaration of it. -/
theorem name?_eq_some_iff {text : Text} {name : String} :
    name? text = some name ↔
      ∃ d : Declaration, d.text <+: text ∧ Text.asciiString d.name = name := by
  constructor
  · exact exists_declaration_of_name?
  · rintro ⟨d, ⟨later, rfl⟩, rfl⟩
    exact name?_append d later

end Header

end NetlistSplit
