import Mathlib.Data.List.Basic
import NetlistSplit.Text.Space

/-!
# White space in front of a text

`Spaces` is a run of white space characters.  Dropping white space drops such a run
and stops where no white space character stands (`exists_spaces`), and every run that
is followed by something else is dropped as a whole (`dropSpaces_append`).

The encodings of the white space characters are told apart by their beginnings, and
none of their bytes means anything else to the splitter (`not_identifier_of_mem`).
-/

namespace NetlistSplit.Text

/-- White space belongs to no identifier. -/
theorem not_identifier_of_mem_encoding {encoding : Text} (hencoding : encoding ∈ spaceEncodings)
    {b : UInt8} (hb : b ∈ encoding) : Byte.isIdentifier b = false := by
  have hall : (spaceEncodings.all fun encoding => encoding.all (!Byte.isIdentifier ·)) = true := by
    decide
  simpa using List.all_eq_true.mp (List.all_eq_true.mp hall encoding hencoding) b hb

/-- A run of white space characters. -/
structure Spaces where
  chars : List Char
  isSpace : ∀ c ∈ chars, c ∈ whiteSpace

namespace Spaces

/-- The bytes of the run. -/
def text (run : Spaces) : Text :=
  run.chars.flatMap String.utf8EncodeChar

/-- The run of no characters. -/
def empty : Spaces :=
  ⟨[], by simp⟩

theorem exists_encoding {run : Spaces} {b : UInt8} (hb : b ∈ run.text) :
    ∃ encoding ∈ spaceEncodings, b ∈ encoding := by
  obtain ⟨c, hc, hb⟩ := List.mem_flatMap.mp hb
  exact ⟨_, List.mem_map_of_mem (run.isSpace c hc), hb⟩

theorem not_identifier_of_mem {run : Spaces} {b : UInt8} (hb : b ∈ run.text) :
    Byte.isIdentifier b = false := by
  obtain ⟨encoding, hencoding, hb⟩ := exists_encoding hb
  exact not_identifier_of_mem_encoding hencoding hb

/-- No byte of white space is a mark of the language. -/
theorem ne_mark_of_mem {run : Spaces} {b : UInt8} (hb : b ∈ run.text) :
    b ≠ Byte.quote ∧ b ≠ Byte.slash ∧ b ≠ Byte.hash ∧ b ≠ Byte.leftParen ∧ b ≠ Byte.semicolon := by
  have hall : ∀ encoding ∈ spaceEncodings, Byte.quote ∉ encoding ∧ Byte.slash ∉ encoding ∧
      Byte.hash ∉ encoding ∧ Byte.leftParen ∉ encoding ∧ Byte.semicolon ∉ encoding := by
    decide
  obtain ⟨encoding, hencoding, hb⟩ := exists_encoding hb
  obtain ⟨hquote, hslash, hhash, hparen, hsemicolon⟩ := hall encoding hencoding
  exact ⟨ne_of_mem_of_not_mem hb hquote, ne_of_mem_of_not_mem hb hslash,
    ne_of_mem_of_not_mem hb hhash, ne_of_mem_of_not_mem hb hparen,
    ne_of_mem_of_not_mem hb hsemicolon⟩

end Spaces

/-! ## One character -/

theorem eq_of_encoding_isPrefix {encoding other text : Text} (hencoding : encoding ∈ spaceEncodings)
    (hother : other ∈ spaceEncodings) (hbegins : encoding <+: text) (hbegins' : other <+: text) :
    encoding = other := by
  have hapart : ∀ encoding ∈ spaceEncodings, ∀ other ∈ spaceEncodings,
      encoding <+: other → encoding = other := by
    decide
  rcases List.prefix_or_prefix_of_prefix hbegins hbegins' with hle | hle
  · exact hapart encoding hencoding other hother hle
  · exact (hapart other hother encoding hencoding hle).symm

theorem encoding_ne_nil {encoding : Text} (hencoding : encoding ∈ spaceEncodings) :
    encoding ≠ [] := by
  have hall : ∀ encoding ∈ spaceEncodings, encoding ≠ [] := by decide
  exact hall encoding hencoding

theorem spaceWidth_of_isPrefix {encoding text : Text} (hencoding : encoding ∈ spaceEncodings)
    (hbegins : encoding <+: text) : spaceWidth text = encoding.length := by
  unfold spaceWidth
  cases hfind : spaceEncodings.find? fun encoding => encoding.isPrefixOf text with
  | none =>
      have hnone := List.find?_eq_none.mp hfind encoding hencoding
      exact absurd (List.isPrefixOf_iff_prefix.mpr hbegins) hnone
  | some other =>
      have hbegins' : other.isPrefixOf text = true := by simpa using List.find?_some hfind
      rw [eq_of_encoding_isPrefix hencoding (List.mem_of_find?_eq_some hfind) hbegins
        (List.isPrefixOf_iff_prefix.mp hbegins')]

theorem exists_encoding_of_spaceWidth {text : Text} (hwidth : spaceWidth text ≠ 0) :
    ∃ c ∈ whiteSpace, String.utf8EncodeChar c <+: text := by
  unfold spaceWidth at hwidth
  split at hwidth
  · next encoding hfind =>
      obtain ⟨c, hc, rfl⟩ := List.mem_map.mp (List.mem_of_find?_eq_some hfind)
      have hbegins : (String.utf8EncodeChar c).isPrefixOf text = true := by
        simpa using List.find?_some hfind
      exact ⟨c, hc, List.isPrefixOf_iff_prefix.mp hbegins⟩
  · exact absurd rfl hwidth

/-- Where a byte stands that is in no white space character, no such character stands. -/
theorem spaceWidth_cons {b : UInt8} (hb : ∀ encoding ∈ spaceEncodings, b ∉ encoding)
    (rest : Text) : spaceWidth (b :: rest) = 0 := by
  by_contra hwidth
  obtain ⟨c, hc, hbegins⟩ := exists_encoding_of_spaceWidth hwidth
  have hencoding : String.utf8EncodeChar c ∈ spaceEncodings := List.mem_map_of_mem hc
  cases hcase : String.utf8EncodeChar c with
  | nil => exact encoding_ne_nil hencoding hcase
  | cons first later =>
      rw [hcase] at hbegins hencoding
      obtain rfl := (List.cons_prefix_cons.mp hbegins).1
      exact hb _ hencoding List.mem_cons_self

theorem spaceWidth_of_isIdentifier {b : UInt8} (hb : Byte.isIdentifier b = true) (rest : Text) :
    spaceWidth (b :: rest) = 0 := by
  apply spaceWidth_cons
  intro encoding hencoding hmem
  rw [not_identifier_of_mem_encoding hencoding hmem] at hb
  cases hb

/-! ## Runs of characters -/

private theorem dropSpacesAfter_eq (pending : Nat) (text : Text) :
    dropSpacesAfter pending text = dropSpaces (text.drop pending) := by
  induction text generalizing pending with
  | nil => simp [dropSpaces, dropSpacesAfter]
  | cons b rest ih =>
      cases pending with
      | zero => rfl
      | succ pending => exact ih pending

theorem dropSpaces_of_spaceWidth {text : Text} (hwidth : spaceWidth text = 0) :
    dropSpaces text = text := by
  cases text with
  | nil => rfl
  | cons b rest => rw [dropSpaces, dropSpacesAfter, hwidth]

theorem dropSpaces_encoding {encoding : Text} (hencoding : encoding ∈ spaceEncodings)
    (rest : Text) : dropSpaces (encoding ++ rest) = dropSpaces rest := by
  cases hcase : encoding with
  | nil => exact absurd hcase (encoding_ne_nil hencoding)
  | cons b later =>
      have hwidth : spaceWidth (b :: (later ++ rest)) = later.length + 1 := by
        rw [← List.cons_append, ← hcase,
          spaceWidth_of_isPrefix hencoding (List.prefix_append encoding rest), hcase,
          List.length_cons]
      rw [List.cons_append, dropSpaces, dropSpacesAfter, hwidth]
      simp only [dropSpacesAfter_eq, List.drop_left]

/-- A run of white space is dropped. -/
theorem dropSpaces_append (run : Spaces) (rest : Text) :
    dropSpaces (run.text ++ rest) = dropSpaces rest := by
  obtain ⟨chars, hchars⟩ := run
  induction chars with
  | nil => rfl
  | cons c later ih =>
      have hc : String.utf8EncodeChar c ∈ spaceEncodings :=
        List.mem_map_of_mem (hchars c List.mem_cons_self)
      rw [Spaces.text, List.flatMap_cons, List.append_assoc, dropSpaces_encoding hc]
      exact ih fun other hother => hchars other (List.mem_cons_of_mem _ hother)

/-- What is dropped is a run of white space, and no white space follows it. -/
theorem exists_spaces (text : Text) :
    ∃ run : Spaces, text = run.text ++ dropSpaces text ∧ spaceWidth (dropSpaces text) = 0 := by
  induction hlength : text.length using Nat.strongRecOn generalizing text with
  | ind length ih =>
      subst hlength
      by_cases hwidth : spaceWidth text = 0
      · rw [dropSpaces_of_spaceWidth hwidth]
        exact ⟨Spaces.empty, rfl, hwidth⟩
      · obtain ⟨c, hc, rest, rfl⟩ := exists_encoding_of_spaceWidth hwidth
        have hencoding : String.utf8EncodeChar c ∈ spaceEncodings := List.mem_map_of_mem hc
        have hpositive := List.length_pos_of_ne_nil (encoding_ne_nil hencoding)
        obtain ⟨run, hrun, hstop⟩ := ih rest.length (by rw [List.length_append]; omega) rest rfl
        rw [dropSpaces_encoding hencoding]
        refine ⟨⟨c :: run.chars, List.forall_mem_cons.mpr ⟨hc, run.isSpace⟩⟩, ?_, hstop⟩
        rw [Spaces.text, List.flatMap_cons, List.append_assoc]
        exact congrArg (String.utf8EncodeChar c ++ ·) hrun

theorem dropSpaces?_eq_some_iff {text rest : Text} :
    dropSpaces? text = some rest ↔
      ∃ run : Spaces, run.chars ≠ [] ∧ text = run.text ++ rest ∧ spaceWidth rest = 0 := by
  unfold dropSpaces?
  constructor
  · intro hdrop
    split at hdrop
    · cases hdrop
    · next hwidth =>
        obtain rfl := Option.some.inj hdrop
        obtain ⟨run, htext, hstop⟩ := exists_spaces text
        refine ⟨run, ?_, htext, hstop⟩
        intro hnil
        rw [Spaces.text, hnil, List.flatMap_nil, List.nil_append] at htext
        rw [htext] at hwidth
        exact hwidth hstop
  · rintro ⟨run, hne, rfl, hstop⟩
    have hwidth : spaceWidth (run.text ++ rest) ≠ 0 := by
      obtain ⟨chars, hchars⟩ := run
      cases chars with
      | nil => exact absurd rfl hne
      | cons c later =>
          have hc : String.utf8EncodeChar c ∈ spaceEncodings :=
            List.mem_map_of_mem (hchars c List.mem_cons_self)
          rw [Spaces.text, List.flatMap_cons, List.append_assoc,
            spaceWidth_of_isPrefix hc (List.prefix_append _ _)]
          exact Nat.ne_of_gt (List.length_pos_of_ne_nil (encoding_ne_nil hc))
    rw [if_neg hwidth, dropSpaces_append, dropSpaces_of_spaceWidth hstop]

end NetlistSplit.Text
