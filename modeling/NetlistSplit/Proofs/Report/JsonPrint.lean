import NetlistSplit.Proofs.Report.JsonGrammar
import NetlistSplit.Report.Json

/-!
# Printed JSON is JSON

Every JSON value in print is a document of the grammar, and it stands for that value
(`isDocument_pretty_iff`).

## Strategy

Each printed part is read up to its end in front of any text that does not go on with a
number (`reads_print`, `reads_printItems`, `reads_printFields`).  In front of every part there
is at most the end of a line and an indentation, which are blanks.
-/

namespace NetlistSplit

namespace Json

open JsonGrammar

/-! ## The value of a JSON value -/

mutual

/-- What a JSON value is by the grammar. -/
def value : Json → Value
  | number n => .number (Nat.toDigits 10 n)
  | string s => .string s
  | list items => .array (values items)
  | object fields => .object (members fields)

/-- What the items of a list are. -/
def values : List Json → List Value
  | [] => []
  | item :: later => value item :: values later

/-- What the fields of an object are. -/
def members : List (String × Json) → List (String × Value)
  | [] => []
  | (key, field) :: later => (key, value field) :: members later

end

/-! ## Strings -/

variable {content text rest : List Char}

theorem body_escape (c : Char) (hbody : StringBody content text rest) :
    StringBody (c :: content) (escape c ++ text) rest := by
  have hshort : ∀ {letter : Char}, (letter, c) ∈ shortEscapes →
      StringBody (c :: content) (['\\', letter] ++ text) rest :=
    fun hletter => .escaped (.short hletter) hbody
  have hcontrol : ∀ n < 0x20,
      unit? '0' '0' (hexDigit (n / 16)) (hexDigit (n % 16)) = some n := by decide
  unfold escape
  split
  · next hc => exact hshort (by rw [hc]; decide)
  split
  · next hc => exact hshort (by rw [hc]; decide)
  split
  · next hc => exact hshort (by rw [hc]; decide)
  split
  · next hc => exact hshort (by rw [hc]; decide)
  split
  · next hc => exact hshort (by rw [hc]; decide)
  split
  · next hc => exact hshort (by rw [hc]; decide)
  split
  · next hc => exact hshort (by rw [hc]; decide)
  split
  · next hc => exact .escaped (.unit (hcontrol c.toNat hc)) hbody
  · next hquote hslash _ _ _ _ _ hc => exact .plain (Nat.le_of_not_lt hc) hquote hslash hbody

theorem body_flatMap_escape (content rest : List Char) :
    StringBody content (content.flatMap escape ++ '"' :: rest) rest := by
  induction content with
  | nil => exact .close
  | cons c content ih =>
      rw [List.flatMap_cons, List.append_assoc]
      exact body_escape c ih

theorem quoted_append (s : String) (rest : List Char) :
    quoted s ++ rest = '"' :: (s.toList.flatMap escape ++ '"' :: rest) := by
  simp [quoted]

/-! ## Numbers -/

/-- Whether no number goes on with a text. -/
def EndsNumber (text : List Char) : Prop :=
  text.takeWhile isNumberChar = []

theorem endsNumber_cons {c : Char} (hc : isNumberChar c = false) (text : List Char) :
    EndsNumber (c :: text) :=
  List.takeWhile_cons_of_neg (by simp [hc])

/-- No number other than zero has a leading zero. -/
theorem head?_toDigits {n : Nat} (hn : n ≠ 0) : (Nat.toDigits 10 n).head? ≠ some '0' := by
  induction n using Nat.strongRecOn with
  | _ n ih =>
      by_cases hdigit : n < 10
      · have hzero : ∀ n < 10, n ≠ 0 → Nat.digitChar n ≠ '0' := by decide
        rw [Nat.toDigits_of_lt_base hdigit]
        simpa using hzero n hdigit hn
      · have hbase : 10 ≤ n := Nat.le_of_not_lt hdigit
        rw [Nat.toDigits_of_base_le (by decide) hbase,
          List.head?_append_of_ne_nil _ Nat.toDigits_ne_nil]
        exact ih (n / 10) (by omega) (by omega)

theorem isDigit_toDigits {n : Nat} {c : Char} (hc : c ∈ Nat.toDigits 10 n) : c.isDigit = true :=
  Nat.isDigit_of_mem_toDigits (by decide) (by decide) hc

theorem isNumber_toDigits (n : Nat) : IsNumber (Nat.toDigits 10 n) := by
  refine ⟨[], Nat.toDigits 10 n, [], [], by simp, by simp,
    ⟨⟨Nat.toDigits_ne_nil, fun c hc => isDigit_toDigits hc⟩, ?_⟩, .inl rfl, .inl rfl⟩
  intro hhead
  by_cases hn : n = 0
  · rw [hn]
    rfl
  · exact absurd hhead (head?_toDigits hn)

theorem scalar_toDigits (n : Nat) (hrest : EndsNumber rest) :
    Scalar (.number (Nat.toDigits 10 n)) (Nat.toDigits 10 n ++ rest) rest := by
  have hdigits : ∀ c ∈ Nat.toDigits 10 n, isNumberChar c = true := by
    intro c hc
    rw [isNumberChar, isDigit_toDigits hc, Bool.true_or]
  have hdrop : rest.dropWhile isNumberChar = rest := by
    have hsplit : rest.takeWhile isNumberChar ++ rest.dropWhile isNumberChar = rest :=
      List.takeWhile_append_dropWhile
    rwa [hrest, List.nil_append] at hsplit
  refine .number ?_ (isNumber_toDigits n) ?_
  · rw [List.takeWhile_append_of_pos hdigits, hrest, List.append_nil]
  · rw [List.dropWhile_append_of_pos hdigits, hdrop]

/-! ## Blanks -/

theorem skip_cons {c : Char} (hc : isBlank c = false) (text : List Char) :
    skip (c :: text) = c :: text :=
  List.dropWhile_cons_of_neg (by simp [hc])

theorem skip_newline (depth : Nat) (text : List Char) :
    skip (newline depth ++ text) = skip text := by
  refine List.dropWhile_append_of_pos fun c hc => ?_
  obtain rfl | hspace := List.mem_cons.mp hc
  · rfl
  · rw [List.eq_of_mem_replicate hspace]
    rfl

theorem skip_space (text : List Char) : skip (' ' :: text) = skip text :=
  List.dropWhile_cons_of_pos rfl

theorem skip_newline_quoted (depth : Nat) (s : String) (text : List Char) :
    skip (newline depth ++ (quoted s ++ text)) = quoted s ++ text :=
  (skip_newline depth _).trans (skip_cons rfl _)

theorem isDigit_of_isBlank {c : Char} (hblank : isBlank c = true) : c.isDigit = false := by
  simp only [isBlank, Bool.or_eq_true, decide_eq_true_eq] at hblank
  obtain ((rfl | rfl) | rfl) | rfl := hblank <;> rfl

theorem skip_print (depth : Nat) (json : Json) (rest : List Char) :
    skip (print depth json ++ rest) = print depth json ++ rest := by
  cases json with
  | number n =>
      rw [print]
      cases hdigits : Nat.toDigits 10 n with
      | nil => exact absurd hdigits Nat.toDigits_ne_nil
      | cons c later =>
          have hc : c.isDigit = true := isDigit_toDigits (hdigits ▸ List.mem_cons_self)
          refine skip_cons (Bool.eq_false_iff.mpr fun hblank => ?_) _
          cases (isDigit_of_isBlank hblank).symm.trans hc
  | string s => exact skip_cons rfl _
  | list items => cases items <;> exact skip_cons rfl _
  | object fields => cases fields <;> exact skip_cons rfl _

/-! ## Values -/

theorem endsNumber_printItems (depth : Nat) (items : List Json) (rest : List Char) :
    EndsNumber (printItems (depth + 1) items ++ (newline depth ++ rest)) := by
  cases items <;> exact endsNumber_cons rfl _

theorem endsNumber_printFields (depth : Nat) (fields : List (String × Json)) (rest : List Char) :
    EndsNumber (printFields (depth + 1) fields ++ (newline depth ++ rest)) := by
  cases fields with
  | nil => exact endsNumber_cons rfl _
  | cons field later => exact endsNumber_cons rfl _

theorem reads_field {first : Bool} (key : String) {value : Value} {later : List (String × Value)}
    {start behind fields : List Char} (hseparated : Separated first text start)
    (hstart : skip start = quoted key ++ ':' :: behind)
    (hvalue : Reads .value value behind fields)
    (hfields : Reads (.members false) later fields rest) :
    Reads (.members first) ((key, value) :: later) text rest := by
  rw [quoted_append] at hstart
  have hbody := body_flatMap_escape key.toList (':' :: behind)
  have hmember := Reads.member hseparated hstart hbody (skip_cons rfl behind) hvalue hfields
  rwa [String.ofList_toList] at hmember

mutual

/-- A value in print is read up to its end. -/
theorem reads_print (depth : Nat) (json : Json) (text rest : List Char) (hrest : EndsNumber rest)
    (htext : skip text = print depth json ++ rest) : Reads .value json.value text rest := by
  match json with
  | number n =>
      rw [print] at htext
      exact .scalar (htext ▸ scalar_toDigits n hrest)
  | string s =>
      have hscalar := Scalar.string (body_flatMap_escape s.toList rest)
      rw [String.ofList_toList] at hscalar
      rw [print, quoted_append] at htext
      exact .scalar (htext ▸ hscalar)
  | list [] => exact .array htext (.noItem rfl)
  | list (item :: later) =>
      simp only [print, List.append_assoc, List.cons_append, List.nil_append] at htext
      refine .array htext (.item rfl (reads_print (depth + 1) item _ _ ?_ ?_)
        (reads_printItems depth later rest))
      · exact endsNumber_printItems depth later _
      · rw [skip_newline, skip_print]
  | object [] => exact .object htext (.noMember rfl)
  | object ((key, field) :: later) =>
      simp only [print, List.append_assoc, List.cons_append, List.nil_append] at htext
      refine .object htext (reads_field key rfl (skip_newline_quoted _ key _)
        (reads_print (depth + 1) field _ _ ?_ ?_)
        (reads_printFields depth later rest))
      · exact endsNumber_printFields depth later _
      · rw [skip_space, skip_print]

/-- The items of a list after its first are read up to its end. -/
theorem reads_printItems (depth : Nat) (items : List Json) (rest : List Char) :
    Reads (.items false) (values items)
      (printItems (depth + 1) items ++ (newline depth ++ ']' :: rest)) rest := by
  match items with
  | [] =>
      rw [printItems]
      exact .noItem (skip_newline depth _)
  | item :: later =>
      simp only [printItems, List.append_assoc, List.cons_append]
      refine .item rfl (reads_print (depth + 1) item _ _ ?_ ?_) (reads_printItems depth later rest)
      · exact endsNumber_printItems depth later _
      · rw [skip_newline, skip_print]

/-- The fields of an object after its first are read up to its end. -/
theorem reads_printFields (depth : Nat) (fields : List (String × Json)) (rest : List Char) :
    Reads (.members false) (members fields)
      (printFields (depth + 1) fields ++ (newline depth ++ '\x7d' :: rest)) rest := by
  match fields with
  | [] =>
      rw [printFields]
      exact .noMember (skip_newline depth _)
  | (key, field) :: later =>
      simp only [printFields, List.append_assoc, List.cons_append, List.nil_append]
      refine reads_field key rfl (skip_newline_quoted _ key _)
        (reads_print (depth + 1) field _ _ ?_ ?_)
        (reads_printFields depth later rest)
      · exact endsNumber_printFields depth later _
      · rw [skip_space, skip_print]

end

/-- A JSON value in print ends with the value. -/
theorem reads_pretty (json : Json) : Reads .value json.value json.pretty.toList [] := by
  have hprint : json.pretty.toList = print 0 json ++ [] := by
    rw [pretty, String.toList_ofList, List.append_nil]
  apply reads_print 0 json _ [] rfl
  rw [hprint, skip_print]

/-- A JSON value in print is a document that stands for it, and for nothing else. -/
theorem isDocument_pretty_iff (json : Json) {value : Value} :
    IsDocument json.pretty.toList value ↔ value = json.value := by
  have hdocument : IsDocument json.pretty.toList json.value := ⟨[], json.reads_pretty, rfl⟩
  constructor
  · intro hvalue
    exact hvalue.unique hdocument
  · rintro rfl
    exact hdocument

end Json

end NetlistSplit
