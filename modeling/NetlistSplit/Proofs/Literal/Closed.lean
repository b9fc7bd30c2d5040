import Mathlib.Data.List.Basic
import NetlistSplit.Keyword.Pairing
import NetlistSplit.Proofs.Comment.Token

/-!
# Literals that are closed on their line

The search for keywords has a rule of its own for literals: it takes one into
account only if it is closed on the line on which it begins.  Such a literal is
the same for the search as for the removal of comments (`closedLength?_eq`).

`closedSpans` reads these literals from left to right.  A quote at which none
begins is passed over, so what it hides from the removal of comments is looked at.
Since no such literal holds a newline, the reading starts anew on every line
(`hides_of_newline`).
-/

namespace NetlistSplit

/-- Whether an offset lies in a span, behind its first byte. -/
def Span.Holds (span : Span) (offset : Nat) : Prop :=
  span.start < offset ∧ offset < span.stop

instance (span : Span) (offset : Nat) : Decidable (span.Holds offset) :=
  inferInstanceAs (Decidable (_ ∧ _))

namespace Text

theorem lt_length_of_drop {text rest : Text} {offset : Nat} {b : UInt8}
    (hdrop : text.drop offset = b :: rest) : offset < text.length := by
  apply Nat.lt_of_not_le
  intro hge
  rw [List.drop_eq_nil_of_le hge] at hdrop
  cases hdrop

theorem drop_succ_of_drop {text rest : Text} {offset : Nat} {b : UInt8}
    (hdrop : text.drop offset = b :: rest) : text.drop (offset + 1) = rest := by
  rw [← List.tail_drop, hdrop, List.tail_cons]

end Text

namespace Literal

open Comment (literalBody)

/-- Whether the rest of a literal ends with its closing quote, on the line on
which it begins. -/
def ClosesOnLine (rest : Text) : Prop :=
  (literalBody rest).2 = true ∧ Byte.newline ∉ (literalBody rest).1

instance (rest : Text) : Decidable (ClosesOnLine rest) :=
  inferInstanceAs (Decidable (_ ∧ _))

/-- The literals of a text, which starts at offset `offset`, that are closed on
their line.  The first `pending` bytes belong to one that was already read. -/
def closedFrom : (offset pending : Nat) → Text → List Span
  | _, _, [] => []
  | offset, pending + 1, _ :: rest => closedFrom (offset + 1) pending rest
  | offset, 0, b :: rest =>
    if b = Byte.quote ∧ ClosesOnLine rest then
      ⟨offset, offset + 1 + (literalBody rest).1.length⟩ ::
        closedFrom (offset + 1) (literalBody rest).1.length rest
    else closedFrom (offset + 1) 0 rest

/-- The literals of `source` from offset `cursor` on that are closed on their
line. -/
def closedSpans (source : Text) (cursor : Nat) : List Span :=
  closedFrom cursor 0 (source.drop cursor)

/-- Whether one of these literals holds the byte at offset `s`. -/
def Hides (source : Text) (cursor s : Nat) : Prop :=
  ∃ span ∈ closedSpans source cursor, span.Holds s

instance (source : Text) (cursor s : Nat) : Decidable (Hides source cursor s) :=
  inferInstanceAs (Decidable (∃ span ∈ closedSpans source cursor, span.Holds s))

/-! ## The search sees the same literals -/

@[simp] theorem not_closesOnLine_nil : ¬ ClosesOnLine [] := by
  simp [ClosesOnLine]

@[simp] theorem closesOnLine_quote (rest : Text) : ClosesOnLine (Byte.quote :: rest) := by
  simp [ClosesOnLine, Byte.newline, Byte.quote]

@[simp] theorem not_closesOnLine_newline (rest : Text) :
    ¬ ClosesOnLine (Byte.newline :: rest) := by
  simp [ClosesOnLine]

@[simp] theorem closesOnLine_backslash (taken : UInt8) (later : Text) :
    ClosesOnLine (Byte.backslash :: taken :: later) ↔
      taken ≠ Byte.newline ∧ ClosesOnLine later := by
  have hne : Byte.newline ≠ Byte.backslash := by decide
  simp only [ClosesOnLine, Comment.literalBody_backslash, List.mem_cons, not_or]
  constructor
  · rintro ⟨hclosed, -, htaken, hnewline⟩
    exact ⟨Ne.symm htaken, hclosed, hnewline⟩
  · rintro ⟨htaken, hclosed, hnewline⟩
    exact ⟨hclosed, hne, Ne.symm htaken, hnewline⟩

theorem closesOnLine_of_ne {b : UInt8} (rest : Text) (hquote : b ≠ Byte.quote)
    (hnewline : b ≠ Byte.newline) (hbackslash : b ≠ Byte.backslash) :
    ClosesOnLine (b :: rest) ↔ ClosesOnLine rest := by
  simp [ClosesOnLine, Comment.literalBody_of_ne rest hquote hnewline hbackslash,
    Ne.symm hnewline]

private theorem closedLengthAfter_eq (seen : Nat) (rest : Text) :
    closedLengthAfter seen false rest =
      if ClosesOnLine rest then some (seen + (literalBody rest).1.length) else none := by
  fun_induction literalBody rest generalizing seen with
  | case1 => rfl
  | case2 later => simp [closedLengthAfter, Byte.newline, Byte.quote]
  | case3 later => simp [closedLengthAfter]
  | case4 => rfl
  | case5 taken later hquote hnewline ih =>
      have hescape : closedLengthAfter seen false (Byte.backslash :: taken :: later) =
          if taken = Byte.newline then none else closedLengthAfter (seen + 2) false later := rfl
      rw [hescape, ih]
      have hlength : seen + 2 + (literalBody later).1.length =
          seen + ((literalBody later).1.length + 1 + 1) := by omega
      by_cases htaken : taken = Byte.newline <;> simp [htaken, hlength]
  | case6 b later hquote hnewline hbackslash ih =>
      have hplain : closedLengthAfter seen false (b :: later) =
          closedLengthAfter (seen + 1) false later := by
        simp [closedLengthAfter, hquote, hnewline, hbackslash]
      have hlength : seen + 1 + (literalBody later).1.length =
          seen + ((literalBody later).1.length + 1) := by omega
      rw [hplain, ih]
      simp [closesOnLine_of_ne later hquote hnewline hbackslash, hlength]

theorem closedLength?_eq (rest : Text) :
    closedLength? rest = if ClosesOnLine rest then some (literalBody rest).1.length else none := by
  rw [closedLength?, closedLengthAfter_eq, Nat.zero_add]

/-! ## Reading goes on where it paused -/

private theorem closedFrom_eq_closedSpans (source : Text) (offset pending : Nat) :
    closedFrom offset pending (source.drop offset) = closedSpans source (offset + pending) := by
  induction pending generalizing offset with
  | zero => rfl
  | succ pending ih =>
      rcases Nat.lt_or_ge offset source.length with hlt | hge
      · rw [List.drop_eq_getElem_cons hlt, closedFrom, ih, Nat.add_assoc, Nat.add_comm 1]
      · have hdrop : source.drop (offset + (pending + 1)) = [] :=
          List.drop_eq_nil_of_le (by omega)
        rw [List.drop_eq_nil_of_le hge, closedSpans, hdrop]
        rfl

theorem closedSpans_of_ge {source : Text} {offset : Nat} (hge : source.length ≤ offset) :
    closedSpans source offset = [] := by
  rw [closedSpans, List.drop_eq_nil_of_le hge]
  rfl

theorem closedSpans_of_closes {source : Text} {offset : Nat} {rest : Text}
    (hdrop : source.drop offset = Byte.quote :: rest) (hcloses : ClosesOnLine rest) :
    closedSpans source offset =
      ⟨offset, offset + 1 + (literalBody rest).1.length⟩ ::
        closedSpans source (offset + 1 + (literalBody rest).1.length) := by
  have hrest : source.drop (offset + 1) = rest := Text.drop_succ_of_drop hdrop
  rw [← closedFrom_eq_closedSpans source (offset + 1), hrest, closedSpans, hdrop, closedFrom,
    if_pos ⟨rfl, hcloses⟩]

theorem closedSpans_of_not {source : Text} {offset : Nat} {b : UInt8} {rest : Text}
    (hdrop : source.drop offset = b :: rest) (hnot : ¬ (b = Byte.quote ∧ ClosesOnLine rest)) :
    closedSpans source offset = closedSpans source (offset + 1) := by
  have hrest : source.drop (offset + 1) = rest := Text.drop_succ_of_drop hdrop
  rw [closedSpans, hdrop, closedFrom, if_neg hnot, ← hrest]
  rfl

theorem hides_of_closes {source : Text} {offset s : Nat} {rest : Text}
    (hdrop : source.drop offset = Byte.quote :: rest) (hcloses : ClosesOnLine rest) :
    Hides source offset s ↔
      (offset < s ∧ s < offset + 1 + (literalBody rest).1.length) ∨
        Hides source (offset + 1 + (literalBody rest).1.length) s := by
  unfold Hides
  rw [closedSpans_of_closes hdrop hcloses, List.exists_mem_cons_iff]
  rfl

theorem hides_of_not {source : Text} {offset s : Nat} {b : UInt8} {rest : Text}
    (hdrop : source.drop offset = b :: rest) (hnot : ¬ (b = Byte.quote ∧ ClosesOnLine rest)) :
    Hides source offset s ↔ Hides source (offset + 1) s := by
  unfold Hides
  rw [closedSpans_of_not hdrop hnot]

theorem start_of_mem_closedSpans {source : Text} {offset : Nat} {span : Span}
    (hspan : span ∈ closedSpans source offset) : offset ≤ span.start := by
  induction hahead : source.length - offset using Nat.strongRecOn generalizing offset with
  | ind ahead ih =>
      subst hahead
      cases hdrop : source.drop offset with
      | nil =>
          rw [closedSpans_of_ge (List.drop_eq_nil_iff.mp hdrop)] at hspan
          cases hspan
      | cons b rest =>
          have hlt : offset < source.length := Text.lt_length_of_drop hdrop
          by_cases hcloses : b = Byte.quote ∧ ClosesOnLine rest
          · obtain ⟨rfl, hcloses⟩ := hcloses
            rw [closedSpans_of_closes hdrop hcloses] at hspan
            rcases List.mem_cons.mp hspan with rfl | hspan
            · exact Nat.le_refl offset
            · have hlater := ih _ (by omega) hspan rfl
              omega
          · rw [closedSpans_of_not hdrop hcloses] at hspan
            have hlater := ih _ (by omega) hspan rfl
            omega

theorem lt_of_hides {source : Text} {offset s : Nat} (hhides : Hides source offset s) :
    offset < s := by
  obtain ⟨span, hspan, hholds⟩ := hhides
  exact Nat.lt_of_le_of_lt (start_of_mem_closedSpans hspan) hholds.1

/-- Bytes that are no quotes begin no literal. -/
theorem hides_add {source : Text} {offset s : Nat} {taken rest : Text}
    (hdrop : source.drop offset = taken ++ rest) (hquote : Byte.quote ∉ taken) :
    Hides source offset s ↔ Hides source (offset + taken.length) s := by
  induction taken generalizing offset with
  | nil => rfl
  | cons b taken ih =>
      obtain ⟨hb, htaken⟩ := not_or.mp (mt List.mem_cons.mpr hquote)
      have hrest : source.drop (offset + 1) = taken ++ rest := Text.drop_succ_of_drop hdrop
      rw [hides_of_not hdrop fun hcloses => hb hcloses.1.symm, ih hrest htaken,
        List.length_cons, Nat.add_assoc, Nat.add_comm 1]

/-! ## The reading passes every place that is not hidden -/

theorem hides_of_not_hides {source : Text} {offset place s : Nat}
    (hplace : ¬ Hides source offset place) (hle : offset ≤ place) (hs : place ≤ s) :
    Hides source offset s ↔ Hides source place s := by
  induction hahead : place - offset using Nat.strongRecOn generalizing offset with
  | ind ahead ih =>
      subst hahead
      rcases Nat.eq_or_lt_of_le hle with rfl | hlt
      · rfl
      cases hdrop : source.drop offset with
      | nil =>
          have hend := List.drop_eq_nil_iff.mp hdrop
          unfold Hides
          rw [closedSpans_of_ge hend, closedSpans_of_ge (by omega)]
      | cons b rest =>
          by_cases hcloses : b = Byte.quote ∧ ClosesOnLine rest
          · obtain ⟨rfl, hcloses⟩ := hcloses
            rw [hides_of_closes hdrop hcloses] at hplace
            obtain ⟨hpassed, hlater⟩ := not_or.mp hplace
            rw [hides_of_closes hdrop hcloses, or_iff_right (by omega)]
            exact ih _ (by omega) hlater (by omega) rfl
          · rw [hides_of_not hdrop hcloses] at hplace ⊢
            exact ih _ (by omega) hplace (by omega) rfl

/-! ## Every line is read anew -/

/-- A literal that is closed on its line ends in front of every newline behind its
quote. -/
theorem stop_le_of_newline {source : Text} {offset place : Nat}
    (hcloses : ClosesOnLine (source.drop (offset + 1)))
    (hnewline : source[place]? = some Byte.newline) (hlt : offset < place) :
    offset + 1 + (literalBody (source.drop (offset + 1))).1.length ≤ place := by
  refine Nat.le_of_not_lt fun hinside => hcloses.2 ?_
  obtain ⟨hplace, hget⟩ := List.getElem?_eq_some_iff.mp hnewline
  have hbody := (Comment.literalBody_isPrefix (source.drop (offset + 1))).getElem
    (show place - (offset + 1) < _ by omega)
  have hsame : offset + 1 + (place - (offset + 1)) = place := by omega
  simp only [List.getElem_drop, hsame, hget] at hbody
  exact hbody ▸ List.getElem_mem _

/-- The reading passes every place behind a newline. -/
theorem hides_of_newline {source : Text} {offset place s : Nat}
    (hnewline : source[place]? = some Byte.newline) (hle : offset ≤ place + 1)
    (hs : place < s) : Hides source offset s ↔ Hides source (place + 1) s := by
  induction hahead : place + 1 - offset using Nat.strongRecOn generalizing offset with
  | ind ahead ih =>
      subst hahead
      rcases Nat.eq_or_lt_of_le hle with rfl | hlt
      · rfl
      obtain ⟨hplace, hget⟩ := List.getElem?_eq_some_iff.mp hnewline
      have hdrop := List.drop_eq_getElem_cons (show offset < source.length by omega)
      by_cases hcloses : source[offset] = Byte.quote ∧ ClosesOnLine (source.drop (offset + 1))
      · obtain ⟨hquote, hcloses⟩ := hcloses
        rw [hquote] at hdrop
        have hne : offset ≠ place := by
          rintro rfl
          rw [hquote] at hget
          cases hget
        have hpassed := stop_le_of_newline hcloses hnewline (by omega)
        rw [hides_of_closes hdrop hcloses, or_iff_right (by omega)]
        exact ih _ (by omega) (by omega) rfl
      · rw [hides_of_not hdrop hcloses]
        exact ih _ (by omega) (by omega) rfl

/-- No literal that is closed on its line holds a newline. -/
theorem not_hides_newline {source : Text} {offset place : Nat}
    (hnewline : source[place]? = some Byte.newline) : ¬ Hides source offset place := by
  induction hahead : place - offset using Nat.strongRecOn generalizing offset with
  | ind ahead ih =>
      subst hahead
      intro hhides
      have hoffset := lt_of_hides hhides
      obtain ⟨hplace, -⟩ := List.getElem?_eq_some_iff.mp hnewline
      have hdrop := List.drop_eq_getElem_cons (show offset < source.length by omega)
      by_cases hcloses : source[offset] = Byte.quote ∧ ClosesOnLine (source.drop (offset + 1))
      · obtain ⟨hquote, hcloses⟩ := hcloses
        rw [hquote] at hdrop
        have hpassed := stop_le_of_newline hcloses hnewline hoffset
        rw [hides_of_closes hdrop hcloses, or_iff_right (by omega)] at hhides
        exact ih _ (by omega) rfl hhides
      · rw [hides_of_not hdrop hcloses] at hhides
        exact ih _ (by omega) rfl hhides

/-- Behind a quote that is not closed on its line, no literal of that line is
closed either: every further quote on the line is escaped. -/
theorem not_hides_of_open {source : Text} {offset s seen : Nat} {escaped : Bool}
    (hopen : closedLengthAfter seen escaped (source.drop offset) = none)
    (hline : ∀ place, offset ≤ place → place < s → source[place]? ≠ some Byte.newline) :
    ¬ Hides source offset s := by
  induction hahead : s - offset using Nat.strongRecOn generalizing offset seen escaped with
  | ind ahead ih =>
      subst hahead
      intro hhides
      have hoffset := lt_of_hides hhides
      cases hdrop : source.drop offset with
      | nil =>
          obtain ⟨span, hspan, -⟩ := hhides
          rw [closedSpans_of_ge (List.drop_eq_nil_iff.mp hdrop)] at hspan
          cases hspan
      | cons b rest =>
          have hrest : source.drop (offset + 1) = rest := Text.drop_succ_of_drop hdrop
          have hnewline : b ≠ Byte.newline := by
            rintro rfl
            refine hline offset (Nat.le_refl offset) hoffset ?_
            rw [← List.head?_drop, hdrop, List.head?_cons]
          rw [hdrop, closedLengthAfter, if_neg hnewline] at hopen
          -- Whichever byte stands here, no literal that is closed on the line begins.
          have hskip : ¬ (b = Byte.quote ∧ ClosesOnLine rest) ∧
              ∃ seen escaped, closedLengthAfter seen escaped rest = none := by
            cases escaped with
            | true =>
                rw [if_pos rfl] at hopen
                refine ⟨fun hcloses => ?_, _, _, hopen⟩
                rw [closedLengthAfter_eq, if_pos hcloses.2] at hopen
                cases hopen
            | false =>
                rw [if_neg Bool.false_ne_true] at hopen
                split at hopen
                · cases hopen
                · next hquote => exact ⟨fun hcloses => hquote hcloses.1, _, _, hopen⟩
          obtain ⟨hnot, seen, escaped, hopen⟩ := hskip
          rw [hides_of_not hdrop hnot] at hhides
          exact ih _ (by omega) (hrest.symm ▸ hopen)
            (fun place hle hlt => hline place (by omega) hlt) rfl hhides

theorem not_hides_of_not_closes {source : Text} {offset s : Nat} {rest : Text}
    (hdrop : source.drop offset = Byte.quote :: rest) (hcloses : ¬ ClosesOnLine rest)
    (hline : ∀ place, offset ≤ place → place < s → source[place]? ≠ some Byte.newline) :
    ¬ Hides source offset s := by
  have hrest : source.drop (offset + 1) = rest := Text.drop_succ_of_drop hdrop
  have hopen : closedLengthAfter 0 false (source.drop (offset + 1)) = none := by
    rw [hrest, closedLengthAfter_eq, if_neg hcloses]
  rw [hides_of_not hdrop fun hboth => hcloses hboth.2]
  exact not_hides_of_open hopen fun place hle hlt => hline place (by omega) hlt

end Literal

end NetlistSplit
