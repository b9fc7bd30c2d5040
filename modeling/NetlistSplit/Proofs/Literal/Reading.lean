import NetlistSplit.Proofs.Literal.Closed

/-!
# Closed literals as a language

A literal that is closed on its line is a quote, then bytes without a newline in which
every quote stands behind a backslash, and then a quote (`ClosesOnLine.exists_inner`,
`Inner.closesOnLine`).  A backslash takes the next byte with it, so it is the second one of two
that does not.

`Reads` reads a text from left to right.  Where a closed literal begins it is taken as a
whole, and any other byte is passed over.  There is one such reading, and it is
`closedSpans` (`reads_iff`).
-/

namespace NetlistSplit.Literal

open Comment (literalBody)

/-- Whether a text may stand between the quotes of a literal that is closed on its line. -/
inductive Inner : Text → Prop where
  | nil : Inner []
  | escape {taken : UInt8} {later : Text} (htaken : taken ≠ Byte.newline) (hlater : Inner later) :
      Inner (Byte.backslash :: taken :: later)
  | plain {b : UInt8} {later : Text} (hquote : b ≠ Byte.quote) (hnewline : b ≠ Byte.newline)
      (hbackslash : b ≠ Byte.backslash) (hlater : Inner later) : Inner (b :: later)

/-- Whether `spans` are the closed literals of `source` from an offset on, read from left to
right.  A quote at which none begins is passed over like any other byte. -/
inductive Reads (source : Text) : (offset : Nat) → (spans : List Span) → Prop where
  | done {offset : Nat} (hend : source.length ≤ offset) : Reads source offset []
  | literal {offset : Nat} {inner rest : Text} {spans : List Span} (hinner : Inner inner)
      (hdrop : source.drop offset = Byte.quote :: (inner ++ Byte.quote :: rest))
      (hlater : Reads source (offset + 1 + (inner.length + 1)) spans) :
      Reads source offset (⟨offset, offset + 1 + (inner.length + 1)⟩ :: spans)
  | other {offset : Nat} {b : UInt8} {rest : Text} {spans : List Span}
      (hdrop : source.drop offset = b :: rest)
      (hnone : ¬ ∃ inner later, Inner inner ∧
        b :: rest = Byte.quote :: (inner ++ Byte.quote :: later))
      (hlater : Reads source (offset + 1) spans) : Reads source offset spans

/-! ## Which quotes begin a closed literal -/

theorem Inner.newline_notMem {inner : Text} (hinner : Inner inner) : Byte.newline ∉ inner := by
  induction hinner with
  | nil => exact List.not_mem_nil
  | escape htaken hlater ih =>
      simp only [List.mem_cons, not_or]
      exact ⟨by decide, Ne.symm htaken, ih⟩
  | plain hquote hnewline hbackslash hlater ih =>
      exact List.not_mem_cons_of_ne_of_not_mem (Ne.symm hnewline) ih

/-- The first quote that is not taken by a backslash ends the literal. -/
theorem Inner.literalBody_append {inner : Text} (hinner : Inner inner) (rest : Text) :
    literalBody (inner ++ Byte.quote :: rest) = (inner ++ [Byte.quote], true) := by
  induction hinner with
  | nil => exact Comment.literalBody_quote rest
  | escape htaken hlater ih =>
      rw [List.cons_append, List.cons_append, Comment.literalBody_backslash, ih]
      rfl
  | plain hquote hnewline hbackslash hlater ih =>
      rw [List.cons_append, Comment.literalBody_of_ne _ hquote hnewline hbackslash, ih]
      rfl

theorem ClosesOnLine.exists_inner {rest : Text} (hcloses : ClosesOnLine rest) :
    ∃ inner later, Inner inner ∧ rest = inner ++ Byte.quote :: later := by
  fun_induction literalBody rest with
  | case1 => exact absurd hcloses not_closesOnLine_nil
  | case2 rest => exact ⟨[], rest, .nil, rfl⟩
  | case3 rest => exact absurd hcloses (not_closesOnLine_newline rest)
  | case4 => exact absurd hcloses.1 (by decide)
  | case5 taken later hquote hnewline ih =>
      obtain ⟨htaken, hlater⟩ := (closesOnLine_backslash taken later).mp hcloses
      obtain ⟨inner, behind, hinner, rfl⟩ := ih hlater
      exact ⟨_, behind, .escape htaken hinner, rfl⟩
  | case6 b rest hquote hnewline hbackslash ih =>
      have hlater := (closesOnLine_of_ne rest hquote hnewline hbackslash).mp hcloses
      obtain ⟨inner, behind, hinner, rfl⟩ := ih hlater
      exact ⟨_, behind, .plain hquote hnewline hbackslash hinner, rfl⟩

theorem Inner.closesOnLine {inner : Text} (hinner : Inner inner) (rest : Text) :
    ClosesOnLine (inner ++ Byte.quote :: rest) := by
  rw [ClosesOnLine, hinner.literalBody_append rest, List.mem_append]
  refine ⟨rfl, not_or.mpr ⟨hinner.newline_notMem, ?_⟩⟩
  decide

/-! ## The one reading -/

theorem reads_closedSpans (source : Text) (offset : Nat) :
    Reads source offset (closedSpans source offset) := by
  induction hahead : source.length - offset using Nat.strongRecOn generalizing offset with
  | ind ahead ih =>
      subst hahead
      cases hdrop : source.drop offset with
      | nil =>
          have hend := List.drop_eq_nil_iff.mp hdrop
          rw [closedSpans_of_ge hend]
          exact .done hend
      | cons b rest =>
          have hlt : offset < source.length := Text.lt_length_of_drop hdrop
          by_cases hcloses : b = Byte.quote ∧ ClosesOnLine rest
          · obtain ⟨rfl, hcloses⟩ := hcloses
            obtain ⟨inner, later, hinner, rfl⟩ := hcloses.exists_inner
            have hlength : (literalBody (inner ++ Byte.quote :: later)).1.length =
                inner.length + 1 := by
              rw [hinner.literalBody_append later, List.length_append, List.length_singleton]
            rw [closedSpans_of_closes hdrop hcloses, hlength]
            exact .literal hinner hdrop (ih _ (by omega) _ rfl)
          · rw [closedSpans_of_not hdrop hcloses]
            refine .other hdrop ?_ (ih _ (by omega) _ rfl)
            rintro ⟨inner, later, hinner, heq⟩
            obtain ⟨rfl, rfl⟩ := List.cons.inj heq
            exact hcloses ⟨rfl, hinner.closesOnLine later⟩

theorem Reads.eq_closedSpans {source : Text} {offset : Nat} {spans : List Span}
    (hreads : Reads source offset spans) : spans = closedSpans source offset := by
  induction hreads with
  | done hend => exact (closedSpans_of_ge hend).symm
  | @literal offset inner rest spans hinner hdrop hlater ih =>
      rw [closedSpans_of_closes hdrop (hinner.closesOnLine rest), hinner.literalBody_append rest,
        List.length_append, List.length_singleton, ← ih]
  | @other offset b rest spans hdrop hnone hlater ih =>
      rw [closedSpans_of_not hdrop, ← ih]
      rintro ⟨rfl, hcloses⟩
      obtain ⟨inner, later, hinner, rfl⟩ := hcloses.exists_inner
      exact hnone ⟨inner, later, hinner, rfl⟩

theorem reads_iff {source : Text} {offset : Nat} {spans : List Span} :
    Reads source offset spans ↔ spans = closedSpans source offset := by
  constructor
  · exact Reads.eq_closedSpans
  · rintro rfl
    exact reads_closedSpans source offset

/-- A closed literal begins with a quote. -/
theorem quote_of_mem_closedSpans {source : Text} {offset : Nat} {span : Span}
    (hspan : span ∈ closedSpans source offset) : source[span.start]? = some Byte.quote := by
  have hreads := reads_closedSpans source offset
  generalize closedSpans source offset = spans at hspan hreads
  induction hreads with
  | done hend => cases hspan
  | literal hinner hdrop hlater ih =>
      rcases List.mem_cons.mp hspan with rfl | hspan
      · rw [← List.head?_drop, hdrop, List.head?_cons]
      · exact ih hspan
  | other hdrop hnone hlater ih => exact ih hspan

end NetlistSplit.Literal
