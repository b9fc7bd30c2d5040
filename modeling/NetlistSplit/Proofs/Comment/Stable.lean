import Mathlib.Logic.Function.Iterate
import NetlistSplit.Proofs.Comment.Stripping

/-!
# Stripped text is stable

A text is left as it is just if none of its tokens is a comment
(`strip_eq_self_iff`).  The kept tokens of a netlist are no comments, and the text
that they make up is made up of them again, so one pass removes all there is to
remove (`strip_stable`).

Two ways to cut such a text leave it free of comments.  Whatever follows may be
cut off (`strip_of_append`): all bytes are kept, so none was dropped up to the cut
either.  And what stands in front may be cut off where a token begins
(`strip_of_tokens_append`).
-/

namespace NetlistSplit.Comment

/-! ## Text without comments -/

theorem isComment_of_rereads {list : List Token} {rest : Text} (hlist : Rereads list rest) :
    ∀ token ∈ list, token.isComment = false := by
  induction list with
  | nil =>
      intro token hmem
      cases hmem
  | cons first later ih =>
      intro token hmem
      rcases List.mem_cons.mp hmem with rfl | hmem
      · exact hlist.1
      · exact ih hlist.2.2 token hmem

/-- Stripped text holds no comments, so its tokens are read again from their own
texts. -/
theorem rereads_tokens_of_strip {source text : Text} (hstrip : strip source = .ok text) :
    Rereads (tokens text) [] := by
  rw [strip_eq_keptText] at hstrip
  split at hstrip
  · cases hstrip
  · obtain rfl := Except.ok.inj hstrip
    rw [tokens_keptText]
    exact (rereads_foldl_keepIn source (show Rereads [] source from trivial)).1

theorem unclosedFrom_of_plain {list : List Token}
    (hplain : ∀ token ∈ list, token.isComment = false) (offset : Nat) :
    unclosedFrom offset list = none := by
  induction list generalizing offset with
  | nil => rfl
  | cons token later ih =>
      have hclosed : token.isUnclosedComment = false := by
        have hcomment := hplain token List.mem_cons_self
        cases token with
        | blockComment text closed => cases hcomment
        | _ => rfl
      rw [unclosedFrom, hclosed, if_neg Bool.false_ne_true]
      exact ih (fun other hother => hplain other (List.mem_cons_of_mem _ hother)) _

theorem foldl_addTo_of_plain {list : List Token}
    (hplain : ∀ token ∈ list, token.isComment = false) (built : Text) :
    list.foldl Token.addTo built = built ++ list.flatMap Token.text := by
  induction list generalizing built with
  | nil => simp
  | cons token later ih =>
      have hadd : token.addTo built = built ++ token.text := by
        have hcomment := hplain token List.mem_cons_self
        cases token with
        | code b => rfl
        | literal text closed => rfl
        | lineComment text closed => cases hcomment
        | blockComment text closed => cases hcomment
      rw [List.foldl_cons, hadd,
        ih fun other hother => hplain other (List.mem_cons_of_mem _ hother),
        List.flatMap_cons, List.append_assoc]

/-- A text stays as it is just if it holds no comments. -/
theorem strip_eq_self_iff {text : Text} :
    strip text = .ok text ↔ ∀ token ∈ tokens text, token.isComment = false := by
  constructor
  · intro hstrip
    exact isComment_of_rereads (rereads_tokens_of_strip hstrip)
  · intro hplain
    have hkept : keptText (tokens text) = text :=
      calc keptText (tokens text)
          = [] ++ (tokens text).flatMap Token.text := foldl_addTo_of_plain hplain []
        _ = text := flatMap_text_tokens text
    rw [strip_eq_keptText, unclosedFrom_of_plain hplain 0, hkept]

/-! ## One pass removes all comments -/

/-- After one pass the text is read as the tokens that the pass kept.  None of them
is a comment, and no further pass changes anything. -/
theorem strip_stable {source text : Text} (hstrip : strip source = .ok text) :
    tokens text = keptTokens (tokens source) ∧
      (∀ token ∈ tokens text, token.isComment = false) ∧
      strip text = .ok text ∧
      ∀ passes : Nat, (fun result => result.bind strip)^[passes] (strip text) = .ok text := by
  have hplain : ∀ token ∈ tokens text, token.isComment = false :=
    isComment_of_rereads (rereads_tokens_of_strip hstrip)
  have hself : strip text = .ok text := strip_eq_self_iff.mpr hplain
  refine ⟨?_, hplain, hself, ?_⟩
  · rw [strip_eq_keptText] at hstrip
    split at hstrip
    · cases hstrip
    · obtain rfl := Except.ok.inj hstrip
      exact tokens_keptText source
  · intro passes
    rw [hself]
    exact Function.iterate_fixed hself passes

/-- The slash stays away from the comments that are deleted behind it, and so does
the quote in a comment from the literal. -/
theorem strip_stable_between_slashes :
    strip (Text.ofString "a / /* \" *//* x */ / \"//\" // b\n*c") =
        .ok (Text.ofString "a /  / \"//\"\n*c") ∧
      strip (Text.ofString "a /  / \"//\"\n*c") = .ok (Text.ofString "a /  / \"//\"\n*c") := by
  have hstrip : strip (Text.ofString "a / /* \" *//* x */ / \"//\" // b\n*c") =
      .ok (Text.ofString "a /  / \"//\"\n*c") := rfl
  exact ⟨hstrip, (strip_stable hstrip).2.2.1⟩

/-! ## Cutting off what follows -/

namespace Stripper

/-- A byte is kept, or nothing is added to what is kept. -/
theorem step_cases (s : Stripper) (b : UInt8) :
    ((s.step b).kept = b :: s.kept ∧ (s.step b).finish = .ok (b :: s.kept).reverse) ∨
      (s.step b).kept.length ≤ s.kept.length := by
  obtain ⟨mode, line, kept⟩ := s
  cases mode with
  | code =>
      left
      simp only [step, Mode.keep, Mode.next, finish]
      split_ifs <;> exact ⟨trivial, rfl⟩
  | slash =>
      simp only [step, Mode.keep, Mode.next, finish]
      split_ifs with hslash hstar hquote
      · right
        exact ((List.dropWhile_suffix _).trans (List.tail_suffix kept)).length_le
      · right
        exact (List.tail_suffix kept).length_le
      · exact .inl ⟨rfl, rfl⟩
      · exact .inl ⟨rfl, rfl⟩
  | literal =>
      left
      simp only [step, Mode.keep, Mode.next, finish]
      split_ifs <;> exact ⟨trivial, rfl⟩
  | escape => exact .inl ⟨rfl, rfl⟩
  | lineComment =>
      simp only [step, Mode.keep, Mode.next, finish]
      split_ifs with hnewline
      · exact .inl ⟨rfl, rfl⟩
      · exact .inr (Nat.le_refl _)
  | blockComment opened => exact .inr (Nat.le_refl _)
  | blockStar opened => exact .inr (Nat.le_refl _)

theorem length_kept_read (s : Stripper) (text : Text) :
    (s.read text).kept.length ≤ s.kept.length + text.length := by
  induction text generalizing s with
  | nil => exact Nat.le_refl _
  | cons b rest ih =>
      have hrest : ((s.step b).read rest).kept.length ≤ (s.step b).kept.length + rest.length :=
        ih (s.step b)
      change ((s.step b).read rest).kept.length ≤ s.kept.length + (rest.length + 1)
      rcases step_cases s b with ⟨hkept, -⟩ | hkept
      · rw [hkept, List.length_cons] at hrest
        omega
      · omega

/-- What has been dropped is missing at the end. -/
theorem read_cases (text : Text) :
    (read {} text).finish = .ok text ∧ (read {} text).kept = text.reverse ∨
      (read {} text).kept.length < text.length := by
  induction text using List.reverseRecOn with
  | nil => exact .inl ⟨rfl, rfl⟩
  | append_singleton first b ih =>
      have hstep : read {} (first ++ [b]) = (read {} first).step b := read_append {} first [b]
      have hlength := length_kept_read {} first
      rw [hstep, List.length_append, List.length_singleton]
      rcases step_cases (read {} first) b with ⟨hkept, hfinish⟩ | hkept
      · rcases ih with ⟨-, hall⟩ | hshort
        · left
          rw [hfinish, hkept, hall]
          simp
        · right
          rw [hkept, List.length_cons]
          omega
      · right
        simp only [List.length_nil] at hlength
        omega

theorem eq_of_finish {s : Stripper} {text : Text} (hfinish : s.finish = .ok text) :
    text = s.kept.reverse := by
  unfold finish at hfinish
  split at hfinish
  · cases hfinish
  · cases hfinish
  · exact (Except.ok.inj hfinish).symm

end Stripper

/-- The beginning of a text without comments holds none either. -/
theorem strip_of_append {first second : Text}
    (hstrip : strip (first ++ second) = .ok (first ++ second)) : strip first = .ok first := by
  have hall := congrArg List.length (Stripper.eq_of_finish hstrip)
  have hrest := Stripper.length_kept_read (Stripper.read {} first) second
  rw [Stripper.read_append, List.length_reverse, List.length_append] at hall
  rcases Stripper.read_cases first with ⟨hfinish, -⟩ | hshort
  · exact hfinish
  · omega

/-! ## Cutting off what stands in front -/

/-- From any token on, a text without comments holds none. -/
theorem strip_of_tokens_append {text : Text} {first second : List Token}
    (hstrip : strip text = .ok text) (htokens : tokens text = first ++ second) :
    strip (text.drop (first.flatMap Token.text).length) =
      .ok (text.drop (first.flatMap Token.text).length) := by
  have hrest : text.drop (first.flatMap Token.text).length = second.flatMap Token.text := by
    have htext := flatMap_text_tokens text
    rw [htokens, List.flatMap_append] at htext
    rw [← htext, List.drop_left]
  have hreads : Rereads second [] := by
    have hall := rereads_tokens_of_strip hstrip
    rw [htokens] at hall
    exact (rereads_append.mp hall).2
  have hsecond : tokens (second.flatMap Token.text) = second := by
    simpa using tokens_of_rereads hreads
  rw [hrest, strip_eq_self_iff, hsecond]
  exact isComment_of_rereads hreads

end NetlistSplit.Comment
