import NetlistSplit.Proofs.Comment.Stable
import NetlistSplit.Proofs.Keyword.WholeWord
import NetlistSplit.Scanner

/-!
# Where the two readings of literals agree

The removal of comments and the search for keywords each tell literals from code.
They do not always agree.  The removal of comments lets a literal go on over an
escaped newline, and it takes a quote that is never closed for a literal that
ends with its line.  To the search neither is a literal at all, so it finds the
keywords in them.  And where a literal goes on over a newline, the search takes
the quote that closes it for one that opens the next.

## Strategy

A line that does not begin inside a literal begins with a token.  From there on
the two readings go side by side (`hides_iff_closedAt`): they share every literal
that is closed on the line, and the first one that is not closed there takes up
the rest of the line.  So on such a line the readings agree about a keyword unless
it is in a literal that is not closed on its line.
-/

namespace NetlistSplit

/-- The offset at which the line of the byte at an offset begins. -/
def Text.lineStart (text : Text) : (offset : Nat) → Nat
  | 0 => 0
  | offset + 1 =>
    if text[offset]? = some Byte.newline then offset + 1 else Text.lineStart text offset

namespace Comment

/-- The token to which the byte at an offset belongs. -/
def tokenAt : List Token → (offset : Nat) → Option Token
  | [], _ => none
  | token :: later, offset =>
    if offset < token.text.length then some token
    else tokenAt later (offset - token.text.length)

def Token.isLiteral : Token → Bool
  | literal _ _ => true
  | _ => false

/-- Whether a token is a literal that is not closed on the line on which it begins. -/
def Token.isOpenLiteral : Token → Bool
  | literal text closed => !closed || text.contains Byte.newline
  | _ => false

/-- Whether the byte at an offset belongs to a literal. -/
def inLiteral (text : Text) (offset : Nat) : Bool :=
  (tokenAt (tokens text) offset).any Token.isLiteral

/-- Whether the byte at an offset belongs to a literal that is not closed on the
line on which it begins. -/
def inOpenLiteral (text : Text) (offset : Nat) : Bool :=
  (tokenAt (tokens text) offset).any Token.isOpenLiteral

/-- Whether a literal goes on over the newline in front of the line of an offset. -/
def inContinuedLine (text : Text) (offset : Nat) : Bool :=
  match text.lineStart offset with
  | 0 => false
  | newline + 1 => inLiteral text newline

end Comment

namespace Text

/-! ## Lines -/

theorem lineStart_le (text : Text) (offset : Nat) : text.lineStart offset ≤ offset := by
  induction offset with
  | zero => exact Nat.le_refl 0
  | succ offset ih =>
      unfold lineStart
      split <;> omega

theorem not_newline_of_lineStart_le (text : Text) {offset place : Nat}
    (hle : text.lineStart offset ≤ place) (hlt : place < offset) :
    text[place]? ≠ some Byte.newline := by
  induction offset with
  | zero => omega
  | succ offset ih =>
      unfold lineStart at hle
      split at hle
      · omega
      · next hnewline =>
          rcases Nat.lt_succ_iff_lt_or_eq.mp hlt with hlt | rfl
          · exact ih hle hlt
          · exact hnewline

theorem newline_of_lineStart_eq (text : Text) {offset newline : Nat}
    (hstart : text.lineStart offset = newline + 1) : text[newline]? = some Byte.newline := by
  induction offset with
  | zero => cases hstart
  | succ offset ih =>
      unfold lineStart at hstart
      split at hstart
      · next hnewline =>
          obtain rfl := Nat.succ.inj hstart
          exact hnewline
      · exact ih hstart

end Text

namespace Comment

/-! ## The token at an offset -/

theorem tokenAt_append (first second : List Token) (offset : Nat) :
    tokenAt (first ++ second) ((first.flatMap Token.text).length + offset) =
      tokenAt second offset := by
  induction first with
  | nil => simp
  | cons token first ih =>
      have hbehind : ¬ token.text.length + (first.flatMap Token.text).length + offset <
          token.text.length := by omega
      have hrest : token.text.length + (first.flatMap Token.text).length + offset -
          token.text.length = (first.flatMap Token.text).length + offset := by omega
      rw [List.flatMap_cons, List.length_append, List.cons_append, tokenAt, if_neg hbehind, hrest,
        ih]

/-- In a text without comments, a byte outside of literals is a token of its own. -/
theorem exists_split_of_not_literal {list : List Token} {offset : Nat}
    (hplain : ∀ token ∈ list, token.isComment = false)
    (hlt : offset < (list.flatMap Token.text).length)
    (houtside : (tokenAt list offset).any Token.isLiteral = false) :
    ∃ first b second, list = first ++ .code b :: second ∧
      (first.flatMap Token.text).length = offset := by
  induction list generalizing offset with
  | nil => cases hlt
  | cons token later ih =>
      rw [List.flatMap_cons, List.length_append] at hlt
      rw [tokenAt] at houtside
      split at houtside
      · next hinside =>
          have hcomment := hplain token List.mem_cons_self
          cases token with
          | code b =>
              have hoffset : offset = 0 := Nat.lt_one_iff.mp hinside
              exact ⟨[], b, later, rfl, hoffset.symm⟩
          | literal text closed => cases houtside
          | lineComment text closed => cases hcomment
          | blockComment text closed => cases hcomment
      · obtain ⟨first, b, second, rfl, hlength⟩ :=
          ih (fun other hother => hplain other (List.mem_cons_of_mem _ hother)) (by omega) houtside
        refine ⟨token :: first, b, second, rfl, ?_⟩
        rw [List.flatMap_cons, List.length_append, hlength]
        omega

theorem inLiteral_of_inOpenLiteral {text : Text} {offset : Nat}
    (hopen : inOpenLiteral text offset = true) : inLiteral text offset = true := by
  unfold inOpenLiteral at hopen
  obtain ⟨token, htoken, hopen⟩ := (Option.any_eq_true _ _).mp hopen
  cases token with
  | literal text closed => simp [inLiteral, htoken, Token.isLiteral]
  | _ => cases hopen

/-! ## A line that begins with a token -/

/-- Whether the byte at an offset belongs to a literal that is closed on its line. -/
private def closedAt (list : List Token) (offset : Nat) : Bool :=
  (tokenAt list offset).any fun token => token.isLiteral && !token.isOpenLiteral

private theorem isOpenLiteral_eq_false_iff {body rest : Text} {closed : Bool}
    (hbody : literalBody (body ++ rest) = (body, closed)) :
    (Token.literal (Byte.quote :: body) closed).isOpenLiteral = false ↔
      Literal.ClosesOnLine (body ++ rest) := by
  have hquote : Byte.newline ≠ Byte.quote := by decide
  simp [Token.isOpenLiteral, Literal.ClosesOnLine, hbody, hquote]

/-- A literal that is not closed on its line takes up the rest of the line. -/
private theorem lt_of_not_closesOnLine {body rest text : Text} {closed : Bool} {offset s : Nat}
    {b : UInt8} (hbody : literalBody (body ++ rest) = (body, closed))
    (hcloses : ¬ Literal.ClosesOnLine (body ++ rest))
    (hdrop : text.drop offset = Byte.quote :: body ++ rest) (hs : text[s]? = some b)
    (hline : ∀ place, offset ≤ place → place ≤ s → text[place]? ≠ some Byte.newline) :
    s < offset + (Byte.quote :: body).length := by
  apply Nat.lt_of_not_le
  intro hpast
  have hrest : text.drop (offset + (Byte.quote :: body).length) = rest := by
    rw [← List.drop_drop, hdrop, List.drop_left]
  -- The literal holds a newline, ends with the text, or ends in front of a newline.
  rcases literalBody_cases hbody with ⟨rfl, -, -⟩ | ⟨-, rfl⟩ | ⟨-, hhead, -⟩
  · have hnewline : Byte.newline ∈ body := by
      simpa [Literal.ClosesOnLine, hbody] using hcloses
    obtain ⟨i, hi, hget⟩ := List.getElem_of_mem hnewline
    refine hline (offset + (i + 1)) (by omega) (by simp only [List.length_cons] at hpast; omega) ?_
    rw [← List.getElem?_drop, hdrop, List.cons_append, List.getElem?_cons_succ,
      List.getElem?_append_left hi, List.getElem?_eq_getElem hi, hget]
  · have hlength := List.drop_eq_nil_iff.mp hrest
    rw [List.getElem?_eq_none (by omega)] at hs
    cases hs
  · refine hline _ (Nat.le_add_right _ _) hpast ?_
    rw [← List.head?_drop, hrest]
    exact hhead

/-- From the beginning of a token to the end of the line, the two readings share
the literals that are closed there. -/
theorem hides_iff_closedAt {list : List Token} {text : Text} {offset s : Nat} {b : UInt8}
    (hlist : Rereads list []) (hdrop : text.drop offset = list.flatMap Token.text)
    (hle : offset ≤ s) (hs : text[s]? = some b) (hquote : b ≠ Byte.quote)
    (hline : ∀ place, offset ≤ place → place ≤ s → text[place]? ≠ some Byte.newline) :
    Literal.Hides text offset s ↔ closedAt list (s - offset) = true := by
  induction list generalizing offset with
  | nil =>
      have hlength := List.drop_eq_nil_iff.mp hdrop
      rw [List.getElem?_eq_none (by omega)] at hs
      cases hs
  | cons token later ih =>
      obtain ⟨hcomment, hleads, hlater⟩ := hlist
      rw [List.append_nil] at hleads
      rw [List.flatMap_cons] at hdrop
      have hbehind : text.drop (offset + token.text.length) = later.flatMap Token.text := by
        rw [← List.drop_drop, hdrop, List.drop_left]
      -- What lies behind the token is read as the later tokens are.
      have hgoes : offset + token.text.length ≤ s →
          (Literal.Hides text (offset + token.text.length) s ↔
            closedAt (token :: later) (s - offset) = true) := by
        intro hpast
        rw [ih hlater hbehind hpast fun place hle => hline place (by omega)]
        have hnot : ¬ s - offset < token.text.length := by omega
        have hsame : s - offset - token.text.length = s - (offset + token.text.length) := by omega
        rw [closedAt, closedAt, tokenAt, if_neg hnot, hsame]
      have hinside : s < offset + token.text.length →
          closedAt (token :: later) (s - offset) = (token.isLiteral && !token.isOpenLiteral) := by
        intro hlt
        rw [closedAt, tokenAt, if_pos (by omega)]
        rfl
      cases hleads with
      | @code c _ hcode hopener =>
          rw [Literal.hides_of_not hdrop fun hboth => hcode hboth.1]
          rcases Nat.eq_or_lt_of_le hle with rfl | hlt
          · rw [hinside (Nat.lt_add_one offset)]
            refine iff_of_false (fun hhides => ?_) Bool.false_ne_true
            have hstart := Literal.lt_of_hides hhides
            omega
          · exact hgoes hlt
      | @literal body _ closed hbody =>
          have hopens : text[offset]? = some Byte.quote := by
            rw [← List.head?_drop, hdrop]
            rfl
          have hne : offset ≠ s := by
            rintro rfl
            rw [hopens] at hs
            exact hquote (Option.some.inj hs).symm
          have hopened : text.drop offset =
              Byte.quote :: (body ++ later.flatMap Token.text) := hdrop
          have hopen := isOpenLiteral_eq_false_iff hbody
          by_cases hcloses : Literal.ClosesOnLine (body ++ later.flatMap Token.text)
          · have hlength : offset + 1 + (literalBody (body ++ later.flatMap Token.text)).1.length =
                offset + (Token.literal (Byte.quote :: body) closed).text.length := by
              rw [hbody]
              simp only [Token.text, List.length_cons]
              omega
            rw [Literal.hides_of_closes hopened hcloses, hlength]
            rcases Nat.lt_or_ge s (offset + (Token.literal (Byte.quote :: body) closed).text.length)
              with hlt | hge
            · rw [hinside hlt, hopen.mpr hcloses]
              exact iff_of_true (.inl ⟨by omega, hlt⟩) rfl
            · rw [or_iff_right (by omega)]
              exact hgoes hge
          · have hlt := lt_of_not_closesOnLine hbody hcloses hdrop hs hline
            rw [hinside hlt, eq_true_of_ne_false (mt hopen.mp hcloses)]
            refine iff_of_false ?_ Bool.false_ne_true
            exact Literal.not_hides_of_not_closes hopened hcloses fun place hle hlt =>
              hline place hle (Nat.le_of_lt hlt)
      | lineComment hbody => cases hcomment
      | blockComment hbody => cases hcomment

/-! ## The line of a byte -/

/-- For the search every line begins outside of literals. -/
theorem hides_lineStart (text : Text) (s : Nat) :
    Literal.Hides text 0 s ↔ Literal.Hides text (text.lineStart s) s := by
  cases hstart : text.lineStart s with
  | zero => rfl
  | succ newline =>
      have hle := text.lineStart_le s
      exact Literal.hides_of_newline (text.newline_of_lineStart_eq hstart) (Nat.zero_le _)
        (by omega)

/-- Unless a literal goes on over the newline in front of it, a line begins with
a token. -/
theorem exists_split_at_lineStart {text : Text} {s : Nat} (hreads : Rereads (tokens text) [])
    (hline : inContinuedLine text s = false) :
    ∃ first second, tokens text = first ++ second ∧
      (first.flatMap Token.text).length = text.lineStart s := by
  cases hstart : text.lineStart s with
  | zero => exact ⟨[], tokens text, rfl, rfl⟩
  | succ newline =>
      obtain ⟨hlt, -⟩ := List.getElem?_eq_some_iff.mp (text.newline_of_lineStart_eq hstart)
      rw [inContinuedLine, hstart] at hline
      obtain ⟨first, b, second, hsplit, hlength⟩ :=
        exists_split_of_not_literal (isComment_of_rereads hreads)
          (by rw [flatMap_text_tokens]; exact hlt) hline
      refine ⟨first ++ [.code b], second, by rw [hsplit, List.append_assoc]; rfl, ?_⟩
      rw [List.flatMap_append, List.length_append, hlength]
      rfl

/-- On a line that does not begin inside a literal, closed literals hide what is
in a literal, unless that one is not closed on its line. -/
theorem hides_iff_inLiteral {text : Text} {s : Nat} {b : UInt8}
    (hreads : Rereads (tokens text) []) (hs : text[s]? = some b) (hquote : b ≠ Byte.quote)
    (hnewline : b ≠ Byte.newline) (hline : inContinuedLine text s = false) :
    Literal.Hides text 0 s ↔ inLiteral text s = true ∧ inOpenLiteral text s = false := by
  obtain ⟨first, second, hsplit, hlength⟩ := exists_split_at_lineStart hreads hline
  have hle := text.lineStart_le s
  have hdrop : text.drop (text.lineStart s) = second.flatMap Token.text := by
    have htext := flatMap_text_tokens text
    rw [hsplit, List.flatMap_append] at htext
    calc text.drop (text.lineStart s)
        = (first.flatMap Token.text ++ second.flatMap Token.text).drop
            (first.flatMap Token.text).length := by rw [htext, hlength]
      _ = second.flatMap Token.text := List.drop_left
  have hsecond : Rereads second [] := by
    rw [hsplit] at hreads
    exact (rereads_append.mp hreads).2
  have hsame : tokenAt second (s - text.lineStart s) = tokenAt (tokens text) s := by
    rw [hsplit, ← tokenAt_append first, hlength, Nat.add_sub_cancel' hle]
  rw [hides_lineStart, hides_iff_closedAt hsecond hdrop hle hs hquote, closedAt, hsame, inLiteral,
    inOpenLiteral]
  · cases tokenAt (tokens text) s <;> simp
  · intro place hfrom hto
    rcases Nat.eq_or_lt_of_le hto with rfl | hlt
    · rw [hs]
      exact mt Option.some.inj hnewline
    · exact text.not_newline_of_lineStart_le hfrom hlt

end Comment

namespace Keyword

/-! ## Which keywords the readings agree about -/

/-- The two readings agree about a keyword unless it is in a literal that is not
closed on its line.  Where a literal goes on over a newline, they agree about a
keyword in the next line if the literals of that line, read on its own, hold it
just as the literals of the text do. -/
theorem readings_agree_iff {source text : Text} {k : Keyword}
    (hstrip : Comment.strip source = .ok text) (hk : k.Occurs text) :
    (Comment.inContinuedLine text k.start = false →
      ((k ∈ (Scanner.ofText text).keywords ↔ Comment.inLiteral text k.start = false) ↔
        Comment.inOpenLiteral text k.start = false)) ∧
    (Comment.inContinuedLine text k.start = true →
      ((k ∈ (Scanner.ofText text).keywords ↔ Comment.inLiteral text k.start = false) ↔
        (Comment.inLiteral text k.start = true ↔
          Literal.Hides text (text.lineStart k.start) k.start))) := by
  have hfound : k ∈ (Scanner.ofText text).keywords ↔ ¬ Literal.Hides text 0 k.start := by
    refine mem_search_iff.trans ?_
    exact ⟨fun ⟨_, _, hhides⟩ => hhides, fun hhides => ⟨Nat.zero_le _, hk, hhides⟩⟩
  constructor
  · intro hline
    obtain ⟨b, hbyte, hidentifier⟩ := hk.exists_head
    have hquote : b ≠ Byte.quote := by
      rintro rfl
      cases hidentifier
    have hnewline : b ≠ Byte.newline := by
      rintro rfl
      cases hidentifier
    have hopen : Comment.inOpenLiteral text k.start = true →
        Comment.inLiteral text k.start = true := Comment.inLiteral_of_inOpenLiteral
    rw [hfound, Comment.hides_iff_inLiteral (Comment.rereads_tokens_of_strip hstrip) hbyte hquote
      hnewline hline]
    cases hliteral : Comment.inLiteral text k.start with
    | false =>
        have hnot : Comment.inOpenLiteral text k.start = false :=
          Bool.eq_false_iff.mpr fun hin => absurd (hopen hin) (by rw [hliteral]; decide)
        simp [hnot]
    | true => simp
  · intro _
    rw [hfound, Comment.hides_lineStart, ← Bool.not_eq_true, not_iff_not]
    exact iff_comm

/-- The word behind the literal is found. -/
theorem readings_agree_behind_literal :
    (⟨.opener, 9, 15⟩ : Keyword) ∈
        (Scanner.ofText (Text.ofString "\"module\" module")).keywords ↔
      Comment.inLiteral (Text.ofString "\"module\" module") 9 = false := by
  have hstrip : Comment.strip (Text.ofString "/* A */\"module\" module") =
      .ok (Text.ofString "\"module\" module") := rfl
  have hword : (⟨.opener, 9, 15⟩ : Keyword).Occurs (Text.ofString "\"module\" module") :=
    ⟨⟨Text.ofString "module", by decide, by decide, rfl⟩, rfl, rfl⟩
  exact ((readings_agree_iff hstrip hword).1 (by decide)).mpr (by decide)

/-- The word behind an escaped newline in a literal is found all the same. -/
theorem readings_differ_in_continued_literal :
    ¬ ∀ (source text : Text) (k : Keyword), Comment.strip source = .ok text → k.Occurs text →
      (k ∈ (Scanner.ofText text).keywords ↔ Comment.inLiteral text k.start = false) := by
  intro hclaim
  have hstrip : Comment.strip (Text.ofString "module A;\n$display(\"\\\nendmodule\");\n") =
      .ok (Text.ofString "module A;\n$display(\"\\\nendmodule\");\n") := rfl
  have hword : (⟨.closer, 22, 31⟩ : Keyword).Occurs
      (Text.ofString "module A;\n$display(\"\\\nendmodule\");\n") :=
    ⟨⟨Text.ofString "endmodule", by decide, by decide, rfl⟩, rfl, rfl⟩
  have houtside := (hclaim _ _ _ hstrip hword).mp (by decide)
  exact absurd houtside (by decide)

end Keyword

end NetlistSplit
