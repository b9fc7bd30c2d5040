import NetlistSplit.Proofs.Comment.Kept

/-!
# Comments are removed token by token

The automaton that removes comments reads byte by byte, and what it keeps it can
still take back.  This file shows that it removes just what the reading token by
token removes (`strip_eq_keptText`).

## Strategy

Handed a text to read, a stripper has an `outcome`.  The outcome in the middle of
a literal or a comment is the outcome in code behind it (`outcome_literal`,
`outcome_lineComment`, `outcome_blockComment`).  So in code, one token comes to
what `Token.addTo` says it comes to, and only a block comment that is not closed
ends the reading (`outcome_token`).  An induction on the tokens does the rest.
-/

namespace NetlistSplit.Comment

namespace Stripper

/-! ## Literals and comments are read to their end -/

/-- What comes of a text that a stripper has still to read. -/
def outcome (s : Stripper) (text : Text) : Except SourceError Text :=
  (s.read text).finish

@[simp] theorem outcome_cons (s : Stripper) (b : UInt8) (rest : Text) :
    s.outcome (b :: rest) = (s.step b).outcome rest := rfl

theorem line_next (line : Nat) (b : UInt8) :
    (if b = Byte.newline then line + 1 else line) = line + [b].count Byte.newline := by
  by_cases hnewline : b = Byte.newline <;> simp [hnewline]

/-- The stripper in code, `taken` being kept since line `line`. -/
def keeping (line : Nat) (kept taken : Text) : Stripper :=
  ⟨.code, line + taken.count Byte.newline, taken.reverse ++ kept⟩

theorem keeping_cons (line : Nat) (kept : Text) (b : UInt8) (taken : Text) :
    keeping line kept (b :: taken) =
      keeping (if b = Byte.newline then line + 1 else line) (b :: kept) taken := by
  rw [line_next, keeping, keeping, Nat.add_assoc, ← List.count_append]
  simp

/-- A literal is kept as it is. -/
theorem outcome_literal (line : Nat) (kept text : Text) :
    outcome ⟨.literal, line, kept⟩ text =
      (keeping line kept (literalBody text).1).outcome
        (text.drop (literalBody text).1.length) := by
  fun_induction literalBody text generalizing line kept with
  | case1 => rfl
  | case2 rest => rfl
  | case3 rest hquote => rfl
  | case4 hquote hnewline => rfl
  | case5 taken later hquote hnewline ih =>
      -- The automaton reads an escape in two steps, the reading takes both bytes at once.
      simp only [keeping_cons, List.length_cons, List.drop_succ_cons, ← ih]
      rfl
  | case6 b rest hquote hnewline hbackslash ih =>
      simp only [keeping_cons, List.length_cons, List.drop_succ_cons, ← ih]
      simp [step, Mode.next, Mode.keep, hquote, hnewline, hbackslash]

/-- A line comment is passed over up to its newline. -/
theorem outcome_lineComment (line : Nat) (kept text : Text) :
    outcome ⟨.lineComment, line, kept⟩ text =
      if (lineBody text).2 then
        outcome ⟨.code, line + 1, Byte.newline :: kept⟩ (text.drop (lineBody text).1.length)
      else .ok kept.reverse := by
  fun_induction lineBody text with
  | case1 => rfl
  | case2 rest => rfl
  | case3 b rest hnewline ih =>
      simp only [List.length_cons, List.drop_succ_cons, ← ih]
      simp [step, Mode.next, Mode.keep, hnewline]

/-- After a star in a block comment only a slash makes a difference. -/
theorem outcome_blockStar (opened line : Nat) (kept text : Text) :
    outcome ⟨.blockStar opened, line, kept⟩ text =
      if text.head? = some Byte.slash then outcome ⟨.code, line, kept⟩ text.tail
      else outcome ⟨.blockComment opened, line, kept⟩ text := by
  cases text with
  | nil => rfl
  | cons b rest =>
      by_cases hslash : b = Byte.slash
      · subst hslash
        rfl
      · simp [step, Mode.next, Mode.keep, hslash]

/-- A block comment is passed over up to the `*/` that closes it. -/
theorem outcome_blockComment (opened line : Nat) (kept text : Text) :
    outcome ⟨.blockComment opened, line, kept⟩ text =
      if (blockBody text).2 then
        outcome ⟨.code, line + (blockBody text).1.count Byte.newline, kept⟩
          (text.drop (blockBody text).1.length)
      else .error (.unterminatedComment opened) := by
  fun_induction blockBody text generalizing line with
  | case1 => rfl
  | case2 b rest hcloser =>
      obtain ⟨rfl, hslash⟩ := hcloser
      obtain ⟨later, rfl⟩ := List.head?_eq_some_iff.mp hslash
      rfl
  | case3 b rest hcloser ih =>
      have hstep : outcome ⟨.blockComment opened, line, kept⟩ (b :: rest) =
          outcome ⟨.blockComment opened, line + [b].count Byte.newline, kept⟩ rest := by
        by_cases hstar : b = Byte.star
        · subst hstar
          have hslash : rest.head? ≠ some Byte.slash := fun hslash => hcloser ⟨rfl, hslash⟩
          exact (outcome_blockStar opened line kept rest).trans (if_neg hslash)
        · simp [step, Mode.next, Mode.keep, hstar, line_next]
      rw [hstep, ih, Nat.add_assoc, ← List.count_append]
      rfl

/-- Unless a slash opens a comment it is like any other byte of code. -/
theorem outcome_slash (line : Nat) (kept text : Text)
    (hopener : text.head? ≠ some Byte.slash ∧ text.head? ≠ some Byte.star) :
    outcome ⟨.slash, line, kept⟩ text = outcome ⟨.code, line, kept⟩ text := by
  cases text with
  | nil => rfl
  | cons b rest =>
      have hslash : b ≠ Byte.slash := by simpa using hopener.1
      have hstar : b ≠ Byte.star := by simpa using hopener.2
      simp [step, Mode.next, Mode.keep, hslash, hstar]

end Stripper

/-! ## One token -/

/-- Whether a token is a block comment that is not closed. -/
def Token.isUnclosedComment : Token → Bool
  | blockComment _ closed => !closed
  | _ => false

/-- A line comment holds no newline but the one that ends it. -/
theorem count_lineBody {text : Text} (hclosed : (lineBody text).2 = true) :
    (lineBody text).1.count Byte.newline = 1 := by
  obtain ⟨inner, hinner, hbody⟩ := exists_lineBody_eq text
  rw [hbody, if_pos hclosed, List.count_append, List.count_eq_zero_of_not_mem hinner]
  rfl

/-- The automaton does with a token what the token is to do. -/
theorem Stripper.outcome_token {token : Token} {rest : Text} (hleads : token.Leads rest)
    (line : Nat) (built : Text) :
    outcome ⟨.code, line, built.reverse⟩ (token.text ++ rest) =
      if token.isUnclosedComment then .error (.unterminatedComment line)
      else outcome ⟨.code, line + token.text.count Byte.newline, (token.addTo built).reverse⟩
        rest := by
  cases hleads with
  | @code b rest hquote hopener =>
      have hkept : ((Token.code b).addTo built).reverse = b :: built.reverse := by
        simp [Token.addTo]
      rw [hkept]
      by_cases hslash : b = Byte.slash
      · -- The automaton keeps a slash and waits for the byte behind it.
        subst hslash
        exact outcome_slash line _ rest (hopener rfl)
      · simp [Token.text, Token.isUnclosedComment, step, Mode.next, Mode.keep, hquote, hslash,
          line_next]
  | @literal body rest closed hbody =>
      have hliteral := outcome_literal line (Byte.quote :: built.reverse) (body ++ rest)
      rw [hbody, List.drop_left] at hliteral
      refine hliteral.trans ?_
      have hkeeping : keeping line (Byte.quote :: built.reverse) body =
          keeping line built.reverse (Byte.quote :: body) := by
        rw [keeping_cons, if_neg (by decide)]
      rw [hkeeping]
      simp [keeping, Token.isUnclosedComment, Token.text, Token.addTo]
  | @lineComment body rest closed hbody =>
      have hcomment := outcome_lineComment line (built.reverse.dropWhile Byte.isBlank)
        (body ++ rest)
      rw [hbody, List.drop_left] at hcomment
      refine hcomment.trans ?_
      cases closed with
      | true =>
          have hcount : (lineBody (body ++ rest)).1.count Byte.newline = 1 :=
            count_lineBody (by rw [hbody])
          rw [hbody, ← List.count_cons_of_ne (b := Byte.slash) (by decide),
            ← List.count_cons_of_ne (b := Byte.slash) (by decide)] at hcount
          simp [Token.isUnclosedComment, Token.addTo, List.rdropWhile, Token.text, hcount]
      | false =>
          -- Without its newline the comment is the end of the text.
          obtain rfl := eq_nil_of_lineBody hbody
          simp [Token.isUnclosedComment, Token.addTo, List.rdropWhile, outcome, read, finish]
  | @blockComment body rest closed hbody =>
      have hcomment := outcome_blockComment line line built.reverse (body ++ rest)
      rw [hbody, List.drop_left] at hcomment
      refine hcomment.trans ?_
      have hcount : (Byte.slash :: Byte.star :: body).count Byte.newline =
          body.count Byte.newline := by
        rw [List.count_cons_of_ne (by decide), List.count_cons_of_ne (by decide)]
      cases closed <;> simp [Token.isUnclosedComment, Token.addTo, Token.text, hcount]

/-! ## The whole netlist -/

/-- The offset of the first block comment among the tokens that is not closed. -/
def unclosedFrom (offset : Nat) : List Token → Option Nat
  | [] => none
  | token :: later =>
    if token.isUnclosedComment then some offset
    else unclosedFrom (offset + token.text.length) later

theorem Stripper.outcome_tokens (text before built : Text) :
    outcome ⟨.code, before.count Byte.newline + 1, built.reverse⟩ text =
      match unclosedFrom before.length (tokens text) with
      | some opener => .error (.unterminatedComment (Text.lineAt (before ++ text) opener))
      | none => .ok ((tokens text).foldl Token.addTo built) := by
  induction text using reading_induction generalizing before built with
  | nil => simp [unclosedFrom, outcome, read, finish]
  | token token rest hleads ih =>
      rw [outcome_token hleads, tokens_append hleads, unclosedFrom]
      split_ifs with hunclosed
      · simp [Text.lineAt]
      · have hline : before.count Byte.newline + 1 + token.text.count Byte.newline =
            (before ++ token.text).count Byte.newline + 1 := by
          rw [List.count_append]
          omega
        rw [hline, ih, List.length_append, List.append_assoc, List.foldl_cons]

theorem strip_eq_keptText (source : Text) :
    strip source =
      match unclosedFrom 0 (tokens source) with
      | some opener => .error (.unterminatedComment (Text.lineAt source opener))
      | none => .ok (keptText (tokens source)) :=
  Stripper.outcome_tokens source [] []

/-- The tokens of a netlist make up all of it.  Stripping fails at the first block
comment among them that is not closed, and otherwise gives the text that they
keep.  That text is made up of tokens too: of the blanks that line comments take
back, none is a byte of a literal. -/
theorem strip_eq_reading (source : Text) :
    (tokens source).flatMap Token.text = source ∧
      (strip source =
        match unclosedFrom 0 (tokens source) with
        | some opener => .error (.unterminatedComment (Text.lineAt source opener))
        | none => .ok (keptText (tokens source))) ∧
      keptText (tokens source) = (keptTokens (tokens source)).flatMap Token.text :=
  ⟨flatMap_text_tokens source, strip_eq_keptText source, (flatMap_text_keptTokens source).symm⟩

/-- Blanks go back to the literal, also those in front of the block comment. -/
example : strip (Text.ofString "x = \"// \"  /* c */\t// d\ny") =
    .ok (Text.ofString "x = \"// \"\ny") := rfl

end NetlistSplit.Comment
