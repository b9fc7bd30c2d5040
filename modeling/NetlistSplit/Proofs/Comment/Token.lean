import Mathlib.Tactic.SplitIfs
import NetlistSplit.Comment

/-!
# The tokens of a netlist

Apart from the automaton that removes comments, a netlist can be read token by
token: a token is a string literal, a line comment, a block comment or a single
byte of code, and each one begins where the one in front of it ends.  Every
token holds its own text, and whether something closes it.

* A literal reaches up to its closing quote.  Without one it ends in front of
  its newline, or with the text.  A backslash takes the next byte with it.
* A line comment reaches through its newline, or to the end of the text.
* A block comment reaches through the first `*/` after its opener, or to the end
  of the text.

`tokens` is this reading.  It loses nothing (`flatMap_text_tokens`), and it can
be followed by an induction on the tokens (`reading_induction`).
-/

namespace NetlistSplit.Comment

/-! ## Where a token ends

Each of these functions is handed the text after the opener of a token.  It gives
the part of the text that belongs to the token, and whether the token is closed. -/

/-- The rest of a literal. -/
def literalBody : Text → Text × Bool
  | [] => ([], false)
  | b :: rest =>
    if b = Byte.quote then ([b], true)
    else if b = Byte.newline then ([], false)
    else if b = Byte.backslash then
      match rest with
      | [] => ([b], false)
      | taken :: later => (b :: taken :: (literalBody later).1, (literalBody later).2)
    else (b :: (literalBody rest).1, (literalBody rest).2)

/-- The rest of a line comment. -/
def lineBody : Text → Text × Bool
  | [] => ([], false)
  | b :: rest =>
    if b = Byte.newline then ([b], true)
    else (b :: (lineBody rest).1, (lineBody rest).2)

/-- The rest of a block comment. -/
def blockBody : Text → Text × Bool
  | [] => ([], false)
  | b :: rest =>
    if b = Byte.star ∧ rest.head? = some Byte.slash then ([Byte.star, Byte.slash], true)
    else (b :: (blockBody rest).1, (blockBody rest).2)

@[simp] theorem literalBody_nil : literalBody [] = ([], false) := rfl

@[simp] theorem literalBody_quote (rest : Text) :
    literalBody (Byte.quote :: rest) = ([Byte.quote], true) := by
  rw [literalBody.eq_def]
  rfl

@[simp] theorem literalBody_newline (rest : Text) :
    literalBody (Byte.newline :: rest) = ([], false) := by
  rw [literalBody.eq_def]
  rfl

@[simp] theorem literalBody_backslash (taken : UInt8) (later : Text) :
    literalBody (Byte.backslash :: taken :: later) =
      (Byte.backslash :: taken :: (literalBody later).1, (literalBody later).2) := rfl

theorem literalBody_of_ne {b : UInt8} (rest : Text) (hquote : b ≠ Byte.quote)
    (hnewline : b ≠ Byte.newline) (hbackslash : b ≠ Byte.backslash) :
    literalBody (b :: rest) = (b :: (literalBody rest).1, (literalBody rest).2) := by
  rw [literalBody.eq_def]
  simp only [if_neg hquote, if_neg hnewline, if_neg hbackslash]

theorem literalBody_isPrefix (text : Text) : (literalBody text).1 <+: text := by
  fun_induction literalBody text with
  | case1 => exact List.prefix_rfl
  | case2 rest => exact ⟨rest, rfl⟩
  | case3 rest => exact List.nil_prefix
  | case4 => exact List.prefix_rfl
  | case5 taken later hquote hnewline ih =>
      exact List.cons_prefix_cons.mpr ⟨rfl, List.cons_prefix_cons.mpr ⟨rfl, ih⟩⟩
  | case6 b rest hquote hnewline hbackslash ih => exact List.cons_prefix_cons.mpr ⟨rfl, ih⟩

theorem lineBody_isPrefix (text : Text) : (lineBody text).1 <+: text := by
  fun_induction lineBody text with
  | case1 => exact List.prefix_rfl
  | case2 rest => exact ⟨rest, rfl⟩
  | case3 b rest hnewline ih => exact List.cons_prefix_cons.mpr ⟨rfl, ih⟩

theorem blockBody_isPrefix (text : Text) : (blockBody text).1 <+: text := by
  fun_induction blockBody text with
  | case1 => exact List.prefix_rfl
  | case2 b rest hcloser =>
      obtain ⟨rfl, hslash⟩ := hcloser
      obtain ⟨later, rfl⟩ := List.head?_eq_some_iff.mp hslash
      exact ⟨later, rfl⟩
  | case3 b rest hcloser ih => exact List.cons_prefix_cons.mpr ⟨rfl, ih⟩

/-- A newline in a line comment is its last byte, and closes it. -/
theorem exists_lineBody_eq (text : Text) :
    ∃ inner, Byte.newline ∉ inner ∧
      (lineBody text).1 = inner ++ if (lineBody text).2 then [Byte.newline] else [] := by
  fun_induction lineBody text with
  | case1 => exact ⟨[], List.not_mem_nil, rfl⟩
  | case2 rest => exact ⟨[], List.not_mem_nil, rfl⟩
  | case3 b rest hnewline ih =>
      obtain ⟨inner, hinner, hbody⟩ := ih
      refine ⟨b :: inner, ?_, congrArg (b :: ·) hbody⟩
      exact List.not_mem_cons_of_ne_of_not_mem (Ne.symm hnewline) hinner

/-- A line comment without a newline is the end of the text. -/
theorem eq_nil_of_lineBody {body rest : Text} (hbody : lineBody (body ++ rest) = (body, false)) :
    rest = [] := by
  induction body with
  | nil =>
      cases rest with
      | nil => rfl
      | cons b rest =>
          simp only [List.nil_append, lineBody] at hbody
          split_ifs at hbody <;> simp at hbody
  | cons b later ih =>
      simp only [List.cons_append, lineBody] at hbody
      split_ifs at hbody with hnewline
      · simp at hbody
      · exact ih (by simpa [Prod.ext_iff] using hbody)

/-! ## Tokens -/

/-- A token of a netlist. -/
inductive Token where
  /-- A byte of code. -/
  | code (b : UInt8)
  /-- A string literal.  Its closing quote closes it. -/
  | literal (text : Text) (closed : Bool)
  /-- A line comment.  Its newline closes it. -/
  | lineComment (text : Text) (closed : Bool)
  /-- A block comment.  `*/` closes it. -/
  | blockComment (text : Text) (closed : Bool)
  deriving DecidableEq, Repr

namespace Token

/-- The text that a token takes up. -/
def text : Token → Text
  | code b => [b]
  | literal text _ => text
  | lineComment text _ => text
  | blockComment text _ => text

/-- The token at the start of the text `b :: rest`. -/
def leading (b : UInt8) (rest : Text) : Token :=
  if b = Byte.quote then
    literal (b :: (literalBody rest).1) (literalBody rest).2
  else if b = Byte.slash ∧ rest.head? = some Byte.slash then
    lineComment (b :: Byte.slash :: (lineBody rest.tail).1) (lineBody rest.tail).2
  else if b = Byte.slash ∧ rest.head? = some Byte.star then
    blockComment (b :: Byte.star :: (blockBody rest.tail).1) (blockBody rest.tail).2
  else code b

/-- Whether a token, in front of the text `rest`, is read as this token. -/
inductive Leads : Token → Text → Prop where
  | code {b : UInt8} {rest : Text} (hquote : b ≠ Byte.quote)
      (hopener : b = Byte.slash → rest.head? ≠ some Byte.slash ∧ rest.head? ≠ some Byte.star) :
      Leads (code b) rest
  | literal {body rest : Text} {closed : Bool}
      (hbody : literalBody (body ++ rest) = (body, closed)) :
      Leads (literal (Byte.quote :: body) closed) rest
  | lineComment {body rest : Text} {closed : Bool}
      (hbody : lineBody (body ++ rest) = (body, closed)) :
      Leads (lineComment (Byte.slash :: Byte.slash :: body) closed) rest
  | blockComment {body rest : Text} {closed : Bool}
      (hbody : blockBody (body ++ rest) = (body, closed)) :
      Leads (blockComment (Byte.slash :: Byte.star :: body) closed) rest

end Token

/-- The tokens of a text whose first `pending` bytes belong to a token that was
already read. -/
def tokensAfter : (pending : Nat) → Text → List Token
  | _, [] => []
  | pending + 1, _ :: rest => tokensAfter pending rest
  | 0, b :: rest =>
    Token.leading b rest :: tokensAfter ((Token.leading b rest).text.length - 1) rest

/-- The tokens of a text in order. -/
def tokens (text : Text) : List Token :=
  tokensAfter 0 text

/-! ## Reading token by token -/

namespace Token

theorem Leads.exists_leading {token : Token} {rest : Text} (hleads : token.Leads rest) :
    ∃ b later, token.text ++ rest = b :: later ∧ leading b later = token := by
  cases hleads with
  | @code b rest hquote hopener =>
      refine ⟨b, rest, rfl, ?_⟩
      unfold leading
      split_ifs with hliteral hline hblock
      · exact absurd hliteral hquote
      · exact absurd hline.2 (hopener hline.1).1
      · exact absurd hblock.2 (hopener hblock.1).2
      · rfl
  | literal hbody => exact ⟨_, _, rfl, by simp [leading, hbody]⟩
  | lineComment hbody =>
      exact ⟨_, _, rfl, by simp [leading, hbody, Byte.slash, Byte.quote]⟩
  | blockComment hbody =>
      exact ⟨_, _, rfl, by simp [leading, hbody, Byte.slash, Byte.star, Byte.quote]⟩

/-- A text that is not empty begins with a token. -/
theorem exists_leads (b : UInt8) (rest : Text) :
    ∃ token later, b :: rest = text token ++ later ∧ token.Leads later := by
  by_cases hquote : b = Byte.quote
  · obtain ⟨later, hlater⟩ := literalBody_isPrefix rest
    refine ⟨literal (Byte.quote :: (literalBody rest).1) (literalBody rest).2, later, ?_, ?_⟩
    · rw [hquote, text, List.cons_append, hlater]
    · exact .literal (by rw [hlater])
  by_cases hline : b = Byte.slash ∧ rest.head? = some Byte.slash
  · obtain ⟨inner, rfl⟩ := List.head?_eq_some_iff.mp hline.2
    obtain ⟨later, hlater⟩ := lineBody_isPrefix inner
    refine ⟨lineComment (Byte.slash :: Byte.slash :: (lineBody inner).1) (lineBody inner).2,
      later, ?_, ?_⟩
    · rw [hline.1, text, List.cons_append, List.cons_append, hlater]
    · exact .lineComment (by rw [hlater])
  by_cases hblock : b = Byte.slash ∧ rest.head? = some Byte.star
  · obtain ⟨inner, rfl⟩ := List.head?_eq_some_iff.mp hblock.2
    obtain ⟨later, hlater⟩ := blockBody_isPrefix inner
    refine ⟨blockComment (Byte.slash :: Byte.star :: (blockBody inner).1) (blockBody inner).2,
      later, ?_, ?_⟩
    · rw [hblock.1, text, List.cons_append, List.cons_append, hlater]
    · exact .blockComment (by rw [hlater])
  exact ⟨code b, rest, rfl, .code hquote fun hslash =>
    ⟨fun hhead => hline ⟨hslash, hhead⟩, fun hhead => hblock ⟨hslash, hhead⟩⟩⟩

end Token

/-- Induction on the tokens of a text. -/
theorem reading_induction {motive : Text → Prop} (nil : motive [])
    (token : ∀ (token : Token) (rest : Text), token.Leads rest → motive rest →
      motive (token.text ++ rest))
    (text : Text) : motive text := by
  -- A token takes up at least one byte, so what lies behind it is shorter.
  induction htext : text.length using Nat.strongRecOn generalizing text with
  | ind length ih =>
      subst htext
      cases text with
      | nil => exact nil
      | cons b rest =>
          obtain ⟨first, later, htext, hleads⟩ := Token.exists_leads b rest
          have hpositive : 0 < first.text.length := by
            cases hleads <;> simp [Token.text]
          have hlength : (b :: rest).length = first.text.length + later.length := by
            rw [htext, List.length_append]
          rw [htext]
          exact token first later hleads (ih later.length (by omega) later rfl)

private theorem tokensAfter_eq_drop (pending : Nat) (text : Text) :
    tokensAfter pending text = tokens (text.drop pending) := by
  induction text generalizing pending with
  | nil => simp [tokens, tokensAfter]
  | cons b rest ih =>
      cases pending with
      | zero => rfl
      | succ pending => exact ih pending

@[simp] theorem tokens_nil : tokens [] = [] := rfl

theorem tokens_append {token : Token} {rest : Text} (hleads : token.Leads rest) :
    tokens (token.text ++ rest) = token :: tokens rest := by
  obtain ⟨b, later, htext, hleading⟩ := hleads.exists_leading
  have hlength : token.text.length - 1 + 1 = token.text.length := by
    cases hleads <;> simp [Token.text]
  have hdrop : later.drop (token.text.length - 1) = rest := by
    rw [← List.drop_succ_cons (a := b), ← htext, hlength, List.drop_left]
  rw [htext, tokens, tokensAfter, hleading, tokensAfter_eq_drop, hdrop]

/-- The tokens make up the whole text. -/
theorem flatMap_text_tokens (text : Text) : (tokens text).flatMap Token.text = text := by
  induction text using reading_induction with
  | nil => rfl
  | token token rest hleads ih => rw [tokens_append hleads, List.flatMap_cons, ih]

/-- One more token makes the text longer by its own. -/
theorem flatMap_text_concat (done : List Token) (token : Token) :
    (done ++ [token]).flatMap Token.text = done.flatMap Token.text ++ token.text := by
  rw [List.flatMap_append, List.flatMap_singleton]

end NetlistSplit.Comment
