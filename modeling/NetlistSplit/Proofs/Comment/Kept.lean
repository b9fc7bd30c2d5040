import Mathlib.Data.List.DropRight
import NetlistSplit.Proofs.Comment.Token

/-!
# What the tokens of a netlist keep

Literals and code are kept as they are and block comments not at all.  A line
comment takes back the blanks at the end of the text kept so far and leaves its
newline.  This can be said about texts (`keptText`) and about tokens
(`keptTokens`), and the two come to the same (`flatMap_text_keptTokens`).

What is kept is read again just as it was (`tokens_keptText`).  A comment that is
deleted does not join what stood around it: in front of a comment no literal is
open, since an open literal ends at a newline or with the text, and no slash
stands there that was code.  So the kept tokens are read again in front of
whatever comes next (`Rereads.keepIn`).
-/

namespace NetlistSplit.Comment

/-! ## Where a literal ends does not depend on what is far behind it -/

/-- A closed literal is closed whatever follows.  One that is not closed is at the
end of the text or in front of a newline, and any newline will do. -/
theorem literalBody_cases {body rest : Text} {closed : Bool}
    (hbody : literalBody (body ++ rest) = (body, closed)) :
    (closed = true ∧ body.getLast? = some Byte.quote ∧
        ∀ other, literalBody (body ++ other) = (body, true)) ∨
      (closed = false ∧ rest = []) ∨
      (closed = false ∧ rest.head? = some Byte.newline ∧
        ∀ other : Text, other.head? = some Byte.newline →
          literalBody (body ++ other) = (body, false)) := by
  induction body using literalBody.induct with
  | case1 =>
      cases rest with
      | nil => exact .inr (.inl ⟨(congrArg Prod.snd hbody).symm, rfl⟩)
      | cons b rest =>
          obtain rfl : b = Byte.newline := by
            unfold literalBody at hbody
            grind
          refine .inr (.inr ⟨by simpa using hbody.symm, rfl, fun other hother => ?_⟩)
          obtain ⟨later, rfl⟩ := List.head?_eq_some_iff.mp hother
          exact literalBody_newline later
  | case2 later =>
      simp only [List.cons_append, literalBody_quote, Prod.mk.injEq, List.cons.injEq,
        true_and] at hbody
      obtain ⟨rfl, rfl⟩ := hbody
      exact .inl ⟨rfl, rfl, literalBody_quote⟩
  | case3 later hquote => simp at hbody
  | case4 hquote hnewline =>
      cases rest with
      | nil => exact .inr (.inl ⟨(congrArg Prod.snd hbody).symm, rfl⟩)
      | cons taken rest => simp at hbody
  | case5 taken later hquote hnewline ih =>
      have hlater : literalBody (later ++ rest) = (later, closed) := by
        simpa [Prod.ext_iff] using hbody
      rcases ih hlater with ⟨hclosed, hlast, hother⟩ | hend | ⟨hopen, hhead, hother⟩
      · exact .inl ⟨hclosed, by simp [List.getLast?_cons, hlast], fun other => by simp [hother]⟩
      · exact .inr (.inl hend)
      · exact .inr (.inr ⟨hopen, hhead, fun other hhead => by simp [hother other hhead]⟩)
  | case6 b later hquote hnewline hbackslash ih =>
      have hcons := fun other => literalBody_of_ne (later ++ other) hquote hnewline hbackslash
      have hlater : literalBody (later ++ rest) = (later, closed) := by
        simpa [hcons, Prod.ext_iff] using hbody
      rcases ih hlater with ⟨hclosed, hlast, hother⟩ | hend | ⟨hopen, hhead, hother⟩
      · exact .inl ⟨hclosed, by simp [List.getLast?_cons, hlast],
          fun other => by simp [hcons, hother]⟩
      · exact .inr (.inl hend)
      · exact .inr (.inr ⟨hopen, hhead, fun other hhead => by simp [hcons, hother other hhead]⟩)

namespace Token

/-! ## What a token does to the text kept so far -/

/-- Whether a token is a comment. -/
def isComment : Token → Bool
  | lineComment _ _ => true
  | blockComment _ _ => true
  | _ => false

/-- Whether a token is a blank of the code. -/
def isBlank : Token → Bool
  | code b => Byte.isBlank b
  | _ => false

/-- The text `built` so far with what a further token makes of it. -/
def addTo (built : Text) : Token → Text
  | code b => built ++ [b]
  | literal text _ => built ++ text
  | lineComment _ closed =>
    built.rdropWhile Byte.isBlank ++ if closed then [Byte.newline] else []
  | blockComment _ _ => built

/-- The tokens kept so far with what a further token makes of them.  Blanks
of the code are taken back, but never a byte of a literal. -/
def keepIn (kept : List Token) : Token → List Token
  | lineComment _ closed =>
    kept.rdropWhile isBlank ++ if closed then [code Byte.newline] else []
  | blockComment _ _ => kept
  | token => kept ++ [token]

end Token

/-- The text that tokens keep. -/
def keptText (tokens : List Token) : Text :=
  tokens.foldl Token.addTo []

theorem keptText_concat (done : List Token) (token : Token) :
    keptText (done ++ [token]) = token.addTo (keptText done) :=
  List.foldl_concat ..

/-- The tokens that are kept. -/
def keptTokens (tokens : List Token) : List Token :=
  tokens.foldl Token.keepIn []

/-! ## Kept tokens are read again -/

/-- Whether `kept`, which holds no comments, is read again from its own text if
the text `rest` follows. -/
def Rereads : List Token → Text → Prop
  | [], _ => True
  | token :: later, rest =>
    token.isComment = false ∧ token.Leads (later.flatMap Token.text ++ rest) ∧ Rereads later rest

theorem tokens_of_rereads {kept : List Token} {rest : Text} (hkept : Rereads kept rest) :
    tokens (kept.flatMap Token.text ++ rest) = kept ++ tokens rest := by
  induction kept with
  | nil => rfl
  | cons token later ih =>
      obtain ⟨-, hleads, hlater⟩ := hkept
      rw [List.flatMap_cons, List.append_assoc, tokens_append hleads, ih hlater]
      rfl

theorem rereads_append {first second : List Token} {rest : Text} :
    Rereads (first ++ second) rest ↔
      Rereads first (second.flatMap Token.text ++ rest) ∧ Rereads second rest := by
  induction first with
  | nil => simp [Rereads]
  | cons token later ih => simp [Rereads, ih, and_assoc]

/-- What a token is read as depends on the next byte alone, comments apart. -/
theorem Token.Leads.congr_head {token : Token} {rest other : Text} (hleads : token.Leads rest)
    (hcomment : token.isComment = false) (hhead : rest.head? = other.head?) :
    token.Leads other := by
  cases hleads with
  | code hquote hopener => exact .code hquote (hhead ▸ hopener)
  | literal hbody =>
      rcases literalBody_cases hbody with ⟨rfl, -, hother⟩ | ⟨rfl, rfl⟩ | ⟨rfl, hnewline, hother⟩
      · exact .literal (hother other)
      · obtain rfl : other = [] := List.head?_eq_none_iff.mp hhead.symm
        exact .literal hbody
      · exact .literal (hother other (hhead ▸ hnewline))
  | lineComment hbody => cases hcomment
  | blockComment hbody => cases hcomment

/-- A token that something else than a newline follows is complete: only a slash
minds what follows. -/
theorem Token.Leads.of_cons {token : Token} {b : UInt8} {later rest : Text}
    (hleads : token.Leads (b :: later)) (hcomment : token.isComment = false)
    (hnewline : b ≠ Byte.newline)
    (hrest : b = Byte.slash ∨ rest.head? ≠ some Byte.slash ∧ rest.head? ≠ some Byte.star) :
    token.Leads rest := by
  cases hleads with
  | code hquote hopener =>
      refine .code hquote fun hslash => ?_
      rcases hrest with rfl | hrest
      · exact absurd rfl (hopener hslash).1
      · exact hrest
  | literal hbody =>
      rcases literalBody_cases hbody with ⟨rfl, -, hother⟩ | ⟨-, hnil⟩ | ⟨-, hhead, -⟩
      · exact .literal (hother rest)
      · cases hnil
      · exact absurd (Option.some.inj hhead) hnewline
  | lineComment hbody => cases hcomment
  | blockComment hbody => cases hcomment

theorem Rereads.of_cons {kept : List Token} {b : UInt8} {later rest : Text}
    (hkept : Rereads kept (b :: later)) (hnewline : b ≠ Byte.newline)
    (hrest : b = Byte.slash ∨ rest.head? ≠ some Byte.slash ∧ rest.head? ≠ some Byte.star) :
    Rereads kept rest := by
  induction kept with
  | nil => trivial
  | cons token after ih =>
      obtain ⟨hcomment, hleads, hafter⟩ := hkept
      refine ⟨hcomment, ?_, ih hafter⟩
      cases htext : after.flatMap Token.text with
      | nil =>
          rw [htext] at hleads
          exact hleads.of_cons hcomment hnewline hrest
      | cons c more =>
          rw [htext] at hleads
          exact hleads.congr_head hcomment rfl

/-! ## Blanks in front of a line comment -/

private theorem ne_newline_of_isBlank {b : UInt8} (hblank : Byte.isBlank b = true) :
    b ≠ Byte.newline := by
  rintro rfl
  cases hblank

/-- The blanks taken back are the last tokens, so the tokens that stay are read
again in front of all that opens no comment. -/
theorem Rereads.rdropWhile_isBlank {kept : List Token} {b : UInt8} {later rest : Text}
    (hkept : Rereads kept (b :: later)) (hnewline : b ≠ Byte.newline)
    (hrest : rest.head? ≠ some Byte.slash ∧ rest.head? ≠ some Byte.star) :
    Rereads (kept.rdropWhile Token.isBlank) rest := by
  -- From the back, since each blank taken away is what followed the tokens in front of it.
  induction kept using List.reverseRecOn generalizing b later with
  | nil => trivial
  | append_singleton first token ih =>
      rw [List.rdropWhile_concat]
      split_ifs with hblank
      · cases token with
        | code c => exact ih (rereads_append.mp hkept).1 (ne_newline_of_isBlank hblank)
        | _ => cases hblank
      · exact hkept.of_cons hnewline (.inr hrest)

/-- No byte of a literal is taken back with the blanks. -/
theorem flatMap_text_rdropWhile {kept : List Token} {b : UInt8} {later : Text}
    (hkept : Rereads kept (b :: later)) (hnewline : b ≠ Byte.newline) :
    (kept.rdropWhile Token.isBlank).flatMap Token.text =
      (kept.flatMap Token.text).rdropWhile Byte.isBlank := by
  induction kept using List.reverseRecOn generalizing b later with
  | nil => rfl
  | append_singleton first token ih =>
      obtain ⟨hfirst, hcomment, hleads, -⟩ := rereads_append.mp hkept
      rw [List.rdropWhile_concat, List.flatMap_append, List.flatMap_singleton]
      cases hleads with
      | @code c rest hquote hopener =>
          by_cases hblank : Byte.isBlank c = true
          · rw [if_pos (show Token.isBlank (.code c) = true from hblank), Token.text,
              List.rdropWhile_concat_pos _ _ _ hblank]
            exact ih hfirst (ne_newline_of_isBlank hblank)
          · rw [if_neg (show ¬ Token.isBlank (.code c) = true from hblank), Token.text,
              List.rdropWhile_concat_neg _ _ _ hblank]
            simp [Token.text]
      | @literal body rest closed hbody =>
          -- A literal with something else than a newline behind it ends with its quote,
          -- which is no blank.
          rcases literalBody_cases hbody with ⟨-, hlast, -⟩ | ⟨-, hnil⟩ | ⟨-, hhead, -⟩
          · obtain ⟨inner, rfl⟩ := List.getLast?_eq_some_iff.mp hlast
            rw [if_neg (by simp [Token.isBlank]), Token.text, ← List.cons_append,
              ← List.append_assoc, List.rdropWhile_concat_neg _ _ _ (by decide)]
            simp [Token.text]
          · cases hnil
          · exact absurd (Option.some.inj hhead) hnewline
      | lineComment hbody => cases hcomment
      | blockComment hbody => cases hcomment

/-! ## The kept tokens of a netlist -/

/-- A token after kept tokens keeps the same as tokens and as text, and leaves
kept tokens that are read again in front of the rest. -/
theorem Rereads.keepIn {kept : List Token} {token : Token} {rest : Text}
    (hkept : Rereads kept (token.text ++ rest)) (hleads : token.Leads rest) :
    Rereads (token.keepIn kept) rest ∧
      (token.keepIn kept).flatMap Token.text = token.addTo (kept.flatMap Token.text) := by
  cases hleads with
  | code hquote hopener =>
      refine ⟨rereads_append.mpr ⟨hkept, rfl, .code hquote hopener, trivial⟩, ?_⟩
      simp [Token.keepIn, Token.addTo, Token.text]
  | literal hbody =>
      refine ⟨rereads_append.mpr ⟨by simpa using hkept, rfl, .literal hbody, trivial⟩, ?_⟩
      simp [Token.keepIn, Token.addTo, Token.text]
  | @lineComment body rest closed hbody =>
      have hnewline : Byte.slash ≠ Byte.newline := by decide
      have hblanks := flatMap_text_rdropWhile hkept hnewline
      cases closed with
      | true =>
          have hends : Rereads (kept.rdropWhile Token.isBlank) (Byte.newline :: rest) :=
            hkept.rdropWhile_isBlank hnewline (by simp [Byte.newline, Byte.slash, Byte.star])
          have hleads : (Token.code Byte.newline).Leads rest :=
            .code (by decide) fun hslash => absurd hslash (by decide)
          refine ⟨rereads_append.mpr ⟨hends, rfl, hleads, trivial⟩, ?_⟩
          simp [Token.keepIn, Token.addTo, Token.text, hblanks]
      | false =>
          obtain rfl := eq_nil_of_lineBody hbody
          have hends : Rereads (kept.rdropWhile Token.isBlank) [] :=
            hkept.rdropWhile_isBlank hnewline (by simp)
          simpa [Token.keepIn, Token.addTo, hblanks] using hends
  | blockComment hbody =>
      -- The slash that opened the comment stood behind the kept tokens, so no slash of the
      -- code is the last of them.
      exact ⟨hkept.of_cons (by decide) (.inl rfl), rfl⟩

theorem rereads_foldl_keepIn (text : Text) {kept : List Token} (hkept : Rereads kept text) :
    Rereads ((tokens text).foldl Token.keepIn kept) [] ∧
      ((tokens text).foldl Token.keepIn kept).flatMap Token.text =
        (tokens text).foldl Token.addTo (kept.flatMap Token.text) := by
  induction text using reading_induction generalizing kept with
  | nil => exact ⟨hkept, rfl⟩
  | token token rest hleads ih =>
      obtain ⟨hrereads, htext⟩ := hkept.keepIn hleads
      rw [tokens_append hleads, List.foldl_cons, List.foldl_cons, ← htext]
      exact ih hrereads

/-- The kept tokens hold the kept text. -/
theorem flatMap_text_keptTokens (source : Text) :
    (keptTokens (tokens source)).flatMap Token.text = keptText (tokens source) :=
  (rereads_foldl_keepIn source (show Rereads [] source from trivial)).2

/-- The kept text is made up of the kept tokens again. -/
theorem tokens_keptText (source : Text) :
    tokens (keptText (tokens source)) = keptTokens (tokens source) := by
  have hrereads : Rereads (keptTokens (tokens source)) [] :=
    (rereads_foldl_keepIn source (show Rereads [] source from trivial)).1
  calc tokens (keptText (tokens source))
      = tokens ((keptTokens (tokens source)).flatMap Token.text ++ []) := by
        rw [flatMap_text_keptTokens, List.append_nil]
    _ = keptTokens (tokens source) ++ tokens [] := tokens_of_rereads hrereads
    _ = keptTokens (tokens source) := List.append_nil _

end NetlistSplit.Comment
