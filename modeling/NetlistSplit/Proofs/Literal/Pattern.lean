import Mathlib.Computability.Language
import NetlistSplit.Proofs.Comment.Copying
import NetlistSplit.Proofs.Literal.Reading

/-!
# Closed literals as a pattern of characters

A literal that is closed on its line is what the pattern `"(?:[^"\\\n]|\\.)*"` matches.
The pattern speaks of characters (`pattern`), while the removal of comments passes over a
literal byte by byte and over an escape by two bytes, behind which it may well be inside of
a character (`leave`).

Both come to the same (`matchesAt_iff_leaves`): the pattern matches from a quote on just if
the loop over the bytes ends at a closing quote and has come by no newline, and the match
ends where the loop does.  So there is one match at most, in whichever order the
alternatives are tried.

## Strategy

The bytes of a character beyond ASCII are all beyond ASCII (`encode_cases`), so none of them
means anything inside of a literal.  Read as bytes, the words of the pattern are what may
stand between the quotes of a closed literal (`inner_encode`), and whatever of this kind
stands in the encoding of a string is such a word (`exists_word_of_inner`).
-/

namespace NetlistSplit

namespace Text

/-! ## The bytes of characters -/

/-- The bytes of some characters. -/
def encode (chars : List Char) : Text :=
  chars.flatMap String.utf8EncodeChar

theorem ofString_ofList (chars : List Char) : ofString (String.ofList chars) = encode chars := by
  simp [ofString, encode, List.utf8Encode]

theorem ofString_eq_encode (string : String) : ofString string = encode string.toList := by
  rw [← ofString_ofList, String.ofList_toList]

theorem ofString_append (first second : String) :
    ofString (first ++ second) = ofString first ++ ofString second := by
  simp [ofString]

theorem ofString_injective {first second : String} (hsame : ofString first = ofString second) :
    first = second := by
  apply Option.some.inj
  rw [← toString?_ofString first, hsame, toString?_ofString]

theorem encode_cons (c : Char) (chars : List Char) :
    encode (c :: chars) = String.utf8EncodeChar c ++ encode chars := rfl

theorem encode_append (first second : List Char) :
    encode (first ++ second) = encode first ++ encode second :=
  List.flatMap_append

/-- A character is a byte of its own, or all of its bytes are beyond ASCII. -/
theorem encode_cases (c : Char) :
    (c.toNat < 0x80 ∧ String.utf8EncodeChar c = [UInt8.ofNat c.toNat]) ∨
      ∀ b ∈ String.utf8EncodeChar c, 0x80 ≤ b.toNat := by
  rw [String.utf8EncodeChar]
  split
  · next hascii => exact .inl ⟨Nat.lt_succ_of_le hascii, rfl⟩
  · right
    -- Whatever the number of bytes is, each has a leading one.
    split
    · simp only [List.mem_cons, List.not_mem_nil, or_false, forall_eq_or_imp, forall_eq,
        UInt8.toNat_ofNat']
      omega
    · split
      · simp only [List.mem_cons, List.not_mem_nil, or_false, forall_eq_or_imp, forall_eq,
          UInt8.toNat_ofNat']
        omega
      · simp only [List.mem_cons, List.not_mem_nil, or_false, forall_eq_or_imp, forall_eq,
          UInt8.toNat_ofNat']
        omega

/-- An ASCII byte stands for its own character alone. -/
theorem eq_of_mem_encodeChar {c : Char} {b : UInt8} (hb : b ∈ String.utf8EncodeChar c)
    (hascii : b.toNat < 0x80) : c.toNat = b.toNat := by
  rcases encode_cases c with ⟨hc, hencode⟩ | hbeyond
  · rw [hencode, List.mem_singleton] at hb
    rw [hb, UInt8.toNat_ofNat']
    omega
  · have hle := hbeyond b hb
    omega

end Text

namespace Literal

open Comment (literalBody literalBody_nil literalBody_quote literalBody_newline
  literalBody_backslash literalBody_of_ne literalBody_isPrefix)
open Text (encode ofString)

/-! ## The pattern -/

/-- The characters other than a quote, a backslash and a newline: `[^"\\\n]`. -/
def plainChars : Language Char :=
  {word | ∃ c, c ≠ '"' ∧ c ≠ '\\' ∧ c ≠ '\n' ∧ word = [c]}

/-- A backslash and a character other than a newline: `\\.`. -/
def escapes : Language Char :=
  {word | ∃ c, c ≠ '\n' ∧ word = ['\\', c]}

open scoped Computability in
/-- What stands between the quotes: `(?:[^"\\\n]|\\.)*`. -/
def innerPattern : Language Char :=
  (plainChars + escapes)∗

/-- The pattern of a closed literal: `"(?:[^"\\\n]|\\.)*"`. -/
def pattern : Language Char :=
  {['"']} * innerPattern * {['"']}

/-- Whether the pattern matches in a string from the offset `start` up to `stop`. -/
def MatchesAt (string : String) (start stop : Nat) : Prop :=
  ∃ front word rest : String, string = front ++ word ++ rest ∧ word.toList ∈ pattern ∧
    (ofString front).length = start ∧ (ofString (front ++ word)).length = stop

/-! ## The loop over the bytes -/

/-- How the loop over the bytes of a literal ends. -/
inductive Leaving where
  /-- Behind the closing quote. -/
  | quote
  /-- In front of a newline. -/
  | newline
  /-- With the text. -/
  | textEnd
  deriving DecidableEq, Repr

/-- How and where the loop ends, from an offset inside of a literal on. -/
def leave (source : Text) (offset : Nat) : Leaving × Nat :=
  match hdrop : source.drop offset with
  | [] => (.textEnd, source.length)
  | b :: _ =>
    have := Text.lt_length_of_drop hdrop
    if b = Byte.backslash then leave source (offset + 2)
    else if b = Byte.quote then (.quote, offset + 1)
    else if b = Byte.newline then (.newline, offset)
    else leave source (offset + 1)
termination_by source.length - offset

/-- The loop passes over the rest of a literal, and ends behind its quote if the literal is
closed. -/
theorem leave_eq {source : Text} {offset : Nat} (hle : offset ≤ source.length) :
    (leave source offset).2 = offset + (literalBody (source.drop offset)).1.length ∧
      ((leave source offset).1 = .quote ↔ (literalBody (source.drop offset)).2 = true) := by
  fun_induction leave source offset with
  | case1 offset hdrop =>
      have hge := List.drop_eq_nil_iff.mp hdrop
      rw [hdrop, literalBody_nil, List.length_nil]
      exact ⟨by omega, by simp⟩
  | case2 offset rest hdrop hlt ih =>
      have hrest : source.drop (offset + 1) = rest := Text.drop_succ_of_drop hdrop
      cases rest with
      | nil =>
          -- The backslash is the last byte, and the loop ends with the text.
          have hge := List.drop_eq_nil_iff.mp hrest
          have hend : leave source (offset + 2) = (.textEnd, source.length) := by
            rw [leave]
            split
            · rfl
            · next b later hcons => exact absurd (Text.lt_length_of_drop hcons) (by omega)
          rw [hend, hdrop]
          refine ⟨?_, iff_of_false (fun heq => nomatch heq) (by decide)⟩
          show source.length = offset + 1
          omega
      | cons taken later =>
          have htaken := Text.lt_length_of_drop hrest
          obtain ⟨hstop, hquote⟩ := ih (by omega)
          rw [Text.drop_succ_of_drop hrest] at hstop hquote
          rw [hdrop, literalBody_backslash]
          refine ⟨?_, hquote⟩
          rw [hstop]
          simp only [List.length_cons]
          omega
  | case3 offset rest hdrop hlt hne =>
      rw [hdrop, literalBody_quote, List.length_singleton]
      exact ⟨rfl, by simp⟩
  | case4 offset rest hdrop hlt hne hquote =>
      rw [hdrop, literalBody_newline, List.length_nil]
      exact ⟨rfl, by simp⟩
  | case5 offset b rest hdrop hlt hbackslash hquote hnewline ih =>
      have hrest : source.drop (offset + 1) = rest := Text.drop_succ_of_drop hdrop
      obtain ⟨hstop, hclosed⟩ := ih (by omega)
      rw [hrest] at hstop hclosed
      rw [hdrop, literalBody_of_ne rest hquote hnewline hbackslash, hstop, List.length_cons]
      exact ⟨by omega, hclosed⟩

/-- The loop ends where the removal of comments goes on. -/
theorem skipLiteral_eq_leave {source : Text} {offset : Nat} (hle : offset ≤ source.length) :
    Comment.Copier.skipLiteral source offset = (leave source offset).2 :=
  (Comment.Copier.skipLiteral_eq hle).trans (leave_eq hle).1.symm

/-- The loop ends at the closing quote on its line just if the literal is closed there. -/
theorem leave_quote_iff {source : Text} {offset stop : Nat} (hle : offset ≤ source.length) :
    (leave source offset = (.quote, stop) ∧
        ∀ place, offset ≤ place → place < stop → source[place]? ≠ some Byte.newline) ↔
      ∃ inner later, Inner inner ∧ source.drop offset = inner ++ Byte.quote :: later ∧
        stop = offset + (inner.length + 1) := by
  obtain ⟨hstop, hquote⟩ := leave_eq hle
  constructor
  · rintro ⟨hleave, hline⟩
    rw [hleave] at hstop hquote
    obtain ⟨body, hbody⟩ := literalBody_isPrefix (source.drop offset)
    have hcloses : ClosesOnLine (source.drop offset) := by
      refine ⟨hquote.mp rfl, fun hnewline => ?_⟩
      obtain ⟨i, hi, hget⟩ := List.mem_iff_getElem.mp hnewline
      refine hline (offset + i) (Nat.le_add_right _ _) (by dsimp only at hstop; omega) ?_
      rw [← List.getElem?_drop, ← hbody, List.getElem?_append_left hi, List.getElem?_eq_getElem hi,
        hget]
    obtain ⟨inner, later, hinner, hsplit⟩ := hcloses.exists_inner
    refine ⟨inner, later, hinner, hsplit, ?_⟩
    rw [hsplit, hinner.literalBody_append, List.length_append, List.length_singleton] at hstop
    exact hstop
  · rintro ⟨inner, later, hinner, hsplit, rfl⟩
    rw [hsplit, hinner.literalBody_append] at hstop hquote
    refine ⟨Prod.ext (hquote.mpr rfl) ?_, fun place hge hlt hnewline => ?_⟩
    · rw [hstop, List.length_append, List.length_singleton]
    · obtain ⟨i, rfl⟩ := Nat.exists_eq_add_of_le hge
      have hi : i < (inner ++ [Byte.quote]).length := by
        rw [List.length_append, List.length_singleton]
        omega
      rw [← List.getElem?_drop, hsplit, List.append_cons, List.getElem?_append_left hi] at hnewline
      rcases List.mem_append.mp (List.mem_of_getElem? hnewline) with hmem | hmem
      · exact hinner.newline_notMem hmem
      · exact absurd (List.mem_singleton.mp hmem) (by decide)

/-! ## Characters between the quotes -/

/-- Bytes that mean nothing inside of a literal may stand there. -/
theorem Inner.append_plain {front later : Text}
    (hplain : ∀ b ∈ front, b ≠ Byte.quote ∧ b ≠ Byte.newline ∧ b ≠ Byte.backslash)
    (hlater : Inner later) : Inner (front ++ later) := by
  induction front with
  | nil => exact hlater
  | cons b front ih =>
      obtain ⟨hquote, hnewline, hbackslash⟩ := hplain b List.mem_cons_self
      exact .plain hquote hnewline hbackslash
        (ih fun b hb => hplain b (List.mem_cons_of_mem _ hb))

/-- Where such bytes stand in front, the literal goes on behind them. -/
theorem Inner.of_append_plain {inner front behind rest : Text} (hinner : Inner inner)
    (hplain : ∀ b ∈ front, b ≠ Byte.quote ∧ b ≠ Byte.newline ∧ b ≠ Byte.backslash)
    (hsplit : inner ++ Byte.quote :: behind = front ++ rest) :
    ∃ later, inner = front ++ later ∧ Inner later ∧ later ++ Byte.quote :: behind = rest := by
  induction front generalizing inner with
  | nil => exact ⟨inner, rfl, hinner, hsplit⟩
  | cons b front ih =>
      obtain ⟨hquote, hnewline, hbackslash⟩ := hplain b List.mem_cons_self
      cases hinner with
      | nil => exact absurd (List.cons.inj hsplit).1.symm hquote
      | escape htaken hlater => exact absurd (List.cons.inj hsplit).1.symm hbackslash
      | plain hquote' hnewline' hbackslash' hlater =>
          rw [List.cons_append, List.cons_append] at hsplit
          obtain ⟨rfl, hbehind⟩ := List.cons.inj hsplit
          obtain ⟨later, rfl, hinner, hrest⟩ :=
            ih hlater (fun b hb => hplain b (List.mem_cons_of_mem _ hb)) hbehind
          exact ⟨later, rfl, hinner, hrest⟩

/-- No byte of a plain character means anything inside of a literal. -/
theorem plain_of_mem_encodeChar {c : Char} (hquote : c ≠ '"') (hbackslash : c ≠ '\\')
    (hnewline : c ≠ '\n') {b : UInt8} (hb : b ∈ String.utf8EncodeChar c) :
    b ≠ Byte.quote ∧ b ≠ Byte.newline ∧ b ≠ Byte.backslash := by
  have hne : ∀ mark : Char, mark.toNat < 0x80 → c ≠ mark → b ≠ UInt8.ofNat mark.toNat := by
    rintro mark hascii hmark rfl
    have hnat : (UInt8.ofNat mark.toNat).toNat = mark.toNat := by
      rw [UInt8.toNat_ofNat']
      omega
    have hsame := Text.eq_of_mem_encodeChar hb (by omega)
    rw [hnat] at hsame
    exact hmark (Char.toNat_inj.mp hsame)
  exact ⟨hne '"' (by decide) hquote, hne '\n' (by decide) hnewline,
    hne '\\' (by decide) hbackslash⟩

/-- A byte beyond ASCII means nothing inside of a literal. -/
theorem plain_of_beyond {b : UInt8} (hb : 0x80 ≤ b.toNat) :
    b ≠ Byte.quote ∧ b ≠ Byte.newline ∧ b ≠ Byte.backslash := by
  refine ⟨?_, ?_, ?_⟩ <;>
    · rintro rfl
      exact absurd hb (by decide)

/-- Behind the first byte of a character nothing means anything inside of a literal. -/
theorem exists_encodeChar_eq_cons (c : Char) :
    ∃ taken more, String.utf8EncodeChar c = taken :: more ∧ (taken = Byte.newline ↔ c = '\n') ∧
      ∀ b ∈ more, b ≠ Byte.quote ∧ b ≠ Byte.newline ∧ b ≠ Byte.backslash := by
  cases hencode : String.utf8EncodeChar c with
  | nil => exact absurd hencode String.utf8EncodeChar_ne_nil
  | cons taken more =>
      refine ⟨taken, more, rfl, ⟨?_, ?_⟩, fun b hb => ?_⟩
      · rintro rfl
        have hsame := Text.eq_of_mem_encodeChar (hencode ▸ List.mem_cons_self) (by decide)
        exact Char.toNat_inj.mp hsame
      · rintro rfl
        exact (List.cons.inj hencode).1.symm
      · rcases Text.encode_cases c with ⟨-, hsingle⟩ | hbeyond
        · rw [hencode] at hsingle
          rw [(List.cons.inj hsingle).2] at hb
          exact absurd hb List.not_mem_nil
        · exact plain_of_beyond (hbeyond b (hencode ▸ List.mem_cons_of_mem _ hb))

/-! ## The pattern in bytes -/

/-- A word of the pattern may stand between quotes. -/
theorem inner_encode {word : List Char} (hword : word ∈ innerPattern) : Inner (encode word) := by
  obtain ⟨parts, rfl, hparts⟩ := Language.mem_kstar.mp hword
  clear hword
  induction parts with
  | nil => exact .nil
  | cons part parts ih =>
      have hlater : Inner (encode parts.flatten) :=
        ih fun part hpart => hparts part (List.mem_cons_of_mem _ hpart)
      rw [List.flatten_cons, Text.encode_append]
      rcases hparts part List.mem_cons_self with
        ⟨c, hquote, hbackslash, hnewline, rfl⟩ | ⟨c, hc, rfl⟩
      · refine Inner.append_plain (fun b hb => ?_) hlater
        rw [encode, List.flatMap_singleton] at hb
        exact plain_of_mem_encodeChar hquote hbackslash hnewline hb
      · obtain ⟨taken, more, hencode, htaken, hmore⟩ := exists_encodeChar_eq_cons c
        have hpart : encode ['\\', c] = Byte.backslash :: taken :: more := by
          rw [Text.encode_cons, encode, List.flatMap_singleton, hencode]
          rfl
        rw [hpart]
        exact .escape (mt htaken.mp hc) (Inner.append_plain hmore hlater)

theorem append_mem_innerPattern {part word : List Char} (hpart : part ∈ plainChars + escapes)
    (hword : word ∈ innerPattern) : part ++ word ∈ innerPattern := by
  obtain ⟨parts, rfl, hparts⟩ := Language.mem_kstar.mp hword
  refine Language.mem_kstar.mpr ⟨part :: parts, rfl, fun other hother => ?_⟩
  rcases List.mem_cons.mp hother with rfl | hother
  · exact hpart
  · exact hparts other hother

/-- What may stand between quotes, and stands in front of a quote in a string, is a word of
the pattern. -/
theorem exists_word_of_inner {chars : List Char} {inner behind : Text} (hinner : Inner inner)
    (hchars : encode chars = inner ++ Byte.quote :: behind) :
    ∃ word later, word ∈ innerPattern ∧ chars = word ++ '"' :: later ∧ encode word = inner := by
  -- The induction is on the characters, of which an escape takes two.
  induction hlength : chars.length using Nat.strongRecOn generalizing chars inner with
  | ind length ih =>
      subst hlength
      cases chars with
      | nil => cases hinner <;> cases hchars
      | cons c chars =>
          rw [Text.encode_cons] at hchars
          by_cases hquote : c = '"'
          · subst hquote
            cases hinner with
            | nil => exact ⟨[], chars, Language.nil_mem_kstar _, rfl, rfl⟩
            | escape htaken hlater => exact absurd (List.cons.inj hchars).1 (by decide)
            | plain hquote hnewline hbackslash hlater =>
                exact absurd (List.cons.inj hchars).1.symm hquote
          by_cases hbackslash : c = '\\'
          · subst hbackslash
            cases hinner with
            | nil => exact absurd (List.cons.inj hchars).1 (by decide)
            | plain hquote hnewline hbackslash hlater =>
                exact absurd (List.cons.inj hchars).1.symm hbackslash
            | @escape taken later htaken hlater =>
                have hbehind : encode chars = taken :: (later ++ Byte.quote :: behind) :=
                  (List.cons.inj hchars).2
                cases chars with
                | nil => cases hbehind
                | cons d chars =>
                    obtain ⟨first, more, hencode, hfirst, hmore⟩ := exists_encodeChar_eq_cons d
                    rw [Text.encode_cons, hencode] at hbehind
                    obtain ⟨rfl, hrest⟩ := List.cons.inj hbehind
                    obtain ⟨inner, rfl, hinner, hlast⟩ := hlater.of_append_plain hmore hrest.symm
                    obtain ⟨word, rest, hword, rfl, rfl⟩ :=
                      ih _ (by simp only [List.length_cons]; omega) hinner hlast.symm rfl
                    refine ⟨['\\', d] ++ word, rest, append_mem_innerPattern ?_ hword, rfl, ?_⟩
                    · exact .inr ⟨d, mt hfirst.mpr htaken, rfl⟩
                    · rw [List.cons_append, Text.encode_cons, List.singleton_append,
                        Text.encode_cons, hencode]
                      rfl
          by_cases hnewline : c = '\n'
          · subst hnewline
            cases hinner with
            | nil => exact absurd (List.cons.inj hchars).1 (by decide)
            | escape htaken hlater => exact absurd (List.cons.inj hchars).1 (by decide)
            | plain hquote hnewline hbackslash hlater =>
                exact absurd (List.cons.inj hchars).1.symm hnewline
          · obtain ⟨later, rfl, hlater, hlast⟩ := hinner.of_append_plain
              (fun b hb => plain_of_mem_encodeChar hquote hbackslash hnewline hb) hchars.symm
            obtain ⟨word, rest, hword, rfl, rfl⟩ :=
              ih _ (by simp only [List.length_cons]; omega) hlater hlast.symm rfl
            refine ⟨[c] ++ word, rest, append_mem_innerPattern ?_ hword, rfl, rfl⟩
            exact .inl ⟨c, hquote, hbackslash, hnewline, rfl⟩

theorem mem_pattern_iff {word : List Char} :
    word ∈ pattern ↔ ∃ inner ∈ innerPattern, word = '"' :: (inner ++ ['"']) := by
  simp only [pattern, Language.mem_mul]
  constructor
  · rintro ⟨front, ⟨first, rfl, inner, hinner, rfl⟩, last, rfl, rfl⟩
    exact ⟨inner, hinner, rfl⟩
  · rintro ⟨inner, hinner, rfl⟩
    exact ⟨['"'] ++ inner, ⟨['"'], rfl, inner, hinner, rfl⟩, ['"'], rfl, rfl⟩

/-- In a string, a quote stands between two strings. -/
theorem exists_around_quote {string : String} {start : Nat}
    (hquote : (ofString string)[start]? = some Byte.quote) :
    ∃ front rest, string = front ++ "\"" ++ rest ∧ (ofString front).length = start := by
  have hstring : (ofString string).IsString := ⟨string, rfl⟩
  obtain ⟨hlt, hget⟩ := List.getElem?_eq_some_iff.mp hquote
  have hstart := Text.mayCut_of_ascii hquote (by decide)
  have hstop := hstring.mayCut_succ hquote (by decide)
  obtain ⟨front, hfront⟩ : Text.IsString ((ofString string).take start) :=
    hstring.slice (Nat.zero_le _) (Text.mayCut_zero _) hstart
  obtain ⟨rest, hrest⟩ : Text.IsString ((ofString string).drop (start + 1)) := by
    have hslice := hstring.slice hstop.le_length hstop (Text.mayCut_length _)
    rwa [Text.slice, List.take_of_length_le (Nat.le_of_eq List.length_drop)] at hslice
  have hall : ofString string = ofString (front ++ "\"" ++ rest) := by
    calc ofString string
        = (ofString string).take start ++ Byte.quote :: (ofString string).drop (start + 1) := by
          rw [← hget, ← List.drop_eq_getElem_cons hlt, List.take_append_drop]
      _ = ofString front ++ Byte.quote :: ofString rest := by rw [hfront, hrest]
      _ = ofString (front ++ "\"" ++ rest) := by
          rw [Text.ofString_append, Text.ofString_append, List.append_assoc]
          rfl
  refine ⟨front, rest, Text.ofString_injective hall, ?_⟩
  rw [← hfront, List.length_take]
  omega

/-- The pattern matches just where a literal is closed on its line. -/
theorem matchesAt_iff {string : String} {start stop : Nat}
    (hquote : (ofString string)[start]? = some Byte.quote) :
    MatchesAt string start stop ↔ ∃ inner later, Inner inner ∧
      (ofString string).drop (start + 1) = inner ++ Byte.quote :: later ∧
        stop = start + 1 + (inner.length + 1) := by
  have hmark : encode ['"'] = [Byte.quote] := rfl
  constructor
  · rintro ⟨front, word, rest, rfl, hword, rfl, rfl⟩
    obtain ⟨inner, hinner, hword⟩ := mem_pattern_iff.mp hword
    have hbytes : ofString word = Byte.quote :: (encode inner ++ [Byte.quote]) := by
      rw [Text.ofString_eq_encode, hword, ← List.singleton_append, Text.encode_append,
        Text.encode_append, hmark]
      rfl
    refine ⟨encode inner, ofString rest, inner_encode hinner, ?_, ?_⟩
    · rw [Text.ofString_append, Text.ofString_append, hbytes, List.append_assoc, ← List.drop_drop,
        List.drop_left]
      simp
    · rw [Text.ofString_append, hbytes]
      simp only [List.length_append, List.length_cons, List.length_nil]
      omega
  · rintro ⟨inner, later, hinner, hdrop, rfl⟩
    obtain ⟨front, rest, rfl, rfl⟩ := exists_around_quote hquote
    have hopened : (ofString (front ++ "\"")).length = (ofString front).length + 1 := by
      rw [Text.ofString_append, List.length_append]
      rfl
    have hrest : encode rest.toList = inner ++ Byte.quote :: later := by
      rw [← hdrop, ← Text.ofString_eq_encode, Text.ofString_append, List.drop_left' hopened]
    obtain ⟨word, behind, hword, hsplit, rfl⟩ := exists_word_of_inner hinner hrest
    refine ⟨front, String.ofList ('"' :: (word ++ ['"'])), String.ofList behind, ?_, ?_, rfl, ?_⟩
    · rw [← String.toList_inj]
      simp [hsplit]
    · rw [String.toList_ofList]
      exact mem_pattern_iff.mpr ⟨word, hword, rfl⟩
    · rw [Text.ofString_append, Text.ofString_ofList, ← List.singleton_append, Text.encode_append,
        Text.encode_append, hmark]
      simp only [List.length_append, List.length_cons, List.length_nil]
      omega

/-! ## Where the two readings of a literal part -/

/-- A newline inside of a literal stands behind a backslash. -/
theorem backslash_of_newline {text : Text} {i : Nat}
    (hnewline : (literalBody text).1[i]? = some Byte.newline) :
    ∃ before, i = before + 1 ∧ (literalBody text).1[before]? = some Byte.backslash := by
  fun_induction literalBody text generalizing i with
  | case1 => cases hnewline
  | case2 rest =>
      cases i with
      | zero => exact absurd (Option.some.inj hnewline) (by decide)
      | succ i => cases hnewline
  | case3 rest => cases hnewline
  | case4 =>
      cases i with
      | zero => exact absurd (Option.some.inj hnewline) (by decide)
      | succ i => cases hnewline
  | case5 taken later hquote hne ih =>
      cases i with
      | zero => exact absurd (Option.some.inj hnewline) (by decide)
      | succ i =>
          cases i with
          | zero => exact ⟨0, rfl, rfl⟩
          | succ i =>
              obtain ⟨before, rfl, hbackslash⟩ := ih hnewline
              exact ⟨before + 2, rfl, hbackslash⟩
  | case6 b rest hquote hne hbackslash ih =>
      cases i with
      | zero => exact absurd (Option.some.inj hnewline) hne
      | succ i =>
          obtain ⟨before, rfl, hbefore⟩ := ih hnewline
          exact ⟨before + 1, rfl, hbefore⟩

/-- If the loop ends at a closing quote and has come by a newline, a backslash took it. -/
theorem exists_escaped_newline {source : Text} {offset place : Nat} (hle : offset ≤ source.length)
    (hge : offset ≤ place) (hlt : place < (leave source offset).2)
    (hnewline : source[place]? = some Byte.newline) :
    ∃ before, offset ≤ before ∧ before + 1 < (leave source offset).2 ∧
      source[before]? = some Byte.backslash ∧ source[before + 1]? = some Byte.newline := by
  obtain ⟨hstop, -⟩ := leave_eq hle
  obtain ⟨behind, hbody⟩ := literalBody_isPrefix (source.drop offset)
  have hinside : ∀ i, i < (literalBody (source.drop offset)).1.length →
      (literalBody (source.drop offset)).1[i]? = source[offset + i]? := by
    intro i hi
    rw [← List.getElem?_drop, ← List.getElem?_append_left hi, hbody]
  obtain ⟨i, rfl⟩ := Nat.exists_eq_add_of_le hge
  obtain ⟨before, rfl, hbackslash⟩ := backslash_of_newline ((hinside i (by omega)).trans hnewline)
  rw [hinside before (by omega)] at hbackslash
  exact ⟨offset + before, Nat.le_add_right _ _, by omega, hbackslash, hnewline⟩

/-- The pattern matches from a quote on just if the loop over the bytes ends at a closing
quote on the same line, and it ends there.  This is what the search for keywords takes for
a literal.  So where the two part, the literal is not closed, or it holds a newline that a
backslash takes. -/
theorem matchesAt_iff_leaves {string : String} {start : Nat}
    (hquote : (ofString string)[start]? = some Byte.quote) :
    (∀ stop, MatchesAt string start stop ↔
      leave (ofString string) (start + 1) = (.quote, stop) ∧
        ∀ place, start < place → place < stop →
          (ofString string)[place]? ≠ some Byte.newline) ∧
    (∀ stop, MatchesAt string start stop ↔
      (closedLength? ((ofString string).drop (start + 1))).map (start + 1 + ·) = some stop) ∧
    (leave (ofString string) (start + 1)).2 =
      Comment.Copier.skipLiteral (ofString string) (start + 1) ∧
    (MatchesAt string start (leave (ofString string) (start + 1)).2 ∨
      (leave (ofString string) (start + 1)).1 ≠ .quote ∨
      ∃ place, start < place ∧ place + 1 < (leave (ofString string) (start + 1)).2 ∧
        (ofString string)[place]? = some Byte.backslash ∧
        (ofString string)[place + 1]? = some Byte.newline) := by
  have hle : start + 1 ≤ (ofString string).length := (List.getElem?_eq_some_iff.mp hquote).1
  have hmatches : ∀ stop, MatchesAt string start stop ↔
      leave (ofString string) (start + 1) = (.quote, stop) ∧
        ∀ place, start < place → place < stop →
          (ofString string)[place]? ≠ some Byte.newline :=
    fun stop => (matchesAt_iff hquote).trans (leave_quote_iff hle).symm
  refine ⟨hmatches, fun stop => ?_, (skipLiteral_eq_leave hle).symm, ?_⟩
  · rw [matchesAt_iff hquote, closedLength?_eq]
    constructor
    · rintro ⟨inner, later, hinner, hdrop, rfl⟩
      rw [hdrop, if_pos (hinner.closesOnLine later), hinner.literalBody_append]
      simp
    · intro hclosed
      split at hclosed
      · next hcloses =>
          obtain ⟨inner, later, hinner, hdrop⟩ := hcloses.exists_inner
          rw [hdrop, hinner.literalBody_append] at hclosed
          refine ⟨inner, later, hinner, hdrop, ?_⟩
          simpa using (Option.some.inj hclosed).symm
      · cases hclosed
  · by_cases hleave : (leave (ofString string) (start + 1)).1 = .quote
    · by_cases hline : ∃ place, start < place ∧ place < (leave (ofString string) (start + 1)).2 ∧
          (ofString string)[place]? = some Byte.newline
      · obtain ⟨place, hge, hlt, hnewline⟩ := hline
        exact .inr (.inr (exists_escaped_newline hle hge hlt hnewline))
      · refine .inl ((hmatches _).mpr ⟨Prod.ext hleave rfl, fun place hge hlt hnewline => ?_⟩)
        exact hline ⟨place, hge, hlt, hnewline⟩
    · exact .inr (.inl hleave)

/-- A literal with a character of two bytes and a backslash behind backslashes. -/
theorem matchesAt_iff_leaves_escapes :
    (ofString "a\"\\é\\\\\"b\"")[1]? = some Byte.quote ∧ MatchesAt "a\"\\é\\\\\"b\"" 1 8 := by
  have hquote : (ofString "a\"\\é\\\\\"b\"")[1]? = some Byte.quote := by decide
  obtain ⟨-, hmatches, -, -⟩ := matchesAt_iff_leaves hquote
  exact ⟨hquote, (hmatches 8).mpr (by decide)⟩

end Literal

end NetlistSplit
