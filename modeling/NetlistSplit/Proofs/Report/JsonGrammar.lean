import Mathlib.Data.List.Basic

/-!
# The grammar of JSON

Which texts are JSON documents, and the value that each of them stands for: all of the
grammar, with every kind of value, blanks wherever they may stand, every way to write a
number and every escape of a string (`IsDocument`).

A text is read from its start, and what a part of it leaves to be read is the rest of the
text.  A document stands for one value only (`IsDocument.unique`): for each part of the
grammar the text determines both the content and the rest (`Reads.unique`).
-/

namespace NetlistSplit

namespace JsonGrammar

/-- What a document can stand for.  A number is known by the characters that write it. -/
inductive Value where
  | null
  | bool (b : Bool)
  | number (literal : List Char)
  | string (s : String)
  | array (items : List Value)
  | object (members : List (String × Value))

/-! ## Blanks -/

/-- Whether a character is a blank. -/
def isBlank (c : Char) : Bool :=
  c = ' ' || c = '\t' || c = '\n' || c = '\r'

/-- A text without the blanks at its start. -/
def skip (text : List Char) : List Char :=
  text.dropWhile isBlank

/-! ## Numbers -/

/-- Whether characters are digits, one at least. -/
def AreDigits (text : List Char) : Prop :=
  text ≠ [] ∧ ∀ c ∈ text, c.isDigit = true

/-- Whether characters write a number: perhaps a minus, digits without a leading zero, perhaps a
fraction and perhaps an exponent. -/
def IsNumber (literal : List Char) : Prop :=
  ∃ minus whole fraction exponent, literal = minus ++ whole ++ fraction ++ exponent ∧
    minus ∈ [[], ['-']] ∧
    (AreDigits whole ∧ (whole.head? = some '0' → whole = ['0'])) ∧
    (fraction = [] ∨ ∃ digits, fraction = '.' :: digits ∧ AreDigits digits) ∧
    (exponent = [] ∨ ∃ e ∈ ['e', 'E'], ∃ sign ∈ [[], ['+'], ['-']], ∃ digits,
      exponent = e :: (sign ++ digits) ∧ AreDigits digits)

/-- Whether a character can stand in a number. -/
def isNumberChar (c : Char) : Bool :=
  c.isDigit || c ∈ ['-', '+', '.', 'e', 'E']

/-! ## Strings -/

/-- The number that a hexadecimal digit stands for. -/
def hexValue? (c : Char) : Option Nat :=
  if c.isDigit then some (c.toNat - '0'.toNat)
  else if 'a' ≤ c ∧ c ≤ 'f' then some (c.toNat - 'a'.toNat + 10)
  else if 'A' ≤ c ∧ c ≤ 'F' then some (c.toNat - 'A'.toNat + 10)
  else none

/-- The number that four hexadecimal digits stand for. -/
def unit? (a b c d : Char) : Option Nat := do
  let a ← hexValue? a
  let b ← hexValue? b
  let c ← hexValue? c
  let d ← hexValue? d
  return 0x1000 * a + 0x100 * b + 0x10 * c + d

/-- The letters that may follow a backslash, and the characters that they stand for. -/
def shortEscapes : List (Char × Char) :=
  [('"', '"'), ('\\', '\\'), ('/', '/'), ('b', '\x08'), ('f', '\x0c'), ('n', '\n'), ('r', '\r'),
    ('t', '\t')]

/-- Whether a text that follows a backslash stands for a character, and then for `rest`.  A
character beyond the first 65536 is written as the two surrogates that stand for it. -/
inductive Escape : Char → List Char → List Char → Prop where
  | short {letter char : Char} {rest : List Char} :
      (letter, char) ∈ shortEscapes → Escape char (letter :: rest) rest
  | unit {char a b c d : Char} {rest : List Char} :
      unit? a b c d = some char.toNat → Escape char ('u' :: a :: b :: c :: d :: rest) rest
  | pair {char a b c d a' b' c' d' : Char} {high low : Nat} {rest : List Char} :
      unit? a b c d = some (0xd800 + high) → high < 0x400 →
      unit? a' b' c' d' = some (0xdc00 + low) → low < 0x400 →
      char.toNat = 0x10000 + 0x400 * high + low →
        Escape char
          ('u' :: a :: b :: c :: d :: '\\' :: 'u' :: a' :: b' :: c' :: d' :: rest) rest

/-- Whether a text that follows an opening quote stands for a string up to its closing quote, and
then for `rest`. -/
inductive StringBody : List Char → List Char → List Char → Prop where
  | close {rest : List Char} : StringBody [] ('"' :: rest) rest
  | plain {c : Char} {content text rest : List Char} :
      0x20 ≤ c.toNat → c ≠ '"' → c ≠ '\\' → StringBody content text rest →
        StringBody (c :: content) (c :: text) rest
  | escaped {c : Char} {content escape text rest : List Char} :
      Escape c escape text → StringBody content text rest →
        StringBody (c :: content) ('\\' :: escape) rest

/-! ## Values -/

/-- Whether a text stands for a value that holds no others, and then for `rest`.  A number takes
all the characters that can stand in it. -/
inductive Scalar : Value → List Char → List Char → Prop where
  | null {rest : List Char} : Scalar .null ('n' :: 'u' :: 'l' :: 'l' :: rest) rest
  | boolTrue {rest : List Char} : Scalar (.bool true) ('t' :: 'r' :: 'u' :: 'e' :: rest) rest
  | boolFalse {rest : List Char} :
      Scalar (.bool false) ('f' :: 'a' :: 'l' :: 's' :: 'e' :: rest) rest
  | number {literal text rest : List Char} :
      text.takeWhile isNumberChar = literal → IsNumber literal →
      text.dropWhile isNumberChar = rest → Scalar (.number literal) text rest
  | string {content text rest : List Char} :
      StringBody content text rest → Scalar (.string (String.ofList content)) ('"' :: text) rest

/-- The parts of a text that hold values: a value, and what stands in an array or an object up to
its end, from the start of it or behind an item or a member. -/
inductive Kind where
  | value
  | items (first : Bool)
  | members (first : Bool)

/-- What a part of a kind stands for. -/
def Kind.Content : Kind → Type
  | value => Value
  | items _ => List Value
  | members _ => List (String × Value)

/-- Whether `later` follows the comma of an item or a member.  The first has none. -/
def Separated (first : Bool) (text later : List Char) : Prop :=
  if first then text = later else skip text = ',' :: later

/-- Whether a text has a part of a kind with some content, and then `rest`. -/
inductive Reads : (kind : Kind) → kind.Content → List Char → List Char → Prop where
  | scalar {value : Value} {text rest : List Char} :
      Scalar value (skip text) rest → Reads .value value text rest
  | array {items : List Value} {text inside rest : List Char} :
      skip text = '[' :: inside → Reads (.items true) items inside rest →
        Reads .value (.array items) text rest
  | object {members : List (String × Value)} {text inside rest : List Char} :
      skip text = '\x7b' :: inside → Reads (.members true) members inside rest →
        Reads .value (.object members) text rest
  | noItem {first : Bool} {text rest : List Char} :
      skip text = ']' :: rest → Reads (.items first) [] text rest
  | item {first : Bool} {value : Value} {items : List Value} {text start later rest : List Char} :
      Separated first text start → Reads .value value start later →
      Reads (.items false) items later rest →
        Reads (.items first) (value :: items) text rest
  | noMember {first : Bool} {text rest : List Char} :
      skip text = '\x7d' :: rest → Reads (.members first) [] text rest
  | member {first : Bool} {value : Value} {members : List (String × Value)}
      {key text start quoted colon behind later rest : List Char} :
      Separated first text start → skip start = '"' :: quoted → StringBody key quoted colon →
      skip colon = ':' :: behind → Reads .value value behind later →
      Reads (.members false) members later rest →
        Reads (.members first) ((String.ofList key, value) :: members) text rest

/-- Whether a text is a document that stands for a value. -/
def IsDocument (text : List Char) (value : Value) : Prop :=
  ∃ rest, Reads .value value text rest ∧ skip rest = []

/-! ## A text is read in one way -/

theorem IsNumber.ne_nil {literal : List Char} (hnumber : IsNumber literal) : literal ≠ [] := by
  obtain ⟨minus, whole, fraction, exponent, rfl, -, ⟨⟨hwhole, -⟩, -⟩, -, -⟩ := hnumber
  simp [hwhole]

theorem Escape.unique {c c' : Char} {text rest rest' : List Char} (hescape : Escape c text rest)
    (hescape' : Escape c' text rest') : c = c' ∧ rest = rest' := by
  have hshort : ∀ escape ∈ shortEscapes, escape.1 ≠ 'u' ∧
      ∀ escape' ∈ shortEscapes, escape.1 = escape'.1 → escape.2 = escape'.2 := by decide
  have hsurrogate : ∀ {c : Char} {n : Nat}, c.toNat = 0xd800 + n → ¬ n < 0x400 := by
    intro c n hchar hn
    have hvalid : c.toNat < 0xd800 ∨ 0xdfff < c.toNat ∧ c.toNat < 0x110000 := c.valid
    omega
  cases hescape with
  | short hletter =>
      cases hescape' with
      | short hletter' => exact ⟨(hshort _ hletter).2 _ hletter' rfl, rfl⟩
      | unit _ => exact absurd rfl (hshort _ hletter).1
      | pair _ _ _ _ _ => exact absurd rfl (hshort _ hletter).1
  | unit hunit =>
      cases hescape' with
      | short hletter' => exact absurd rfl (hshort _ hletter').1
      | unit hunit' => exact ⟨Char.toNat_inj.mp (Option.some.inj (hunit.symm.trans hunit')), rfl⟩
      | pair hhigh hn _ _ _ =>
          exact absurd hn (hsurrogate (Option.some.inj (hunit.symm.trans hhigh)))
  | pair hhigh hn hlow hm hchar =>
      cases hescape' with
      | short hletter' => exact absurd rfl (hshort _ hletter').1
      | unit hunit' =>
          exact absurd hn (hsurrogate (Option.some.inj (hunit'.symm.trans hhigh)))
      | pair hhigh' hn' hlow' hm' hchar' =>
          have hhigh := Option.some.inj (hhigh.symm.trans hhigh')
          have hlow := Option.some.inj (hlow.symm.trans hlow')
          exact ⟨Char.toNat_inj.mp (by omega), rfl⟩

theorem StringBody.unique {content content' text rest rest' : List Char}
    (hbody : StringBody content text rest) (hbody' : StringBody content' text rest') :
    content = content' ∧ rest = rest' := by
  induction hbody generalizing content' rest' with
  | close =>
      cases hbody' with
      | close => exact ⟨rfl, rfl⟩
      | plain _ hquote _ _ => exact absurd rfl hquote
  | plain _ hquote hslash _ ih =>
      cases hbody' with
      | close => exact absurd rfl hquote
      | plain _ _ _ hbody' =>
          obtain ⟨rfl, rfl⟩ := ih hbody'
          exact ⟨rfl, rfl⟩
      | escaped _ _ => exact absurd rfl hslash
  | escaped hescape _ ih =>
      cases hbody' with
      | plain _ _ hslash _ => exact absurd rfl hslash
      | escaped hescape' hbody' =>
          obtain ⟨rfl, rfl⟩ := hescape.unique hescape'
          obtain ⟨rfl, rfl⟩ := ih hbody'
          exact ⟨rfl, rfl⟩

/-- What holds others begins in its own way, and none ends where a value can begin. -/
theorem Scalar.ne_cons {value : Value} {text rest : List Char} {c : Char}
    (hscalar : Scalar value text rest) (hc : c ∈ ['[', ']', '\x7b', '\x7d', ','])
    (later : List Char) : text ≠ c :: later := by
  have hother : isNumberChar c = false ∧ c ∉ ['n', 't', 'f', '"'] := by
    simp only [List.mem_cons, List.not_mem_nil, or_false] at hc
    rcases hc with rfl | rfl | rfl | rfl | rfl <;> decide
  rintro rfl
  cases hscalar with
  | null => exact hother.2 (by decide)
  | boolTrue => exact hother.2 (by decide)
  | boolFalse => exact hother.2 (by decide)
  | string _ => exact hother.2 (by decide)
  | number hliteral hnumber _ =>
      rw [List.takeWhile_cons_of_neg (by simp [hother.1])] at hliteral
      exact hnumber.ne_nil hliteral.symm

theorem Scalar.unique {value value' : Value} {text rest rest' : List Char}
    (hscalar : Scalar value text rest) (hscalar' : Scalar value' text rest') :
    value = value' ∧ rest = rest' := by
  have hletter : ∀ {literal later : List Char} {c : Char}, isNumberChar c ≠ true →
      (c :: later).takeWhile isNumberChar = literal → ¬ IsNumber literal := by
    intro literal later c hc hliteral hnumber
    rw [List.takeWhile_cons_of_neg hc] at hliteral
    exact hnumber.ne_nil hliteral.symm
  cases hscalar with
  | null =>
      cases hscalar' with
      | null => exact ⟨rfl, rfl⟩
      | number hliteral hnumber _ => exact absurd hnumber (hletter (by decide) hliteral)
  | boolTrue =>
      cases hscalar' with
      | boolTrue => exact ⟨rfl, rfl⟩
      | number hliteral hnumber _ => exact absurd hnumber (hletter (by decide) hliteral)
  | boolFalse =>
      cases hscalar' with
      | boolFalse => exact ⟨rfl, rfl⟩
      | number hliteral hnumber _ => exact absurd hnumber (hletter (by decide) hliteral)
  | number hliteral hnumber hrest =>
      cases hscalar' with
      | null => exact absurd hnumber (hletter (by decide) hliteral)
      | boolTrue => exact absurd hnumber (hletter (by decide) hliteral)
      | boolFalse => exact absurd hnumber (hletter (by decide) hliteral)
      | number hliteral' _ hrest' =>
          exact ⟨congrArg Value.number (hliteral.symm.trans hliteral'), hrest.symm.trans hrest'⟩
      | string _ => exact absurd hnumber (hletter (by decide) hliteral)
  | string hbody =>
      cases hscalar' with
      | number hliteral hnumber _ => exact absurd hnumber (hletter (by decide) hliteral)
      | string hbody' =>
          obtain ⟨rfl, rfl⟩ := hbody.unique hbody'
          exact ⟨rfl, rfl⟩

theorem Reads.skip_ne_close {value : Value} {text rest : List Char}
    (hvalue : Reads .value value text rest) (later : List Char) : skip text ≠ ']' :: later := by
  cases hvalue with
  | scalar hscalar => exact hscalar.ne_cons (by decide) later
  | array hopen _ => simp [hopen]
  | object hopen _ => simp [hopen]

theorem Separated.unique {first : Bool} {text start start' : List Char}
    (hseparated : Separated first text start) (hseparated' : Separated first text start') :
    start = start' := by
  cases first with
  | true => exact Eq.trans (Eq.symm hseparated) hseparated'
  | false => exact (List.cons.inj (Eq.trans (Eq.symm hseparated) hseparated')).2

/-- A separator is no end. -/
theorem Separated.skip_eq {first : Bool} {text start later : List Char} {c : Char}
    (hseparated : Separated first text start) (hc : c ≠ ',') (htext : skip text = c :: later) :
    skip start = c :: later := by
  cases first with
  | true =>
      obtain rfl : text = start := hseparated
      exact htext
  | false =>
      have hcomma : skip text = ',' :: start := hseparated
      exact absurd (List.cons.inj (htext.symm.trans hcomma)).1 hc

theorem Reads.unique {kind : Kind} {content content' : kind.Content} {text rest rest' : List Char}
    (hreads : Reads kind content text rest) (hreads' : Reads kind content' text rest') :
    content = content' ∧ rest = rest' := by
  induction hreads generalizing rest' with
  | scalar hscalar =>
      cases hreads' with
      | scalar hscalar' => exact hscalar.unique hscalar'
      | array hopen _ => exact absurd hopen (hscalar.ne_cons (by decide) _)
      | object hopen _ => exact absurd hopen (hscalar.ne_cons (by decide) _)
  | array hopen _ ih =>
      cases hreads' with
      | scalar hscalar => exact absurd hopen (hscalar.ne_cons (by decide) _)
      | array hopen' hinside =>
          obtain rfl := (List.cons.inj (hopen.symm.trans hopen')).2
          obtain ⟨rfl, rfl⟩ := ih hinside
          exact ⟨rfl, rfl⟩
      | object hopen' _ => simp [hopen] at hopen'
  | object hopen _ ih =>
      cases hreads' with
      | scalar hscalar => exact absurd hopen (hscalar.ne_cons (by decide) _)
      | array hopen' _ => simp [hopen] at hopen'
      | object hopen' hinside =>
          obtain rfl := (List.cons.inj (hopen.symm.trans hopen')).2
          obtain ⟨rfl, rfl⟩ := ih hinside
          exact ⟨rfl, rfl⟩
  | noItem hclose =>
      cases hreads' with
      | noItem hclose' => exact ⟨rfl, (List.cons.inj (hclose.symm.trans hclose')).2⟩
      | item hseparated hvalue _ =>
          exact absurd (hseparated.skip_eq (by decide) hclose) (hvalue.skip_ne_close _)
  | item hseparated hvalue _ ihvalue ihitems =>
      cases hreads' with
      | noItem hclose =>
          exact absurd (hseparated.skip_eq (by decide) hclose) (hvalue.skip_ne_close _)
      | item hseparated' hvalue' hitems =>
          obtain rfl := hseparated.unique hseparated'
          obtain ⟨rfl, rfl⟩ := ihvalue hvalue'
          obtain ⟨rfl, rfl⟩ := ihitems hitems
          exact ⟨rfl, rfl⟩
  | noMember hclose =>
      cases hreads' with
      | noMember hclose' => exact ⟨rfl, (List.cons.inj (hclose.symm.trans hclose')).2⟩
      | member hseparated hopen _ _ _ _ =>
          have hstart := hseparated.skip_eq (by decide) hclose
          simp [hopen] at hstart
  | member hseparated hopen hkey hcolon _ _ ihvalue ihmembers =>
      cases hreads' with
      | noMember hclose =>
          have hstart := hseparated.skip_eq (by decide) hclose
          simp [hopen] at hstart
      | member hseparated' hopen' hkey' hcolon' hvalue' hmembers' =>
          obtain rfl := hseparated.unique hseparated'
          obtain rfl := (List.cons.inj (hopen.symm.trans hopen')).2
          obtain ⟨rfl, rfl⟩ := hkey.unique hkey'
          obtain rfl := (List.cons.inj (hcolon.symm.trans hcolon')).2
          obtain ⟨rfl, rfl⟩ := ihvalue hvalue'
          obtain ⟨rfl, rfl⟩ := ihmembers hmembers'
          exact ⟨rfl, rfl⟩

theorem IsDocument.unique {text : List Char} {value value' : Value}
    (hdocument : IsDocument text value) (hdocument' : IsDocument text value') :
    value = value' := by
  obtain ⟨rest, hreads, -⟩ := hdocument
  obtain ⟨rest', hreads', -⟩ := hdocument'
  exact (hreads.unique hreads').1

end JsonGrammar

end NetlistSplit
