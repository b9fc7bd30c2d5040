/-!
# Netlist text as bytes

A netlist is handled as the list of its UTF-8 bytes.  Offsets, cursors and
sizes are then plain list lengths, and a span of the text is a `take` of a
`drop`.  Every character with a meaning of its own to the splitter is ASCII, and
an ASCII byte never occurs inside a longer UTF-8 sequence, so reading byte by
byte recognises exactly the characters that reading by character would.

The file gives the named bytes, the byte classes of the language, lines and
spans, and the passage between strings and texts.
-/

namespace NetlistSplit

/-- A text, as the list of its UTF-8 bytes. -/
abbrev Text := List UInt8

/-! ## Bytes with a name -/

namespace Byte

abbrev tab : UInt8 := 0x09
abbrev newline : UInt8 := 0x0A
abbrev space : UInt8 := 0x20
abbrev quote : UInt8 := 0x22
abbrev hash : UInt8 := 0x23
abbrev dollar : UInt8 := 0x24
abbrev leftParen : UInt8 := 0x28
abbrev star : UInt8 := 0x2A
abbrev slash : UInt8 := 0x2F
abbrev semicolon : UInt8 := 0x3B
abbrev backslash : UInt8 := 0x5C
abbrev underscore : UInt8 := 0x5F

/-- A blank is a space or a tab: white space that stays on its line. -/
def isBlank (b : UInt8) : Bool :=
  b == space || b == tab

def isDigit (b : UInt8) : Bool :=
  0x30 ≤ b && b ≤ 0x39

def isLetter (b : UInt8) : Bool :=
  (0x41 ≤ b && b ≤ 0x5A) || (0x61 ≤ b && b ≤ 0x7A)

/-- The bytes that a simple identifier may begin with. -/
def isIdentifierStart (b : UInt8) : Bool :=
  isLetter b || b == underscore

/-- The bytes that make up simple identifiers.  A dollar sign belongs to them
anywhere but in front. -/
def isIdentifier (b : UInt8) : Bool :=
  isIdentifierStart b || isDigit b || b == dollar

end Byte

namespace Text

/-! ## Strings and texts -/

/-- The UTF-8 bytes of a string. -/
def ofString (s : String) : Text :=
  s.toUTF8.data.toList

/-- The string that a text spells, if its bytes are well-formed UTF-8. -/
def toString? (text : Text) : Option String :=
  String.fromUTF8? ⟨text.toArray⟩

/-- A string is spelled by its own bytes. -/
theorem toString?_ofString (s : String) : toString? (ofString s) = some s := by
  have hbytes : (⟨(ofString s).toArray⟩ : ByteArray) = s.toByteArray := by
    simp [ofString]
  unfold toString? String.fromUTF8?
  rw [hbytes, dif_pos s.isValidUTF8]
  rfl

/-- The string that has one character per byte.  It spells the text whenever
the text is ASCII, as every identifier is. -/
def asciiString (text : Text) : String :=
  String.ofList (text.map Char.ofUInt8)

/-! ## Lines and spans -/

/-- The line of the byte at `offset`, counted from 1: only newlines end lines. -/
def lineAt (text : Text) (offset : Nat) : Nat :=
  (text.take offset).count Byte.newline + 1

/-- The bytes from offset `start` up to, but not including, offset `stop`. -/
def slice (text : Text) (start stop : Nat) : Text :=
  (text.drop start).take (stop - start)

end Text

end NetlistSplit
