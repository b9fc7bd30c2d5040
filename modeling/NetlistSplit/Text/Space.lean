import NetlistSplit.Text

/-!
# White space

Between the words of a module header any character of the Unicode property
`White_Space` may stand, also those outside ASCII.  The file holds that property
as a table, and drops white space from the front of a text.

A character of the table is recognised by its whole UTF-8 encoding.  No encoding
is the beginning of another, so at most one character fits at any place.
-/

namespace NetlistSplit.Text

/-- The characters with the Unicode property `White_Space`. -/
def whiteSpace : List Char :=
  ['\u0009', '\u000A', '\u000B', '\u000C', '\u000D', '\u0020', '\u0085', '\u00A0', '\u1680',
    '\u2000', '\u2001', '\u2002', '\u2003', '\u2004', '\u2005', '\u2006', '\u2007', '\u2008',
    '\u2009', '\u200A', '\u2028', '\u2029', '\u202F', '\u205F', '\u3000']

/-- The UTF-8 encodings of the white space characters. -/
def spaceEncodings : List Text :=
  whiteSpace.map String.utf8EncodeChar

/-- The number of bytes of the white space character in front of the text, 0 if
none stands there. -/
def spaceWidth (text : Text) : Nat :=
  match spaceEncodings.find? fun encoding => encoding.isPrefixOf text with
  | some encoding => encoding.length
  | none => 0

/-- Drops `pending` bytes, the rest of a white space character already
recognised, and then all further white space. -/
def dropSpacesAfter : Nat → Text → Text
  | _, [] => []
  | pending + 1, _ :: rest => dropSpacesAfter pending rest
  | 0, b :: rest =>
    match spaceWidth (b :: rest) with
    | 0 => b :: rest
    | width + 1 => dropSpacesAfter width rest

/-- The text without the white space in front of it. -/
def dropSpaces (text : Text) : Text :=
  dropSpacesAfter 0 text

/-- The text after one or more white space characters, if it begins with one. -/
def dropSpaces? (text : Text) : Option Text :=
  if spaceWidth text = 0 then none else some (dropSpaces text)

end NetlistSplit.Text
