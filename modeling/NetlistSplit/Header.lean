import NetlistSplit.Text.Space

/-!
# Module headers

A header is read for the name that it declares.  These stand in it, in this
order:

* `module` or `macromodule`, and white space;
* if present, `static` or `automatic`, and white space;
* the name;
* if present, a hash sign;
* an opening parenthesis or a semicolon.

White space may also stand in front of the hash sign and in front of what ends
the header.  `static` and `automatic` may be names themselves.  They are, if a
header that takes them as qualifiers cannot be read to its end.
-/

namespace NetlistSplit.Header

/-- The words that open a module. -/
def openers : List Text :=
  [Text.ofString "module", Text.ofString "macromodule"]

/-- The words that may stand in front of the name. -/
def qualifiers : List Text :=
  [Text.ofString "static", Text.ofString "automatic"]

/-- What follows one of the `words` and the white space after it. -/
def afterWord? (words : List Text) (text : Text) : Option Text :=
  (words.find? fun word => word.isPrefixOf text).bind fun word =>
    Text.dropSpaces? (text.drop word.length)

/-- The text without a hash sign in front of it and the white space after that. -/
def dropHash : Text → Text
  | [] => []
  | b :: rest => if b = Byte.hash then Text.dropSpaces rest else b :: rest

/-- Whether the text, which follows a name, goes on with a list of parameters or
ports or ends the header. -/
def goesOn (text : Text) : Bool :=
  match dropHash (Text.dropSpaces text) with
  | [] => false
  | b :: _ => b == Byte.leftParen || b == Byte.semicolon

/-- The name in front of the text, if a header can go on after it. -/
def declared? (text : Text) : Option String :=
  match text with
  | [] => none
  | b :: _ =>
    if Byte.isIdentifierStart b && goesOn (text.dropWhile Byte.isIdentifier) then
      some (Text.asciiString (text.takeWhile Byte.isIdentifier))
    else
      none

/-- The name declared by the header at the start of the text. -/
def name? (text : Text) : Option String :=
  (afterWord? openers text).bind fun rest =>
    match (afterWord? qualifiers rest).bind declared? with
    | some name => some name
    | none => declared? rest

end NetlistSplit.Header
