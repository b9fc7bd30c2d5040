import NetlistSplit.Text

/-!
# Closed string literals

When keywords are looked for, a string literal counts as one only if it is
closed on its own line.  Its bytes then hide whatever words they hold.  A quote
that no such literal follows is an ordinary byte.

A backslash takes the next byte with it, so an escaped quote does not close the
literal.  No escape reaches over the end of the line.
-/

namespace NetlistSplit.Literal

/-- The length of the rest of a literal, from `text`, which starts inside of it,
to the closing quote inclusive.  `seen` counts the bytes already read, and
`escaped` tells whether the byte in front was a backslash that takes this one. -/
def closedLengthAfter (seen : Nat) (escaped : Bool) : Text → Option Nat
  | [] => none
  | b :: rest =>
    if b = Byte.newline then none
    else if escaped then closedLengthAfter (seen + 1) false rest
    else if b = Byte.quote then some (seen + 1)
    else closedLengthAfter (seen + 1) (b = Byte.backslash) rest

/-- The number of bytes after an opening quote up to and including the quote
that closes the literal, if one does on the same line. -/
def closedLength? (text : Text) : Option Nat :=
  closedLengthAfter 0 false text

end NetlistSplit.Literal
