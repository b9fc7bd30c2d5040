import NetlistSplit.Text
import NetlistSplit.SourceError

/-!
# Removing comments

Comments are removed by an automaton that reads the netlist once, byte by byte.

* A block comment vanishes.  Block comments do not nest, and `/*/` opens one
  without closing it.
* A line comment vanishes up to its newline, which stays, together with the
  blanks in front of it.
* Between the quotes of a string literal nothing opens a comment.  A backslash
  takes the next byte with it, whatever it is; otherwise a literal that is not
  closed ends at the end of its line.

## Strategy

`Mode` is what the bytes read so far leave open, and `Mode.next` moves it along.
What is kept of the netlist depends on the mode and the byte alone (`Mode.keep`).
A slash may open a comment or be code, and only the next byte tells.  It is kept
at once and taken back if a comment follows, so the text kept so far never waits
for a byte.
-/

namespace NetlistSplit.Comment

/-- What the bytes read so far leave open. -/
inductive Mode where
  /-- Code, outside of literals and comments. -/
  | code
  /-- Code, directly after a slash. -/
  | slash
  /-- A string literal. -/
  | literal
  /-- A string literal, directly after a backslash that takes the next byte. -/
  | escape
  /-- A line comment. -/
  | lineComment
  /-- A block comment that was opened on line `opened`. -/
  | blockComment (opened : Nat)
  /-- A block comment that was opened on line `opened`, directly after a star in it. -/
  | blockStar (opened : Nat)
  deriving DecidableEq, Repr

namespace Mode

/-- The mode after a byte of line `line`. -/
def next (line : Nat) (b : UInt8) : Mode → Mode
  | code =>
    if b = Byte.quote then literal
    else if b = Byte.slash then slash
    else code
  | slash =>
    if b = Byte.slash then lineComment
    else if b = Byte.star then blockComment line
    else if b = Byte.quote then literal
    else code
  | literal =>
    if b = Byte.backslash then escape
    else if b = Byte.quote ∨ b = Byte.newline then code
    else literal
  | escape => literal
  | lineComment =>
    if b = Byte.newline then code
    else lineComment
  | blockComment opened =>
    if b = Byte.star then blockStar opened
    else blockComment opened
  | blockStar opened =>
    if b = Byte.slash then code
    else if b = Byte.star then blockStar opened
    else blockComment opened

/-- The kept text after a byte.  It is held in reverse, so that its newest byte
is its head. -/
def keep (b : UInt8) (kept : Text) : Mode → Text
  | slash =>
    if b = Byte.slash then kept.tail.dropWhile Byte.isBlank
    else if b = Byte.star then kept.tail
    else b :: kept
  | lineComment =>
    if b = Byte.newline then b :: kept
    else kept
  | blockComment _ => kept
  | blockStar _ => kept
  | code => b :: kept
  | literal => b :: kept
  | escape => b :: kept

end Mode

/-- The state of the automaton. -/
structure Stripper where
  mode : Mode := .code
  /-- The line of the next byte. -/
  line : Nat := 1
  /-- What is kept of the text read so far, its newest byte in front. -/
  kept : Text := []
  deriving DecidableEq, Repr

namespace Stripper

/-- Reads one byte. -/
def step (s : Stripper) (b : UInt8) : Stripper where
  mode := s.mode.next s.line b
  line := if b = Byte.newline then s.line + 1 else s.line
  kept := s.mode.keep b s.kept

/-- Reads a text. -/
def read (s : Stripper) (text : Text) : Stripper :=
  text.foldl step s

/-- Reading may pause anywhere. -/
theorem read_append (s : Stripper) (first second : Text) :
    s.read (first ++ second) = (s.read first).read second :=
  List.foldl_append

/-- The result at the end of the text.  Only a block comment has to be closed. -/
def finish (s : Stripper) : Except SourceError Text :=
  match s.mode with
  | .blockComment opened => .error (.unterminatedComment opened)
  | .blockStar opened => .error (.unterminatedComment opened)
  | _ => .ok s.kept.reverse

end Stripper

/-- The text without its comments. -/
def strip (source : Text) : Except SourceError Text :=
  (Stripper.read {} source).finish

end NetlistSplit.Comment
