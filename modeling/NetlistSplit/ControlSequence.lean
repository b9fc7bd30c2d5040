/-!
# Text without control sequences

What is printed on a terminal may hold sequences of characters that do not show
but control the terminal.  They begin with the escape character, and what
follows it tells where they end.

* A control sequence ends with its first character from `@` to `~`.
* An operating system command is a string that a bell ends.
* A device control string has a head like a control sequence, and then a string.
  This string and three other kinds end with the string terminator, which is the
  byte 9C, or an escape character and a backslash.
* Any other escape sequence ends with its first character from `0` to `~`.

A new escape character begins a new sequence, and the two characters for
cancelling end every sequence at once.  Of the other control characters only
those show that lay out a text, and in strings not even these.

A layout character that shows interrupts the sequence that it stands in.  In a
text that is complete, the sequence ends there.  In a text that is written piece
by piece, the sequence is only suspended: what follows shows like other text, up
to a character that does not show, with which the sequence goes on.  A character
beyond ASCII that shows in between drops the sequence for good.

## Strategy

`Mode` is what the characters read so far leave open, and `Mode.next` moves it
along.  Whether a character shows depends on the mode and the character alone
(`Mode.shows`).  Characters are read whole, so no character is cut.
-/

namespace NetlistSplit.ControlSequence

/-! ## Kinds of characters -/

/-- Whether a control character lays out a text: it is a tab, or ends a line or a
page. -/
def isLayout (c : Char) : Bool :=
  c = '\t' || c = '\n' || c = '\x0c' || c = '\r'

/-- Whether a character shows outside of sequences. -/
def isVisible (c : Char) : Bool :=
  isLayout c || (' ' ≤ c && c ≠ '\x7f')

/-- Whether a character is beyond ASCII. -/
def isBeyondAscii (c : Char) : Bool :=
  '\x7f' < c

/-- Whether a character cancels a sequence. -/
def isCancel (c : Char) : Bool :=
  c = '\x18' || c = '\x1a'

/-- Whether a character is an intermediate one of a sequence. -/
def isIntermediate (c : Char) : Bool :=
  ' ' ≤ c && c ≤ '/'

/-- Whether a character may end an escape sequence. -/
def isFinal (c : Char) : Bool :=
  '0' ≤ c && c ≤ '~'

/-- Whether a character may end a control sequence, or the head of a device
control string. -/
def isControlFinal (c : Char) : Bool :=
  '@' ≤ c && c ≤ '~'

/-- Whether a character holds the byte that terminates strings.  No character is
this byte alone, but it may be one of several. -/
def holdsTerminator (c : Char) : Bool :=
  (String.utf8EncodeChar c).contains 0x9c

/-! ## One sequence -/

/-- A sequence that is not complete. -/
inductive Sequence where
  /-- The escape character that begins a sequence. -/
  | escape
  /-- An escape sequence with intermediate characters. -/
  | intermediate
  /-- A control sequence. -/
  | control
  /-- An operating system command. -/
  | command
  /-- A device control string, before its head. -/
  | deviceControl
  /-- A device control string, after parameters in its head. -/
  | deviceParameters
  /-- A device control string, after intermediate characters in its head. -/
  | deviceIntermediate
  /-- A string that only the string terminator ends. -/
  | string
  deriving DecidableEq, Repr

namespace Sequence

/-- Whether layout characters show in a sequence. -/
def showsLayout : Sequence → Bool
  | escape => true
  | intermediate => true
  | control => true
  | _ => false

/-- The sequence that a character makes of an escape character, unless it is
complete with it. -/
def ofIntroducer (c : Char) : Option Sequence :=
  if c = '[' then some control
  else if c = ']' then some command
  else if c = 'P' then some deviceControl
  else if c = 'X' ∨ c = '^' ∨ c = '_' then some string
  else if isIntermediate c then some intermediate
  else if isFinal c then none
  else some escape

/-- The sequence with a further character, unless it is complete with it.  The
character neither begins nor cancels a sequence, nor does it interrupt this one. -/
def next (c : Char) : Sequence → Option Sequence
  | escape => ofIntroducer c
  | intermediate => if isFinal c then none else some intermediate
  | control => if isControlFinal c then none else some control
  | command => if c = '\x07' then none else some command
  | deviceControl =>
    if isIntermediate c then some deviceIntermediate
    else if isControlFinal c then some string
    else if isFinal c then some deviceParameters
    else some deviceControl
  | deviceParameters =>
    if isIntermediate c then some deviceIntermediate
    else if isFinal c ∧ ';' < c then some string
    else some deviceParameters
  | deviceIntermediate => if isFinal c then some string else some deviceIntermediate
  | string => if holdsTerminator c then none else some string

end Sequence

/-! ## Reading character by character -/

/-- What a layout character does to the sequence that it interrupts. -/
inductive Interruption where
  | ends
  | suspends
  deriving DecidableEq, Repr

/-- What the characters read so far leave open. -/
inductive Mode where
  /-- Text, outside of sequences. -/
  | text
  /-- A sequence. -/
  | inside (sequence : Sequence)
  /-- Text, with a sequence that may go on. -/
  | suspended (sequence : Sequence)
  deriving DecidableEq, Repr

namespace Mode

/-- The mode with a sequence that is not complete, if there is one. -/
def ofSequence? (sequence? : Option Sequence) : Mode :=
  sequence?.elim text inside

/-- The mode after a layout character interrupts a sequence. -/
def interrupted (sequence : Sequence) : Interruption → Mode
  | .ends => text
  | .suspends => suspended sequence

/-- The mode after a character. -/
def next (interruption : Interruption) (c : Char) (mode : Mode) : Mode :=
  if c = '\x1b' then inside .escape
  else if isCancel c then text
  else
    match mode with
    | text => text
    | inside sequence =>
      if isLayout c ∧ sequence.showsLayout then interrupted sequence interruption
      else ofSequence? (sequence.next c)
    | suspended sequence =>
      if isBeyondAscii c then text
      else if isVisible c then suspended sequence
      else ofSequence? (sequence.next c)

/-- Whether a character shows. -/
def shows (c : Char) : Mode → Bool
  | text => isVisible c
  | inside sequence => isLayout c && sequence.showsLayout
  | suspended _ => isVisible c

/-- The characters that show. -/
def shown (interruption : Interruption) (mode : Mode) : List Char → List Char
  | [] => []
  | c :: later =>
    let others := shown interruption (mode.next interruption c) later
    if mode.shows c then c :: others else others

end Mode

/-- A text without its control sequences and without the control characters that
do not show. -/
def remove (interruption : Interruption) (text : String) : String :=
  String.ofList (Mode.text.shown interruption text.toList)

end NetlistSplit.ControlSequence
