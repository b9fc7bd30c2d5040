/-!
# What can be wrong with a netlist

The faults of a netlist itself, as opposed to those of the disk it lies on.
Lines count from 1.  The line of a comment is a line of the raw netlist; the
lines of the other faults are lines of the netlist without its comments, because
modules are looked for there.
-/

namespace NetlistSplit

/-- A fault in the text of a netlist. -/
inductive SourceError where
  /-- A block comment opens on this line and is never closed. -/
  | unterminatedComment (line : Nat)
  /-- A module that has its `endmodule` begins on this line, but its header
  declares no name. -/
  | unnamedModule (line : Nat)
  /-- A module that begins on this line has no `endmodule` of its own.  The name
  is missing if its header declares none. -/
  | unterminatedModule (name : Option String) (line : Nat)
  /-- A module that begins on this line has the name of an earlier one.  Names
  are compared without regard to ASCII case, since files that differ in case
  alone are one file on some file systems. -/
  | duplicateModule (name : String) (line : Nat)
  deriving DecidableEq, Repr

namespace SourceError

/-- What stands in a message for a name that could not be read. -/
def unnamed : String := "<unnamed>"

/-- The message for the user. -/
def message : SourceError → String
  | unterminatedComment line => s!"unterminated block comment starting at line {line}"
  | unnamedModule line => s!"module block at line {line} has no parseable name"
  | unterminatedModule name line =>
    s!"module `{name.getD unnamed}` at line {line} has no matching endmodule"
  | duplicateModule name line => s!"module `{name}` at line {line} is defined more than once"

end SourceError

end NetlistSplit
