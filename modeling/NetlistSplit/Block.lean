import NetlistSplit.Text

/-!
# Module blocks

A block is what the splitter writes to a file of its own: one module of the
netlist, word for word, with the place where it stands.
-/

namespace NetlistSplit

/-- A module of a netlist. -/
structure Block where
  /-- The name declared in the header. -/
  name : String
  /-- The text from the opening keyword to the closing one, both included. -/
  text : Text
  /-- The line of the opening keyword, counted from 1. -/
  line : Nat
  /-- The byte offset of the opening keyword. -/
  offset : Nat
  deriving DecidableEq, Repr

end NetlistSplit
