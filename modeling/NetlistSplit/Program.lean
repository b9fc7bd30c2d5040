/-!
# The program's own names

What the program calls itself when it speaks to its user.
-/

namespace NetlistSplit.Program

/-- The name under which the program is known. -/
def name : String := "vsplit"

/-- The version that reports and the version option give. -/
def version : String := "0.1.0"

end NetlistSplit.Program
