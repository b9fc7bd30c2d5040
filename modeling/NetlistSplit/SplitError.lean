import NetlistSplit.FileSystem.AccessError
import NetlistSplit.Path
import NetlistSplit.SourceError

/-!
# Why a run fails

A run fails because of the netlist, or because a file or directory cannot be
used.
-/

namespace NetlistSplit

/-- The reason why a run fails. -/
inductive SplitError where
  /-- Something is wrong with the netlist. -/
  | source (fault : SourceError)
  /-- The file or directory at `path` cannot be used. -/
  | access (path : Path) (cause : AccessError)
  deriving DecidableEq, Repr

namespace SplitError

/-- The message for the user. -/
def message : SplitError → String
  | source fault => fault.message
  | access path cause => s!"I/O error on {path}: {cause.message}"

/-- The messages of the error and of what caused it, the error first. -/
def causes : SplitError → List String
  | e@(source _) => [e.message]
  | e@(access _ cause) => [e.message, cause.message]

end SplitError

end NetlistSplit
