import NetlistSplit.SplitError

/-!
# Failures as they are told

The user is told what failed and then, one under the other, the causes.
-/

namespace NetlistSplit

/-- A run that failed. -/
structure Failure where
  /-- The netlist of the run. -/
  input : Path
  error : SplitError
  deriving DecidableEq, Repr

namespace Failure

/-- What failed. -/
def headline (failure : Failure) : String :=
  s!"failed to split {failure.input}"

/-- The messages of the failure and all its causes, from the outermost on. -/
def chain (failure : Failure) : List String :=
  failure.headline :: failure.error.causes

/-- A text whose lines after the first begin with `margin`. -/
def hanging (margin text : String) : String :=
  String.intercalate ("\n" ++ margin) ((text.toList.splitOn '\n').map String.ofList)

/-- One of several causes, on a line of its own, with its number. -/
def numbered (cause : String × Nat) : String :=
  let number := toString cause.2
  let blanks := String.ofList (List.replicate (5 - number.length) ' ')
  "\n" ++ blanks ++ number ++ ": " ++ hanging "       " cause.1

/-- The failure and its causes in full.  A single cause has no number. -/
def text (failure : Failure) : String :=
  failure.headline ++ "\n\nCaused by:" ++
    match failure.error.causes with
    | [cause] => "\n    " ++ hanging "    " cause
    | causes => String.join (causes.zipIdx.map numbered)

end Failure

end NetlistSplit
