import NetlistSplit.CommandLine.Message

/-!
# The whole program

The program reads its arguments, and either splits the netlist of the default
configuration or tells the user why not.
-/

namespace NetlistSplit.CommandLine

/-- What the program leaves behind when it exits. -/
structure Exit where
  tree : FileTree
  status : Nat
  stdout : String
  stderr : String

/-- The program, started as `invocation` with `arguments`, over a file tree. -/
def run (terminal : Terminal) (now : Timestamp) (invocation : Option String)
    (arguments : List String) (tree : FileTree) : Exit :=
  match parse arguments with
  | .error stop =>
    let text := stop.printed terminal (programName invocation)
    if stop.isAnswer then ⟨tree, stop.status, text, ""⟩ else ⟨tree, stop.status, "", text⟩
  | .ok options =>
    let run := PrintedRun.split terminal options now {} tree
    match run.failure with
    | none => ⟨run.tree, 0, run.printed, ""⟩
    | some failure => ⟨run.tree, 1, run.printed, "Error: " ++ failure.text ++ "\n"⟩

end NetlistSplit.CommandLine
