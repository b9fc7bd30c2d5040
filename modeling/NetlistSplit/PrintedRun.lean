import NetlistSplit.Failure
import NetlistSplit.Report
import NetlistSplit.Terminal

/-!
# Runs that print

A run prints a line for each file if it is asked to be verbose, and at the end
either a summary line or a report in JSON.  Verbose lines and a report exclude
each other: with a report, nothing else is printed.  A run that fails prints
neither summary nor report.

The options decide what is printed and nothing else, so the tree and the outcome
of a run do not depend on them.
-/

namespace NetlistSplit

/-- How the user wants to be told about a run. -/
structure Options where
  /-- A line for each file as it is written. -/
  verbose : Bool := false
  /-- A report in JSON in place of the summary. -/
  json : Bool := false
  deriving DecidableEq, Repr

namespace Options

/-- Whether progress is printed. -/
def showsProgress (options : Options) : Bool :=
  options.verbose && !options.json

/-- What is printed before a run. -/
def opening (options : Options) (terminal : Terminal) (config : Config) : String :=
  if options.showsProgress then terminal.openingLine config else ""

/-- What is printed after a file is written. -/
def progress (options : Options) (terminal : Terminal) (written : WrittenModule) : String :=
  if options.showsProgress then terminal.moduleLine written else ""

/-- What is printed after a run that ends well. -/
def closing (options : Options) (terminal : Terminal) (now : Timestamp) (summary : Summary) :
    String :=
  if options.json then (Report.ofSummary now summary).text ++ "\n"
  else terminal.summaryLine summary

end Options

/-- What a run that prints comes to. -/
structure PrintedRun where
  /-- The tree that the run leaves behind. -/
  tree : FileTree
  /-- What the run printed. -/
  printed : String
  failure : Option Failure

/-- Splits the netlist of a configuration and prints as the options demand.  What
is printed after each file is an observation of the run. -/
def PrintedRun.split (terminal : Terminal) (options : Options) (now : Timestamp) (config : Config)
    (tree : FileTree) : PrintedRun :=
  let run := Run.split (fun _ written => options.progress terminal written) config tree
  let printed := options.opening terminal config ++ String.join run.events
  match run.result with
  | .error e => ⟨run.tree, printed, some ⟨config.input, e⟩⟩
  | .ok summary => ⟨run.tree, printed ++ options.closing terminal now summary, none⟩

end NetlistSplit
