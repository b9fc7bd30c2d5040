import NetlistSplit.Program
import NetlistSplit.Report.Json
import NetlistSplit.Report.Timestamp
import NetlistSplit.Run

/-!
# Reports

A report is a summary for other programs: one JSON object with the version of
the program, the time, the paths of the run and an entry per module.
-/

namespace NetlistSplit

/-- A summary with the circumstances of its run. -/
structure Report where
  version : String
  generatedAt : Timestamp
  summary : Summary
  deriving DecidableEq, Repr

namespace Report

/-- The report of this program on a summary. -/
def ofSummary (generatedAt : Timestamp) (summary : Summary) : Report :=
  ⟨Program.version, generatedAt, summary⟩

/-- The number of modules. -/
def modulesCount (report : Report) : Nat :=
  report.summary.modules.length

/-- The entry of one module. -/
def moduleEntry (written : WrittenModule) : Json :=
  .object [
    ("name", .string written.name),
    ("file", .string written.path.text),
    ("line", .number written.line),
    ("bytes", .number written.bytes)]

/-- The report as a JSON value. -/
def toJson (report : Report) : Json :=
  .object [
    ("version", .string report.version),
    ("generated_at", .string report.generatedAt.text),
    ("input", .string report.summary.input.text),
    ("output_dir", .string report.summary.outputDir.text),
    ("modules_count", .number report.modulesCount),
    ("modules", .list (report.summary.modules.map moduleEntry))]

/-- The report in print. -/
def text (report : Report) : String :=
  report.toJson.pretty

end Report

end NetlistSplit
