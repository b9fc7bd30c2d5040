import NetlistSplit.Proofs.Report.JsonPrint
import NetlistSplit.Report

/-!
# A report tells its summary

A report in print is one JSON document, and from what it stands for the summary is got back
as it was, with the number of its modules (`isReportedBy_text`).  No text reports two
summaries (`Summary.IsReportedBy.unique`).
-/

namespace NetlistSplit

open JsonGrammar

/-! ## Reading a value -/

namespace JsonGrammar.Value

/-- What an object has under a name, if it has one member of that name. -/
def member? (name : String) : Value → Option Value
  | object members =>
    match members.filter (·.1 = name) with
    | [(_, value)] => some value
    | _ => none
  | _ => none

/-- The items of an array. -/
def items? : Value → Option (List Value)
  | array items => some items
  | _ => none

/-- The characters of a string. -/
def string? : Value → Option String
  | string s => some s
  | _ => none

/-- The natural number that a number without minus, fraction and exponent is. -/
def natural? : Value → Option Nat
  | number literal =>
    if literal.all Char.isDigit then some (Nat.ofDigitChars 10 literal 0) else none
  | _ => none

theorem natural?_toDigits (n : Nat) : (number (Nat.toDigits 10 n)).natural? = some n := by
  have hdigits : (Nat.toDigits 10 n).all Char.isDigit = true :=
    List.all_eq_true.mpr fun c hc => Json.isDigit_toDigits hc
  rw [natural?, if_pos hdigits, Nat.ofDigitChars_ten_toDigits]

end JsonGrammar.Value

/-! ## Reading a report -/

namespace Report

/-- The module that an entry tells of. -/
def decodeModule? (entry : Value) : Option WrittenModule := do
  let name ← (← entry.member? "name").string?
  let file ← (← entry.member? "file").string?
  let line ← (← entry.member? "line").natural?
  let bytes ← (← entry.member? "bytes").natural?
  return { name, path := ⟨file⟩, line, bytes }

/-- The summary that a report tells of, and the number of modules that it gives. -/
def decode? (report : Value) : Option (Summary × Nat) := do
  let input ← (← report.member? "input").string?
  let outputDir ← (← report.member? "output_dir").string?
  let count ← (← report.member? "modules_count").natural?
  let entries ← (← report.member? "modules").items?
  let modules ← entries.mapM decodeModule?
  return ({ input := ⟨input⟩, outputDir := ⟨outputDir⟩, modules }, count)

end Report

/-- Whether a text is one JSON document, which ends with the text and tells a summary and the
number of its modules. -/
def Summary.IsReportedBy (summary : Summary) (text : String) : Prop :=
  ∃ report, Reads .value report text.toList [] ∧
    (∀ value, IsDocument text.toList value ↔ value = report) ∧
    Report.decode? report = some (summary, summary.modules.length)

/-- No text reports two summaries. -/
theorem Summary.IsReportedBy.unique {summary summary' : Summary} {text : String}
    (hreported : summary.IsReportedBy text) (hreported' : summary'.IsReportedBy text) :
    summary = summary' := by
  obtain ⟨report, -, hdocument, hdecode⟩ := hreported
  obtain ⟨report', -, hdocument', hdecode'⟩ := hreported'
  obtain rfl : report = report' := (hdocument' report).mp ((hdocument report).mpr rfl)
  exact (Prod.mk.inj (Option.some.inj (hdecode.symm.trans hdecode'))).1

namespace Report

/-! ## What a report in print tells -/

theorem decodeModule?_moduleEntry (written : WrittenModule) :
    decodeModule? (moduleEntry written).value = some written := by
  simp [decodeModule?, moduleEntry, Json.value, Json.members, Value.member?, Value.string?,
    Value.natural?_toDigits]

theorem mapM_decodeModule? (modules : List WrittenModule) :
    (Json.values (modules.map moduleEntry)).mapM decodeModule? = some modules := by
  induction modules with
  | nil => rfl
  | cons written later ih =>
      simp [Json.values, decodeModule?_moduleEntry, ih]

theorem decode?_toJson (generatedAt : Timestamp) (summary : Summary) :
    decode? (ofSummary generatedAt summary).toJson.value =
      some (summary, summary.modules.length) := by
  simp [decode?, ofSummary, toJson, modulesCount, Json.value, Json.members, Value.member?,
    Value.string?, Value.items?, Value.natural?_toDigits, mapM_decodeModule?]

theorem isReportedBy_text (generatedAt : Timestamp) (summary : Summary) :
    summary.IsReportedBy (ofSummary generatedAt summary).text :=
  ⟨_, Json.reads_pretty _, fun _ => Json.isDocument_pretty_iff _,
    decode?_toJson generatedAt summary⟩

/-- A report in print stands for one value only, which tells the summary and the number of its
modules; so no two summaries have the same report. -/
theorem text_decodes (generatedAt : Timestamp) (summary : Summary) :
    (∃ report, (∀ value, IsDocument (ofSummary generatedAt summary).text.toList value ↔
        value = report) ∧
      decode? report = some (summary, summary.modules.length)) ∧
    ∀ (generatedAt' : Timestamp) (summary' : Summary),
      (ofSummary generatedAt' summary').text = (ofSummary generatedAt summary).text →
        summary' = summary := by
  obtain ⟨report, -, hreport⟩ := isReportedBy_text generatedAt summary
  refine ⟨⟨report, hreport⟩, ?_⟩
  intro generatedAt' summary' htext
  have hreported := isReportedBy_text generatedAt' summary'
  rw [htext] at hreported
  exact hreported.unique (isReportedBy_text generatedAt summary)

end Report

end NetlistSplit
