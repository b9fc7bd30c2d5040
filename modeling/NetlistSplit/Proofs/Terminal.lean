import NetlistSplit.Proofs.Plan
import NetlistSplit.Terminal

/-!
# The lines that a user sees are lines

Each kind of line that a run prints is one line: it ends with a newline and holds no
other, as long as there is none in the paths of the configuration
(`isLine_openingLine`, `isLine_moduleLine`, `isLine_summaryLine`).  What follows the
output directory in the path of a module's file is an identifier and the extension, so
that path holds no newline either (`newline_notMem_modulePath`).

The line for a file tells its path, line and size (`tells_moduleLine`), and the line at
the end of a run the number of files (`tells_summaryLine`).  No other line can be taken
for the one at the end (`openingLine_ne_summaryLine`, `moduleLine_ne_summaryLine`).
-/

namespace NetlistSplit

/-- Whether a text is one line, up to and including its newline. -/
def IsLine (line : String) : Prop :=
  ∃ content : String, '\n' ∉ content.toList ∧ line = content ++ "\n"

/-- Whether a line tells the path of a file, the line of its module and its size. -/
def WrittenModule.IsToldBy (written : WrittenModule) (line : String) : Prop :=
  ∃ front between behind : String,
    line = front ++ written.path.text ++ between ++
      s!"(L{written.line}, {written.bytes} bytes)" ++ behind

/-- Whether a line tells that `n` files were written.  No further digit stands beside
the number. -/
def TellsNumber (n : Nat) (line : String) : Prop :=
  ∃ front between behind : String,
    line = front ++ "Wrote " ++ between ++ toString n ++ behind ∧
      (∀ c ∈ between.toList.getLast?, c.isDigit = false) ∧
      ∀ c ∈ behind.toList.head?, c.isDigit = false

/-! ## No other newlines -/

theorem newline_notMem_append {first second : String} :
    '\n' ∉ (first ++ second).toList ↔ '\n' ∉ first.toList ∧ '\n' ∉ second.toList := by
  rw [String.toList_append, List.mem_append, not_or]

theorem newline_notMem_toString (n : Nat) : '\n' ∉ (toString n).toList := by
  rw [Nat.toString_eq_repr, Nat.toList_repr]
  intro hnewline
  have hdigit := Nat.isDigit_of_mem_toDigits (by decide) (by decide) hnewline
  revert hdigit
  decide

theorem IsIdentifier.newline_notMem {name : String} (hname : IsIdentifier name) :
    '\n' ∉ name.toList := by
  intro hnewline
  have hchar := hname.chars '\n' hnewline
  revert hchar
  decide

theorem newline_notMem_modulePath {dir : Path} {name : String} (hdir : '\n' ∉ dir.text.toList)
    (hname : IsIdentifier name) : '\n' ∉ (modulePath dir name).text.toList := by
  have hfile : '\n' ∉ (name ++ "." ++ moduleFileExtension).toList := by
    simp [moduleFileExtension, hname.newline_notMem]
  unfold modulePath Path.join
  split_ifs
  · exact hfile
  · simp only [newline_notMem_append] at hfile ⊢
    exact ⟨hdir, hfile⟩
  · simp only [newline_notMem_append] at hfile ⊢
    exact ⟨⟨hdir, by decide⟩, hfile⟩

namespace Terminal

variable (terminal : Terminal)

theorem newline_notMem_paint (style : Style) {text : String} (htext : '\n' ∉ text.toList) :
    '\n' ∉ (terminal.paint style text).toList := by
  unfold paint
  split_ifs
  · cases style <;> simp [Style.apply, Style.start, Style.parameter, Style.reset, htext]
  · exact htext

theorem newline_notMem_symbol {emoji : String} (hemoji : '\n' ∉ emoji.toList) :
    '\n' ∉ (terminal.symbol emoji).toList := by
  unfold symbol
  split_ifs
  · exact hemoji
  · simp

/-! ## One line each -/

theorem isLine_openingLine {config : Config} (hinput : '\n' ∉ config.input.text.toList)
    (hdir : '\n' ∉ config.outputDir.text.toList) : IsLine (terminal.openingLine config) := by
  refine ⟨_, ?_, rfl⟩
  have hsymbol : '\n' ∉ (terminal.symbol "✂️  ").toList :=
    terminal.newline_notMem_symbol (by decide)
  simp only [newline_notMem_append]
  exact ⟨⟨⟨⟨hsymbol, by decide⟩, terminal.newline_notMem_paint .cyan hinput⟩, by decide⟩,
    terminal.newline_notMem_paint .cyan hdir⟩

theorem isLine_moduleLine {written : WrittenModule} (hpath : '\n' ∉ written.path.text.toList) :
    IsLine (terminal.moduleLine written) := by
  refine ⟨_, ?_, rfl⟩
  have hsymbol : '\n' ∉ (terminal.symbol "📄 ").toList :=
    terminal.newline_notMem_symbol (by decide)
  have hplace : '\n' ∉ s!"(L{written.line}, {written.bytes} bytes)".toList := by
    simp only [newline_notMem_append]
    exact ⟨⟨⟨⟨by decide, newline_notMem_toString written.line⟩, by decide⟩,
      newline_notMem_toString written.bytes⟩, by decide⟩
  simp only [newline_notMem_append]
  exact ⟨⟨⟨⟨by decide, hsymbol⟩, terminal.newline_notMem_paint .green hpath⟩, by decide⟩,
    terminal.newline_notMem_paint .dim hplace⟩

theorem isLine_summaryLine {summary : Summary} (hdir : '\n' ∉ summary.outputDir.text.toList) :
    IsLine (terminal.summaryLine summary) := by
  refine ⟨_, ?_, rfl⟩
  have hsymbol : '\n' ∉ (terminal.symbol "✅ ").toList :=
    terminal.newline_notMem_symbol (by decide)
  have hnumber := newline_notMem_toString summary.modules.length
  simp only [newline_notMem_append]
  exact ⟨⟨⟨⟨hsymbol, by decide⟩, terminal.newline_notMem_paint .green hnumber⟩, by decide⟩,
    terminal.newline_notMem_paint .cyan hdir⟩

/-! ## What the lines tell -/

/-- A painted text is there, and no digit is put beside it. -/
theorem exists_paint (style : Style) (text : String) :
    ∃ front behind : String, terminal.paint style text = front ++ text ++ behind ∧
      (∀ c ∈ front.toList.getLast?, c.isDigit = false) ∧
      ∀ c ∈ behind.toList.head?, c.isDigit = false := by
  unfold paint
  split_ifs
  · refine ⟨_, _, rfl, ?_, ?_⟩
    · cases style <;> simp [Style.start, Style.parameter]
    · simp [Style.reset]
  · exact ⟨"", "", by simp⟩

theorem tells_moduleLine (written : WrittenModule) :
    written.IsToldBy (terminal.moduleLine written) := by
  obtain ⟨front, behind, hpath, -⟩ := terminal.exists_paint .green written.path.text
  obtain ⟨front', behind', hplace, -⟩ :=
    terminal.exists_paint .dim s!"(L{written.line}, {written.bytes} bytes)"
  refine ⟨"  " ++ terminal.symbol "📄 " ++ front, behind ++ " " ++ front', behind' ++ "\n", ?_⟩
  rw [moduleLine, hpath, hplace]
  simp only [String.append_assoc]

theorem tells_summaryLine (summary : Summary) :
    TellsNumber summary.modules.length (terminal.summaryLine summary) := by
  obtain ⟨front, behind, hnumber, hfront, hbehind⟩ :=
    terminal.exists_paint .green (toString summary.modules.length)
  refine ⟨terminal.symbol "✅ ", front, behind ++ " module files to " ++
    terminal.paint .cyan summary.outputDir.text ++ "\n", ?_, hfront, ?_⟩
  · rw [summaryLine, hnumber]
    simp only [String.append_assoc]
  · intro c hc
    simp only [String.toList_append, List.append_assoc, List.head?_append] at hc
    cases hhead : behind.toList.head? with
    | none =>
        rw [hhead] at hc
        obtain rfl : ' ' = c := Option.some.inj hc
        rfl
    | some first =>
        rw [hhead] at hc
        exact hbehind c (hhead.trans hc)

theorem openingLine_ne_summaryLine (config : Config) (summary : Summary) :
    terminal.openingLine config ≠ terminal.summaryLine summary := by
  intro hsame
  have hhead := congrArg (fun line => line.toList.head?) hsame
  cases hemoji : terminal.emoji <;>
    simp [openingLine, summaryLine, symbol, hemoji] at hhead

theorem moduleLine_ne_summaryLine (written : WrittenModule) (summary : Summary) :
    terminal.moduleLine written ≠ terminal.summaryLine summary := by
  intro hsame
  have hhead := congrArg (fun line => line.toList.head?) hsame
  cases hemoji : terminal.emoji <;>
    simp [moduleLine, summaryLine, symbol, hemoji] at hhead

end Terminal

end NetlistSplit
