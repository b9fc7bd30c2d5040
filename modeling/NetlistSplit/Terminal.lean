import NetlistSplit.ControlSequence
import NetlistSplit.Run
import NetlistSplit.Style

/-!
# The lines that a user sees

A terminal may show colors and emoji, or neither.  The file says how text comes
to it, and holds the three kinds of line that a run prints for its user.
-/

namespace NetlistSplit

/-- What a terminal can show. -/
structure Terminal where
  emoji : Bool
  color : Bool
  deriving DecidableEq, Repr

namespace Terminal

/-- A text in a style, if the terminal shows colors. -/
def paint (terminal : Terminal) (style : Style) (text : String) : String :=
  if terminal.color then Style.apply [style] text else text

/-- A text with styles as it is written to a terminal.  If the terminal shows no
colors, no control sequence reaches it, wherever in the text it comes from. -/
def present (terminal : Terminal) (styled : String) : String :=
  if terminal.color then styled else ControlSequence.remove .suspends styled

/-- A symbol in front of a text, if the terminal shows emoji. -/
def symbol (terminal : Terminal) (emoji : String) : String :=
  if terminal.emoji then emoji else ""

/-- The line at the beginning of a run. -/
def openingLine (terminal : Terminal) (config : Config) : String :=
  terminal.symbol "✂️  " ++ "Splitting " ++ terminal.paint .cyan config.input.text ++
    " into " ++ terminal.paint .cyan config.outputDir.text ++ "\n"

/-- The line for a file that was written. -/
def moduleLine (terminal : Terminal) (written : WrittenModule) : String :=
  "  " ++ terminal.symbol "📄 " ++ terminal.paint .green written.path.text ++ " " ++
    terminal.paint .dim s!"(L{written.line}, {written.bytes} bytes)" ++ "\n"

/-- The line at the end of a run that ends well. -/
def summaryLine (terminal : Terminal) (summary : Summary) : String :=
  terminal.symbol "✅ " ++ "Wrote " ++ terminal.paint .green (toString summary.modules.length) ++
    " module files to " ++ terminal.paint .cyan summary.outputDir.text ++ "\n"

end Terminal

end NetlistSplit
