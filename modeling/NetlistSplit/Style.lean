/-!
# Styles of printed text

A terminal shows text in a style from the control sequence that asks for it on,
up to the one that takes all styles back.
-/

namespace NetlistSplit

/-- The styles of printed text. -/
inductive Style where
  | bold
  | dim
  | underlined
  | red
  | green
  | yellow
  | cyan
  deriving DecidableEq, Repr

namespace Style

/-- The parameter of a style in its control sequence. -/
def parameter : Style → String
  | bold => "1"
  | dim => "2"
  | underlined => "4"
  | red => "31"
  | green => "32"
  | yellow => "33"
  | cyan => "36"

/-- The control sequence that asks for a style. -/
def start (style : Style) : String :=
  "\x1b[" ++ style.parameter ++ "m"

/-- The control sequence that takes all styles back. -/
def reset : String := "\x1b[0m"

/-- A text in some styles at once. -/
def apply (styles : List Style) (text : String) : String :=
  String.join (styles.map start) ++ text ++ reset

end Style

end NetlistSplit
