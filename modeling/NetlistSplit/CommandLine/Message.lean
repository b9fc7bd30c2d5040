import NetlistSplit.CommandLine.Arguments
import NetlistSplit.Path
import NetlistSplit.Program

/-!
# What the user is told about the arguments

The texts are composed with styles.  What the user typed stands in them as it is,
so control sequences in it are kept or removed together with the styles: the
message of a stop has none of them, and of what is printed the terminal decides.
-/

namespace NetlistSplit.CommandLine

/-! ## The parts of a text -/

/-- A heading. -/
def heading (text : String) : String :=
  Style.apply [.bold, .underlined] text

/-- Something to be typed as it stands. -/
def literal (text : String) : String :=
  Style.apply [.bold] text

/-- Something that is wrong in the arguments. -/
def wrong (text : String) : String :=
  Style.apply [.yellow] text

/-- Something that may help. -/
def helpful (text : String) : String :=
  Style.apply [.green] text

/-! ## Usage -/

/-- The name of the program in usage lines: that of the file that was started. -/
def programName (invocation : Option String) : String :=
  (invocation.bind fun path => Path.fileName? ⟨path⟩).getD Program.name

/-- The usage line of a program with some words after its name. -/
def usage (program : String) (words : List String) : String :=
  heading "Usage:" ++ " " ++ String.intercalate " " (literal program :: words) ++ "\n"

/-- The words for the options in general. -/
def anyOptions : List String := ["[OPTIONS]"]

/-- The words for the choice among the options of a run. -/
def optionChoice : List String :=
  ["<" ++ String.intercalate "|" ((Flag.all.filter Flag.isOption).map Flag.long) ++ ">"]

/-- The words for certain flags. -/
def flagWords (shown : List Flag) : List String :=
  shown.map fun flag => literal flag.long

/-- The flags `seen` and then `flag`, unless it is among them. -/
def including (seen : List Flag) (flag : Flag) : List Flag :=
  if flag ∈ seen then seen else seen ++ [flag]

/-! ## Help -/

/-- What a flag does.  Each page of the help points to the other. -/
def effect (long : Bool) : Flag → String
  | .verbose => "Print each module file as it is written"
  | .json => "Print a JSON report instead of the summary"
  | .help =>
    if long then "Print help (see a summary with '-h')"
    else "Print help (see more with '--help')"
  | .version => "Print version"

/-- The ways to write a flag, indented so that the names stand in one column. -/
def spellings (flag : Flag) : String :=
  let letter := flag.letter?.elim "    " fun letter => literal (String.ofList ['-', letter]) ++ ", "
  "  " ++ letter ++ literal flag.long

/-- The width of the longest flag. -/
def flagWidth : Nat :=
  (Flag.all.map fun flag => flag.long.length).foldl max 0

/-- A flag and what it does on one line. -/
def shortEntry (flag : Flag) : String :=
  let gap := String.ofList (List.replicate (flagWidth - flag.long.length + 2) ' ')
  spellings flag ++ gap ++ effect false flag ++ "\n"

/-- A flag and below it what it does. -/
def longEntry (flag : Flag) : String :=
  spellings flag ++ "\n          " ++ effect true flag ++ "\n"

/-- The short help. -/
def shortHelp (program : String) : String :=
  "CLI tool to split a concatenated Verilog netlist into one file per module\n\n" ++
  usage program anyOptions ++ "\n" ++
  heading "Options:" ++ "\n" ++ String.join (Flag.all.map shortEntry)

/-- The help on a page of its own. -/
def longHelp (program : String) : String :=
  "Split a concatenated Verilog netlist into one file per module.\n\n" ++
  "Reads build/sim/TestTop.v and writes build/sim/files/<module>.v, " ++
  "wiping build/sim/files/ first.\n\n" ++
  usage program anyOptions ++ "\n" ++
  heading "Options:" ++ "\n" ++ String.intercalate "\n" (Flag.all.map longEntry)

/-! ## Errors -/

namespace ArgumentError

/-- What is wrong with the arguments. -/
def problem : ArgumentError → String
  | unexpectedArgument argument => "unexpected argument '" ++ wrong argument ++ "' found"
  | unknownFlag argument _ _ => "unexpected argument '" ++ wrong argument ++ "' found"
  | repeatedFlag flag =>
    "the argument '" ++ wrong flag.long ++ "' cannot be used multiple times"
  | unexpectedValue flag value _ =>
    "unexpected value '" ++ wrong value ++ "' for '" ++ literal flag.long ++
      "' found; no more were expected"

/-- The paragraph on the flag that the user may have meant. -/
def tip : ArgumentError → String
  | unknownFlag _ (some flag) _ =>
    "  " ++ helpful "tip:" ++ " a similar argument exists: '" ++ helpful flag.long ++ "'\n\n"
  | _ => ""

/-- The words after the name of the program in the usage line.  An unknown flag
presents the flags before it and the one that may have been meant.  A flag with a
value presents itself, and the choice among the options of a run if a flag was
given before; the choice stands for the flag too if the flag is such an option. -/
def usageWords : ArgumentError → List String
  | unknownFlag _ similar seen =>
    match similar.elim seen (including seen) with
    | [] => anyOptions
    | shown => flagWords shown
  | unexpectedValue flag _ [] => flagWords [flag]
  | unexpectedValue flag _ _ =>
    if flag.isOption then optionChoice else flagWords [flag] ++ optionChoice
  | _ => anyOptions

/-- The text for the user, with styles. -/
def styled (program : String) (e : ArgumentError) : String :=
  Style.apply [.bold, .red] "error:" ++ " " ++ e.problem ++ "\n\n" ++ e.tip ++
    usage program e.usageWords ++
    "\nFor more information, try '" ++ literal "--help" ++ "'.\n"

end ArgumentError

/-! ## Messages -/

namespace Stop

/-- The text for the user, with styles. -/
def styled (program : String) : Stop → String
  | help false => shortHelp program
  | help true => longHelp program
  | version => Program.name ++ " " ++ Program.version ++ "\n"
  | wrong e => e.styled program

/-- The text for the user without styles. -/
def message (program : String) (stop : Stop) : String :=
  ControlSequence.remove .ends (stop.styled program)

/-- The text for the user as it is written to a terminal. -/
def printed (terminal : Terminal) (program : String) (stop : Stop) : String :=
  terminal.present (stop.styled program)

end Stop

end NetlistSplit.CommandLine
