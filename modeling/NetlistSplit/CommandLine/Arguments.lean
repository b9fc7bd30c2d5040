import NetlistSplit.CommandLine.Flag
import NetlistSplit.PrintedRun

/-!
# The arguments

The arguments are read from left to right.  The first that is a request for help
or the version, or that is wrong, decides the outcome, and nothing after it is
looked at.  Otherwise the flags that occur are the options of the run.

* A flag may be written in full or as a letter, and letters may be joined after
  one dash.
* No flag may be given twice, and none takes a value.
* Two dashes alone end the flags.  Since the program takes no other arguments,
  nothing may follow them.
-/

namespace NetlistSplit.CommandLine

/-- What can be wrong with the arguments. -/
inductive ArgumentError where
  /-- An argument that is no flag and does not look like one in full. -/
  | unexpectedArgument (argument : String)
  /-- An argument that looks like a flag in full but is none, with the flag that
  the user may have meant and the flags before it. -/
  | unknownFlag (argument : String) (similar : Option Flag) (seen : List Flag)
  /-- A flag that was given before. -/
  | repeatedFlag (flag : Flag)
  /-- A value for a flag, with the flags before it. -/
  | unexpectedValue (flag : Flag) (value : String) (seen : List Flag)
  deriving DecidableEq, Repr

/-- Why the arguments do not lead to a run. -/
inductive Stop where
  /-- The user asks for help, with a page of its own if the flag is written in
  full. -/
  | help (long : Bool)
  /-- The user asks for the version. -/
  | version
  /-- The arguments are wrong. -/
  | wrong (e : ArgumentError)
  deriving DecidableEq, Repr

namespace Stop

/-- Whether the user got what was asked for. -/
def isAnswer : Stop → Bool
  | help _ => true
  | version => true
  | wrong _ => false

/-- The exit status of the program. -/
def status (stop : Stop) : Nat :=
  if stop.isAnswer then 0 else 2

end Stop

/-! ## Reading from left to right -/

/-- Takes up a flag after the flags `seen`. -/
def accept (long : Bool) (seen : List Flag) (flag : Flag) : Except Stop (List Flag) :=
  match flag with
  | .help => .error (.help long)
  | .version => .error .version
  | flag => if flag ∈ seen then .error (.wrong (.repeatedFlag flag)) else .ok (seen ++ [flag])

/-- Takes up a flag that is written in full, `text` being all that follows the
dashes. -/
def acceptLong (seen : List Flag) (text : List Char) : Except Stop (List Flag) :=
  let name := text.takeWhile (· ≠ '=')
  let value? := (text.dropWhile (· ≠ '=')).tail?
  match Flag.ofName? name, value? with
  | some flag, none => accept true seen flag
  | some flag, some value =>
    .error (.wrong (.unexpectedValue flag (String.ofList value) seen))
  | none, _ =>
    let argument := String.ofList ('-' :: '-' :: name)
    .error (.wrong (.unknownFlag argument (Flag.similar? name) seen))

/-- Takes up joined letters. -/
def acceptLetters (seen : List Flag) : List Char → Except Stop (List Flag)
  | [] => .ok seen
  | letter :: later =>
    match Flag.ofLetter? letter with
    | some flag => (accept false seen flag).bind fun seen => acceptLetters seen later
    | none => .error (.wrong (.unexpectedArgument (String.ofList ['-', letter])))

/-- Takes up one argument, other than two dashes alone. -/
def acceptArgument (seen : List Flag) (argument : String) : Except Stop (List Flag) :=
  match argument.toList with
  | '-' :: '-' :: text => acceptLong seen text
  | '-' :: letter :: later => acceptLetters seen (letter :: later)
  | _ => .error (.wrong (.unexpectedArgument argument))

/-- The flags among the arguments that follow the flags `seen`. -/
def flags (seen : List Flag) : List String → Except Stop (List Flag)
  | [] => .ok seen
  | argument :: later =>
    if argument = "--" then
      match later with
      | [] => .ok seen
      | surplus :: _ => .error (.wrong (.unexpectedArgument surplus))
    else
      (acceptArgument seen argument).bind fun seen => flags seen later

/-- The options that the arguments stand for. -/
def parse (arguments : List String) : Except Stop Options :=
  (flags [] arguments).map fun seen =>
    { verbose := decide (.verbose ∈ seen), json := decide (.json ∈ seen) }

end NetlistSplit.CommandLine
