import NetlistSplit.CommandLine
import Std.Time.DateTime.Timestamp

/-!
# The program

The program splits the netlist of the default configuration on the disk of the
machine.  What it does, in which order, and what it prints is decided by the
plan, the options and the command line; this file only carries it out.
-/

namespace NetlistSplit.Disk

/-! ## Errors of the machine -/

/-- The error number of a failed call, which some calls give with a minus sign. -/
def systemError (code : UInt32) : AccessError :=
  .system ⟨code.toInt32.toInt.natAbs⟩

/-- The reason that the machine gives for a failed call. -/
def accessError : IO.Error → AccessError
  | .alreadyExists _ code _ => systemError code
  | .otherError code _ => systemError code
  | .resourceBusy code _ => systemError code
  | .resourceVanished code _ => systemError code
  | .unsupportedOperation code _ => systemError code
  | .hardwareFault code _ => systemError code
  | .unsatisfiedConstraints code _ => systemError code
  | .illegalOperation code _ => systemError code
  | .protocolError code _ => systemError code
  | .timeExpired code _ => systemError code
  | .interrupted _ code _ => systemError code
  | .noFileOrDirectory _ code _ => systemError code
  | .invalidArgument _ code _ => systemError code
  | .permissionDenied _ code _ => systemError code
  | .resourceExhausted _ code _ => systemError code
  | .inappropriateType _ code _ => systemError code
  | .noSuchThing _ code _ => systemError code
  | .unexpectedEof => .other "unexpected end of file"
  | .userError reason => .other reason

/-- Does something with the file or directory at `path`. -/
def access {α : Type} (path : Path) (action : IO α) : ExceptT SplitError IO α := do
  match ← action.toBaseIO with
  | .ok result => return result
  | .error e => throw (.access path (accessError e))

/-! ## The steps of a run -/

/-- Reads the netlist, which has to be UTF-8. -/
def readNetlist (path : Path) : ExceptT SplitError IO Text := do
  let raw ← access path (IO.FS.readBinFile path.text)
  if (String.fromUTF8? raw).isNone then
    throw (.access path .notUtf8)
  return raw.data.toList

/-- Makes the output directory anew.  A link is removed itself, not what it leads
to.  The empty path needs no preparation: it stands for the working directory. -/
def prepareOutput (dir : Path) : ExceptT SplitError IO Unit := do
  if dir.text = "" then
    return
  let entry : IO.FS.DirEntry := ⟨".", dir.text⟩
  if ← entry.path.pathExists then
    match (← access dir entry.path.symlinkMetadata).type with
    | .symlink => access dir (IO.FS.removeFile entry.path)
    | .dir => access dir (IO.FS.removeDirAll entry.path)
    | _ => throw (.access dir (.system .notDirectory))
  access dir (IO.FS.createDirAll entry.path)

/-- Writes one block to its file. -/
def writeBlock (dir : Path) (block : Block) : ExceptT SplitError IO WrittenModule := do
  let path := modulePath dir block.name
  access path (IO.FS.writeBinFile path.text ⟨block.text.toArray⟩)
  return ⟨block.name, path, block.line, block.text.length⟩

/-- Splits the netlist of a configuration, and prints the progress. -/
def split (terminal : Terminal) (options : Options) (config : Config) :
    ExceptT SplitError IO Summary := do
  let raw ← readNetlist config.input
  let plan ← ExceptT.mk (pure ((Plan.ofNetlist raw).mapError .source))
  prepareOutput config.outputDir
  let mut modules := #[]
  for block in plan.blocks do
    let written ← writeBlock config.outputDir block
    IO.print (options.progress terminal written)
    modules := modules.push written
  match plan.failure with
  | some fault => throw (.source fault)
  | none => return ⟨config.input, config.outputDir, modules.toList⟩

/-! ## The surroundings of the program -/

/-- What standard output can show: emoji if the language of the user is written
in UTF-8, and colors if it is a terminal or they are asked for. -/
def terminal : IO Terminal := do
  let language := (← IO.getEnv "LANG").getD ""
  let forced := (← IO.getEnv "CLICOLOR_FORCE").getD "0"
  let wanted := (← IO.getEnv "CLICOLOR").getD "1"
  let kind := (← IO.getEnv "TERM").getD ""
  let refused := (← IO.getEnv "NO_COLOR").isSome || kind == "dumb"
  let capable := (← (← IO.getStdout).isTty) && !refused
  return {
    emoji := language.toUpper.endsWith "UTF-8"
    color := forced != "0" || (wanted != "0" && capable) }

/-- Whether a message on the arguments may have styles on a stream: if they are
asked for, or if it is a terminal that has them. -/
def stylesMessages (stream : IO.FS.Stream) : IO Bool := do
  let refused := ((← IO.getEnv "NO_COLOR").getD "") != ""
  let forced := ((← IO.getEnv "CLICOLOR_FORCE").getD "0") != "0"
  let wanted := (← IO.getEnv "CLICOLOR").map (· != "0")
  let kind := (← IO.getEnv "TERM").getD "dumb"
  let capable := kind != "dumb" || wanted == some true || (← IO.getEnv "CI").isSome
  return !refused && (forced || (wanted.getD true && capable && (← stream.isTty)))

/-- The time by the clock of the machine. -/
def now : IO Timestamp := do
  let sinceEpoch := (← Std.Time.Timestamp.now).toNanosecondsSinceUnixEpoch.val
  return ⟨sinceEpoch.fdiv 1000000000, (sinceEpoch.fmod 1000000000).toNat⟩

/-- Runs with options, and gives the exit status. -/
def run (options : Options) : IO UInt32 := do
  let terminal ← terminal
  let config : Config := {}
  IO.print (options.opening terminal config)
  match ← (split terminal options config).run with
  | .ok summary =>
    IO.print (options.closing terminal (← now) summary)
    return 0
  | .error e =>
    IO.eprint ("Error: " ++ Failure.text ⟨config.input, e⟩ ++ "\n")
    return 1

end NetlistSplit.Disk

open NetlistSplit in
/-- Splits the netlist as the arguments demand. -/
def main (arguments : List String) : IO UInt32 := do
  match CommandLine.parse arguments with
  | .ok options => Disk.run options
  | .error stop =>
    let stream ← if stop.isAnswer then IO.getStdout else IO.getStderr
    let terminal : Terminal := ⟨false, ← Disk.stylesMessages stream⟩
    let program := CommandLine.programName (some (← IO.appPath).toString)
    stream.putStr (stop.printed terminal program)
    return UInt32.ofNat stop.status
