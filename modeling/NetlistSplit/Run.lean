import NetlistSplit.Config
import NetlistSplit.FileSystem.Directory
import NetlistSplit.Plan
import NetlistSplit.SplitError

/-!
# Runs

A run reads the netlist, removes its comments, prepares the output directory and
writes one file per module block.  The first error stops it, and the files
written before stay.

The netlist is read and its comments are removed before anything on the disk is
touched, so a run that fails this early leaves the former output in place.

A run may be observed: after each file an observation is made, which sees the
tree as it is at that moment.  Observations are collected and change nothing.
-/

namespace NetlistSplit

/-- What a run tells about a file that it wrote. -/
structure WrittenModule where
  name : String
  path : Path
  /-- The line of the module in the netlist without its comments. -/
  line : Nat
  /-- The size of the file. -/
  bytes : Nat
  deriving DecidableEq, Repr

/-- What a run that ends well tells. -/
structure Summary where
  input : Path
  outputDir : Path
  modules : List WrittenModule
  deriving DecidableEq, Repr

/-- A run over a file tree with observations of type `ε`. -/
structure Run (ε : Type) where
  /-- The tree that the run leaves behind. -/
  tree : FileTree
  /-- What was observed, in order. -/
  events : List ε
  result : Except SplitError Summary

namespace FileTree

/-- Prepares the output directory. -/
def prepareOutput (tree : FileTree) (dir : Path) : Except SplitError Unit × FileTree :=
  match tree.prepareDir dir with
  | (.ok (), prepared) => (.ok (), prepared)
  | (.error cause, prepared) => (.error (.access dir cause), prepared)

/-- Writes the text of a module to its file in `dir`. -/
def writeModule (tree : FileTree) (dir : Path) (name : String) (text : Text) :
    Except SplitError (Path × FileTree) :=
  let path := modulePath dir name
  match tree.writeFile path text with
  | .ok written => .ok (path, written)
  | .error cause => .error (.access path cause)

/-- Reads the netlist, which has to be UTF-8. -/
def readNetlist (tree : FileTree) (path : Path) : Except SplitError Text :=
  match tree.readFile path with
  | .error cause => .error (.access path cause)
  | .ok raw => if (Text.toString? raw).isSome then .ok raw else .error (.access path .notUtf8)

end FileTree

namespace Run

/-- What writing a list of blocks comes to. -/
structure Progress (ε : Type) where
  tree : FileTree
  written : List WrittenModule
  events : List ε
  failure : Option SplitError

variable {ε : Type}

/-- Writes blocks one after the other, up to the first that cannot be written. -/
def writeBlocks (observe : FileTree → WrittenModule → ε) (dir : Path) (tree : FileTree) :
    List Block → Progress ε
  | [] => ⟨tree, [], [], none⟩
  | block :: later =>
    match tree.writeModule dir block.name block.text with
    | .error e => ⟨tree, [], [], some e⟩
    | .ok (path, tree) =>
      let written : WrittenModule := ⟨block.name, path, block.line, block.text.length⟩
      let progress := writeBlocks observe dir tree later
      ⟨progress.tree, written :: progress.written, observe tree written :: progress.events,
        progress.failure⟩

/-- Carries out a plan in a directory that is prepared.  A block that cannot be
written comes before any fault of the netlist, since the fault lies behind all
blocks of the plan. -/
def ofPlan (observe : FileTree → WrittenModule → ε) (config : Config) (plan : Plan)
    (tree : FileTree) : Run ε :=
  let progress := writeBlocks observe config.outputDir tree plan.blocks
  let failure := progress.failure <|> plan.failure.map .source
  { tree := progress.tree
    events := progress.events
    result := match failure with
      | some e => .error e
      | none => .ok ⟨config.input, config.outputDir, progress.written⟩ }

/-- Splits the netlist of a configuration. -/
def split (observe : FileTree → WrittenModule → ε) (config : Config) (tree : FileTree) : Run ε :=
  match tree.readNetlist config.input with
  | .error e => ⟨tree, [], .error e⟩
  | .ok raw =>
    match Plan.ofNetlist raw with
    | .error fault => ⟨tree, [], .error (.source fault)⟩
    | .ok plan =>
      match tree.prepareOutput config.outputDir with
      | (.error e, prepared) => ⟨prepared, [], .error e⟩
      | (.ok (), prepared) => ofPlan observe config plan prepared

end Run

end NetlistSplit
