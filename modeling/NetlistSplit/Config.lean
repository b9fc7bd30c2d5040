import NetlistSplit.Path

/-!
# What to split, and where to

A configuration names the netlist and the directory that gets one file per
module.  That directory is emptied on every run.
-/

namespace NetlistSplit

/-- The paths of one run. -/
structure Config where
  /-- The netlist, as the elaboration step leaves it. -/
  input : Path := ⟨"build/sim/TestTop.v"⟩
  /-- The directory of the module files. -/
  outputDir : Path := ⟨"build/sim/files"⟩
  deriving DecidableEq, Repr

namespace Config

/-- Configurations whose paths are the same by their components. -/
def Equivalent (first second : Config) : Prop :=
  first.input.Equivalent second.input ∧ first.outputDir.Equivalent second.outputDir

instance (first second : Config) : Decidable (Equivalent first second) :=
  inferInstanceAs (Decidable (_ ∧ _))

end Config

/-- What follows the name of a module in the name of its file. -/
def moduleFileExtension : String := "v"

/-- The file of the module `name` in the directory `dir`. -/
def modulePath (dir : Path) (name : String) : Path :=
  dir.join (name ++ "." ++ moduleFileExtension)

end NetlistSplit
