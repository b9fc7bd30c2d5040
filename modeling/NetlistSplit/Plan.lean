import NetlistSplit.Comment
import NetlistSplit.Scanner

/-!
# What a run is to write

A plan says which blocks of a netlist are to be written, and whether the netlist
lets a run end well.  A fault does not take back what stands in front of it: the
blocks before the first error, or before the first repeated name, are written.
-/

namespace NetlistSplit

/-- What a run is to write: first the blocks in order, then comes the failure, if
there is one. -/
structure Plan where
  blocks : List Block
  failure : Option SourceError
  deriving DecidableEq, Repr

namespace Plan

/-- A name by which module names are compared, the same for names that differ in
ASCII case alone. -/
def caseless (name : String) : List Char :=
  name.toList.map Char.toLower

/-- The plan for the items of a scan, when modules with the names `seen` are
planned already. -/
def ofItems (seen : List (List Char)) : List (Except SourceError Block) → Plan
  | [] => ⟨[], none⟩
  | .error fault :: _ => ⟨[], some fault⟩
  | .ok block :: items =>
    if caseless block.name ∈ seen then
      ⟨[], some (.duplicateModule block.name block.line)⟩
    else
      let later := ofItems (caseless block.name :: seen) items
      ⟨block :: later.blocks, later.failure⟩

/-- The plan for a netlist.  There is none if its comments cannot be removed. -/
def ofNetlist (raw : Text) : Except SourceError Plan :=
  (Comment.strip raw).map fun code => ofItems [] (Scanner.ofText code).items

end Plan

end NetlistSplit
