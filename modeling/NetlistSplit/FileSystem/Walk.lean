import NetlistSplit.FileSystem.AccessError
import NetlistSplit.FileSystem.Tree
import NetlistSplit.Path

/-!
# Walking along a path

A walk takes the names of a path one by one, from the root or from the working
directory.  A dot stays where it is and two dots lead to the directory above; the
root is above itself.  A link on the way is replaced by its target, which starts
from the directory of the link.  What stands in the last place may be missing,
and whether a link there is followed depends on the purpose of the walk.

Links may lead in circles, so a walk follows no more than `linkLimit` of them.
`FileTree.walkNames` is the walk between two links, a recursion on the names; it
is handed what to do at the next link.  `FileTree.walk` is a recursion on the
links that are left.
-/

namespace NetlistSplit

/-- What a walk is for. -/
inductive Walk.Purpose where
  /-- To deal with what stands in the last place itself, even if it is a link. -/
  | inspect
  /-- To use what the path leads to. -/
  | use
  /-- To write to the file that the path leads to, and to make it if there is
  none.  The last name has to be a file's: no dots, no slash at the end. -/
  | write
  deriving DecidableEq, Repr

/-- Where a walk ends. -/
inductive Walk.End where
  /-- At an entry. -/
  | found (place : Location) (entry : Entry)
  /-- In the directory `parent`, which has no entry with the last name. -/
  | absent (parent : Location) (name : String)
  deriving DecidableEq, Repr

namespace Walk

/-- The number of links that one walk may follow. -/
def linkLimit : Nat := 40

/-- The number of bytes that a name may have. -/
def nameLimit : Nat := 255

/-- The number of bytes that a path may have. -/
def pathLimit : Nat := 4095

/-- Whether `name`, followed by `later`, is the end of a path that can only be a
directory's. -/
def endsAsDirectory (name : String) (later : List String) : Bool :=
  later == [""] || (later == [] && (name == "" || name == "." || name == ".."))

end Walk

namespace FileTree

open Walk

/-- The walk from the directory `here` along `names`.  `onLink` goes on where a
link has to be followed, from a directory along the names that the link and the
rest of the path give. -/
def walkNames (tree : FileTree) (purpose : Purpose)
    (onLink : Location → List String → Except SystemError End) :
    (here : Location) → (names : List String) → Except SystemError End
  | here, [] =>
    match tree.get? here with
    | none => .error .noSuchEntry
    | some entry => .ok (.found here entry)
  | here, name :: later =>
    match tree.get? here with
    | none => .error .noSuchEntry
    | some (.file _) => .error .notDirectory
    | some (.link _) => .error .notDirectory
    | some .dir =>
      if purpose = .write ∧ endsAsDirectory name later then .error .isDirectory
      else if name = "" ∨ name = "." then walkNames tree purpose onLink here later
      else if name = ".." then walkNames tree purpose onLink here.dropLast later
      else if nameLimit < name.utf8ByteSize then .error .nameTooLong
      else
        match tree.get? (here ++ [name]) with
        | none => if later = [] then .ok (.absent here name) else .error .noSuchEntry
        | some (.link target) =>
          if later = [] ∧ purpose = .inspect then .ok (.found (here ++ [name]) (.link target))
          else
            let path : Path := ⟨target⟩
            onLink (if path.isAbsolute then [] else here) (path.names ++ later)
        | some _ => walkNames tree purpose onLink (here ++ [name]) later

/-- The walk from the directory `here` along `names`, over `links` links at most. -/
def walk (tree : FileTree) (purpose : Purpose) :
    (links : Nat) → (here : Location) → (names : List String) → Except SystemError End
  | 0 => tree.walkNames purpose fun _ _ => .error .tooManyLinks
  | links + 1 => tree.walkNames purpose (tree.walk purpose links)

/-- The walk along a path, by its names or by fewer of them: `names` may leave
out what the caller looks at itself. -/
def locateNames (tree : FileTree) (purpose : Purpose) (path : Path) (names : List String) :
    Except AccessError End :=
  if '\x00' ∈ path.text.toList then .error .nulInPath
  else if path.text = "" then .error (.system .noSuchEntry)
  else if pathLimit < path.text.utf8ByteSize then .error (.system .nameTooLong)
  else
    let start := if path.isAbsolute then [] else tree.workingDir
    (tree.walk purpose linkLimit start names).mapError .system

/-- The walk along a path. -/
def locate (tree : FileTree) (purpose : Purpose) (path : Path) : Except AccessError End :=
  tree.locateNames purpose path path.names

/-- What a path leads to, links followed. -/
def resolve? (tree : FileTree) (path : Path) : Option Entry :=
  match tree.locate .use path with
  | .ok (.found _ entry) => some entry
  | _ => none

/-- Whether a path leads to a directory. -/
def isDir (tree : FileTree) (path : Path) : Bool :=
  tree.resolve? path = some .dir

end FileTree

end NetlistSplit
