/-!
# Paths

A path is kept as it was written and nothing in it is normalised; it is shown to
the user in the same form.  Two views of it matter:

* its *names*, along which the file system walks, one after the other;
* its *components*, by which paths are compared and shortened.

Repeated slashes mean the same as one.  A slash at the end matters to a walk,
since only a directory may stand there, but not to the components; nor does a
dot, unless it is the first thing in the path.
-/

namespace NetlistSplit

/-- A path of the file system. -/
structure Path where
  text : String
  deriving DecidableEq, Repr

namespace Path

instance : ToString Path := ⟨Path.text⟩

/-- Whether the path starts at the root of the file system. -/
def isAbsolute (path : Path) : Bool :=
  path.text.toList.head? == some '/'

/-- What stands between the slashes, empty parts included. -/
def parts (path : Path) : List String :=
  (path.text.toList.splitOn '/').map String.ofList

/-- The names of the path in order, dots among them.  A slash at the end of the
path counts as an empty last name. -/
def names (path : Path) : List String :=
  let named := path.parts.filter (· ≠ "")
  if path.parts.getLast? = some "" ∧ named ≠ [] then named ++ [""] else named

/-- The components of the path, the root not counted. -/
def components (path : Path) : List String :=
  let named := path.parts.filter (· ≠ "")
  match path.isAbsolute, named with
  | false, "." :: later => "." :: later.filter (· ≠ ".")
  | _, _ => named.filter (· ≠ ".")

/-- The path with the given components. -/
def ofComponents (absolute : Bool) (components : List String) : Path :=
  ⟨(if absolute then "/" else "") ++ String.intercalate "/" components⟩

/-- Paths that lead to the same place by their components alone. -/
def Equivalent (first second : Path) : Prop :=
  first.isAbsolute = second.isAbsolute ∧ first.components = second.components

instance (first second : Path) : Decidable (Equivalent first second) :=
  inferInstanceAs (Decidable (_ ∧ _))

/-- The path itself and then, from the innermost to the outermost, the
directories on the way to it.  Neither the root nor the empty path is among
them. -/
def upward (path : Path) : List Path :=
  match path.components with
  | [] => []
  | components =>
    path :: ((List.range' 1 (components.length - 1)).reverse.map fun count =>
      ofComponents path.isAbsolute (components.take count))

/-- The path of `file` in the directory `dir`.  An absolute `file` stands for
itself. -/
def join (dir : Path) (file : String) : Path :=
  if file.toList.head? == some '/' then ⟨file⟩
  else if dir.text = "" ∨ dir.text.toList.getLast? = some '/' then ⟨dir.text ++ file⟩
  else ⟨dir.text ++ "/" ++ file⟩

/-- The last component, if it is the name of something. -/
def fileName? (path : Path) : Option String :=
  match path.components.getLast? with
  | some "." => none
  | some ".." => none
  | name? => name?

end Path

end NetlistSplit
