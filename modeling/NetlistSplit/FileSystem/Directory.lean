import NetlistSplit.FileSystem.File

/-!
# Directories

Making and removing directories, one at a time and whole branches of them, and
preparing a directory for output, which comes down to removing it and making it
anew.

An operation on a whole branch takes many steps, and the steps taken before a
failure stay.  Such an operation therefore gives a tree whether it succeeds or
not.
-/

namespace NetlistSplit.FileTree

open Walk

/-! ## One directory -/

/-- The names of a path, less a slash at its end: a directory is made and removed
under its name, be it written with a slash or without. -/
def directoryNames (path : Path) : List String :=
  path.names.filter (· ≠ "")

/-- Makes one directory in a directory that exists. -/
def makeDir (tree : FileTree) (path : Path) : Except AccessError FileTree :=
  match tree.locateNames .inspect path (directoryNames path) with
  | .error e => .error e
  | .ok (.absent parent name) => .ok (tree.insert (parent ++ [name]) .dir)
  | .ok (.found _ _) => .error (.system .entryExists)

/-- Removes one empty directory.  It has to be called by its name: dots at the
end of the path are refused. -/
def removeEmptyDir (tree : FileTree) (path : Path) : Except AccessError FileTree :=
  let names := directoryNames path
  match names.getLast? with
  | some "." =>
    (tree.locateNames .use path (names.dropLast ++ [""])).bind fun _ =>
      .error (.system .invalidArgument)
  | some ".." =>
    (tree.locateNames .use path (names.dropLast ++ [""])).bind fun _ =>
      .error (.system .directoryNotEmpty)
  | _ =>
    match tree.locateNames .inspect path names with
    | .error e => .error e
    | .ok (.absent _ _) => .error (.system .noSuchEntry)
    | .ok (.found place .dir) =>
      if tree.isEmptyAt place then .ok (tree.erase place)
      else .error (.system .directoryNotEmpty)
    | .ok (.found _ _) => .error (.system .notDirectory)

/-! ## Branches -/

/-- Makes the innermost of the `dirs` that can be made, `dirs` going upward.
Gives the ones that have to be made after it, the outermost first. -/
def makeOutermost (tree : FileTree) : (dirs : List Path) → Except AccessError (FileTree × List Path)
  | [] => .ok (tree, [])
  | dir :: above =>
    match tree.makeDir dir with
    | .ok made => .ok (made, [])
    | .error e =>
      if e = .system .noSuchEntry then
        (tree.makeOutermost above).map fun (made, inner) => (made, inner ++ [dir])
      else if e = .system .entryExists ∧ tree.isDir dir then .ok (tree, [])
      else .error e

/-- Makes directories one after the other, and passes over those that exist. -/
def makeEach (tree : FileTree) : (dirs : List Path) → Except AccessError Unit × FileTree
  | [] => (.ok (), tree)
  | dir :: later =>
    match tree.makeDir dir with
    | .ok made => made.makeEach later
    | .error e =>
      if e = .system .entryExists ∧ tree.isDir dir then tree.makeEach later
      else (.error e, tree)

/-- Makes a directory and those on the way to it, unless they exist. -/
def makeDirAll (tree : FileTree) (path : Path) : Except AccessError Unit × FileTree :=
  match tree.makeOutermost path.upward with
  | .error e => (.error e, tree)
  | .ok (made, inner) => made.makeEach inner

/-- Removes a directory and everything inside of it.  A link is removed itself,
and links inside are not followed. -/
def removeDirAll (tree : FileTree) (path : Path) : Except AccessError Unit × FileTree :=
  match tree.locate .inspect path with
  | .error e => (.error e, tree)
  | .ok (.absent _ _) => (.error (.system .noSuchEntry), tree)
  | .ok (.found _ (.file _)) => (.error (.system .notDirectory), tree)
  | .ok (.found place (.link _)) => (.ok (), tree.erase place)
  | .ok (.found place .dir) =>
    let emptied := tree.eraseInside place
    match emptied.removeEmptyDir path with
    | .ok removed => (.ok (), removed)
    | .error e =>
      -- The path itself may have led through what is removed by now.
      if e = .system .noSuchEntry then (.ok (), emptied) else (.error e, emptied)

/-! ## Output directories -/

/-- Makes a directory anew: what stands there is removed first, if the path leads
to anything. -/
def prepareDir (tree : FileTree) (dir : Path) : Except AccessError Unit × FileTree :=
  if (tree.resolve? dir).isSome then
    match tree.removeDirAll dir with
    | (.error e, removed) => (.error e, removed)
    | (.ok (), removed) => removed.makeDirAll dir
  else
    tree.makeDirAll dir

end NetlistSplit.FileTree
