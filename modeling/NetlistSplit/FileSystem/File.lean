import NetlistSplit.FileSystem.Walk

/-!
# Files and links

Reading, writing, linking and removing.  Each of these either succeeds or leaves
the tree as it was.
-/

namespace NetlistSplit.FileTree

open Walk

/-- The content of a file. -/
def readFile (tree : FileTree) (path : Path) : Except AccessError Text :=
  match tree.locate .use path with
  | .error e => .error e
  | .ok (.absent _ _) => .error (.system .noSuchEntry)
  | .ok (.found _ (.file content)) => .ok content
  | .ok (.found _ .dir) => .error (.system .isDirectory)
  -- A walk that is to use what it finds does not end at a link.
  | .ok (.found _ (.link _)) => .error (.system .tooManyLinks)

/-- The number of bytes of a file, if there is one. -/
def fileSize? (tree : FileTree) (path : Path) : Option Nat :=
  (tree.readFile path).toOption.map List.length

/-- Writes a file, in place of its former content.  Where a link leads, the file
is written there, also if it has to be made. -/
def writeFile (tree : FileTree) (path : Path) (content : Text) : Except AccessError FileTree :=
  match tree.locate .write path with
  | .error e => .error e
  | .ok (.absent parent name) => .ok (tree.insert (parent ++ [name]) (.file content))
  | .ok (.found _ .dir) => .error (.system .isDirectory)
  | .ok (.found place _) => .ok (tree.insert place (.file content))

/-- Makes a symbolic link. -/
def makeLink (tree : FileTree) (path : Path) (target : String) : Except AccessError FileTree :=
  match tree.locate .inspect path with
  | .error e => .error e
  | .ok (.absent parent name) => .ok (tree.insert (parent ++ [name]) (.link target))
  | .ok (.found _ _) => .error (.system .entryExists)

/-- Removes a file or a link, not what the link leads to. -/
def removeFile (tree : FileTree) (path : Path) : Except AccessError FileTree :=
  match tree.locate .inspect path with
  | .error e => .error e
  | .ok (.absent _ _) => .error (.system .noSuchEntry)
  | .ok (.found _ .dir) => .error (.system .isDirectory)
  | .ok (.found place _) => .ok (tree.erase place)

end NetlistSplit.FileTree
