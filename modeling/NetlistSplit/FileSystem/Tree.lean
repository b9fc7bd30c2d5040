import NetlistSplit.Text

/-!
# File trees

A file tree holds everything below the root: directories, files and symbolic
links.  An entry is known by its location, the names on the way to it from the
root.  Locations hold no dots and pass through no links; how a path leads to a
location is the business of a walk.

The root itself is always a directory and has no entry of its own.  One
directory is the working directory, from which relative paths start.
-/

namespace NetlistSplit

/-- The names on the way from the root to an entry. -/
abbrev Location := List String

/-- What may stand at a location. -/
inductive Entry where
  | dir
  | file (content : Text)
  /-- A symbolic link with its target as it was written. -/
  | link (target : String)
  deriving DecidableEq, Repr

/-- A file tree, as the list of its entries. -/
structure FileTree where
  entries : List (Location × Entry) := []
  /-- Where relative paths start. -/
  workingDir : Location := []
  deriving DecidableEq, Repr

/-- Whether a location is inside of another, at any depth. -/
def Location.isInside (inner outer : Location) : Bool :=
  outer.isPrefixOf inner && inner != outer

namespace FileTree

/-- The entry at a location. -/
def get? (tree : FileTree) (place : Location) : Option Entry :=
  if place = [] then some .dir else tree.entries.lookup place

/-- Takes away the entries at the locations that `drops` names. -/
def without (tree : FileTree) (drops : Location → Bool) : FileTree :=
  { tree with entries := tree.entries.filter fun old => !drops old.1 }

/-- Takes away the entry at a location, but nothing inside of it. -/
def erase (tree : FileTree) (place : Location) : FileTree :=
  tree.without fun other => other == place

/-- Takes away everything inside of a location, but not what stands there. -/
def eraseInside (tree : FileTree) (place : Location) : FileTree :=
  tree.without fun other => other.isInside place

/-- Puts an entry at a location, in place of what stands there. -/
def insert (tree : FileTree) (place : Location) (entry : Entry) : FileTree :=
  { tree with entries := (place, entry) :: (tree.erase place).entries }

/-- Whether nothing is inside of a location. -/
def isEmptyAt (tree : FileTree) (place : Location) : Bool :=
  !tree.entries.any fun old => old.1.isInside place

/-- All entries inside of the working directory, with the paths that lead to them
from there, in the order of these paths. -/
def listing (tree : FileTree) : List (String × Entry) :=
  let inside := tree.entries.filter fun (place, _) => Location.isInside place tree.workingDir
  let written := inside.map fun (place, entry) =>
    (String.intercalate "/" (place.drop tree.workingDir.length), entry)
  written.mergeSort fun first second => !decide (second.1 < first.1)

/-! ## What the operations do to the entries -/

private theorem lookup_filter (drops : Location → Bool) (place : Location)
    (entries : List (Location × Entry)) :
    (entries.filter fun old => !drops old.1).lookup place =
      if drops place then none else entries.lookup place := by
  induction entries with
  | nil => simp
  | cons old later ih =>
      obtain ⟨here, entry⟩ := old
      by_cases hhere : place = here
      · subst hhere
        cases hdrops : drops place with
        | true => simpa [hdrops] using ih
        | false => simp [hdrops]
      · have hne : (place == here) = false := by simpa using hhere
        cases hdrops : drops here with
        | true => simpa [hdrops, List.lookup_cons, hne] using ih
        | false => simpa [hdrops, List.lookup_cons, hne] using ih

@[simp] theorem get?_root (tree : FileTree) : tree.get? [] = some .dir := by
  simp [get?]

theorem get?_without (tree : FileTree) (drops : Location → Bool) {place : Location}
    (hplace : place ≠ []) :
    (tree.without drops).get? place = if drops place then none else tree.get? place := by
  simp only [get?, without, if_neg hplace]
  exact lookup_filter drops place tree.entries

theorem get?_erase_self (tree : FileTree) {place : Location} (hplace : place ≠ []) :
    (tree.erase place).get? place = none := by
  simp [erase, get?_without tree _ hplace]

theorem get?_erase_of_ne (tree : FileTree) {place other : Location} (hother : other ≠ place) :
    (tree.erase place).get? other = tree.get? other := by
  by_cases hroot : other = []
  · simp [hroot]
  · simp [erase, get?_without tree _ hroot, hother]

theorem get?_insert_self (tree : FileTree) {place : Location} (entry : Entry)
    (hplace : place ≠ []) : (tree.insert place entry).get? place = some entry := by
  simp [get?, insert, hplace]

theorem get?_insert_of_ne (tree : FileTree) {place other : Location} (entry : Entry)
    (hother : other ≠ place) : (tree.insert place entry).get? other = tree.get? other := by
  have hne : (other == place) = false := by simpa using hother
  rw [← get?_erase_of_ne tree hother]
  simp [get?, insert, List.lookup_cons, hne]

/-- Of what is inside of a location nothing is left, and all else is untouched. -/
theorem get?_eraseInside (tree : FileTree) (place other : Location) :
    (tree.eraseInside place).get? other =
      if other.isInside place then none else tree.get? other := by
  by_cases hroot : other = []
  · cases place <;> simp [hroot, Location.isInside]
  · exact get?_without tree _ hroot

end FileTree

end NetlistSplit
