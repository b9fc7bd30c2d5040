import Mathlib.Data.List.Basic
import NetlistSplit.Proofs.FileSystem.Prepare

/-!
# The last name of a path

All the names of a path but the last one lead to a directory, or the path has no location.
Where they do lead to one (`EndsIn`), inspecting the path comes down to looking up its last
name there (`EndsIn.locateNames_eq`).  So what preparing the directory of the path comes to
depends only on the entry found (`EndsIn.prepareDir_eq`), as long as the way to it does not
come by that entry itself (`LeadsThroughItself`): then the way is the same when the entry is
taken away.
-/

namespace NetlistSplit.FileTree

open Walk

variable {tree other : FileTree} {dir : Path} {parent : Location} {name : String}

/-- Whether the names of a path in front of its last one lead to the directory `parent`, and
`name` is the last one. -/
structure EndsIn (tree : FileTree) (dir : Path) (parent : Location) (name : String) : Prop where
  accepted : dir.IsAccepted
  named_eq : dir.named = dir.named.dropLast ++ [name]
  isName : Path.IsName name
  length_le : name.utf8ByteSize ≤ nameLimit
  way : Reaches tree .use linkLimit (tree.startOf dir) dir.named.dropLast (.found parent .dir)

/-- What is found under a name in a directory. -/
def lookUp (tree : FileTree) (parent : Location) (name : String) : End :=
  match tree.get? (parent ++ [name]) with
  | none => .absent parent name
  | some entry => .found (parent ++ [name]) entry

/-- Whether the names of a path in front of its last one lead through the location of the path
itself. -/
def LeadsThroughItself (tree : FileTree) (dir : Path) : Prop :=
  ∃ outer, tree.location? dir = some outer ∧
    ∃ place ∈ tree.passed linkLimit (tree.startOf dir) dir.named.dropLast, outer <+: place

/-- Makes a directory anew at a location.  `leads` says whether a link that stands there leads to
anything. -/
def remake (tree : FileTree) (place : Location) (leads : Bool) :
    Except AccessError Unit × FileTree :=
  match tree.get? place with
  | none => (.ok (), tree.insert place .dir)
  | some (.file _) => (.error (.system .notDirectory), tree)
  | some (.link _) =>
    if leads then (.ok (), (tree.erase place).insert place .dir)
    else (.error (.system .entryExists), tree)
  | some .dir => (.ok (), ((tree.eraseInside place).erase place).insert place .dir)

theorem lookUp_place (tree : FileTree) (parent : Location) (name : String) :
    (tree.lookUp parent name).place = parent ++ [name] := by
  unfold lookUp
  split <;> rfl

theorem get?_of_lookUp {place : Location} {entry : Entry}
    (hlookUp : .found place entry = tree.lookUp parent name) :
    tree.get? (parent ++ [name]) = some entry := by
  unfold lookUp at hlookUp
  split at hlookUp
  · cases hlookUp
  · next entry hget =>
      obtain ⟨-, rfl⟩ := End.found.inj hlookUp
      exact hget

/-- A path that no walk finds anything along leads to nothing. -/
theorem resolve?_eq_none
    (hnowhere : ∀ place entry, tree.locateNames .inspect dir dir.named ≠ .ok (.found place entry)) :
    tree.resolve? dir = none := by
  apply Option.eq_none_iff_forall_ne_some.mpr
  intro entry hresolve
  obtain ⟨place, entry', hfound⟩ := exists_named_of_resolve? hresolve
  exact hnowhere place entry' hfound

theorem get?_eraseInside_of_outside {outer place : Location} (houtside : ¬ outer <+: place) :
    (tree.eraseInside outer).get? place = tree.get? place := by
  rw [get?_eraseInside, if_neg]
  intro hinside
  obtain ⟨below, -, rfl⟩ := Location.isInside_iff.mp hinside
  exact houtside (List.prefix_append outer below)

theorem get?_erase_of_outside {outer place : Location} (houtside : ¬ outer <+: place) :
    (tree.erase outer).get? place = tree.get? place :=
  get?_erase_of_ne tree fun heq => houtside (heq ▸ List.prefix_refl _)

/-! ## One name -/

theorem reaches_lookUp {links : Nat} (hparent : tree.get? parent = some .dir)
    (hname : Path.IsName name) (hlength : name.utf8ByteSize ≤ nameLimit) :
    Reaches tree .inspect links parent [name] (tree.lookUp parent name) := by
  have hinspect : ¬ (Purpose.inspect = .write ∧ endsAsDirectory name [] = true) := by simp
  unfold lookUp
  split
  · next hnone => exact .absent hparent hinspect hname hlength hnone
  · next entry hentry =>
      have hdown : (∀ target, entry ≠ .link target) →
          Reaches tree .inspect links parent [name] (.found (parent ++ [name]) entry) :=
        fun hlink => .down hparent hinspect hname hlength hentry hlink (.here hentry)
      cases entry with
      | dir => exact hdown (by simp)
      | file content => exact hdown (by simp)
      | link target => exact .link hparent hname hlength hentry rfl

/-- Inspecting a path succeeds just if the names before its last one lead to a directory. -/
theorem exists_endsIn {stop : End} (hdir : dir.IsNormal)
    (hlocate : tree.locateNames .inspect dir dir.named = .ok stop) :
    ∃ parent name, tree.EndsIn dir parent name ∧ stop = tree.lookUp parent name := by
  obtain ⟨haccepted, hreaches⟩ := locateNames_eq_ok_iff.mp hlocate
  obtain ⟨name, hlast, hname⟩ := exists_getLast? hdir
  have hnamed : dir.named = dir.named.dropLast ++ [name] :=
    (List.dropLast_append_getLast? name (Option.mem_def.mpr hlast)).symm
  have hlength := hreaches.length_le (List.mem_of_getLast? hlast) hname
  rw [hnamed] at hreaches
  obtain ⟨parent, fewer, hway, hbehind⟩ := hreaches.split (List.cons_ne_nil name [])
  exact ⟨parent, name, ⟨haccepted, hnamed, hname, hlength, hway⟩,
    hbehind.unique (reaches_lookUp hway.get?_of_found hname hlength)⟩

theorem exists_endsIn_of_locate {stop : End} (hdir : dir.IsPlain)
    (hlocate : tree.locate .inspect dir = .ok stop) :
    ∃ parent name, tree.EndsIn dir parent name ∧ stop = tree.lookUp parent name := by
  rw [locate, hdir.names_eq] at hlocate
  exact exists_endsIn hdir.isNormal hlocate

namespace EndsIn

theorem locateNames_eq (hends : tree.EndsIn dir parent name) :
    tree.locateNames .inspect dir dir.named = .ok (tree.lookUp parent name) := by
  obtain ⟨fewer, hbehind⟩ := hends.way.exists_walk_append
  refine locateNames_eq_ok_iff.mpr ⟨hends.accepted, ?_⟩
  rw [← walk_eq_ok_iff, hends.named_eq, hbehind .inspect _ (List.cons_ne_nil name []) (by simp)]
  exact (reaches_lookUp hends.way.get?_of_found hends.isName hends.length_le).walk_eq

theorem location?_eq (hends : tree.EndsIn dir parent name) (hdir : dir.IsPlain) :
    tree.location? dir = some (parent ++ [name]) := by
  refine location?_eq_some_iff.mpr ⟨_, ?_, lookUp_place tree parent name⟩
  rw [locate, hdir.names_eq]
  exact hends.locateNames_eq

/-- The way to a path is the same in a tree that lacks only what is at the location of the path
or below. -/
theorem of_kept (hends : tree.EndsIn dir parent name) (hdir : dir.IsPlain)
    (hclear : ¬ tree.LeadsThroughItself dir) (hworking : other.workingDir = tree.workingDir)
    (hkept : ∀ place entry, ¬ parent ++ [name] <+: place → tree.get? place = some entry →
      other.get? place = some entry) :
    other.EndsIn dir parent name where
  accepted := hends.accepted
  named_eq := hends.named_eq
  isName := hends.isName
  length_le := hends.length_le
  way := by
    rw [startOf_congr hworking rfl]
    refine hends.way.of_passed fun place hpassed entry hget => hkept place entry ?_ hget
    intro hbelow
    exact hclear ⟨_, hends.location?_eq hdir, place, hpassed, hbelow⟩

/-! ## What the path leads to -/

theorem resolve?_of_none (hends : tree.EndsIn dir parent name)
    (hnone : tree.get? (parent ++ [name]) = none) : tree.resolve? dir = none := by
  apply resolve?_eq_none
  intro place entry hfound
  rw [hends.locateNames_eq, lookUp, hnone] at hfound
  cases hfound

theorem locate_of_some {entry : Entry} (hends : tree.EndsIn dir parent name) (hdir : dir.IsPlain)
    (hget : tree.get? (parent ++ [name]) = some entry) :
    tree.locate .inspect dir = .ok (.found (parent ++ [name]) entry) := by
  rw [locate, hdir.names_eq, hends.locateNames_eq, lookUp, hget]

theorem resolve?_of_some {entry : Entry} (hends : tree.EndsIn dir parent name)
    (hdir : dir.IsPlain) (hget : tree.get? (parent ++ [name]) = some entry)
    (hlink : ∀ target, entry ≠ .link target) : tree.resolve? dir = some entry := by
  obtain ⟨haccepted, hreaches⟩ := locate_eq_ok_iff.mp (hends.locate_of_some hdir hget)
  exact resolve?_eq_some_iff.mpr
    ⟨_, locate_eq_ok_iff.mpr ⟨haccepted, hreaches.use_of_found hlink⟩⟩

/-! ## Making and removing -/

theorem makeDir_eq (hends : tree.EndsIn dir parent name)
    (hnone : tree.get? (parent ++ [name]) = none) :
    tree.makeDir dir = .ok (tree.insert (parent ++ [name]) .dir) := by
  refine makeDir_eq_ok_iff.mpr ⟨parent, name, ?_, rfl⟩
  rw [hends.locateNames_eq, lookUp, hnone]

theorem makeDirAll_of_none (hends : tree.EndsIn dir parent name) (hdir : dir.IsNormal)
    (hnone : tree.get? (parent ++ [name]) = none) :
    tree.makeDirAll dir = (.ok (), tree.insert (parent ++ [name]) .dir) := by
  obtain ⟨above, hupward, -⟩ := hdir.isUpward
  rw [makeDirAll, hupward, makeOutermost, hends.makeDir_eq hnone]
  rfl

theorem makeDirAll_of_some {entry : Entry} (hends : tree.EndsIn dir parent name)
    (hdir : dir.IsNormal) (hget : tree.get? (parent ++ [name]) = some entry)
    (hnot : tree.isDir dir = false) :
    tree.makeDirAll dir = (.error (.system .entryExists), tree) := by
  have hmake : tree.makeDir dir = .error (.system .entryExists) := by
    rw [makeDir, directoryNames_eq, hends.locateNames_eq, lookUp, hget]
  have hne : ¬ AccessError.system .entryExists = .system .noSuchEntry := by decide
  obtain ⟨above, hupward, -⟩ := hdir.isUpward
  rw [makeDirAll, hupward, makeOutermost, hmake]
  simp only [if_neg hne, hnot, Bool.false_eq_true, and_false, if_false]

/-- A directory is removed with everything inside of it. -/
theorem removeDirAll_of_dir (hends : tree.EndsIn dir parent name) (hdir : dir.IsPlain)
    (hclear : ¬ tree.LeadsThroughItself dir) (hget : tree.get? (parent ++ [name]) = some .dir) :
    tree.removeDirAll dir =
      (.ok (), (tree.eraseInside (parent ++ [name])).erase (parent ++ [name])) := by
  have hemptied : (tree.eraseInside (parent ++ [name])).EndsIn dir parent name :=
    hends.of_kept hdir hclear rfl fun place entry houtside hget =>
      (get?_eraseInside_of_outside houtside).trans hget
  have hstays : (tree.eraseInside (parent ++ [name])).get? (parent ++ [name]) = some .dir := by
    rw [get?_eraseInside, if_neg (by simp [Location.isInside]), hget]
  have hempty : (tree.eraseInside (parent ++ [name])).isEmptyAt (parent ++ [name]) = true := by
    refine isEmptyAt_iff.mpr fun old hold => ?_
    simpa using (List.mem_filter.mp hold).2
  have hremove : (tree.eraseInside (parent ++ [name])).removeEmptyDir dir =
      .ok ((tree.eraseInside (parent ++ [name])).erase (parent ++ [name])) := by
    rw [removeEmptyDir_eq hdir.isNormal, hemptied.locateNames_eq, lookUp, hstays]
    exact if_pos hempty
  simp only [removeDirAll, hends.locate_of_some hdir hget, hremove]

/-- Preparing the directory of a path comes to making it anew at its location. -/
theorem prepareDir_eq (hends : tree.EndsIn dir parent name) (hdir : dir.IsPlain)
    (hclear : ¬ tree.LeadsThroughItself dir) :
    tree.prepareDir dir = tree.remake (parent ++ [name]) (tree.resolve? dir).isSome := by
  have hroot : parent ++ [name] ≠ [] := List.concat_ne_nil name parent
  unfold remake
  cases hget : tree.get? (parent ++ [name]) with
  | none =>
      simp only [prepareDir, hends.resolve?_of_none hget, Option.isSome_none, Bool.false_eq_true,
        if_false]
      exact hends.makeDirAll_of_none hdir.isNormal hget
  | some entry =>
      cases entry with
      | file content =>
          have hresolve := hends.resolve?_of_some hdir hget (by simp)
          simp only [prepareDir, hresolve, Option.isSome_some, if_true, removeDirAll,
            hends.locate_of_some hdir hget]
      | link target =>
          cases hresolve : tree.resolve? dir with
          | none =>
              simp only [prepareDir, hresolve, Option.isSome_none, Bool.false_eq_true, if_false]
              exact hends.makeDirAll_of_some hdir.isNormal hget (isDir_of_resolve? hresolve)
          | some entry =>
              have hleft : (tree.erase (parent ++ [name])).EndsIn dir parent name :=
                hends.of_kept hdir hclear rfl fun place entry houtside hget =>
                  (get?_erase_of_outside houtside).trans hget
              simp only [prepareDir, hresolve, Option.isSome_some, if_true, removeDirAll,
                hends.locate_of_some hdir hget]
              exact hleft.makeDirAll_of_none hdir.isNormal (get?_erase_self tree hroot)
      | dir =>
          have hresolve := hends.resolve?_of_some hdir hget (by simp)
          have hleft : ((tree.eraseInside (parent ++ [name])).erase (parent ++ [name])).EndsIn dir
              parent name :=
            hends.of_kept hdir hclear rfl fun place entry houtside hget =>
              (get?_erase_of_outside houtside).trans
                ((get?_eraseInside_of_outside houtside).trans hget)
          simp only [prepareDir, hresolve, Option.isSome_some, if_true,
            hends.removeDirAll_of_dir hdir hclear hget]
          exact hleft.makeDirAll_of_none hdir.isNormal (get?_erase_self _ hroot)

theorem eq_of_prepareDir_error {e : AccessError} {prepared : FileTree}
    (hends : tree.EndsIn dir parent name) (hdir : dir.IsPlain)
    (hclear : ¬ tree.LeadsThroughItself dir)
    (hprepare : tree.prepareDir dir = (.error e, prepared)) : prepared = tree := by
  rw [hends.prepareDir_eq hdir hclear, remake] at hprepare
  split at hprepare
  · cases (Prod.mk.inj hprepare).1
  · exact (Prod.mk.inj hprepare).2.symm
  · split at hprepare
    · cases (Prod.mk.inj hprepare).1
    · exact (Prod.mk.inj hprepare).2.symm
  · cases (Prod.mk.inj hprepare).1

end EndsIn

end NetlistSplit.FileTree
