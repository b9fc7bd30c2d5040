import NetlistSplit.Proofs.FileSystem.MakeDir

/-!
# A prepared directory is empty

Preparing a directory removes what stands there and makes the directory anew.  If
all of this succeeds, the path leads to a directory and nothing is inside of it
(`isFresh_of_prepareDir`).  Whether it succeeds or not, nothing is lost that does not
stand at the location of the directory or below (`kept_of_prepareDir`), and nothing
is added but the directory and those on the way to it (`added_of_prepareDir`).

Preparing a directory a second time does what the first time did: it fails the same
way (`prepareDir_again_of_error`), or it takes away just what was put inside of the
directory since (`Prepared.again`).

## Strategy

What stands at the end of a path is removed, or something on the way to it is
missing (`cleared_of_removeDirAll`): the tree only loses entries, so a walk along the
path can only end where it ended before.  From there on every directory that is made
is made where nothing stood (`making_of_makeDirAll`).
-/

namespace NetlistSplit

namespace FileTree

open Walk

variable {tree removed prepared final : FileTree} {dir : Path} {place : Location} {entry : Entry}
  {result : Except AccessError Unit}

/-! ## What is taken away -/

/-- Where what a path leads to is missing, the path leads to nothing. -/
theorem IsPartOf.resolve?_eq_none (hpart : removed.IsPartOf tree)
    (hworking : removed.workingDir = tree.workingDir)
    (hfound : tree.locateNames .inspect dir dir.named = .ok (.found place entry))
    (hgone : removed.get? place = none) : removed.resolve? dir = none := by
  apply Option.eq_none_iff_forall_ne_some.mpr
  intro other hresolve
  obtain ⟨place', entry', hfound'⟩ := exists_named_of_resolve? hresolve
  -- In the tree that holds more the same walk ends at the same place.
  have hbefore := hpart.locateNames hworking.symm hfound'
  obtain ⟨rfl, rfl⟩ := End.found.inj (Except.ok.inj (hbefore.symm.trans hfound))
  rw [(locateNames_eq_ok_iff.mp hfound').2.get?_of_found] at hgone
  cases hgone

/-- Whether `removed` is what is left of `tree` when something is taken away that stands
at the location of a path or below. -/
structure Cleared (tree removed : FileTree) (dir : Path) : Prop where
  workingDir_eq : removed.workingDir = tree.workingDir
  less : removed.IsPartOf tree
  lost : ∀ place entry, tree.get? place = some entry → removed.get? place = none →
    ∃ outer, tree.location? dir = some outer ∧ outer <+: place
  wellFormed : removed.WellFormed

theorem Cleared.refl (htree : tree.WellFormed) : tree.Cleared tree dir where
  workingDir_eq := rfl
  less := fun place entry hget => hget
  lost := by
    intro place entry hget hnone
    rw [hget] at hnone
    cases hnone
  wellFormed := htree

/-- Everything inside of the location of a path may be taken away, and then what stands
there. -/
theorem Cleared.of_eraseInside (htree : tree.WellFormed)
    (hlocation : tree.location? dir = some place) :
    tree.Cleared (tree.eraseInside place) dir where
  workingDir_eq := rfl
  less := isPartOf_without tree _
  lost := by
    intro other entry hget hnone
    rw [get?_eraseInside] at hnone
    split at hnone
    · next hinside =>
        obtain ⟨below, -, rfl⟩ := Location.isInside_iff.mp hinside
        exact ⟨place, hlocation, List.prefix_append _ _⟩
    · rw [hget] at hnone
      cases hnone
  wellFormed := htree.eraseInside place

theorem Cleared.erase (hcleared : tree.Cleared removed dir)
    (hlocation : tree.location? dir = some place) (hempty : removed.isEmptyAt place = true) :
    tree.Cleared (removed.erase place) dir where
  workingDir_eq := hcleared.workingDir_eq
  less := fun other entry hget => hcleared.less other entry (isPartOf_without removed _ _ _ hget)
  lost := by
    intro other entry hget hnone
    by_cases hplace : other = place
    · exact ⟨place, hlocation, hplace ▸ List.prefix_refl _⟩
    · rw [get?_erase_of_ne removed hplace] at hnone
      exact hcleared.lost other entry hget hnone
  wellFormed := hcleared.wellFormed.erase hempty

/-! ## One empty directory -/

/-- A normal path ends in a name. -/
theorem exists_getLast? (hdir : dir.IsNormal) :
    ∃ name, dir.named.getLast? = some name ∧ Path.IsName name := by
  have hlast := List.getLast?_eq_some_getLast hdir.1
  exact ⟨_, hlast, hdir.2 _ (List.getLast_mem hdir.1)⟩

theorem ne_root (hdir : dir.IsNormal)
    (hfound : tree.locateNames .inspect dir dir.named = .ok (.found place entry)) :
    place ≠ [] := by
  obtain ⟨name, hlast, hname⟩ := exists_getLast? hdir
  exact (locateNames_eq_ok_iff.mp hfound).2.ne_root hlast hname

theorem removeEmptyDir_eq (hdir : dir.IsNormal) :
    tree.removeEmptyDir dir =
      match tree.locateNames .inspect dir dir.named with
      | .error e => .error e
      | .ok (.absent _ _) => .error (.system .noSuchEntry)
      | .ok (.found place .dir) =>
        if tree.isEmptyAt place then .ok (tree.erase place)
        else .error (.system .directoryNotEmpty)
      | .ok (.found _ _) => .error (.system .notDirectory) := by
  obtain ⟨name, hlast, hname⟩ := exists_getLast? hdir
  unfold removeEmptyDir
  rw [directoryNames_eq]
  simp only [hlast]
  split
  · next hdot => exact absurd (Option.some.inj hdot) hname.2.1
  · next hdots => exact absurd (Option.some.inj hdots) hname.2.2
  · rfl

theorem exists_of_removeEmptyDir (hdir : dir.IsNormal)
    (hremove : tree.removeEmptyDir dir = .ok removed) :
    ∃ place, tree.locateNames .inspect dir dir.named = .ok (.found place .dir) ∧
      tree.isEmptyAt place = true ∧ removed = tree.erase place := by
  rw [removeEmptyDir_eq hdir] at hremove
  split at hremove
  · cases hremove
  · cases hremove
  · next place hfound =>
      split at hremove
      · next hempty => exact ⟨place, hfound, hempty, (Except.ok.inj hremove).symm⟩
      · cases hremove
  · cases hremove

/-- Where there is no entry to remove, the path leads nowhere. -/
theorem resolve?_of_noSuchEntry (hdir : dir.IsNormal)
    (hremove : tree.removeEmptyDir dir = .error (.system .noSuchEntry)) :
    tree.resolve? dir = none := by
  apply Option.eq_none_iff_forall_ne_some.mpr
  intro other hresolve
  obtain ⟨place, entry, hfound⟩ := exists_named_of_resolve? hresolve
  rw [removeEmptyDir_eq hdir, hfound] at hremove
  cases entry with
  | dir =>
      simp only at hremove
      split at hremove <;> cases hremove
  | file content => cases hremove
  | link target => cases hremove

/-! ## A branch that is removed -/

/-- Removing a branch takes away nothing that stands elsewhere, and once it is removed
its path leads nowhere. -/
theorem cleared_of_removeDirAll (htree : tree.WellFormed) (hdir : dir.IsNormal)
    (hremove : tree.removeDirAll dir = (result, removed)) :
    tree.Cleared removed dir ∧ (result = .ok () → removed.resolve? dir = none) := by
  unfold removeDirAll at hremove
  split at hremove
  · obtain ⟨rfl, rfl⟩ := Prod.mk.inj hremove
    exact ⟨.refl htree, fun hok => nomatch hok⟩
  · obtain ⟨rfl, rfl⟩ := Prod.mk.inj hremove
    exact ⟨.refl htree, fun hok => nomatch hok⟩
  · obtain ⟨rfl, rfl⟩ := Prod.mk.inj hremove
    exact ⟨.refl htree, fun hok => nomatch hok⟩
  · -- A link is taken away, and what it leads to stays.
    next place target hfound =>
      obtain ⟨rfl, rfl⟩ := Prod.mk.inj hremove
      have hlocation := location?_eq_some_iff.mpr ⟨_, hfound, rfl⟩
      obtain ⟨haccepted, hreaches⟩ := locate_eq_ok_iff.mp hfound
      have hnamed : tree.locateNames .inspect dir dir.named =
          .ok (.found place (.link target)) := by
        refine locateNames_eq_ok_iff.mpr ⟨haccepted, ?_⟩
        rcases hreaches.of_names with hnamed | ⟨hlink, -⟩
        · exact hnamed
        · cases hlink
      have hempty : tree.isEmptyAt place = true := by
        refine htree.isEmptyAt ?_
        rw [hreaches.get?_of_found]
        exact fun heq => nomatch heq
      have hcleared := (Cleared.refl htree).erase hlocation hempty
      have hgone := get?_erase_self tree (ne_root hdir hnamed)
      exact ⟨hcleared, fun _ =>
            hcleared.less.resolve?_eq_none hcleared.workingDir_eq hnamed hgone⟩
  · next place hfound =>
      have hlocation := location?_eq_some_iff.mpr ⟨_, hfound, rfl⟩
      have hemptied : tree.Cleared (tree.eraseInside place) dir := .of_eraseInside htree hlocation
      simp only at hremove
      split at hremove
      · next removed' hremoved =>
          obtain ⟨rfl, rfl⟩ := Prod.mk.inj hremove
          obtain ⟨place', hfound', hempty, rfl⟩ := exists_of_removeEmptyDir hdir hremoved
          -- A slash at the end makes no difference to where the directory stands.
          have hnamed := hemptied.less.locateNames hemptied.workingDir_eq.symm hfound'
          obtain rfl : place' = place := by
            obtain ⟨-, hreaches⟩ := locate_eq_ok_iff.mp hfound
            obtain ⟨-, hreaches'⟩ := locateNames_eq_ok_iff.mp hnamed
            have hnot : ∀ target, Entry.dir ≠ .link target := fun target heq => nomatch heq
            have hstop := (hreaches'.use_of_found hnot).names_of_named.unique
              (hreaches.use_of_found hnot)
            exact (End.found.inj hstop).1
          have hcleared := hemptied.erase hlocation hempty
          have hgone := get?_erase_self (tree.eraseInside place') (ne_root hdir hfound')
          exact ⟨hcleared, fun _ =>
            hcleared.less.resolve?_eq_none hcleared.workingDir_eq hnamed hgone⟩
      · next e hremoved =>
          split at hremove
          · next hnoSuch =>
              subst hnoSuch
              obtain ⟨rfl, rfl⟩ := Prod.mk.inj hremove
              exact ⟨hemptied, fun _ => resolve?_of_noSuchEntry hdir hremoved⟩
          · obtain ⟨rfl, rfl⟩ := Prod.mk.inj hremove
            exact ⟨hemptied, fun hok => nomatch hok⟩

/-- An empty directory can be removed, unless the way to it is missing. -/
theorem Cleared.removeEmptyDir_eq (hcleared : tree.Cleared removed dir) (hdir : dir.IsNormal)
    (hfound : tree.locateNames .inspect dir dir.named = .ok (.found place .dir))
    (hempty : removed.isEmptyAt place = true) :
    removed.removeEmptyDir dir = .ok (removed.erase place) ∨
      removed.removeEmptyDir dir = .error (.system .noSuchEntry) := by
  obtain ⟨haccepted, hreaches⟩ := locateNames_eq_ok_iff.mp hfound
  rw [FileTree.removeEmptyDir_eq hdir, locateNames_of_isAccepted haccepted,
    startOf_congr hcleared.workingDir_eq rfl]
  rcases hreaches.walk_of_less hcleared.less with hwalk | hwalk | ⟨parent, name, hwalk⟩
  · rw [hwalk]
    exact .inl (if_pos hempty)
  · rw [hwalk]
    exact .inr rfl
  · rw [hwalk]
    exact .inr rfl

/-- Under its plain path, whatever can be used can be removed, unless it is a file. -/
theorem eq_of_removeDirAll_error {e : AccessError} (htree : tree.WellFormed) (hdir : dir.IsPlain)
    (hremove : tree.removeDirAll dir = (.error e, removed)) : removed = tree := by
  unfold removeDirAll at hremove
  split at hremove
  · exact (Prod.mk.inj hremove).2.symm
  · exact (Prod.mk.inj hremove).2.symm
  · exact (Prod.mk.inj hremove).2.symm
  · cases (Prod.mk.inj hremove).1
  · next place hfound =>
      have hlocation := location?_eq_some_iff.mpr ⟨_, hfound, rfl⟩
      have hemptied : tree.Cleared (tree.eraseInside place) dir := .of_eraseInside htree hlocation
      have hempty : (tree.eraseInside place).isEmptyAt place = true := by
        apply isEmptyAt_iff.mpr
        intro old hold
        simpa using (List.mem_filter.mp hold).2
      rw [locate, hdir.names_eq] at hfound
      simp only at hremove
      rcases hemptied.removeEmptyDir_eq hdir.isNormal hfound hempty with hremoved | hremoved
      · rw [hremoved] at hremove
        cases (Prod.mk.inj hremove).1
      · rw [hremoved] at hremove
        simp only [if_true] at hremove
        cases (Prod.mk.inj hremove).1

/-! ## What preparing comes to -/

/-- What preparing a directory comes to.  Either what stands there cannot be removed, or
its path leads nowhere and the directory is made. -/
theorem prepareDir_cases (htree : tree.WellFormed) (hdir : dir.IsNormal)
    (hprepare : tree.prepareDir dir = (result, prepared)) :
    (∃ e, result = .error e ∧ tree.Cleared prepared dir ∧ (dir.IsPlain → prepared = tree)) ∨
      ∃ removed, tree.Cleared removed dir ∧ removed.resolve? dir = none ∧
        removed.makeDirAll dir = (result, prepared) := by
  unfold prepareDir at hprepare
  split at hprepare
  · split at hprepare
    · next e removed hremove =>
        obtain ⟨rfl, rfl⟩ := Prod.mk.inj hprepare
        exact .inl ⟨e, rfl, (cleared_of_removeDirAll htree hdir hremove).1,
          fun hplain => eq_of_removeDirAll_error htree hplain hremove⟩
    · next removed hremove =>
        obtain ⟨hcleared, hresolve⟩ := cleared_of_removeDirAll htree hdir hremove
        exact .inr ⟨removed, hcleared, hresolve rfl, hprepare⟩
  · next hresolve =>
      rw [Bool.not_eq_true, Option.isSome_eq_false_iff, Option.isNone_iff_eq_none] at hresolve
      exact .inr ⟨tree, .refl htree, hresolve, hprepare⟩

theorem isDir_of_resolve? (hresolve : tree.resolve? dir = none) : tree.isDir dir = false := by
  rw [isDir, hresolve]
  rfl

theorem exists_cleared_of_prepareDir (htree : tree.WellFormed) (hdir : dir.IsNormal)
    (hprepare : tree.prepareDir dir = (result, prepared)) :
    ∃ removed, tree.Cleared removed dir ∧
      (prepared = removed ∨ ∃ first, removed.Grows prepared dir.upward first) := by
  rcases prepareDir_cases htree hdir hprepare with
    ⟨e, -, hcleared, -⟩ | ⟨removed, hcleared, hresolve, hmake⟩
  · exact ⟨prepared, hcleared, .inl rfl⟩
  · refine ⟨removed, hcleared, ?_⟩
    cases making_of_makeDirAll hcleared.wellFormed hdir (isDir_of_resolve? hresolve) hmake with
    | nothing => exact .inl rfl
    | part hgrows => exact .inr ⟨_, hgrows⟩
    | all hbase habsent hnew hgrows => exact .inr ⟨_, hgrows⟩

theorem workingDir_of_prepareDir (htree : tree.WellFormed) (hdir : dir.IsNormal)
    (hprepare : tree.prepareDir dir = (result, prepared)) :
    prepared.workingDir = tree.workingDir := by
  obtain ⟨removed, hcleared, rfl | ⟨first, hgrows⟩⟩ :=
    exists_cleared_of_prepareDir htree hdir hprepare
  · exact hcleared.workingDir_eq
  · exact hgrows.workingDir_eq.trans hcleared.workingDir_eq

/-! ## What is lost and what is added -/

theorem Cleared.kept_or_lost (hcleared : tree.Cleared removed dir)
    (hget : tree.get? place = some entry) :
    removed.get? place = some entry ∨
      ∃ outer, tree.location? dir = some outer ∧ outer <+: place := by
  cases hleft : removed.get? place with
  | none => exact .inr (hcleared.lost place entry hget hleft)
  | some old => exact .inl ((hcleared.less place old hleft).symm.trans hget)

/-- Nothing is lost that stands elsewhere. -/
theorem kept_of_prepareDir (htree : tree.WellFormed) (hdir : dir.IsNormal)
    (hprepare : tree.prepareDir dir = (result, prepared)) (hget : tree.get? place = some entry) :
    prepared.get? place = some entry ∨
      ∃ outer, tree.location? dir = some outer ∧ outer <+: place := by
  obtain ⟨removed, hcleared, rfl | ⟨first, hgrows⟩⟩ :=
    exists_cleared_of_prepareDir htree hdir hprepare
  · exact hcleared.kept_or_lost hget
  · exact (hcleared.kept_or_lost hget).imp_left fun hleft => hgrows.kept place entry hleft

/-- What was not there before is a directory. -/
theorem get?_of_prepareDir (htree : tree.WellFormed) (hdir : dir.IsNormal)
    (hprepare : tree.prepareDir dir = (result, prepared))
    (hget : prepared.get? place = some entry) :
    tree.get? place = some entry ∨ entry = .dir := by
  obtain ⟨removed, hcleared, rfl | ⟨first, hgrows⟩⟩ :=
    exists_cleared_of_prepareDir htree hdir hprepare
  · exact .inl (hcleared.less place entry hget)
  · cases hleft : removed.get? place with
    | none => exact .inr (hgrows.added place entry hget hleft).1
    | some old =>
        obtain rfl : old = entry := Option.some.inj ((hgrows.kept place old hleft).symm.trans hget)
        exact .inl (hcleared.less place old hleft)

/-- If a path has a location, a directory on the way that is missing once something is
taken away is missing there or below. -/
theorem Cleared.prefix_of_absent {outer parent : Location} {name : String} {above : Path}
    (hcleared : tree.Cleared removed dir) (hdir : dir.IsPlain)
    (hlocation : tree.location? dir = some outer) (habove : above ∈ dir.upward)
    (habsent : removed.locateNames .inspect above above.named = .ok (.absent parent name)) :
    outer <+: parent ++ [name] := by
  obtain ⟨stop, hstop, rfl⟩ := location?_eq_some_iff.mp hlocation
  obtain ⟨-, hreaches⟩ := locate_eq_ok_iff.mp hstop
  obtain ⟨-, habsent'⟩ := locateNames_eq_ok_iff.mp habsent
  obtain ⟨inner, hupward, hdirs⟩ := hdir.isNormal.isUpward
  obtain ⟨habsolute, more, hmore⟩ := hdirs.exists_append (hupward ▸ habove)
  rw [hdir.names_eq, hmore] at hreaches
  rw [startOf_congr hcleared.workingDir_eq habsolute] at habsent'
  rcases habsent'.absent_of_less hcleared.less with hbefore | ⟨entry, hentry⟩
  · by_cases hlast : more = []
    · -- It is the path itself that leads to nothing.
      rw [hlast, List.append_nil] at hreaches
      rw [hreaches.unique hbefore]
      exact List.prefix_refl _
    · obtain ⟨mid, fewer, hfound, -⟩ := hreaches.split hlast
      obtain ⟨place, entry, hinspect⟩ := hfound.exists_found
      cases hinspect.unique hbefore
  · obtain ⟨outer', hlocation', hprefix⟩ :=
      hcleared.lost _ entry hentry (get?_of_absent habsent).2
    obtain rfl := Option.some.inj (hlocation'.symm.trans hlocation)
    exact hprefix

/-- What is added stands at the location of the directory or below.  If the path has
none, it is the directory itself or one on the way to it, which did not exist. -/
theorem added_of_prepareDir (htree : tree.WellFormed) (hdir : dir.IsPlain)
    (hprepare : tree.prepareDir dir = (result, prepared))
    (hget : prepared.get? place = some entry) (hnone : tree.get? place = none) :
    entry = .dir ∧
      match tree.location? dir with
      | some outer => outer <+: place
      | none => ∃ above ∈ dir.upward, tree.resolve? above = none ∧
          prepared.locateNames .inspect above above.named = .ok (.found place .dir) := by
  obtain ⟨removed, hcleared, rfl | ⟨first, hgrows⟩⟩ :=
    exists_cleared_of_prepareDir htree hdir.isNormal hprepare
  · rw [hcleared.less place entry hget] at hnone
    cases hnone
  obtain ⟨hentry, hfirst, above, habove, hfound⟩ :=
    hgrows.added place entry hget (hcleared.less.get?_eq_none hnone)
  refine ⟨hentry, ?_⟩
  split
  · next outer hlocation =>
      obtain ⟨missing, hmissing, parent, name, rfl, habsent⟩ := hgrows.missing
      exact (hcleared.prefix_of_absent hdir hlocation hmissing habsent).trans hfirst
  · next hlocation =>
      -- Without a location, nothing is lost.
      have hkept : tree.IsPartOf prepared := by
        intro place entry hget
        rcases kept_of_prepareDir htree hdir.isNormal hprepare hget with hkept | ⟨outer, hsome, -⟩
        · exact hkept
        · rw [hlocation] at hsome
          cases hsome
      have hworking := workingDir_of_prepareDir htree hdir.isNormal hprepare
      exact ⟨above, habove, hkept.resolve?_eq_none hworking.symm hfound hnone, hfound⟩

/-! ## A directory that is prepared -/

/-- Whether `prepared` is what preparing a directory makes of `tree`.  The directory is
empty, and where it stands there was nothing or what had to be removed. -/
structure Prepared (tree prepared : FileTree) (dir : Path) (place : Location) : Prop where
  fresh : prepared.IsFresh dir place
  inspected : prepared.locateNames .inspect dir dir.named = .ok (.found place .dir)
  former : ∀ entry, tree.get? place = some entry →
    ∃ outer, tree.location? dir = some outer ∧ outer <+: place
  remade : (prepared.erase place).makeDirAll dir = (.ok (), prepared)

theorem prepared_of_prepareDir (htree : tree.WellFormed) (hdir : dir.IsNormal)
    (hprepare : tree.prepareDir dir = (.ok (), prepared)) :
    ∃ place, tree.Prepared prepared dir place := by
  rcases prepareDir_cases htree hdir hprepare with
    ⟨e, hfailed, -⟩ | ⟨removed, hcleared, hresolve, hmake⟩
  · cases hfailed
  · cases making_of_makeDirAll hcleared.wellFormed hdir (isDir_of_resolve? hresolve) hmake with
    | @all base first parent name hbase habsent hnew hgrows =>
        refine ⟨parent ++ [name], isFresh_insert hbase habsent, locateNames_insert habsent,
          fun entry hget => hcleared.lost _ entry hget hnew, ?_⟩
        rw [erase_insert .dir (by simp) (get?_of_absent habsent).2]
        obtain ⟨above, hupward, -⟩ := hdir.isUpward
        rw [makeDirAll, hupward, makeOutermost, makeDir_eq_ok_iff.mpr ⟨_, _, habsent, rfl⟩]
        rfl

theorem isFresh_of_prepareDir (htree : tree.WellFormed) (hdir : dir.IsNormal)
    (hprepare : tree.prepareDir dir = (.ok (), prepared)) :
    ∃ place, prepared.IsFresh dir place := by
  obtain ⟨place, hprepared⟩ := prepared_of_prepareDir htree hdir hprepare
  exact ⟨place, hprepared.fresh⟩

/-- If the path had a location, the directory stands there or below. -/
theorem Prepared.prefix_of_location? {outer : Location}
    (hprepared : tree.Prepared prepared dir place) (htree : tree.WellFormed) (hdir : dir.IsPlain)
    (hprepare : tree.prepareDir dir = (result, prepared))
    (hlocation : tree.location? dir = some outer) : outer <+: place := by
  cases hbefore : tree.get? place with
  | some old =>
      obtain ⟨outer', hlocation', hprefix⟩ := hprepared.former old hbefore
      obtain rfl := Option.some.inj (hlocation'.symm.trans hlocation)
      exact hprefix
  | none =>
      have hget : prepared.get? place = some .dir :=
        (locate_eq_ok_iff.mp hprepared.fresh.located).2.get?_of_found
      obtain ⟨-, hadded⟩ := added_of_prepareDir htree hdir hprepare hget hbefore
      rw [hlocation] at hadded
      exact hadded

/-- Preparing a directory again takes away what was put inside of it since, and nothing
else. -/
theorem Prepared.again (hprepared : tree.Prepared prepared dir place) (hdir : dir.IsPlain)
    (hfinal : final.eraseInside place = prepared) :
    final.prepareDir dir = (.ok (), prepared) := by
  obtain ⟨hfresh, hinspected, -, hremade⟩ := hprepared
  have hkept : prepared.IsPartOf final := isPartOf_of_eraseInside hfinal
  have hworking : final.workingDir = prepared.workingDir := by rw [← hfinal]; rfl
  have hresolve : final.resolve? dir = some .dir :=
    resolve?_eq_some_iff.mpr ⟨place, hkept.locateNames hworking hfresh.located⟩
  have hfound : final.locate .inspect dir = .ok (.found place .dir) := by
    rw [locate, hdir.names_eq]
    exact hkept.locateNames hworking hinspected
  have hremove : prepared.removeEmptyDir dir = .ok (prepared.erase place) := by
    rw [removeEmptyDir_eq hdir.isNormal, hinspected]
    exact if_pos hfresh.empty
  have hremoved : final.removeDirAll dir = (.ok (), prepared.erase place) := by
    simp only [removeDirAll, hfound, hfinal, hremove]
  simp only [prepareDir, hresolve, Option.isSome_some, if_true, hremoved, hremade]

/-- Preparing a directory fails a second time as it did the first time. -/
theorem prepareDir_again_of_error {e : AccessError} (htree : tree.WellFormed) (hdir : dir.IsPlain)
    (hprepare : tree.prepareDir dir = (.error e, prepared)) :
    prepared.prepareDir dir = (.error e, prepared) := by
  rcases prepareDir_cases htree hdir.isNormal hprepare with
    ⟨e, -, -, hsame⟩ | ⟨removed, hcleared, hresolve, hmake⟩
  · rw [hsame hdir] at hprepare ⊢
    exact hprepare
  · obtain ⟨hresolve', hmake'⟩ :=
      makeDirAll_again hcleared.wellFormed hdir.isNormal hresolve hmake
    simp only [prepareDir, hresolve', Option.isSome_none, Bool.false_eq_true, if_false, hmake']

end FileTree

end NetlistSplit
