import NetlistSplit.Proofs.FileSystem.Ancestors
import NetlistSplit.Run

/-!
# The output directory is made anew or nothing is harmed

Preparing the output directory either leaves an empty directory in its place, or fails
without taking anything away (`prepareOutput_remade_or_unharmed`).  It is said of both what
may be added, which is no more than directories on the way that were missing, and when each
of them happens.

The path may lead to its directory over links, but not through the location of the directory
itself: a way that goes through there is gone once the directory is removed.
-/

namespace NetlistSplit.FileTree

open Walk

variable {tree prepared : FileTree} {dir : Path}

/-! ## What preparing comes to -/

/-- Whether at `place` there is a directory on the way to `dir` that was missing. -/
def IsMadeOnTheWay (tree prepared : FileTree) (dir : Path) (place : Location) : Prop :=
  ∃ above ∈ dir.upward.tail, tree.resolve? above = none ∧
    prepared.locate .inspect above = .ok (.found place .dir)

/-- Whether a directory is at `place`, empty and no link, and what is elsewhere is as it was, but
for directories on the way that were missing. -/
structure Remade (tree prepared : FileTree) (dir : Path) (place : Location) : Prop where
  located : prepared.locate .inspect dir = .ok (.found place .dir)
  empty : prepared.isEmptyAt place = true
  location_eq : ∀ outer, tree.location? dir = some outer → outer = place
  kept : ∀ other entry, ¬ place <+: other → tree.get? other = some entry →
    prepared.get? other = some entry
  added : ∀ other entry, ¬ place <+: other → prepared.get? other = some entry →
    tree.get? other = none → entry = .dir ∧ tree.IsMadeOnTheWay prepared dir other

/-- Whether everything is as it was, but for directories on the way that were missing. -/
structure Unharmed (tree prepared : FileTree) (dir : Path) : Prop where
  kept : tree.IsPartOf prepared
  added : ∀ other entry, prepared.get? other = some entry → tree.get? other = none →
    entry = .dir ∧ tree.IsMadeOnTheWay prepared dir other

/-- Whether something stands at a path, be it a link that leads nowhere. -/
def Holds (tree : FileTree) (path : Path) : Prop :=
  ∃ place entry, tree.locate .inspect path = .ok (.found place entry)

/-- Whether a directory cannot be made: a file or a link that leads nowhere stands in its place,
or on the way to it something that is no directory and leads to none. -/
def IsObstructed (tree : FileTree) (dir : Path) : Prop :=
  (∃ place content, tree.locate .inspect dir = .ok (.found place (.file content))) ∨
  (∃ place target, tree.locate .inspect dir = .ok (.found place (.link target)) ∧
    tree.resolve? dir = none) ∨
  ∃ above ∈ dir.upward.tail, tree.Holds above ∧ tree.isDir above = false

/-- Whether a directory can be made anew: the path leads to a directory, over a link to a file, or
nothing stands there while all that exists on the way is a directory, and the system takes the path
and each of its names. -/
def IsFree (tree : FileTree) (dir : Path) : Prop :=
  tree.isDir dir = true ∨
  (∃ place target content, tree.locate .inspect dir = .ok (.found place (.link target)) ∧
    tree.resolve? dir = some (.file content)) ∨
  (¬ tree.Holds dir ∧ tree.get? (tree.startOf dir) = some .dir ∧
    (∀ above ∈ dir.upward.tail, tree.Holds above → tree.isDir above = true) ∧
    dir.IsAccepted ∧ ∀ name ∈ dir.names, name.utf8ByteSize ≤ nameLimit)

/-! ## Success -/

/-- Where nothing stands a path leads nowhere. -/
theorem resolve?_of_not_holds (hdir : dir.IsPlain) (hnot : ¬ tree.Holds dir) :
    tree.resolve? dir = none := by
  apply resolve?_eq_none
  intro place entry hfound
  rw [← hdir.names_eq] at hfound
  exact hnot ⟨place, entry, hfound⟩

theorem not_holds_of_location? (hlocation : tree.location? dir = none) : ¬ tree.Holds dir := by
  rintro ⟨place, entry, hfound⟩
  rw [location?_eq_some_iff.mpr ⟨_, hfound, rfl⟩] at hlocation
  cases hlocation

theorem prepareDir_of_resolve? (hresolve : tree.resolve? dir = none) :
    tree.prepareDir dir = tree.makeDirAll dir := by
  simp only [prepareDir, hresolve, Option.isSome_none, Bool.false_eq_true, if_false]

section Outcome

variable (htree : tree.WellFormed) (hdir : dir.IsPlain) (hclear : ¬ tree.LeadsThroughItself dir)

include htree hdir

/-- What is added is on the way to the directory or at its location. -/
theorem isMadeOnTheWay_of_added {result : Except AccessError Unit} {other : Location}
    {entry : Entry} (hprepare : tree.prepareDir dir = (result, prepared))
    (hlocation : tree.location? dir = none) (hget : prepared.get? other = some entry)
    (hnone : tree.get? other = none) :
    entry = .dir ∧ (prepared.locate .inspect dir = .ok (.found other .dir) ∨
      tree.IsMadeOnTheWay prepared dir other) := by
  obtain ⟨hentry, hadded⟩ := added_of_prepareDir htree hdir hprepare hget hnone
  rw [hlocation] at hadded
  obtain ⟨above, habove, hunresolved, hfound⟩ := hadded
  refine ⟨hentry, ?_⟩
  obtain ⟨inner, hupward, -⟩ := hdir.isNormal.isUpward
  rcases List.mem_cons.mp (hupward ▸ habove) with rfl | hinner
  · rw [locate, hdir.names_eq]
    exact .inl hfound
  · have htail : above ∈ dir.upward.tail := by
      rw [hupward]
      exact hinner
    refine .inr ⟨above, htail, hunresolved, ?_⟩
    rw [locate, Path.names_eq_of_mem_tail hdir.isNormal htail]
    exact hfound

include hclear

/-- If the path had a location, the directory is made there. -/
theorem Prepared.eq_of_location? {place outer : Location}
    (hprepared : tree.Prepared prepared dir place)
    (hprepare : tree.prepareDir dir = (.ok (), prepared))
    (hlocation : tree.location? dir = some outer) : outer = place := by
  obtain ⟨stop, hstop, hplace⟩ := location?_eq_some_iff.mp hlocation
  obtain ⟨parent, name, hends, rfl⟩ := exists_endsIn_of_locate hdir hstop
  rw [lookUp_place] at hplace
  -- The way to the directory is left as it was.
  have hends' : prepared.EndsIn dir parent name := by
    refine hends.of_kept hdir hclear (workingDir_of_prepareDir htree hdir.isNormal hprepare) ?_
    intro other entry houtside hget
    rcases kept_of_prepareDir htree hdir.isNormal hprepare hget with
      hkept | ⟨outer', hsome, hbelow⟩
    · exact hkept
    · obtain rfl := Option.some.inj (hsome.symm.trans hlocation)
      exact absurd (hplace ▸ hbelow) houtside
  have hlookUp := Except.ok.inj (hends'.locateNames_eq.symm.trans hprepared.inspected)
  rw [← hplace, ← lookUp_place prepared parent name, hlookUp]
  rfl

theorem exists_remade (hprepare : tree.prepareDir dir = (.ok (), prepared)) :
    ∃ place, tree.Remade prepared dir place := by
  obtain ⟨place, hprepared⟩ := prepared_of_prepareDir htree hdir.isNormal hprepare
  have hlocated : prepared.locate .inspect dir = .ok (.found place .dir) := by
    rw [locate, hdir.names_eq]
    exact hprepared.inspected
  have hlocation : ∀ outer, tree.location? dir = some outer → outer = place :=
    fun outer houter => hprepared.eq_of_location? htree hdir hclear hprepare houter
  refine ⟨place, hlocated, hprepared.fresh.empty, hlocation, ?_, ?_⟩
  · intro other entry houtside hget
    rcases kept_of_prepareDir htree hdir.isNormal hprepare hget with hkept | ⟨outer, houter, hbelow⟩
    · exact hkept
    · exact absurd (hlocation outer houter ▸ hbelow) houtside
  · intro other entry houtside hget hnone
    cases hnowhere : tree.location? dir with
    | some outer =>
        obtain ⟨-, hadded⟩ := added_of_prepareDir htree hdir hprepare hget hnone
        rw [hnowhere] at hadded
        exact absurd (hlocation outer hnowhere ▸ hadded) houtside
    | none =>
        obtain ⟨hentry, hself | hway⟩ :=
          isMadeOnTheWay_of_added htree hdir hprepare hnowhere hget hnone
        · obtain ⟨rfl, -⟩ := End.found.inj (Except.ok.inj (hself.symm.trans hlocated))
          exact absurd (List.prefix_refl _) houtside
        · exact ⟨hentry, hway⟩

/-! ## Failure -/

theorem unharmed_of_prepareDir {e : AccessError}
    (hprepare : tree.prepareDir dir = (.error e, prepared)) : tree.Unharmed prepared dir := by
  cases hlocation : tree.location? dir with
  | some outer =>
      obtain ⟨stop, hstop, -⟩ := location?_eq_some_iff.mp hlocation
      obtain ⟨parent, name, hends, -⟩ := exists_endsIn_of_locate hdir hstop
      obtain rfl := hends.eq_of_prepareDir_error hdir hclear hprepare
      refine ⟨fun place entry hget => hget, fun other entry hget hnone => ?_⟩
      rw [hnone] at hget
      cases hget
  | none =>
      have hresolve := resolve?_of_not_holds hdir (not_holds_of_location? hlocation)
      constructor
      · intro place entry hget
        rcases kept_of_prepareDir htree hdir.isNormal hprepare hget with hkept | ⟨outer, hsome, -⟩
        · exact hkept
        · rw [hlocation] at hsome
          cases hsome
      · intro other entry hget hnone
        obtain ⟨hentry, hself | hway⟩ :=
          isMadeOnTheWay_of_added htree hdir hprepare hlocation hget hnone
        · -- A directory that could not be made does not exist.
          rw [prepareDir_of_resolve? hresolve] at hprepare
          obtain ⟨hnowhere, -⟩ := makeDirAll_again htree hdir.isNormal hresolve hprepare
          rw [locate, hdir.names_eq] at hself
          rw [resolve?_eq_some_iff.mpr ⟨other, locate_of_inspected hself⟩] at hnowhere
          cases hnowhere
        · exact ⟨hentry, hway⟩

omit htree in
theorem prepareDir_of_isObstructed (hobstructed : tree.IsObstructed dir) :
    ∃ e, tree.prepareDir dir = (.error e, tree) := by
  rcases hobstructed with ⟨place, content, hfound⟩ | ⟨place, target, hfound, hresolve⟩ |
    ⟨above, habove, hholds, hnot⟩
  · obtain ⟨parent, name, hends, hstop⟩ := exists_endsIn_of_locate hdir hfound
    rw [hends.prepareDir_eq hdir hclear, remake, get?_of_lookUp hstop]
    exact ⟨_, rfl⟩
  · obtain ⟨parent, name, hends, hstop⟩ := exists_endsIn_of_locate hdir hfound
    rw [hends.prepareDir_eq hdir hclear, remake, get?_of_lookUp hstop]
    simp only [hresolve, Option.isSome_none, Bool.false_eq_true, if_false]
    exact ⟨_, rfl⟩
  · have hblocked : tree.IsBlocked above := by
      obtain ⟨place, entry, hfound⟩ := hholds
      rw [locate, Path.names_eq_of_mem_tail hdir.isNormal habove] at hfound
      exact ⟨⟨place, entry, hfound⟩, hnot⟩
    obtain ⟨inner, hupward, hdirs⟩ := hdir.isNormal.isUpward
    rw [hupward, List.tail_cons] at habove
    obtain ⟨hsame, more, hmore, hbehind⟩ := hdirs.exists_behind habove
    rw [prepareDir_of_resolve? (hblocked.resolve?_eq hsame hbehind hmore)]
    exact hblocked.makeDirAll_eq hdir.isNormal (hupward ▸ List.mem_cons_of_mem dir habove)

/-! ## When it succeeds -/

omit htree hclear in
/-- A directory that is missing can be made if all that exists on the way is a directory. -/
theorem canBeMade_of_not_holds (hnot : ¬ tree.Holds dir)
    (hstart : tree.get? (tree.startOf dir) = some .dir)
    (hway : ∀ above ∈ dir.upward.tail, tree.Holds above → tree.isDir above = true)
    (haccepted : dir.IsAccepted) (hlength : ∀ name ∈ dir.names, name.utf8ByteSize ≤ nameLimit) :
    tree.CanBeMade dir.upward := by
  obtain ⟨inner, hupward, hdirs⟩ := hdir.isNormal.isUpward
  rw [hdir.names_eq] at hlength
  have htail : ∀ {above}, above ∈ inner → above ∈ dir.upward.tail := by
    intro above habove
    rw [hupward]
    exact habove
  rw [hupward]
  constructor
  · exact List.forall_mem_cons.mpr ⟨haccepted,
      fun above habove => Path.isAccepted_of_mem_tail hdir.isNormal (htail habove) haccepted⟩
  · refine List.forall_mem_cons.mpr ⟨hlength, fun above habove name hname => ?_⟩
    obtain ⟨-, more, -, hbehind⟩ := hdirs.exists_behind habove
    exact hlength name (hbehind ▸ List.mem_append_left more hname)
  · refine List.forall_mem_cons.mpr ⟨hstart, fun above habove => ?_⟩
    rw [startOf_congr rfl (hdirs.exists_behind habove).1]
    exact hstart
  · refine List.forall_mem_cons.mpr ⟨fun place entry hfound => ?_,
      fun above habove place entry hfound => hway above (htail habove) ⟨place, entry, ?_⟩⟩
    · rw [← hdir.names_eq] at hfound
      exact absurd ⟨place, entry, hfound⟩ hnot
    · rw [locate, Path.names_eq_of_mem_tail hdir.isNormal (htail habove)]
      exact hfound

theorem prepareDir_of_isFree (hfree : tree.IsFree dir) :
    ∃ prepared, tree.prepareDir dir = (.ok (), prepared) := by
  rcases hfree with hisDir | ⟨place, target, content, hfound, hresolve⟩ |
    ⟨hnot, hstart, hway, haccepted, hlength⟩
  · have hresolve : tree.resolve? dir = some .dir := of_decide_eq_true hisDir
    obtain ⟨place, entry, hfound⟩ := exists_named_of_resolve? hresolve
    obtain ⟨parent, name, hends, hstop⟩ := exists_endsIn hdir.isNormal hfound
    have hget := get?_of_lookUp hstop
    rw [hends.prepareDir_eq hdir hclear, remake, hget]
    cases entry with
    | dir => exact ⟨_, rfl⟩
    | link target =>
        simp only [hresolve, Option.isSome_some, if_true]
        exact ⟨_, rfl⟩
    | file content =>
        have hfile := hends.resolve?_of_some hdir hget (by simp)
        rw [hresolve] at hfile
        cases hfile
  · obtain ⟨parent, name, hends, hstop⟩ := exists_endsIn_of_locate hdir hfound
    rw [hends.prepareDir_eq hdir hclear, remake, get?_of_lookUp hstop]
    simp only [hresolve, Option.isSome_some, if_true]
    exact ⟨_, rfl⟩
  · have hresolve := resolve?_of_not_holds hdir hnot
    rw [prepareDir_of_resolve? hresolve]
    exact makeDirAll_of_missing (canBeMade_of_not_holds hdir hnot hstart hway haccepted hlength)
      htree hdir.isNormal (isDir_of_resolve? hresolve)

end Outcome

/-- Preparing the output directory leaves an empty directory in its place or takes nothing away.
It fails if the directory is obstructed and succeeds if it is free. -/
theorem prepareOutput_remade_or_unharmed (htree : tree.WellFormed) (hdir : dir.IsPlain)
    (hclear : ¬ tree.LeadsThroughItself dir) :
    (match tree.prepareOutput dir with
      | (.ok (), prepared) => ∃ place, tree.Remade prepared dir place
      | (.error _, prepared) => tree.Unharmed prepared dir) ∧
    (tree.IsObstructed dir → ∃ e, (tree.prepareOutput dir).1 = .error e) ∧
    (tree.IsFree dir → (tree.prepareOutput dir).1 = .ok ()) := by
  refine ⟨?_, fun hobstructed => ?_, fun hfree => ?_⟩
  · unfold prepareOutput
    rcases hprepare : tree.prepareDir dir with ⟨(e | ⟨⟩), prepared⟩
    · exact unharmed_of_prepareDir htree hdir hclear hprepare
    · exact exists_remade htree hdir hclear hprepare
  · obtain ⟨e, hprepare⟩ := prepareDir_of_isObstructed hdir hclear hobstructed
    rw [prepareOutput, hprepare]
    exact ⟨_, rfl⟩
  · obtain ⟨prepared, hprepare⟩ := prepareDir_of_isFree htree hdir hclear hfree
    rw [prepareOutput, hprepare]

/-- An output directory that is led to over a link. -/
def aliasedTree : FileTree :=
  ⟨[(["alias"], .link "real"), (["real"], .dir), (["real", "out"], .dir),
    (["real", "out", "old.v"], .file [])], []⟩

/-- The directory is made anew behind the link. -/
theorem prepareOutput_aliasedTree :
    aliasedTree.WellFormed ∧ Path.IsPlain ⟨"alias/out"⟩ ∧
      ¬ aliasedTree.LeadsThroughItself ⟨"alias/out"⟩ ∧ aliasedTree.IsFree ⟨"alias/out"⟩ ∧
      (aliasedTree.prepareOutput ⟨"alias/out"⟩).1 = .ok () ∧
      ∃ place, aliasedTree.Remade (aliasedTree.prepareOutput ⟨"alias/out"⟩).2 ⟨"alias/out"⟩
        place := by
  have htree : aliasedTree.WellFormed := by decide
  have hdir : Path.IsPlain ⟨"alias/out"⟩ := by decide
  have hclear : ¬ aliasedTree.LeadsThroughItself ⟨"alias/out"⟩ := by
    have hlocation : aliasedTree.location? ⟨"alias/out"⟩ = some ["real", "out"] := by decide +kernel
    have hpassed : ∀ place ∈ aliasedTree.passed linkLimit (aliasedTree.startOf ⟨"alias/out"⟩)
        (Path.named ⟨"alias/out"⟩).dropLast, ¬ ["real", "out"] <+: place := by decide +kernel
    rintro ⟨outer, houter, place, hplace, hbelow⟩
    obtain rfl := Option.some.inj (houter.symm.trans hlocation)
    exact hpassed place hplace hbelow
  have hfree : aliasedTree.IsFree ⟨"alias/out"⟩ := .inl (by decide +kernel)
  refine ⟨htree, hdir, hclear, hfree, ?_⟩
  have hprepare := prepareOutput_remade_or_unharmed htree hdir hclear
  generalize aliasedTree.prepareOutput ⟨"alias/out"⟩ = outcome at hprepare ⊢
  obtain ⟨hremade, -, hsuccess⟩ := hprepare
  obtain ⟨result, prepared⟩ := outcome
  cases result with
  | error e => cases hsuccess hfree
  | ok _ => exact ⟨rfl, hremade⟩

end NetlistSplit.FileTree
