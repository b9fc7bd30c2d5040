import NetlistSplit.FileSystem.Directory
import NetlistSplit.Proofs.FileSystem.Growth
import NetlistSplit.Proofs.FileSystem.WalkParts

/-!
# Directories are made one in another

Making a directory and those on the way to it comes to one of three things
(`Making`): nothing is made, all of them are, the directory itself last, or they are
made up to one whose name is too long.  Nothing is made but these directories, and
they stand one in another (`Grows`).

## Strategy

The outermost directory that is made stands where nothing stood, so nothing is
inside of it (`isFresh_insert`).  In a directory with nothing inside, the next one
is missing too, and is made there unless its name is too long
(`IsFresh.absent_or_isStuck`).  So none of them can turn out to exist already
(`making_of_makeOutermost`).
-/

namespace NetlistSplit.FileTree

open Walk

variable {tree made mid final : FileTree} {dir outer : Path} {above later dirs : List Path}
  {first place parent : Location} {name : String}

theorem directoryNames_eq (path : Path) : directoryNames path = path.named := by
  have hfilter : path.named.filter (· ≠ "") = path.named := by simp [Path.named]
  rw [directoryNames]
  rcases path.names_eq_or with hnames | hnames
  · rw [hnames, hfilter]
  · rw [hnames, List.filter_append, hfilter]
    simp

/-! ## One directory -/

theorem makeDir_eq_ok_iff :
    tree.makeDir dir = .ok made ↔ ∃ parent name,
      tree.locateNames .inspect dir dir.named = .ok (.absent parent name) ∧
        made = tree.insert (parent ++ [name]) .dir := by
  rw [makeDir, directoryNames_eq]
  constructor
  · intro hmake
    split at hmake
    · cases hmake
    · next parent name habsent => exact ⟨parent, name, habsent, (Except.ok.inj hmake).symm⟩
    · cases hmake
  · rintro ⟨parent, name, habsent, rfl⟩
    rw [habsent]

theorem makeDir_of_isDir (hdir : tree.isDir dir = true) :
    tree.makeDir dir = .error (.system .entryExists) := by
  obtain ⟨place, entry, hfound⟩ := exists_named_of_resolve? (of_decide_eq_true hdir)
  rw [makeDir, directoryNames_eq, hfound]

/-- A path along which a walk goes at all is one that the system takes. -/
theorem isAccepted_of_makeDir (hdir : dir.IsNormal)
    (hmake : tree.makeDir dir = .error (.system .noSuchEntry)) : dir.IsAccepted := by
  have htext : dir.text ≠ "" := fun hempty => hdir.text_ne (by rw [hempty]; rfl)
  refine ⟨fun hnul => ?_, htext, Nat.le_of_not_lt fun hlength => ?_⟩
  · rw [makeDir, locateNames, if_pos hnul] at hmake
    exact absurd (Except.error.inj hmake) (by decide)
  · by_cases hnul : '\x00' ∈ dir.text.toList
    · rw [makeDir, locateNames, if_pos hnul] at hmake
      exact absurd (Except.error.inj hmake) (by decide)
    · rw [makeDir, locateNames, if_neg hnul, if_neg htext, if_pos hlength] at hmake
      exact absurd (Except.error.inj hmake) (by decide)

/-! ## What is added -/

/-- Whether `final` holds what `tree` holds and besides only directories.  One of the
`dirs` is missing at `first`, and what is added stands there or below, where some of
the `dirs` lead to now. -/
structure Grows (tree final : FileTree) (dirs : List Path) (first : Location) : Prop where
  workingDir_eq : final.workingDir = tree.workingDir
  kept : tree.IsPartOf final
  added : ∀ place entry, final.get? place = some entry → tree.get? place = none →
    entry = .dir ∧ first <+: place ∧
      ∃ dir ∈ dirs, final.locateNames .inspect dir dir.named = .ok (.found place .dir)
  missing : ∃ dir ∈ dirs, ∃ parent name, first = parent ++ [name] ∧
    tree.locateNames .inspect dir dir.named = .ok (.absent parent name)

section Insert

variable (habsent : tree.locateNames .inspect dir dir.named = .ok (.absent parent name))

include habsent

theorem get?_of_absent : tree.get? parent = some .dir ∧ tree.get? (parent ++ [name]) = none :=
  (locateNames_eq_ok_iff.mp habsent).2.get?_of_absent

/-- The path of a directory that is made leads to it. -/
theorem locateNames_insert :
    (tree.insert (parent ++ [name]) .dir).locateNames .inspect dir dir.named =
      .ok (.found (parent ++ [name]) .dir) := by
  obtain ⟨haccepted, hreaches⟩ := locateNames_eq_ok_iff.mp habsent
  exact locateNames_eq_ok_iff.mpr ⟨haccepted, hreaches.found_insert fun target heq => nomatch heq⟩

theorem Grows.of_insert (hmem : dir ∈ dirs) :
    tree.Grows (tree.insert (parent ++ [name]) .dir) dirs (parent ++ [name]) where
  workingDir_eq := rfl
  kept := isPartOf_insert .dir (get?_of_absent habsent).2
  added := by
    intro place entry hget hnone
    by_cases hplace : place = parent ++ [name]
    · subst hplace
      rw [get?_insert_self tree .dir (by simp)] at hget
      exact ⟨(Option.some.inj hget).symm, List.prefix_refl _, dir, hmem, locateNames_insert habsent⟩
    · rw [get?_insert_of_ne tree .dir hplace, hnone] at hget
      cases hget
  missing := ⟨dir, hmem, parent, name, rfl, habsent⟩

/-- One more directory is made where those before it are. -/
theorem Grows.insert {start : FileTree} (hgrows : start.Grows tree dirs first)
    (hfirst : first <+: parent) :
    start.Grows (tree.insert (parent ++ [name]) .dir) (dir :: dirs) first where
  workingDir_eq := hgrows.workingDir_eq
  kept := fun place entry hget =>
    isPartOf_insert .dir (get?_of_absent habsent).2 _ _ (hgrows.kept place entry hget)
  added := by
    intro place entry hget hnone
    have hstep := Grows.of_insert habsent (List.mem_singleton_self dir)
    cases hbefore : tree.get? place with
    | none =>
        obtain ⟨hentry, hplace, dir', hmem, hfound⟩ := hstep.added place entry hget hbefore
        obtain rfl := List.mem_singleton.mp hmem
        exact ⟨hentry, (hfirst.trans (List.prefix_append _ _)).trans hplace, dir',
          List.mem_cons_self, hfound⟩
    | some old =>
        obtain rfl : old = entry := Option.some.inj ((hstep.kept place old hbefore).symm.trans hget)
        obtain ⟨hentry, hplace, dir', hmem, hfound⟩ := hgrows.added place old hbefore hnone
        exact ⟨hentry, hplace, dir', List.mem_cons_of_mem dir hmem,
          hstep.kept.locateNames hstep.workingDir_eq hfound⟩
  missing := by
    obtain ⟨dir', hmem, hmissing⟩ := hgrows.missing
    exact ⟨dir', List.mem_cons_of_mem dir hmem, hmissing⟩

end Insert

theorem Grows.mono (hgrows : tree.Grows final above first) (hdirs : above ⊆ dirs) :
    tree.Grows final dirs first where
  workingDir_eq := hgrows.workingDir_eq
  kept := hgrows.kept
  added := by
    intro place entry hget hnone
    obtain ⟨hentry, hplace, dir, hmem, hfound⟩ := hgrows.added place entry hget hnone
    exact ⟨hentry, hplace, dir, hdirs hmem, hfound⟩
  missing := by
    obtain ⟨dir, hmem, hmissing⟩ := hgrows.missing
    exact ⟨dir, hdirs hmem, hmissing⟩

/-! ## New directories are empty -/

/-- Whether a path leads to an empty directory. -/
structure IsFresh (tree : FileTree) (path : Path) (place : Location) : Prop where
  wellFormed : tree.WellFormed
  located : tree.locate .use path = .ok (.found place .dir)
  empty : tree.isEmptyAt place = true

theorem isFresh_insert (htree : tree.WellFormed)
    (habsent : tree.locateNames .inspect dir dir.named = .ok (.absent parent name)) :
    (tree.insert (parent ++ [name]) .dir).IsFresh dir (parent ++ [name]) := by
  obtain ⟨hparent, hnone⟩ := get?_of_absent habsent
  refine ⟨?_, locate_of_inspected (locateNames_insert habsent), ?_⟩
  · refine htree.insert .dir hnone ?_
    rw [List.dropLast_concat, hparent]
  · refine isEmptyAt_insert .dir (htree.isEmptyAt ?_)
    rw [hnone]
    exact fun heq => nomatch heq

/-! ## Names that are too long -/

/-- Whether no walk gets along a path, since it comes to a name that is too long. -/
structure IsStuck (tree : FileTree) (path : Path) : Prop where
  accepted : path.IsAccepted
  walk_eq : ∀ purpose more, purpose ≠ .write →
    tree.walk purpose linkLimit (tree.startOf path) (path.named ++ more) = .error .nameTooLong

theorem locateNames_of_isAccepted {purpose : Purpose} {path : Path} {names : List String}
    (haccepted : path.IsAccepted) :
    tree.locateNames purpose path names =
      (tree.walk purpose linkLimit (tree.startOf path) names).mapError .system := by
  rw [locateNames, if_neg haccepted.1, if_neg haccepted.2.1,
    if_neg (Nat.not_lt.mpr haccepted.2.2)]
  rfl

namespace IsStuck

theorem makeDir_eq (hstuck : tree.IsStuck dir) :
    tree.makeDir dir = .error (.system .nameTooLong) := by
  have hwalk := hstuck.walk_eq .inspect [] (by decide)
  rw [List.append_nil] at hwalk
  rw [makeDir, directoryNames_eq, locateNames_of_isAccepted hstuck.accepted, hwalk]
  rfl

theorem resolve?_eq (hstuck : tree.IsStuck dir) : tree.resolve? dir = none := by
  have hwalk : tree.walk .use linkLimit (tree.startOf dir) dir.names = .error .nameTooLong := by
    rcases dir.names_eq_or with hnames | hnames
    · rw [hnames, ← List.append_nil dir.named]
      exact hstuck.walk_eq .use [] (by decide)
    · rw [hnames]
      exact hstuck.walk_eq .use [""] (by decide)
  rw [resolve?, locate, locateNames_of_isAccepted hstuck.accepted, hwalk]
  rfl

/-- What is inside of a directory that cannot be reached cannot be either. -/
theorem inner (hstuck : tree.IsStuck outer) (haccepted : dir.IsAccepted)
    (habsolute : dir.isAbsolute = outer.isAbsolute) (hnamed : dir.named = outer.named ++ [name]) :
    tree.IsStuck dir where
  accepted := haccepted
  walk_eq := by
    intro purpose more hpurpose
    rw [hnamed, startOf_congr rfl habsolute, List.append_assoc]
    exact hstuck.walk_eq purpose _ hpurpose

theorem makeDirAll_eq (hstuck : tree.IsStuck dir) (hdir : dir.IsNormal) :
    tree.makeDirAll dir = (.error (.system .nameTooLong), tree) := by
  obtain ⟨above, hupward, -⟩ := hdir.isUpward
  rw [makeDirAll, hupward, makeOutermost, hstuck.makeDir_eq]
  rfl

end IsStuck

/-- In an empty directory the next one is missing, unless there can be none. -/
theorem IsFresh.absent_or_isStuck (hfresh : tree.IsFresh outer place) (hname : Path.IsName name)
    (haccepted : dir.IsAccepted) (habsolute : dir.isAbsolute = outer.isAbsolute)
    (hnamed : dir.named = outer.named ++ [name]) :
    tree.locateNames .inspect dir dir.named = .ok (.absent place name) ∨ tree.IsStuck dir := by
  have hstart : tree.startOf dir = tree.startOf outer := startOf_congr rfl habsolute
  obtain ⟨-, hfound⟩ := locateNames_eq_ok_iff.mp (named_of_locate hfresh.located)
  obtain ⟨fewer, hbehind⟩ := hfound.exists_walk_append
  have hdir := hfound.get?_of_found
  have hpurpose : ∀ {purpose : Purpose} {more : List String}, purpose ≠ .write →
      ¬ (purpose = .write ∧ endsAsDirectory name more = true) :=
    fun hpurpose hboth => hpurpose hboth.1
  rcases Nat.lt_or_ge nameLimit name.utf8ByteSize with hlength | hlength
  · refine .inr ⟨haccepted, fun purpose more hwrite => ?_⟩
    rw [hnamed, hstart, List.append_assoc,
      hbehind purpose _ (by simp) fun heq => absurd heq hwrite]
    exact walk_of_tooLong hdir (hpurpose hwrite) hname hlength
  · have hnone : tree.get? (place ++ [name]) = none :=
      get?_of_isEmptyAt hfresh.empty (Location.isInside_iff.mpr ⟨[name], by simp, rfl⟩)
    have hinspect : Purpose.inspect ≠ .write := by decide
    left
    rw [locateNames_of_isAccepted haccepted, hnamed, hstart,
      hbehind .inspect _ (by simp) fun heq => absurd heq hinspect,
      walk_of_absent hdir (hpurpose hinspect) hname hlength hnone]
    rfl

/-! ## A branch -/

/-- What making a directory that does not exist, and those on the way to it, comes
to. -/
inductive Making (tree : FileTree) (dir : Path) (dirs : List Path) :
    (outcome : Except AccessError Unit) → (final : FileTree) → Prop where
  /-- Nothing is made. -/
  | nothing (e : AccessError) : Making tree dir dirs (.error e) tree
  /-- Some of the directories are made, and the name of the next one is too long. -/
  | part {final : FileTree} {first : Location} (hgrows : tree.Grows final dirs first)
      (hstuck : final.IsStuck dir) : Making tree dir dirs (.error (.system .nameTooLong)) final
  /-- All are made, the directory itself as the last one. -/
  | all {base : FileTree} {first parent : Location} {name : String} (hbase : base.WellFormed)
      (habsent : base.locateNames .inspect dir dir.named = .ok (.absent parent name))
      (hnew : tree.get? (parent ++ [name]) = none)
      (hgrows : tree.Grows (base.insert (parent ++ [name]) .dir) dirs first) :
      Making tree dir dirs (.ok ()) (base.insert (parent ++ [name]) .dir)

theorem Making.of_makeDir (htree : tree.WellFormed) (hmem : dir ∈ dirs)
    (hmake : tree.makeDir dir = .ok made) : tree.Making dir dirs (.ok ()) made := by
  obtain ⟨parent, name, habsent, rfl⟩ := makeDir_eq_ok_iff.mp hmake
  exact .all htree habsent (get?_of_absent habsent).2 (Grows.of_insert habsent hmem)

theorem makeEach_concat (tree : FileTree) (dirs : List Path) (dir : Path) :
    tree.makeEach (dirs ++ [dir]) =
      match tree.makeEach dirs with
      | (.ok (), mid) => mid.makeEach [dir]
      | failed => failed := by
  induction dirs generalizing tree with
  | nil => rfl
  | cons outer later ih =>
      rw [List.cons_append, makeEach, makeEach]
      cases tree.makeDir outer with
      | ok made => exact ih made
      | error e =>
          simp only
          split
          · exact ih tree
          · rfl

/-- A directory that could not be made cannot be made a second time either. -/
theorem makeEach_of_noSuchEntry (hmake : tree.makeDir dir = .error (.system .noSuchEntry)) :
    tree.makeEach [dir] = (.error (.system .noSuchEntry), tree) := by
  have hne : ¬ AccessError.system .noSuchEntry = .system .entryExists := by decide
  rw [makeEach, hmake]
  simp only [hne, false_and, if_false]

/-- A directory that does not exist is made, or waits for the ones above it. -/
theorem makeOutermost_cases (hnot : tree.isDir dir = false)
    (houter : tree.makeOutermost (dir :: above) = .ok (made, later)) :
    (tree.makeDir dir = .ok made ∧ later = []) ∨
      (tree.makeDir dir = .error (.system .noSuchEntry) ∧
        ∃ waiting, tree.makeOutermost above = .ok (made, waiting) ∧ later = waiting ++ [dir]) := by
  rw [makeOutermost] at houter
  split at houter
  · next made' hmake =>
      obtain ⟨rfl, rfl⟩ := Prod.mk.inj (Except.ok.inj houter)
      exact .inl ⟨hmake, rfl⟩
  · next e hmake =>
      split at houter
      · next hnoSuch =>
          subst hnoSuch
          cases hrest : tree.makeOutermost above with
          | error e =>
              rw [hrest] at houter
              cases houter
          | ok rest =>
              rw [hrest] at houter
              obtain ⟨rfl, rfl⟩ := Prod.mk.inj (Except.ok.inj houter)
              exact .inr ⟨hmake, rest.2, rfl, rfl⟩
      · rw [hnot] at houter
        simp at houter

/-- Above a directory that cannot be made nothing is made if a directory is there. -/
theorem makeOutermost_of_isDir (hisDir : tree.isDir dir = true) :
    tree.makeOutermost (dir :: above) = .ok (tree, []) := by
  have hne : ¬ AccessError.system .entryExists = .system .noSuchEntry := by decide
  rw [makeOutermost, makeDir_of_isDir hisDir]
  simp only [if_neg hne, hisDir, and_self, if_true]

/-- One more directory inside of those that were made. -/
theorem Making.inner {outcome : Except AccessError Unit} {result : Except AccessError Unit}
    (hmaking : tree.Making outer dirs outcome mid) (haccepted : dir.IsAccepted)
    (hname : Path.IsName name) (habsolute : dir.isAbsolute = outer.isAbsolute)
    (hnamed : dir.named = outer.named ++ [name])
    (heach : (match (outcome, mid) with
      | (.ok (), mid) => mid.makeEach [dir]
      | failed => failed) = (result, final)) :
    tree.Making dir (dir :: dirs) result final := by
  cases hmaking with
  | nothing e =>
      obtain ⟨rfl, rfl⟩ := Prod.mk.inj heach
      exact .nothing e
  | part hgrows hstuck =>
      obtain ⟨rfl, rfl⟩ := Prod.mk.inj heach
      exact .part (hgrows.mono (List.subset_cons_self dir dirs))
        (hstuck.inner haccepted habsolute hnamed)
  | @all base first parent last hbase habsent hnew hgrows =>
      have hfresh := isFresh_insert hbase habsent
      simp only [makeEach] at heach
      rcases hfresh.absent_or_isStuck hname haccepted habsolute hnamed with hmissing | hstuck
      · rw [makeDir_eq_ok_iff.mpr ⟨_, _, hmissing, rfl⟩] at heach
        obtain ⟨rfl, rfl⟩ := Prod.mk.inj heach
        obtain ⟨-, hfirst, -⟩ :=
          hgrows.added _ .dir (get?_insert_self base .dir (by simp)) hnew
        exact .all hfresh.wellFormed hmissing (hgrows.kept.get?_eq_none (get?_of_absent hmissing).2)
          (Grows.insert hmissing hgrows hfirst)
      · have hne : ¬ AccessError.system .nameTooLong = .system .entryExists := by decide
        rw [hstuck.makeDir_eq] at heach
        simp only [hne, false_and, if_false] at heach
        obtain ⟨rfl, rfl⟩ := Prod.mk.inj heach
        exact .part (hgrows.mono (List.subset_cons_self dir dirs)) hstuck

/-- Directories that are made from the outside to the inside are made one in
another. -/
theorem making_of_makeOutermost {absolute : Bool} {names : List String}
    {result : Except AccessError Unit} (htree : tree.WellFormed)
    (hdirs : Path.IsUpward absolute names (dir :: above)) (hnot : tree.isDir dir = false)
    (houter : tree.makeOutermost (dir :: above) = .ok (made, later))
    (heach : made.makeEach later = (result, final)) :
    tree.Making dir (dir :: above) result final := by
  -- The induction is on the directories above: what waits for them is made first.
  induction above generalizing dir names later result final with
  | nil =>
      rcases makeOutermost_cases hnot houter with ⟨hmake, rfl⟩ | ⟨hmake, waiting, hwaiting, rfl⟩
      · obtain ⟨rfl, rfl⟩ := Prod.mk.inj heach
        exact .of_makeDir htree List.mem_cons_self hmake
      · obtain ⟨rfl, rfl⟩ := Prod.mk.inj (Except.ok.inj hwaiting)
        rw [List.nil_append, makeEach_of_noSuchEntry hmake] at heach
        obtain ⟨rfl, rfl⟩ := Prod.mk.inj heach
        exact .nothing _
  | cons outer higher ih =>
      rcases makeOutermost_cases hnot houter with ⟨hmake, rfl⟩ | ⟨hmake, waiting, hwaiting, rfl⟩
      · obtain ⟨rfl, rfl⟩ := Prod.mk.inj heach
        exact .of_makeDir htree List.mem_cons_self hmake
      · obtain ⟨name, hname, habsolute, hnamed, habove⟩ := hdirs.exists_outer
        have haccepted := isAccepted_of_makeDir hdirs.isNormal hmake
        cases houterDir : tree.isDir outer with
        | true =>
            -- Nothing was made in between, so the last attempt fails as the first one did.
            rw [makeOutermost_of_isDir houterDir] at hwaiting
            obtain ⟨rfl, rfl⟩ := Prod.mk.inj (Except.ok.inj hwaiting)
            rw [List.nil_append, makeEach_of_noSuchEntry hmake] at heach
            obtain ⟨rfl, rfl⟩ := Prod.mk.inj heach
            exact .nothing _
        | false =>
            rw [makeEach_concat] at heach
            exact (ih habove houterDir hwaiting rfl).inner haccepted hname habsolute hnamed heach

theorem making_of_makeDirAll {result : Except AccessError Unit} (htree : tree.WellFormed)
    (hdir : dir.IsNormal) (hnot : tree.isDir dir = false)
    (hmake : tree.makeDirAll dir = (result, final)) :
    tree.Making dir dir.upward result final := by
  obtain ⟨above, hupward, hdirs⟩ := hdir.isUpward
  rw [makeDirAll, hupward] at hmake
  rw [hupward]
  split at hmake
  · next e houter =>
      obtain ⟨rfl, rfl⟩ := Prod.mk.inj hmake
      exact .nothing e
  · next made later houter => exact making_of_makeOutermost htree hdirs hnot houter hmake

/-- A second attempt to make a directory fails as the first one did. -/
theorem makeDirAll_again {e : AccessError} (htree : tree.WellFormed) (hdir : dir.IsNormal)
    (hresolve : tree.resolve? dir = none) (hmake : tree.makeDirAll dir = (.error e, final)) :
    final.resolve? dir = none ∧ final.makeDirAll dir = (.error e, final) := by
  have hnot : tree.isDir dir = false := by
    rw [isDir, hresolve]
    rfl
  have hmaking := making_of_makeDirAll htree hdir hnot hmake
  cases hmaking with
  | nothing => exact ⟨hresolve, hmake⟩
  | part hgrows hstuck => exact ⟨hstuck.resolve?_eq, hstuck.makeDirAll_eq hdir⟩

end NetlistSplit.FileTree
