import NetlistSplit.Proofs.Run.Course

/-!
# A run is confined to its output directory

A run changes nothing that stands outside of the location of its output directory,
and all it adds outside are directories on the way to it that were missing
(`split_confined`).  A link at that location, or inside of it, is taken away itself;
what it leads to stays.

## Strategy

Preparing the directory loses nothing that stands elsewhere and adds nothing but the
directory and those on the way (`kept_of_prepareDir`, `added_of_prepareDir`).  What is
written afterwards stands inside of the directory, and the directory was empty.
-/

namespace NetlistSplit.Run

open FileTree

variable {ε : Type} {observe : FileTree → WrittenModule → ε} {config : Config} {tree : FileTree}
  {run : Run ε} {place : Location} {entry : Entry}

/-! ## Nothing is lost elsewhere -/

theorem Course.kept (hcourse : Course observe config tree run) (htree : tree.WellFormed)
    (hdir : config.outputDir.IsNormal) (hget : tree.get? place = some entry) :
    run.tree.get? place = some entry ∨
      ∃ outer, tree.location? config.outputDir = some outer ∧ outer <+: place := by
  cases hcourse with
  | early e => exact .inl hget
  | unprepared hread hplan hprepare => exact kept_of_prepareDir htree hdir hprepare hget
  | written hread hstrip hplan hprepare hprepared hsplit hwrote =>
      refine (kept_of_prepareDir htree hdir hprepare hget).imp_left fun hkept => ?_
      exact hwrote.kept hprepared.fresh place entry hkept

/-! ## What is added elsewhere -/

/-- Whether an entry that is in `final` and was not in `tree` was added for the directory
`dir`: it stands at the location of `dir` or below.  If `dir` had no location, it may
have one now, and directories on the way to it that did not exist may be new too. -/
def AddedFor (tree final : FileTree) (dir : Path) (place : Location) (entry : Entry) : Prop :=
  match tree.location? dir with
  | some outer => outer <+: place
  | none => (∃ outer, final.location? dir = some outer ∧ outer <+: place) ∨
      (entry = .dir ∧ ∃ above ∈ dir.upward.tail, tree.resolve? above = none ∧
        final.locate .use above = .ok (.found place .dir))

theorem addedFor_of_prepareDir {prepared final : FileTree} {dir : Path}
    {result : Except AccessError Unit} (htree : tree.WellFormed) (hdir : dir.IsPlain)
    (hprepare : tree.prepareDir dir = (result, prepared))
    (hworking : final.workingDir = prepared.workingDir)
    (hkept : prepared.IsPartOf final)
    (hget : prepared.get? place = some entry) (hnone : tree.get? place = none) :
    AddedFor tree final dir place entry := by
  obtain ⟨rfl, hadded⟩ := added_of_prepareDir htree hdir hprepare hget hnone
  unfold AddedFor
  cases hlocation : tree.location? dir with
  | some outer =>
      rw [hlocation] at hadded
      exact hadded
  | none =>
      rw [hlocation] at hadded
      obtain ⟨above, habove, hunresolved, hfound⟩ := hadded
      have hstays := hkept.locateNames hworking hfound
      obtain ⟨inner, hupward, -⟩ := hdir.isNormal.isUpward
      rcases List.mem_cons.mp (hupward ▸ habove) with rfl | hinner
      · have hinspect : final.locate .inspect above = .ok (.found place .dir) := by
          rw [locate, hdir.names_eq]
          exact hstays
        exact .inl ⟨place, location?_eq_some_iff.mpr ⟨_, hinspect, rfl⟩, List.prefix_refl _⟩
      · exact .inr ⟨rfl, above, by rw [hupward]; exact hinner, hunresolved,
          locate_of_inspected hstays⟩

theorem Course.added (hcourse : Course observe config tree run) (htree : tree.WellFormed)
    (hdir : config.outputDir.IsPlain) (hget : run.tree.get? place = some entry)
    (hnone : tree.get? place = none) :
    AddedFor tree run.tree config.outputDir place entry := by
  cases hcourse with
  | early e =>
      rw [hnone] at hget
      cases hget
  | unprepared hread hplan hprepare =>
      exact addedFor_of_prepareDir htree hdir hprepare rfl (fun _ _ hget => hget) hget hnone
  | @written raw code prepared outer plan wrote later hread hstrip hplan hprepare hprepared hsplit
      hwrote =>
      have hkept := hwrote.kept hprepared.fresh
      have hworking := hwrote.workingDir_eq
      by_cases hinside : place.isInside outer = true
      · -- It is inside of the directory that was prepared.
        obtain ⟨below, -, rfl⟩ := Location.isInside_iff.mp hinside
        unfold AddedFor
        cases hlocation : tree.location? config.outputDir with
        | some first =>
            exact (hprepared.prefix_of_location? htree hdir hprepare hlocation).trans
              (List.prefix_append _ _)
        | none =>
            have hlocated := hkept.locateNames hworking hprepared.inspected
            rw [← hdir.names_eq] at hlocated
            exact .inl ⟨outer, location?_eq_some_iff.mpr ⟨_, hlocated, rfl⟩,
              List.prefix_append _ _⟩
      · rw [ofPlan, hwrote.untouched hinside] at hget
        exact addedFor_of_prepareDir htree hdir hprepare hworking hkept hget hnone

/-! ## The whole run -/

/-- Whatever a run comes to, everything stays that is not at the location of the output
directory or below, and what is added is there too or is a directory on the way. -/
theorem split_confined (observe : FileTree → WrittenModule → ε) (config : Config)
    {tree : FileTree} (htree : tree.WellFormed) (hdir : config.outputDir.IsPlain) :
    (∀ place entry, tree.get? place = some entry →
      (split observe config tree).tree.get? place = some entry ∨
        ∃ outer, tree.location? config.outputDir = some outer ∧ outer <+: place) ∧
    (∀ place entry, (split observe config tree).tree.get? place = some entry →
      tree.get? place = none →
      AddedFor tree (split observe config tree).tree config.outputDir place entry) := by
  have hcourse := split_course observe config htree hdir.isNormal
  exact ⟨fun place entry hget => hcourse.kept htree hdir.isNormal hget,
    fun place entry hget hnone => hcourse.added htree hdir hget hnone⟩

/-- A netlist beside a link that stands in the place of the output directory. -/
def linkedTree : FileTree :=
  ⟨[(["in.v"], .file twoModules), (["kept"], .dir), (["kept", "old.v"], .file []),
    (["out"], .link "kept")], []⟩

/-- The link is replaced by a directory, and what it led to stays. -/
theorem split_confined_linkedTree :
    linkedTree.WellFormed ∧ Path.IsPlain ⟨"out"⟩ ∧
      (split (fun _ written => written.name) ⟨⟨"in.v"⟩, ⟨"out"⟩⟩ linkedTree).tree.get?
        ["kept", "old.v"] = some (.file []) ∧
      AddedFor linkedTree
        (split (fun _ written => written.name) ⟨⟨"in.v"⟩, ⟨"out"⟩⟩ linkedTree).tree
        ⟨"out"⟩ ["out", "A.v"] (.file (Text.ofString "module A; endmodule")) := by
  have htree : linkedTree.WellFormed := by decide
  have hdir : Path.IsPlain ⟨"out"⟩ := by decide
  have hlocation : linkedTree.location? ⟨"out"⟩ = some ["out"] := by rfl
  obtain ⟨hkept, hadded⟩ := split_confined (fun _ written => written.name) ⟨⟨"in.v"⟩, ⟨"out"⟩⟩
    htree hdir
  refine ⟨htree, hdir, ?_, hadded _ _ (by decide +kernel) (by rfl)⟩
  rcases hkept ["kept", "old.v"] (.file []) (by rfl) with hstays | ⟨outer, houter, hprefix⟩
  · exact hstays
  · obtain rfl := Option.some.inj (houter.symm.trans hlocation)
    exact absurd hprefix (by decide)

end NetlistSplit.Run
