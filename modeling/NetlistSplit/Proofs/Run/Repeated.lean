import NetlistSplit.Proofs.Run.Confined

/-!
# A run that is repeated

A run that follows another one comes to the same: its result is the same, it makes
the same observations, and the tree stays as the first run left it
(`split_again`).  This holds whether the first run ended well or with an error, as
long as it did not take away the netlist itself or something on the way to it.

## Strategy

The netlist is read along the same way, since the first run changed nothing outside of
the output directory (`readNetlist_of_passed`).  Then the directory is prepared as
it was before: either that fails again (`FileTree.prepareDir_again_of_error`), or what
was written is taken away and the second run starts from the same tree as the first
(`FileTree.Prepared.again`).
-/

namespace NetlistSplit

namespace FileTree

/-- A netlist is read again if what the walk to it comes by is still there. -/
theorem readNetlist_of_passed {tree final : FileTree} {path : Path} {raw : Text}
    (hworking : final.workingDir = tree.workingDir)
    (hsame : ∀ place ∈ tree.passedBy path, ∀ entry, tree.get? place = some entry →
      final.get? place = some entry)
    (hread : tree.readNetlist path = .ok raw) : final.readNetlist path = .ok raw := by
  unfold readNetlist at hread
  split at hread
  · cases hread
  · next content hfile =>
      obtain ⟨place, hfound⟩ := readFile_eq_ok_iff.mp hfile
      obtain ⟨haccepted, hreaches⟩ := locate_eq_ok_iff.mp hfound
      have hreaches' := Reaches.of_passed hsame hreaches
      rw [← startOf_congr hworking rfl] at hreaches'
      have hfile' : final.readFile path = .ok content :=
        readFile_eq_ok_iff.mpr ⟨place, locate_eq_ok_iff.mpr ⟨haccepted, hreaches'⟩⟩
      rw [readNetlist, hfile']
      exact hread

end FileTree

namespace Run

open FileTree

variable {ε : Type}

/-- Whatever a run comes to, the next one comes to the same. -/
theorem split_again (observe : FileTree → WrittenModule → ε) (config : Config) {tree : FileTree}
    (htree : tree.WellFormed) (hdir : config.outputDir.IsPlain)
    (hinput : ∀ outer, tree.location? config.outputDir = some outer →
      ∀ place ∈ tree.passedBy config.input, ¬ outer <+: place) :
    split observe config (split observe config tree).tree = split observe config tree := by
  have hcourse := split_course observe config htree hdir.isNormal
  generalize hrun : split observe config tree = run at hcourse ⊢
  have hsame : ∀ place ∈ tree.passedBy config.input, ∀ entry, tree.get? place = some entry →
      run.tree.get? place = some entry := by
    intro place hplace entry hget
    rcases hcourse.kept htree hdir.isNormal hget with hkept | ⟨outer, houter, hprefix⟩
    · exact hkept
    · exact absurd hprefix (hinput outer houter place hplace)
  cases hcourse with
  | early e => exact hrun
  | @unprepared raw plan cause prepared hread hplan hprepare =>
      have hread' := readNetlist_of_passed (workingDir_of_prepareDir htree hdir.isNormal hprepare)
        hsame hread
      have hprepare' := prepareDir_again_of_error htree hdir hprepare
      simp only [split, hread', hplan, prepareOutput, hprepare']
  | @written raw code prepared place plan wrote later hread hstrip hplan hprepare hprepared hsplit
      hwrote =>
      have hworking := workingDir_of_prepareDir htree hdir.isNormal hprepare
      have hread' := readNetlist_of_passed (hwrote.workingDir_eq.trans hworking) hsame hread
      have hplan' : Plan.ofNetlist raw = .ok plan := by
        rw [Plan.ofNetlist, hstrip, hplan]
        rfl
      have hprepare' := hprepared.again hdir (hwrote.eraseInside_eq hprepared.fresh)
      have htree' : (ofPlan observe config plan prepared).tree =
          (writeBlocks observe config.outputDir prepared plan.blocks).tree := rfl
      simp only [split, htree', hread', hplan', prepareOutput, hprepare']

/-- The first run replaces the link by a directory, and the second one finds that. -/
theorem split_again_linkedTree :
    linkedTree.WellFormed ∧ Path.IsPlain ⟨"out"⟩ ∧
      (∀ outer, linkedTree.location? ⟨"out"⟩ = some outer →
        ∀ place ∈ linkedTree.passedBy ⟨"in.v"⟩, ¬ outer <+: place) ∧
      split (fun _ written => written) ⟨⟨"in.v"⟩, ⟨"out"⟩⟩
          (split (fun _ written => written) ⟨⟨"in.v"⟩, ⟨"out"⟩⟩ linkedTree).tree =
        split (fun _ written => written) ⟨⟨"in.v"⟩, ⟨"out"⟩⟩ linkedTree := by
  have htree : linkedTree.WellFormed := by decide
  have hdir : Path.IsPlain ⟨"out"⟩ := by decide
  have hlocation : linkedTree.location? ⟨"out"⟩ = some ["out"] := by rfl
  have hinput : ∀ outer, linkedTree.location? ⟨"out"⟩ = some outer →
      ∀ place ∈ linkedTree.passedBy ⟨"in.v"⟩, ¬ outer <+: place := by
    intro outer houter
    obtain rfl := Option.some.inj (houter.symm.trans hlocation)
    decide
  exact ⟨htree, hdir, hinput,
    split_again (fun _ written => written) ⟨⟨"in.v"⟩, ⟨"out"⟩⟩ htree hdir hinput⟩

end Run

end NetlistSplit
