import NetlistSplit.Proofs.Run.Outcome

/-!
# The course of a run

A run stops before it touches anything, or when it cannot prepare the output
directory, or it writes the first blocks of its plan (`split_course`).  However it
goes on after the directory is prepared, what it adds is inside of the directory
(`Wrote.eraseInside_eq`).
-/

namespace NetlistSplit.Run

open FileTree

variable {ε : Type} {observe : FileTree → WrittenModule → ε} {config : Config} {tree : FileTree}

/-- The course that a run takes. -/
inductive Course (observe : FileTree → WrittenModule → ε) (config : Config) (tree : FileTree) :
    Run ε → Prop where
  /-- The netlist cannot be read, or its comments cannot be removed. -/
  | early (e : SplitError) : Course observe config tree ⟨tree, [], .error e⟩
  /-- The output directory cannot be prepared. -/
  | unprepared {raw : Text} {plan : Plan} {cause : AccessError} {prepared : FileTree}
      (hread : tree.readNetlist config.input = .ok raw) (hplan : Plan.ofNetlist raw = .ok plan)
      (hprepare : tree.prepareDir config.outputDir = (.error cause, prepared)) :
      Course observe config tree ⟨prepared, [], .error (.access config.outputDir cause)⟩
  /-- The first blocks of the plan for the items of the scan are written. -/
  | written {raw code : Text} {prepared : FileTree} {place : Location} {plan : Plan}
      {wrote later : List Block} (hread : tree.readNetlist config.input = .ok raw)
      (hstrip : Comment.strip raw = .ok code)
      (hplan : plan = Plan.ofItems [] (Scanner.ofText code).items)
      (hprepare : tree.prepareDir config.outputDir = (.ok (), prepared))
      (hprepared : tree.Prepared prepared config.outputDir place)
      (hsplit : plan.blocks = wrote ++ later)
      (hwrote : (writeBlocks observe config.outputDir prepared plan.blocks).Wrote observe
        config.outputDir place prepared [] wrote later) :
      Course observe config tree (ofPlan observe config plan prepared)

theorem split_course (observe : FileTree → WrittenModule → ε) (config : Config)
    (htree : tree.WellFormed) (hdir : config.outputDir.IsNormal) :
    Course observe config tree (split observe config tree) := by
  unfold split
  split
  · exact .early _
  · next raw hread =>
      split
      · exact .early _
      · next plan hplan =>
          cases hstrip : Comment.strip raw with
          | error fault =>
              rw [Plan.ofNetlist, hstrip] at hplan
              cases hplan
          | ok code =>
              unfold prepareOutput
              rcases hprepare : tree.prepareDir config.outputDir with ⟨outcome, prepared⟩
              cases outcome with
              | error cause => exact .unprepared hread hplan hprepare
              | ok done =>
                  have hitems : plan = Plan.ofItems [] (Scanner.ofText code).items := by
                    rw [Plan.ofNetlist, hstrip] at hplan
                    exact (Except.ok.inj hplan).symm
                  obtain ⟨place, hprepared⟩ := prepared_of_prepareDir htree hdir hprepare
                  obtain ⟨wrote, later, hsplit, hwrote⟩ :
                      ∃ wrote later, plan.blocks = wrote ++ later ∧
                        (writeBlocks observe config.outputDir prepared plan.blocks).Wrote observe
                          config.outputDir place prepared [] wrote later := by
                    rw [hitems]
                    exact exists_wrote hdir hprepared.fresh
                      fun block => Scanner.slash_notMem_of_mem_items
                  exact .written hread hstrip hitems hprepare hprepared hsplit hwrote

namespace Progress.Wrote

variable {progress : Progress ε} {dir : Path} {place : Location} {prepared : FileTree}
  {wrote later : List Block}

/-- Without what is inside of the directory, the tree is as it was prepared. -/
theorem eraseInside_eq (hwrote : progress.Wrote observe dir place prepared [] wrote later)
    (hfresh : prepared.IsFresh dir place) : progress.tree.eraseInside place = prepared := by
  calc progress.tree.eraseInside place
      = prepared.eraseInside place := hwrote.outside_eq
    _ = prepared := eraseInside_of_isEmptyAt hfresh.empty

theorem workingDir_eq (hwrote : progress.Wrote observe dir place prepared [] wrote later) :
    progress.tree.workingDir = prepared.workingDir := by
  have hworking := congrArg FileTree.workingDir hwrote.outside_eq
  exact hworking

/-- Whatever was prepared stays. -/
theorem kept (hwrote : progress.Wrote observe dir place prepared [] wrote later)
    (hfresh : prepared.IsFresh dir place) : prepared.IsPartOf progress.tree :=
  isPartOf_of_eraseInside (hwrote.eraseInside_eq hfresh)

end Progress.Wrote

end NetlistSplit.Run
