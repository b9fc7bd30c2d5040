import NetlistSplit.Proofs.Plan
import NetlistSplit.Proofs.Run.Writing

/-!
# What a run comes to

A run that cannot read the netlist, or cannot remove its comments, leaves the tree
as it was.  One that cannot prepare the output directory writes nothing.  Any
other run writes the blocks of the scan in order, up to the first item that is an
error, repeats a name or cannot be written.

## Strategy

The plan holds the blocks in front of the first error or repeated name
(`Plan.meets_ofItems`).  The prepared directory is empty
(`FileTree.isFresh_of_prepareDir`), and every block that is written adds its file and
nothing else (`wrote_writeBlocks`).  Where the writing stops short of the plan, it
stops at a block that cannot be written; otherwise the plan says what comes next.
-/

namespace NetlistSplit

theorem Block.fileName_ne {first second : Block}
    (hdiffer : Plan.caseless first.name ≠ Plan.caseless second.name) :
    first.fileName ≠ second.fileName := by
  intro hsame
  have hname : first.name = second.name := by
    have hlists := congrArg String.toList hsame
    simp only [fileName, String.toList_append, List.append_cancel_right_eq] at hlists
    exact String.toList_inj.mp hlists
  exact hdiffer (congrArg Plan.caseless hname)

namespace Run

open FileTree

variable {ε : Type}

/-- What a run comes to that has prepared the output directory, `items` being what
the scan yields.  It wrote `blocks`, which are the first items, and something
kept it from writing the next item, if there is one. -/
structure Outcome (run : Run ε) (observe : FileTree → WrittenModule → ε) (config : Config)
    (prepared : FileTree) (items : List (Except SourceError Block)) (place : Location)
    (blocks : List Block) : Prop where
  items_eq : items.take blocks.length = blocks.map .ok
  names_differ : blocks.Pairwise fun first second =>
    Plan.caseless first.name ≠ Plan.caseless second.name
  holds : run.tree.HoldsExactly config.outputDir place blocks
  untouched : ∀ other, ¬ other.isInside place = true → run.tree.get? other = prepared.get? other
  observed : Observed observe config.outputDir place [] blocks run.events
  result_eq : match items[blocks.length]? with
    | none => run.result =
        .ok ⟨config.input, config.outputDir, blocks.map (.ofBlock config.outputDir)⟩
    | some (.error fault) => run.result = .error (.source fault)
    | some (.ok block) =>
        ((∃ earlier ∈ blocks, Plan.caseless earlier.name = Plan.caseless block.name) ∧
          run.result = .error (.source (.duplicateModule block.name block.line))) ∨
        ((∀ earlier ∈ blocks, Plan.caseless earlier.name ≠ Plan.caseless block.name) ∧
          ∃ e, run.tree.writeModule config.outputDir block.name block.text = .error e ∧
            run.result = .error e)

/-- The first blocks of a plan are written. -/
theorem exists_wrote {observe : FileTree → WrittenModule → ε} {dir : Path}
    {prepared : FileTree} {items : List (Except SourceError Block)} {place : Location}
    (hdir : dir.IsNormal) (hfresh : prepared.IsFresh dir place)
    (hslash : ∀ block : Block, .ok block ∈ items → '/' ∉ block.name.toList) :
    ∃ wrote later, (Plan.ofItems [] items).blocks = wrote ++ later ∧
      (writeBlocks observe dir prepared (Plan.ofItems [] items).blocks).Wrote observe dir place
        prepared [] wrote later := by
  have hmeets := Plan.meets_ofItems [] items
  obtain ⟨rest, hitems⟩ := hmeets.items_eq
  refine wrote_writeBlocks hdir hfresh.holdsExactly (fun block hblock => ?_)
    (hmeets.names_differ.imp Block.fileName_ne)
  refine hslash block ?_
  rw [hitems]
  exact List.mem_append_left rest (List.mem_map_of_mem hblock)

/-- A plan is carried out up to the first block that cannot be written. -/
theorem outcome_ofPlan {observe : FileTree → WrittenModule → ε} {config : Config}
    {prepared : FileTree} {items : List (Except SourceError Block)} {place : Location}
    (hdir : config.outputDir.IsPlain) (hfresh : prepared.IsFresh config.outputDir place)
    (hslash : ∀ block : Block, .ok block ∈ items → '/' ∉ block.name.toList) :
    ∃ blocks, (ofPlan observe config (Plan.ofItems [] items) prepared).Outcome observe config
      prepared items place blocks := by
  have hmeets := Plan.meets_ofItems [] items
  obtain ⟨wrote, later, hsplit, hwrote⟩ :
      ∃ wrote later, (Plan.ofItems [] items).blocks = wrote ++ later ∧
        (writeBlocks observe config.outputDir prepared (Plan.ofItems [] items).blocks).Wrote observe
          config.outputDir place prepared [] wrote later :=
    exists_wrote hdir.isNormal hfresh hslash
  generalize Plan.ofItems [] items = plan at hmeets hsplit hwrote
  obtain ⟨rest, hitems⟩ := hmeets.items_eq
  have hall : items = wrote.map .ok ++ (later.map .ok ++ rest) := by
    calc items
        = plan.blocks.map .ok ++ rest := hitems
      _ = wrote.map .ok ++ (later.map .ok ++ rest) := by
        rw [hsplit, List.map_append, List.append_assoc]
  have hnames := hmeets.names_differ
  rw [hsplit] at hnames
  refine ⟨wrote, ?_, (List.pairwise_append.mp hnames).1, hwrote.holds,
    fun other => hwrote.untouched, hwrote.observed, ?_⟩
  · rw [hall, List.take_left' (List.length_map _)]
  · have hfailure := hwrote.failure_eq
    -- What comes next is up to the plan if all of it was written, and else up to the block
    -- that could not be.
    cases later with
    | nil =>
        rw [List.append_nil] at hsplit
        have hnext := hmeets.failure_eq
        rw [hsplit] at hnext
        have hresult : (ofPlan observe config plan prepared).result =
            match plan.failure with
            | some fault => .error (.source fault)
            | none => .ok ⟨config.input, config.outputDir,
                wrote.map (.ofBlock config.outputDir)⟩ := by
          simp only [ofPlan, hfailure, hwrote.written_eq]
          cases plan.failure <;> rfl
        cases hitem : items[wrote.length]? with
        | none =>
            rw [hitem] at hnext
            rw [hresult, hnext]
        | some item =>
            rw [hitem] at hnext
            cases item with
            | error fault => rw [hresult, hnext]
            | ok block =>
                obtain ⟨hduplicate, hrepeated⟩ := hnext
                refine .inl ⟨hrepeated.resolve_left List.not_mem_nil, ?_⟩
                rw [hresult, hduplicate]
    | cons block behind =>
        obtain ⟨e, hwrite, hfailed⟩ := hfailure
        have hblock : items[wrote.length]? = some (.ok block) := by
          rw [hall, List.getElem?_append_right (Nat.le_of_eq (List.length_map _)), List.length_map,
            Nat.sub_self]
          rfl
        rw [hblock]
        refine .inr ⟨fun earlier hearlier => ?_, e, hwrite, ?_⟩
        · exact (List.pairwise_append.mp hnames).2.2 earlier hearlier block List.mem_cons_self
        · simp [ofPlan, hfailed]

theorem isFresh_of_prepareOutput {tree prepared : FileTree} {dir : Path}
    (htree : tree.WellFormed) (hdir : dir.IsPlain)
    (hprepare : tree.prepareOutput dir = (.ok (), prepared)) :
    ∃ place, prepared.IsFresh dir place := by
  unfold prepareOutput at hprepare
  split at hprepare
  · next prepared' hdirectory =>
      obtain rfl : prepared' = prepared := congrArg Prod.snd hprepare
      exact isFresh_of_prepareDir htree hdir.isNormal hdirectory
  · cases hprepare

/-- A netlist with two modules whose names differ in the case of their letters. -/
def twoModules : Text :=
  Text.ofString "module A; endmodule\nmodule a; endmodule\n"

/-- The netlist in its directory, beside the output of a former run. -/
def twoModulesTree : FileTree :=
  ⟨[(["in.v"], .file twoModules), (["out"], .dir), (["out", "old.v"], .file [])], []⟩

end Run

end NetlistSplit
