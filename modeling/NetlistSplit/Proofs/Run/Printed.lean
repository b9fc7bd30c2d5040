import NetlistSplit.PrintedRun
import NetlistSplit.Proofs.Report.Decoding
import NetlistSplit.Proofs.Run.Outcome
import NetlistSplit.Proofs.Terminal

/-!
# What a run prints

How the user wants to be told about a run changes nothing but what is printed: the
tree and the outcome are those of the run that is not observed at all.  With a report,
the report is all that is printed: one JSON document that tells the summary, and a
newline.  A run that fails then prints nothing.  Without a report a verbose run prints a
line for each file that it wrote, in the order of the netlist and also if it fails behind
them, and the line at the end is there just if the run ends well (`split_prints`).

## Strategy

Observations are collected and not looked at, so a run with other observations is the
same run with its events mapped (`Run.split_map`).  The run that is not observed and
the one that prints are both the run that tells of each file, with its events mapped.
What that one tells is read off the run (`Run.tells_split`): by induction on the
blocks of the plan, a file is told of just if it was written (`Run.exists_writesBlocks`).
That a report tells the summary holds of any summary (`Report.isReportedBy_text`).
-/

namespace NetlistSplit

namespace Run

variable {ε δ : Type}

/-! ## Other observations -/

/-- Writing that is observed in another way. -/
def Progress.map (f : ε → δ) (progress : Progress ε) : Progress δ :=
  ⟨progress.tree, progress.written, progress.events.map f, progress.failure⟩

/-- A run that is observed in another way. -/
def map (f : ε → δ) (run : Run ε) : Run δ :=
  ⟨run.tree, run.events.map f, run.result⟩

theorem writeBlocks_map (f : ε → δ) (observe : FileTree → WrittenModule → ε) (dir : Path)
    (tree : FileTree) (blocks : List Block) :
    writeBlocks (fun tree written => f (observe tree written)) dir tree blocks =
      (writeBlocks observe dir tree blocks).map f := by
  induction blocks generalizing tree with
  | nil => rfl
  | cons block later ih =>
      rw [writeBlocks_cons, writeBlocks_cons]
      cases tree.writeModule dir block.name block.text with
      | error e => rfl
      | ok result =>
          obtain ⟨path, next⟩ := result
          simp only [ih next]
          rfl

theorem ofPlan_map (f : ε → δ) (observe : FileTree → WrittenModule → ε) (config : Config)
    (plan : Plan) (tree : FileTree) :
    ofPlan (fun tree written => f (observe tree written)) config plan tree =
      (ofPlan observe config plan tree).map f := by
  simp only [ofPlan, writeBlocks_map]
  rfl

/-- A run with other observations is the same run with its events mapped. -/
theorem split_map (f : ε → δ) (observe : FileTree → WrittenModule → ε) (config : Config)
    (tree : FileTree) :
    split (fun tree written => f (observe tree written)) config tree =
      (split observe config tree).map f := by
  unfold split
  split
  · rfl
  · split
    · rfl
    · split
      · rfl
      · exact ofPlan_map f observe config _ _

end Run

/-! ## The files that a run wrote -/

/-- Whether the files of some blocks are written to `dir`, one after the other. -/
inductive FileTree.WritesBlocks (dir : Path) : FileTree → List Block → FileTree → Prop where
  | nil {tree : FileTree} : WritesBlocks dir tree [] tree
  | cons {tree next final : FileTree} {block : Block} {later : List Block}
      (hwrite : tree.writeModule dir block.name block.text =
        .ok (modulePath dir block.name, next))
      (hlater : WritesBlocks dir next later final) :
      WritesBlocks dir tree (block :: later) final

/-- Whether a run leads from one tree to another, and the files of modules that it
writes are those of some blocks.  They are the first ones of the netlist, up to an
error, a repeated name or a file that cannot be written. -/
inductive Run.Writes (config : Config) (tree : FileTree) : List Block → FileTree → Prop where
  | unread {e : SplitError} (hread : tree.readNetlist config.input = .error e) :
      Writes config tree [] tree
  | unstripped {raw : Text} {fault : SourceError}
      (hread : tree.readNetlist config.input = .ok raw)
      (hstrip : Comment.strip raw = .error fault) : Writes config tree [] tree
  | unprepared {raw code : Text} {e : SplitError} {prepared : FileTree}
      (hread : tree.readNetlist config.input = .ok raw) (hstrip : Comment.strip raw = .ok code)
      (hprepare : tree.prepareOutput config.outputDir = (.error e, prepared)) :
      Writes config tree [] prepared
  | written {raw code : Text} {prepared final : FileTree} {blocks : List Block}
      {later : List (Except SourceError Block)}
      (hread : tree.readNetlist config.input = .ok raw) (hstrip : Comment.strip raw = .ok code)
      (hprepare : tree.prepareOutput config.outputDir = (.ok (), prepared))
      (hitems : (Scanner.ofText code).items = blocks.map .ok ++ later)
      (hdiffer : blocks.Pairwise fun first second =>
        Plan.caseless first.name ≠ Plan.caseless second.name)
      (hwrites : prepared.WritesBlocks config.outputDir blocks final)
      (hstops : ∀ block : Block, later.head? = some (.ok block) →
        (∃ earlier ∈ blocks, Plan.caseless earlier.name = Plan.caseless block.name) ∨
          ∃ e, final.writeModule config.outputDir block.name block.text = .error e) :
      Writes config tree blocks final

namespace Run

theorem isIdentifier_of_writes {config : Config} {tree final : FileTree} {blocks : List Block}
    (hwrites : Writes config tree blocks final) : ∀ block ∈ blocks, IsIdentifier block.name := by
  cases hwrites with
  | @written raw code prepared final blocks later hread hstrip hprepare hitems =>
      intro block hblock
      have hitem : .ok block ∈ (Scanner.ofText code).items := by
        rw [hitems]
        exact List.mem_append_left later (List.mem_map_of_mem hblock)
      exact Scanner.isIdentifier_of_mem_items hitem
  | _ =>
      intro block hblock
      cases hblock

/-! ## What is told of them -/

theorem path_of_writeModule {tree next : FileTree} {dir path : Path} {name : String} {text : Text}
    (hwrite : tree.writeModule dir name text = .ok (path, next)) : path = modulePath dir name := by
  unfold FileTree.writeModule at hwrite
  simp only at hwrite
  split at hwrite
  · exact (Prod.mk.inj (Except.ok.inj hwrite)).1.symm
  · cases hwrite

/-- The first blocks are written, up to one that cannot be, and these are told of. -/
theorem exists_writesBlocks (dir : Path) (tree : FileTree) (blocks : List Block) :
    let progress := writeBlocks (fun _ written => written) dir tree blocks
    ∃ wrote later, blocks = wrote ++ later ∧ tree.WritesBlocks dir wrote progress.tree ∧
      (∀ block, later.head? = some block →
        ∃ e, progress.tree.writeModule dir block.name block.text = .error e) ∧
      progress.written = wrote.map (.ofBlock dir) ∧
      progress.events = wrote.map (.ofBlock dir) := by
  induction blocks generalizing tree with
  | nil => exact ⟨[], [], rfl, .nil, fun block hblock => (by cases hblock), rfl, rfl⟩
  | cons block later ih =>
      cases hwrite : tree.writeModule dir block.name block.text with
      | error e =>
          rw [writeBlocks_cons, hwrite]
          refine ⟨[], block :: later, rfl, .nil, fun other hother => ?_, rfl, rfl⟩
          obtain rfl := Option.some.inj hother
          exact ⟨e, hwrite⟩
      | ok result =>
          obtain ⟨path, next⟩ := result
          obtain rfl := path_of_writeModule hwrite
          obtain ⟨wrote, behind, hsplit, hwrites, hstops, hwritten, hevents⟩ := ih next
          rw [writeBlocks_cons, hwrite]
          exact ⟨block :: wrote, behind, by rw [hsplit]; rfl, .cons hwrite hwrites, hstops,
            congrArg (WrittenModule.ofBlock dir block :: ·) hwritten,
            congrArg (WrittenModule.ofBlock dir block :: ·) hevents⟩

/-- A run tells of the files that it wrote, in order, and so does its summary. -/
structure Tells (run : Run WrittenModule) (config : Config) (tree : FileTree)
    (blocks : List Block) : Prop where
  writes : Writes config tree blocks run.tree
  events_eq : run.events = blocks.map (.ofBlock config.outputDir)
  summary_eq : ∀ summary, run.result = .ok summary →
    summary = ⟨config.input, config.outputDir, blocks.map (.ofBlock config.outputDir)⟩

theorem tells_of_error {config : Config} {tree final : FileTree} (e : SplitError)
    (hwrites : Writes config tree [] final) :
    Tells ⟨final, [], .error e⟩ config tree [] where
  writes := hwrites
  events_eq := rfl
  summary_eq := by
    intro summary hresult
    cases hresult

/-- In a directory that is prepared, a run tells of the files that it wrote. -/
theorem tells_ofPlan {config : Config} {tree prepared : FileTree} {raw code : Text}
    (hread : tree.readNetlist config.input = .ok raw) (hstrip : Comment.strip raw = .ok code)
    (hprepare : tree.prepareOutput config.outputDir = (.ok (), prepared)) :
    ∃ blocks, (ofPlan (fun _ written => written) config
      (Plan.ofItems [] (Scanner.ofText code).items) prepared).Tells config tree blocks := by
  have hmeets := Plan.meets_ofItems [] (Scanner.ofText code).items
  generalize Plan.ofItems [] (Scanner.ofText code).items = plan at hmeets ⊢
  obtain ⟨rest, hitems⟩ := hmeets.items_eq
  obtain ⟨wrote, later, hsplit, hwrites, hstops, hwritten, hevents⟩ :=
    exists_writesBlocks config.outputDir prepared plan.blocks
  have hall : (Scanner.ofText code).items = wrote.map .ok ++ (later.map .ok ++ rest) := by
    rw [hitems, hsplit, List.map_append, List.append_assoc]
  have hdiffer := hmeets.names_differ
  rw [hsplit] at hdiffer
  refine ⟨wrote, .written hread hstrip hprepare hall (List.pairwise_append.mp hdiffer).1
    hwrites fun block hblock => ?_, hevents, fun summary hresult => ?_⟩
  · cases later with
    | nil =>
        rw [List.append_nil] at hsplit
        -- All of the plan was written, so the plan says what comes next.
        have hnext : (Scanner.ofText code).items[plan.blocks.length]? = some (.ok block) := by
          rw [hall, hsplit, List.getElem?_append_right (Nat.le_of_eq (List.length_map _)),
            List.length_map, Nat.sub_self, ← List.head?_eq_getElem?]
          exact hblock
        have hfailure := hmeets.failure_eq
        rw [hnext, hsplit] at hfailure
        exact .inl (hfailure.2.resolve_left List.not_mem_nil)
    | cons next behind =>
        obtain rfl := Except.ok.inj (Option.some.inj hblock)
        exact .inr (hstops next rfl)
  · simp only [ofPlan, hwritten] at hresult
    split at hresult
    · cases hresult
    · exact (Except.ok.inj hresult).symm

theorem tells_split (config : Config) (tree : FileTree) :
    ∃ blocks, (split (fun _ written => written) config tree).Tells config tree blocks := by
  cases hread : tree.readNetlist config.input with
  | error e =>
      simp only [split, hread]
      exact ⟨[], tells_of_error e (.unread hread)⟩
  | ok raw =>
      cases hstrip : Comment.strip raw with
      | error fault =>
          simp only [split, hread, Plan.ofNetlist_of_strip_error hstrip]
          exact ⟨[], tells_of_error (.source fault) (.unstripped hread hstrip)⟩
      | ok code =>
          have hplan := Plan.ofNetlist_of_strip hstrip
          rcases hprepare : tree.prepareOutput config.outputDir with ⟨outcome, prepared⟩
          cases outcome with
          | error e =>
              simp only [split, hread, hplan, hprepare]
              exact ⟨[], tells_of_error e (.unprepared hread hstrip hprepare)⟩
          | ok done =>
              simp only [split, hread, hplan, hprepare]
              exact tells_ofPlan hread hstrip hprepare

end Run

namespace PrintedRun

variable {terminal : Terminal} {config : Config} {tree : FileTree} {blocks : List Block}
  {verbose : Bool}

/-! ## What is printed -/

theorem join_progress (options : Options) (terminal : Terminal) (told : List WrittenModule) :
    String.join (told.map (options.progress terminal)) =
      if options.showsProgress then String.join (told.map terminal.moduleLine) else "" := by
  induction told with
  | nil => simp
  | cons written later ih =>
      rw [List.map_cons, List.map_cons, String.join_cons, String.join_cons, ih, Options.progress]
      split_ifs <;> rfl

/-- A run that prints is the run that tells of each file, which is told of in print. -/
theorem split_eq (terminal : Terminal) (options : Options) (now : Timestamp) (config : Config)
    (tree : FileTree) :
    let told := Run.split (fun _ written => written) config tree
    let progress := if options.showsProgress then
      terminal.openingLine config ++ String.join (told.events.map terminal.moduleLine) else ""
    split terminal options now config tree =
      match told.result with
      | .error e => ⟨told.tree, progress, some ⟨config.input, e⟩⟩
      | .ok summary => ⟨told.tree, progress ++ options.closing terminal now summary, none⟩ := by
  intro told progress
  have hprogress : options.opening terminal config ++
      String.join (told.events.map (options.progress terminal)) = progress := by
    rw [join_progress, Options.opening]
    unfold progress
    split_ifs <;> rfl
  rw [← hprogress, split, Run.split_map (options.progress terminal) fun _ written => written]
  rfl

/-- The options decide what is printed and nothing else. -/
theorem silent_split (terminal : Terminal) (options : Options) (now : Timestamp) (config : Config)
    (tree : FileTree) :
    let silent := Run.split (fun _ _ => ()) config tree
    (split terminal options now config tree).tree = silent.tree ∧
      (split terminal options now config tree).failure =
        match silent.result with
        | .error e => some ⟨config.input, e⟩
        | .ok _ => none := by
  intro silent
  have hsilent : silent = (Run.split (fun _ written => written) config tree).map fun _ => () :=
    Run.split_map (fun _ => ()) (fun _ written => written) config tree
  rw [split_eq, hsilent, Run.map]
  cases (Run.split (fun _ written => written) config tree).result with
  | error e => exact ⟨rfl, rfl⟩
  | ok summary => exact ⟨rfl, rfl⟩

/-- If a report is asked for, it is all that is printed. -/
theorem printed_report (terminal : Terminal) (verbose : Bool) (now : Timestamp) (config : Config)
    (tree : FileTree) :
    (split terminal ⟨verbose, true⟩ now config tree).printed =
      match (Run.split (fun _ written => written) config tree).result with
      | .ok summary => (Report.ofSummary now summary).toJson.pretty ++ "\n"
      | .error _ => "" := by
  have hsilent : Options.showsProgress ⟨verbose, true⟩ = false := Bool.and_false verbose
  rw [split_eq]
  simp only [hsilent]
  cases (Run.split (fun _ written => written) config tree).result with
  | error e => rfl
  | ok summary => exact String.empty_append

/-! ## The lines that are printed -/

/-- The lines that a run prints which wrote the files of some blocks, if no report is
asked for. -/
def lines (terminal : Terminal) (verbose : Bool) (config : Config) (blocks : List Block)
    (result : Except SplitError Summary) : List String :=
  let progress := terminal.openingLine config ::
    blocks.map fun block => terminal.moduleLine (.ofBlock config.outputDir block)
  (if verbose then progress else []) ++
    match result with
    | .ok summary => [terminal.summaryLine summary]
    | .error _ => []

theorem printed_lines (terminal : Terminal) (verbose : Bool) (now : Timestamp)
    (htells : (Run.split (fun _ written => written) config tree).Tells config tree blocks) :
    (split terminal ⟨verbose, false⟩ now config tree).printed =
      String.join (lines terminal verbose config blocks
        (Run.split (fun _ written => written) config tree).result) := by
  have hshows : Options.showsProgress ⟨verbose, false⟩ = verbose := Bool.and_true verbose
  have hclosing : ∀ summary,
      Options.closing ⟨verbose, false⟩ terminal now summary = terminal.summaryLine summary :=
    fun summary => rfl
  rw [split_eq]
  simp only [hshows, hclosing, htells.events_eq, List.map_map, lines, String.join_append]
  cases (Run.split (fun _ written => written) config tree).result with
  | error e => cases verbose <;> simp [Function.comp_def]
  | ok summary => cases verbose <;> simp [Function.comp_def]

theorem isLine_of_mem_lines {result : Except SplitError Summary} {final : FileTree}
    (hinput : '\n' ∉ config.input.text.toList) (hdir : '\n' ∉ config.outputDir.text.toList)
    (hwrites : Run.Writes config tree blocks final)
    (hresult : ∀ summary, result = .ok summary → summary.outputDir = config.outputDir) :
    ∀ line ∈ lines terminal verbose config blocks result, IsLine line := by
  have hprogress : ∀ line ∈ terminal.openingLine config ::
      blocks.map (fun block => terminal.moduleLine (.ofBlock config.outputDir block)),
      IsLine line := by
    intro line hline
    rcases List.mem_cons.mp hline with rfl | hline
    · exact terminal.isLine_openingLine hinput hdir
    · obtain ⟨block, hblock, rfl⟩ := List.mem_map.mp hline
      have hname := Run.isIdentifier_of_writes hwrites block hblock
      exact terminal.isLine_moduleLine (newline_notMem_modulePath hdir hname)
  intro line hline
  rcases List.mem_append.mp hline with hline | hline
  · cases verbose with
    | false => cases hline
    | true => exact hprogress line hline
  · cases result with
    | error e => cases hline
    | ok summary =>
        obtain rfl := List.mem_singleton.mp hline
        refine terminal.isLine_summaryLine ?_
        rw [hresult summary rfl]
        exact hdir

/-- A line like the one at the end is printed just by a run that ends well. -/
theorem exists_summaryLine_mem_lines_iff {result : Except SplitError Summary} :
    (∃ summary, terminal.summaryLine summary ∈ lines terminal verbose config blocks result) ↔
      ∃ summary, result = .ok summary := by
  constructor
  · rintro ⟨summary, hline⟩
    rcases List.mem_append.mp hline with hline | hline
    · cases verbose with
      | false => cases hline
      | true =>
          rcases List.mem_cons.mp hline with hopening | hmodule
          · exact absurd hopening.symm (terminal.openingLine_ne_summaryLine config summary)
          · obtain ⟨block, -, hmodule⟩ := List.mem_map.mp hmodule
            exact absurd hmodule (terminal.moduleLine_ne_summaryLine _ summary)
    · cases result with
      | error e => cases hline
      | ok summary => exact ⟨summary, rfl⟩
  · rintro ⟨summary, rfl⟩
    exact ⟨summary, List.mem_append_right _ List.mem_cons_self⟩

/-- Whether `printed` tells in lines what a run came to which wrote the files of some
blocks: one line for each if it is verbose, and one at the end if it ends well. -/
structure TellsInLines (terminal : Terminal) (verbose : Bool) (config : Config)
    (blocks : List Block) (result : Except SplitError Summary) (printed : String) : Prop where
  printed_eq : printed = String.join (lines terminal verbose config blocks result)
  isLine : ∀ line ∈ lines terminal verbose config blocks result, IsLine line
  tells_block : ∀ block ∈ blocks, (WrittenModule.ofBlock config.outputDir block).IsToldBy
    (terminal.moduleLine (.ofBlock config.outputDir block))
  ends_iff : (∃ summary, terminal.summaryLine summary ∈
    lines terminal verbose config blocks result) ↔ ∃ summary, result = .ok summary
  tells_number : ∀ summary, result = .ok summary →
    summary.modules = blocks.map (.ofBlock config.outputDir) ∧
      TellsNumber blocks.length (terminal.summaryLine summary)

/-- However the user wants to be told, the run is the one that is not observed.  With a
report, the report is all that is printed, a document that tells the summary; without it,
the files that the run wrote are told of in lines. -/
theorem split_prints (config : Config) (hinput : '\n' ∉ config.input.text.toList)
    (hdir : '\n' ∉ config.outputDir.text.toList) (tree : FileTree) :
    let silent := Run.split (fun _ _ => ()) config tree
    (∀ terminal options now,
      (split terminal options now config tree).tree = silent.tree ∧
      (split terminal options now config tree).failure =
        match silent.result with
        | .error e => some ⟨config.input, e⟩
        | .ok _ => none) ∧
    (∀ terminal verbose now,
      (split terminal ⟨verbose, true⟩ now config tree).printed =
        match silent.result with
        | .ok summary => (Report.ofSummary now summary).toJson.pretty ++ "\n"
        | .error _ => "") ∧
    (∀ summary, silent.result = .ok summary → ∀ terminal verbose now, ∃ document,
      (split terminal ⟨verbose, true⟩ now config tree).printed = document ++ "\n" ∧
        summary.IsReportedBy document) ∧
    ∃ blocks, Run.Writes config tree blocks silent.tree ∧
      ∀ terminal verbose now, TellsInLines terminal verbose config blocks silent.result
        (split terminal ⟨verbose, false⟩ now config tree).printed := by
  intro silent
  have hsilent : silent = (Run.split (fun _ written => written) config tree).map fun _ => () :=
    Run.split_map (fun _ => ()) (fun _ written => written) config tree
  obtain ⟨blocks, htells⟩ := Run.tells_split config tree
  refine ⟨fun terminal options now => silent_split terminal options now config tree,
    fun terminal verbose now => ?_, fun summary hresult terminal verbose now => ?_, blocks, ?_,
    fun terminal verbose now => ?_⟩
  · rw [hsilent]
    exact printed_report terminal verbose now config tree
  · rw [hsilent, Run.map] at hresult
    refine ⟨(Report.ofSummary now summary).text, ?_, Report.isReportedBy_text now summary⟩
    rw [printed_report, hresult]
    rfl
  · rw [hsilent]
    exact htells.writes
  · rw [hsilent]
    refine ⟨printed_lines terminal verbose now htells,
      isLine_of_mem_lines hinput hdir htells.writes ?_,
      fun block hblock => terminal.tells_moduleLine _, exists_summaryLine_mem_lines_iff, ?_⟩
    · intro summary hresult
      rw [htells.summary_eq summary hresult]
    · intro summary hresult
      have hmodules : summary.modules = blocks.map (.ofBlock config.outputDir) := by
        rw [htells.summary_eq summary hresult]
      have htold := terminal.tells_summaryLine summary
      rw [hmodules, List.length_map] at htold
      exact ⟨hmodules, htold⟩

/-- A netlist of two modules whose names differ, in its directory. -/
def differingTree : FileTree :=
  ⟨[(["in.v"], .file (Text.ofString "module A; endmodule\nmodule B; endmodule\n"))], []⟩

/-- What a run writes that splits it. -/
def differingSummary : Summary :=
  ⟨⟨"in.v"⟩, ⟨"out"⟩, [⟨"A", ⟨"out/A.v"⟩, 1, 19⟩, ⟨"B", ⟨"out/B.v"⟩, 2, 19⟩]⟩

/-- If the second module repeats the name of the first, one file is told of and then the run
fails without a report.  If not, both are in the report, and the line at the end counts them. -/
theorem split_prints_twoModules :
    let config : Config := ⟨⟨"in.v"⟩, ⟨"out"⟩⟩
    '\n' ∉ config.input.text.toList ∧ '\n' ∉ config.outputDir.text.toList ∧
      ((∀ terminal verbose now,
          (split terminal ⟨verbose, true⟩ now config Run.twoModulesTree).printed = "") ∧
        ∃ blocks, Run.Writes config Run.twoModulesTree blocks
            (Run.split (fun _ _ => ()) config Run.twoModulesTree).tree ∧
          ∀ terminal verbose now, TellsInLines terminal verbose config blocks
            (.error (.source (.duplicateModule "a" 2)))
            (split terminal ⟨verbose, false⟩ now config Run.twoModulesTree).printed) ∧
      (∀ terminal verbose now, ∃ document,
          (split terminal ⟨verbose, true⟩ now config differingTree).printed = document ++ "\n" ∧
            differingSummary.IsReportedBy document) ∧
        ∃ blocks, Run.Writes config differingTree blocks
            (Run.split (fun _ _ => ()) config differingTree).tree ∧
          ∀ terminal verbose now,
            TellsInLines terminal verbose config blocks (.ok differingSummary)
              (split terminal ⟨verbose, false⟩ now config differingTree).printed ∧
            TellsNumber 2 (terminal.summaryLine differingSummary) := by
  intro config
  have hinput : '\n' ∉ config.input.text.toList := by decide
  have hdir : '\n' ∉ config.outputDir.text.toList := by decide
  refine ⟨hinput, hdir, ?_, ?_⟩
  · have hresult : (Run.split (fun _ _ => ()) config Run.twoModulesTree).result =
        .error (.source (.duplicateModule "a" 2)) := by
      decide +kernel
    obtain ⟨-, hreport, -, hlines⟩ := split_prints config hinput hdir Run.twoModulesTree
    rw [hresult] at hreport hlines
    exact ⟨hreport, hlines⟩
  · have hresult : (Run.split (fun _ _ => ()) config differingTree).result =
        .ok differingSummary := by
      decide +kernel
    obtain ⟨-, -, hreport, blocks, hwrites, hlines⟩ :=
      split_prints config hinput hdir differingTree
    rw [hresult] at hlines
    refine ⟨hreport _ hresult, blocks, hwrites, fun terminal verbose now => ?_⟩
    have htells := hlines terminal verbose now
    obtain ⟨hmodules, hnumber⟩ := htells.tells_number _ rfl
    have hlength : blocks.length = 2 := by
      rw [← List.length_map (WrittenModule.ofBlock config.outputDir), ← hmodules]
      rfl
    exact ⟨htells, hlength ▸ hnumber⟩

end PrintedRun

end NetlistSplit
