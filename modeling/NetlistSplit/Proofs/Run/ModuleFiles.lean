import NetlistSplit.Proofs.Run.Course

/-!
# The files of a run

Every file that a run writes is the file of a module: it stands directly in the output
directory, under the module's name and the extension (`WrittenModule.IsIn`).  A
module's name is an identifier, so it holds no slash and no dots and cannot lead
elsewhere.  The names of the files of one run differ by more than the case of their
letters, so no file is written twice, and what was told about each of them is still
right when the run ends (`split_writesModules`).

## Strategy

A run that writes anything writes blocks of the scan (`Course.written`).  Their names
are identifiers (`Scanner.isIdentifier_of_mem_items`), and in the end the directory holds
just their files (`HoldsExactly`).
-/

namespace NetlistSplit

/-! ## Files of modules -/

/-- Whether what is told about a file makes it the file of a module, which stands
directly in `dir`. -/
structure WrittenModule.IsIn (written : WrittenModule) (dir : Path) : Prop where
  name_isIdentifier : IsIdentifier written.name
  path_eq : written.path = modulePath dir written.name
  isAbsolute_eq : written.path.isAbsolute = dir.isAbsolute
  components_eq : written.path.components = dir.components ++ [written.name ++ ".v"]
  fileName?_eq : written.path.fileName? = some (written.name ++ ".v")
  slash_notMem : '/' ∉ (written.name ++ ".v").toList

theorem Block.fileName_eq (block : Block) : block.fileName = block.name ++ ".v" := by
  rw [fileName, String.append_assoc]
  rfl

theorem WrittenModule.isIn_ofBlock {dir : Path} {block : Block} (hdir : dir.IsNormal)
    (hname : IsIdentifier block.name) : (ofBlock dir block).IsIn dir := by
  have hfile := FileTree.isName_fileName block
  have hslash := FileTree.slash_notMem_fileName hname.slash_notMem
  have hnamed : (modulePath dir block.name).named = dir.named ++ [block.fileName] :=
    Path.named_join hdir hslash hfile.1
  have hnormal : (modulePath dir block.name).IsNormal := by
    rw [Path.IsNormal, hnamed]
    refine ⟨List.concat_ne_nil _ _, fun name hmem => ?_⟩
    rcases List.mem_append.mp hmem with hmem | hmem
    · exact hdir.2 name hmem
    · exact List.mem_singleton.mp hmem ▸ hfile
  have hcomponents : (modulePath dir block.name).components =
      dir.components ++ [block.fileName] := by
    rw [hnormal.components_eq, hnamed, hdir.components_eq]
  have hlast : (modulePath dir block.name).fileName? = some block.fileName := by
    rw [Path.fileName?, hcomponents, List.getLast?_concat]
    split
    · next hdot => exact absurd (Option.some.inj hdot) hfile.2.1
    · next hdots => exact absurd (Option.some.inj hdots) hfile.2.2
    · rfl
  have habsolute : (modulePath dir block.name).isAbsolute = dir.isAbsolute :=
    Path.isAbsolute_join hdir hslash
  rw [block.fileName_eq] at hcomponents hlast hslash
  exact ⟨hname, rfl, habsolute, hcomponents, hlast, hslash⟩

/-- Names that differ by more than case make for files that do. -/
theorem caseless_fileName?_ne {dir : Path} {first second : Block} (hdir : dir.IsNormal)
    (hfirst : IsIdentifier first.name) (hsecond : IsIdentifier second.name)
    (hdiffer : Plan.caseless first.name ≠ Plan.caseless second.name) :
    (modulePath dir first.name).fileName?.map Plan.caseless ≠
      (modulePath dir second.name).fileName?.map Plan.caseless := by
  intro hsame
  have hfile : (modulePath dir first.name).fileName? = some (first.name ++ ".v") :=
    (WrittenModule.isIn_ofBlock hdir hfirst).fileName?_eq
  have hfile' : (modulePath dir second.name).fileName? = some (second.name ++ ".v") :=
    (WrittenModule.isIn_ofBlock hdir hsecond).fileName?_eq
  rw [hfile, hfile'] at hsame
  have hchars := Option.some.inj hsame
  simp only [Plan.caseless, String.toList_append, List.map_append,
    List.append_cancel_right_eq] at hchars
  exact hdiffer hchars

namespace FileTree

open Walk

/-- The path of a block leads to its file. -/
theorem HoldsExactly.locate {tree : FileTree} {dir : Path} {place : Location}
    {blocks : List Block} {block : Block} (hholds : tree.HoldsExactly dir place blocks)
    (hdir : dir.IsNormal) (hname : IsIdentifier block.name) (hblock : block ∈ blocks) :
    tree.locate .use (modulePath dir block.name) =
      .ok (.found (place ++ [block.fileName]) (.file block.text)) := by
  have hfile := isName_fileName block
  obtain ⟨found, hfound⟩ := readFile_eq_ok_iff.mp (hholds.reads block hblock)
  obtain ⟨haccepted, hreaches⟩ := locate_eq_ok_iff.mp hfound
  obtain ⟨hnames, hstart⟩ := names_modulePath hdir hname.slash_notMem
  rw [hnames] at hreaches
  have hlength := hreaches.length_le (List.mem_append_right _ List.mem_cons_self) hfile
  obtain ⟨-, hdirectory⟩ := locateNames_eq_ok_iff.mp (named_of_locate hholds.located)
  obtain ⟨fewer, hbehind⟩ := hdirectory.exists_walk_append
  have hget : tree.get? (place ++ [block.fileName]) = some (.file block.text) :=
    (hholds.get?_iff _ (by simp) _).mpr ⟨block, hblock, rfl, rfl⟩
  have hlink : ∀ target, Entry.file block.text ≠ .link target := by
    intro target heq
    cases heq
  have hlast : Reaches tree .use fewer place [block.fileName]
      (.found (place ++ [block.fileName]) (.file block.text)) :=
    .down hdirectory.get?_of_found (by simp) hfile hlength hget hlink (.here hget)
  refine locate_eq_ok_iff.mpr ⟨haccepted, walk_eq_ok_iff.mp ?_⟩
  rw [hnames, hstart, hbehind .use _ (List.cons_ne_nil _ _) (by simp)]
  exact hlast.walk_eq

end FileTree

namespace Run

open FileTree

/-! ## What is told and what is found -/

/-- What is told about a file, and what the file holds at that moment. -/
def tell (seen : FileTree) (written : WrittenModule) :
    WrittenModule × Except AccessError Text :=
  (written, seen.readFile written.path)

theorem Observed.eq_map {dir : Path} {place : Location} {done blocks : List Block}
    {events : List (WrittenModule × Except AccessError Text)}
    (hobserved : Observed tell dir place done blocks events) :
    events = blocks.map fun block => (WrittenModule.ofBlock dir block, .ok block.text) := by
  induction hobserved with
  | nil => rfl
  | cons hholds hlater ih =>
      have hread := hholds.reads _ (List.mem_append_right _ List.mem_cons_self)
      rw [List.map_cons, ← ih, tell]
      exact congrArg (fun read => (_, read) :: _) hread

/-- Whether the files that a run writes are files of modules, and what is told about
them is right in the end.  What is told goes with what the file held at that moment. -/
structure WritesModules (run : Run (WrittenModule × Except AccessError Text)) (config : Config)
    (tree : FileTree) : Prop where
  isIn : ∀ event ∈ run.events, event.1.IsIn config.outputDir
  names_differ : run.events.Pairwise fun first second =>
    first.1.path.fileName?.map Plan.caseless ≠ second.1.path.fileName?.map Plan.caseless
  describes : ∀ event ∈ run.events, ∃ raw code block,
    tree.readNetlist config.input = .ok raw ∧ Comment.strip raw = .ok code ∧
      .ok block ∈ (Scanner.ofText code).items ∧
      event = (.ofBlock config.outputDir block, .ok block.text) ∧
      run.tree.readFile event.1.path = .ok block.text
  files : ∀ place content, run.tree.get? place = some (.file content) →
    tree.get? place = some (.file content) ∨
      ∃ event ∈ run.events, run.tree.locate .use event.1.path = .ok (.found place (.file content))

/-- Preparing a directory makes no files. -/
theorem file_of_prepareDir {tree prepared : FileTree} {dir : Path}
    {result : Except AccessError Unit} {place : Location} {content : Text}
    (htree : tree.WellFormed) (hdir : dir.IsNormal)
    (hprepare : tree.prepareDir dir = (result, prepared))
    (hget : prepared.get? place = some (.file content)) :
    tree.get? place = some (.file content) := by
  rcases get?_of_prepareDir htree hdir hprepare hget with hbefore | hentry
  · exact hbefore
  · cases hentry

/-- A run that tells nothing leaves no file behind that was not there. -/
theorem writesModules_of_nothing {config : Config} {tree left : FileTree} {e : SplitError}
    (hleft : ∀ place content, left.get? place = some (.file content) →
      tree.get? place = some (.file content)) :
    WritesModules ⟨left, [], .error e⟩ config tree := by
  refine ⟨?_, .nil, ?_, fun place content hget => .inl (hleft place content hget)⟩
  · intro event hevent
    cases hevent
  · intro event hevent
    cases hevent

/-- Whatever a run comes to, it writes nothing but files of modules, each of them
once. -/
theorem split_writesModules (config : Config) {tree : FileTree} (htree : tree.WellFormed)
    (hdir : config.outputDir.IsNormal) :
    (split tell config tree).WritesModules config tree := by
  have hcourse := split_course tell config htree hdir
  generalize split tell config tree = run at hcourse
  cases hcourse with
  | early e => exact writesModules_of_nothing fun place content hget => hget
  | unprepared hread hplan hprepare =>
      exact writesModules_of_nothing fun place content => file_of_prepareDir htree hdir hprepare
  | @written raw code prepared outer plan wrote later hread hstrip hplan hprepare hprepared hsplit
      hwrote =>
      have hmeets : plan.Meets [] (Scanner.ofText code).items :=
        hplan ▸ Plan.meets_ofItems [] (Scanner.ofText code).items
      obtain ⟨rest, hitems⟩ := hmeets.items_eq
      have hmem : ∀ block ∈ wrote, .ok block ∈ (Scanner.ofText code).items := by
        intro block hblock
        rw [hitems, hsplit]
        exact List.mem_append_left rest (List.mem_map_of_mem (List.mem_append_left later hblock))
      have hname : ∀ block ∈ wrote, IsIdentifier block.name :=
        fun block hblock => Scanner.isIdentifier_of_mem_items (hmem block hblock)
      have hdiffer := hmeets.names_differ
      rw [hsplit] at hdiffer
      have hholds := hwrote.holds
      rw [List.nil_append] at hholds
      have hevents : (ofPlan tell config plan prepared).events =
          wrote.map fun block => (.ofBlock config.outputDir block, .ok block.text) :=
        hwrote.observed.eq_map
      refine ⟨?_, ?_, ?_, ?_⟩
      · rw [hevents]
        intro event hevent
        obtain ⟨block, hblock, rfl⟩ := List.mem_map.mp hevent
        exact WrittenModule.isIn_ofBlock hdir (hname block hblock)
      · rw [hevents, List.pairwise_map]
        exact (List.pairwise_append.mp hdiffer).1.imp_of_mem fun hfirst hsecond =>
          caseless_fileName?_ne hdir (hname _ hfirst) (hname _ hsecond)
      · rw [hevents]
        intro event hevent
        obtain ⟨block, hblock, rfl⟩ := List.mem_map.mp hevent
        exact ⟨raw, code, block, hread, hstrip, hmem block hblock, rfl,
          hholds.reads block hblock⟩
      · intro place content hget
        by_cases hinside : place.isInside outer = true
        · -- All that is inside of the directory is the files that were written.
          obtain ⟨below, hbelow, rfl⟩ := Location.isInside_iff.mp hinside
          obtain ⟨block, hblock, rfl, hcontent⟩ := (hholds.get?_iff below hbelow _).mp hget
          obtain rfl : content = block.text := by simpa using hcontent
          rw [hevents]
          exact .inr ⟨_, List.mem_map_of_mem hblock,
            hholds.locate hdir (hname block hblock) hblock⟩
        · rw [ofPlan, hwrote.untouched hinside] at hget
          exact .inl (file_of_prepareDir htree hdir hprepare hget)

/-- The second module is not written, so that the file of the first one stays. -/
theorem split_writesModules_twoModules :
    twoModulesTree.WellFormed ∧ Path.IsNormal ⟨"out/"⟩ ∧
      (split tell ⟨⟨"in.v"⟩, ⟨"out/"⟩⟩ twoModulesTree).WritesModules ⟨⟨"in.v"⟩, ⟨"out/"⟩⟩
        twoModulesTree ∧
      (split tell ⟨⟨"in.v"⟩, ⟨"out/"⟩⟩ twoModulesTree).events.length = 1 := by
  have htree : twoModulesTree.WellFormed := by decide
  have hdir : Path.IsNormal ⟨"out/"⟩ := by decide
  exact ⟨htree, hdir, split_writesModules ⟨⟨"in.v"⟩, ⟨"out/"⟩⟩ htree hdir, by decide +kernel⟩

end Run

end NetlistSplit
