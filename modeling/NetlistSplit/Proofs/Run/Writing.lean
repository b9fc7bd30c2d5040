import NetlistSplit.Proofs.FileSystem.Prepare
import NetlistSplit.Run

/-!
# What is written

A directory holds just the files of some blocks (`HoldsExactly`).  Writing one
more block, whose file has another name, adds that file and touches nothing else
(`HoldsExactly.of_writeModule`).  So a run that writes blocks one after the
other leaves just the files of those that it wrote, and each observation sees the
files that were written up to then (`wrote_writeBlocks`).
-/

namespace NetlistSplit

/-- The name of the file of a block. -/
def Block.fileName (block : Block) : String :=
  block.name ++ "." ++ moduleFileExtension

/-- What is told about a block that is written to `dir`. -/
def WrittenModule.ofBlock (dir : Path) (block : Block) : WrittenModule :=
  ⟨block.name, modulePath dir block.name, block.line, block.text.length⟩

namespace FileTree

open Walk

/-- Whether, in a well-formed tree, `dir` leads to the directory at `place`, and that
one holds a file for each of the blocks and nothing else. -/
structure HoldsExactly (tree : FileTree) (dir : Path) (place : Location) (blocks : List Block) :
    Prop where
  wellFormed : tree.WellFormed
  located : tree.locate .use dir = .ok (.found place .dir)
  get?_iff : ∀ below, below ≠ [] → ∀ entry, tree.get? (place ++ below) = some entry ↔
    ∃ block ∈ blocks, below = [block.fileName] ∧ entry = .file block.text
  reads : ∀ block ∈ blocks, tree.readFile (modulePath dir block.name) = .ok block.text

theorem IsFresh.holdsExactly {tree : FileTree} {dir : Path} {place : Location}
    (hfresh : tree.IsFresh dir place) : tree.HoldsExactly dir place [] where
  wellFormed := hfresh.wellFormed
  located := hfresh.located
  get?_iff := by
    intro below hbelow entry
    rw [get?_of_isEmptyAt hfresh.empty (Location.isInside_iff.mpr ⟨below, hbelow, rfl⟩)]
    simp
  reads := by
    intro block hblock
    cases hblock

theorem readFile_eq_ok_iff {tree : FileTree} {path : Path} {content : Text} :
    tree.readFile path = .ok content ↔
      ∃ place, tree.locate .use path = .ok (.found place (.file content)) := by
  unfold readFile
  constructor
  · intro hread
    split at hread
    · cases hread
    · cases hread
    · next place content' hfound =>
        obtain rfl := Except.ok.inj hread
        exact ⟨place, hfound⟩
    · cases hread
    · cases hread
  · rintro ⟨place, hfound⟩
    rw [hfound]

/-! ## One more file -/

theorem isName_fileName (block : Block) : Path.IsName block.fileName := by
  have hlast : block.fileName.toList.getLast? = some 'v' := by
    simp [Block.fileName, moduleFileExtension]
  refine ⟨?_, ?_, ?_⟩ <;>
    · intro heq
      rw [heq] at hlast
      revert hlast
      decide

theorem slash_notMem_fileName {block : Block} (hslash : '/' ∉ block.name.toList) :
    '/' ∉ block.fileName.toList := by
  simp [Block.fileName, moduleFileExtension, hslash]

/-- The path of a block has one name more than that of the directory. -/
theorem names_modulePath {tree : FileTree} {dir : Path} {block : Block} (hdir : dir.IsNormal)
    (hslash : '/' ∉ block.name.toList) :
    (modulePath dir block.name).names = dir.named ++ [block.fileName] ∧
      tree.startOf (modulePath dir block.name) = tree.startOf dir := by
  have hslash' := slash_notMem_fileName hslash
  have habsolute : (modulePath dir block.name).isAbsolute = dir.isAbsolute :=
    Path.isAbsolute_join hdir hslash'
  exact ⟨Path.names_join hdir hslash' (isName_fileName block).1, startOf_congr rfl habsolute⟩

/-- Where the file of a block is written to, if it can be written. -/
theorem writeModule_eq {tree written : FileTree} {dir path : Path} {place : Location}
    {blocks : List Block} {block : Block} (hdir : dir.IsNormal)
    (hholds : tree.HoldsExactly dir place blocks) (hslash : '/' ∉ block.name.toList)
    (hnew : ∀ earlier ∈ blocks, earlier.fileName ≠ block.fileName)
    (hwrite : tree.writeModule dir block.name block.text = .ok (path, written)) :
    path = modulePath dir block.name ∧
      tree.locate .write path = .ok (.absent place block.fileName) ∧
      written = tree.insert (place ++ [block.fileName]) (.file block.text) := by
  have hname := isName_fileName block
  have hnone : tree.get? (place ++ [block.fileName]) = none := by
    apply Option.eq_none_iff_forall_ne_some.mpr
    intro entry hentry
    obtain ⟨earlier, hearlier, hsame, -⟩ := (hholds.get?_iff _ (by simp) entry).mp hentry
    exact hnew earlier hearlier (List.cons.inj hsame).1.symm
  obtain ⟨-, hdirectory⟩ := locateNames_eq_ok_iff.mp (named_of_locate hholds.located)
  obtain ⟨fewer, hbehind⟩ := hdirectory.exists_walk_append
  obtain ⟨hnames, hstart⟩ := names_modulePath hdir hslash
  -- If the path can be walked along at all, the walk ends at the missing file.
  have hends : ∀ stop, tree.locate .write (modulePath dir block.name) = .ok stop →
      stop = .absent place block.fileName := by
    intro stop hlocate
    have hreaches := (locate_eq_ok_iff.mp hlocate).2
    rw [hnames, hstart] at hreaches
    have hlength := hreaches.length_le (List.mem_append_right _ List.mem_cons_self) hname
    have hwrite : ¬ (Purpose.write = .write ∧ endsAsDirectory block.fileName [] = true) := by
      simp [endsAsDirectory, hname.1, hname.2.1, hname.2.2]
    have hslash : [block.fileName] ≠ [""] := fun heq => hname.1 (List.cons.inj heq).1
    have hwalk := hreaches.walk_eq
    rw [hbehind .write _ (List.cons_ne_nil _ _) fun _ => hslash,
      walk_of_absent hdirectory.get?_of_found hwrite hname hlength hnone, if_pos rfl] at hwalk
    exact (Except.ok.inj hwalk).symm
  unfold writeModule at hwrite
  simp only at hwrite
  split at hwrite
  · next tree' hfile =>
      obtain ⟨rfl, rfl⟩ := Prod.mk.inj (Except.ok.inj hwrite)
      unfold writeFile at hfile
      split at hfile
      · cases hfile
      · next parent name hlocate =>
          obtain ⟨rfl, rfl⟩ := End.absent.inj (hends _ hlocate)
          exact ⟨rfl, hlocate, (Except.ok.inj hfile).symm⟩
      · cases hfile
      · next found entry _ hlocate => cases hends _ hlocate
  · cases hwrite

/-- A further file is the only thing that writing a block adds. -/
theorem HoldsExactly.of_writeModule {tree written : FileTree} {dir path : Path} {place : Location}
    {blocks : List Block} {block : Block} (hdir : dir.IsNormal)
    (hholds : tree.HoldsExactly dir place blocks) (hslash : '/' ∉ block.name.toList)
    (hnew : ∀ earlier ∈ blocks, earlier.fileName ≠ block.fileName)
    (hwrite : tree.writeModule dir block.name block.text = .ok (path, written)) :
    path = modulePath dir block.name ∧ written.HoldsExactly dir place (blocks ++ [block]) ∧
      written.eraseInside place = tree.eraseInside place := by
  obtain ⟨rfl, habsent, rfl⟩ := writeModule_eq hdir hholds hslash hnew hwrite
  obtain ⟨haccepted, hreaches⟩ := locate_eq_ok_iff.mp habsent
  obtain ⟨hdirectory, hnone⟩ := hreaches.get?_of_absent
  have hmore : tree.IsPartOf (tree.insert (place ++ [block.fileName]) (.file block.text)) :=
    isPartOf_insert _ hnone
  refine ⟨rfl, ⟨?_, ?_, ?_, ?_⟩, ?_⟩
  · refine hholds.wellFormed.insert _ hnone ?_
    rw [List.dropLast_concat, hdirectory]
  · obtain ⟨haccepted, hfound⟩ := locate_eq_ok_iff.mp hholds.located
    exact locate_eq_ok_iff.mpr ⟨haccepted, hfound.mono hmore⟩
  · intro below hbelow entry
    -- No earlier file has this name, so what is found at it is the new one.
    by_cases hfile : below = [block.fileName]
    · subst hfile
      rw [get?_insert_self tree _ (by simp)]
      constructor
      · intro hentry
        exact ⟨block, by simp, rfl, (Option.some.inj hentry).symm⟩
      · rintro ⟨other, hother, hsame, rfl⟩
        rcases List.mem_append.mp hother with hearlier | hlast
        · exact absurd (List.cons.inj hsame).1.symm (hnew other hearlier)
        · obtain rfl := List.mem_singleton.mp hlast
          rfl
    · rw [get?_insert_of_ne tree _ (by simpa using hfile), hholds.get?_iff below hbelow entry]
      constructor
      · rintro ⟨earlier, hearlier, hsame⟩
        exact ⟨earlier, List.mem_append_left _ hearlier, hsame⟩
      · rintro ⟨other, hother, hsame⟩
        rcases List.mem_append.mp hother with hearlier | hlast
        · exact ⟨other, hearlier, hsame⟩
        · obtain rfl := List.mem_singleton.mp hlast
          exact absurd hsame.1 hfile
  · intro other hother
    rcases List.mem_append.mp hother with hearlier | hlast
    · obtain ⟨found, hfound⟩ := readFile_eq_ok_iff.mp (hholds.reads other hearlier)
      obtain ⟨haccepted, hfound⟩ := locate_eq_ok_iff.mp hfound
      exact readFile_eq_ok_iff.mpr ⟨found, locate_eq_ok_iff.mpr ⟨haccepted, hfound.mono hmore⟩⟩
    · obtain rfl := List.mem_singleton.mp hlast
      have hnot : ∀ target, Entry.file other.text ≠ .link target := fun target heq => nomatch heq
      have hfound := (hreaches.found_insert hnot).use_of_found hnot
      exact readFile_eq_ok_iff.mpr ⟨_, locate_eq_ok_iff.mpr ⟨haccepted, hfound⟩⟩
  · exact eraseInside_insert _ (Location.isInside_iff.mpr ⟨[block.fileName], by simp, rfl⟩)

end FileTree

namespace Run

open FileTree

variable {ε : Type}

/-! ## One block after the other -/

/-- Whether `events` are the observations of `blocks`.  Each is made of a tree that
holds just the files of the blocks up to this one, and of those `done` before. -/
inductive Observed (observe : FileTree → WrittenModule → ε) (dir : Path) (place : Location) :
    (done blocks : List Block) → (events : List ε) → Prop where
  | nil {done : List Block} : Observed observe dir place done [] []
  | cons {done later : List Block} {block : Block} {events : List ε} {tree : FileTree}
      (hholds : tree.HoldsExactly dir place (done ++ [block]))
      (hlater : Observed observe dir place (done ++ [block]) later events) :
      Observed observe dir place done (block :: later)
        (observe tree (.ofBlock dir block) :: events)

/-- Whether `progress` comes from writing `wrote`, and from a first failure at the
block behind it, if `later` holds one. -/
structure Progress.Wrote (progress : Progress ε) (observe : FileTree → WrittenModule → ε)
    (dir : Path) (place : Location) (tree : FileTree) (done wrote later : List Block) : Prop where
  holds : progress.tree.HoldsExactly dir place (done ++ wrote)
  outside_eq : progress.tree.eraseInside place = tree.eraseInside place
  written_eq : progress.written = wrote.map (.ofBlock dir)
  observed : Observed observe dir place done wrote progress.events
  failure_eq : match later with
    | [] => progress.failure = none
    | block :: _ => ∃ e, progress.tree.writeModule dir block.name block.text = .error e ∧
        progress.failure = some e

theorem Progress.Wrote.untouched {progress : Progress ε} {observe : FileTree → WrittenModule → ε}
    {dir : Path} {place other : Location} {tree : FileTree} {done wrote later : List Block}
    (hwrote : progress.Wrote observe dir place tree done wrote later)
    (hother : ¬ other.isInside place = true) : progress.tree.get? other = tree.get? other :=
  get?_of_eraseInside_eq hwrote.outside_eq hother

theorem writeBlocks_cons (observe : FileTree → WrittenModule → ε) (dir : Path) (tree : FileTree)
    (block : Block) (later : List Block) :
    writeBlocks observe dir tree (block :: later) =
      match tree.writeModule dir block.name block.text with
      | .error e => ⟨tree, [], [], some e⟩
      | .ok (path, tree) =>
        let written : WrittenModule := ⟨block.name, path, block.line, block.text.length⟩
        let progress := writeBlocks observe dir tree later
        ⟨progress.tree, written :: progress.written, observe tree written :: progress.events,
          progress.failure⟩ := by
  exact rfl

theorem wrote_writeBlocks {observe : FileTree → WrittenModule → ε} {dir : Path}
    {place : Location} {tree : FileTree} {done blocks : List Block} (hdir : dir.IsNormal)
    (hholds : tree.HoldsExactly dir place done)
    (hslash : ∀ block ∈ blocks, '/' ∉ block.name.toList)
    (hdiffer : (done ++ blocks).Pairwise fun first second => first.fileName ≠ second.fileName) :
    ∃ wrote later, blocks = wrote ++ later ∧
      (writeBlocks observe dir tree blocks).Wrote observe dir place tree done wrote later := by
  -- The induction is on the blocks.  What goes along is that the directory holds just the
  -- files of the blocks that were written before.
  induction blocks generalizing tree done with
  | nil =>
      refine ⟨[], [], rfl, ?_, rfl, rfl, .nil, rfl⟩
      rw [List.append_nil]
      exact hholds
  | cons block later ih =>
      cases hwrite : tree.writeModule dir block.name block.text with
      | error e =>
          rw [writeBlocks_cons, hwrite]
          refine ⟨[], block :: later, rfl, ?_, rfl, rfl, .nil, e, hwrite, rfl⟩
          rw [List.append_nil]
          exact hholds
      | ok result =>
          obtain ⟨path, written⟩ := result
          have hnew : ∀ earlier ∈ done, earlier.fileName ≠ block.fileName := fun earlier hearlier =>
            (List.pairwise_append.mp hdiffer).2.2 earlier hearlier block List.mem_cons_self
          obtain ⟨rfl, hnext, houtside⟩ := hholds.of_writeModule hdir
            (hslash block List.mem_cons_self) hnew hwrite
          have hrest : (done ++ [block] ++ later).Pairwise
              fun first second => first.fileName ≠ second.fileName := by
            rw [List.append_assoc]
            exact hdiffer
          obtain ⟨wrote, behind, hsplit, hwrote⟩ := ih hnext
            (fun other hother => hslash other (List.mem_cons_of_mem block hother)) hrest
          rw [writeBlocks_cons, hwrite]
          refine ⟨block :: wrote, behind, by rw [hsplit]; rfl, ?_, ?_, ?_, ?_, ?_⟩
          · have hall := hwrote.holds
            rw [List.append_assoc] at hall
            exact hall
          · exact hwrote.outside_eq.trans houtside
          · exact congrArg (WrittenModule.ofBlock dir block :: ·) hwrote.written_eq
          · exact .cons hnext hwrote.observed
          · exact hwrote.failure_eq

end Run

end NetlistSplit
