import Mathlib.Data.String.Basic
import NetlistSplit.Proofs.FileSystem.LastName

/-!
# The directories on the way to a path

What the system takes as a path it takes as the path of a directory on the way too
(`isAccepted_of_mem_tail`).  So making a directory and those on the way to it succeeds if each
of them that exists is a directory and no name is too long (`makeDirAll_of_missing`), and
fails if one of them exists and is none (`makeDirAll_of_blocked`).
-/

namespace NetlistSplit

namespace Path

open Walk

variable {path above : Path}

/-! ## Their paths -/

/-- A text is what stands between the slashes, with the slashes. -/
theorem toList_eq_intercalate (path : Path) :
    path.text.toList = ['/'].intercalate (path.parts.map String.toList) := by
  have hparts : path.parts.map String.toList = path.text.toList.splitOn '/' := by
    simp [parts]
  rw [hparts, List.intercalate_splitOn]

theorem sublist_intercalate {α : Type} (separator : List α) {some all : List (List α)}
    (hsome : some.Sublist all) :
    (separator.intercalate some).Sublist (separator.intercalate all) := by
  induction hsome with
  | slnil => exact List.Sublist.refl _
  | @cons some all part hsome ih =>
      cases all with
      | nil =>
          rw [List.sublist_nil.mp hsome]
          exact List.nil_sublist _
      | cons second later =>
          rw [List.intercalate_cons_cons]
          exact ih.trans (List.sublist_append_right _ _)
  | @cons_cons some all part hsome ih =>
      cases all with
      | nil => rw [List.sublist_nil.mp hsome]
      | cons first rest =>
          rw [List.intercalate_cons_cons]
          cases some with
          | nil =>
              rw [List.intercalate_singleton, List.append_assoc]
              exact List.sublist_append_left _ _
          | cons second later =>
              rw [List.intercalate_cons_cons]
              exact ih.append_left _

/-- A path of some of the parts of another is taken by the system if the other is. -/
theorem isAccepted_of_sublist (hparts : above.parts.Sublist path.parts) (htext : above.text ≠ "")
    (haccepted : path.IsAccepted) : above.IsAccepted := by
  have htexts : above.text.toList.Sublist path.text.toList := by
    rw [toList_eq_intercalate above, toList_eq_intercalate path]
    exact sublist_intercalate _ (hparts.map String.toList)
  refine ⟨fun hnul => haccepted.1 (htexts.subset hnul), htext, Nat.le_trans ?_ haccepted.2.2⟩
  have hsize := String.utf8Len_le_of_sublist htexts
  rwa [← String.utf8ByteSize_ofList, ← String.utf8ByteSize_ofList, String.ofList_toList,
    String.ofList_toList] at hsize

/-- An absolute path begins with an empty part. -/
theorem exists_parts_of_isAbsolute (habsolute : path.isAbsolute = true) :
    ∃ later, path.parts = "" :: later := by
  cases htext : path.text.toList with
  | nil => simp [isAbsolute, htext] at habsolute
  | cons c chars =>
      obtain rfl : c = '/' := by simpa [isAbsolute, htext] using habsolute
      refine ⟨(chars.splitOn '/').map String.ofList, ?_⟩
      rw [parts, htext, ← List.nil_append ('/' :: chars), List.splitOn_append_cons_self,
        List.map_append]
      rfl

section Tail

variable (hpath : path.IsNormal) (habove : above ∈ path.upward.tail)

include hpath habove

theorem exists_of_mem_tail :
    ∃ front more, front ≠ [] ∧ path.named = front ++ more ∧
      above.parts = (if path.isAbsolute then [""] else []) ++ front := by
  rw [hpath.upward_eq, List.tail_cons] at habove
  obtain ⟨count, hcount, rfl⟩ := List.mem_map.mp habove
  rw [List.mem_reverse, List.mem_range'_1] at hcount
  have hfront : path.named.take count ≠ [] := by
    intro hnil
    obtain hzero | hnone := List.take_eq_nil_iff.mp hnil
    · omega
    · exact hpath.1 hnone
  have hslash : ∀ name ∈ path.named.take count, '/' ∉ name.toList :=
    fun name hmem => IsNormal.slash_notMem (List.mem_of_mem_take hmem)
  exact ⟨_, path.named.drop count, hfront, (List.take_append_drop _ _).symm,
    parts_ofComponents hfront hslash⟩

/-- The path of a directory on the way has no slash at the end. -/
theorem getLast?_parts_of_mem_tail : above.parts.getLast? ≠ some "" := by
  obtain ⟨front, more, hfront, hnamed, hparts⟩ := exists_of_mem_tail hpath habove
  rw [hparts, List.getLast?_append, List.getLast?_eq_some_getLast hfront, Option.some_or]
  intro hlast
  have hmem : front.getLast hfront ∈ path.named :=
    hnamed ▸ List.mem_append_left more (List.getLast_mem hfront)
  exact (hpath.2 _ hmem).1 (Option.some.inj hlast)

theorem names_eq_of_mem_tail : above.names = above.named :=
  names_of_getLast? (getLast?_parts_of_mem_tail hpath habove)

theorem isAccepted_of_mem_tail (haccepted : path.IsAccepted) : above.IsAccepted := by
  obtain ⟨front, more, hfront, hnamed, hparts⟩ := exists_of_mem_tail hpath habove
  have hsome : front.Sublist path.named := hnamed ▸ List.sublist_append_left front more
  refine isAccepted_of_sublist ?_ ?_ haccepted
  · rw [hparts]
    split
    · next habsolute =>
        obtain ⟨later, hlater⟩ := exists_parts_of_isAbsolute habsolute
        have hnamed : path.named = later.filter (· ≠ "") := by
          rw [named, hlater]
          rfl
        rw [hlater]
        exact ((hnamed ▸ hsome).trans List.filter_sublist).cons_cons ""
    · exact hsome.trans List.filter_sublist
  · intro htext
    apply getLast?_parts_of_mem_tail hpath habove
    rw [parts, htext]
    rfl

end Tail

/-- The names of a directory on the way are the first ones of the path, but not all of them. -/
theorem IsUpward.exists_behind {absolute : Bool} {names : List String} {above : List Path}
    {outer : Path} (hdirs : IsUpward absolute names (path :: above)) (houter : outer ∈ above) :
    outer.isAbsolute = path.isAbsolute ∧ ∃ more, more ≠ [] ∧ path.named = outer.named ++ more := by
  cases hdirs with
  | @cons _ name _ _ hname habsolute hnamed habove =>
      obtain ⟨habsolute', more, hmore⟩ := habove.exists_append houter
      refine ⟨habsolute'.trans habsolute.symm, more ++ [name], by simp, ?_⟩
      rw [hnamed, hmore, List.append_assoc]

end Path

namespace FileTree

open Walk

variable {tree made final : FileTree} {dir outer : Path} {above dirs : List Path}
  {parent place : Location} {name : String} {names : List String} {absolute : Bool}

/-! ## Making all of them -/

/-- One name behind a path that leads to a directory. -/
theorem endsIn_of_locate (hfound : tree.locate .use outer = .ok (.found parent .dir))
    (haccepted : dir.IsAccepted) (hname : Path.IsName name)
    (hlength : name.utf8ByteSize ≤ nameLimit) (habsolute : dir.isAbsolute = outer.isAbsolute)
    (hnamed : dir.named = outer.named ++ [name]) : tree.EndsIn dir parent name where
  accepted := haccepted
  named_eq := by rw [hnamed, List.dropLast_concat]
  isName := hname
  length_le := hlength
  way := by
    rw [hnamed, List.dropLast_concat, startOf_congr rfl habsolute]
    exact (locateNames_eq_ok_iff.mp (named_of_locate hfound)).2

/-- Behind a missing entry there is nothing. -/
theorem EndsIn.walk_of_none {more : List String} (hends : tree.EndsIn dir parent name)
    (hnone : tree.get? (parent ++ [name]) = none) (hmore : more ≠ []) :
    tree.walk .inspect linkLimit (tree.startOf dir) (dir.named ++ more) =
      .error .noSuchEntry := by
  obtain ⟨fewer, hbehind⟩ := hends.way.exists_walk_append
  rw [hends.named_eq, List.append_assoc, hbehind .inspect _ (by simp) (by simp),
    List.singleton_append, walk_of_absent hends.way.get?_of_found (by simp) hends.isName
      hends.length_le hnone, if_neg hmore]

/-- What all of the directories on the way to a path have to be like for it to be made. -/
structure CanBeMade (tree : FileTree) (dirs : List Path) : Prop where
  accepted : ∀ dir ∈ dirs, dir.IsAccepted
  length_le : ∀ dir ∈ dirs, ∀ name ∈ dir.named, name.utf8ByteSize ≤ nameLimit
  start : ∀ dir ∈ dirs, tree.get? (tree.startOf dir) = some .dir
  isDir : ∀ dir ∈ dirs, ∀ place entry,
    tree.locateNames .inspect dir dir.named = .ok (.found place entry) → tree.isDir dir = true

theorem CanBeMade.tail (hcan : tree.CanBeMade (dir :: above)) : tree.CanBeMade above where
  accepted := fun outer houter => hcan.accepted outer (List.mem_cons_of_mem dir houter)
  length_le := fun outer houter => hcan.length_le outer (List.mem_cons_of_mem dir houter)
  start := fun outer houter => hcan.start outer (List.mem_cons_of_mem dir houter)
  isDir := fun outer houter => hcan.isDir outer (List.mem_cons_of_mem dir houter)

theorem CanBeMade.get?_eq_none (hcan : tree.CanBeMade (dir :: above))
    (hnot : tree.isDir dir = false) (hends : tree.EndsIn dir parent name) :
    tree.get? (parent ++ [name]) = none := by
  cases hget : tree.get? (parent ++ [name]) with
  | none => rfl
  | some entry =>
      have hfound : tree.locateNames .inspect dir dir.named =
          .ok (.found (parent ++ [name]) entry) := by
        rw [hends.locateNames_eq, lookUp, hget]
      rw [hcan.isDir dir List.mem_cons_self _ _ hfound] at hnot
      cases hnot

/-- Whether nothing is found behind a path, and it is made together with those of the `dirs` that
are missing. -/
structure MakesAll (tree : FileTree) (dir : Path) (dirs : List Path) : Prop where
  walk_eq : ∀ more, more ≠ [] →
    tree.walk .inspect linkLimit (tree.startOf dir) (dir.named ++ more) = .error .noSuchEntry
  makes : ∃ made later final, tree.makeOutermost dirs = .ok (made, later) ∧
    made.makeEach later = (.ok (), final)

/-- Where the directory above exists, there is nothing to make but the directory itself. -/
theorem EndsIn.makesAll (hends : tree.EndsIn dir parent name)
    (hnone : tree.get? (parent ++ [name]) = none) : tree.MakesAll dir (dir :: above) where
  walk_eq := fun more hmore => hends.walk_of_none hnone hmore
  makes := by
    refine ⟨tree.insert (parent ++ [name]) .dir, [], _, ?_, rfl⟩
    rw [makeOutermost, hends.makeDir_eq hnone]

/-- Directories that can be made are made, the outermost that is missing first. -/
theorem CanBeMade.makesAll (hcan : tree.CanBeMade (dir :: above)) (htree : tree.WellFormed)
    (hdirs : Path.IsUpward absolute names (dir :: above)) (hnot : tree.isDir dir = false) :
    tree.MakesAll dir (dir :: above) := by
  have haccepted := hcan.accepted dir List.mem_cons_self
  have hlength := hcan.length_le dir List.mem_cons_self
  induction above generalizing dir names with
  | nil =>
      cases hdirs with
      | @cons _ name _ _ hname habsolute hnamed habove =>
          cases habove with
          | nil =>
              have hends : tree.EndsIn dir (tree.startOf dir) name :=
                ⟨haccepted, by rw [hnamed]; rfl, hname, hlength name (by rw [hnamed]; simp),
                  by rw [hnamed]; exact .here (hcan.start dir List.mem_cons_self)⟩
              exact hends.makesAll (hcan.get?_eq_none hnot hends)
  | cons outer higher ih =>
      obtain ⟨name, hname, habsolute, hnamed, habove⟩ := hdirs.exists_outer
      have hlength' : name.utf8ByteSize ≤ nameLimit := hlength name (by rw [hnamed]; simp)
      cases houter : tree.isDir outer with
      | true =>
          obtain ⟨parent, hfound⟩ := resolve?_eq_some_iff.mp (of_decide_eq_true houter)
          have hends := endsIn_of_locate hfound haccepted hname hlength' habsolute hnamed
          exact hends.makesAll (hcan.get?_eq_none hnot hends)
      | false =>
          obtain ⟨hbehind, made, later, final, hmade, heach⟩ := ih hcan.tail habove houter
            (hcan.tail.accepted outer List.mem_cons_self)
            (hcan.tail.length_le outer List.mem_cons_self)
          have hstart : tree.startOf dir = tree.startOf outer := startOf_congr rfl habsolute
          have hmake : tree.makeDir dir = .error (.system .noSuchEntry) := by
            rw [makeDir, directoryNames_eq, locateNames_of_isAccepted haccepted, hnamed, hstart,
              hbehind [name] (List.cons_ne_nil name [])]
            rfl
          refine ⟨fun more hmore => ?_, made, later ++ [dir], ?_⟩
          · rw [hnamed, hstart, List.append_assoc]
            exact hbehind _ (by simp)
          -- The directory above was made just now, so it is empty.
          obtain ⟨place, hfresh⟩ : ∃ place, final.IsFresh outer place := by
            cases making_of_makeOutermost htree habove houter hmade heach with
            | all hbase habsent hnew hgrows => exact ⟨_, isFresh_insert hbase habsent⟩
          have hends := endsIn_of_locate hfresh.located haccepted hname hlength' habsolute hnamed
          have hnone : final.get? (place ++ [name]) = none :=
            get?_of_isEmptyAt hfresh.empty (Location.isInside_iff.mpr ⟨[name], by simp, rfl⟩)
          refine ⟨final.insert (place ++ [name]) .dir, ?_, ?_⟩
          · rw [makeOutermost, hmake, hmade]
            rfl
          · rw [makeEach_concat, heach]
            simp only [makeEach, hends.makeDir_eq hnone]

/-- What is on the way to nowhere is made with all that is missing. -/
theorem makeDirAll_of_missing (hcan : tree.CanBeMade dir.upward) (htree : tree.WellFormed)
    (hdir : dir.IsNormal) (hnot : tree.isDir dir = false) :
    ∃ final, tree.makeDirAll dir = (.ok (), final) := by
  obtain ⟨above, hupward, hdirs⟩ := hdir.isUpward
  rw [hupward] at hcan
  obtain ⟨-, made, later, final, hmade, heach⟩ := hcan.makesAll htree hdirs hnot
  refine ⟨final, ?_⟩
  rw [makeDirAll, hupward, hmade]
  exact heach

/-! ## Making none of them -/

/-- Whether something stands at a path that is no directory and leads to none. -/
structure IsBlocked (tree : FileTree) (outer : Path) : Prop where
  found : ∃ place entry, tree.locateNames .inspect outer outer.named = .ok (.found place entry)
  isDir_eq : tree.isDir outer = false

/-- No path gets behind what is no directory. -/
theorem IsBlocked.locateNames_ne {more : List String} {stop : End} (hblocked : tree.IsBlocked outer)
    (habsolute : outer.isAbsolute = dir.isAbsolute) (hnamed : dir.named = outer.named ++ more)
    (hmore : more ≠ []) : tree.locateNames .inspect dir dir.named ≠ .ok stop := by
  intro hlocate
  obtain ⟨place, entry, hfound⟩ := hblocked.found
  obtain ⟨-, hreaches⟩ := locateNames_eq_ok_iff.mp hlocate
  rw [hnamed] at hreaches
  obtain ⟨mid, fewer, hway, -⟩ := hreaches.split hmore
  rw [← startOf_congr rfl habsolute] at hway
  have hlocated := locate_of_named
    (locateNames_eq_ok_iff.mpr ⟨(locateNames_eq_ok_iff.mp hfound).1, hway⟩)
  have hisDir : tree.isDir outer = true :=
    decide_eq_true (resolve?_eq_some_iff.mpr ⟨mid, hlocated⟩)
  rw [hblocked.isDir_eq] at hisDir
  cases hisDir

theorem IsBlocked.resolve?_eq {more : List String} (hblocked : tree.IsBlocked outer)
    (habsolute : outer.isAbsolute = dir.isAbsolute) (hnamed : dir.named = outer.named ++ more)
    (hmore : more ≠ []) : tree.resolve? dir = none :=
  resolve?_eq_none fun _ _ => hblocked.locateNames_ne habsolute hnamed hmore

/-- Behind what is no directory none is made. -/
theorem IsBlocked.makeOutermost_eq (hblocked : tree.IsBlocked outer)
    (hdirs : Path.IsUpward absolute names dirs) (houter : outer ∈ dirs) :
    ∃ e, tree.makeOutermost dirs = .error e := by
  induction hdirs with
  | nil => cases houter
  | @cons names name dir above hname habsolute hnamed habove ih =>
      rw [makeOutermost]
      rcases List.mem_cons.mp houter with rfl | houter
      · have hne : ¬ AccessError.system .entryExists = .system .noSuchEntry := by decide
        obtain ⟨place, entry, hfound⟩ := hblocked.found
        have hmake : tree.makeDir outer = .error (.system .entryExists) := by
          rw [makeDir, directoryNames_eq, hfound]
        refine ⟨.system .entryExists, ?_⟩
        simp only [hmake, if_neg hne, hblocked.isDir_eq, Bool.false_eq_true, and_false, if_false]
      · obtain ⟨hsame, more, hmore, hbehind⟩ :=
          (Path.IsUpward.cons hname habsolute hnamed habove).exists_behind houter
        have hnot := isDir_of_resolve? (hblocked.resolve?_eq hsame hbehind hmore)
        cases hmake : tree.makeDir dir with
        | ok made =>
            obtain ⟨parent, name, habsent, -⟩ := makeDir_eq_ok_iff.mp hmake
            exact absurd habsent (hblocked.locateNames_ne hsame hbehind hmore)
        | error e =>
            obtain ⟨e', habove⟩ := ih houter
            simp only [hnot, Bool.false_eq_true, and_false, if_false, habove]
            split
            · exact ⟨e', rfl⟩
            · exact ⟨e, rfl⟩

theorem IsBlocked.makeDirAll_eq (hblocked : tree.IsBlocked outer) (hdir : dir.IsNormal)
    (houter : outer ∈ dir.upward) : ∃ e, tree.makeDirAll dir = (.error e, tree) := by
  obtain ⟨above, hupward, hdirs⟩ := hdir.isUpward
  obtain ⟨e, hmade⟩ := hblocked.makeOutermost_eq hdirs (hupward ▸ houter)
  refine ⟨e, ?_⟩
  rw [makeDirAll, hupward, hmade]

end FileTree

end NetlistSplit
