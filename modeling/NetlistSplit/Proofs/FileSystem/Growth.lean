import NetlistSplit.Proofs.FileSystem.Reaches

/-!
# Walks in trees that hold more, or less

A walk to an entry goes the same way in a tree that holds more (`Reaches.mono`).
Where a walk ends at nothing, a directory or a file may be put, and then the walk
ends there (`Reaches.found_insert`).

In a tree that holds less it goes the same way as long as there is one
(`Reaches.walk_of_less`); where it breaks off, something is missing now.  So a walk
stays the same if just those entries stay that it comes by
(`Reaches.of_passed`).
-/

namespace NetlistSplit.FileTree

open Walk

variable {tree other : FileTree} {purpose : Purpose} {links : Nat} {here : Location}
  {names : List String}

/-! ## Parts of a tree -/

/-- Whether everything that a tree holds stands in another one too. -/
def IsPartOf (tree other : FileTree) : Prop :=
  ∀ place entry, tree.get? place = some entry → other.get? place = some entry

theorem IsPartOf.get?_eq_none {place : Location} (hpart : tree.IsPartOf other)
    (hnone : other.get? place = none) : tree.get? place = none := by
  apply Option.eq_none_iff_forall_ne_some.mpr
  intro entry hentry
  rw [hpart place entry hentry] at hnone
  cases hnone

theorem isPartOf_insert {place : Location} (entry : Entry) (hplace : tree.get? place = none) :
    tree.IsPartOf (tree.insert place entry) :=
  fun _ _ hget => get?_insert_of_some entry hplace hget

theorem isPartOf_without (tree : FileTree) (drops : Location → Bool) :
    (tree.without drops).IsPartOf tree := by
  intro place entry hget
  by_cases hroot : place = []
  · rw [hroot, get?_root] at hget ⊢
    exact hget
  · rw [get?_without tree drops hroot] at hget
    split at hget
    · cases hget
    · exact hget

theorem isPartOf_of_eraseInside {place : Location} (hsame : other.eraseInside place = tree) :
    tree.IsPartOf other :=
  hsame ▸ isPartOf_without other _

namespace Reaches

/-! ## Trees that hold more -/

/-- In a tree that holds more, a walk to an entry goes the same way. -/
theorem mono {place : Location} {entry : Entry}
    (hmore : tree.IsPartOf other)
    (hfound : Reaches tree purpose links here names (.found place entry)) :
    Reaches other purpose links here names (.found place entry) := by
  generalize hstop : End.found place entry = stop at hfound ⊢
  induction hfound with
  | here hget => exact .here (hmore _ _ hget)
  | link hdir hname hlength hget hinspect =>
      exact .link (hmore _ _ hdir) hname hlength (hmore _ _ hget) hinspect
  | absent hdir hwrite hname hlength hget => cases hstop
  | stay hdir hwrite hname hlater ih => exact .stay (hmore _ _ hdir) hwrite hname (ih hstop)
  | up hdir hwrite hlater ih => exact .up (hmore _ _ hdir) hwrite (ih hstop)
  | down hdir hwrite hname hlength hget hlink hlater ih =>
      exact .down (hmore _ _ hdir) hwrite hname hlength (hmore _ _ hget) hlink (ih hstop)
  | follow hdir hwrite hname hlength hget hfollow hlater ih =>
      exact .follow (hmore _ _ hdir) hwrite hname hlength (hmore _ _ hget) hfollow (ih hstop)

/-- A walk that finds nothing finds what is put there. -/
theorem found_insert {parent : Location} {name : String} {entry : Entry}
    (habsent : Reaches tree purpose links here names (.absent parent name))
    (hlink : ∀ target, entry ≠ .link target) :
    Reaches (tree.insert (parent ++ [name]) entry) purpose links here names
      (.found (parent ++ [name]) entry) := by
  have hnone := habsent.get?_of_absent.2
  have hmore : tree.IsPartOf (tree.insert (parent ++ [name]) entry) := isPartOf_insert entry hnone
  have hself : (tree.insert (parent ++ [name]) entry).get? (parent ++ [name]) = some entry :=
    get?_insert_self tree entry (by simp)
  generalize hstop : End.absent parent name = stop at habsent
  -- The same steps lead there, and the last one now comes upon the entry.
  induction habsent with
  | here hget => cases hstop
  | link hdir hname hlength hget hinspect => cases hstop
  | absent hdir hwrite hname hlength hget =>
      obtain ⟨rfl, rfl⟩ := End.absent.inj hstop
      exact .down (hmore _ _ hdir) hwrite hname hlength hself hlink (.here hself)
  | stay hdir hwrite hname hlater ih => exact .stay (hmore _ _ hdir) hwrite hname (ih hstop)
  | up hdir hwrite hlater ih => exact .up (hmore _ _ hdir) hwrite (ih hstop)
  | down hdir hwrite hname hlength hget hnot hlater ih =>
      exact .down (hmore _ _ hdir) hwrite hname hlength (hmore _ _ hget) hnot (ih hstop)
  | follow hdir hwrite hname hlength hget hfollow hlater ih =>
      exact .follow (hmore _ _ hdir) hwrite hname hlength (hmore _ _ hget) hfollow (ih hstop)

/-! ## Trees that hold less -/

/-- Where a walk ends at nothing in a tree that holds less, it did so before, or
there was something. -/
theorem absent_of_less {parent : Location} {name : String}
    (hless : other.IsPartOf tree)
    (habsent : Reaches other purpose links here names (.absent parent name)) :
    Reaches tree purpose links here names (.absent parent name) ∨
      ∃ entry, tree.get? (parent ++ [name]) = some entry := by
  generalize hstop : End.absent parent name = stop at habsent
  induction habsent with
  | here hget => cases hstop
  | link hdir hname hlength hget hinspect => cases hstop
  | absent hdir hwrite hname hlength hget =>
      obtain ⟨rfl, rfl⟩ := End.absent.inj hstop
      cases hbefore : tree.get? (parent ++ [name]) with
      | none => exact .inl (.absent (hless _ _ hdir) hwrite hname hlength hbefore)
      | some entry => exact .inr ⟨entry, rfl⟩
  | stay hdir hwrite hname hlater ih =>
      exact (ih hstop).imp_left fun hlater => .stay (hless _ _ hdir) hwrite hname hlater
  | up hdir hwrite hlater ih =>
      exact (ih hstop).imp_left fun hlater => .up (hless _ _ hdir) hwrite hlater
  | down hdir hwrite hname hlength hget hlink hlater ih =>
      exact (ih hstop).imp_left fun hlater =>
        .down (hless _ _ hdir) hwrite hname hlength (hless _ _ hget) hlink hlater
  | follow hdir hwrite hname hlength hget hfollow hlater ih =>
      exact (ih hstop).imp_left fun hlater =>
        .follow (hless _ _ hdir) hwrite hname hlength (hless _ _ hget) hfollow hlater

/-- In a tree that holds less, a walk to an entry goes the same way or comes to where
something is missing. -/
theorem walk_of_less {place : Location} {entry : Entry}
    (hless : other.IsPartOf tree)
    (hfound : Reaches tree purpose links here names (.found place entry)) :
    other.walk purpose links here names = .ok (.found place entry) ∨
      other.walk purpose links here names = .error .noSuchEntry ∨
      ∃ parent name, other.walk purpose links here names = .ok (.absent parent name) := by
  have hstays : ∀ {place : Location} {entry : Entry}, tree.get? place = some entry →
      other.get? place = none ∨ other.get? place = some entry := by
    intro place entry hget
    cases hother : other.get? place with
    | none => exact .inl rfl
    | some entry' => exact .inr ((hless _ _ hother).symm.trans hget)
  generalize hstop : End.found place entry = stop at hfound
  induction hfound with
  | here hget =>
      rcases hstays hget with hnone | hget'
      · exact .inr (.inl (walk_of_none hnone))
      · obtain ⟨rfl, rfl⟩ := End.found.inj hstop
        exact .inl (Reaches.here hget').walk_eq
  | absent hdir hwrite hname hlength hget => cases hstop
  | @link links here name target hdir hname hlength hget hinspect =>
      rcases hstays hdir with hnone | hdir'
      · exact .inr (.inl (walk_of_none hnone))
      obtain ⟨rfl, rfl⟩ := End.found.inj hstop
      rcases hstays hget with hnone | hget'
      · have hwrite : ¬ (purpose = .write ∧ endsAsDirectory name [] = true) := by simp [hinspect]
        refine .inr (.inr ⟨here, name, ?_⟩)
        rw [walk_of_absent hdir' hwrite hname hlength hnone, if_pos rfl]
      · exact .inl (Reaches.link hdir' hname hlength hget' hinspect).walk_eq
  | stay hdir hwrite hname hlater ih =>
      rcases hstays hdir with hnone | hdir'
      · exact .inr (.inl (walk_of_none hnone))
      · rw [walk_stay hdir' hwrite hname]
        exact ih hstop
  | up hdir hwrite hlater ih =>
      rcases hstays hdir with hnone | hdir'
      · exact .inr (.inl (walk_of_none hnone))
      · rw [walk_up hdir' hwrite rfl]
        exact ih hstop
  | down hdir hwrite hname hlength hget hlink hlater ih =>
      rcases hstays hdir with hnone | hdir'
      · exact .inr (.inl (walk_of_none hnone))
      rcases hstays hget with hnone | hget'
      · rw [walk_of_absent hdir' hwrite hname hlength hnone]
        split
        · exact .inr (.inr ⟨_, _, rfl⟩)
        · exact .inr (.inl rfl)
      · rw [walk_down hdir' hwrite hname hlength hget' hlink]
        exact ih hstop
  | follow hdir hwrite hname hlength hget hfollow hlater ih =>
      rcases hstays hdir with hnone | hdir'
      · exact .inr (.inl (walk_of_none hnone))
      rcases hstays hget with hnone | hget'
      · rw [walk_of_absent hdir' hwrite hname hlength hnone]
        split
        · exact .inr (.inr ⟨_, _, rfl⟩)
        · exact .inr (.inl rfl)
      · rw [walk_follow hdir' hwrite hname hlength hget' hfollow]
        exact ih hstop

end Reaches

/-- A path leads to the same entry in a tree that holds more. -/
theorem IsPartOf.locateNames {path : Path} {place : Location} {entry : Entry}
    (hpart : tree.IsPartOf other) (hworking : other.workingDir = tree.workingDir)
    (hfound : tree.locateNames purpose path names = .ok (.found place entry)) :
    other.locateNames purpose path names = .ok (.found place entry) := by
  obtain ⟨haccepted, hreaches⟩ := locateNames_eq_ok_iff.mp hfound
  refine locateNames_eq_ok_iff.mpr ⟨haccepted, ?_⟩
  rw [startOf_congr hworking rfl]
  exact hreaches.mono hpart

/-! ## What a walk comes by -/

/-- The locations that a walk comes by which is to use what it finds: the directories
that it is in, and what it looks up in them, be it a link or not.  Like
`walkNames`, it is handed what to do at the next link. -/
def passedNames (tree : FileTree) (onLink : Location → List String → List Location) :
    (here : Location) → (names : List String) → List Location
  | here, [] => [here]
  | here, name :: later =>
    here ::
      if tree.get? here ≠ some .dir then []
      else if name = "" ∨ name = "." then passedNames tree onLink here later
      else if name = ".." then passedNames tree onLink here.dropLast later
      else
        match tree.get? (here ++ [name]) with
        | some (.link target) =>
          let path : Path := ⟨target⟩
          (here ++ [name]) :: onLink (if path.isAbsolute then [] else here) (path.names ++ later)
        | _ => passedNames tree onLink (here ++ [name]) later

/-- The locations that a walk over `links` links at most comes by. -/
def passed (tree : FileTree) : (links : Nat) → (here : Location) → (names : List String) →
    List Location
  | 0 => tree.passedNames fun _ _ => []
  | links + 1 => tree.passedNames (tree.passed links)

/-- The locations that the walk along a path comes by. -/
def passedBy (tree : FileTree) (path : Path) : List Location :=
  tree.passed linkLimit (tree.startOf path) path.names

theorem here_mem_passed : here ∈ tree.passed links here names := by
  cases links <;> cases names <;> simp [passed, passedNames]

section Step

variable {name : String} {later : List String} {place : Location}
  (hdir : tree.get? here = some .dir)

include hdir

theorem mem_passed_stay (hname : name = "" ∨ name = ".")
    (hplace : place ∈ tree.passed links here later) :
    place ∈ tree.passed links here (name :: later) := by
  cases links <;>
    · simp only [passed, passedNames, hdir, ne_eq, not_true_eq_false, if_false, if_pos hname]
      exact List.mem_cons_of_mem _ hplace

theorem mem_passed_up (hplace : place ∈ tree.passed links here.dropLast later) :
    place ∈ tree.passed links here (".." :: later) := by
  have hdot : ¬ (".." = "" ∨ ".." = ".") := by decide
  cases links <;>
    · simp only [passed, passedNames, hdir, ne_eq, not_true_eq_false, if_false, if_neg hdot,
        if_true]
      exact List.mem_cons_of_mem _ hplace

variable (hname : Path.IsName name)

include hname

theorem mem_passed_down {entry : Entry} (hget : tree.get? (here ++ [name]) = some entry)
    (hlink : ∀ target, entry ≠ .link target)
    (hplace : place ∈ tree.passed links (here ++ [name]) later) :
    place ∈ tree.passed links here (name :: later) := by
  have hdot : ¬ (name = "" ∨ name = ".") := not_or.mpr ⟨hname.1, hname.2.1⟩
  cases links <;>
    · simp only [passed, passedNames, hdir, ne_eq, not_true_eq_false, if_false, if_neg hdot,
        if_neg hname.2.2, hget]
      cases entry with
      | link target => exact absurd rfl (hlink target)
      | _ => exact List.mem_cons_of_mem _ hplace

theorem mem_passed_follow {target : String}
    (hget : tree.get? (here ++ [name]) = some (.link target))
    (hplace : place = here ++ [name] ∨ place ∈ tree.passed links
      (if (⟨target⟩ : Path).isAbsolute then [] else here) ((⟨target⟩ : Path).names ++ later)) :
    place ∈ tree.passed (links + 1) here (name :: later) := by
  have hdot : ¬ (name = "" ∨ name = ".") := not_or.mpr ⟨hname.1, hname.2.1⟩
  simp only [passed, passedNames, hdir, ne_eq, not_true_eq_false, if_false, if_neg hdot,
    if_neg hname.2.2, hget]
  exact List.mem_cons_of_mem _ (List.mem_cons.mpr hplace)

end Step

/-- A walk to an entry goes the same way in a tree that holds what it comes by. -/
theorem Reaches.of_passed {place : Location} {entry : Entry}
    (hsame : ∀ place ∈ tree.passed links here names, ∀ entry, tree.get? place = some entry →
      other.get? place = some entry)
    (hfound : Reaches tree .use links here names (.found place entry)) :
    Reaches other .use links here names (.found place entry) := by
  have huse : ∀ {first : String} {later : List String},
      ¬ (Purpose.use = .write ∧ endsAsDirectory first later = true) := by simp
  generalize hstop : End.found place entry = stop at hfound ⊢
  induction hfound with
  | here hget => exact .here (hsame _ here_mem_passed _ hget)
  | link hdir hname hlength hget hinspect => cases hinspect
  | absent hdir hwrite hname hlength hget => cases hstop
  | stay hdir hwrite hname hlater ih =>
      exact .stay (hsame _ here_mem_passed _ hdir) huse hname
        (ih (fun place hplace => hsame place (mem_passed_stay hdir hname hplace)) hstop)
  | up hdir hwrite hlater ih =>
      exact .up (hsame _ here_mem_passed _ hdir) huse
        (ih (fun place hplace => hsame place (mem_passed_up hdir hplace)) hstop)
  | down hdir hwrite hname hlength hget hlink hlater ih =>
      have hbelow := fun place hplace =>
        hsame place (mem_passed_down hdir hname hget hlink hplace)
      exact .down (hsame _ here_mem_passed _ hdir) huse hname hlength
        (hbelow _ here_mem_passed _ hget) hlink (ih hbelow hstop)
  | follow hdir hwrite hname hlength hget hfollow hlater ih =>
      have hbehind := fun place hplace => hsame place (mem_passed_follow hdir hname hget hplace)
      exact .follow (hsame _ here_mem_passed _ hdir) huse hname hlength
        (hbehind _ (.inl rfl) _ hget) (by simp)
        (ih (fun place hplace => hbehind place (.inr hplace)) hstop)

end NetlistSplit.FileTree
