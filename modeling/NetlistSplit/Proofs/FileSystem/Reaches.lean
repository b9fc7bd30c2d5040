import NetlistSplit.FileSystem.Walk
import NetlistSplit.Proofs.FileSystem.WellFormed
import NetlistSplit.Proofs.Path

/-!
# What a walk reaches

The walks that succeed are those that can be derived step by step, one name or
one link at a time (`walk_eq_ok_iff`).  What is known about walks is proved along
such derivations:

* A walk ends in one place (`Reaches.unique`).
* It comes along no name that is too long (`Reaches.length_le`).
* Something that can be used can be inspected (`Reaches.exists_found`), and the
  other way round unless it is a link (`Reaches.use_of_found`).
-/

namespace NetlistSplit

/-- Whether the system takes a path, whatever it leads to. -/
def Path.IsAccepted (path : Path) : Prop :=
  '\x00' ∉ path.text.toList ∧ path.text ≠ "" ∧ path.text.utf8ByteSize ≤ Walk.pathLimit

namespace FileTree

open Walk

/-- Whether the walk from the directory `here` along `names`, over `links` links
at most, ends well and at `stop`. -/
inductive Reaches (tree : FileTree) (purpose : Purpose) :
    (links : Nat) → (here : Location) → (names : List String) → (stop : End) → Prop where
  | here {links : Nat} {here : Location} {entry : Entry} (hget : tree.get? here = some entry) :
      Reaches tree purpose links here [] (.found here entry)
  | stay {links : Nat} {here : Location} {name : String} {later : List String} {stop : End}
      (hdir : tree.get? here = some .dir)
      (hwrite : ¬ (purpose = .write ∧ endsAsDirectory name later = true))
      (hname : name = "" ∨ name = ".") (hlater : Reaches tree purpose links here later stop) :
      Reaches tree purpose links here (name :: later) stop
  | up {links : Nat} {here : Location} {later : List String} {stop : End}
      (hdir : tree.get? here = some .dir)
      (hwrite : ¬ (purpose = .write ∧ endsAsDirectory ".." later = true))
      (hlater : Reaches tree purpose links here.dropLast later stop) :
      Reaches tree purpose links here (".." :: later) stop
  | down {links : Nat} {here : Location} {name : String} {later : List String} {entry : Entry}
      {stop : End} (hdir : tree.get? here = some .dir)
      (hwrite : ¬ (purpose = .write ∧ endsAsDirectory name later = true))
      (hname : Path.IsName name) (hlength : name.utf8ByteSize ≤ nameLimit)
      (hget : tree.get? (here ++ [name]) = some entry) (hlink : ∀ target, entry ≠ .link target)
      (hlater : Reaches tree purpose links (here ++ [name]) later stop) :
      Reaches tree purpose links here (name :: later) stop
  | absent {links : Nat} {here : Location} {name : String} (hdir : tree.get? here = some .dir)
      (hwrite : ¬ (purpose = .write ∧ endsAsDirectory name [] = true))
      (hname : Path.IsName name) (hlength : name.utf8ByteSize ≤ nameLimit)
      (hget : tree.get? (here ++ [name]) = none) :
      Reaches tree purpose links here [name] (.absent here name)
  | link {links : Nat} {here : Location} {name target : String} (hdir : tree.get? here = some .dir)
      (hname : Path.IsName name) (hlength : name.utf8ByteSize ≤ nameLimit)
      (hget : tree.get? (here ++ [name]) = some (.link target)) (hinspect : purpose = .inspect) :
      Reaches tree purpose links here [name] (.found (here ++ [name]) (.link target))
  | follow {links : Nat} {here : Location} {name target : String} {later : List String}
      {stop : End} (hdir : tree.get? here = some .dir)
      (hwrite : ¬ (purpose = .write ∧ endsAsDirectory name later = true))
      (hname : Path.IsName name) (hlength : name.utf8ByteSize ≤ nameLimit)
      (hget : tree.get? (here ++ [name]) = some (.link target))
      (hfollow : ¬ (later = [] ∧ purpose = .inspect))
      (hlater : Reaches tree purpose links
        (if (⟨target⟩ : Path).isAbsolute then [] else here) ((⟨target⟩ : Path).names ++ later)
        stop) :
      Reaches tree purpose (links + 1) here (name :: later) stop

variable {tree : FileTree} {purpose : Purpose} {links : Nat} {here : Location} {names : List String}

/-! ## One step of a walk -/

section Step

variable {name : String} {later : List String} (hdir : tree.get? here = some .dir)
  (hwrite : ¬ (purpose = .write ∧ endsAsDirectory name later = true))

theorem walk_of_none (hnone : tree.get? here = none) :
    tree.walk purpose links here names = .error .noSuchEntry := by
  cases names <;> cases links <;> simp [walk, walkNames, hnone]

include hdir hwrite

theorem walk_stay (hname : name = "" ∨ name = ".") :
    tree.walk purpose links here (name :: later) = tree.walk purpose links here later := by
  cases links <;> simp only [walk, walkNames, hdir, if_neg hwrite, if_pos hname]

theorem walk_up (hname : name = "..") :
    tree.walk purpose links here (name :: later) =
      tree.walk purpose links here.dropLast later := by
  subst hname
  have hdot : ¬ (".." = "" ∨ ".." = ".") := by decide
  cases links <;> simp only [walk, walkNames, hdir, if_neg hwrite, if_neg hdot, if_true]

variable (hname : Path.IsName name)

include hname

theorem walk_of_tooLong (hlength : nameLimit < name.utf8ByteSize) :
    tree.walk purpose links here (name :: later) = .error .nameTooLong := by
  have hdot : ¬ (name = "" ∨ name = ".") := not_or.mpr ⟨hname.1, hname.2.1⟩
  cases links <;>
    simp only [walk, walkNames, hdir, if_neg hwrite, if_neg hdot, if_neg hname.2.2, if_pos hlength]

variable (hlength : name.utf8ByteSize ≤ nameLimit)

include hlength

theorem walk_of_absent (hget : tree.get? (here ++ [name]) = none) :
    tree.walk purpose links here (name :: later) =
      if later = [] then .ok (.absent here name) else .error .noSuchEntry := by
  have hdot : ¬ (name = "" ∨ name = ".") := not_or.mpr ⟨hname.1, hname.2.1⟩
  cases links <;>
    simp only [walk, walkNames, hdir, if_neg hwrite, if_neg hdot, if_neg hname.2.2,
      if_neg (Nat.not_lt.mpr hlength), hget]

theorem walk_down {entry : Entry} (hget : tree.get? (here ++ [name]) = some entry)
    (hlink : ∀ target, entry ≠ .link target) :
    tree.walk purpose links here (name :: later) =
      tree.walk purpose links (here ++ [name]) later := by
  have hdot : ¬ (name = "" ∨ name = ".") := not_or.mpr ⟨hname.1, hname.2.1⟩
  cases links <;>
    · simp only [walk, walkNames, hdir, if_neg hwrite, if_neg hdot, if_neg hname.2.2,
        if_neg (Nat.not_lt.mpr hlength)]
      rw [hget]
      cases entry with
      | link target => exact absurd rfl (hlink target)
      | _ => rfl

theorem walk_follow {target : String} (hget : tree.get? (here ++ [name]) = some (.link target))
    (hfollow : ¬ (later = [] ∧ purpose = .inspect)) :
    tree.walk purpose (links + 1) here (name :: later) =
      tree.walk purpose links (if (⟨target⟩ : Path).isAbsolute then [] else here)
        ((⟨target⟩ : Path).names ++ later) := by
  have hdot : ¬ (name = "" ∨ name = ".") := not_or.mpr ⟨hname.1, hname.2.1⟩
  simp only [walk, walkNames, hdir, if_neg hwrite, if_neg hdot, if_neg hname.2.2,
    if_neg (Nat.not_lt.mpr hlength), hget, if_neg hfollow]

end Step

/-! ## Walks that succeed are derived -/

private theorem Reaches.of_walkNames {onLink : Location → List String → Except SystemError End}
    {stop : End}
    (honLink : ∀ here names, onLink here names = .ok stop →
      ∃ fewer, links = fewer + 1 ∧ Reaches tree purpose fewer here names stop)
    (hwalk : tree.walkNames purpose onLink here names = .ok stop) :
    Reaches tree purpose links here names stop := by
  induction names generalizing here with
  | nil =>
      rw [walkNames] at hwalk
      split at hwalk
      · cases hwalk
      · next entry hget =>
          obtain rfl := Except.ok.inj hwalk
          exact .here hget
  | cons name later ih =>
      rw [walkNames] at hwalk
      split at hwalk
      · cases hwalk
      · cases hwalk
      · cases hwalk
      next hdir =>
      split at hwalk
      · cases hwalk
      next hwrite =>
      split at hwalk
      · next hname => exact .stay hdir hwrite hname (ih hwalk)
      next hdot =>
      split at hwalk
      · next hdots =>
          subst hdots
          exact .up hdir hwrite (ih hwalk)
      next hdots =>
      obtain ⟨hempty, hdot⟩ := not_or.mp hdot
      have hname : Path.IsName name := ⟨hempty, hdot, hdots⟩
      split at hwalk
      · cases hwalk
      next hlength =>
      rw [Nat.not_lt] at hlength
      split at hwalk
      · next hget =>
          split at hwalk
          · next hlast =>
              subst hlast
              obtain rfl := Except.ok.inj hwalk
              exact .absent hdir hwrite hname hlength hget
          · cases hwalk
      · next target hget =>
          split at hwalk
          · next hlast =>
              obtain ⟨rfl, hinspect⟩ := hlast
              obtain rfl := Except.ok.inj hwalk
              exact .link hdir hname hlength hget hinspect
          · next hfollow =>
              obtain ⟨fewer, rfl, hreaches⟩ := honLink _ _ hwalk
              exact .follow hdir hwrite hname hlength hget hfollow hreaches
      · next entry hlink hget =>
          exact .down hdir hwrite hname hlength hget hlink (ih hwalk)

theorem Reaches.of_walk {stop : End} (hwalk : tree.walk purpose links here names = .ok stop) :
    Reaches tree purpose links here names stop := by
  -- The walk recurses on the links that are left, and along the names for each of them.
  induction links generalizing here names with
  | zero =>
      refine Reaches.of_walkNames (fun here names hlink => ?_) hwalk
      cases hlink
  | succ links ih =>
      exact Reaches.of_walkNames (fun here names hlink => ⟨links, rfl, ih hlink⟩) hwalk

theorem Reaches.walk_eq {stop : End} (hreaches : Reaches tree purpose links here names stop) :
    tree.walk purpose links here names = .ok stop := by
  induction hreaches with
  | @here links here entry hget => cases links <;> simp [walk, walkNames, hget]
  | stay hdir hwrite hname hlater ih => rw [walk_stay hdir hwrite hname, ih]
  | up hdir hwrite hlater ih => rw [walk_up hdir hwrite rfl, ih]
  | down hdir hwrite hname hlength hget hlink hlater ih =>
      rw [walk_down hdir hwrite hname hlength hget hlink, ih]
  | absent hdir hwrite hname hlength hget =>
      rw [walk_of_absent hdir hwrite hname hlength hget, if_pos rfl]
  | @link links here name target hdir hname hlength hget hinspect =>
      -- A link is inspected whether or not any link may still be followed.
      have hdot : ¬ (name = "" ∨ name = ".") := not_or.mpr ⟨hname.1, hname.2.1⟩
      subst hinspect
      cases links <;>
        simp [walk, walkNames, hdir, hdot, hname.2.2, Nat.not_lt.mpr hlength, hget]
  | follow hdir hwrite hname hlength hget hfollow hlater ih =>
      rw [walk_follow hdir hwrite hname hlength hget hfollow, ih]

theorem walk_eq_ok_iff {stop : End} :
    tree.walk purpose links here names = .ok stop ↔ Reaches tree purpose links here names stop :=
  ⟨Reaches.of_walk, Reaches.walk_eq⟩

namespace Reaches

/-- A walk ends in one place. -/
theorem unique {stop other : End} (hstop : Reaches tree purpose links here names stop)
    (hother : Reaches tree purpose links here names other) : stop = other := by
  apply Except.ok.inj
  calc .ok stop
      = tree.walk purpose links here names := hstop.walk_eq.symm
    _ = .ok other := hother.walk_eq

/-! ## What stands where a walk ends -/

theorem get?_of_found {place : Location} {entry : Entry}
    (hfound : Reaches tree purpose links here names (.found place entry)) :
    tree.get? place = some entry := by
  generalize hstop : End.found place entry = stop at hfound
  induction hfound with
  | here hget =>
      obtain ⟨rfl, rfl⟩ := End.found.inj hstop
      exact hget
  | link hdir hname hlength hget hinspect =>
      obtain ⟨rfl, rfl⟩ := End.found.inj hstop
      exact hget
  | absent hdir hwrite hname hlength hget => cases hstop
  | stay hdir hwrite hname hlater ih => exact ih hstop
  | up hdir hwrite hlater ih => exact ih hstop
  | down hdir hwrite hname hlength hget hlink hlater ih => exact ih hstop
  | follow hdir hwrite hname hlength hget hfollow hlater ih => exact ih hstop

theorem get?_of_absent {parent : Location} {name : String}
    (habsent : Reaches tree purpose links here names (.absent parent name)) :
    tree.get? parent = some .dir ∧ tree.get? (parent ++ [name]) = none := by
  generalize hstop : End.absent parent name = stop at habsent
  induction habsent with
  | here hget => cases hstop
  | link hdir hname hlength hget hinspect => cases hstop
  | absent hdir hwrite hname hlength hget =>
      obtain ⟨rfl, rfl⟩ := End.absent.inj hstop
      exact ⟨hdir, hget⟩
  | stay hdir hwrite hname hlater ih => exact ih hstop
  | up hdir hwrite hlater ih => exact ih hstop
  | down hdir hwrite hname hlength hget hlink hlater ih => exact ih hstop
  | follow hdir hwrite hname hlength hget hfollow hlater ih => exact ih hstop

/-- The names that a walk comes along are not too long. -/
theorem length_le {stop : End} (hreaches : Reaches tree purpose links here names stop)
    {name : String} (hmem : name ∈ names) (hname : Path.IsName name) :
    name.utf8ByteSize ≤ nameLimit := by
  induction hreaches with
  | here hget => cases hmem
  | @stay _ _ first later _ hdir hwrite hfirst hlater ih =>
      rcases List.mem_cons.mp hmem with rfl | hmem
      · rcases hfirst with hempty | hdot
        · exact absurd hempty hname.1
        · exact absurd hdot hname.2.1
      · exact ih hmem
  | up hdir hwrite hlater ih =>
      rcases List.mem_cons.mp hmem with rfl | hmem
      · exact absurd rfl hname.2.2
      · exact ih hmem
  | down hdir hwrite hfirst hlength hget hlink hlater ih =>
      rcases List.mem_cons.mp hmem with rfl | hmem
      · exact hlength
      · exact ih hmem
  | absent hdir hwrite hfirst hlength hget =>
      obtain rfl := List.mem_singleton.mp hmem
      exact hlength
  | link hdir hfirst hlength hget hinspect =>
      obtain rfl := List.mem_singleton.mp hmem
      exact hlength
  | follow hdir hwrite hfirst hlength hget hfollow hlater ih =>
      rcases List.mem_cons.mp hmem with rfl | hmem
      · exact hlength
      · exact ih (List.mem_append_right _ hmem)

/-! ## Walks that stop short of a link -/

/-- What can be used can be inspected. -/
theorem exists_found {place : Location} {entry : Entry}
    (hfound : Reaches tree .use links here names (.found place entry)) :
    ∃ place' entry', Reaches tree .inspect links here names (.found place' entry') := by
  have hinspect : ∀ {first : String} {later : List String},
      ¬ (Purpose.inspect = .write ∧ endsAsDirectory first later = true) := by simp
  generalize hstop : End.found place entry = stop at hfound
  induction hfound with
  | here hget => exact ⟨_, _, .here hget⟩
  | link hdir hname hlength hget hwrong => cases hwrong
  | absent hdir hwrite hname hlength hget => cases hstop
  | stay hdir hwrite hname hlater ih =>
      obtain ⟨place', entry', hlater⟩ := ih hstop
      exact ⟨_, _, .stay hdir hinspect hname hlater⟩
  | up hdir hwrite hlater ih =>
      obtain ⟨place', entry', hlater⟩ := ih hstop
      exact ⟨_, _, .up hdir hinspect hlater⟩
  | down hdir hwrite hname hlength hget hlink hlater ih =>
      obtain ⟨place', entry', hlater⟩ := ih hstop
      exact ⟨_, _, .down hdir hinspect hname hlength hget hlink hlater⟩
  | @follow _ _ _ _ later _ hdir hwrite hname hlength hget hfollow hlater ih =>
      by_cases hlast : later = []
      · -- The last link is what is found.
        subst hlast
        exact ⟨_, _, .link hdir hname hlength hget rfl⟩
      · obtain ⟨place', entry', hlater⟩ := ih hstop
        exact ⟨_, _, .follow hdir hinspect hname hlength hget (fun hboth => hlast hboth.1) hlater⟩

/-- What is found and is no link can be used as well. -/
theorem use_of_found {place : Location} {entry : Entry}
    (hfound : Reaches tree purpose links here names (.found place entry))
    (hlink : ∀ target, entry ≠ .link target) :
    Reaches tree .use links here names (.found place entry) := by
  have huse : ∀ {first : String} {later : List String},
      ¬ (Purpose.use = .write ∧ endsAsDirectory first later = true) := by simp
  generalize hstop : End.found place entry = stop at hfound ⊢
  induction hfound with
  | here hget => exact .here hget
  | link hdir hname hlength hget hinspect => exact absurd (End.found.inj hstop).2 (hlink _)
  | absent hdir hwrite hname hlength hget => cases hstop
  | stay hdir hwrite hname hlater ih => exact .stay hdir huse hname (ih hstop)
  | up hdir hwrite hlater ih => exact .up hdir huse (ih hstop)
  | down hdir hwrite hname hlength hget hnot hlater ih =>
      exact .down hdir huse hname hlength hget hnot (ih hstop)
  | follow hdir hwrite hname hlength hget hfollow hlater ih =>
      exact .follow hdir huse hname hlength hget (by simp) (ih hstop)

/-- What is inspected by its name is not the root. -/
theorem ne_root {place : Location} {name : String} {entry : Entry}
    (hfound : Reaches tree .inspect links here names (.found place entry))
    (hlast : names.getLast? = some name) (hname : Path.IsName name) : place ≠ [] := by
  have hlater : ∀ {first : String} {later : List String}, ¬ Path.IsName first →
      (first :: later).getLast? = some name → later.getLast? = some name := by
    intro first later hfirst hlast
    cases later with
    | nil =>
        obtain rfl := Option.some.inj hlast
        exact absurd hname hfirst
    | cons second later => rwa [List.getLast?_cons_cons] at hlast
  generalize hstop : End.found place entry = stop at hfound
  induction hfound with
  | here hget => cases hlast
  | absent hdir hwrite hfirst hlength hget => cases hstop
  | link hdir hfirst hlength hget hinspect =>
      obtain ⟨rfl, rfl⟩ := End.found.inj hstop
      simp
  | stay hdir hwrite hfirst _ ih =>
      refine ih (hlater (fun hfirst' => ?_) hlast) hstop
      rcases hfirst with rfl | rfl
      · exact hfirst'.1 rfl
      · exact hfirst'.2.1 rfl
  | up hdir hwrite _ ih => exact ih (hlater (fun hfirst => hfirst.2.2 rfl) hlast) hstop
  | @down _ _ first later _ _ hdir hwrite hfirst hlength hget hlink hbehind ih =>
      cases later with
      | nil =>
          -- The walk ends at the name that it went down.
          cases hbehind with
          | here hget =>
              obtain ⟨rfl, rfl⟩ := End.found.inj hstop
              simp
      | cons second later =>
          rw [List.getLast?_cons_cons] at hlast
          exact ih hlast hstop
  | @follow _ _ first target later _ hdir hwrite hfirst hlength hget hfollow hbehind ih =>
      cases later with
      | nil => exact absurd ⟨rfl, rfl⟩ hfollow
      | cons second later =>
          rw [List.getLast?_cons_cons] at hlast
          refine ih ?_ hstop
          rw [List.getLast?_append, hlast, Option.some_or]

end Reaches

/-! ## Paths -/

/-- Where the walk along a path starts. -/
def startOf (tree : FileTree) (path : Path) : Location :=
  if path.isAbsolute then [] else tree.workingDir

/-- It depends on nothing but the working directory and the first character of the
path. -/
theorem startOf_congr {final : FileTree} {path other : Path}
    (hworking : final.workingDir = tree.workingDir)
    (habsolute : path.isAbsolute = other.isAbsolute) :
    final.startOf path = tree.startOf other := by
  rw [startOf, startOf, hworking, habsolute]

theorem locateNames_eq_ok_iff {path : Path} {stop : End} :
    tree.locateNames purpose path names = .ok stop ↔
      path.IsAccepted ∧ Reaches tree purpose linkLimit (tree.startOf path) names stop := by
  rw [← walk_eq_ok_iff, locateNames, Path.IsAccepted]
  by_cases hnul : '\x00' ∈ path.text.toList
  · simp [hnul]
  by_cases hempty : path.text = ""
  · simp [hempty]
  by_cases hlength : pathLimit < path.text.utf8ByteSize
  · simp [hnul, hempty, hlength, Nat.not_le.mpr hlength]
  have hwalk : (tree.walk purpose linkLimit (tree.startOf path) names).mapError
      AccessError.system = .ok stop ↔
        tree.walk purpose linkLimit (tree.startOf path) names = .ok stop := by
    cases tree.walk purpose linkLimit (tree.startOf path) names with
    | error e => exact iff_of_false (fun heq => nomatch heq) (fun heq => nomatch heq)
    | ok found =>
        constructor
        · intro heq
          obtain rfl : found = stop := Except.ok.inj heq
          rfl
        · intro heq
          obtain rfl : found = stop := Except.ok.inj heq
          rfl
  rw [if_neg hnul, if_neg hempty, if_neg hlength]
  refine hwalk.trans ⟨fun hok => ⟨⟨hnul, hempty, Nat.le_of_not_lt hlength⟩, hok⟩, And.right⟩

theorem locate_eq_ok_iff {path : Path} {stop : End} :
    tree.locate purpose path = .ok stop ↔
      path.IsAccepted ∧ Reaches tree purpose linkLimit (tree.startOf path) path.names stop :=
  locateNames_eq_ok_iff

end FileTree

end NetlistSplit
