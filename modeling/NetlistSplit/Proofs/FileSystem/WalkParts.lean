import NetlistSplit.Proofs.FileSystem.Reaches

/-!
# Walks in two parts

A walk along some names and then along more goes to a directory first and on from
there: where the first names lead to a directory, the walk along all of them does
what the walk from that directory along the others does
(`Reaches.exists_walk_append`), and if it ends well, the first names do lead to one
(`Reaches.split`).

So a slash at the end of a path means that the names in front of it lead to a
directory, and nothing else (`named_of_locate`, `locate_of_named`).  The location of
a path is the directory that all its names but the last lead to, and the last name
(`location?`).
-/

namespace NetlistSplit

/-- Where a walk ends, be there an entry or not. -/
def Walk.End.place : Walk.End → Location
  | .found place _ => place
  | .absent parent name => parent ++ [name]

namespace FileTree

open Walk

variable {tree : FileTree} {purpose : Purpose} {links : Nat} {here : Location}
  {names more : List String}

namespace Reaches

/-- A walk that has to go on is in a directory. -/
theorem dir_of_ne_nil {stop : End} (hreaches : Reaches tree purpose links here names stop)
    (hnames : names ≠ []) : tree.get? here = some .dir := by
  cases hreaches with
  | here hget => exact absurd rfl hnames
  | stay hdir hwrite hname hlater => exact hdir
  | up hdir hwrite hlater => exact hdir
  | down hdir hwrite hname hlength hget hlink hlater => exact hdir
  | absent hdir hwrite hname hlength hget => exact hdir
  | link hdir hname hlength hget hinspect => exact hdir
  | follow hdir hwrite hname hlength hget hfollow hlater => exact hdir

/-- Behind the names of a directory, a walk goes on from there. -/
theorem exists_walk_append {mid : Location}
    (hfound : Reaches tree .use links here names (.found mid .dir)) :
    ∃ fewer, ∀ purpose more, more ≠ [] → (purpose = .write → more ≠ [""]) →
      tree.walk purpose links here (names ++ more) = tree.walk purpose fewer mid more := by
  -- With more names behind it, no name on the way is the last one.
  have hends : ∀ {purpose : Purpose} {first : String} {later more : List String}, more ≠ [] →
      (purpose = .write → more ≠ [""]) →
      ¬ (purpose = .write ∧ endsAsDirectory first (later ++ more) = true) := by
    rintro purpose first later more hmore hslash ⟨hwrite, hends⟩
    cases later <;> simp [endsAsDirectory, hmore, hslash hwrite] at hends
  generalize hstop : End.found mid .dir = stop at hfound
  induction hfound with
  | @here links here entry hget =>
      obtain ⟨rfl, -⟩ := End.found.inj hstop
      exact ⟨links, fun purpose more hmore hslash => rfl⟩
  | link hdir hname hlength hget hinspect => cases hinspect
  | absent hdir huse hname hlength hget => cases hstop
  | stay hdir huse hname hlater ih =>
      obtain ⟨fewer, hbehind⟩ := ih hstop
      refine ⟨fewer, fun purpose more hmore hslash => ?_⟩
      rw [List.cons_append, walk_stay hdir (hends hmore hslash) hname]
      exact hbehind purpose more hmore hslash
  | up hdir huse hlater ih =>
      obtain ⟨fewer, hbehind⟩ := ih hstop
      refine ⟨fewer, fun purpose more hmore hslash => ?_⟩
      rw [List.cons_append, walk_up hdir (hends hmore hslash) rfl]
      exact hbehind purpose more hmore hslash
  | down hdir huse hname hlength hget hlink hlater ih =>
      obtain ⟨fewer, hbehind⟩ := ih hstop
      refine ⟨fewer, fun purpose more hmore hslash => ?_⟩
      rw [List.cons_append, walk_down hdir (hends hmore hslash) hname hlength hget hlink]
      exact hbehind purpose more hmore hslash
  | follow hdir huse hname hlength hget hfollow hlater ih =>
      obtain ⟨fewer, hbehind⟩ := ih hstop
      refine ⟨fewer, fun purpose more hmore hslash => ?_⟩
      rw [List.cons_append,
        walk_follow hdir (hends hmore hslash) hname hlength hget (by simp [hmore]),
        ← List.append_assoc]
      exact hbehind purpose more hmore hslash

/-- A walk that goes on behind some names finds a directory there. -/
theorem split {stop : End} (hreaches : Reaches tree purpose links here (names ++ more) stop)
    (hmore : more ≠ []) :
    ∃ mid fewer, Reaches tree .use links here names (.found mid .dir) ∧
      Reaches tree purpose fewer mid more stop := by
  have huse : ∀ {first : String} {later : List String},
      ¬ (Purpose.use = .write ∧ endsAsDirectory first later = true) := by simp
  have hnone : ∀ {links : Nat} {here : Location} {stop : End},
      Reaches tree purpose links here ([] ++ more) stop →
      ∃ mid fewer, Reaches tree .use links here [] (.found mid .dir) ∧
        Reaches tree purpose fewer mid more stop :=
    fun hbehind => ⟨_, _, .here (hbehind.dir_of_ne_nil hmore), hbehind⟩
  generalize hall : names ++ more = all at hreaches
  -- The induction is on the walk, until all of the first names are taken.
  induction hreaches generalizing names with
  | here hget => exact absurd (List.append_eq_nil_iff.mp hall).2 hmore
  | stay hdir hwrite hname hlater ih =>
      cases names with
      | nil => exact hnone (hall ▸ .stay hdir hwrite hname hlater)
      | cons name names =>
          obtain ⟨rfl, rfl⟩ := List.cons.inj hall
          obtain ⟨mid, fewer, hfront, hbehind⟩ := ih rfl
          exact ⟨mid, fewer, .stay hdir huse hname hfront, hbehind⟩
  | up hdir hwrite hlater ih =>
      cases names with
      | nil => exact hnone (hall ▸ .up hdir hwrite hlater)
      | cons name names =>
          obtain ⟨rfl, rfl⟩ := List.cons.inj hall
          obtain ⟨mid, fewer, hfront, hbehind⟩ := ih rfl
          exact ⟨mid, fewer, .up hdir huse hfront, hbehind⟩
  | down hdir hwrite hname hlength hget hlink hlater ih =>
      cases names with
      | nil => exact hnone (hall ▸ .down hdir hwrite hname hlength hget hlink hlater)
      | cons name names =>
          obtain ⟨rfl, rfl⟩ := List.cons.inj hall
          obtain ⟨mid, fewer, hfront, hbehind⟩ := ih rfl
          exact ⟨mid, fewer, .down hdir huse hname hlength hget hlink hfront, hbehind⟩
  | absent hdir hwrite hname hlength hget =>
      cases names with
      | nil => exact hnone (hall ▸ .absent hdir hwrite hname hlength hget)
      | cons name names => exact absurd (List.append_eq_nil_iff.mp (List.cons.inj hall).2).2 hmore
  | link hdir hname hlength hget hinspect =>
      cases names with
      | nil => exact hnone (by rw [hall]; exact .link hdir hname hlength hget hinspect)
      | cons name names => exact absurd (List.append_eq_nil_iff.mp (List.cons.inj hall).2).2 hmore
  | follow hdir hwrite hname hlength hget hfollow hlater ih =>
      cases names with
      | nil => exact hnone (hall ▸ .follow hdir hwrite hname hlength hget hfollow hlater)
      | cons name names =>
          obtain ⟨rfl, rfl⟩ := List.cons.inj hall
          obtain ⟨mid, fewer, hfront, hbehind⟩ := ih (List.append_assoc _ _ _)
          exact ⟨mid, fewer, .follow hdir huse hname hlength hget (by simp) hfront, hbehind⟩

/-! ## A slash at the end -/

/-- A slash at the end lets a walk find a directory, and nothing else. -/
theorem of_names {path : Path} {place : Location} {entry : Entry}
    (hfound : Reaches tree purpose links here path.names (.found place entry)) :
    Reaches tree purpose links here path.named (.found place entry) ∨
      (entry = .dir ∧ Reaches tree .use links here path.named (.found place .dir)) := by
  rcases path.names_eq_or with hnames | hnames
  · rw [hnames] at hfound
    exact .inl hfound
  · rw [hnames] at hfound
    obtain ⟨mid, fewer, hfront, hslash⟩ := hfound.split (List.cons_ne_nil _ _)
    generalize hempty : [""] = last at hslash
    cases hslash with
    | here hget => cases hempty
    | stay hdir hwrite hname hlater =>
        obtain ⟨-, rfl⟩ := List.cons.inj hempty
        cases hlater with
        | here hget => exact .inr ⟨Option.some.inj (hget.symm.trans hdir), hfront⟩
    | up hdir hwrite hlater => exact absurd (List.cons.inj hempty).1 (by decide)
    | down hdir hwrite hname hlength hget hlink hlater =>
        exact absurd (List.cons.inj hempty).1.symm hname.1
    | link hdir hname hlength hget hinspect => exact absurd (List.cons.inj hempty).1.symm hname.1
    | follow hdir hwrite hname hlength hget hfollow hlater =>
        exact absurd (List.cons.inj hempty).1.symm hname.1

theorem names_of_named {path : Path} {place : Location}
    (hfound : Reaches tree .use links here path.named (.found place .dir)) :
    Reaches tree .use links here path.names (.found place .dir) := by
  rcases path.names_eq_or with hnames | hnames
  · rw [hnames]
    exact hfound
  · obtain ⟨fewer, hbehind⟩ := hfound.exists_walk_append
    have hdir := hfound.get?_of_found
    have hslash : Reaches tree .use fewer place [""] (.found place .dir) :=
      .stay hdir (by simp) (.inl rfl) (.here hdir)
    rw [← walk_eq_ok_iff, hnames, hbehind .use [""] (List.cons_ne_nil _ _) (by simp)]
    exact hslash.walk_eq

end Reaches

/-! ## Paths -/

/-- What a path leads to is also found along its names alone, without a slash at the
end. -/
theorem named_of_locate {path : Path} {place : Location} {entry : Entry}
    (hfound : tree.locate .use path = .ok (.found place entry)) :
    tree.locateNames .use path path.named = .ok (.found place entry) := by
  obtain ⟨haccepted, hreaches⟩ := locate_eq_ok_iff.mp hfound
  refine locateNames_eq_ok_iff.mpr ⟨haccepted, ?_⟩
  rcases hreaches.of_names with hnamed | ⟨rfl, hnamed⟩
  · exact hnamed
  · exact hnamed

theorem locate_of_named {path : Path} {place : Location}
    (hfound : tree.locateNames .use path path.named = .ok (.found place .dir)) :
    tree.locate .use path = .ok (.found place .dir) := by
  obtain ⟨haccepted, hreaches⟩ := locateNames_eq_ok_iff.mp hfound
  exact locate_eq_ok_iff.mpr ⟨haccepted, hreaches.names_of_named⟩

/-- A path that leads to a directory by its names leads there, link or not. -/
theorem locate_of_inspected {path : Path} {place : Location}
    (hfound : tree.locateNames .inspect path path.named = .ok (.found place .dir)) :
    tree.locate .use path = .ok (.found place .dir) := by
  obtain ⟨haccepted, hreaches⟩ := locateNames_eq_ok_iff.mp hfound
  refine locate_of_named (locateNames_eq_ok_iff.mpr ⟨haccepted, ?_⟩)
  exact hreaches.use_of_found fun target heq => nomatch heq

theorem resolve?_eq_some_iff {path : Path} {entry : Entry} :
    tree.resolve? path = some entry ↔
      ∃ place, tree.locate .use path = .ok (.found place entry) := by
  unfold resolve?
  constructor
  · intro hresolve
    split at hresolve
    · next place found hfound =>
        obtain rfl := Option.some.inj hresolve
        exact ⟨place, hfound⟩
    · cases hresolve
  · rintro ⟨place, hfound⟩
    rw [hfound]

/-- What a path leads to, or the link that leads there, is found at its last name. -/
theorem exists_named_of_resolve? {path : Path} {entry : Entry}
    (hresolve : tree.resolve? path = some entry) :
    ∃ place entry', tree.locateNames .inspect path path.named = .ok (.found place entry') := by
  obtain ⟨place, hfound⟩ := resolve?_eq_some_iff.mp hresolve
  obtain ⟨haccepted, hreaches⟩ := locateNames_eq_ok_iff.mp (named_of_locate hfound)
  obtain ⟨place', entry', hinspect⟩ := hreaches.exists_found
  exact ⟨place', entry', locateNames_eq_ok_iff.mpr ⟨haccepted, hinspect⟩⟩

/-! ## Locations -/

/-- Where the entry of a path stands, or would stand: a link in the last place is not
followed.  A path has no location if the way to it is missing. -/
def location? (tree : FileTree) (path : Path) : Option Location :=
  match tree.locate .inspect path with
  | .ok stop => some stop.place
  | .error _ => none

theorem location?_eq_some_iff {path : Path} {place : Location} :
    tree.location? path = some place ↔
      ∃ stop, tree.locate .inspect path = .ok stop ∧ stop.place = place := by
  unfold location?
  split
  · next stop hlocate => simp [hlocate]
  · next e hlocate => simp [hlocate]

end FileTree

end NetlistSplit
