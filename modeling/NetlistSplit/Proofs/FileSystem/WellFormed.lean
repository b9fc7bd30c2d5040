import NetlistSplit.FileSystem.Tree

/-!
# Every entry stands in a directory

In the tree of a file system the location above an entry is a directory.  So
where there is no directory there is nothing inside either
(`WellFormed.isEmptyAt`), and a directory that was just made is empty.

A tree stays well-formed when an entry is added in a directory, when something
with nothing inside is taken away, and when everything inside a location is.
-/

namespace NetlistSplit

namespace Location

theorem isInside_iff {inner outer : Location} :
    inner.isInside outer = true ↔ ∃ below, below ≠ [] ∧ inner = outer ++ below := by
  simp only [isInside, Bool.and_eq_true, List.isPrefixOf_iff_prefix, bne_iff_ne]
  constructor
  · rintro ⟨⟨below, rfl⟩, hne⟩
    refine ⟨below, ?_, rfl⟩
    rintro rfl
    exact hne (List.append_nil outer)
  · rintro ⟨below, hbelow, rfl⟩
    exact ⟨List.prefix_append outer below, fun heq => hbelow (List.append_right_eq_self.mp heq)⟩

theorem ne_nil_of_isInside {inner outer : Location} (hinside : inner.isInside outer = true) :
    inner ≠ [] := by
  rintro rfl
  obtain ⟨below, hbelow, heq⟩ := isInside_iff.mp hinside
  exact hbelow (List.append_eq_nil_iff.mp heq.symm).2

theorem isInside_of_dropLast {inner outer : Location}
    (hinside : Location.isInside inner.dropLast outer = true) : inner.isInside outer = true := by
  obtain ⟨below, hbelow, heq⟩ := isInside_iff.mp hinside
  have hinner : inner ≠ [] := by
    rintro rfl
    exact ne_nil_of_isInside hinside rfl
  refine isInside_iff.mpr ⟨below ++ [inner.getLast hinner], by simp, ?_⟩
  rw [← List.append_assoc, ← heq, List.dropLast_concat_getLast]

theorem isInside_dropLast {place : Location} (hplace : place ≠ []) :
    place.isInside place.dropLast = true := by
  refine isInside_iff.mpr ⟨[place.getLast hplace], by simp, ?_⟩
  rw [List.dropLast_concat_getLast]

/-- What is inside of a location is directly inside of it, or the location above
is inside of it too. -/
theorem dropLast_cases {inner outer : Location} (hinside : inner.isInside outer = true) :
    inner.dropLast = outer ∨ Location.isInside inner.dropLast outer = true := by
  obtain ⟨below, hbelow, rfl⟩ := isInside_iff.mp hinside
  rw [List.dropLast_append_of_ne_nil hbelow]
  by_cases hlast : below.dropLast = []
  · rw [hlast, List.append_nil]
    exact .inl rfl
  · exact .inr (isInside_iff.mpr ⟨below.dropLast, hlast, rfl⟩)

end Location

namespace FileTree

/-- Whether every entry stands in a directory. -/
def WellFormed (tree : FileTree) : Prop :=
  ∀ old ∈ tree.entries, tree.get? old.1.dropLast = some .dir

instance (tree : FileTree) : Decidable tree.WellFormed :=
  inferInstanceAs (Decidable (∀ old ∈ tree.entries, tree.get? old.1.dropLast = some .dir))

/-! ## What is inside of a location -/

theorem mem_entries_of_get? {tree : FileTree} {place : Location} {entry : Entry}
    (hplace : place ≠ []) (hget : tree.get? place = some entry) :
    (place, entry) ∈ tree.entries := by
  rw [get?, if_neg hplace] at hget
  obtain ⟨before, behind, hentries, -⟩ := List.lookup_eq_some_iff.mp hget
  rw [hentries]
  exact List.mem_append_right before List.mem_cons_self

theorem isEmptyAt_iff {tree : FileTree} {place : Location} :
    tree.isEmptyAt place = true ↔ ∀ old ∈ tree.entries, ¬ old.1.isInside place = true := by
  simp [isEmptyAt]

theorem get?_of_isEmptyAt {tree : FileTree} {place other : Location}
    (hempty : tree.isEmptyAt place = true) (hinside : other.isInside place = true) :
    tree.get? other = none := by
  cases hget : tree.get? other with
  | none => rfl
  | some entry =>
      have hmem := mem_entries_of_get? (Location.ne_nil_of_isInside hinside) hget
      exact absurd hinside (isEmptyAt_iff.mp hempty _ hmem)

/-- Nothing is inside of what is not a directory. -/
theorem WellFormed.isEmptyAt {tree : FileTree} (htree : tree.WellFormed) {place : Location}
    (hplace : tree.get? place ≠ some .dir) : tree.isEmptyAt place = true := by
  apply isEmptyAt_iff.mpr
  intro old hold hinside
  -- Climbing from an entry inside of `place` leads to `place`, over directories only.
  induction hlength : old.1.length using Nat.strongRecOn generalizing old with
  | ind length ih =>
      subst hlength
      have habove := htree old hold
      rcases Location.dropLast_cases hinside with heq | hinside'
      · rw [heq] at habove
        exact hplace habove
      · have hmem := mem_entries_of_get? (Location.ne_nil_of_isInside hinside') habove
        have hshorter : old.1.dropLast.length < old.1.length := by
          have hpositive := List.length_pos_iff.mpr (Location.ne_nil_of_isInside hinside)
          rw [List.length_dropLast]
          omega
        exact ih _ hshorter _ hmem hinside' rfl

/-- What stood in a tree still stands there when an entry is added. -/
theorem get?_insert_of_some {tree : FileTree} {place other : Location} {old : Entry}
    (entry : Entry) (hplace : tree.get? place = none) (hother : tree.get? other = some old) :
    (tree.insert place entry).get? other = some old := by
  have hne : other ≠ place := by
    rintro rfl
    rw [hplace] at hother
    cases hother
  rw [get?_insert_of_ne tree entry hne, hother]

/-! ## Entries that come and go -/

theorem isEmptyAt_insert {tree : FileTree} {place : Location} (entry : Entry)
    (hempty : tree.isEmptyAt place = true) : (tree.insert place entry).isEmptyAt place = true := by
  apply isEmptyAt_iff.mpr
  intro old hold
  rcases List.mem_cons.mp hold with rfl | hold
  · simp [Location.isInside]
  · exact isEmptyAt_iff.mp hempty old (List.mem_filter.mp hold).1

theorem eraseInside_of_isEmptyAt {tree : FileTree} {place : Location}
    (hempty : tree.isEmptyAt place = true) : tree.eraseInside place = tree := by
  have hall : tree.entries.filter (fun old => !old.1.isInside place) = tree.entries := by
    apply List.filter_eq_self.mpr
    intro old hold
    simpa using isEmptyAt_iff.mp hempty old hold
  rw [eraseInside, without, hall]

/-- Trees that are the same but for what is inside of a location. -/
theorem get?_of_eraseInside_eq {tree other : FileTree} {place here : Location}
    (hsame : tree.eraseInside place = other.eraseInside place)
    (hhere : ¬ here.isInside place = true) : tree.get? here = other.get? here := by
  have hget := congrArg (fun tree : FileTree => tree.get? here) hsame
  simpa only [get?_eraseInside, if_neg hhere] using hget

/-- What was added inside of a location goes with everything inside of it. -/
theorem eraseInside_insert {tree : FileTree} {place other : Location} (entry : Entry)
    (hinside : other.isInside place = true) :
    (tree.insert other entry).eraseInside place = tree.eraseInside place := by
  have hother : ∀ old : Location × Entry,
      ((!old.1.isInside place) && !(old.1 == other)) = !old.1.isInside place := by
    intro old
    by_cases hsame : old.1 = other
    · simp [hsame, hinside]
    · simp [hsame]
  simp [eraseInside, insert, erase, without, hinside, List.filter_filter, hother]

/-- An entry that was added is all that goes with its location. -/
theorem erase_insert {tree : FileTree} {place : Location} (entry : Entry) (hplace : place ≠ [])
    (hnone : tree.get? place = none) : (tree.insert place entry).erase place = tree := by
  have hall : tree.entries.filter (fun old => !(old.1 == place)) = tree.entries := by
    apply List.filter_eq_self.mpr
    intro old hold
    rw [get?, if_neg hplace] at hnone
    have hne : old.1 ≠ place := by
      rintro rfl
      simpa using List.lookup_eq_none_iff.mp hnone old hold
    simpa using hne
  simp [insert, erase, without, hall]

/-! ## Trees stay well-formed -/

theorem WellFormed.insert {tree : FileTree} (htree : tree.WellFormed) {place : Location}
    (entry : Entry) (hplace : tree.get? place = none)
    (habove : tree.get? place.dropLast = some .dir) : (tree.insert place entry).WellFormed := by
  have hstays : ∀ other, tree.get? other = some .dir →
      (tree.insert place entry).get? other = some .dir := by
    intro other hother
    have hne : other ≠ place := by
      rintro rfl
      rw [hplace] at hother
      cases hother
    rw [get?_insert_of_ne tree entry hne, hother]
  intro old hold
  rcases List.mem_cons.mp hold with rfl | hold
  · exact hstays _ habove
  · exact hstays _ (htree old ((List.mem_filter.mp hold).1))

theorem WellFormed.erase {tree : FileTree} (htree : tree.WellFormed) {place : Location}
    (hempty : tree.isEmptyAt place = true) : (tree.erase place).WellFormed := by
  intro old hold
  have hentry : old ∈ tree.entries := (List.mem_filter.mp hold).1
  have hne : old.1 ≠ place := by simpa using (List.mem_filter.mp hold).2
  have habove : old.1.dropLast ≠ place := by
    rintro rfl
    have hold : old.1 ≠ [] := by
      intro hnil
      rw [hnil] at hne
      exact hne rfl
    exact isEmptyAt_iff.mp hempty old hentry (Location.isInside_dropLast hold)
  rw [get?_erase_of_ne tree habove]
  exact htree old hentry

theorem WellFormed.eraseInside {tree : FileTree} (htree : tree.WellFormed) (place : Location) :
    (tree.eraseInside place).WellFormed := by
  intro old hold
  have houtside : ¬ old.1.isInside place = true := by simpa using (List.mem_filter.mp hold).2
  rw [get?_eraseInside, if_neg fun hinside => houtside (Location.isInside_of_dropLast hinside)]
  exact htree old ((List.mem_filter.mp hold).1)

end FileTree

end NetlistSplit
