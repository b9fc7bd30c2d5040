import NetlistSplit.Path

/-!
# Paths without dots

A path is normal if it has names and all of them are names of something: there are
no dots among them.  It is plain if no slash stands at the end either, so that the
names along which a walk goes are these names and nothing else.

The names of a normal path and its components are the same.  So the directories on
the way to it have one name less each (`IsNormal.isUpward`), and a file in it has one
name more (`named_join`).
-/

namespace NetlistSplit.Path

/-- Whether a name is the name of something: it is not empty and no dots. -/
def IsName (name : String) : Prop :=
  name ≠ "" ∧ name ≠ "." ∧ name ≠ ".."

instance (name : String) : Decidable (IsName name) :=
  inferInstanceAs (Decidable (_ ∧ _ ∧ _))

/-- Whether a path is made up of names of something. -/
def IsPlain (path : Path) : Prop :=
  path.names ≠ [] ∧ ∀ name ∈ path.names, IsName name

instance (path : Path) : Decidable path.IsPlain :=
  inferInstanceAs (Decidable (_ ∧ _))

/-- The names of a path, less the empty one that a slash at its end adds. -/
def named (path : Path) : List String :=
  path.parts.filter (· ≠ "")

/-- Whether a path is made up of names of something, and maybe slashes at its end. -/
def IsNormal (path : Path) : Prop :=
  path.named ≠ [] ∧ ∀ name ∈ path.named, IsName name

instance (path : Path) : Decidable path.IsNormal :=
  inferInstanceAs (Decidable (_ ∧ _))

/-! ## Between the slashes -/

private theorem notMem_of_mem_splitOn {c : Char} {text part : List Char}
    (hpart : part ∈ text.splitOn c) : c ∉ part := by
  induction text generalizing part with
  | nil =>
      obtain rfl : part = [] := by simpa using hpart
      exact List.not_mem_nil
  | cons b rest ih =>
      rw [List.splitOn_cons_eq_if_modifyHead] at hpart
      split at hpart
      · rcases List.mem_cons.mp hpart with rfl | hpart
        · exact List.not_mem_nil
        · exact ih hpart
      · next hb =>
          cases hsplit : rest.splitOn c with
          | nil => exact absurd hsplit (List.splitOn_ne_nil c rest)
          | cons first later =>
              rw [hsplit] at hpart ih
              rcases List.mem_cons.mp hpart with rfl | hpart
              · intro hmem
                rcases List.mem_cons.mp hmem with rfl | hmem
                · exact hb (beq_self_eq_true c)
                · exact ih List.mem_cons_self hmem
              · exact ih (List.mem_cons_of_mem first hpart)

theorem slash_notMem_of_mem_parts {path : Path} {part : String} (hpart : part ∈ path.parts) :
    '/' ∉ part.toList := by
  obtain ⟨chars, hchars, rfl⟩ := List.mem_map.mp hpart
  rw [String.toList_ofList]
  exact notMem_of_mem_splitOn hchars

/-- Unless a slash stands at the end, the names are the parts that are not empty. -/
theorem names_of_getLast? {path : Path} (hlast : path.parts.getLast? ≠ some "") :
    path.names = path.named :=
  if_neg fun hboth => hlast hboth.1

theorem names_eq_or (path : Path) : path.names = path.named ∨ path.names = path.named ++ [""] := by
  unfold names
  dsimp only
  split
  · exact .inr rfl
  · exact .inl rfl

namespace IsPlain

variable {path : Path}

theorem names_eq (hpath : path.IsPlain) : path.names = path.named := by
  rcases path.names_eq_or with heq | heq
  · exact heq
  · have hempty := hpath.2 "" (by rw [heq]; simp)
    exact absurd rfl hempty.1

theorem isNormal (hpath : path.IsPlain) : path.IsNormal := by
  rw [IsNormal, ← hpath.names_eq]
  exact hpath

end IsPlain

namespace IsNormal

variable {path : Path}

theorem slash_notMem {name : String} (hname : name ∈ path.named) : '/' ∉ name.toList :=
  slash_notMem_of_mem_parts (List.mem_filter.mp hname).1

theorem components_eq (hpath : path.IsNormal) : path.components = path.named := by
  have hdots : path.named.filter (· ≠ ".") = path.named := by
    apply List.filter_eq_self.mpr
    intro name hname
    simpa using (hpath.2 name hname).2.1
  unfold components
  simp only
  -- Only a dot in front is a component of its own.
  split
  · next later hnames =>
      have hdot := hpath.2 "." (by rw [named, hnames]; exact List.mem_cons_self)
      exact absurd rfl hdot.2.1
  · exact hdots

theorem text_ne (hpath : path.IsNormal) : path.text.toList ≠ [] := by
  intro hempty
  refine hpath.1 ?_
  rw [named, parts, hempty]
  rfl

end IsNormal

/-! ## A file in a directory -/

/-- A file in a directory has the directory's parts and one more, be there a slash at the
end of the directory or not. -/
theorem parts_join {dir : Path} {file : String} (hdir : dir.IsNormal)
    (hslash : '/' ∉ file.toList) :
    ∃ parts, (dir.join file).parts = parts ++ [file] ∧ parts.filter (· ≠ "") = dir.named ∧
      (dir.join file).isAbsolute = dir.isAbsolute := by
  have hrelative : ¬ (file.toList.head? == some '/') = true := by
    intro hhead
    exact hslash (List.mem_of_head? (by simpa using hhead))
  have hempty : dir.text ≠ "" := fun hempty => hdir.text_ne (by rw [hempty]; rfl)
  by_cases hlast : dir.text.toList.getLast? = some '/'
  · obtain ⟨front, hfront⟩ := List.getLast?_eq_some_iff.mp hlast
    have hjoin : (dir.join file).text.toList = front ++ '/' :: file.toList := by
      rw [join, if_neg hrelative, if_pos (.inr hlast)]
      simp [hfront]
    refine ⟨(front.splitOn '/').map String.ofList, ?_, ?_, ?_⟩
    · rw [parts, hjoin, List.splitOn_append_cons_self, List.splitOn_eq_singleton hslash]
      simp
    · rw [named, parts, hfront, List.splitOn_append_cons_self]
      simp
    · rw [isAbsolute, isAbsolute, hjoin, hfront]
      cases front <;> rfl
  · have hjoin : (dir.join file).text.toList = dir.text.toList ++ '/' :: file.toList := by
      rw [join, if_neg hrelative, if_neg (not_or.mpr ⟨hempty, hlast⟩)]
      simp
    refine ⟨dir.parts, ?_, rfl, ?_⟩
    · rw [parts, hjoin, List.splitOn_append_cons_self, List.splitOn_eq_singleton hslash]
      simp [parts]
    · rw [isAbsolute, isAbsolute, hjoin]
      cases hchars : dir.text.toList with
      | nil => exact absurd hchars hdir.text_ne
      | cons c rest => rfl

section Join

variable {dir : Path} {file : String} (hdir : dir.IsNormal) (hslash : '/' ∉ file.toList)

include hdir hslash

theorem isAbsolute_join : (dir.join file).isAbsolute = dir.isAbsolute := by
  obtain ⟨parts, -, -, habsolute⟩ := parts_join hdir hslash
  exact habsolute

theorem named_join (hfile : file ≠ "") : (dir.join file).named = dir.named ++ [file] := by
  obtain ⟨parts, hparts, hnamed, -⟩ := parts_join hdir hslash
  rw [named, hparts, List.filter_append, hnamed]
  simp [hfile]

theorem names_join (hfile : file ≠ "") : (dir.join file).names = dir.named ++ [file] := by
  obtain ⟨parts, hparts, -, -⟩ := parts_join hdir hslash
  rw [names_of_getLast? (by rw [hparts]; simpa using hfile), named_join hdir hslash hfile]

end Join

/-! ## The directories on the way -/

theorem parts_ofComponents {absolute : Bool} {components : List String} (hne : components ≠ [])
    (hslash : ∀ name ∈ components, '/' ∉ name.toList) :
    (ofComponents absolute components).parts = (if absolute then [""] else []) ++ components := by
  have hsplit : (['/'].intercalate (components.map String.toList)).splitOn '/' =
      components.map String.toList := by
    refine List.splitOn_intercalate '/' (fun part hpart => ?_) (by simpa using hne)
    obtain ⟨name, hname, rfl⟩ := List.mem_map.mp hpart
    exact hslash name hname
  have hback : (components.map String.toList).map String.ofList = components := by simp
  cases absolute with
  | false =>
      have htext : (ofComponents false components).text.toList =
          ['/'].intercalate (components.map String.toList) := by
        simp [ofComponents, String.toList_intercalate]
      rw [parts, htext, hsplit, hback]
      rfl
  | true =>
      have htext : (ofComponents true components).text.toList =
          [] ++ '/' :: ['/'].intercalate (components.map String.toList) := by
        simp [ofComponents, String.toList_intercalate]
      rw [parts, htext, List.splitOn_append_cons_self, hsplit, List.map_append, hback]
      simp

theorem isAbsolute_ofComponents {absolute : Bool} {name : String} {later : List String}
    (hname : name ≠ "") (hslash : '/' ∉ name.toList) :
    (ofComponents absolute (name :: later)).isAbsolute = absolute := by
  cases absolute with
  | true => simp [isAbsolute, ofComponents]
  | false =>
      cases hchars : name.toList with
      | nil => exact absurd (String.toList_eq_nil_iff.mp hchars) hname
      | cons c rest =>
          have hc : c ≠ '/' := by
            rintro rfl
            exact hslash (by rw [hchars]; exact List.mem_cons_self)
          have hhead : (ofComponents false (name :: later)).text.toList.head? = some c := by
            cases later <;> simp [ofComponents, String.toList_intercalate, hchars]
          rw [isAbsolute, hhead]
          simpa using hc

/-- Whether `dirs` go upward from the path with the names `names`, one name at a
time. -/
inductive IsUpward (absolute : Bool) : (names : List String) → (dirs : List Path) → Prop where
  | nil : IsUpward absolute [] []
  | cons {names : List String} {name : String} {dir : Path} {above : List Path}
      (hname : IsName name) (habsolute : dir.isAbsolute = absolute)
      (hnames : dir.named = names ++ [name]) (habove : IsUpward absolute names above) :
      IsUpward absolute (names ++ [name]) (dir :: above)

namespace IsUpward

variable {absolute : Bool} {names : List String} {dir : Path} {above : List Path}

theorem named_eq (hdirs : IsUpward absolute names (dir :: above)) : dir.named = names := by
  cases hdirs with
  | cons hname habsolute hnames habove => exact hnames

theorem isNormal (hdirs : IsUpward absolute names (dir :: above)) : dir.IsNormal := by
  constructor
  · cases hdirs with
    | cons hname habsolute hnames habove =>
        rw [hnames]
        exact List.concat_ne_nil _ _
  · rw [hdirs.named_eq]
    generalize dir :: above = dirs at hdirs
    induction hdirs with
    | nil =>
        intro name hmem
        cases hmem
    | cons hlast habsolute hnames habove ih =>
        intro name hmem
        rcases List.mem_append.mp hmem with hmem | hmem
        · exact ih name hmem
        · obtain rfl := List.mem_singleton.mp hmem
          exact hlast

/-- The names of a directory on the way are the first ones of the path. -/
theorem exists_append {dirs : List Path} (hdirs : IsUpward absolute names dirs)
    (hdir : dir ∈ dirs) : dir.isAbsolute = absolute ∧ ∃ more, names = dir.named ++ more := by
  induction hdirs with
  | nil => cases hdir
  | @cons names name inner above hname habsolute hnames habove ih =>
      rcases List.mem_cons.mp hdir with rfl | hdir
      · exact ⟨habsolute, [], by rw [hnames, List.append_nil]⟩
      · obtain ⟨habsolute', more, hmore⟩ := ih hdir
        exact ⟨habsolute', more ++ [name], by rw [hmore, List.append_assoc]⟩

/-- The names of a directory are those of the one above it and one more. -/
theorem exists_outer {outer : Path} (hdirs : IsUpward absolute names (dir :: outer :: above)) :
    ∃ name, IsName name ∧ dir.isAbsolute = outer.isAbsolute ∧
      dir.named = outer.named ++ [name] ∧ IsUpward absolute outer.named (outer :: above) := by
  cases hdirs with
  | @cons names name _ _ hname habsolute hnames habove =>
      have houter := habove.named_eq
      refine ⟨name, hname, ?_, by rw [hnames, houter], by rw [houter]; exact habove⟩
      cases habove with
      | cons hname' habsolute' hnames' habove' => rw [habsolute, habsolute']

end IsUpward

/-- The path of some of the first names. -/
theorem named_ofComponents {absolute : Bool} {components : List String}
    (hne : components ≠ []) (hname : ∀ name ∈ components, IsName name ∧ '/' ∉ name.toList) :
    (ofComponents absolute components).named = components ∧
      (ofComponents absolute components).isAbsolute = absolute := by
  have hparts : (ofComponents absolute components).parts =
      (if absolute then [""] else []) ++ components :=
    parts_ofComponents hne fun name hmem => (hname name hmem).2
  have hfilter : components.filter (· ≠ "") = components := by
    apply List.filter_eq_self.mpr
    intro name hmem
    simpa using (hname name hmem).1.1
  constructor
  · rw [named, hparts, List.filter_append, hfilter]
    cases absolute <;> rfl
  · cases components with
    | nil => exact absurd rfl hne
    | cons name later =>
        have hfirst := hname name List.mem_cons_self
        exact isAbsolute_ofComponents hfirst.1.1 hfirst.2

theorem isUpward_range {absolute : Bool} {names : List String}
    (hname : ∀ name ∈ names, IsName name ∧ '/' ∉ name.toList) (count : Nat)
    (hcount : count ≤ names.length) :
    IsUpward absolute (names.take count)
      ((List.range' 1 count).reverse.map fun count =>
        ofComponents absolute (names.take count)) := by
  induction count with
  | zero => exact .nil
  | succ count ih =>
      have hlt : count < names.length := by omega
      have htake := List.take_succ_eq_append_getElem hlt
      have hsome : names.take (count + 1) ≠ [] := by
        rw [htake]
        exact List.concat_ne_nil _ _
      obtain ⟨hnames, habsolute⟩ :
          (ofComponents absolute (names.take (count + 1))).named = names.take (count + 1) ∧
            (ofComponents absolute (names.take (count + 1))).isAbsolute = absolute :=
        named_ofComponents hsome fun name hmem => hname name (List.mem_of_mem_take hmem)
      have hupward := IsUpward.cons (hname _ (List.getElem_mem hlt)).1 habsolute
        (hnames.trans htake) (ih (by omega))
      rw [← htake] at hupward
      rw [List.range'_concat, List.reverse_append, List.map_append, Nat.one_mul, Nat.add_comm 1]
      exact hupward

/-- Upward from a normal path there are the paths of its first names. -/
theorem IsNormal.upward_eq {path : Path} (hpath : path.IsNormal) :
    path.upward =
      path :: ((List.range' 1 (path.named.length - 1)).reverse.map fun count =>
        ofComponents path.isAbsolute (path.named.take count)) := by
  unfold upward
  rw [hpath.components_eq]
  split
  · next hnil => exact absurd hnil hpath.1
  · rfl

/-- A normal path goes upward from itself. -/
theorem IsNormal.isUpward {path : Path} (hpath : path.IsNormal) :
    ∃ above, path.upward = path :: above ∧
      IsUpward path.isAbsolute path.named (path :: above) := by
  have hname : ∀ name ∈ path.named, IsName name ∧ '/' ∉ name.toList :=
    fun name hmem => ⟨hpath.2 name hmem, slash_notMem hmem⟩
  have hlength : path.named.length - 1 < path.named.length :=
    Nat.sub_lt (List.length_pos_iff.mpr hpath.1) Nat.one_pos
  have hsplit : path.named =
      path.named.take (path.named.length - 1) ++ [path.named[path.named.length - 1]] := by
    rw [← List.take_succ_eq_append_getElem hlength, Nat.sub_add_cancel (by omega), List.take_length]
  have hcons := IsUpward.cons (hname _ (List.getElem_mem hlength)).1 rfl hsplit
    (isUpward_range hname _ (Nat.le_of_lt hlength))
  rw [← hsplit] at hcons
  exact ⟨_, hpath.upward_eq, hcons⟩

end NetlistSplit.Path
