import NetlistSplit.Proofs.Keyword.Search
import NetlistSplit.Proofs.Literal.Closed

/-!
# The search finds the whole words outside of closed literals

`Occurs` says what a keyword is without any search: its letters stand in the
text, and no identifier goes on before or behind them.  The search from an offset
finds the occurrences from there on that no closed literal hides, and nothing
else (`mem_search_iff`).

The search moves by whole literals and whole words.  An occurrence it moves past
would begin inside one of these: inside a word it would touch the letter in front
of it, and inside a closed literal it is hidden.
-/

namespace NetlistSplit.Keyword

/-- Whether a keyword stands in the text as a whole word. -/
structure Occurs (source : Text) (k : Keyword) : Prop where
  spelled : ∃ word, (word, k.kind) ∈ words ∧ word <+: source.drop k.start ∧
    k.stop = k.start + word.length
  free_before : joins (byteBefore source k.start) = false
  free_behind : joins source[k.stop]? = false

/-! ## Words -/

theorem isIdentifier_of_mem_word {word : Text × Kind} (hword : word ∈ words) :
    ∀ b ∈ word.1, Byte.isIdentifier b = true := by
  have hall : (words.all fun entry => entry.1.all Byte.isIdentifier) = true := by decide
  exact List.all_eq_true.mp (List.all_eq_true.mp hall word hword)

theorem quote_notMem_of_identifier {word : Text}
    (hword : ∀ b ∈ word, Byte.isIdentifier b = true) : Byte.quote ∉ word := by
  intro hquote
  have hidentifier := hword _ hquote
  cases hidentifier

/-- No keyword begins another one, so a text begins with at most one. -/
theorem eq_of_isPrefix {word other : Text × Kind} {text : Text} (hword : word ∈ words)
    (hother : other ∈ words) (hbegins : word.1 <+: text) (hbegins' : other.1 <+: text) :
    word = other := by
  have hapart : ∀ entry ∈ words, ∀ entry' ∈ words, entry.1 <+: entry'.1 → entry = entry' := by
    decide
  rcases List.prefix_or_prefix_of_prefix hbegins hbegins' with hle | hle
  · exact hapart word hword other hother hle
  · exact (hapart other hother word hword hle).symm

theorem spelled?_eq_some_iff {text : Text} {kind : Kind} {length : Nat} :
    spelled? text = some (kind, length) ↔
      ∃ word, (word, kind) ∈ words ∧ word <+: text ∧ word.length = length := by
  unfold spelled?
  constructor
  · intro hspelled
    obtain ⟨entry, hfind, heq⟩ := Option.map_eq_some_iff.mp hspelled
    obtain ⟨rfl, rfl⟩ := Prod.mk.inj heq
    have hbegins : entry.1.isPrefixOf text = true := by simpa using List.find?_some hfind
    exact ⟨entry.1, List.mem_of_find?_eq_some hfind, List.isPrefixOf_iff_prefix.mp hbegins, rfl⟩
  · rintro ⟨word, hword, hbegins, rfl⟩
    cases hfind : words.find? fun entry => entry.1.isPrefixOf text with
    | none =>
        have hnone := List.find?_eq_none.mp hfind (word, kind) hword
        exact absurd (List.isPrefixOf_iff_prefix.mpr hbegins) (by simpa using hnone)
    | some entry =>
        have hbegins' : entry.1.isPrefixOf text = true := by simpa using List.find?_some hfind
        obtain rfl := eq_of_isPrefix (List.mem_of_find?_eq_some hfind) hword
          (List.isPrefixOf_iff_prefix.mp hbegins') hbegins
        rfl

/-! ## Occurrences -/

namespace Occurs

variable {source : Text} {k : Keyword}

theorem spelled?_eq (hk : k.Occurs source) :
    spelled? (source.drop k.start) = some (k.kind, k.stop - k.start) := by
  obtain ⟨word, hword, hbegins, hstop⟩ := hk.spelled
  exact spelled?_eq_some_iff.mpr ⟨word, hword, hbegins, by omega⟩

/-- An occurrence begins with a letter. -/
theorem isIdentifier_head (hk : k.Occurs source) {b : UInt8} {rest : Text}
    (hdrop : source.drop k.start = b :: rest) : Byte.isIdentifier b = true := by
  obtain ⟨word, hword, hbegins, -⟩ := hk.spelled
  have hnonempty : ∀ entry ∈ words, entry.1 ≠ [] := by decide
  cases hcons : word with
  | nil => exact absurd hcons (hnonempty _ hword)
  | cons first later =>
      rw [hdrop, hcons, List.cons_prefix_cons] at hbegins
      exact isIdentifier_of_mem_word hword b (by rw [hcons, hbegins.1]; exact List.mem_cons_self)

theorem start_lt (hk : k.Occurs source) : k.start < source.length := by
  have hlength := spelled?_length hk.spelled?_eq
  rw [List.length_drop] at hlength
  omega

theorem exists_head (hk : k.Occurs source) :
    ∃ b, source[k.start]? = some b ∧ Byte.isIdentifier b = true :=
  ⟨_, List.getElem?_eq_getElem hk.start_lt,
    hk.isIdentifier_head (List.drop_eq_getElem_cons hk.start_lt)⟩

/-- All bytes of an occurrence are letters. -/
theorem exists_letter (hk : k.Occurs source) {place : Nat} (hle : k.start ≤ place)
    (hlt : place < k.stop) : ∃ b, source[place]? = some b ∧ Byte.isIdentifier b = true := by
  obtain ⟨word, hword, hbegins, hstop⟩ := hk.spelled
  obtain ⟨i, rfl⟩ := Nat.exists_eq_add_of_le hle
  have hi : i < word.length := by omega
  refine ⟨word[i], ?_, isIdentifier_of_mem_word hword _ (List.getElem_mem hi)⟩
  rw [← List.getElem?_drop, List.prefix_iff_getElem?.mp hbegins i hi]

/-- No occurrence begins behind the first letter of a word. -/
theorem not_inside (hk : k.Occurs source) {offset : Nat} {word : Text}
    (hword : ∀ b ∈ word, Byte.isIdentifier b = true) (hbegins : word <+: source.drop offset)
    (hlt : offset < k.start) : offset + word.length ≤ k.start := by
  apply Nat.le_of_not_lt
  intro hinside
  -- The byte in front of the occurrence would be a letter of the word.
  have hbefore : byteBefore source k.start = word[k.start - 1 - offset]? := by
    rw [byteBefore, if_neg (by omega),
      List.getElem?_eq_getElem (show k.start - 1 - offset < word.length by omega)]
    have hbyte := hbegins.getElem (show k.start - 1 - offset < word.length by omega)
    rw [hbyte, List.getElem_drop, ← List.getElem?_eq_getElem]
    congr 1
    omega
  rw [List.getElem?_eq_getElem (show k.start - 1 - offset < word.length by omega)] at hbefore
  have hfree := hk.free_before
  rw [hbefore, joins, hword _ (List.getElem_mem _)] at hfree
  cases hfree

end Occurs

/-! ## One step of the search -/

/-- What one step of the search from `cursor` to `next` comes to. -/
structure Step (source : Text) (cursor : Nat) (found : Option Keyword) (next : Nat) : Prop where
  lt : cursor < next
  search_eq : search source cursor = found.toList ++ search source next
  found_occurs : ∀ k ∈ found, k.Occurs source ∧ k.start = cursor
  nothing_missed : ∀ k : Keyword, k.Occurs source → cursor ≤ k.start → k.start < next →
    k ∈ found ∨ Literal.Hides source cursor k.start
  hides_iff : ∀ s, next ≤ s → (Literal.Hides source cursor s ↔ Literal.Hides source next s)

theorem search_of_cons {source : Text} {offset : Nat} {b : UInt8} {rest : Text}
    (hdrop : source.drop offset = b :: rest) :
    search source offset =
      (leading (byteBefore source offset) offset b rest).1.toList ++
        search source (offset + 1 + (leading (byteBefore source offset) offset b rest).2) := by
  have hlt : offset < source.length := Text.lt_length_of_drop hdrop
  have hcons := List.drop_eq_getElem_cons hlt
  rw [hdrop] at hcons
  obtain ⟨rfl, rfl⟩ := List.cons.inj hcons
  exact search_of_lt hlt

/-- A closed literal is passed over, and hides all that it holds. -/
theorem step_of_closes {source : Text} {cursor : Nat} {rest : Text}
    (hdrop : source.drop cursor = Byte.quote :: rest) (hcloses : Literal.ClosesOnLine rest) :
    Step source cursor none (cursor + 1 + (Comment.literalBody rest).1.length) where
  lt := by omega
  search_eq := by
    rw [search_of_cons hdrop, leading, if_pos rfl, Literal.closedLength?_eq, if_pos hcloses]
    rfl
  found_occurs := by
    intro k hk
    cases hk
  nothing_missed := by
    intro k hk hle hlt
    -- The quote at the cursor is no letter, so the occurrence begins behind it.
    have hne : k.start ≠ cursor := by
      intro hstart
      rw [← hstart] at hdrop
      exact absurd (hk.isIdentifier_head hdrop) (by decide)
    exact .inr ((Literal.hides_of_closes hdrop hcloses).mpr (.inl ⟨by omega, hlt⟩))
  hides_iff := by
    intro s hle
    rw [Literal.hides_of_closes hdrop hcloses, or_iff_right (by omega)]

/-- A byte that begins neither a word nor a closed literal is passed over. -/
theorem step_of_plain {source : Text} {cursor : Nat} {b : UInt8} {rest : Text}
    (hdrop : source.drop cursor = b :: rest) (hspelled : spelled? (b :: rest) = none)
    (hcloses : ¬ (b = Byte.quote ∧ Literal.ClosesOnLine rest)) :
    Step source cursor none (cursor + 1) where
  lt := Nat.lt_add_one cursor
  search_eq := by
    have hleading : leading (byteBefore source cursor) cursor b rest = (none, 0) := by
      unfold leading
      split
      · next hquote =>
          rw [Literal.closedLength?_eq, if_neg fun hclosed => hcloses ⟨hquote, hclosed⟩]
          rfl
      · rw [hspelled]
    rw [search_of_cons hdrop, hleading]
    rfl
  found_occurs := by
    intro k hk
    cases hk
  nothing_missed := by
    intro k hk hle hlt
    have hstart : k.start = cursor := by omega
    have hword := hk.spelled?_eq
    rw [hstart, hdrop, hspelled] at hword
    cases hword
  hides_iff := by
    intro s hle
    exact Literal.hides_of_not hdrop hcloses

/-- A word is found unless an identifier goes on before or behind it.  Either way
it is passed over. -/
theorem step_of_spelled {source : Text} {cursor length : Nat} {kind : Kind} {b : UInt8}
    {rest : Text} (hdrop : source.drop cursor = b :: rest)
    (hspelled : spelled? (b :: rest) = some (kind, length)) :
    Step source cursor
      (if joins (byteBefore source cursor) || joins source[cursor + length]? then none
        else some ⟨kind, cursor, cursor + length⟩) (cursor + length) := by
  have hlength := spelled?_length hspelled
  have hbehind : (rest.drop (length - 1)).head? = source[cursor + length]? := by
    have hrest : rest = source.drop (cursor + 1) := (Text.drop_succ_of_drop hdrop).symm
    have hsame : cursor + 1 + (length - 1) = cursor + length := by omega
    rw [hrest, List.drop_drop, List.head?_drop, hsame]
  obtain ⟨word, hword, hbegins, rfl⟩ := spelled?_eq_some_iff.mp hspelled
  have hidentifier := isIdentifier_of_mem_word hword
  rw [← hdrop] at hbegins
  have hquote : b ≠ Byte.quote := by
    rintro rfl
    cases hspelled
  constructor
  case lt => omega
  case search_eq =>
    have hnext : cursor + 1 + (word.length - 1) = cursor + word.length := by omega
    rw [search_of_cons hdrop, leading, if_neg hquote, hspelled]
    simp only [hbehind]
    split <;> simp only [hnext]
  case found_occurs =>
    intro k hk
    split at hk
    · cases hk
    · next hfree =>
        obtain ⟨hbefore, hafter⟩ := not_or.mp (mt Bool.or_eq_true_iff.mpr hfree)
        obtain rfl := Option.some.inj hk
        exact ⟨⟨⟨word, hword, hbegins, rfl⟩, Bool.eq_false_iff.mpr hbefore,
          Bool.eq_false_iff.mpr hafter⟩, rfl⟩
  case nothing_missed =>
    intro k hk hle hlt
    -- An occurrence among the letters begins with the first, and then is the word found.
    have hstart : k.start = cursor := by
      refine Nat.le_antisymm (Nat.le_of_not_lt fun hinside => ?_) hle
      have hbehind : cursor + word.length ≤ k.start :=
        hk.not_inside hidentifier hbegins hinside
      omega
    left
    have hsame := hk.spelled?_eq
    rw [hstart, hdrop, hspelled] at hsame
    obtain ⟨hkind, hstop⟩ := Prod.mk.inj (Option.some.inj hsame)
    have hend : k.stop = cursor + word.length := by
      obtain ⟨other, -, -, hother⟩ := hk.spelled
      omega
    have hbefore := hk.free_before
    have hafter := hk.free_behind
    rw [hstart] at hbefore
    rw [hend] at hafter
    rw [hbefore, hafter, if_neg (by decide)]
    refine congrArg some ?_
    calc (⟨kind, cursor, cursor + word.length⟩ : Keyword)
        = ⟨k.kind, k.start, k.stop⟩ := by rw [hkind, hstart, hend]
      _ = k := rfl
  case hides_iff =>
    intro s hle
    obtain ⟨later, hlater⟩ := hbegins
    exact Literal.hides_add hlater.symm fun hmem => absurd (hidentifier _ hmem) (by decide)

theorem exists_step {source : Text} {cursor : Nat} {b : UInt8} {rest : Text}
    (hdrop : source.drop cursor = b :: rest) : ∃ found next, Step source cursor found next := by
  by_cases hcloses : b = Byte.quote ∧ Literal.ClosesOnLine rest
  · obtain ⟨rfl, hcloses⟩ := hcloses
    exact ⟨_, _, step_of_closes hdrop hcloses⟩
  cases hspelled : spelled? (b :: rest) with
  | none => exact ⟨_, _, step_of_plain hdrop hspelled hcloses⟩
  | some found => exact ⟨_, _, step_of_spelled hdrop hspelled⟩

/-! ## What the search finds -/

theorem mem_search_iff {source : Text} {cursor : Nat} {k : Keyword} :
    k ∈ search source cursor ↔
      cursor ≤ k.start ∧ k.Occurs source ∧ ¬ Literal.Hides source cursor k.start := by
  induction hahead : source.length - cursor using Nat.strongRecOn generalizing cursor with
  | ind ahead ih =>
      subst hahead
      cases hdrop : source.drop cursor with
      | nil =>
          have hge := List.drop_eq_nil_iff.mp hdrop
          rw [search_of_ge hge]
          refine ⟨fun hmem => absurd hmem List.not_mem_nil, fun ⟨hle, hk, _⟩ => ?_⟩
          exact absurd hk.start_lt (by omega)
      | cons b rest =>
          have hlt : cursor < source.length := Text.lt_length_of_drop hdrop
          obtain ⟨found, next, hstep⟩ := exists_step hdrop
          have hnext := hstep.lt
          rw [hstep.search_eq, List.mem_append, Option.mem_toList, ih _ (by omega) rfl]
          constructor
          · rintro (hfound | ⟨hle, hk, hhides⟩)
            · obtain ⟨hk, rfl⟩ := hstep.found_occurs k hfound
              exact ⟨Nat.le_refl _, hk, fun hhides => Nat.lt_irrefl _ (Literal.lt_of_hides hhides)⟩
            · exact ⟨by omega, hk, mt (hstep.hides_iff _ hle).mp hhides⟩
          · rintro ⟨hle, hk, hhides⟩
            rcases Nat.lt_or_ge k.start next with hbefore | hbehind
            · exact .inl ((hstep.nothing_missed k hk hle hbefore).resolve_right hhides)
            · exact .inr ⟨hbehind, hk, mt (hstep.hides_iff _ hbehind).mpr hhides⟩

end NetlistSplit.Keyword
