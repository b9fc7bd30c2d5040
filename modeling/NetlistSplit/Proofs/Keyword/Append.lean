import Mathlib.Data.List.Basic
import NetlistSplit.Proofs.Comment.Kept
import NetlistSplit.Proofs.Keyword.WholeWord

/-!
# The keywords of a text in two parts

Where a text is cut, its keywords are those of the first part followed by those of
the second, moved along by the length of the first (`search_append`).  Two things
must not reach over the cut: a literal that is closed on its line, and an
identifier (`Apart`).

The search cuts a text itself.  In front of a keyword that it finds nothing reaches
over, and behind it neither, so a part of the text from one keyword to another holds
just the keywords that the search finds from the one to the other
(`search_slice`).
-/

namespace NetlistSplit

namespace Comment

/-- A closed literal is the same whatever follows it. -/
theorem literalBody_eq_of_closed {rest other : Text} (hclosed : (literalBody rest).2 = true)
    (hbegins : (literalBody rest).1 <+: other) : literalBody other = literalBody rest := by
  obtain ⟨behind, hbehind⟩ := literalBody_isPrefix rest
  obtain ⟨behind', hbehind'⟩ := hbegins
  have hbody : literalBody ((literalBody rest).1 ++ behind) = ((literalBody rest).1, true) := by
    rw [hbehind, ← hclosed]
  rcases literalBody_cases hbody with ⟨-, -, hother⟩ | ⟨hopen, -⟩ | ⟨hopen, -⟩
  · calc literalBody other
        = literalBody ((literalBody rest).1 ++ behind') := by rw [hbehind']
      _ = ((literalBody rest).1, true) := hother behind'
      _ = literalBody rest := by rw [← hclosed]
  · cases hopen
  · cases hopen

end Comment

theorem Literal.ClosesOnLine.append {rest : Text} (hcloses : ClosesOnLine rest) (later : Text) :
    ClosesOnLine (rest ++ later) := by
  have hbody := Comment.literalBody_eq_of_closed hcloses.1
    ((Comment.literalBody_isPrefix rest).trans (List.prefix_append rest later))
  rw [ClosesOnLine, hbody]
  exact hcloses

namespace Keyword

/-- The keyword `distance` bytes further on. -/
def shift (distance : Nat) (k : Keyword) : Keyword :=
  ⟨k.kind, k.start + distance, k.stop + distance⟩

/-- Whether neither a literal that is closed on its line nor an identifier reaches
from the first text over to the second. -/
structure Apart (first second : Text) : Prop where
  literal : ¬ Literal.Hides (first ++ second) 0 first.length
  word : joins first.getLast? = true → joins second.head? = false

theorem getLast?_eq_byteBefore (first second : Text) :
    first.getLast? = byteBefore (first ++ second) first.length := by
  cases first with
  | nil => rfl
  | cons b rest =>
      have hlast : (b :: rest).length - 1 < (b :: rest).length :=
        Nat.sub_lt (Nat.succ_pos _) Nat.one_pos
      rw [byteBefore, if_neg (by simp), List.getLast?_eq_getElem?, List.getElem?_append_left hlast]

/-! ## Moving a text along -/

@[simp] theorem map_shift_zero (keywords : List Keyword) : keywords.map (shift 0) = keywords :=
  List.map_id keywords

@[simp] theorem map_shift_map_shift (first second : Nat) (keywords : List Keyword) :
    (keywords.map (shift first)).map (shift second) = keywords.map (shift (first + second)) := by
  rw [List.map_map]
  congr 1
  funext k
  simp [shift, Nat.add_assoc]

theorem leading_add (before : Option UInt8) (offset distance : Nat) (b : UInt8) (rest : Text) :
    leading before (offset + distance) b rest =
      ((leading before offset b rest).1.map (shift distance),
        (leading before offset b rest).2) := by
  unfold leading
  split
  · rfl
  · split
    · rfl
    · next kind length hspelled =>
        split
        · rfl
        · simp [shift, Nat.add_right_comm]

theorem searchFrom_add (before : Option UInt8) (offset pending distance : Nat) (text : Text) :
    searchFrom before (offset + distance) pending text =
      (searchFrom before offset pending text).map (shift distance) := by
  induction text generalizing before offset pending with
  | nil => rfl
  | cons b rest ih =>
      cases pending with
      | succ pending =>
          have hrest := ih (some b) (offset + 1) pending
          rw [Nat.add_right_comm] at hrest
          exact hrest
      | zero =>
          have hrest : ∀ pending, searchFrom (some b) (offset + distance + 1) pending rest =
              (searchFrom (some b) (offset + 1) pending rest).map (shift distance) := by
            intro pending
            rw [← ih, Nat.add_right_comm]
          rw [searchFrom, searchFrom, leading_add]
          rcases leading before offset b rest with ⟨found, pending⟩
          cases found with
          | none => exact hrest pending
          | some k => exact congrArg (shift distance k :: ·) (hrest pending)

/-- The byte in front matters only to an identifier. -/
theorem searchFrom_before {before other : Option UInt8} {text : Text}
    (hbefore : joins before = true → joins text.head? = false)
    (hother : joins other = true → joins text.head? = false) (offset : Nat) :
    searchFrom before offset 0 text = searchFrom other offset 0 text := by
  cases text with
  | nil => rfl
  | cons b rest =>
      have hleading : leading before offset b rest = leading other offset b rest := by
        unfold leading
        split
        · rfl
        · cases hspelled : spelled? (b :: rest) with
          | none => rfl
          | some found =>
              -- The first letter of a word is a byte of an identifier.
              obtain ⟨word, hword, hbegins, hlength⟩ := spelled?_eq_some_iff.mp hspelled
              have hb : Byte.isIdentifier b = true := by
                cases word with
                | nil => exact absurd hlength (spelled?_length hspelled).1.ne
                | cons first later =>
                    rw [List.cons_prefix_cons] at hbegins
                    exact hbegins.1 ▸ isIdentifier_of_mem_word hword first List.mem_cons_self
              have hnot : ∀ before, (joins before = true → joins (b :: rest).head? = false) →
                  joins before = false := by
                intro before himp
                apply Bool.eq_false_iff.mpr
                intro hjoins
                rw [List.head?_cons, joins, hb] at himp
                cases himp hjoins
              rw [hnot before hbefore, hnot other hother]
      rw [searchFrom, searchFrom, hleading]

/-- The keywords from a place on which no identifier reaches over. -/
theorem search_eq_map_shift {source : Text} {offset : Nat}
    (hword : joins (byteBefore source offset) = true → joins (source.drop offset).head? = false) :
    search source offset = (search (source.drop offset) 0).map (shift offset) := by
  calc search source offset
      = searchFrom none offset 0 (source.drop offset) :=
        searchFrom_before hword (fun hnone => Bool.noConfusion hnone) offset
    _ = (searchFrom none 0 0 (source.drop offset)).map (shift offset) := by
        rw [← searchFrom_add, Nat.zero_add]
    _ = (search (source.drop offset) 0).map (shift offset) := rfl

/-! ## One step in the first part -/

theorem spelled?_append {text later : Text} {kind : Kind} {length : Nat}
    (hspelled : spelled? text = some (kind, length)) :
    spelled? (text ++ later) = some (kind, length) := by
  obtain ⟨word, hword, hbegins, hlength⟩ := spelled?_eq_some_iff.mp hspelled
  exact spelled?_eq_some_iff.mpr
    ⟨word, hword, hbegins.trans (List.prefix_append text later), hlength⟩

theorem joins_getLast? {text : Text} (hne : text ≠ [])
    (hidentifier : ∀ b ∈ text, Byte.isIdentifier b = true) : joins text.getLast? = true := by
  rw [List.getLast?_eq_getLast_of_ne_nil hne]
  exact hidentifier _ (List.getLast_mem hne)

/-- A word that no identifier carries over the cut stands in the first part. -/
theorem spelled?_of_append {text later : Text} {kind : Kind} {length : Nat} (htext : text ≠ [])
    (hword : joins text.getLast? = true → joins later.head? = false)
    (hspelled : spelled? (text ++ later) = some (kind, length)) :
    spelled? text = some (kind, length) ∧
      (length = text.length → joins later.head? = false) := by
  obtain ⟨word, hmem, hbegins, rfl⟩ := spelled?_eq_some_iff.mp hspelled
  have hidentifier : ∀ b ∈ word, Byte.isIdentifier b = true := isIdentifier_of_mem_word hmem
  rcases Nat.lt_or_ge text.length word.length with hlonger | hle
  · -- The identifier around the cut would hold the word.
    obtain ⟨more, rfl⟩ : text <+: word :=
      List.prefix_of_prefix_length_le (List.prefix_append text later) hbegins hlonger.le
    obtain ⟨b, more, rfl⟩ : ∃ b rest, more = b :: rest := by
      cases more with
      | nil => simp at hlonger
      | cons b rest => exact ⟨b, rest, rfl⟩
    obtain ⟨behind, rfl⟩ := (List.prefix_append_right_inj text).mp hbegins
    have hlast : joins text.getLast? = true :=
      joins_getLast? htext fun c hc => hidentifier c (List.mem_append_left _ hc)
    have hhead := hword hlast
    rw [List.cons_append, List.head?_cons, joins, hidentifier b (by simp)] at hhead
    cases hhead
  · have hinside : word <+: text :=
      List.prefix_of_prefix_length_le hbegins (List.prefix_append text later) hle
    refine ⟨spelled?_eq_some_iff.mpr ⟨word, hmem, hinside, rfl⟩, fun hlength => hword ?_⟩
    obtain rfl := hinside.eq_of_length hlength
    exact joins_getLast? htext hidentifier

/-- One step of the search in the first part is one step in the whole text. -/
theorem exists_step_append {first second : Text} {cursor : Nat} (hlt : cursor < first.length)
    (hword : joins first.getLast? = true → joins second.head? = false)
    (hhides : ¬ Literal.Hides (first ++ second) cursor first.length) :
    ∃ found next, Step (first ++ second) cursor found next ∧ Step first cursor found next ∧
      next ≤ first.length := by
  obtain ⟨b, rest, hdrop⟩ : ∃ b rest, first.drop cursor = b :: rest :=
    ⟨_, _, List.drop_eq_getElem_cons hlt⟩
  have hwhole : (first ++ second).drop cursor = b :: (rest ++ second) := by
    rw [List.drop_append_of_le_length hlt.le, hdrop, List.cons_append]
  have hlength : first.length = cursor + 1 + rest.length := by
    have hrest := congrArg List.length hdrop
    rw [List.length_drop, List.length_cons] at hrest
    omega
  by_cases hcloses : b = Byte.quote ∧ Literal.ClosesOnLine (rest ++ second)
  · obtain ⟨rfl, hcloses⟩ := hcloses
    rw [Literal.hides_of_closes hwhole hcloses] at hhides
    have hinside : (Comment.literalBody (rest ++ second)).1 <+: rest :=
      List.prefix_of_prefix_length_le (Comment.literalBody_isPrefix _) (List.prefix_append _ _)
        (by omega)
    have hbody : Comment.literalBody rest = Comment.literalBody (rest ++ second) :=
      Comment.literalBody_eq_of_closed hcloses.1 hinside
    have hfirst : Literal.ClosesOnLine rest := by
      rw [Literal.ClosesOnLine, hbody]
      exact hcloses
    have hstep := step_of_closes hdrop hfirst
    rw [hbody] at hstep
    exact ⟨none, _, step_of_closes hwhole hcloses, hstep, by omega⟩
  have hfirst : ¬ (b = Byte.quote ∧ Literal.ClosesOnLine rest) := by
    rintro ⟨hquote, hclosed⟩
    exact hcloses ⟨hquote, hclosed.append second⟩
  have hlast : (b :: rest).getLast? = first.getLast? := by
    rw [← hdrop, List.getLast?_drop, if_neg (Nat.not_le_of_lt hlt)]
  cases hspelled : spelled? (b :: (rest ++ second)) with
  | none =>
      have hnone : spelled? (b :: rest) = none := by
        cases hrest : spelled? (b :: rest) with
        | none => rfl
        | some found =>
            have hsome : spelled? (b :: rest ++ second) = some found := spelled?_append hrest
            rw [List.cons_append, hspelled] at hsome
            cases hsome
      exact ⟨none, _, step_of_plain hwhole hspelled hcloses, step_of_plain hdrop hnone hfirst, hlt⟩
  | some found =>
      obtain ⟨kind, length⟩ := found
      obtain ⟨hinside, hbehind⟩ : spelled? (b :: rest) = some (kind, length) ∧
          (length = (b :: rest).length → joins second.head? = false) :=
        spelled?_of_append (List.cons_ne_nil b rest) (hlast ▸ hword) hspelled
      have hle := (spelled?_length hinside).2
      rw [List.length_cons] at hle hbehind
      have hstep := step_of_spelled hwhole hspelled
      have hbefore : byteBefore (first ++ second) cursor = byteBefore first cursor := by
        unfold byteBefore
        split
        · rfl
        · exact List.getElem?_append_left (by omega)
      have hafter : joins (first ++ second)[cursor + length]? = joins first[cursor + length]? := by
        rcases Nat.lt_or_ge (cursor + length) first.length with hin | hout
        · rw [List.getElem?_append_left hin]
        · have hend : cursor + length - first.length = 0 := by omega
          rw [List.getElem?_append_right hout, List.getElem?_eq_none hout, hend,
            ← List.head?_eq_getElem?, hbehind (by omega), joins]
      rw [hbefore, hafter] at hstep
      exact ⟨_, _, hstep, step_of_spelled hdrop hinside, by omega⟩

/-! ## The search goes on behind the cut -/

theorem search_append_from {first second : Text} {cursor : Nat} (hle : cursor ≤ first.length)
    (hword : joins first.getLast? = true → joins second.head? = false)
    (hhides : ¬ Literal.Hides (first ++ second) cursor first.length) :
    search (first ++ second) cursor =
      search first cursor ++ (search second 0).map (shift first.length) := by
  induction hahead : first.length - cursor using Nat.strongRecOn generalizing cursor with
  | ind ahead ih =>
      subst hahead
      rcases Nat.eq_or_lt_of_le hle with rfl | hlt
      · have hcut : (first ++ second).drop first.length = second := List.drop_left
        rw [search_eq_map_shift (by rw [← getLast?_eq_byteBefore, hcut]; exact hword), hcut,
          search_of_ge (Nat.le_refl _), List.nil_append]
      · obtain ⟨found, next, hwhole, hfirst, hnext⟩ := exists_step_append hlt hword hhides
        have hlater := hfirst.lt
        rw [hwhole.search_eq, hfirst.search_eq, List.append_assoc,
          ih _ (by omega) hnext (mt (hwhole.hides_iff _ hnext).mpr hhides) rfl]

/-- The keywords of a text are those of its two parts, if nothing reaches over from
the first to the second. -/
theorem search_append {first second : Text} (hapart : Apart first second) :
    search (first ++ second) 0 = search first 0 ++ (search second 0).map (shift first.length) :=
  search_append_from (Nat.zero_le _) hapart.word hapart.literal

/-- Without a quote in front no literal reaches over. -/
theorem Apart.of_notMem_quote {first second : Text} (hquote : Byte.quote ∉ first)
    (hword : joins first.getLast? = true → joins second.head? = false) : Apart first second where
  literal := by
    have hpassed := Literal.hides_add (s := first.length)
      (show (first ++ second).drop 0 = first ++ second from rfl) hquote
    rw [hpassed, Nat.zero_add]
    intro hhides
    exact Nat.lt_irrefl _ (Literal.lt_of_hides hhides)
  word := hword

/-! ## From one keyword to another -/

/-- A search from a keyword on finds it and those behind it. -/
theorem search_start {source : Text} {cursor : Nat} {earlier later : List Keyword} {k : Keyword}
    (hsearch : search source cursor = earlier ++ k :: later) :
    search source k.start = k :: later := by
  induction hahead : source.length - cursor using Nat.strongRecOn
    generalizing cursor earlier with
  | ind ahead ih =>
      subst hahead
      cases hdrop : source.drop cursor with
      | nil =>
          rw [search_of_ge (List.drop_eq_nil_iff.mp hdrop)] at hsearch
          simp at hsearch
      | cons b rest =>
          have hlt : cursor < source.length := Text.lt_length_of_drop hdrop
          obtain ⟨found, next, hstep⟩ := exists_step hdrop
          have hnext := hstep.lt
          have hfrom := hsearch
          rw [hstep.search_eq] at hsearch
          cases found with
          | none => exact ih _ (by omega) hsearch rfl
          | some first =>
              cases earlier with
              | nil =>
                  obtain ⟨rfl, -⟩ := List.cons.inj hsearch
                  rw [(hstep.found_occurs first rfl).2]
                  exact hfrom
              | cons first' earlier => exact ih _ (by omega) (List.cons.inj hsearch).2 rfl

/-- No literal reaches over the end of a keyword that is found. -/
theorem not_hides_stop {source : Text} {cursor : Nat} {k : Keyword}
    (hmem : k ∈ search source cursor) : ¬ Literal.Hides source cursor k.stop := by
  obtain ⟨hle, hk, hhides⟩ := mem_search_iff.mp hmem
  obtain ⟨word, hword, ⟨behind, hbehind⟩, hstop⟩ := hk.spelled
  have hquote := quote_notMem_of_identifier (isIdentifier_of_mem_word hword)
  rw [Literal.hides_of_not_hides hhides hle (by omega), Literal.hides_add hbehind.symm hquote,
    ← hstop]
  intro hstop
  exact Nat.lt_irrefl _ (Literal.lt_of_hides hstop)

/-- No literal and no identifier reaches over the end of a keyword that is found. -/
theorem apart_stop {source : Text} {k : Keyword} (hmem : k ∈ search source 0) :
    Apart (source.take k.stop) (source.drop k.stop) where
  literal := by
    have hlength : (source.take k.stop).length = k.stop :=
      List.length_take_of_le (bounds_of_mem_search hmem).2.2
    rw [List.take_append_drop, hlength]
    exact not_hides_stop hmem
  word := by
    intro _
    rw [List.head?_drop]
    exact (mem_search_iff.mp hmem).2.1.free_behind

/-- The text from a keyword on holds that keyword and those behind it. -/
theorem search_drop {source : Text} {earlier later : List Keyword} {k : Keyword}
    (hsearch : search source 0 = earlier ++ k :: later) :
    k :: later = (search (source.drop k.start) 0).map (shift k.start) := by
  have hmem : k ∈ search source 0 := by
    rw [hsearch]
    exact List.mem_append_right _ List.mem_cons_self
  rw [← search_start hsearch]
  apply search_eq_map_shift
  intro hjoins
  rw [(mem_search_iff.mp hmem).2.1.free_before] at hjoins
  cases hjoins

/-- The keywords of a part of the text, from one keyword to another. -/
theorem search_slice {source : Text} {earlier within later : List Keyword} {first last : Keyword}
    (hsearch : search source 0 = earlier ++ (within ++ later))
    (hfirst : within.head? = some first) (hlast : within.getLast? = some last) :
    within = (search (Text.slice source first.start last.stop) 0).map (shift first.start) := by
  obtain ⟨behind, hbehind⟩ := List.head?_eq_some_iff.mp hfirst
  obtain ⟨inner, hinner⟩ := List.getLast?_eq_some_iff.mp hlast
  have hmem : ∀ k ∈ within, k ∈ search source 0 := by
    intro k hk
    rw [hsearch]
    exact List.mem_append_right _ (List.mem_append_left _ hk)
  have hfoundLast := mem_search_iff.mp (hmem last (List.mem_of_getLast? hlast))
  -- From the first keyword on and behind the last one the search goes on by itself.
  have htail : within ++ later = (search (source.drop first.start) 0).map (shift first.start) := by
    rw [hbehind, List.cons_append] at hsearch ⊢
    exact search_drop hsearch
  have hlater : later = (search (source.drop last.stop) 0).map (shift last.stop) := by
    have hstop : search source last.stop = later := by
      rw [hinner, List.append_assoc, ← List.append_assoc] at hsearch
      exact search_stop hsearch
    rw [← hstop]
    apply search_eq_map_shift
    intro _
    rw [List.head?_drop]
    exact hfoundLast.2.1.free_behind
  -- The end of the last keyword cuts the text from the first keyword on.
  obtain ⟨k, hk, rfl⟩ : ∃ k ∈ search (source.drop first.start) 0, shift first.start k = last := by
    rw [← List.mem_map, ← htail]
    exact List.mem_append_left _ (List.mem_of_getLast? hlast)
  have hcut := search_append (apart_stop hk)
  have hbounds := bounds_of_mem_search hk
  have hslice : Text.slice source first.start (shift first.start k).stop =
      (source.drop first.start).take k.stop := by
    simp [Text.slice, shift]
  have hrest : (source.drop first.start).drop k.stop = source.drop (shift first.start k).stop := by
    rw [List.drop_drop, shift, Nat.add_comm]
  rw [List.take_append_drop, hrest, List.length_take_of_le hbounds.2.2] at hcut
  rw [hcut, List.map_append, hlater, map_shift_map_shift] at htail
  rw [hslice]
  exact List.append_cancel_right htail

end Keyword

end NetlistSplit
