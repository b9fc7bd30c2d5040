import NetlistSplit.Proofs.Keyword.Append
import NetlistSplit.Proofs.Scanner.Matching

/-!
# The keywords of one module

A stretch that is closed begins with one keyword and ends with another, and the
depth returns to 0 only there.  So the keywords in between are a part of all keywords
of the text that can be told apart from the rest (`exists_isModule_of_mem`): whatever
follows them, the stretch that they begin ends with the last of them.

Every block of a scan is such a stretch (`exists_span_of_mem_items`).
-/

namespace NetlistSplit

/-- Where a stretch begins. -/
def Stretch.start : Stretch → Nat
  | closed span => span.start
  | unclosed start => start

/-- The stretch `distance` bytes further on. -/
def Stretch.shift (distance : Nat) : Stretch → Stretch
  | closed span => closed ⟨span.start + distance, span.stop + distance⟩
  | unclosed start => unclosed (start + distance)

theorem Stretch.shift_injective (distance : Nat) : Function.Injective (shift distance) := by
  intro stretch other hsame
  rcases stretch with ⟨start, stop⟩ | start <;> rcases other with ⟨start', stop'⟩ | start' <;>
    simp_all [shift]

namespace Keyword

theorem shift_injective (distance : Nat) : Function.Injective (shift distance) := by
  intro k other hsame
  cases k
  cases other
  simp_all [shift]

theorem stretches_map_shift (depth start distance : Nat) (keywords : List Keyword) :
    stretches depth (start + distance) (keywords.map (shift distance)) =
      (stretches depth start keywords).map (Stretch.shift distance) := by
  induction keywords generalizing depth start with
  | nil =>
      rw [List.map_nil, stretches, stretches]
      split <;> rfl
  | cons k later ih =>
      obtain ⟨kind, offset, stop⟩ := k
      cases kind with
      | opener =>
          have hstart : (if depth = 0 then offset + distance else start + distance) =
              (if depth = 0 then offset else start) + distance := by
            split <;> rfl
          rw [List.map_cons, shift, stretches, stretches, hstart]
          exact ih _ _
      | closer =>
          rw [List.map_cons, shift, stretches, stretches]
          split
          · exact congrArg (.closed ⟨start + distance, stop + distance⟩ :: ·) (ih 0 start)
          · exact ih _ _

theorem stretches_zero_map_shift (distance : Nat) (keywords : List Keyword) :
    stretches 0 0 (keywords.map (shift distance)) =
      (stretches 0 0 keywords).map (Stretch.shift distance) := by
  rw [← stretches_map_shift, Nesting.stretches_zero (0 + distance) 0]

/-- Whether keywords, read at depth `depth` in a stretch from offset `start` on, close
the stretch `span` with the last of them. -/
structure Closes (depth start : Nat) (within : List Keyword) (span : Span) : Prop where
  last : ∃ k, within.getLast? = some k ∧ k.kind = .closer ∧ k.stop = span.stop
  stretches_append : ∀ later, stretches depth start (within ++ later) =
    .closed span :: stretches 0 0 later

/-- Whether keywords are those of one module, which takes up `span`. -/
structure IsModule (within : List Keyword) (span : Span) : Prop where
  first : ∃ k, within.head? = some k ∧ k.kind = .opener ∧ k.start = span.start
  closes : Closes 0 0 within span

theorem Closes.cons {depth deeper start inner : Nat} {k : Keyword} {within : List Keyword}
    {span : Span} (hcloses : Closes deeper inner within span)
    (hstep : ∀ later, stretches depth start (k :: later) = stretches deeper inner later) :
    Closes depth start (k :: within) span where
  last := by
    obtain ⟨last, hlast, hkind⟩ := hcloses.last
    refine ⟨last, ?_, hkind⟩
    rw [List.getLast?_cons, hlast, Option.getD_some]
  stretches_append := by
    intro later
    rw [List.cons_append, hstep, hcloses.stretches_append]

theorem Closes.of_map_shift {within : List Keyword} {start stop distance : Nat}
    (hcloses : Closes 0 0 (within.map (shift distance)) ⟨start + distance, stop + distance⟩) :
    Closes 0 0 within ⟨start, stop⟩ where
  last := by
    obtain ⟨last, hlast, hkind, hstop⟩ := hcloses.last
    rw [List.getLast?_map] at hlast
    obtain ⟨k, hk, rfl⟩ := Option.map_eq_some_iff.mp hlast
    exact ⟨k, hk, hkind, Nat.add_right_cancel hstop⟩
  stretches_append := by
    intro later
    have hboth := hcloses.stretches_append (later.map (shift distance))
    rw [← List.map_append, stretches_zero_map_shift, stretches_zero_map_shift] at hboth
    exact List.map_injective_iff.mpr (Stretch.shift_injective distance) hboth

theorem IsModule.of_map_shift {within : List Keyword} {start stop distance : Nat}
    (hmodule : IsModule (within.map (shift distance)) ⟨start + distance, stop + distance⟩) :
    IsModule within ⟨start, stop⟩ where
  first := by
    obtain ⟨first, hfirst, hkind, hstart⟩ := hmodule.first
    rw [List.head?_map] at hfirst
    obtain ⟨k, hk, rfl⟩ := Option.map_eq_some_iff.mp hfirst
    exact ⟨k, hk, hkind, Nat.add_right_cancel hstart⟩
  closes := hmodule.closes.of_map_shift

/-- A stretch begins with an opener, if the depth in front of the keywords is 0. -/
theorem exists_opener_of_mem_stretches {keywords : List Keyword} {stretch : Stretch} :
    ∀ {depth start : Nat}, stretch ∈ stretches depth start keywords →
      (depth ≠ 0 ∧ stretch.start = start) ∨
        ∃ k ∈ keywords, k.kind = .opener ∧ k.start = stretch.start := by
  induction keywords with
  | nil =>
      intro depth start hstretch
      rw [stretches] at hstretch
      split at hstretch
      · cases hstretch
      · next hdepth =>
          obtain rfl := List.mem_singleton.mp hstretch
          exact .inl ⟨hdepth, rfl⟩
  | cons k later ih =>
      intro depth start hstretch
      obtain ⟨kind, offset, stop⟩ := k
      have hbehind : (∃ k ∈ later, k.kind = .opener ∧ k.start = stretch.start) →
          ∃ k ∈ ⟨kind, offset, stop⟩ :: later, k.kind = .opener ∧ k.start = stretch.start :=
        fun ⟨k, hk, hopens⟩ => ⟨k, List.mem_cons_of_mem _ hk, hopens⟩
      cases kind with
      | opener =>
          rcases ih hstretch with ⟨-, hstart⟩ | hlater
          · by_cases hdepth : depth = 0
            · rw [if_pos hdepth] at hstart
              exact .inr ⟨_, List.mem_cons_self, rfl, hstart.symm⟩
            · rw [if_neg hdepth] at hstart
              exact .inl ⟨hdepth, hstart⟩
          · exact .inr (hbehind hlater)
      | closer =>
          rw [stretches] at hstretch
          by_cases hdepth : depth = 1
          · rw [if_pos hdepth] at hstretch
            rcases List.mem_cons.mp hstretch with rfl | hlater
            · exact .inl ⟨by omega, rfl⟩
            · rcases ih hlater with ⟨hzero, -⟩ | hlater
              · exact absurd rfl hzero
              · exact .inr (hbehind hlater)
          · rw [if_neg hdepth] at hstretch
            rcases ih hstretch with ⟨hdeep, hstart⟩ | hlater
            · exact .inl ⟨by omega, hstart⟩
            · exact .inr (hbehind hlater)

/-- A closed stretch was begun in front of the keywords, or it is one of them that
begins it. -/
theorem exists_closes_of_mem {keywords : List Keyword} {depth start : Nat} {span : Span}
    (hspan : .closed span ∈ stretches depth start keywords) :
    (depth ≠ 0 ∧ span.start = start ∧
        ∃ within later, keywords = within ++ later ∧ Closes depth start within span) ∨
      ∃ earlier within later, keywords = earlier ++ (within ++ later) ∧ IsModule within span := by
  induction keywords generalizing depth start with
  | nil =>
      rw [stretches] at hspan
      split at hspan <;> simp at hspan
  | cons k later ih =>
      -- What is found behind `k` as a module is one behind it here too.
      have hbehind : (∃ earlier within behind, later = earlier ++ (within ++ behind) ∧
          IsModule within span) → ∃ earlier within behind,
            k :: later = earlier ++ (within ++ behind) ∧ IsModule within span := by
        rintro ⟨earlier, within, behind, rfl, hmodule⟩
        exact ⟨k :: earlier, within, behind, rfl, hmodule⟩
      obtain ⟨kind, offset, stop⟩ := k
      cases kind with
      | opener =>
          rcases ih (by simpa only [stretches] using hspan) with
            ⟨-, hstart, within, behind, rfl, hcloses⟩ | hmodule
          · by_cases hdepth : depth = 0
            · subst hdepth
              have hcons : Closes 0 0 (⟨.opener, offset, stop⟩ :: within) span :=
                hcloses.cons fun later => rfl
              exact .inr ⟨[], _, behind, rfl, ⟨_, rfl, rfl, hstart.symm⟩, hcons⟩
            · have hcons : Closes depth start (⟨.opener, offset, stop⟩ :: within) span :=
                hcloses.cons fun later => rfl
              rw [if_neg hdepth] at hstart
              exact .inl ⟨hdepth, hstart, _, behind, rfl, hcons⟩
          · exact .inr (hbehind hmodule)
      | closer =>
          rw [stretches] at hspan
          by_cases hdepth : depth = 1
          · subst hdepth
            rw [if_pos rfl] at hspan
            rcases List.mem_cons.mp hspan with hfirst | hlater
            · obtain rfl := Stretch.closed.inj hfirst
              refine .inl ⟨Nat.one_ne_zero, rfl, [⟨.closer, offset, stop⟩], later, rfl,
                ⟨_, rfl, rfl, rfl⟩, fun later => ?_⟩
              rw [List.singleton_append, stretches, if_pos rfl,
                Nesting.stretches_zero start 0 later]
            · rcases ih hlater with ⟨hzero, -⟩ | hmodule
              · exact absurd rfl hzero
              · exact .inr (hbehind hmodule)
          · rw [if_neg hdepth] at hspan
            rcases ih hspan with ⟨hzero, hstart, within, behind, rfl, hcloses⟩ | hmodule
            · have hcons : Closes depth start (⟨.closer, offset, stop⟩ :: within) span :=
                hcloses.cons fun later => by rw [stretches, if_neg hdepth]
              exact .inl ⟨by omega, hstart, _, behind, rfl, hcons⟩
            · exact .inr (hbehind hmodule)

/-- The keywords of a closed stretch stand together. -/
theorem exists_isModule_of_mem {keywords : List Keyword} {span : Span}
    (hspan : .closed span ∈ stretches 0 0 keywords) :
    ∃ earlier within later, keywords = earlier ++ (within ++ later) ∧ IsModule within span := by
  rcases exists_closes_of_mem hspan with ⟨hzero, -⟩ | hmodule
  · exact absurd rfl hzero
  · exact hmodule

end Keyword

namespace Scanner

theorem exists_span_of_mem_itemsOf {source : Text} {stretches : List Stretch} {block : Block}
    (hblock : .ok block ∈ itemsOf source stretches) :
    ∃ span, .closed span ∈ stretches ∧
      Header.name? (source.drop span.start) = some block.name ∧
      block = ⟨block.name, Text.slice source span.start span.stop,
        Text.lineAt source span.start, span.start⟩ := by
  fun_induction itemsOf source stretches with
  | case1 => cases hblock
  | case2 start later => simp at hblock
  | case3 start stop later hname => simp at hblock
  | case4 start stop later name hname ih =>
      rcases List.mem_cons.mp hblock with hfirst | hlater
      · obtain rfl := Except.ok.inj hfirst
        exact ⟨⟨start, stop⟩, List.mem_cons_self, hname, rfl⟩
      · obtain ⟨span, hspan, hblock⟩ := ih hlater
        exact ⟨span, List.mem_cons_of_mem _ hspan, hblock⟩

/-- A block that a scan yields is a closed stretch of the text. -/
theorem exists_span_of_mem_items {source : Text} {block : Block}
    (hblock : .ok block ∈ (ofText source).items) :
    ∃ span, .closed span ∈ Keyword.stretches 0 0 (Keyword.search source 0) ∧
      Header.name? (source.drop span.start) = some block.name ∧
      block = ⟨block.name, Text.slice source span.start span.stop,
        Text.lineAt source span.start, span.start⟩ := by
  rw [items_eq_matchedAhead] at hblock
  exact exists_span_of_mem_itemsOf hblock

/-- A block begins with a keyword that opens. -/
theorem exists_opener_of_mem_items {source : Text} {block : Block}
    (hblock : .ok block ∈ (ofText source).items) :
    ∃ k ∈ Keyword.search source 0, k.kind = .opener ∧ k.start = block.offset := by
  obtain ⟨span, hspan, -, hvalue⟩ := exists_span_of_mem_items hblock
  obtain ⟨earlier, within, later, hsearch, hmodule⟩ := Keyword.exists_isModule_of_mem hspan
  obtain ⟨k, hk, hkind, hstart⟩ := hmodule.first
  refine ⟨k, ?_, hkind, by rw [hstart, hvalue]⟩
  rw [hsearch]
  exact List.mem_append_right _ (List.mem_append_left _ (List.mem_of_head? hk))

end Scanner

end NetlistSplit
