import NetlistSplit.Proofs.Scanner.Stretch
import NetlistSplit.Proofs.Text.Boundary

/-!
# What a scan has yielded

However often `next` was called, the scan stands behind the last block that it yielded,
and these blocks are all that there is to yield up to there: no module begins between
them (`HasYielded`).

## Strategy

A call of `next` ends the scan, finds it done, or yields a block that takes up the
keywords of one module.  In front of these there are only closers (`calls_next`).  The
blocks in front of the cursor are known, so an opener that was missed would have to be
a keyword behind the cursor, and the search from the cursor finds all of those
(`HasYielded.next`).
-/

namespace NetlistSplit

/-- The offset behind the last byte of a block. -/
def Block.stop (block : Block) : Nat :=
  block.offset + block.text.length

/-! ## Keywords follow one another -/

namespace Keyword

theorem Occurs.start_lt_stop {source : Text} {k : Keyword} (hk : k.Occurs source) :
    k.start < k.stop := by
  have hlength := spelled?_length hk.spelled?_eq
  omega

theorem pairwise_search (source : Text) (cursor : Nat) :
    (search source cursor).Pairwise fun k later => k.stop ≤ later.start := by
  generalize hfound : search source cursor = found
  induction found generalizing cursor with
  | nil => exact .nil
  | cons k later ih =>
      have hlater : search source k.stop = later :=
        search_stop (hfound.trans (List.nil_append _).symm)
      refine List.pairwise_cons.mpr ⟨fun other hother => ?_, ih k.stop hlater⟩
      rw [← hlater] at hother
      exact (bounds_of_mem_search hother).1

namespace IsModule

variable {within : List Keyword} {span : Span}

/-- The opener of a module stands in front of its closer. -/
theorem exists_ends (hmodule : IsModule within span)
    (hapart : within.Pairwise fun k later => k.stop ≤ later.start) :
    ∃ first ∈ within, ∃ last ∈ within,
      (first.kind = .opener ∧ first.start = span.start) ∧
      (last.kind = .closer ∧ last.stop = span.stop) ∧ first.stop ≤ last.start := by
  obtain ⟨first, hfirst, hopens, hstart⟩ := hmodule.first
  obtain ⟨last, hlast, hcloses, hstop⟩ := hmodule.closes.last
  have hmem := List.mem_of_getLast? hlast
  refine ⟨first, List.mem_of_head? hfirst, last, hmem, ⟨hopens, hstart⟩, ⟨hcloses, hstop⟩, ?_⟩
  obtain ⟨behind, rfl⟩ := List.head?_eq_some_iff.mp hfirst
  rcases List.mem_cons.mp hmem with rfl | hmem
  · rw [hopens] at hcloses
    cases hcloses
  · exact (List.pairwise_cons.mp hapart).1 last hmem

/-- The keywords of a module lie in its span. -/
theorem bounds_of_mem (hmodule : IsModule within span)
    (hapart : within.Pairwise fun k later => k.stop ≤ later.start)
    (hlt : ∀ k ∈ within, k.start < k.stop) {k : Keyword} (hmem : k ∈ within) :
    span.start ≤ k.start ∧ k.stop ≤ span.stop := by
  obtain ⟨first, hfirst, -, hstart⟩ := hmodule.first
  obtain ⟨last, hlast, -, hstop⟩ := hmodule.closes.last
  constructor
  · obtain ⟨behind, rfl⟩ := List.head?_eq_some_iff.mp hfirst
    rcases List.mem_cons.mp hmem with rfl | hbehind
    · exact hstart.symm.le
    · have hle := (List.pairwise_cons.mp hapart).1 k hbehind
      have hbegins := hlt first List.mem_cons_self
      omega
  · obtain ⟨inner, rfl⟩ := List.getLast?_eq_some_iff.mp hlast
    rcases List.mem_append.mp hmem with hinner | hend
    · have hle := (List.pairwise_append.mp hapart).2.2 k hinner last List.mem_cons_self
      have hends := hlt last (List.mem_append_right _ List.mem_cons_self)
      omega
    · obtain rfl := List.mem_singleton.mp hend
      exact hstop.le

variable {source : Text} {cursor : Nat} {strays later : List Keyword}

theorem sublist_search (hsearch : search source cursor = strays ++ (within ++ later)) :
    within.Sublist (search source cursor) := by
  rw [hsearch]
  exact (List.sublist_append_left within later).trans (List.sublist_append_right strays _)

/-- A module that a search finds lies between two whole words behind the cursor. -/
theorem exists_occurs (hmodule : IsModule within span)
    (hsearch : search source cursor = strays ++ (within ++ later)) :
    ∃ first last : Keyword, first.Occurs source ∧ last.Occurs source ∧
      (first.kind = .opener ∧ first.start = span.start) ∧
      (last.kind = .closer ∧ last.stop = span.stop) ∧
      (cursor ≤ first.start ∧ first.stop ≤ last.start ∧ last ∈ search source cursor) := by
  have hfound := sublist_search hsearch
  obtain ⟨first, hfirst, last, hlast, hopens, hcloses, hends⟩ :=
    hmodule.exists_ends ((pairwise_search source cursor).sublist hfound)
  obtain ⟨hle, hfirst, -⟩ := mem_search_iff.mp (hfound.subset hfirst)
  obtain ⟨-, hoccurs, -⟩ := mem_search_iff.mp (hfound.subset hlast)
  exact ⟨first, last, hfirst, hoccurs, hopens, hcloses, hle, hends, hfound.subset hlast⟩

/-- With nothing but closers in front of a module, no opener is found that begins before its
end and is not in it. -/
theorem bounds_of_opener (hmodule : IsModule within span)
    (hsearch : search source cursor = strays ++ (within ++ later))
    (hstrays : ∀ k ∈ strays, k.kind = .closer) {k : Keyword} (hmem : k ∈ search source cursor)
    (hkind : k.kind = .opener) (hlt : k.start < span.stop) :
    span.start ≤ k.start ∧ k.stop ≤ span.stop := by
  have hfound := sublist_search hsearch
  have hapart := pairwise_search source cursor
  obtain ⟨last, hlast, -, hstop⟩ := hmodule.closes.last
  rw [hsearch] at hmem
  rcases List.mem_append.mp hmem with hstray | hmem
  · rw [hstrays k hstray] at hkind
    cases hkind
  rcases List.mem_append.mp hmem with hwithin | hlater
  · exact hmodule.bounds_of_mem (hapart.sublist hfound)
      (fun k hk => (bounds_of_mem_search (hfound.subset hk)).2.1) hwithin
  · rw [hsearch] at hapart
    have hbehind := (List.pairwise_append.mp (List.pairwise_append.mp hapart).2.1).2.2
    have hle := hbehind last (List.mem_of_getLast? hlast) k hlater
    omega

end IsModule

end Keyword

/-! ## The keywords that one call takes up -/

namespace Nesting

open Keyword (Closes IsModule)

theorem closes_of_foldlM_inside {keywords : List Keyword} {start depth : Nat} {span : Span}
    (hread : keywords.foldlM read (inside start depth) = .error span) :
    span.start = start ∧
      ∃ within later, keywords = within ++ later ∧ Closes (depth + 1) start within span := by
  induction keywords generalizing depth with
  | nil => cases hread
  | cons k later ih =>
      obtain ⟨kind, offset, stop⟩ := k
      cases kind with
      | opener =>
          obtain ⟨hstart, within, behind, rfl, hcloses⟩ := ih hread
          exact ⟨hstart, _, behind, rfl, hcloses.cons fun later => rfl⟩
      | closer =>
          cases depth with
          | zero =>
              obtain rfl : (⟨start, stop⟩ : Span) = span := Except.error.inj hread
              refine ⟨rfl, [⟨.closer, offset, stop⟩], later, rfl, ⟨_, rfl, rfl, rfl⟩,
                fun later => ?_⟩
              rw [List.singleton_append, Keyword.stretches, if_pos rfl,
                stretches_zero start 0 later]
          | succ depth =>
              obtain ⟨hstart, within, behind, rfl, hcloses⟩ := ih hread
              exact ⟨hstart, _, behind, rfl, hcloses.cons fun later => rfl⟩

/-- What is read up to the end of a span are closers that close nothing, and then the
keywords of one module. -/
theorem isModule_of_foldlM {keywords : List Keyword} {span : Span}
    (hread : keywords.foldlM read outside = .error span) :
    ∃ strays within later, keywords = strays ++ (within ++ later) ∧
      (∀ k ∈ strays, k.kind = .closer) ∧ IsModule within span := by
  induction keywords with
  | nil => cases hread
  | cons k later ih =>
      obtain ⟨kind, offset, stop⟩ := k
      cases kind with
      | opener =>
          obtain ⟨hstart, within, behind, rfl, hcloses⟩ := closes_of_foldlM_inside hread
          exact ⟨[], ⟨.opener, offset, stop⟩ :: within, behind, rfl, by simp,
            ⟨_, rfl, rfl, hstart.symm⟩, hcloses.cons fun later => rfl⟩
      | closer =>
          obtain ⟨strays, within, behind, rfl, hstrays, hmodule⟩ := ih hread
          refine ⟨⟨.closer, offset, stop⟩ :: strays, within, behind, rfl, ?_, hmodule⟩
          intro k hk
          rcases List.mem_cons.mp hk with rfl | hk
          · rfl
          · exact hstrays k hk

end Nesting

namespace Scanner

open Keyword (IsModule search)

/-- What one call of `next` comes to: nothing, the end of the scan, or a block. -/
inductive Calls (s : Scanner) : Option (Except SourceError Block) × Scanner → Prop where
  | done (hphase : s.phase = .done) : Calls s (none, s)
  | ends {result : Option (Except SourceError Block)} (hphase : s.phase = .searching)
      (hresult : result = none ∨ ∃ fault, result = some (.error fault)) :
      Calls s (result, s.finish)
  | yields {block : Block} {strays within later : List Keyword} (hphase : s.phase = .searching)
      (hsearch : search s.source s.cursor = strays ++ (within ++ later))
      (hstrays : ∀ k ∈ strays, k.kind = .closer)
      (hmodule : IsModule within ⟨block.offset, block.stop⟩)
      (htext : block.text = Text.slice s.source block.offset block.stop)
      (hline : block.line = s.lineAt block.offset) :
      Calls s (some (.ok block), { s with cursor := block.stop })

theorem calls_next (s : Scanner) : s.Calls s.next := by
  unfold next
  split
  · next hphase => exact .done hphase
  next hphase =>
  split
  · exact .ends hphase (.inl rfl)
  · exact .ends hphase (.inr ⟨_, rfl⟩)
  next start stop hread =>
  split
  · exact .ends hphase (.inr ⟨_, rfl⟩)
  next name hname =>
  rw [Keyword.read_eq_foldlM] at hread
  obtain ⟨strays, within, later, hsearch, hstrays, hmodule⟩ := Nesting.isModule_of_foldlM hread
  obtain ⟨first, last, hfirst, hlast, ⟨-, rfl⟩, ⟨-, rfl⟩, -, hends, hfound⟩ :=
    hmodule.exists_occurs hsearch
  have hstart := hfirst.start_lt_stop
  have hstop := Keyword.bounds_of_mem_search hfound
  have hlength : (Text.slice s.source first.start last.stop).length = last.stop - first.start := by
    rw [Text.slice, List.length_take, List.length_drop]
    omega
  let block : Block :=
    ⟨name, Text.slice s.source first.start last.stop, s.lineAt first.start, first.start⟩
  have hstop : block.stop = last.stop := by
    simp only [Block.stop, block, hlength]
    omega
  have hyields : s.Calls (some (.ok block), { s with cursor := block.stop }) :=
    .yields hphase hsearch hstrays (hstop.symm ▸ hmodule) (by rw [hstop]) rfl
  rw [hstop] at hyields
  exact hyields

/-! ## The blocks up to the cursor -/

/-- The scan after one call of `next` more. -/
theorem after_succ (s : Scanner) (calls : Nat) : s.after (calls + 1) = (s.after calls).next.2 := by
  induction calls generalizing s with
  | zero => rfl
  | succ calls ih => exact ih s.next.2

/-- The blocks that a number of calls of `next` yield. -/
def yielded (s : Scanner) : (calls : Nat) → List Block
  | 0 => []
  | calls + 1 =>
    match (s.after calls).next.1 with
    | some (.ok block) => s.yielded calls ++ [block]
    | _ => s.yielded calls

end Scanner

/-- Whether a block is a part of a text, between two keywords that are whole words
there. -/
structure Block.StandsIn (block : Block) (source : Text) : Prop where
  text_eq : block.text = Text.slice source block.offset block.stop
  line_eq : block.line = 1 + (source.take block.offset).count Byte.newline
  bounds : block.offset < block.stop ∧ block.stop ≤ source.length
  keywords : ∃ first last : Keyword, first.Occurs source ∧ last.Occurs source ∧
    (first.kind = .opener ∧ first.start = block.offset) ∧
    (last.kind = .closer ∧ last.stop = block.stop) ∧ first.stop ≤ last.start

namespace Scanner

/-- Whether a scan over `source` has come as far as its cursor with just `blocks`. -/
structure HasYielded (s : Scanner) (source : Text) (blocks : List Block) : Prop where
  source_eq : s.source = source
  cursor_eq : s.cursor = (blocks.getLast?.map Block.stop).getD 0
  cursor_le : s.cursor ≤ source.length
  boundary : source.IsBoundary s.cursor
  /-- No closed literal reaches over the cursor, so that reading literals from the cursor on
  finds the same ones as reading them from the start. -/
  not_hidden : ¬ Literal.Hides source 0 s.cursor
  stands : ∀ block ∈ blocks, block.StandsIn source
  apart : blocks.Pairwise fun block later =>
    block.offset < later.offset ∧ block.stop ≤ later.offset
  opener_inside : ∀ k : Keyword, k.Occurs source → k.kind = .opener →
    ¬ Literal.Hides source 0 k.start → k.start < s.cursor →
      ∃ block ∈ blocks, block.offset ≤ k.start ∧ k.stop ≤ block.stop

theorem hasYielded_ofText (source : Text) : (ofText source).HasYielded source [] where
  source_eq := rfl
  cursor_eq := rfl
  cursor_le := Nat.zero_le _
  boundary := Text.isBoundary_zero source
  not_hidden := fun hhides => Nat.lt_irrefl 0 (Literal.lt_of_hides hhides)
  stands := by
    intro block hblock
    cases hblock
  apart := .nil
  opener_inside := by
    intro k hk hkind hhides hlt
    exact absurd hlt (Nat.not_lt_zero _)

/-- A text is cut between two characters behind each of its keywords. -/
theorem isBoundary_stop {source : Text} {k : Keyword} (hk : k.Occurs source) :
    source.IsBoundary k.stop := by
  obtain ⟨word, hword, ⟨rest, hrest⟩, hstop⟩ := hk.spelled
  have hlast : ∀ entry ∈ Keyword.words, entry.1.getLast? = some 0x65 := by decide
  obtain ⟨front, rfl⟩ : ∃ front, word = front ++ [0x65] :=
    List.getLast?_eq_some_iff.mp (hlast _ hword)
  have hletter : source[k.start + front.length]? = some 0x65 := by
    rw [← List.getElem?_drop, ← hrest]
    simp
  have hend : k.stop = k.start + front.length + 1 := by
    rw [hstop, List.length_append, List.length_singleton, Nat.add_assoc]
  exact hend ▸ Text.isBoundary_succ hletter rfl

namespace HasYielded

variable {s : Scanner} {source : Text} {blocks : List Block}

/-- A call that yields no block leaves the cursor where it was. -/
theorem finish (hs : s.HasYielded source blocks) : s.finish.HasYielded source blocks :=
  ⟨hs.source_eq, hs.cursor_eq, hs.cursor_le, hs.boundary, hs.not_hidden, hs.stands, hs.apart,
    hs.opener_inside⟩

theorem stop_le (hs : s.HasYielded source blocks) {block : Block} (hblock : block ∈ blocks) :
    block.stop ≤ s.cursor := by
  obtain ⟨last, hlast⟩ : ∃ last, blocks.getLast? = some last :=
    ⟨_, List.getLast?_eq_some_getLast (List.ne_nil_of_mem hblock)⟩
  have hcursor : s.cursor = last.stop := by
    rw [hs.cursor_eq, hlast, Option.map_some, Option.getD_some]
  obtain ⟨earlier, rfl⟩ := List.getLast?_eq_some_iff.mp hlast
  rw [hcursor]
  rcases List.mem_append.mp hblock with hearlier | hself
  · have hapart := (List.pairwise_append.mp hs.apart).2.2 block hearlier last List.mem_cons_self
    have hbounds := (hs.stands last (List.mem_append_right _ List.mem_cons_self)).bounds
    omega
  · exact (congrArg Block.stop (List.mem_singleton.mp hself)).le

/-- A block is yielded behind all blocks before, and no opener is passed over. -/
theorem yields {block : Block} {strays within later : List Keyword}
    (hs : s.HasYielded source blocks)
    (hsearch : Keyword.search s.source s.cursor = strays ++ (within ++ later))
    (hstrays : ∀ k ∈ strays, k.kind = .closer)
    (hmodule : Keyword.IsModule within ⟨block.offset, block.stop⟩)
    (htext : block.text = Text.slice s.source block.offset block.stop)
    (hline : block.line = s.lineAt block.offset) :
    ({ s with cursor := block.stop } : Scanner).HasYielded source (blocks ++ [block]) ∧
      s.cursor < block.stop := by
  obtain rfl := hs.source_eq
  obtain ⟨first, last, hfirst, hlast, hopens, hcloses, hle, hends, hfound⟩ :=
    hmodule.exists_occurs hsearch
  have hstart := hopens.2
  have hstop := hcloses.2
  have hbegins := hfirst.start_lt_stop
  have hbounds := Keyword.bounds_of_mem_search hfound
  simp only at hstart hstop
  have hstands : block.StandsIn s.source := by
    refine ⟨htext, ?_, by omega, first, last, hfirst, hlast, hopens, hcloses, hends⟩
    rw [hline, lineAt, Text.lineAt, Nat.add_comm]
  refine ⟨⟨rfl, ?cursor, by simp only; omega, ?boundary, ?hidden, ?stands, ?apart, ?inside⟩,
    by omega⟩
  case cursor => rw [List.getLast?_concat, Option.map_some, Option.getD_some]
  case boundary => exact hstop ▸ isBoundary_stop hlast
  case hidden =>
    have hfree := Keyword.not_hides_stop hfound
    rwa [← Literal.hides_of_not_hides hs.not_hidden (Nat.zero_le _) (by omega), hstop] at hfree
  case stands =>
    intro other hother
    rcases List.mem_append.mp hother with hearlier | hnew
    · exact hs.stands other hearlier
    · exact List.mem_singleton.mp hnew ▸ hstands
  case apart =>
    refine List.pairwise_append.mpr ⟨hs.apart, List.pairwise_singleton _ _, ?_⟩
    intro earlier hearlier other hother
    obtain rfl := List.mem_singleton.mp hother
    have hbefore := hs.stop_le hearlier
    have hearlier := (hs.stands earlier hearlier).bounds
    omega
  case inside =>
    intro k hk hkind hhides hlt
    rcases Nat.lt_or_ge k.start s.cursor with hbefore | hbehind
    · obtain ⟨other, hother, hin⟩ := hs.opener_inside k hk hkind hhides hbefore
      exact ⟨other, List.mem_append_left _ hother, hin⟩
    · -- Behind the old cursor the search finds every opener.
      rw [Literal.hides_of_not_hides hs.not_hidden (Nat.zero_le _) hbehind] at hhides
      have hmem : k ∈ Keyword.search s.source s.cursor :=
        Keyword.mem_search_iff.mpr ⟨hbehind, hk, hhides⟩
      refine ⟨block, List.mem_append_right _ List.mem_cons_self, ?_⟩
      exact hmodule.bounds_of_opener hsearch hstrays hmem hkind hlt

end HasYielded

/-! ## A whole scan -/

/-- What one more call of `next` does to the blocks and to the cursor. -/
theorem HasYielded.next {s : Scanner} {source : Text} {blocks : List Block}
    (hs : s.HasYielded source blocks) :
    match s.next.1 with
    | some (.ok block) =>
      s.next.2.HasYielded source (blocks ++ [block]) ∧ s.cursor < s.next.2.cursor
    | _ => s.next.2.HasYielded source blocks ∧ s.next.2.cursor = s.cursor := by
  have hcalls := s.calls_next
  generalize s.next = result at hcalls
  cases hcalls with
  | done hphase => exact ⟨hs, rfl⟩
  | ends hphase hresult =>
      rcases hresult with rfl | ⟨fault, rfl⟩ <;> exact ⟨hs.finish, rfl⟩
  | yields hphase hsearch hstrays hmodule htext hline =>
      exact hs.yields hsearch hstrays hmodule htext hline

theorem hasYielded_after (source : Text) (calls : Nat) :
    ((ofText source).after calls).HasYielded source ((ofText source).yielded calls) := by
  induction calls with
  | zero => exact hasYielded_ofText source
  | succ calls ih =>
      have hnext := ih.next
      rw [after_succ, yielded]
      split <;> simp_all

/-- A scan is done from the first call on that yields no block. -/
theorem phase_next (s : Scanner) :
    s.next.2.phase = .done ↔
      s.phase = .done ∨ s.next.1 = none ∨ ∃ fault, s.next.1 = some (.error fault) := by
  have hcalls := s.calls_next
  generalize s.next = result at hcalls
  cases hcalls with
  | done hphase => exact iff_of_true hphase (.inl hphase)
  | ends hphase hresult => exact iff_of_true rfl (.inr hresult)
  | yields hphase hsearch hstrays hmodule htext hline => simp [hphase]

theorem phase_after (source : Text) (calls : Nat) :
    ((ofText source).after calls).phase = .done ↔
      ∃ earlier < calls, ((ofText source).after earlier).next.1 = none ∨
        ∃ fault, ((ofText source).after earlier).next.1 = some (.error fault) := by
  induction calls with
  | zero => simp [after, ofText]
  | succ calls ih =>
      rw [after_succ, phase_next, ih]
      constructor
      · rintro (⟨earlier, hlt, hresult⟩ | hresult)
        · exact ⟨earlier, by omega, hresult⟩
        · exact ⟨calls, by omega, hresult⟩
      · rintro ⟨earlier, hlt, hresult⟩
        rcases Nat.lt_or_ge earlier calls with hbefore | hlast
        · exact .inl ⟨earlier, hbefore, hresult⟩
        · obtain rfl : earlier = calls := by omega
          exact .inr hresult

theorem next_of_done {s : Scanner} (hphase : s.phase = .done) : s.next = (none, s) := by
  rw [next, hphase]

theorem after_of_done {s : Scanner} (hphase : s.phase = .done) (calls : Nat) :
    s.after calls = s := by
  induction calls with
  | zero => rfl
  | succ calls ih => rw [after, next_of_done hphase, ih]

/-- As long as a scan is not done, every call has moved its cursor. -/
theorem done_or_le_cursor (source : Text) (calls : Nat) :
    ((ofText source).after calls).phase = .done ∨ calls ≤ ((ofText source).after calls).cursor := by
  induction calls with
  | zero => exact .inr (Nat.zero_le _)
  | succ calls ih =>
      have hnext := (hasYielded_after source calls).next
      have hphase := phase_next ((ofText source).after calls)
      rw [after_succ, hphase]
      rcases ih with hdone | hle
      · exact .inl (.inl hdone)
      · split at hnext
        · exact .inr (by omega)
        · next hresult =>
            left
            right
            cases hitem : ((ofText source).after calls).next.1 with
            | none => exact .inl rfl
            | some item =>
                cases item with
                | error fault => exact .inr ⟨fault, rfl⟩
                | ok block => exact absurd hitem (hresult block)

/-- After any number of calls a scan has yielded just what stands in front of its cursor.
It is done as soon as a call yields no block, stays so, and is done at last. -/
theorem scan_invariant (source : Text) (calls : Nat) :
    let s := (ofText source).after calls
    s.HasYielded source ((ofText source).yielded calls) ∧
      (match s.next.1 with
        | some (.ok _) => s.cursor < s.next.2.cursor
        | _ => s.next.2.cursor = s.cursor) ∧
      (s.phase = .done ↔ ∃ earlier < calls, ((ofText source).after earlier).next.1 = none ∨
        ∃ fault, ((ofText source).after earlier).next.1 = some (.error fault)) ∧
      (s.phase = .done → ∀ more, s.after more = s ∧ (s.after more).next.1 = none) ∧
      (source.length < calls → s.phase = .done) := by
  intro s
  have hs := hasYielded_after source calls
  refine ⟨hs, ?cursor, phase_after source calls, ?done, ?ends⟩
  case cursor =>
    have hnext := hs.next
    split at hnext
    · next block hblock =>
        rw [hblock]
        exact hnext.2
    · exact hnext.2
  case done =>
    intro hphase more
    rw [after_of_done hphase, next_of_done hphase]
    exact ⟨rfl, rfl⟩
  case ends =>
    intro hlt
    rcases done_or_le_cursor source calls with hdone | hle
    · exact hdone
    · have hcursor := hs.cursor_le
      omega

/-- A closer that closes nothing is passed over, and a module without a name ends the scan. -/
example :
    let s := ofText (Text.ofString "endmodule module A; endmodule module (x); endmodule")
    (s.yielded 3).map (fun block => (block.name, block.offset, block.stop)) = [("A", 10, 29)] ∧
      (s.after 3).cursor = 29 ∧ (s.after 3).phase = .done := by
  decide

end Scanner

end NetlistSplit
