import NetlistSplit.Proofs.Keyword.Search
import NetlistSplit.Scanner

/-!
# A scan matches brackets

A scanner looks for its next block from its cursor on, each time anew.  This file
proves that its blocks are nevertheless those of a single pass over all keywords
of the text, in which openers and closers are matched like brackets.

The pass counts the depth.  An opener raises it and a closer lowers it, except
that a closer at depth 0 closes nothing.  A stretch reaches from an opener at
depth 0 to the closer that brings the depth back to 0 (`Keyword.stretches`).

## Strategy

One call of `next` reads the keywords from the cursor on up to the end of a
stretch, so it finds the first stretch of the pass over these keywords
(`Nesting.readsFirst_outside`).  The keywords that are left are the ones that a search from
the end of that stretch finds (`Keyword.search_stop`), which is where the cursor
is moved.
-/

namespace NetlistSplit

/-! ## The pass over all keywords -/

/-- What the pass finds from an opener at depth 0 on. -/
inductive Stretch where
  /-- The depth returns to 0 at the end of the span. -/
  | closed (span : Span)
  /-- The depth does not return to 0 after offset `start`. -/
  | unclosed (start : Nat)
  deriving DecidableEq, Repr

/-- The stretches that end in a list of keywords, the depth in front of it being
`depth`.  The opener that raised the depth from 0 stands at offset `start`. -/
def Keyword.stretches (depth start : Nat) : List Keyword → List Stretch
  | [] => if depth = 0 then [] else [.unclosed start]
  | ⟨.opener, offset, _⟩ :: later =>
    stretches (depth + 1) (if depth = 0 then offset else start) later
  | ⟨.closer, _, stop⟩ :: later =>
    if depth = 1 then .closed ⟨start, stop⟩ :: stretches 0 start later
    else stretches (depth - 1) start later

namespace Scanner

/-- The items that stretches of a text give: blocks, up to the first stretch that
is not closed or has no name. -/
def itemsOf (source : Text) : List Stretch → List (Except SourceError Block)
  | [] => []
  | .unclosed start :: _ =>
    [.error (.unterminatedModule (Header.name? (source.drop start)) (Text.lineAt source start))]
  | .closed ⟨start, stop⟩ :: later =>
    match Header.name? (source.drop start) with
    | none => [.error (.unnamedModule (Text.lineAt source start))]
    | some name =>
      .ok ⟨name, Text.slice source start stop, Text.lineAt source start, start⟩ ::
        itemsOf source later

/-- The items of the pass over all keywords of a text. -/
def matchedItems (source : Text) : List (Except SourceError Block) :=
  itemsOf source (Keyword.stretches 0 0 (Keyword.search source 0))

/-- The scan after a number of calls of `next`. -/
def after (s : Scanner) : (calls : Nat) → Scanner
  | 0 => s
  | calls + 1 => s.next.2.after calls

end Scanner

/-! ## Reading up to the end of the first stretch -/

namespace Nesting

/-- What reading `keywords` comes to, beside the stretches in them: the reading
ends with the first stretch, and the other stretches lie behind it. -/
inductive ReadsFirst (keywords : List Keyword) : Except Span Nesting → List Stretch → Prop where
  | none : ReadsFirst keywords (.ok outside) []
  | unclosed (start depth : Nat) : ReadsFirst keywords (.ok (inside start depth)) [.unclosed start]
  | closed {earlier later : List Keyword} {k : Keyword} (start : Nat)
      (hsplit : keywords = earlier ++ k :: later) :
      ReadsFirst keywords (.error ⟨start, k.stop⟩)
        (.closed ⟨start, k.stop⟩ :: Keyword.stretches 0 0 later)

theorem ReadsFirst.cons {keywords : List Keyword} {result : Except Span Nesting}
    {stretches : List Stretch} (k : Keyword) (hreads : ReadsFirst keywords result stretches) :
    ReadsFirst (k :: keywords) result stretches := by
  cases hreads with
  | none => exact .none
  | unclosed start depth => exact .unclosed start depth
  | @closed earlier later last start hsplit =>
      have hcons : k :: keywords = (k :: earlier) ++ last :: later := by
        rw [hsplit, List.cons_append]
      exact .closed start hcons

theorem stretches_zero (start other : Nat) (keywords : List Keyword) :
    Keyword.stretches 0 start keywords = Keyword.stretches 0 other keywords := by
  induction keywords with
  | nil => rfl
  | cons k later ih =>
      obtain ⟨kind, offset, stop⟩ := k
      cases kind with
      | opener => rfl
      | closer => exact ih

theorem readsFirst_inside (keywords : List Keyword) (start depth : Nat) :
    ReadsFirst keywords (keywords.foldlM read (inside start depth))
      (Keyword.stretches (depth + 1) start keywords) := by
  induction keywords generalizing depth with
  | nil => exact .unclosed start depth
  | cons k later ih =>
      obtain ⟨kind, offset, stop⟩ := k
      cases kind with
      | opener => exact (ih (depth + 1)).cons _
      | closer =>
          cases depth with
          | zero =>
              have hlater : Keyword.stretches 1 start (⟨.closer, offset, stop⟩ :: later) =
                  .closed ⟨start, stop⟩ :: Keyword.stretches 0 0 later := by
                rw [stretches_zero 0 start later]
                rfl
              rw [hlater]
              exact .closed start (List.nil_append _).symm
          | succ depth => exact (ih depth).cons _

theorem readsFirst_outside (keywords : List Keyword) :
    ReadsFirst keywords (keywords.foldlM read outside) (Keyword.stretches 0 0 keywords) := by
  induction keywords with
  | nil => exact .none
  | cons k later ih =>
      obtain ⟨kind, offset, stop⟩ := k
      cases kind with
      | opener => exact (readsFirst_inside later offset 0).cons _
      | closer => exact ih.cons _

end Nesting

/-! ## One call of `next` gives the first item -/

namespace Scanner

/-- The items that are still to come according to the pass over the keywords from
the cursor on. -/
def matchedAhead (s : Scanner) : List (Except SourceError Block) :=
  match s.phase with
  | .done => []
  | .searching => itemsOf s.source (Keyword.stretches 0 0 (Keyword.search s.source s.cursor))

theorem next_eq_matchedAhead (s : Scanner) :
    s.next.1 = s.matchedAhead.head? ∧ s.next.2.matchedAhead = s.matchedAhead.tail := by
  obtain ⟨source, cursor, phase⟩ := s
  cases phase with
  | done => exact ⟨rfl, rfl⟩
  | searching =>
      have hreads := Nesting.readsFirst_outside (Keyword.search source cursor)
      simp only [next, matchedAhead, Keyword.read_eq_foldlM]
      generalize hresult : (Keyword.search source cursor).foldlM Nesting.read .outside = result
      generalize hstretches : Keyword.stretches 0 0 (Keyword.search source cursor) = stretches
      rw [hresult, hstretches] at hreads
      cases hreads with
      | none => exact ⟨rfl, rfl⟩
      | unclosed start depth => exact ⟨rfl, rfl⟩
      | @closed earlier later k start hsplit =>
          have hlater : Keyword.search source k.stop = later := Keyword.search_stop hsplit
          simp only [itemsOf, nameAt?]
          cases hname : Header.name? (source.drop start) with
          | none => exact ⟨rfl, rfl⟩
          | some name =>
              simp only [hlater]
              exact ⟨rfl, rfl⟩

/-! ## All calls of `next` -/

theorem next_after (s : Scanner) (calls : Nat) :
    (s.after calls).next.1 = s.matchedAhead[calls]? := by
  induction calls generalizing s with
  | zero => rw [after, (next_eq_matchedAhead s).1, List.head?_eq_getElem?]
  | succ calls ih =>
      calc (s.next.2.after calls).next.1
          = s.next.2.matchedAhead[calls]? := ih s.next.2
        _ = s.matchedAhead.tail[calls]? := by rw [(next_eq_matchedAhead s).2]
        _ = s.matchedAhead[calls + 1]? := List.getElem?_tail

theorem items_of_next_none {s next : Scanner} (hnext : s.next = (none, next)) : s.items = [] := by
  rw [items]
  split
  · rfl
  · next hsome => rw [hnext] at hsome; cases hsome

theorem items_of_next_some {s next : Scanner} {item : Except SourceError Block}
    (hnext : s.next = (some item, next)) : s.items = item :: next.items := by
  rw [items]
  split
  · next hnone => rw [hnext] at hnone; cases hnone
  · next hsome => rw [hnext] at hsome; cases hsome; rfl

theorem items_eq_matchedAhead (s : Scanner) : s.items = s.matchedAhead := by
  induction s using Scanner.items.induct with
  | case1 s next hnext =>
      have hhead := (next_eq_matchedAhead s).1
      rw [hnext] at hhead
      rw [items_of_next_none hnext, List.head?_eq_none_iff.mp hhead.symm]
  | case2 s item next hnext hahead ih =>
      obtain ⟨hhead, htail⟩ := next_eq_matchedAhead s
      rw [hnext] at hhead htail
      obtain ⟨later, hlater⟩ := List.head?_eq_some_iff.mp hhead.symm
      rw [items_of_next_some hnext, ih, htail, hlater, List.tail_cons]

/-! ## All blocks at once -/

theorem mapM_id_eq_ok_iff {items : List (Except SourceError Block)} {blocks : List Block} :
    items.mapM id = .ok blocks ↔ items = blocks.map .ok := by
  induction items generalizing blocks with
  | nil => cases blocks <;> simp [pure, Except.pure]
  | cons item later ih =>
      rw [List.mapM_cons]
      cases item with
      | error fault => cases blocks <;> simp [bind, Except.bind]
      | ok block =>
          cases blocks with
          | nil => cases later.mapM id <;> simp [bind, Except.bind, pure, Except.pure]
          | cons first blocks =>
              rw [List.map_cons, List.cons.injEq, ← ih]
              cases later.mapM id <;> simp [bind, Except.bind, pure, Except.pure]

private theorem mapM_id_eq_error_iff {items : List (Except SourceError Block)}
    {fault : SourceError} :
    items.mapM id = .error fault ↔
      ∃ blocks : List Block, (blocks.map .ok ++ [.error fault]) <+: items := by
  induction items with
  | nil => simp [pure, Except.pure]
  | cons item later ih =>
      rw [List.mapM_cons]
      cases item with
      | error first =>
          constructor
          · intro hfirst
            obtain rfl : first = fault := Except.error.inj hfirst
            exact ⟨[], later, rfl⟩
          · rintro ⟨blocks, after, hitems⟩
            cases blocks with
            | nil => exact congrArg Except.error (Except.error.inj (List.cons.inj hitems).1).symm
            | cons block blocks => cases (List.cons.inj hitems).1
      | ok block =>
          have hmapM : (id (.ok block : Except SourceError Block) >>= fun first =>
              later.mapM id >>= fun blocks => pure (first :: blocks)) = .error fault ↔
              later.mapM id = .error fault := by
            cases later.mapM id <;> simp [bind, Except.bind, pure, Except.pure]
          rw [hmapM, ih]
          constructor
          · rintro ⟨blocks, hblocks⟩
            exact ⟨block :: blocks, List.cons_prefix_cons.mpr ⟨rfl, hblocks⟩⟩
          · rintro ⟨blocks, hblocks⟩
            cases blocks with
            | nil => cases (List.cons_prefix_cons.mp hblocks).1
            | cons first blocks => exact ⟨blocks, (List.cons_prefix_cons.mp hblocks).2⟩

/-- Nothing follows an error. -/
theorem eq_nil_of_itemsOf_eq {source : Text} {stretches : List Stretch}
    {earlier later : List (Except SourceError Block)} {fault : SourceError}
    (hitems : itemsOf source stretches = earlier ++ .error fault :: later) : later = [] := by
  fun_induction itemsOf source stretches generalizing earlier with
  | case1 => simp at hitems
  | case2 start after =>
      cases earlier with
      | nil => exact (List.cons.inj hitems).2.symm
      | cons item earlier => simp at hitems
  | case3 start stop after hname =>
      cases earlier with
      | nil => exact (List.cons.inj hitems).2.symm
      | cons item earlier => simp at hitems
  | case4 start stop after name hname ih =>
      cases earlier with
      | nil => cases (List.cons.inj hitems).1
      | cons item earlier => exact ih (List.cons.inj hitems).2

theorem matches_brackets (source : Text) :
    (∀ calls, ((ofText source).after calls).next.1 = (matchedItems source)[calls]?) ∧
      (∀ blocks, Block.extract source = .ok blocks ↔ matchedItems source = blocks.map .ok) ∧
      ∀ fault, Block.extract source = .error fault ↔
        ∃ blocks : List Block, matchedItems source = blocks.map .ok ++ [.error fault] := by
  have hextract : Block.extract source = (matchedItems source).mapM id :=
    congrArg (List.mapM id) (items_eq_matchedAhead (ofText source))
  refine ⟨next_after (ofText source), fun blocks => ?_, fun fault => ?_⟩
  · rw [hextract, mapM_id_eq_ok_iff]
  · rw [hextract, mapM_id_eq_error_iff]
    constructor
    · rintro ⟨blocks, later, hitems⟩
      rw [List.append_assoc] at hitems
      obtain rfl := eq_nil_of_itemsOf_eq hitems.symm
      exact ⟨blocks, hitems.symm⟩
    · rintro ⟨blocks, hitems⟩
      exact ⟨blocks, hitems ▸ List.prefix_rfl⟩

end Scanner

end NetlistSplit
