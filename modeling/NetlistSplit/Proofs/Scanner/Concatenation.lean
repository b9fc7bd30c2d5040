import NetlistSplit.Proofs.Comment.Lines
import NetlistSplit.Proofs.Header.Keywords
import NetlistSplit.Proofs.Scanner.Stretch

/-!
# The blocks of two netlists

Two netlists, one on the lines behind the other, are scanned as if each of them stood
alone.  The blocks of the first come first, as they are.  If all of the first is
blocks, what follows is what the second yields, moved to its place
(`extract_append_newline`).

## Strategy

The newline between the netlists keeps them apart: no literal that is closed on its
line holds it, and it belongs to no identifier.  So the keywords of both are those of
the first and then, moved along, those of the second (`Keyword.search_append_newline`).
A module of the first that is not closed may go on in the second, but the stretches in
front of it are the same (`Keyword.exists_stretches_append`).

A block of the first stays as it is, since its header has already come to its end
(`Header.name?_append_text`).  A header that declares nothing might be completed by the
second, and therefore nothing is said of what comes behind the first error.
-/

namespace NetlistSplit

/-- The same block, behind `bytes` more bytes on `lines` more lines. -/
def Block.moved (bytes lines : Nat) (block : Block) : Block :=
  ⟨block.name, block.text, block.line + lines, block.offset + bytes⟩

/-- A declaration is read to its end, whatever stands behind the text. -/
theorem Header.name?_append_text {text : Text} {name : String} (hname : name? text = some name)
    (later : Text) : name? (text ++ later) = some name := by
  obtain ⟨d, hbegins, hd⟩ := name?_eq_some_iff.mp hname
  exact name?_eq_some_iff.mpr ⟨d, hbegins.trans (List.prefix_append text later), hd⟩

namespace Keyword

/-! ## The keywords of both -/

theorem Apart.of_newline (first second : Text) : Apart first (Byte.newline :: second) where
  literal := Literal.not_hides_newline (by simp)
  word := fun _ => rfl

/-- A newline hides no keyword on either side. -/
theorem search_append_newline (first second : Text) :
    search (first ++ Byte.newline :: second) 0 =
      search first 0 ++ (search second 0).map (shift (first.length + 1)) := by
  have hsecond : search ([Byte.newline] ++ second) 0 = (search second 0).map (shift 1) :=
    search_append_of_not_identifier (List.forall_mem_singleton.mpr rfl) (by decide) second
  rw [search_append (.of_newline first second), ← List.singleton_append, hsecond,
    map_shift_map_shift, Nat.add_comm 1]

/-! ## The stretches of both -/

/-- Stretches that are closed stay so, whatever keywords follow.  If there are no
others, what follows begins at depth 0. -/
theorem exists_stretches_append {depth start : Nat} {first : List Keyword} {spans : List Span}
    {later : List Stretch} (hfirst : stretches depth start first = spans.map .closed ++ later)
    (second : List Keyword) :
    ∃ later', stretches depth start (first ++ second) = spans.map .closed ++ later' ∧
      (later = [] → later' = stretches 0 0 second) := by
  induction first generalizing depth start spans with
  | nil =>
      obtain rfl : spans = [] := by
        cases spans with
        | nil => rfl
        | cons span spans =>
            rw [stretches] at hfirst
            split at hfirst <;> cases hfirst
      refine ⟨stretches depth start second, rfl, fun hlater => ?_⟩
      rw [hlater, stretches] at hfirst
      split at hfirst
      · next hdepth => rw [hdepth, Nesting.stretches_zero start 0]
      · cases hfirst
  | cons k behind ih =>
      obtain ⟨kind, offset, stop⟩ := k
      cases kind with
      | opener => exact ih hfirst
      | closer =>
          by_cases hdepth : depth = 1
          · subst hdepth
            rw [stretches, if_pos rfl] at hfirst
            rw [List.cons_append, stretches, if_pos rfl]
            cases spans with
            | nil =>
                refine ⟨_, rfl, fun hlater => ?_⟩
                rw [hlater] at hfirst
                cases hfirst
            | cons span spans =>
                obtain ⟨hspan, hrest⟩ := List.cons.inj hfirst
                obtain ⟨later', hboth, hlater⟩ := ih hrest
                exact ⟨later', by rw [hboth, hspan]; rfl, hlater⟩
          · rw [stretches, if_neg hdepth] at hfirst
            rw [List.cons_append, stretches, if_neg hdepth]
            exact ih hfirst

/-- A closed stretch lies inside the text. -/
theorem bounds_of_mem_stretches {source : Text} {span : Span}
    (hspan : .closed span ∈ stretches 0 0 (search source 0)) :
    span.start ≤ source.length ∧ span.stop ≤ source.length := by
  obtain ⟨earlier, within, later, hsearch, hmodule⟩ := exists_isModule_of_mem hspan
  have hmem : ∀ k ∈ within, k ∈ search source 0 := by
    intro k hk
    rw [hsearch]
    exact List.mem_append_right _ (List.mem_append_left _ hk)
  obtain ⟨first, hfirst, -, hstart⟩ := hmodule.first
  obtain ⟨last, hlast, -, hstop⟩ := hmodule.closes.last
  have hbounds := bounds_of_mem_search (hmem first (List.mem_of_head? hfirst))
  have hbounds' := bounds_of_mem_search (hmem last (List.mem_of_getLast? hlast))
  omega

end Keyword

namespace Scanner

/-- The blocks that a scan yields. -/
def blocks (s : Scanner) : List Block :=
  s.items.filterMap Except.toOption

/-! ## The blocks of the first -/

/-- The blocks among the items come from closed stretches in front, and from all
stretches if there are no other items. -/
theorem exists_closed_of_itemsOf (source : Text) (stretches : List Stretch) :
    ∃ (spans : List Span) (later : List Stretch), stretches = spans.map .closed ++ later ∧
      itemsOf source (spans.map .closed) =
        ((itemsOf source stretches).filterMap Except.toOption).map .ok ∧
      (itemsOf source stretches =
        ((itemsOf source stretches).filterMap Except.toOption).map .ok → later = []) := by
  fun_induction itemsOf source stretches with
  | case1 => exact ⟨[], [], rfl, rfl, fun _ => rfl⟩
  | case2 start later => exact ⟨[], _, rfl, rfl, fun hall => by cases hall⟩
  | case3 start stop later hname => exact ⟨[], _, rfl, rfl, fun hall => by cases hall⟩
  | case4 start stop later name hname ih =>
      obtain ⟨spans, behind, hlater, hitems, hall⟩ := ih
      refine ⟨⟨start, stop⟩ :: spans, behind, by rw [hlater]; rfl, ?_, fun hcons => ?_⟩
      · rw [List.map_cons, itemsOf, hname]
        dsimp only
        rw [hitems]
        rfl
      · exact hall (List.cons.inj hcons).2

/-- What follows a text does not change the blocks in it. -/
theorem itemsOf_append {first : Text} {spans : List Span} {blocks : List Block}
    (hinside : ∀ span ∈ spans, span.start ≤ first.length ∧ span.stop ≤ first.length)
    (hitems : itemsOf first (spans.map .closed) = blocks.map .ok) (second : Text)
    (later : List Stretch) :
    itemsOf (first ++ second) (spans.map .closed ++ later) =
      blocks.map .ok ++ itemsOf (first ++ second) later := by
  induction spans generalizing blocks with
  | nil =>
      obtain rfl := List.map_eq_nil_iff.mp hitems.symm
      rfl
  | cons span spans ih =>
      obtain ⟨hstart, hstop⟩ := hinside span List.mem_cons_self
      have hdrop : (first ++ second).drop span.start = first.drop span.start ++ second :=
        List.drop_append_of_le_length hstart
      rw [List.map_cons, itemsOf] at hitems
      cases hname : Header.name? (first.drop span.start) with
      | none =>
          rw [hname] at hitems
          cases blocks <;> cases hitems
      | some name =>
          rw [hname] at hitems
          obtain ⟨block, blocks, rfl⟩ : ∃ block later, blocks = block :: later := by
            cases blocks with
            | nil => cases hitems
            | cons block blocks => exact ⟨block, blocks, rfl⟩
          obtain ⟨hfirst, hrest⟩ := List.cons.inj hitems
          obtain rfl := Except.ok.inj hfirst
          have hslice : Text.slice (first ++ second) span.start span.stop =
              Text.slice first span.start span.stop := by
            rw [Text.slice, hdrop, List.take_append_of_le_length, Text.slice]
            rw [List.length_drop]
            omega
          have hline : Text.lineAt (first ++ second) span.start = Text.lineAt first span.start := by
            rw [Text.lineAt, List.take_append_of_le_length hstart, Text.lineAt]
          rw [List.map_cons, List.cons_append, itemsOf, hdrop, Header.name?_append_text hname,
            hslice, hline,
            ih (fun other hother => hinside other (List.mem_cons_of_mem _ hother)) hrest]
          rfl

/-! ## The blocks of the second -/

/-- An item moved along, behind `bytes` more bytes on `lines` more lines. -/
def movedItem (bytes lines : Nat) : Except SourceError Block → Except SourceError Block
  | .error fault => .error (fault.moved lines)
  | .ok block => .ok (block.moved bytes lines)

/-- What stands in front of a text moves its items along. -/
theorem itemsOf_map_shift (front text : Text) (stretches : List Stretch) :
    itemsOf (front ++ text) (stretches.map (Stretch.shift front.length)) =
      (itemsOf text stretches).map (movedItem front.length (front.count Byte.newline)) := by
  have hdrop : ∀ offset, (front ++ text).drop (offset + front.length) = text.drop offset := by
    intro offset
    rw [Nat.add_comm, List.drop_length_add_append]
  have hline : ∀ offset, Text.lineAt (front ++ text) (offset + front.length) =
      Text.lineAt text offset + front.count Byte.newline := by
    intro offset
    rw [Text.lineAt, Text.lineAt, Nat.add_comm offset, List.take_length_add_append,
      List.count_append]
    omega
  have hslice : ∀ start stop, Text.slice (front ++ text) (start + front.length)
      (stop + front.length) = Text.slice text start stop := by
    intro start stop
    rw [Text.slice, hdrop, Nat.add_sub_add_right, Text.slice]
  fun_induction itemsOf text stretches with
  | case1 => rfl
  | case2 start later =>
      simp only [List.map_cons, Stretch.shift, itemsOf, hdrop, hline]
      rfl
  | case3 start stop later hname =>
      simp only [List.map_cons, Stretch.shift, itemsOf, hdrop, hline, hname]
      rfl
  | case4 start stop later name hname ih =>
      simp only [List.map_cons, Stretch.shift, itemsOf, hdrop, hline, hslice, hname, ih]
      rfl

/-- The blocks of a text moved along, or its first error. -/
theorem mapM_id_map_movedItem (bytes lines : Nat) (items : List (Except SourceError Block)) :
    (items.map (movedItem bytes lines)).mapM id =
      ((items.mapM id).map (·.map (Block.moved bytes lines))).mapError
        (SourceError.moved lines) := by
  induction items with
  | nil => rfl
  | cons item later ih =>
      rw [List.map_cons, List.mapM_cons, List.mapM_cons, ih]
      cases item with
      | error fault => rfl
      | ok block => cases later.mapM id <;> rfl

theorem mapM_id_append (blocks : List Block) (items : List (Except SourceError Block)) :
    (blocks.map Except.ok ++ items).mapM id = (items.mapM id).map (blocks ++ ·) := by
  induction blocks with
  | nil => cases hitems : items.mapM id <;> simp [hitems, Except.map]
  | cons block blocks ih =>
      rw [List.map_cons, List.cons_append, List.mapM_cons, ih]
      cases items.mapM id <;> rfl

/-! ## Netlists one behind the other -/

/-- Behind the blocks of the first netlist come, if it yields no error, the items of the
second. -/
theorem exists_items_append_newline (first second : Text) :
    ∃ later, (ofText (first ++ Byte.newline :: second)).items =
        (ofText first).blocks.map .ok ++ later ∧
      ((ofText first).items = (ofText first).blocks.map .ok →
        later = (ofText second).items.map
          (movedItem (first.length + 1) (first.count Byte.newline + 1))) := by
  have hitems : ∀ source, (ofText source).items =
      itemsOf source (Keyword.stretches 0 0 (Keyword.search source 0)) :=
    fun source => items_eq_matchedAhead (ofText source)
  obtain ⟨spans, rest, hspans, hblocks, hall⟩ :=
    exists_closed_of_itemsOf first (Keyword.stretches 0 0 (Keyword.search first 0))
  obtain ⟨later, hboth, hlater⟩ := Keyword.exists_stretches_append hspans
    ((Keyword.search second 0).map (Keyword.shift (first.length + 1)))
  have hinside : ∀ span ∈ spans, span.start ≤ first.length ∧ span.stop ≤ first.length := by
    intro span hspan
    apply Keyword.bounds_of_mem_stretches
    rw [hspans]
    exact List.mem_append_left _ (List.mem_map_of_mem hspan)
  rw [← hitems] at hblocks hall
  refine ⟨itemsOf (first ++ Byte.newline :: second) later, ?_, fun hfirst => ?_⟩
  · rw [hitems, Keyword.search_append_newline, hboth, itemsOf_append hinside hblocks, blocks]
  · have hmoved := itemsOf_map_shift (first ++ [Byte.newline]) second
      (Keyword.stretches 0 0 (Keyword.search second 0))
    rw [List.length_append, List.count_append, List.append_assoc] at hmoved
    rw [hlater (hall hfirst), Keyword.stretches_zero_map_shift, hitems second]
    exact hmoved

/-- The blocks of two netlists, one on the lines behind the other: those of the first
come first, and if it has no fault, what follows is what the second yields, moved to its
place. -/
theorem extract_append_newline (first second : Text) :
    (ofText first).blocks.map .ok <+: (ofText (first ++ Byte.newline :: second)).items ∧
      ∀ blocks, Block.extract first = .ok blocks →
        match Block.extract second with
        | .ok later => Block.extract (first ++ Byte.newline :: second) = .ok (blocks ++
            later.map (Block.moved (first.length + 1) (first.count Byte.newline + 1)))
        | .error fault => Block.extract (first ++ Byte.newline :: second) =
            .error (fault.moved (first.count Byte.newline + 1)) := by
  obtain ⟨later, hitems, hlater⟩ := exists_items_append_newline first second
  refine ⟨⟨later, hitems.symm⟩, fun blocks hfirst => ?_⟩
  have hall : (ofText first).items = blocks.map .ok := mapM_id_eq_ok_iff.mp hfirst
  obtain rfl : (ofText first).blocks = blocks := by
    rw [Scanner.blocks, hall, List.filterMap_map]
    exact List.filterMap_some
  have hextract : Block.extract (first ++ Byte.newline :: second) =
      (((Block.extract second).map (·.map (Block.moved (first.length + 1)
        (first.count Byte.newline + 1)))).mapError
          (SourceError.moved (first.count Byte.newline + 1))).map
            ((ofText first).blocks ++ ·) := by
    rw [Block.extract, hitems, hlater hall, mapM_id_append, mapM_id_map_movedItem]
    rfl
  rw [hextract]
  cases Block.extract second <;> rfl

/-- The first netlist ends in a quote and a backslash, with a stray closer in front of
them.  Of the second, the one or the other module is not closed. -/
theorem extract_append_newline_openQuote :
    let first := Text.ofString "\nmodule A; endmodule endmodule \" \\"
    let block : Block := ⟨"A", Text.ofString "module A; endmodule", 2, 1⟩
    Block.extract first = .ok [block] ∧
      Block.extract (first ++ Byte.newline :: Text.ofString "\"endmodule\" module B; endmodule") =
        .ok [block, ⟨"B", Text.ofString "module B; endmodule", 3, 47⟩] ∧
      Block.extract (first ++ Byte.newline :: Text.ofString "\nmodule B; \n module C; endmodule") =
        .error (.unterminatedModule (some "B") 4) := by
  intro first block
  have hextract : ∀ source, Block.extract source =
      (itemsOf source (Keyword.stretches 0 0 (Keyword.search source 0))).mapM id :=
    fun source => congrArg (List.mapM id) (items_eq_matchedAhead (ofText source))
  have hfirst : Block.extract first = .ok [block] := by
    rw [hextract]
    rfl
  have hclosed : Block.extract (Text.ofString "\"endmodule\" module B; endmodule") =
      .ok [⟨"B", Text.ofString "module B; endmodule", 1, 12⟩] := by
    rw [hextract]
    rfl
  have hopen : Block.extract (Text.ofString "\nmodule B; \n module C; endmodule") =
      .error (.unterminatedModule (some "B") 2) := by
    rw [hextract]
    rfl
  have hboth := (extract_append_newline first
    (Text.ofString "\"endmodule\" module B; endmodule")).2 _ hfirst
  have hfails := (extract_append_newline first
    (Text.ofString "\nmodule B; \n module C; endmodule")).2 _ hfirst
  rw [hclosed] at hboth
  rw [hopen] at hfails
  exact ⟨hfirst, hboth, hfails⟩

end Scanner

end NetlistSplit
