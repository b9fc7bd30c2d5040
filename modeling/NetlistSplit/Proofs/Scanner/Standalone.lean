import NetlistSplit.Proofs.Header.Keywords
import NetlistSplit.Proofs.Scanner.Stretch

/-!
# Blocks by themselves

A block is read again from its own text, as the one block in it, unless its name is
`endmodule` (`extract_block`).

## Strategy

The keywords of a block's text are those of the netlist between its opener and its
closer (`Keyword.search_slice`), so the text is one closed stretch.  That leaves the
header, which the scan reads without regard to where the block ends.

* If the name is not `endmodule`, the closer of the block is not a keyword of the
  header, so the block reaches over the whole header and declares the same name.
* If it is, that name is the closer.  The block ends with it, and the mark that ends
  the header is cut off.
-/

namespace NetlistSplit

/-! ## The name in the text of a block -/

namespace Keyword

/-- The only identifier that closes a module is `endmodule`. -/
theorem eq_endmodule_of_closer {word : Text} {k : Keyword}
    (hword : ∀ b ∈ word, Byte.isIdentifier b = true) (hk : k ∈ search word 0)
    (hkind : k.kind = .closer) : word = Text.ofString "endmodule" := by
  have hall : ∀ entry ∈ words, ∀ k ∈ search entry.1 0, k.kind = .closer →
      entry.1 = Text.ofString "endmodule" := by
    decide
  by_cases hmem : ∃ kind, (word, kind) ∈ words
  · obtain ⟨kind, hmem⟩ := hmem
    exact hall (word, kind) hmem k hk hkind
  · rw [search_of_identifier hword (not_exists.mp hmem)] at hk
    cases hk

end Keyword

namespace Header

/-- Without what follows the name, a header declares nothing. -/
theorem name?_front (d : Declaration) : name? d.front = none := by
  cases hname : name? d.front with
  | none => rfl
  | some name =>
      -- The mark that ends a header is neither in a word nor white space.
      obtain ⟨other, ⟨later, hfront⟩, -⟩ := name?_eq_some_iff.mp hname
      have hstop : other.stop ∈ d.front := by
        rw [← hfront]
        simp [Declaration.text, Declaration.ending]
      rcases Declaration.of_mem_front hstop with hidentifier | ⟨run, hrun⟩
      · rcases other.stop_eq with heq | heq <;>
          · rw [heq] at hidentifier
            cases hidentifier
      · obtain ⟨-, -, -, hparen, hsemicolon⟩ := Text.Spaces.ne_mark_of_mem hrun
        exact absurd other.stop_eq (not_or.mpr ⟨hparen, hsemicolon⟩)

namespace Declaration

/-- A keyword that closes stands behind the header, unless it is the name. -/
theorem length_le_of_closer {d : Declaration} {rest : Text} {k : Keyword}
    (hname : d.name ≠ Text.ofString "endmodule") (hk : k ∈ Keyword.search (d.text ++ rest) 0)
    (hkind : k.kind = .closer) : d.text.length ≤ k.start := by
  rw [d.search_append] at hk
  rcases List.mem_cons.mp hk with rfl | hk
  · cases hkind
  rcases List.mem_append.mp hk with hinside | hbehind
  · obtain ⟨word, hword, rfl⟩ := List.mem_map.mp hinside
    exact absurd (Keyword.eq_endmodule_of_closer d.name_identifier hword hkind) hname
  · obtain ⟨other, -, rfl⟩ := List.mem_map.mp hbehind
    exact Nat.le_add_left _ _

/-- The name `endmodule` closes the module. -/
theorem stretches_of_endmodule {d : Declaration} (hname : d.name = Text.ofString "endmodule")
    (rest : Text) : ∃ later, Keyword.stretches 0 0 (Keyword.search (d.text ++ rest) 0) =
      .closed ⟨0, d.front.length⟩ :: later := by
  have hword : Keyword.search d.name 0 = [⟨.closer, 0, d.name.length⟩] := by
    rw [hname]
    decide
  rw [d.search_append, hword, length_front, Nat.add_comm d.nameOffset]
  exact ⟨_, rfl⟩

end Declaration

end Header

/-! ## The block in the text of a block -/

namespace Scanner

open Keyword

/-- A text that is one closed stretch is one block if its header can be read. -/
theorem extract_of_stretches {text : Text}
    (hstretches : stretches 0 0 (search text 0) = [.closed ⟨0, text.length⟩]) :
    Block.extract text =
      match Header.name? text with
      | none => .error (.unnamedModule 1)
      | some name => .ok [⟨name, text, 1, 0⟩] := by
  have hitems : (ofText text).items = itemsOf text [.closed ⟨0, text.length⟩] := by
    rw [items_eq_matchedAhead, ← hstretches]
    rfl
  have hslice : Text.slice text 0 text.length = text := by simp [Text.slice]
  rw [Block.extract, hitems, itemsOf, List.drop_zero, hslice]
  cases Header.name? text <;> rfl

/-- The keywords in the text of a closed stretch are those of one module, and a search
that goes on behind the stretch finds them first. -/
theorem isModule_slice {source : Text} {span : Span}
    (hspan : .closed span ∈ stretches 0 0 (search source 0)) :
    IsModule (search (Text.slice source span.start span.stop) 0)
        ⟨0, (Text.slice source span.start span.stop).length⟩ ∧
      search (Text.slice source span.start span.stop) 0 <+: search (source.drop span.start) 0 := by
  obtain ⟨start, stop⟩ := span
  obtain ⟨earlier, within, later, hsearch, hmodule⟩ := exists_isModule_of_mem hspan
  obtain ⟨first, hfirst, -, rfl⟩ := hmodule.first
  obtain ⟨last, hlast, -, rfl⟩ := hmodule.closes.last
  have hslice := search_slice hsearch hfirst hlast
  have hstop : last.stop =
      (Text.slice source first.start last.stop).length + first.start := by
    have hmem := List.mem_of_getLast? hlast
    have hfound : last ∈ search source 0 := by
      rw [hsearch]
      exact List.mem_append_right _ (List.mem_append_left _ hmem)
    have hbounds := bounds_of_mem_search hfound
    rw [hslice] at hmem
    obtain ⟨k, -, rfl⟩ := List.mem_map.mp hmem
    simp only [Text.slice, shift, List.length_take, List.length_drop] at hbounds ⊢
    omega
  constructor
  · apply IsModule.of_map_shift
    rw [Nat.zero_add, ← hslice, ← hstop]
    exact hmodule
  · apply (List.prefix_map_iff_of_injective (shift_injective first.start)).mp
    obtain ⟨behind, rfl⟩ := List.head?_eq_some_iff.mp hfirst
    rw [← hslice, ← search_drop hsearch]
    exact ⟨later, rfl⟩

/-- A closed stretch with a header in front holds the whole header, unless the name is
`endmodule`.  Then it ends with the name. -/
theorem header_of_span {source : Text} {span : Span} {d : Header.Declaration}
    (hspan : .closed span ∈ stretches 0 0 (search source 0))
    (hbegins : d.text <+: source.drop span.start) :
    (d.name ≠ Text.ofString "endmodule" →
      d.text <+: Text.slice source span.start span.stop) ∧
    (d.name = Text.ofString "endmodule" →
      Text.slice source span.start span.stop = d.front) := by
  obtain ⟨hmodule, later, hlater⟩ := isModule_slice hspan
  have hslice : Text.slice source span.start span.stop <+: source.drop span.start :=
    List.take_prefix _ _
  constructor
  · intro hne
    obtain ⟨k, hk, hkind, hstop⟩ := hmodule.closes.last
    have hbounds := bounds_of_mem_search (List.mem_of_getLast? hk)
    have hmem : k ∈ search (source.drop span.start) 0 := by
      rw [← hlater]
      exact List.mem_append_left later (List.mem_of_getLast? hk)
    obtain ⟨rest, hrest⟩ := hbegins
    rw [← hrest] at hmem
    have hheader := Header.Declaration.length_le_of_closer hne hmem hkind
    exact List.prefix_of_prefix_length_le ⟨rest, hrest⟩ hslice (by omega)
  · intro heq
    obtain ⟨rest, hrest⟩ := hbegins
    obtain ⟨others, hothers⟩ := Header.Declaration.stretches_of_endmodule heq rest
    rw [hrest, ← hlater, hmodule.closes.stretches_append] at hothers
    have hlength : (Text.slice source span.start span.stop).length = d.front.length :=
      congrArg Span.stop (Stretch.closed.inj (List.cons.inj hothers).1)
    have hfront : d.front <+: source.drop span.start := by
      rw [← hrest, Header.Declaration.text, List.append_assoc]
      exact List.prefix_append _ _
    exact (List.prefix_of_prefix_length_le hslice hfront hlength.le).eq_of_length hlength

/-- A block stands by itself, unless its name is `endmodule`: its text is one block, and
it has the same name whatever stands behind it.  A block with the name `endmodule` has
lost the mark that ends its header. -/
theorem extract_block {source : Text} {block : Block}
    (hblock : .ok block ∈ (ofText source).items) :
    (block.name ≠ "endmodule" →
      Block.extract block.text = .ok [⟨block.name, block.text, 1, 0⟩] ∧
        ∀ behind, Header.name? (block.text ++ behind) = some block.name) ∧
    (block.name = "endmodule" → Block.extract block.text = .error (.unnamedModule 1)) := by
  obtain ⟨span, hspan, hname, hvalue⟩ := exists_span_of_mem_items hblock
  have htext : block.text = Text.slice source span.start span.stop := by rw [hvalue]
  obtain ⟨d, hbegins, hd⟩ := Header.name?_eq_some_iff.mp hname
  obtain ⟨hwhole, hcut⟩ := header_of_span hspan hbegins
  have hmodule := (isModule_slice hspan).1
  rw [← htext] at hwhole hcut hmodule
  have hstretches := hmodule.closes.stretches_append []
  rw [List.append_nil] at hstretches
  have hextract := extract_of_stretches hstretches
  have hendmodule : d.name = Text.ofString "endmodule" ↔ block.name = "endmodule" := by
    have hspelled : Text.asciiString (Text.ofString "endmodule") = "endmodule" := by decide
    rw [← hd, ← hspelled]
    exact Text.asciiString_injective.eq_iff.symm
  constructor
  · intro hne
    have hnames : ∀ behind, Header.name? (block.text ++ behind) = some block.name := by
      intro behind
      have hbegins := hwhole (mt hendmodule.mp hne)
      exact Header.name?_eq_some_iff.mpr ⟨d, hbegins.trans (List.prefix_append _ behind), hd⟩
    have hself := hnames []
    rw [List.append_nil] at hself
    rw [hself] at hextract
    exact ⟨hextract, hnames⟩
  · intro heq
    rw [hcut (hendmodule.mpr heq), Header.name?_front] at hextract
    rw [hcut (hendmodule.mpr heq)]
    exact hextract

/-- A module with another one and a string inside, and text on both sides. -/
theorem extract_block_nested :
    let source := Text.ofString
      "endmodule module A #(x); \"endmodule\" module B; endmodule endmodule ;"
    let text := Text.ofString
      "module A #(x); \"endmodule\" module B; endmodule endmodule"
    .ok ⟨"A", text, 1, 10⟩ ∈ (ofText source).items ∧
      Block.extract text = .ok [⟨"A", text, 1, 0⟩] ∧
        ∀ behind, Header.name? (text ++ behind) = some "A" := by
  intro source text
  have hblock : .ok ⟨"A", text, 1, 10⟩ ∈ (ofText source).items := by
    rw [items_eq_matchedAhead]
    decide
  exact ⟨hblock, (extract_block hblock).1 (by decide)⟩

/-- What stands behind the closer decides whether `endmodule` is the name. -/
theorem extract_block_named_endmodule :
    ¬ ∀ (source : Text) (block : Block), .ok block ∈ (ofText source).items →
      Block.extract block.text = .ok [⟨block.name, block.text, 1, 0⟩] := by
  intro hclaim
  have hblock : .ok ⟨"endmodule", Text.ofString "module endmodule", 1, 0⟩ ∈
      (ofText (Text.ofString "module endmodule;")).items := by
    rw [items_eq_matchedAhead]
    decide
  have hself := hclaim _ _ hblock
  have hfault : Block.extract (Text.ofString "module endmodule") = .error (.unnamedModule 1) := by
    rw [Block.extract, items_eq_matchedAhead]
    rfl
  rw [hfault] at hself
  cases hself

end Scanner

end NetlistSplit
