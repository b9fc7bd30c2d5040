import NetlistSplit.Proofs.Comment.Places
import NetlistSplit.Proofs.Keyword.WholeWord
import NetlistSplit.Proofs.Plan

/-!
# Lines of the netlist as it was

Modules are looked for in the netlist without its comments, and their lines are lines of
that text.  They are lines of the netlist itself as long as no block comment goes on over
a newline: then all bytes that are kept lie where they did, and so do the keywords that
open the modules (`lines_of_strip`).

The items of a scan belong one by one to the stretches of the text, so the keyword that an
item is about is the opener of its stretch, also where the item is a fault
(`Scanner.exists_stretch_of_itemsOf`).  A name that comes twice is a fault of the plan, at
the line of the block that has it (`Plan.exists_item_of_failure`).
-/

namespace NetlistSplit

/-- The line on which a fault is reported. -/
def SourceError.line : SourceError → Nat
  | unterminatedComment line => line
  | unnamedModule line => line
  | unterminatedModule _ line => line
  | duplicateModule _ line => line

/-- A text stays on its line up to the next newline. -/
theorem Text.lineAt_eq {text : Text} {start offset : Nat} (hle : start ≤ offset)
    (hline : ∀ place, start ≤ place → place < offset → text[place]? ≠ some Byte.newline) :
    text.lineAt offset = text.lineAt start := by
  induction offset, hle using Nat.le_induction with
  | base => rfl
  | succ offset hle ih =>
      have hlast : text[offset]?.toList.count Byte.newline = 0 := by
        apply List.count_eq_zero_of_not_mem
        exact mt Option.mem_toList.mp (hline offset hle (Nat.lt_add_one offset))
      rw [← ih fun place hfrom hto => hline place hfrom (by omega), lineAt, lineAt,
        List.take_add_one, List.count_append, hlast, Nat.add_zero]

namespace Keyword

/-- A keyword stays on one line. -/
theorem Occurs.lineAt_eq {text : Text} {k : Keyword} (hk : k.Occurs text) {offset : Nat}
    (hle : k.start ≤ offset) (hlt : offset < k.stop) :
    text.lineAt offset = text.lineAt k.start := by
  apply Text.lineAt_eq hle
  intro place hfrom hto hnewline
  obtain ⟨b, hb, hidentifier⟩ := hk.exists_letter hfrom (by omega)
  obtain rfl := Option.some.inj (hb.symm.trans hnewline)
  cases hidentifier

end Keyword

namespace Scanner

/-- The line that an item gives. -/
def itemLine : Except SourceError Block → Nat
  | .ok block => block.line
  | .error fault => fault.line

/-- An item is about the stretch that has the same place in the order, and gives the line
on which that one begins. -/
theorem exists_stretch_of_itemsOf {source : Text} {stretches : List Stretch} {i : Nat}
    {item : Except SourceError Block} (hitem : (itemsOf source stretches)[i]? = some item) :
    ∃ stretch, stretches[i]? = some stretch ∧
      itemLine item = Text.lineAt source stretch.start := by
  fun_induction itemsOf source stretches generalizing i with
  | case1 => cases hitem
  | case2 start later =>
      cases i with
      | zero =>
          obtain rfl := Option.some.inj hitem
          exact ⟨.unclosed start, rfl, rfl⟩
      | succ i => cases hitem
  | case3 start stop later hname =>
      cases i with
      | zero =>
          obtain rfl := Option.some.inj hitem
          exact ⟨.closed ⟨start, stop⟩, rfl, rfl⟩
      | succ i => cases hitem
  | case4 start stop later name hname ih =>
      cases i with
      | zero =>
          obtain rfl := Option.some.inj hitem
          exact ⟨.closed ⟨start, stop⟩, rfl, rfl⟩
      | succ i => exact ih hitem

end Scanner

/-- The fault of a plan gives the line of the first item that is not planned. -/
theorem Plan.exists_item_of_failure {plan : Plan} {seen : List (List Char)}
    {items : List (Except SourceError Block)} {fault : SourceError}
    (hmeets : plan.Meets seen items) (hfailure : plan.failure = some fault) :
    ∃ item, items[plan.blocks.length]? = some item ∧ fault.line = Scanner.itemLine item := by
  have hcases := hmeets.failure_eq
  split at hcases
  · rw [hfailure] at hcases
    cases hcases
  · next first hitem =>
      obtain rfl := Option.some.inj (hfailure.symm.trans hcases)
      exact ⟨_, hitem, rfl⟩
  · next block hitem =>
      obtain rfl := Option.some.inj (hfailure.symm.trans hcases.1)
      exact ⟨_, hitem, rfl⟩

namespace Comment

/-- Whether a keyword that opens a module stands at an offset of the text, and its bytes
all come from one line of the netlist. -/
def OpensOnLine (source text : Text) (offset line : Nat) : Prop :=
  ∃ k ∈ Keyword.search text 0, (k.kind = .opener ∧ k.start = offset) ∧
    ∀ q, k.start ≤ q → q < k.stop →
      ∃ b p, (keptPlaces source)[q]? = some (b, p) ∧ Text.lineAt source p = line

/-- Without newlines in block comments, an item gives the line on which the opener of its
stretch stands in the netlist. -/
theorem exists_opensOnLine_of_items {source text : Text} (hstrip : strip source = .ok text)
    (hblocks : ∀ body closed, .blockComment body closed ∈ tokens source → Byte.newline ∉ body)
    {i : Nat} {item : Except SourceError Block}
    (hitem : (Scanner.ofText text).items[i]? = some item) :
    ∃ stretch, (Keyword.stretches 0 0 (Keyword.search text 0))[i]? = some stretch ∧
      OpensOnLine source text stretch.start (Scanner.itemLine item) := by
  rw [Scanner.items_eq_matchedAhead] at hitem
  change (Scanner.matchedItems text)[i]? = some item at hitem
  obtain ⟨stretch, hstretch, hline⟩ := Scanner.exists_stretch_of_itemsOf hitem
  refine ⟨stretch, hstretch, ?_⟩
  rcases Keyword.exists_opener_of_mem_stretches (List.mem_of_getElem? hstretch) with
    ⟨hzero, -⟩ | ⟨k, hk, hkind, hstart⟩
  · exact absurd rfl hzero
  refine ⟨k, hk, ⟨hkind, hstart⟩, ?_⟩
  intro q hle hlt
  have hbounds := Keyword.bounds_of_mem_search hk
  have hlength : q < (keptPlaces source).length := by
    rw [← List.length_map (f := Prod.fst), map_fst_keptPlaces hstrip]
    omega
  obtain ⟨⟨b, p⟩, hplace⟩ : ∃ place, (keptPlaces source)[q]? = some place :=
    ⟨_, List.getElem?_eq_getElem hlength⟩
  have hmissing : blockLinesBefore (tokens source) p = 0 := by
    refine blockLinesBefore_eq_zero (fun token htoken => ?_) p
    cases token with
    | blockComment body closed =>
        exact List.count_eq_zero_of_not_mem (hblocks body closed htoken)
    | _ => rfl
  refine ⟨b, p, hplace, ?_⟩
  calc Text.lineAt source p
      = Text.lineAt text q + blockLinesBefore (tokens source) p :=
        (lineAt_keptPlaces hstrip hplace).symm
    _ = Text.lineAt text q := by rw [hmissing, Nat.add_zero]
    _ = Text.lineAt text k.start := (Keyword.mem_search_iff.mp hk).2.1.lineAt_eq hle hlt
    _ = Scanner.itemLine item := by rw [hline, hstart]

/-! ## Lines of the text and lines of the netlist -/

theorem lines_of_strip {source text : Text} (hstrip : strip source = .ok text) :
    ((keptPlaces source).map Prod.fst = text ∧
      (∀ b p, (b, p) ∈ keptPlaces source → source[p]? = some b) ∧
      (keptPlaces source).Pairwise fun place later => place.2 < later.2) ∧
    (∀ q b p, (keptPlaces source)[q]? = some (b, p) →
      Text.lineAt text q + blockLinesBefore (tokens source) p = Text.lineAt source p) ∧
    ((∀ body closed, .blockComment body closed ∈ tokens source → Byte.newline ∉ body) →
      (∀ (i : Nat) (item : Except SourceError Block), (Scanner.ofText text).items[i]? = some item →
        ∃ stretch, (Keyword.stretches 0 0 (Keyword.search text 0))[i]? = some stretch ∧
          OpensOnLine source text stretch.start (Scanner.itemLine item)) ∧
      ∀ plan fault, Plan.ofNetlist source = .ok plan → plan.failure = some fault →
        ∃ item, (Scanner.ofText text).items[plan.blocks.length]? = some item ∧
          fault.line = Scanner.itemLine item) := by
  have hplaced := placed_keptPlaces source
  refine ⟨⟨map_fst_keptPlaces hstrip, ?_, hplaced.ordered⟩, ?_, ?_⟩
  · intro b p hmem
    rw [← flatMap_text_tokens source]
    exact hplaced.inside b p hmem
  · intro q b p hq
    exact lineAt_keptPlaces hstrip hq
  · intro hblocks
    refine ⟨fun i item hitem => exists_opensOnLine_of_items hstrip hblocks hitem, ?_⟩
    intro plan fault hplan hfailure
    obtain rfl := Except.ok.inj ((Plan.ofNetlist_of_strip hstrip).symm.trans hplan)
    exact Plan.exists_item_of_failure (Plan.meets_ofItems [] _) hfailure

/-- A name that comes twice is reported on the line of its second module.  A line comment
with a quote and a block comment inside a keyword stand in front of it. -/
theorem lines_of_strip_repeatedName :
    strip (Text.ofString "/*\"*/module a; // \"\nend/**/module\nmodule a;endmodule") =
        .ok (Text.ofString "module a;\nendmodule\nmodule a;endmodule") ∧
      OpensOnLine (Text.ofString "/*\"*/module a; // \"\nend/**/module\nmodule a;endmodule")
        (Text.ofString "module a;\nendmodule\nmodule a;endmodule") 20 3 ∧
      Plan.ofNetlist (Text.ofString "/*\"*/module a; // \"\nend/**/module\nmodule a;endmodule") =
        .ok ⟨[⟨"a", Text.ofString "module a;\nendmodule", 1, 0⟩],
          some (.duplicateModule "a" 3)⟩ := by
  have hstrip : strip (Text.ofString "/*\"*/module a; // \"\nend/**/module\nmodule a;endmodule") =
      .ok (Text.ofString "module a;\nendmodule\nmodule a;endmodule") := rfl
  have hblocks : ∀ token ∈
      tokens (Text.ofString "/*\"*/module a; // \"\nend/**/module\nmodule a;endmodule"),
      token.blockLines = 0 := by decide
  have hitems : (Scanner.ofText (Text.ofString "module a;\nendmodule\nmodule a;endmodule")).items =
      [.ok ⟨"a", Text.ofString "module a;\nendmodule", 1, 0⟩,
        .ok ⟨"a", Text.ofString "module a;endmodule", 3, 20⟩] := by
    rw [Scanner.items_eq_matchedAhead]
    decide
  refine ⟨hstrip, ?_, ?_⟩
  · obtain ⟨hopens, -⟩ := (lines_of_strip hstrip).2.2 fun body closed hmem =>
      List.count_eq_zero.mp (hblocks _ hmem)
    obtain ⟨stretch, hstretch, hopens⟩ :=
      hopens 1 (.ok ⟨"a", Text.ofString "module a;endmodule", 3, 20⟩) (by rw [hitems]; rfl)
    obtain rfl : Stretch.closed ⟨20, 38⟩ = stretch := Option.some.inj hstretch
    exact hopens
  · rw [Plan.ofNetlist_of_strip hstrip, hitems]
    decide

end Comment

end NetlistSplit
