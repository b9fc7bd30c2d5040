import NetlistSplit.Plan
import NetlistSplit.Proofs.Header.Declaration
import NetlistSplit.Proofs.Scanner.Stretch

/-!
# What is planned for a scan

The blocks of a plan are the first items of the scan, as many as there are
before an error or a repeated name (`meets_ofItems`).  Whatever the scan yields,
the names of the blocks are identifiers (`Scanner.isIdentifier_of_mem_items`), and so
names of files: no slash stands in them.
-/

namespace NetlistSplit

/-! ## Names are identifiers -/

/-- Whether a character may stand in the name of a module. -/
def isNameChar (c : Char) : Bool :=
  c.isAlphanum || c == '_' || c == '$'

/-- Whether a name is an identifier. -/
structure IsIdentifier (name : String) : Prop where
  ne_empty : name ≠ ""
  chars : ∀ c ∈ name.toList, isNameChar c = true
  first : ∀ c, name.toList.head? = some c → c.isDigit = false ∧ c ≠ '$'

/-- An identifier is the name of a file, and leads nowhere else. -/
theorem IsIdentifier.slash_notMem {name : String} (hname : IsIdentifier name) :
    '/' ∉ name.toList := by
  intro hslash
  have hchar := hname.chars '/' hslash
  revert hchar
  decide

/-- Of the bytes that may stand in an identifier, those that may begin one are no
digits and no dollar signs. -/
theorem Byte.char_of_isIdentifier (b : UInt8) :
    (Byte.isIdentifier b = true → isNameChar (Char.ofUInt8 b) = true) ∧
      (Byte.isIdentifierStart b = true →
        (Char.ofUInt8 b).isDigit = false ∧ Char.ofUInt8 b ≠ '$') := by
  have hall : ∀ n : Fin 256,
      (Byte.isIdentifier (UInt8.ofFin n) = true →
        isNameChar (Char.ofUInt8 (UInt8.ofFin n)) = true) ∧
      (Byte.isIdentifierStart (UInt8.ofFin n) = true →
        (Char.ofUInt8 (UInt8.ofFin n)).isDigit = false ∧ Char.ofUInt8 (UInt8.ofFin n) ≠ '$') := by
    decide +kernel
  exact hall b.toFin

theorem Header.isIdentifier_of_name? {text : Text} {name : String}
    (hname : name? text = some name) : IsIdentifier name := by
  obtain ⟨d, -, rfl⟩ := name?_eq_some_iff.mp hname
  obtain ⟨b, hfirst, hstart⟩ := d.name_start
  have hchars : (Text.asciiString d.name).toList = d.name.map Char.ofUInt8 := by
    rw [Text.asciiString, String.toList_ofList]
  have hhead : (Text.asciiString d.name).toList.head? = some (Char.ofUInt8 b) := by
    rw [hchars, List.head?_map, hfirst]
    rfl
  refine ⟨?_, fun c hc => ?_, fun c hc => ?_⟩
  · intro hempty
    rw [hempty] at hhead
    cases hhead
  · rw [hchars] at hc
    obtain ⟨b, hb, rfl⟩ := List.mem_map.mp hc
    exact (Byte.char_of_isIdentifier b).1 (d.name_identifier b hb)
  · obtain rfl := Option.some.inj (hhead.symm.trans hc)
    exact (Byte.char_of_isIdentifier b).2 hstart

theorem Scanner.isIdentifier_of_mem_items {source : Text} {block : Block}
    (hblock : .ok block ∈ (ofText source).items) : IsIdentifier block.name := by
  obtain ⟨span, -, hname, -⟩ := exists_span_of_mem_items hblock
  exact Header.isIdentifier_of_name? hname

theorem Scanner.slash_notMem_of_mem_items {source : Text} {block : Block}
    (hblock : .ok block ∈ (ofText source).items) : '/' ∉ block.name.toList :=
  (isIdentifier_of_mem_items hblock).slash_notMem

namespace Plan

/-! ## The plan for a netlist -/

theorem ofNetlist_of_strip {raw code : Text} (hstrip : Comment.strip raw = .ok code) :
    ofNetlist raw = .ok (ofItems [] (Scanner.ofText code).items) := by
  rw [ofNetlist, hstrip]
  rfl

theorem ofNetlist_of_strip_error {raw : Text} {fault : SourceError}
    (hstrip : Comment.strip raw = .error fault) : ofNetlist raw = .error fault := by
  rw [ofNetlist, hstrip]
  rfl

/-! ## The blocks of a plan -/

/-- Whether a plan is what has to be done for the items of a scan, when modules
with the names `seen` are planned already. -/
structure Meets (plan : Plan) (seen : List (List Char)) (items : List (Except SourceError Block)) :
    Prop where
  items_eq : ∃ later, items = plan.blocks.map .ok ++ later
  names_new : ∀ block ∈ plan.blocks, caseless block.name ∉ seen
  names_differ : plan.blocks.Pairwise fun first second =>
    caseless first.name ≠ caseless second.name
  failure_eq : match items[plan.blocks.length]? with
    | none => plan.failure = none
    | some (.error fault) => plan.failure = some fault
    | some (.ok block) => plan.failure = some (.duplicateModule block.name block.line) ∧
        (caseless block.name ∈ seen ∨
          ∃ earlier ∈ plan.blocks, caseless earlier.name = caseless block.name)

theorem meets_ofItems (seen : List (List Char)) (items : List (Except SourceError Block)) :
    (ofItems seen items).Meets seen items := by
  fun_induction ofItems seen items with
  | case1 seen => exact ⟨⟨[], rfl⟩, by simp, .nil, rfl⟩
  | case2 seen fault later => exact ⟨⟨_, rfl⟩, by simp, .nil, rfl⟩
  | case3 seen block items hseen => exact ⟨⟨_, rfl⟩, by simp, .nil, rfl, .inl hseen⟩
  | case4 seen block items hnew later ih =>
      -- The name of the block is new, and the later ones are new beside it.
      obtain ⟨⟨behind, hitems⟩, hnames, hdiffer, hfailure⟩ := ih
      refine ⟨⟨behind, ?_⟩, ?_, ?_, ?_⟩
      · rw [hitems]
        rfl
      · intro other hother
        rcases List.mem_cons.mp hother with rfl | hother
        · exact hnew
        · exact fun hseen => hnames other hother (List.mem_cons_of_mem _ hseen)
      · refine List.pairwise_cons.mpr ⟨fun other hother hsame => ?_, hdiffer⟩
        exact hnames other hother (hsame ▸ List.mem_cons_self)
      · have hbehind : (Except.ok block :: items)[(block :: later.blocks).length]? =
            items[later.blocks.length]? := by
          rw [List.length_cons, List.getElem?_cons_succ]
        rw [hbehind]
        cases hitem : items[later.blocks.length]? with
        | none =>
            rw [hitem] at hfailure
            exact hfailure
        | some item =>
            rw [hitem] at hfailure
            cases item with
            | error fault => exact hfailure
            | ok other =>
                obtain ⟨hduplicate, hrepeated⟩ := hfailure
                refine ⟨hduplicate, ?_⟩
                rcases hrepeated with hseen | ⟨earlier, hearlier, hsame⟩
                · rcases List.mem_cons.mp hseen with hsame | hseen
                  · exact .inr ⟨block, List.mem_cons_self, hsame.symm⟩
                  · exact .inl hseen
                · exact .inr ⟨earlier, List.mem_cons_of_mem _ hearlier, hsame⟩

end Plan

end NetlistSplit
