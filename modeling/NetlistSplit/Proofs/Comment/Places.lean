import NetlistSplit.Proofs.Comment.Stripping

/-!
# Where kept bytes stand in the netlist

Each byte that is kept of a netlist stands somewhere in it.  `keptPlaces` gives the kept
bytes in order, each with its offset in the netlist.  Of a line comment that is closed,
its newline is kept where it stands.

A kept byte is on the line of the kept text that it has in the netlist, less the lines
that block comments in front of it take up (`lineAt_keptPlaces`).

## Strategy

A newline goes missing only with a block comment: literals and code are kept, a line
comment leaves its newline, and the blanks that it takes back hold none.  So what a token
adds to the kept bytes lies on the lines of that token (`Token.adds_placed`), and the kept
bytes of any number of tokens lie on the lines of all of them, but for those of the block
comments (`Placed.append`).
-/

namespace NetlistSplit.Comment

/-- A byte with its offset in the netlist. -/
abbrev PlacedByte :=
  UInt8 × Nat

namespace Token

/-- Of the bytes kept so far, those that a further token leaves. -/
def leaves (kept : List PlacedByte) : Token → List PlacedByte
  | lineComment _ _ => kept.rdropWhile fun place => Byte.isBlank place.1
  | _ => kept

/-- The bytes that are kept of a token at offset `offset`. -/
def placed (offset : Nat) : Token → List PlacedByte
  | code b => [(b, offset)]
  | literal text _ => text.zipIdx offset
  | lineComment text closed => if closed then [(Byte.newline, offset + (text.length - 1))] else []
  | blockComment _ _ => []

/-- The lines that a token takes up if it is a block comment. -/
def blockLines : Token → Nat
  | blockComment text _ => text.count Byte.newline
  | _ => 0

end Token

/-- The bytes that tokens from offset `offset` on keep, behind those kept before. -/
def keptPlacesFrom (offset : Nat) (kept : List PlacedByte) : List Token → List PlacedByte
  | [] => kept
  | token :: later =>
    keptPlacesFrom (offset + token.text.length) (token.leaves kept ++ token.placed offset) later

/-- The bytes that are kept of a netlist, each with its offset there. -/
def keptPlaces (source : Text) : List PlacedByte :=
  keptPlacesFrom 0 [] (tokens source)

/-- The lines of all block comments among the tokens that end at `offset` or in front of
it. -/
def blockLinesBefore : List Token → (offset : Nat) → Nat
  | [], _ => 0
  | token :: later, offset =>
    if offset < token.text.length then 0
    else token.blockLines + blockLinesBefore later (offset - token.text.length)

/-! ## The lines of block comments -/

theorem blockLinesBefore_append_of_lt {first second : List Token} {offset : Nat}
    (hlt : offset < (first.flatMap Token.text).length) :
    blockLinesBefore (first ++ second) offset = blockLinesBefore first offset := by
  induction first generalizing offset with
  | nil => cases hlt
  | cons token later ih =>
      rw [List.flatMap_cons, List.length_append] at hlt
      rw [List.cons_append, blockLinesBefore, blockLinesBefore]
      split
      · rfl
      · rw [ih (by omega)]

theorem blockLinesBefore_append (first second : List Token) (offset : Nat) :
    blockLinesBefore (first ++ second) ((first.flatMap Token.text).length + offset) =
      blockLinesBefore first (first.flatMap Token.text).length +
        blockLinesBefore second offset := by
  induction first with
  | nil => simp [blockLinesBefore]
  | cons token later ih =>
      have hbehind : ∀ more : Nat, ¬ token.text.length + more < token.text.length :=
        fun more => by omega
      rw [List.cons_append, List.flatMap_cons, List.length_append, Nat.add_assoc,
        blockLinesBefore, blockLinesBefore, if_neg (hbehind _), if_neg (hbehind _),
        Nat.add_sub_cancel_left, Nat.add_sub_cancel_left, ih, Nat.add_assoc]

/-- Where no block comment takes up a line, none is missing. -/
theorem blockLinesBefore_eq_zero {list : List Token} (hlist : ∀ token ∈ list, token.blockLines = 0)
    (offset : Nat) : blockLinesBefore list offset = 0 := by
  induction list generalizing offset with
  | nil => rfl
  | cons token later ih =>
      rw [blockLinesBefore, hlist token List.mem_cons_self,
        ih (fun other hother => hlist other (List.mem_cons_of_mem _ hother)), Nat.add_zero,
        ite_self]

/-! ## What a token adds -/

/-- Whether bytes are bytes of a token at offset `offset`, on the lines that they have
there, and all of its lines but those of a block comment are still there. -/
structure Token.Adds (token : Token) (offset : Nat) (added : List PlacedByte) : Prop where
  inside : ∀ b p, (b, p) ∈ added → offset ≤ p ∧ token.text[p - offset]? = some b
  ordered : added.Pairwise fun place later => place.2 < later.2
  line_eq : ∀ j b p, added[j]? = some (b, p) →
    ((added.take j).map Prod.fst).count Byte.newline =
      (token.text.take (p - offset)).count Byte.newline
  lines_eq : (added.map Prod.fst).count Byte.newline + token.blockLines =
    token.text.count Byte.newline

namespace Token

variable {token : Token} {rest : Text}

/-- All bytes of a text, each at its place, lie on the lines of the text. -/
theorem adds_zipIdx (offset : Nat) (hblock : token.blockLines = 0) :
    token.Adds offset (token.text.zipIdx offset) where
  inside := by
    intro b p hmem
    obtain ⟨hle, -, hget⟩ := List.mem_zipIdx hmem
    exact ⟨hle, by rw [hget]; exact List.getElem?_eq_getElem _⟩
  ordered := by
    rw [List.pairwise_iff_getElem]
    intro i j hi hj hlt
    simp only [List.getElem_zipIdx]
    omega
  line_eq := by
    intro j b p hj
    rw [List.getElem?_zipIdx] at hj
    obtain ⟨c, -, hplace⟩ := Option.map_eq_some_iff.mp hj
    obtain ⟨-, rfl⟩ := Prod.mk.inj hplace
    rw [List.map_take, List.zipIdx_map_fst, Nat.add_sub_cancel_left]
  lines_eq := by rw [List.zipIdx_map_fst, hblock, Nat.add_zero]

theorem adds_nil (offset : Nat) (hlines : token.text.count Byte.newline = token.blockLines) :
    token.Adds offset [] where
  inside := by
    intro b p hmem
    cases hmem
  ordered := .nil
  line_eq := by
    intro j b p hj
    cases hj
  lines_eq := by rw [hlines, List.map_nil, List.count_nil, Nat.zero_add]

/-- Of a text that ends in its only newline, the newline may be kept alone. -/
theorem adds_newline {front : Text} (offset : Nat) (hfront : Byte.newline ∉ front)
    (htext : token.text = front ++ [Byte.newline]) (hblock : token.blockLines = 0) :
    token.Adds offset [(Byte.newline, offset + front.length)] where
  inside := by
    intro b p hmem
    obtain ⟨rfl, rfl⟩ := Prod.mk.inj (List.mem_singleton.mp hmem)
    refine ⟨Nat.le_add_right _ _, ?_⟩
    rw [htext, Nat.add_sub_cancel_left, List.getElem?_concat_length]
  ordered := List.pairwise_singleton _ _
  line_eq := by
    intro j b p hj
    cases j with
    | succ j => cases hj
    | zero =>
        obtain ⟨rfl, rfl⟩ := Prod.mk.inj (Option.some.inj hj)
        rw [htext, Nat.add_sub_cancel_left, List.take_left, List.count_eq_zero_of_not_mem hfront]
        rfl
  lines_eq := by
    rw [htext, List.count_append, List.count_eq_zero_of_not_mem hfront, hblock, Nat.zero_add]
    rfl

theorem adds_placed (hleads : token.Leads rest) (offset : Nat) :
    token.Adds offset (token.placed offset) := by
  cases hleads with
  | @code b rest hquote hopener =>
      have hadds : (Token.code b).Adds offset ([b].zipIdx offset) := adds_zipIdx offset rfl
      exact hadds
  | literal hbody => exact adds_zipIdx offset rfl
  | @blockComment body rest closed hbody => exact adds_nil offset rfl
  | @lineComment body rest closed hbody =>
      obtain ⟨inner, hinner, heq⟩ := exists_lineBody_eq (body ++ rest)
      rw [hbody] at heq
      have hfront : Byte.newline ∉ Byte.slash :: Byte.slash :: inner := by
        simp only [List.mem_cons, not_or]
        exact ⟨by decide, by decide, hinner⟩
      cases closed with
      | true =>
          obtain rfl : body = inner ++ [Byte.newline] := heq
          have hlength : (Byte.slash :: Byte.slash :: (inner ++ [Byte.newline])).length - 1 =
              (Byte.slash :: Byte.slash :: inner).length := by simp
          rw [placed, if_pos rfl, hlength]
          exact adds_newline offset hfront rfl rfl
      | false =>
          obtain rfl : body = inner := heq.trans (List.append_nil inner)
          exact adds_nil offset (List.count_eq_zero_of_not_mem hfront)

/-- Blanks that are taken back are the last bytes kept, and no newlines. -/
theorem leaves_isPrefix (kept : List PlacedByte) (token : Token) :
    ∃ dropped, kept = token.leaves kept ++ dropped ∧
      (dropped.map Prod.fst).count Byte.newline = 0 := by
  cases token with
  | lineComment text closed =>
      refine ⟨kept.rtakeWhile fun place => Byte.isBlank place.1,
        List.rdropWhile_append_rtakeWhile.symm, List.count_eq_zero_of_not_mem ?_⟩
      intro hmem
      obtain ⟨place, hplace, hnewline⟩ := List.mem_map.mp hmem
      have hblank := List.mem_rtakeWhile_imp hplace
      rw [hnewline] at hblank
      cases hblank
  | _ => exact ⟨[], (List.append_nil kept).symm, rfl⟩

/-- The kept bytes make up the kept text. -/
theorem map_fst_leaves_append_placed (kept : List PlacedByte) (offset : Nat) (token : Token) :
    (token.leaves kept ++ token.placed offset).map Prod.fst = token.addTo (kept.map Prod.fst) := by
  cases token with
  | code b => simp [leaves, placed, addTo]
  | literal text closed => simp [leaves, placed, addTo]
  | blockComment text closed => simp [leaves, placed, addTo]
  | lineComment text closed =>
      have hblanks : (kept.rdropWhile fun place => Byte.isBlank place.1).map Prod.fst =
          (kept.map Prod.fst).rdropWhile Byte.isBlank := by
        rw [List.rdropWhile, List.rdropWhile, ← List.map_reverse, List.dropWhile_map,
          List.map_reverse]
        rfl
      rw [leaves, placed, addTo, List.map_append, hblanks]
      cases closed <;> rfl

end Token

/-! ## What all tokens keep -/

/-- Whether bytes are what tokens keep, on the lines that they have there but for those of
block comments. -/
structure Placed (done : List Token) (kept : List PlacedByte) : Prop where
  text_eq : kept.map Prod.fst = keptText done
  inside : ∀ b p, (b, p) ∈ kept → (done.flatMap Token.text)[p]? = some b
  ordered : kept.Pairwise fun place later => place.2 < later.2
  line_eq : ∀ q b p, kept[q]? = some (b, p) →
    ((kept.take q).map Prod.fst).count Byte.newline + blockLinesBefore done p =
      ((done.flatMap Token.text).take p).count Byte.newline
  lines_eq : (kept.map Prod.fst).count Byte.newline +
      blockLinesBefore done (done.flatMap Token.text).length =
    (done.flatMap Token.text).count Byte.newline

theorem placed_nil : Placed [] [] := by
  refine ⟨rfl, ?_, .nil, ?_, rfl⟩
  · intro b p hmem
    cases hmem
  · intro q b p hq
    cases hq

namespace Placed

variable {done : List Token} {kept : List PlacedByte}

theorem lt_length (hplaced : Placed done kept) {b : UInt8} {p : Nat} (hmem : (b, p) ∈ kept) :
    p < (done.flatMap Token.text).length :=
  (List.getElem?_eq_some_iff.mp (hplaced.inside b p hmem)).1

/-- One more token. -/
theorem append (hplaced : Placed done kept) {token : Token} {rest : Text}
    (hleads : token.Leads rest) :
    Placed (done ++ [token])
      (token.leaves kept ++ token.placed (done.flatMap Token.text).length) := by
  obtain ⟨dropped, hkept, hdropped⟩ := token.leaves_isPrefix kept
  generalize hleft : token.leaves kept = left at hkept
  have hadds := Token.adds_placed hleads (done.flatMap Token.text).length
  have hmap := Token.map_fst_leaves_append_placed kept (done.flatMap Token.text).length token
  rw [hleft] at hmap
  generalize token.placed (done.flatMap Token.text).length = added at hadds hmap
  have htext := flatMap_text_concat done token
  have hleftmem : ∀ b p, (b, p) ∈ left → p < (done.flatMap Token.text).length := by
    intro b p hmem
    exact hplaced.lt_length (hkept ▸ List.mem_append_left dropped hmem)
  have hcount : (left.map Prod.fst).count Byte.newline =
      (kept.map Prod.fst).count Byte.newline := by
    rw [hkept, List.map_append, List.count_append, hdropped, Nat.add_zero]
  have hlines := hplaced.lines_eq
  constructor
  case text_eq => rw [hmap, hplaced.text_eq, keptText_concat]
  case inside =>
    intro b p hmem
    rw [htext]
    rcases List.mem_append.mp hmem with hold | hnew
    · rw [List.getElem?_append_left (hleftmem b p hold)]
      exact hplaced.inside b p (hkept ▸ List.mem_append_left dropped hold)
    · obtain ⟨hle, hbyte⟩ := hadds.inside b p hnew
      rw [List.getElem?_append_right hle, hbyte]
  case ordered =>
    refine List.pairwise_append.mpr ⟨?_, hadds.ordered, ?_⟩
    · exact (List.pairwise_append.mp (hkept ▸ hplaced.ordered)).1
    · intro place hold later hnew
      exact Nat.lt_of_lt_of_le (hleftmem _ _ hold) (hadds.inside _ _ hnew).1
  case line_eq =>
    intro q b p hq
    rw [htext]
    rcases Nat.lt_or_ge q left.length with hlt | hge
    · rw [List.getElem?_append_left hlt] at hq
      have hp := hleftmem b p (List.mem_of_getElem? hq)
      have hold : kept[q]? = some (b, p) := by rw [hkept, List.getElem?_append_left hlt, hq]
      have hline := hplaced.line_eq q b p hold
      rw [hkept, List.take_append_of_le_length hlt.le] at hline
      rw [List.take_append_of_le_length hlt.le, List.take_append_of_le_length hp.le,
        blockLinesBefore_append_of_lt hp, hline]
    · rw [List.getElem?_append_right hge] at hq
      obtain ⟨hle, hbyte⟩ := hadds.inside b p (List.mem_of_getElem? hq)
      obtain ⟨n, rfl⟩ := Nat.exists_eq_add_of_le hle
      obtain ⟨j, rfl⟩ := Nat.exists_eq_add_of_le hge
      rw [Nat.add_sub_cancel_left] at hq hbyte
      have hline := hadds.line_eq j b _ hq
      rw [Nat.add_sub_cancel_left] at hline
      -- The byte stands inside the token, so the token is no block comment in front of it.
      have hinside : blockLinesBefore [token] n = 0 := by
        rw [blockLinesBefore, if_pos (List.getElem?_eq_some_iff.mp hbyte).1]
      rw [List.take_length_add_append, List.take_length_add_append, List.map_append,
        List.count_append, List.count_append, blockLinesBefore_append, hinside, hcount, hline]
      omega
  case lines_eq =>
    have htoken : blockLinesBefore [token] token.text.length = token.blockLines := by
      rw [blockLinesBefore, if_neg (Nat.lt_irrefl _)]
      rfl
    have hadded := hadds.lines_eq
    rw [htext, List.length_append, blockLinesBefore_append, htoken, List.map_append,
      List.count_append, List.count_append, hcount]
    omega

/-- All further tokens. -/
theorem tokens (hplaced : Placed done kept) (text : Text) :
    Placed (done ++ Comment.tokens text)
      (keptPlacesFrom (done.flatMap Token.text).length kept (Comment.tokens text)) := by
  induction text using reading_induction generalizing done kept with
  | nil =>
      rw [tokens_nil, List.append_nil]
      exact hplaced
  | token token rest hleads ih =>
      have hmore := ih (hplaced.append hleads)
      rw [List.append_assoc, flatMap_text_concat, List.length_append] at hmore
      rw [tokens_append hleads]
      exact hmore

end Placed

/-- The kept bytes of a netlist lie where they do in the netlist. -/
theorem placed_keptPlaces (source : Text) : Placed (tokens source) (keptPlaces source) :=
  placed_nil.tokens source

section

variable {source text : Text} (hstrip : strip source = .ok text)
include hstrip

theorem map_fst_keptPlaces : (keptPlaces source).map Prod.fst = text := by
  rw [strip_eq_keptText] at hstrip
  split at hstrip
  · cases hstrip
  · rw [(placed_keptPlaces source).text_eq]
    exact Except.ok.inj hstrip

/-- A kept byte is on the line that it has in the netlist, less the lines of the block
comments in front of it. -/
theorem lineAt_keptPlaces {q p : Nat} {b : UInt8} (hq : (keptPlaces source)[q]? = some (b, p)) :
    Text.lineAt text q + blockLinesBefore (tokens source) p = Text.lineAt source p := by
  have hline := (placed_keptPlaces source).line_eq q b p hq
  rw [List.map_take, map_fst_keptPlaces hstrip, flatMap_text_tokens] at hline
  rw [Text.lineAt, Text.lineAt, ← hline, Nat.add_right_comm]

end

end NetlistSplit.Comment
