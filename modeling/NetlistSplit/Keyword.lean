import NetlistSplit.Literal

/-!
# Module keywords

A module begins with `module` or `macromodule` and ends with `endmodule`.  This
file finds these words in a text, from any offset on.

A keyword has to be a whole word: a byte that identifiers are made of must not
touch it on either side.  The dollar sign is such a byte, so `n$module` is one
identifier.  When a word is only part of an identifier its letters are still
used up, so `endmodulemodule` holds no keyword at all.  Words inside a closed
string literal do not count.
-/

namespace NetlistSplit

/-- What a keyword does to the nesting of modules. -/
inductive Keyword.Kind where
  | opener
  | closer
  deriving DecidableEq, Repr

/-- A keyword of the text, from offset `start` up to, but not including, `stop`. -/
structure Keyword where
  kind : Keyword.Kind
  start : Nat
  stop : Nat
  deriving DecidableEq, Repr

namespace Keyword

/-- The keywords as they are written. -/
def words : List (Text × Kind) :=
  [(Text.ofString "endmodule", .closer),
    (Text.ofString "macromodule", .opener),
    (Text.ofString "module", .opener)]

/-- The keyword whose letters stand in front of the text, and how many they are.
No keyword is the beginning of another, so there is at most one. -/
def spelled? (text : Text) : Option (Kind × Nat) :=
  (words.find? fun word => word.1.isPrefixOf text).map fun word => (word.2, word.1.length)

/-- Whether the neighbour of a word makes it part of a longer identifier. -/
def joins : Option UInt8 → Bool
  | some b => Byte.isIdentifier b
  | none => false

/-- What stands in front of the text `b :: rest`, which starts at offset `offset`:
the keyword that it is, if it is one, and how many bytes after `b` are used up by
the literal or the word that begins there.  `before` is the byte in front. -/
def leading (before : Option UInt8) (offset : Nat) (b : UInt8) (rest : Text) :
    Option Keyword × Nat :=
  if b = Byte.quote then
    (none, (Literal.closedLength? rest).getD 0)
  else
    match spelled? (b :: rest) with
    | none => (none, 0)
    | some (kind, length) =>
      if joins before || joins (rest.drop (length - 1)).head? then (none, length - 1)
      else (some ⟨kind, offset, offset + length⟩, length - 1)

/-! ## The list of keywords -/

/-- The keywords of a text that starts at offset `offset` of the whole netlist.
`before` is the byte in front of it, and its first `pending` bytes are used up by
the literal or the word that was read last. -/
def searchFrom : (before : Option UInt8) → (offset pending : Nat) → Text → List Keyword
  | _, _, _, [] => []
  | _, offset, pending + 1, b :: rest => searchFrom (some b) (offset + 1) pending rest
  | before, offset, 0, b :: rest =>
    match leading before offset b rest with
    | (some k, pending) => k :: searchFrom (some b) (offset + 1) pending rest
    | (none, pending) => searchFrom (some b) (offset + 1) pending rest

/-- The byte in front of an offset. -/
def byteBefore (source : Text) (offset : Nat) : Option UInt8 :=
  if offset = 0 then none else source[offset - 1]?

/-- The keywords of `source` that begin at offset `cursor` or later, in order.
Literals are told apart from the cursor on, as if the text began there, but the
byte in front of the cursor still counts as a neighbour. -/
def search (source : Text) (cursor : Nat) : List Keyword :=
  searchFrom (byteBefore source cursor) cursor 0 (source.drop cursor)

/-! ## Reading keywords one by one

Who needs only the first few keywords reads them one by one, and the rest of the
text is not searched. -/

variable {σ ρ : Type}

/-- Reads the keywords of a text that starts at offset `offset`, as `searchFrom`
finds them, until `read` ends the reading with a result. -/
def readFrom (read : σ → Keyword → Except ρ σ) :
    (state : σ) → (before : Option UInt8) → (offset pending : Nat) → Text → Except ρ σ
  | state, _, _, _, [] => .ok state
  | state, _, offset, pending + 1, b :: rest =>
    readFrom read state (some b) (offset + 1) pending rest
  | state, before, offset, 0, b :: rest =>
    match leading before offset b rest with
    | (none, pending) => readFrom read state (some b) (offset + 1) pending rest
    | (some k, pending) =>
      match read state k with
      | .error result => .error result
      | .ok state => readFrom read state (some b) (offset + 1) pending rest

/-- Reads the keywords of `source` from offset `cursor` on, until `read` ends the
reading with a result. -/
def read (read : σ → Keyword → Except ρ σ) (state : σ) (source : Text) (cursor : Nat) :
    Except ρ σ :=
  readFrom read state (byteBefore source cursor) cursor 0 (source.drop cursor)

/-- Reading one by one is reading the list. -/
theorem readFrom_eq_foldlM (read : σ → Keyword → Except ρ σ) (text : Text) :
    ∀ (state : σ) (before : Option UInt8) (offset pending : Nat),
      readFrom read state before offset pending text =
        (searchFrom before offset pending text).foldlM read state := by
  induction text with
  | nil => intro state before offset pending; rfl
  | cons b rest ih =>
      intro state before offset pending
      cases pending with
      | succ pending => exact ih state (some b) (offset + 1) pending
      | zero =>
          unfold readFrom searchFrom
          rcases leading before offset b rest with ⟨found, pending⟩
          cases found with
          | none => exact ih state (some b) (offset + 1) pending
          | some k =>
              simp only [List.foldlM_cons]
              cases hread : read state k with
              | error result => rfl
              | ok state => exact ih state (some b) (offset + 1) pending

theorem read_eq_foldlM (read : σ → Keyword → Except ρ σ) (state : σ) (source : Text)
    (cursor : Nat) :
    Keyword.read read state source cursor = (search source cursor).foldlM read state :=
  readFrom_eq_foldlM read _ state _ cursor 0

/-! ## Keywords lie inside the text -/

theorem spelled?_length {text : Text} {kind : Kind} {length : Nat}
    (hspelled : spelled? text = some (kind, length)) : 0 < length ∧ length ≤ text.length := by
  unfold spelled? at hspelled
  obtain ⟨word, hword, heq⟩ := Option.map_eq_some_iff.mp hspelled
  obtain ⟨-, rfl⟩ := Prod.mk.inj heq
  have hnonempty : ∀ entry ∈ words, 0 < entry.1.length := by decide
  have hspells : word.1.isPrefixOf text = true := by
    simpa using List.find?_some hword
  exact ⟨hnonempty word (List.mem_of_find?_eq_some hword),
    (List.isPrefixOf_iff_prefix.mp hspells).length_le⟩

theorem bounds_of_leading {before : Option UInt8} {offset pending : Nat} {b : UInt8}
    {rest : Text} {k : Keyword} (hleading : leading before offset b rest = (some k, pending)) :
    k.start = offset ∧ offset < k.stop ∧ k.stop ≤ offset + (b :: rest).length := by
  unfold leading at hleading
  split at hleading
  · simp at hleading
  · split at hleading
    · simp at hleading
    · next kind length hspelled =>
        split at hleading
        · simp at hleading
        · have hlength := spelled?_length hspelled
          obtain ⟨hk, -⟩ := Prod.mk.inj hleading
          obtain rfl := Option.some.inj hk
          refine ⟨rfl, ?_, ?_⟩ <;> simp only <;> omega

/-- A keyword that is found is not empty and lies between the offset of the text
and its end. -/
theorem bounds_of_mem_searchFrom {text : Text} {k : Keyword} :
    ∀ {before : Option UInt8} {offset pending : Nat},
      k ∈ searchFrom before offset pending text →
        offset ≤ k.start ∧ k.start < k.stop ∧ k.stop ≤ offset + text.length := by
  induction text with
  | nil => intro before offset pending hmem; simp [searchFrom] at hmem
  | cons b rest ih =>
      intro before offset pending hmem
      have later : ∀ {pending : Nat}, k ∈ searchFrom (some b) (offset + 1) pending rest →
          offset ≤ k.start ∧ k.start < k.stop ∧ k.stop ≤ offset + (b :: rest).length := by
        intro pending hlater
        have hbounds := ih hlater
        simp only [List.length_cons]
        omega
      cases pending with
      | succ pending => exact later hmem
      | zero =>
          unfold searchFrom at hmem
          split at hmem
          · next first pending hleading =>
              rcases List.mem_cons.mp hmem with rfl | hmem
              · have hbounds := bounds_of_leading hleading
                omega
              · exact later hmem
          · exact later hmem

/-- A keyword found from a cursor on starts at the cursor or after it, and ends
inside the text. -/
theorem bounds_of_mem_search {source : Text} {cursor : Nat} {k : Keyword}
    (hmem : k ∈ search source cursor) :
    cursor ≤ k.start ∧ k.start < k.stop ∧ k.stop ≤ source.length := by
  have hbounds := bounds_of_mem_searchFrom hmem
  rw [List.length_drop] at hbounds
  omega

end Keyword

end NetlistSplit
