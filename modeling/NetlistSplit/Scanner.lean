import NetlistSplit.Block
import NetlistSplit.Header
import NetlistSplit.Keyword.Pairing
import NetlistSplit.SourceError

/-!
# Scanning for module blocks

A scanner walks over a netlist without comments and yields its module blocks one
by one.  A block reaches from the keyword that opens a module to the keyword
that closes it, modules inside of it included.

The scanner owns a cursor.  A block that is yielded moves the cursor behind its
`endmodule`; nothing else moves it.  The scan is done once no module begins
after the cursor, or once an error has been yielded.  An `endmodule` that closes
nothing is passed over.
-/

namespace NetlistSplit

/-- Whether a scan goes on. -/
inductive Scanner.Phase where
  | searching
  | done
  deriving DecidableEq, Repr

/-- A scan over `source` that has come as far as offset `cursor`. -/
structure Scanner where
  source : Text
  cursor : Nat
  phase : Scanner.Phase
  deriving DecidableEq, Repr

namespace Scanner

/-- The scan over a text that has not begun yet. -/
def ofText (source : Text) : Scanner :=
  ⟨source, 0, .searching⟩

/-- The text that the scan has not consumed. -/
def remaining (s : Scanner) : Text :=
  s.source.drop s.cursor

/-- The keywords ahead of the cursor. -/
def keywords (s : Scanner) : List Keyword :=
  Keyword.search s.source s.cursor

/-- The scan after its last item. -/
def finish (s : Scanner) : Scanner :=
  { s with phase := .done }

/-- The line of the byte at an offset. -/
def lineAt (s : Scanner) (offset : Nat) : Nat :=
  Text.lineAt s.source offset

/-- The name in the header at an offset. -/
def nameAt? (s : Scanner) (offset : Nat) : Option String :=
  Header.name? (s.source.drop offset)

/-- The next item, if there is one, and the scan after it.  A module that is not
closed is reported as such even if it has no name either. -/
def next (s : Scanner) : Option (Except SourceError Block) × Scanner :=
  match s.phase with
  | .done => (none, s)
  | .searching =>
    match Keyword.read Nesting.read .outside s.source s.cursor with
    | .ok .outside => (none, s.finish)
    | .ok (.inside start _) =>
      (some (.error (.unterminatedModule (s.nameAt? start) (s.lineAt start))), s.finish)
    | .error ⟨start, stop⟩ =>
      match s.nameAt? start with
      | none => (some (.error (.unnamedModule (s.lineAt start))), s.finish)
      | some name =>
        let text := Text.slice s.source start stop
        (some (.ok ⟨name, text, s.lineAt start, start⟩), { s with cursor := stop })

/-! ## A scan ends -/

/-- What a scan may still do: pass the bytes ahead of the cursor, and finish. -/
def ahead (s : Scanner) : Nat :=
  match s.phase with
  | .done => 0
  | .searching => s.source.length - s.cursor + 1

/-- Every item leaves less ahead, since a block moves the cursor forward inside
the text and an error ends the scan. -/
theorem ahead_next_lt {s next : Scanner} {item : Except SourceError Block}
    (hnext : s.next = (some item, next)) : next.ahead < s.ahead := by
  obtain ⟨source, cursor, phase⟩ := s
  cases phase with
  | done => simp [Scanner.next] at hnext
  | searching =>
      simp only [Scanner.next] at hnext
      split at hnext
      · simp at hnext
      · obtain ⟨-, rfl⟩ := Prod.mk.inj hnext
        simp [ahead, finish]
      · next start stop hspan =>
          split at hnext
          · obtain ⟨-, rfl⟩ := Prod.mk.inj hnext
            simp [ahead, finish]
          · obtain ⟨-, rfl⟩ := Prod.mk.inj hnext
            rw [Keyword.read_eq_foldlM] at hspan
            obtain ⟨k, hmem, rfl⟩ := Nesting.exists_stop_of_foldlM hspan
            have hbounds := Keyword.bounds_of_mem_search hmem
            simp only [ahead]
            omega

/-- The items still to come, in order. -/
def items (s : Scanner) : List (Except SourceError Block) :=
  match hnext : s.next with
  | (none, _) => []
  | (some item, next) =>
    have := ahead_next_lt hnext
    item :: next.items
termination_by s.ahead

/-- The scan after its last item: the text behind the last block, done. -/
def afterItems (s : Scanner) : Scanner :=
  match hnext : s.next with
  | (none, next) => next
  | (some _, next) =>
    have := ahead_next_lt hnext
    next.afterItems
termination_by s.ahead

end Scanner

/-- All blocks of a text, or the first error. -/
def Block.extract (source : Text) : Except SourceError (List Block) :=
  (Scanner.ofText source).items.mapM id

end NetlistSplit
