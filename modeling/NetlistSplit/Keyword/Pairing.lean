import NetlistSplit.Keyword

/-!
# Pairing openers with closers

Modules may be nested, so the closer of a module is the one that returns the
nesting to where it was in front of its opener.  A span reaches from an opener
outside of all modules to its closer.  Closers outside of all modules close
nothing and are passed over.
-/

namespace NetlistSplit

/-- A span of the text, from offset `start` up to, but not including, `stop`. -/
structure Span where
  start : Nat
  stop : Nat
  deriving DecidableEq, Repr

/-- The nesting of modules at a place of the text. -/
inductive Nesting where
  /-- Outside of all modules. -/
  | outside
  /-- In a module that starts at offset `start`, and in `depth` more inside of it. -/
  | inside (start depth : Nat)
  deriving DecidableEq, Repr

namespace Nesting

/-- The nesting after a keyword.  The end of a span ends the reading. -/
def read : Nesting → Keyword → Except Span Nesting
  | outside, ⟨.closer, _, _⟩ => .ok outside
  | outside, ⟨.opener, start, _⟩ => .ok (inside start 0)
  | inside start depth, ⟨.opener, _, _⟩ => .ok (inside start (depth + 1))
  | inside start 0, ⟨.closer, _, stop⟩ => .error ⟨start, stop⟩
  | inside start (depth + 1), ⟨.closer, _, _⟩ => .ok (inside start depth)

/-- A span ends where one of the keywords does. -/
theorem exists_stop_of_foldlM {keywords : List Keyword} {span : Span} :
    ∀ {nesting : Nesting}, keywords.foldlM read nesting = .error span →
      ∃ k ∈ keywords, k.stop = span.stop := by
  induction keywords with
  | nil => intro nesting hspan; cases hspan
  | cons k later ih =>
      intro nesting hspan
      rw [List.foldlM_cons] at hspan
      cases hread : nesting.read k with
      | ok after =>
          rw [hread] at hspan
          obtain ⟨k', hmem, hstop⟩ := ih hspan
          exact ⟨k', List.mem_cons_of_mem k hmem, hstop⟩
      | error found =>
          rw [hread] at hspan
          obtain rfl : found = span := Except.error.inj hspan
          refine ⟨k, List.mem_cons_self, ?_⟩
          unfold read at hread
          split at hread <;> cases hread
          rfl

end Nesting

end NetlistSplit
