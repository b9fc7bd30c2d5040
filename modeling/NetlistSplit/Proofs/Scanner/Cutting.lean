import NetlistSplit.Proofs.Comment.Copying
import NetlistSplit.Proofs.Scanner.Yielded

/-!
# A netlist is cut between characters only

A scan cuts its text at its cursor and at both ends of a module.  `Scanner.next?` is a call
of `next` that fails if one of these cuts would split a character.  It never does for the
encoding of a string (`Scanner.next?_eq`): each of these offsets is 0 or an end of a keyword,
and the letters of keywords are ASCII.

So neither removing the comments of a string nor scanning what is left of it ever cuts a
character in two (`Scanner.cut_between_characters`).
-/

namespace NetlistSplit

namespace Keyword

variable {source : Text} {k : Keyword}

theorem mayCut_start (hk : k.Occurs source) : source.MayCut k.start := by
  obtain ⟨word, hword, ⟨rest, hrest⟩, -⟩ := hk.spelled
  have hfirst : ∀ entry ∈ words, entry.1.head? = some 0x65 ∨ entry.1.head? = some 0x6D := by
    decide
  have hbyte : source[k.start]? = word.head?.or rest.head? := by
    rw [← List.head?_append, hrest, List.head?_drop]
  rcases hfirst _ hword with hhead | hhead
  · rw [hhead] at hbyte
    exact Text.mayCut_of_ascii hbyte rfl
  · rw [hhead] at hbyte
    exact Text.mayCut_of_ascii hbyte rfl

theorem mayCut_stop (hstring : source.IsString) (hk : k.Occurs source) :
    source.MayCut k.stop :=
  hstring.mayCut (Scanner.isBoundary_stop hk)

end Keyword

namespace Scanner

/-- One call of `next`, if all of its cuts are between two characters. -/
def next? (s : Scanner) : Option (Option (Except SourceError Block) × Scanner) :=
  match s.phase with
  | .done => some (none, s)
  | .searching => do
    let ahead ← s.source.cut? s.cursor s.source.length
    let before := Keyword.byteBefore s.source s.cursor
    match Keyword.readFrom Nesting.read .outside before s.cursor 0 ahead with
    | .ok .outside => return (none, s.finish)
    | .ok (.inside start _) =>
      let line ← s.source.lineAt? start
      let tail ← s.source.cut? start s.source.length
      return (some (.error (.unterminatedModule (Header.name? tail) line)), s.finish)
    | .error ⟨start, stop⟩ =>
      let line ← s.source.lineAt? start
      let tail ← s.source.cut? start s.source.length
      match Header.name? tail with
      | none => return (some (.error (.unnamedModule line)), s.finish)
      | some name =>
        let text ← s.source.cut? start stop
        return (some (.ok ⟨name, text, line, start⟩), { s with cursor := stop })

/-- The text may be cut where a stretch begins. -/
theorem mayCut_of_mem_stretches {source : Text} {cursor : Nat} {stretch : Stretch}
    (hstretch : stretch ∈ Keyword.stretches 0 0 (Keyword.search source cursor)) :
    source.MayCut stretch.start := by
  rcases Keyword.exists_opener_of_mem_stretches hstretch with ⟨hzero, -⟩ | ⟨k, hk, -, hstart⟩
  · exact absurd rfl hzero
  · exact hstart ▸ Keyword.mayCut_start (Keyword.mem_search_iff.mp hk).2.1

/-- The text may be cut where a stretch ends, which is behind its beginning. -/
theorem mayCut_of_closed {source : Text} {cursor : Nat} {span : Span} (hstring : source.IsString)
    (hspan : .closed span ∈ Keyword.stretches 0 0 (Keyword.search source cursor)) :
    source.MayCut span.stop ∧ span.start ≤ span.stop := by
  obtain ⟨earlier, within, later, hsearch, hmodule⟩ := Keyword.exists_isModule_of_mem hspan
  obtain ⟨first, last, hfirst, hlast, ⟨-, hstart⟩, ⟨-, hstop⟩, -, hends, -⟩ :=
    hmodule.exists_occurs hsearch
  have hbegins := hfirst.start_lt_stop
  have hcloses := hlast.start_lt_stop
  exact ⟨hstop ▸ Keyword.mayCut_stop hstring hlast, by omega⟩

theorem next?_eq {s : Scanner} (hstring : s.source.IsString) (hcursor : s.source.MayCut s.cursor) :
    s.next? = some s.next := by
  obtain ⟨source, cursor, phase⟩ := s
  cases phase with
  | done => rfl
  | searching =>
      have hread : Keyword.readFrom Nesting.read .outside (Keyword.byteBefore source cursor)
          cursor 0 (source.drop cursor) = (Keyword.search source cursor).foldlM Nesting.read .outside :=
        Keyword.readFrom_eq_foldlM ..
      have hreads := Nesting.readsFirst_outside (Keyword.search source cursor)
      simp only [next?, next, Keyword.read_eq_foldlM, Text.cut?_length hcursor, Option.bind_eq_bind,
        Option.bind_some, hread]
      generalize hresult : (Keyword.search source cursor).foldlM Nesting.read .outside = result
      generalize hstretches : Keyword.stretches 0 0 (Keyword.search source cursor) = stretches
      rw [hresult, hstretches] at hreads
      cases hreads with
      | none => rfl
      | unclosed start depth =>
          have hstart : source.MayCut start :=
            mayCut_of_mem_stretches (hstretches ▸ List.mem_cons_self)
          simp only [Text.lineAt?_eq hstart, Text.cut?_length hstart, Option.bind_some]
          rfl
      | @closed earlier later k start hsplit =>
          have hmem : .closed ⟨start, k.stop⟩ ∈
              Keyword.stretches 0 0 (Keyword.search source cursor) :=
            hstretches ▸ List.mem_cons_self
          have hstart : source.MayCut start := mayCut_of_mem_stretches hmem
          obtain ⟨hstop, hle⟩ := mayCut_of_closed hstring hmem
          simp only [Text.lineAt?_eq hstart, Text.cut?_length hstart,
            Text.cut?_eq_slice hle hstart hstop, Option.bind_some, nameAt?]
          cases Header.name? (source.drop start) <;> rfl

/-- Nothing that is done with the encoding of a string splits a character, and the removal of
its comments goes on with every step. -/
theorem cut_between_characters (string : String) :
    (∀ offset, (Text.ofString string).MayCut offset ↔
      (⟨offset⟩ : String.Pos.Raw).IsValid string) ∧
    (∀ s, Comment.Copier.Reached (Text.ofString string) s →
      s.pending ≤ s.position ∧ s.position ≤ (Text.ofString string).length ∧
      (Text.ofString string).MayCut s.pending ∧
      ∃ step, s.step? (Text.ofString string) = some step ∧ ∀ next, step = .goesOn next →
        s.position < next.position ∧ next.position ≤ (Text.ofString string).length) ∧
    Comment.copy? (Text.ofString string) = some (Comment.strip (Text.ofString string)) ∧
    (∀ text, Comment.strip (Text.ofString string) = .ok text →
      ∃ kept : String, text = Text.ofString kept) ∧
    ∀ calls, let s := (ofText (Text.ofString string)).after calls
      s.source.cut? s.cursor s.source.length = some s.remaining ∧ s.next? = some s.next := by
  have hstring : Text.IsString (Text.ofString string) := ⟨string, rfl⟩
  refine ⟨fun offset => Text.mayCut_ofString_iff, ?_, Comment.copy?_eq_strip hstring, ?_, ?_⟩
  · intro s hs
    exact hs.advances hstring
  · intro text hstrip
    exact Comment.isString_of_strip hstring hstrip
  · intro calls s
    have hs := hasYielded_after (Text.ofString string) calls
    have hsource : s.source = Text.ofString string := hs.source_eq
    have hcursor : s.source.MayCut s.cursor := hsource ▸ hstring.mayCut hs.boundary
    exact ⟨Text.cut?_length hcursor, next?_eq (hsource ▸ hstring) hcursor⟩

end Scanner

end NetlistSplit
