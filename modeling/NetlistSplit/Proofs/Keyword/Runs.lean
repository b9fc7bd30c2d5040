import Mathlib.Data.List.Sort
import NetlistSplit.Proofs.Literal.Reading
import NetlistSplit.Proofs.Scanner.Yielded

/-!
# Keywords are runs of identifier bytes

The search for keywords spells words and looks at their neighbours.  What it finds can be
said without any words in between: the runs of bytes that identifiers are made of, as
long as they can be, that are equal to a keyword (`occurs_iff`) and lie outside of all
closed literals (`not_hides_iff`).

A scan searches from its cursor on.  No closed literal reaches over the cursor, so the
search finds what a search of the whole text finds behind it (`search_eq_filter`), and
says the same of every keyword as if there were no cursor (`Scanner.keywords_eq_runs`).
-/

namespace NetlistSplit

/-! ## Runs of identifier bytes -/

namespace Text

/-- Whether a span is not empty and all of its bytes are bytes that identifiers are made
of. -/
structure IsRun (source : Text) (span : Span) : Prop where
  start_lt_stop : span.start < span.stop
  identifier : ∀ place, span.start ≤ place → place < span.stop →
    Keyword.joins source[place]? = true

/-- Whether a run is as long as it can be: no other run holds it. -/
structure IsMaximalRun (source : Text) (span : Span) : Prop extends source.IsRun span where
  maximal : ∀ other : Span, source.IsRun other → other.start ≤ span.start →
    span.stop ≤ other.stop → other = span

end Text

namespace Keyword

theorem joins_eq_true_iff {b : Option UInt8} :
    joins b = true ↔ ∃ letter, b = some letter ∧ Byte.isIdentifier letter = true := by
  cases b with
  | none => simp [joins]
  | some b => simp [joins]

end Keyword

namespace Text

open Keyword (joins byteBefore)

variable {source : Text} {span : Span}

theorem IsRun.stop_le (hrun : source.IsRun span) : span.stop ≤ source.length := by
  have hlt := hrun.start_lt_stop
  have hlast := hrun.identifier (span.stop - 1) (by omega) (by omega)
  obtain ⟨b, hb, -⟩ := Keyword.joins_eq_true_iff.mp hlast
  have hlength := (List.getElem?_eq_some_iff.mp hb).1
  omega

/-- With a byte of an identifier in front of it, a run can be longer. -/
theorem IsRun.longer_before (hrun : source.IsRun span)
    (hbefore : joins (byteBefore source span.start) = true) :
    0 < span.start ∧ source.IsRun ⟨span.start - 1, span.stop⟩ := by
  have hstart : span.start ≠ 0 := by
    intro hzero
    rw [byteBefore, if_pos hzero] at hbefore
    cases hbefore
  rw [byteBefore, if_neg hstart] at hbefore
  refine ⟨Nat.pos_of_ne_zero hstart, Nat.lt_of_le_of_lt (Nat.sub_le _ _) hrun.start_lt_stop, ?_⟩
  intro place hle hlt
  rcases Nat.eq_or_lt_of_le hle with rfl | hlater
  · exact hbefore
  · exact hrun.identifier place (Nat.le_of_pred_lt hlater) hlt

/-- With a byte of an identifier behind it, a run can be longer. -/
theorem IsRun.longer_behind (hrun : source.IsRun span) (hbehind : joins source[span.stop]? = true) :
    source.IsRun ⟨span.start, span.stop + 1⟩ := by
  refine ⟨Nat.lt_succ_of_lt hrun.start_lt_stop, fun place hle hlt => ?_⟩
  rcases Nat.lt_succ_iff_lt_or_eq.mp hlt with hearlier | rfl
  · exact hrun.identifier place hle hearlier
  · exact hbehind

/-- A run is as long as it can be if no byte in front of it or behind it belongs to an
identifier. -/
theorem isMaximalRun_iff :
    source.IsMaximalRun span ↔ source.IsRun span ∧
      joins (byteBefore source span.start) = false ∧ joins source[span.stop]? = false := by
  constructor
  · intro hmax
    refine ⟨hmax.toIsRun, Bool.eq_false_iff.mpr fun hbefore => ?_,
      Bool.eq_false_iff.mpr fun hbehind => ?_⟩
    · obtain ⟨hpos, hlonger⟩ := hmax.longer_before hbefore
      have hsame := hmax.maximal _ hlonger (Nat.sub_le _ _) (Nat.le_refl _)
      exact absurd (congrArg Span.start hsame) (Nat.pred_lt_self hpos).ne
    · have hsame := hmax.maximal _ (hmax.longer_behind hbehind) (Nat.le_refl _) (Nat.le_succ _)
      exact absurd (congrArg Span.stop hsame) (Nat.succ_ne_self _)
  · rintro ⟨hrun, hbefore, hbehind⟩
    refine ⟨hrun, fun other hother hstart hstop => ?_⟩
    have hlt := hrun.start_lt_stop
    have hstarts : other.start = span.start := by
      refine Nat.le_antisymm hstart (Nat.le_of_not_lt fun hearlier => ?_)
      have hletter := hother.identifier (span.start - 1) (by omega) (by omega)
      rw [byteBefore, if_neg (by omega), hletter] at hbefore
      cases hbefore
    have hstops : other.stop = span.stop := by
      refine Nat.le_antisymm (Nat.le_of_not_lt fun hlater => ?_) hstop
      rw [hother.identifier span.stop (by omega) hlater] at hbehind
      cases hbehind
    calc other = ⟨other.start, other.stop⟩ := rfl
      _ = span := by rw [hstarts, hstops]

end Text

namespace Keyword

variable {source : Text} {k : Keyword}

/-- A keyword stands in a text where the bytes of an identifier, as many as there are, spell
one. -/
theorem occurs_iff :
    k.Occurs source ↔ source.IsMaximalRun ⟨k.start, k.stop⟩ ∧
      (Text.slice source k.start k.stop, k.kind) ∈ words := by
  rw [Text.isMaximalRun_iff]
  constructor
  · intro hk
    have hrun : source.IsRun ⟨k.start, k.stop⟩ := by
      refine ⟨hk.start_lt_stop, fun place hle hlt => ?_⟩
      exact joins_eq_true_iff.mpr (hk.exists_letter hle hlt)
    refine ⟨⟨hrun, hk.free_before, hk.free_behind⟩, ?_⟩
    obtain ⟨word, hword, hbegins, hstop⟩ := hk.spelled
    have hslice : Text.slice source k.start k.stop = word := by
      rw [Text.slice, hstop, Nat.add_sub_cancel_left, ← List.prefix_iff_eq_take.mp hbegins]
    rwa [hslice]
  · rintro ⟨⟨hrun, hbefore, hbehind⟩, hword⟩
    have hlt := hrun.start_lt_stop
    have hle := hrun.stop_le
    simp only at hlt hle
    refine ⟨⟨_, hword, List.take_prefix _ _, ?_⟩, hbefore, hbehind⟩
    rw [Text.slice, List.length_take, List.length_drop]
    omega

/-- A keyword that begins outside of a closed literal lies outside of it: it cannot reach
over the quote. -/
theorem not_hides_iff (hk : k.Occurs source) :
    ¬ Literal.Hides source 0 k.start ↔
      ∀ literal ∈ Literal.closedSpans source 0,
        k.stop ≤ literal.start ∨ literal.stop ≤ k.start := by
  constructor
  · intro hhides literal hliteral
    rcases Nat.lt_or_ge literal.start k.start with hbefore | hbehind
    · right
      exact Nat.le_of_not_lt fun hinside => hhides ⟨literal, hliteral, hbefore, hinside⟩
    · left
      refine Nat.le_of_not_lt fun hinside => ?_
      obtain ⟨b, hb, hletter⟩ := hk.exists_letter hbehind hinside
      rw [Literal.quote_of_mem_closedSpans hliteral] at hb
      obtain rfl := Option.some.inj hb
      cases hletter
  · rintro hapart ⟨literal, hliteral, hstart, hstop⟩
    have hlt := hk.start_lt_stop
    have hcases := hapart literal hliteral
    omega

/-- Keywords that follow one another are told by which of them there are. -/
theorem eq_of_mem_iff {found other : List Keyword}
    (hfound : found.Pairwise fun k later => k.start < later.start)
    (hother : other.Pairwise fun k later => k.start < later.start)
    (hsame : ∀ k, k ∈ found ↔ k ∈ other) : found = other := by
  have : Std.Antisymm fun k later : Keyword => k.start < later.start :=
    ⟨fun k later hlt hgt => absurd hlt (Nat.lt_asymm hgt)⟩
  have : Std.Irrefl fun k later : Keyword => k.start < later.start :=
    ⟨fun k => Nat.lt_irrefl k.start⟩
  exact hfound.eq_of_mem_iff hother hsame

theorem pairwise_start_search (source : Text) (cursor : Nat) :
    (search source cursor).Pairwise fun k later => k.start < later.start := by
  refine (pairwise_search source cursor).imp_of_mem fun hk hlater hle => ?_
  exact Nat.lt_of_lt_of_le (bounds_of_mem_search hk).2.1 hle

/-- Where no closed literal reaches over an offset, the search from there finds the
keywords behind it that a search of the whole text finds. -/
theorem search_eq_filter {cursor : Nat} (hcursor : ¬ Literal.Hides source 0 cursor) :
    search source cursor = (search source 0).filter fun k => cursor ≤ k.start := by
  refine eq_of_mem_iff (pairwise_start_search source cursor)
    ((pairwise_start_search source 0).filter _) fun k => ?_
  rw [List.mem_filter, decide_eq_true_eq, mem_search_iff, mem_search_iff]
  constructor
  · rintro ⟨hle, hk, hhides⟩
    rw [← Literal.hides_of_not_hides hcursor (Nat.zero_le _) hle] at hhides
    exact ⟨⟨Nat.zero_le _, hk, hhides⟩, hle⟩
  · rintro ⟨⟨-, hk, hhides⟩, hle⟩
    rw [Literal.hides_of_not_hides hcursor (Nat.zero_le _) hle] at hhides
    exact ⟨hle, hk, hhides⟩

end Keyword

namespace Scanner

/-- From wherever a scan has come to, it finds the whole words outside of the closed
literals of the text. -/
theorem keywords_eq_runs (source : Text) (calls : Nat) :
    let s := (ofText source).after calls
    (∀ spans, Literal.Reads source 0 spans ↔ spans = Literal.closedSpans source 0) ∧
      (s.keywords.Pairwise fun k later => k.stop ≤ later.start) ∧
      (∀ k : Keyword, k ∈ s.keywords ↔
        s.cursor ≤ k.start ∧ source.IsMaximalRun ⟨k.start, k.stop⟩ ∧
          (Text.slice source k.start k.stop, k.kind) ∈ Keyword.words ∧
          ∀ literal ∈ Literal.closedSpans source 0,
            k.stop ≤ literal.start ∨ literal.stop ≤ k.start) ∧
      s.keywords = (ofText source).keywords.filter fun k => s.cursor ≤ k.start := by
  intro s
  have hs := hasYielded_after source calls
  have hkeywords : s.keywords = Keyword.search source s.cursor :=
    congrArg (Keyword.search · s.cursor) hs.source_eq
  refine ⟨fun spans => Literal.reads_iff, ?_, fun k => ?_, ?_⟩
  · exact Keyword.pairwise_search s.source s.cursor
  · rw [hkeywords, Keyword.search_eq_filter hs.not_hidden, List.mem_filter, decide_eq_true_eq,
      Keyword.mem_search_iff]
    constructor
    · rintro ⟨⟨-, hk, hhides⟩, hle⟩
      obtain ⟨hrun, hword⟩ := Keyword.occurs_iff.mp hk
      exact ⟨hle, hrun, hword, (Keyword.not_hides_iff hk).mp hhides⟩
    · rintro ⟨hle, hrun, hword, hapart⟩
      have hk := Keyword.occurs_iff.mpr ⟨hrun, hword⟩
      exact ⟨⟨Nat.zero_le _, hk, (Keyword.not_hides_iff hk).mpr hapart⟩, hle⟩
  · rw [hkeywords]
    exact Keyword.search_eq_filter hs.not_hidden

/-- Words that touch are one word, and no dollar sign parts them.  A quote that is not closed
on its line hides nothing. -/
example :
    (ofText (Text.ofString "xmodule endmodulemodule n$module \"\\\" module\" \"module")).keywords =
      [⟨.opener, 46, 52⟩] := by
  decide

end Scanner

end NetlistSplit
