import NetlistSplit.Proofs.Header.Declaration
import NetlistSplit.Proofs.Keyword.Append

/-!
# The keywords in a header

A header holds the keyword that opens the module.  It holds no other one unless the
name that it declares is a keyword itself (`Declaration.search_append`).
-/

namespace NetlistSplit

namespace Keyword

/-- Where no identifier stands, no keyword does. -/
theorem search_of_not_identifier {text : Text} (htext : ∀ b ∈ text, Byte.isIdentifier b = false) :
    search text 0 = [] := by
  apply List.eq_nil_iff_forall_not_mem.mpr
  intro k hk
  obtain ⟨b, hget, hb⟩ := (mem_search_iff.mp hk).2.1.exists_head
  rw [htext b (List.mem_of_getElem? hget)] at hb
  cases hb

/-- An identifier holds no keyword but itself. -/
theorem search_of_identifier {word : Text} (hword : ∀ b ∈ word, Byte.isIdentifier b = true)
    (hnot : ∀ kind, (word, kind) ∉ words) : search word 0 = [] := by
  apply List.eq_nil_iff_forall_not_mem.mpr
  intro k hk
  obtain ⟨-, hoccurs, -⟩ := mem_search_iff.mp hk
  obtain ⟨spelled, hmem, hbegins, hstop⟩ := hoccurs.spelled
  have hjoins : ∀ i, i < word.length → joins word[i]? = true := by
    intro i hi
    rw [List.getElem?_eq_getElem hi]
    exact hword _ (List.getElem_mem hi)
  have hstart : k.start = 0 := by
    by_contra hne
    have hbefore := hoccurs.free_before
    rw [byteBefore, if_neg hne, hjoins _ (by have := hoccurs.start_lt; omega)] at hbefore
    cases hbefore
  have hend : word.length ≤ k.stop := by
    apply Nat.le_of_not_lt
    intro hlt
    have hbehind := hoccurs.free_behind
    rw [hjoins k.stop hlt] at hbehind
    cases hbehind
  rw [hstart, List.drop_zero] at hbegins
  have hsame : spelled = word := hbegins.eq_of_length_le (by omega)
  exact hnot k.kind (hsame ▸ hmem)

/-- What belongs to no identifier is passed over. -/
theorem search_append_of_not_identifier {gap : Text} (hgap : ∀ b ∈ gap, Byte.isIdentifier b = false)
    (hquote : Byte.quote ∉ gap) (rest : Text) :
    search (gap ++ rest) 0 = (search rest 0).map (shift gap.length) := by
  have hword : joins gap.getLast? = true → joins rest.head? = false := by
    intro hjoins
    cases hlast : gap.getLast? with
    | none =>
        rw [hlast] at hjoins
        cases hjoins
    | some b =>
        rw [hlast, joins, hgap b (List.mem_of_getLast? hlast)] at hjoins
        cases hjoins
  rw [search_append (.of_notMem_quote hquote hword), search_of_not_identifier hgap,
    List.nil_append]

/-- A word is searched by itself. -/
theorem search_append_of_identifier {word rest : Text}
    (hword : ∀ b ∈ word, Byte.isIdentifier b = true) (hrest : joins rest.head? = false) :
    search (word ++ rest) 0 = search word 0 ++ (search rest 0).map (shift word.length) :=
  search_append (.of_notMem_quote (quote_notMem_of_identifier hword) fun _ => hrest)

end Keyword

namespace Header

open Keyword

namespace Declaration

theorem search_opener (d : Declaration) :
    search d.opener 0 = [⟨.opener, 0, d.opener.length⟩] := by
  have hall : ∀ opener ∈ openers, search opener 0 = [⟨.opener, 0, opener.length⟩] := by decide
  exact hall d.opener d.opener_mem

/-- The bytes up to the end of the name belong to words and white space. -/
theorem of_mem_front {d : Declaration} {b : UInt8} (hb : b ∈ d.front) :
    Byte.isIdentifier b = true ∨ ∃ run : Text.Spaces, b ∈ run.text := by
  rcases List.mem_append.mp hb with hopener | hb
  · exact .inl (isIdentifier_of_mem_openers d.opener_mem b hopener)
  rcases List.mem_append.mp hb with hspace | hb
  · exact .inr ⟨d.space, hspace⟩
  rcases List.mem_append.mp hb with hqualifier | hname
  · cases hcase : d.qualifier with
    | none =>
        rw [hcase] at hqualifier
        cases hqualifier
    | some pair =>
        rw [hcase] at hqualifier
        rcases List.mem_append.mp hqualifier with hword | hrun
        · exact .inl (isIdentifier_of_mem_qualifiers (d.qualifier_mem pair hcase).1 b hword)
        · exact .inr ⟨pair.2, hrun⟩
  · exact .inl (d.name_identifier b hname)

/-- The bytes behind the name are white space and marks of the header. -/
theorem of_mem_ending {d : Declaration} {b : UInt8} (hb : b ∈ d.ending) :
    Byte.isIdentifier b = false ∧ b ≠ Byte.quote ∧ b ≠ Byte.slash := by
  have hspaces : ∀ run : Text.Spaces, b ∈ run.text →
      Byte.isIdentifier b = false ∧ b ≠ Byte.quote ∧ b ≠ Byte.slash := by
    intro run hrun
    obtain ⟨hquote, hslash, -⟩ := Text.Spaces.ne_mark_of_mem hrun
    exact ⟨Text.Spaces.not_identifier_of_mem hrun, hquote, hslash⟩
  have hstop : Byte.isIdentifier d.stop = false ∧ d.stop ≠ Byte.quote ∧ d.stop ≠ Byte.slash := by
    rcases d.stop_eq with hstop | hstop <;> rw [hstop] <;> decide
  rcases List.mem_append.mp hb with hgap | hbehind
  · exact hspaces d.gap hgap
  · rcases List.mem_append.mp hbehind with hhash | hlast
    · cases hcase : d.hash with
      | none =>
          rw [hcase] at hhash
          cases hhash
      | some run =>
          rw [hcase] at hhash
          rcases List.mem_cons.mp hhash with rfl | hrun
          · decide
          · exact hspaces run hrun
    · rw [List.mem_singleton.mp hlast]
      exact hstop

/-- No quote and no slash stands in a header. -/
theorem mark_notMem (d : Declaration) : Byte.quote ∉ d.text ∧ Byte.slash ∉ d.text := by
  have hmarks : ∀ b ∈ d.text, b ≠ Byte.quote ∧ b ≠ Byte.slash := by
    intro b hb
    rcases List.mem_append.mp hb with hfront | hending
    · rcases of_mem_front hfront with hidentifier | ⟨run, hrun⟩
      · constructor <;>
          · rintro rfl
            cases hidentifier
      · obtain ⟨hquote, hslash, -⟩ := Text.Spaces.ne_mark_of_mem hrun
        exact ⟨hquote, hslash⟩
    · exact (of_mem_ending hending).2
  exact ⟨fun hquote => (hmarks _ hquote).1 rfl, fun hslash => (hmarks _ hslash).2 rfl⟩

theorem joins_head?_text (d : Declaration) (rest : Text) :
    joins (d.text ++ rest).head? = true := by
  have hall : ∀ opener ∈ openers, opener ≠ [] ∧ joins opener.head? = true := by decide
  obtain ⟨hne, hjoins⟩ := hall d.opener d.opener_mem
  rw [text, front, List.append_assoc, List.append_assoc, List.head?_append_of_ne_nil _ hne]
  exact hjoins

theorem joins_head?_ending (d : Declaration) (rest : Text) :
    joins (d.ending ++ rest).head? = false := by
  apply joins_head?_of_goesOn
  exact goesOn_iff.mpr ⟨d.gap, d.hash, d.stop, rest, d.stop_eq, by simp [ending]⟩

theorem search_spaces (run : Text.Spaces) (rest : Text) :
    search (run.text ++ rest) 0 = (search rest 0).map (shift run.text.length) :=
  search_append_of_not_identifier (fun _ => Text.Spaces.not_identifier_of_mem)
    (fun hquote => (Text.Spaces.ne_mark_of_mem hquote).1 rfl) rest

theorem search_qualifier (d : Declaration) (rest : Text) :
    search (qualifierText d.qualifier ++ rest) 0 =
      (search rest 0).map (shift (qualifierText d.qualifier).length) := by
  cases hqualifier : d.qualifier with
  | none => simp [qualifierText]
  | some pair =>
      obtain ⟨word, run⟩ := pair
      have hall : ∀ word ∈ qualifiers, search word 0 = [] := by decide
      obtain ⟨hmem, hrun⟩ := d.qualifier_mem _ hqualifier
      rw [qualifierText, List.append_assoc,
        search_append_of_identifier (isIdentifier_of_mem_qualifiers hmem)
          (joins_head?_spaces hrun rest),
        hall word hmem, List.nil_append, search_spaces, map_shift_map_shift, List.length_append,
        Nat.add_comm]

/-- Where the name begins. -/
def nameOffset (d : Declaration) : Nat :=
  d.opener.length + d.space.text.length + (qualifierText d.qualifier).length

theorem length_front (d : Declaration) : d.front.length = d.nameOffset + d.name.length := by
  simp only [front, nameOffset, List.length_append]
  omega

/-- The keywords of a text that begins with a header: the opener, the name if it is a
keyword, and those behind the header. -/
theorem search_append (d : Declaration) (rest : Text) :
    search (d.text ++ rest) 0 =
      ⟨.opener, 0, d.opener.length⟩ :: ((search d.name 0).map (shift d.nameOffset) ++
        (search rest 0).map (shift d.text.length)) := by
  have htext : d.text ++ rest = d.opener ++ (d.space.text ++
      (qualifierText d.qualifier ++ (d.name ++ (d.ending ++ rest)))) := by
    simp [text, front]
  have hending : search (d.ending ++ rest) 0 = (search rest 0).map (shift d.ending.length) :=
    search_append_of_not_identifier (fun b hb => (of_mem_ending hb).1)
      (fun hquote => (of_mem_ending hquote).2.1 rfl) rest
  have hname : (qualifierText d.qualifier).length + d.space.text.length + d.opener.length =
      d.nameOffset := by
    rw [nameOffset]
    omega
  have hbehind : d.ending.length + d.name.length + (qualifierText d.qualifier).length +
      d.space.text.length + d.opener.length = d.text.length := by
    rw [text, List.length_append, length_front, nameOffset]
    omega
  rw [htext, search_append_of_identifier (isIdentifier_of_mem_openers d.opener_mem)
      (joins_head?_spaces d.space_ne_nil _),
    d.search_opener, search_spaces, d.search_qualifier,
    search_append_of_identifier d.name_identifier (d.joins_head?_ending rest), hending]
  simp only [List.map_append, map_shift_map_shift, hname, hbehind]
  rfl

/-- A header whose name is no keyword holds its opener alone. -/
theorem search_append_of_name {d : Declaration} (hname : d.name ∉ words.map Prod.fst)
    (rest : Text) :
    search (d.text ++ rest) 0 =
      ⟨.opener, 0, d.opener.length⟩ :: (search rest 0).map (shift d.text.length) := by
  have hnone : search d.name 0 = [] :=
    search_of_identifier d.name_identifier fun kind hmem => hname (List.mem_map_of_mem hmem)
  rw [d.search_append, hnone, List.map_nil, List.nil_append]

end Declaration

end Header

end NetlistSplit
