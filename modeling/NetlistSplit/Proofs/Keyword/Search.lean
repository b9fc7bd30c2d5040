import NetlistSplit.Keyword

/-!
# Keyword search goes on where it paused

A search remembers two things between two bytes: the byte in front, and how many
of the next bytes a literal or a word has used up.  Once nothing is used up any
more it is in the state in which a search from that offset would begin
(`searchFrom_eq_search`).  So a search is a recursion over the offset alone
(`search_of_lt`), and the keywords behind a keyword are the ones that a search
from its end finds (`search_stop`).
-/

namespace NetlistSplit.Keyword

theorem byteBefore_succ (source : Text) (offset : Nat) :
    byteBefore source (offset + 1) = source[offset]? := by
  simp [byteBefore]

/-- Bytes that are used up are passed over. -/
theorem searchFrom_eq_search (source : Text) (offset pending : Nat) :
    searchFrom (byteBefore source offset) offset pending (source.drop offset) =
      search source (offset + pending) := by
  induction pending generalizing offset with
  | zero => rfl
  | succ pending ih =>
      rcases Nat.lt_or_ge offset source.length with hlt | hge
      · rw [List.drop_eq_getElem_cons hlt, searchFrom, ← List.getElem?_eq_getElem hlt,
          ← byteBefore_succ, ih, Nat.add_assoc, Nat.add_comm 1]
      · have hdrop : source.drop (offset + (pending + 1)) = [] :=
          List.drop_eq_nil_of_le (by omega)
        rw [List.drop_eq_nil_of_le hge, search, hdrop]
        rfl

/-- What the search finds at an offset, and from where on it looks for more. -/
theorem search_of_lt {source : Text} {offset : Nat} (hlt : offset < source.length) :
    search source offset =
      (leading (byteBefore source offset) offset source[offset]
          (source.drop (offset + 1))).1.toList ++
        search source (offset + 1 + (leading (byteBefore source offset) offset source[offset]
          (source.drop (offset + 1))).2) := by
  rw [search, List.drop_eq_getElem_cons hlt, searchFrom]
  rcases hleading : leading (byteBefore source offset) offset source[offset]
    (source.drop (offset + 1)) with ⟨found, pending⟩
  rw [← searchFrom_eq_search, byteBefore_succ, List.getElem?_eq_getElem hlt]
  cases found <;> rfl

theorem search_of_ge {source : Text} {offset : Nat} (hge : source.length ≤ offset) :
    search source offset = [] := by
  rw [search, List.drop_eq_nil_of_le hge]
  rfl

/-- A keyword uses up its own letters. -/
theorem stop_of_leading {before : Option UInt8} {offset pending : Nat} {b : UInt8} {rest : Text}
    {k : Keyword} (hleading : leading before offset b rest = (some k, pending)) :
    k.stop = offset + 1 + pending := by
  unfold leading at hleading
  split at hleading
  · cases hleading
  · split at hleading
    · cases hleading
    · next kind length hspelled =>
        split at hleading
        · cases hleading
        · have hlength := spelled?_length hspelled
          obtain ⟨hk, rfl⟩ := Prod.mk.inj hleading
          obtain rfl := Option.some.inj hk
          simp only
          omega

/-- The keywords behind a keyword are those that a search from its end finds. -/
theorem search_stop {source : Text} {cursor : Nat} {earlier later : List Keyword} {k : Keyword}
    (hsearch : search source cursor = earlier ++ k :: later) : search source k.stop = later := by
  induction hahead : source.length - cursor using Nat.strongRecOn
    generalizing cursor earlier with
  | ind ahead ih =>
      subst hahead
      rcases Nat.lt_or_ge cursor source.length with hlt | hge
      · rw [search_of_lt hlt] at hsearch
        rcases hleading : leading (byteBefore source cursor) cursor source[cursor]
          (source.drop (cursor + 1)) with ⟨found, pending⟩
        simp only [hleading] at hsearch
        cases found with
        | none => exact ih _ (by omega) hsearch rfl
        | some first =>
            cases earlier with
            | nil =>
                obtain ⟨rfl, hlater⟩ := List.cons.inj hsearch
                rw [stop_of_leading hleading]
                exact hlater
            | cons first' earlier => exact ih _ (by omega) (List.cons.inj hsearch).2 rfl
      · rw [search_of_ge hge] at hsearch
        simp at hsearch

end NetlistSplit.Keyword
