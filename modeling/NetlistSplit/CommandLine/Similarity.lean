/-!
# Similarity of words

The similarity of two words is a number from 0 to 1.  Two characters match
if they are equal and stand at about the same place: not farther apart than half
the longer word, less one.  The similarity is the mean of three shares: the part
of the first word that matches, the part of the second word that matches, and the
part of the matching characters that come in the same order.
-/

namespace NetlistSplit.Similarity

/-- Looks for `c` among the characters that are not taken yet, from place `first`
on, over `count` places, and takes it. -/
def take? (c : Char) : (first count : Nat) → List (Char × Bool) → Option (List (Char × Bool))
  | _, _, [] => none
  | first + 1, count, place :: later => (take? c first count later).map (place :: ·)
  | 0, 0, _ :: _ => none
  | 0, count + 1, (other, taken) :: later =>
    if other = c ∧ taken = false then some ((other, true) :: later)
    else (take? c 0 count later).map ((other, taken) :: ·)

/-- The characters of the first word, from place `place` on, that match, and the
second word with its matching characters marked. -/
def matching (range : Nat) : (place : Nat) → List Char → List (Char × Bool) →
    List Char × List (Char × Bool)
  | _, [], second => ([], second)
  | place, c :: later, second =>
    let first := place - range
    match take? c first (place + range + 1 - first) second with
    | some marked =>
      let (found, marked) := matching range (place + 1) later marked
      (c :: found, marked)
    | none => matching range (place + 1) later second

/-- The similarity of two words. -/
def score (first second : List Char) : Float :=
  if first = [] ∧ second = [] then 1
  else
    let range := max first.length second.length / 2 - 1
    let (found, marked) := matching range 0 first (second.map fun c => (c, false))
    let foundInSecond := (marked.filter fun place => place.2).map Prod.fst
    let transposed := ((found.zip foundInSecond).filter fun pair => pair.1 ≠ pair.2).length / 2
    let common := found.length
    if common = 0 then 0
    else
      (common.toFloat / first.length.toFloat + common.toFloat / second.length.toFloat +
        (common - transposed).toFloat / common.toFloat) / 3

end NetlistSplit.Similarity
