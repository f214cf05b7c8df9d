/-! # Edit distance

How many items have to be inserted, removed or replaced to get from one list to another. -/

namespace Tuning.Text

variable {α : Type} [DecidableEq α]

/-- The distances to the prefixes of a list after one more item: `corner` and `row` hold the distances
before it, `left` the one just found. -/
def nextDistances (c : α) : (corner left : Nat) → List α → List Nat → List Nat
  | corner, left, d :: items, above :: row =>
    let here := if c = d then corner else 1 + min corner (min left above)
    here :: nextDistances c above here items row
  | _, _, _, _ => []

/-- The distances from all of a first list to the prefixes of a second one, of which `row` holds those
from what came before. -/
def distancesFrom (items : List α) : (done : Nat) → (row : List Nat) → List α → List Nat
  | _, row, [] => row
  | done, row, c :: rest =>
    match row with
    | [] => []
    | corner :: tail =>
      distancesFrom items (done + 1) ((done + 1) :: nextDistances c corner (done + 1) items tail) rest

/-- The edit distance of two lists. -/
def distance (a b : List α) : Nat :=
  (distancesFrom b 0 (List.range (b.length + 1)) a).getLast?.getD 0

end Tuning.Text
