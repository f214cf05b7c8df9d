import Tuning.Decimal.Binary
import Tuning.Decimal.Reader

/-! # Positions in the unit box

A coordinate in `[0, 1]` stands for an element of a finite domain: the box is cut into as many cells as
the domain has elements. -/

namespace Tuning

/-- A point of a box. -/
abbrev Position := List Float

namespace Position

/-- The whole number below a double, where words that cannot hold it give the least word. -/
def floorWord (x : Float) : Int64 :=
  ((Binary.ofFloat x).floor?.bind wordOfInt?).getD Int64.minValue

/-- A coordinate moved into `[0, 1]`. -/
def clamp (x : Float) : Float :=
  if x ≤ 0.0 then 0.0 else if 1.0 < x then 1.0 else x

/-- The cell of a coordinate among `n` cells; a coordinate that is no number lies in the first cell. -/
def cell (x : Float) (n : Int64) : Int64 :=
  if x.isNaN then 0
  else
    let i := floorWord (clamp x * Float.ofInt n.toInt)
    if i ≤ n - 1 then i else n - 1

/-- The cells of a position; coordinates that are missing lie in the first cell. -/
def decode : Position → List Int64 → List Int64
  | _, [] => []
  | [], _ :: cards => 0 :: decode [] cards
  | x :: xs, n :: cards => cell x n :: decode xs cards

end Position

end Tuning
