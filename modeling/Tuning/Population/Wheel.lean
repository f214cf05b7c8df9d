import Tuning.Finite.Bisection
import Tuning.Random.Source

/-! # The roulette wheel

Elements are picked with a chance in proportion to their scores. The wheel holds running totals of
the weights; a point on it belongs to the first element whose total exceeds it. -/

namespace Tuning.Wheel

variable {σ : Type} [LT σ] [DecidableLT σ] [LE σ] [DecidableLE σ] [BEq σ] [Add σ]
variable [OfNat σ 0] [OfNat σ 1]

/-- The weight of a score: nothing below zero has weight. -/
def weight (score : σ) : σ :=
  if 0 < score then score else if score ≤ 0 then 0 else score

/-- Running totals from a start on. -/
def totals (start : σ) : List σ → List σ
  | [] => []
  | w :: rest => (start + w) :: totals (start + w) rest

/-- The sum from the left. -/
def sum (ws : List σ) : σ :=
  ws.foldl (· + ·) 0

/-- The weights of scores; if they have no weight at all, each has weight one. -/
def weights (scores : List σ) : List σ :=
  let ws := scores.map weight
  if sum ws == 0 then ws.map fun _ => 1 else ws

/-- The wheel for scores. -/
def make (scores : List σ) : List σ :=
  totals 0 (weights scores)

/-- The index a point belongs to; points beyond the end belong to the last element. -/
def indexOf (wheel : List σ) (point : σ) : Nat :=
  min (Finite.firstIndex (point < ·) wheel) (wheel.length - 1)

end Tuning.Wheel

namespace Tuning

/-- Picks an index of a wheel of doubles. -/
def Wheel.spin (wheel : List Float) : Draw Nat := do
  return indexOf wheel ((← Draw.fraction) * wheel.getLastD 0)

end Tuning
