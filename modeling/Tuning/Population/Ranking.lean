/-! # Ranked lists -/

namespace Tuning.Ranking

variable {α σ : Type} [LT σ] [DecidableLT σ]

/-- Puts an element behind those of higher score and before all others. -/
def insert (x : α) (score : σ) : List (α × σ) → List (α × σ)
  | [] => [(x, score)]
  | (y, other) :: rest =>
    if score < other then (y, other) :: insert x score rest else (x, score) :: (y, other) :: rest

end Tuning.Ranking
