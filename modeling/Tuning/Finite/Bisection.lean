/-! # Search by halving

A search for the first index that passes a test, where all indices after it pass too. -/

namespace Tuning.Finite

/-- Halves the range `low, …, high` towards the first index that passes a test. -/
def bisect (passes : Nat → Bool) : (fuel low high : Nat) → Nat
  | 0, low, _ => low
  | fuel + 1, low, high =>
    if low < high then
      let middle := (low + high) / 2
      if passes middle then bisect passes fuel low middle
      else bisect passes fuel (middle + 1) high
    else low

/-- The first index of a list whose element passes a test; the length of the list, if there is none. -/
def firstIndex {α : Type} (test : α → Bool) (xs : List α) : Nat :=
  bisect (fun i => (xs[i]?).any test) xs.length 0 xs.length

end Tuning.Finite
