import Tuning.Finite.Indexed

/-! # Splits of a number into ordered parts -/

namespace Tuning.Finite

/-- All lists of `k` numbers with sum `m`, in lexicographic order. -/
def compositions (m : Nat) : (k : Nat) → List (List Nat)
  | 0 => if m = 0 then [[]] else []
  | 1 => [[m]]
  | k + 2 => (List.range (m + 1)).flatMap fun first =>
    (compositions (m - first) (k + 1)).map (first :: ·)

/-- The number of ways to choose `k` of `n` things. -/
def binomial (n k : Nat) : Nat :=
  (List.range k).foldl (fun count i => count * (n - i) / (i + 1)) 1

/-- How many lists of `k` numbers have sum `m`. -/
def countCompositions (m k : Nat) : Nat :=
  match k with
  | 0 => if m = 0 then 1 else 0
  | k + 1 => binomial (m + k) k

/-- Finds the first part of the composition with number `i` among those of `m` into `k + 1` parts
whose first part is at least `first`, and its number among those with that first part. -/
def locate (m k : Nat) : (fuel : Nat) → (first i : Nat) → Nat × Nat
  | 0, first, i => (first, i)
  | fuel + 1, first, i =>
    let count := countCompositions (m - first) k
    if i < count then (first, i) else locate m k fuel (first + 1) (i - count)

/-- The composition of `m` into `k` parts with number `i`. -/
def nthComposition (m : Nat) : (k : Nat) → (i : Nat) → List Nat
  | 0, _ => []
  | 1, _ => [m]
  | k + 2, i =>
    let (first, rest) := locate m (k + 1) m 0 i
    first :: nthComposition (m - first) (k + 1) rest

/-- The compositions of `m` into `k` parts as a family. -/
def compositionFamily (m k : Nat) : Indexed (List Nat) :=
  ⟨countCompositions m k, nthComposition m k⟩

/-- Splits of a machine integer: a negative one has only the split into one part. -/
def splits (m : Int64) (k : Nat) : List (List Int64) :=
  if m < 0 then
    if k = 1 then [[m]] else []
  else
    (compositions m.toNatClampNeg k).map (·.map Int64.ofNat)

end Tuning.Finite
