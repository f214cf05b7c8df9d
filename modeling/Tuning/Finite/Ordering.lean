import Tuning.Finite.Indexed

/-! # Orderings of the first numbers -/

namespace Tuning.Finite

/-- Makes room for `k`: numbers from `k` on move up by one. -/
def raise (k j : Nat) : Nat :=
  if k ≤ j then j + 1 else j

/-- The orderings of `0, …, n - 1` in lexicographic order: a first number, then an ordering of the
other numbers. -/
def orderings : (n : Nat) → Indexed (List Nat)
  | 0 => .single []
  | n + 1 =>
    (Indexed.product (.upTo (n + 1)) (orderings n)).map fun (first, rest) =>
      first :: rest.map (raise first)

/-- Whether a list holds each of the numbers `0, …, n - 1` once. -/
def isOrdering (xs : List Int64) (n : Int) : Bool :=
  (xs.length : Int) == n && xs.all (fun x => 0 ≤ x.toInt && x.toInt < n) && decide xs.Nodup

/-- Exchanges the elements at two positions. -/
def swap (xs : List Nat) (i j : Nat) : List Nat :=
  (xs.set i (xs.getD j 0)).set j (xs.getD i 0)

end Tuning.Finite
