import Tuning.Finite.Primes
import Tuning.Finite.Composition

/-! # Factorisations into slots

The multiplicity of every prime of a product is split over the slots. -/

namespace Tuning.Finite

/-- Multiplies every slot with a power of a prime. -/
def scale (prime : Int64) (slots : List Int64) (exponents : List Nat) : List Int64 :=
  List.zipWith (fun x e => x * power prime e) slots exponents

/-- All ways to multiply prime powers into slots; the last prime varies fastest. -/
def spreadOver (slots : List Int64) : List (Int64 × Nat) → List (List Int64)
  | [] => [slots]
  | (prime, multiplicity) :: rest =>
    (compositions multiplicity slots.length).flatMap fun exponents =>
      spreadOver (scale prime slots exponents) rest

/-- All lists of `slots` numbers that multiply to a product. -/
def partitions (product : Int64) (slots : Nat) : List (List Int64) :=
  spreadOver (List.replicate slots 1) (primePowers product)

/-- The family of the ways to split prime powers over a number of slots. -/
def exponentFamily (slots : Nat) : List (Int64 × Nat) → Indexed (List (Int64 × List Nat))
  | [] => .single []
  | (prime, multiplicity) :: rest =>
    (Indexed.product (compositionFamily multiplicity slots) (exponentFamily slots rest)).map
      fun (exponents, others) => (prime, exponents) :: others

/-- The family of the lists of `slots` numbers that prime powers multiply to. -/
def partitionFamily (powers : List (Int64 × Nat)) (slots : Nat) : Indexed (List Int64) :=
  (exponentFamily slots powers).map fun spread =>
    spread.foldl (fun parts (prime, exponents) => scale prime parts exponents)
      (List.replicate slots 1)

end Tuning.Finite
