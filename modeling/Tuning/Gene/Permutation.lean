import Tuning.Finite.Ordering
import Tuning.Gene.Fault
import Tuning.Gene.Walk

/-! # An ordering of the first numbers -/

namespace Tuning

/-- An ordering of `0, …, size - 1`. -/
structure Permutation where
  order : List Nat
  rate : Float

namespace Permutation

/-- The identity ordering of a size between one and ten. -/
def make (size : Int64) (rate : Float) : Except DomainFault Permutation := do
  if size.toInt < 1 ∨ DomainFault.maxOrderingSize < size.toInt then .error (.orderingSize size)
  checkRate rate
  return { order := List.range size.toInt.toNat, rate }

/-- How many numbers are ordered. -/
def size (p : Permutation) : Nat :=
  p.order.length

/-- All orderings of the size. -/
def domain (p : Permutation) : Indexed (List Nat) :=
  Finite.orderings p.size

/-- How many orderings there are. -/
def card (p : Permutation) : Nat :=
  p.domain.size

/-- The ordering at an index that is moved into range. -/
def select (p : Permutation) (i : Int) : Permutation :=
  { p with order := p.domain.clamped i }

/-- Draws an ordering. -/
def reset (p : Permutation) : Draw Permutation :=
  return { p with order := p.domain.get (← Draw.below p.card) }

/-- Exchanges two positions. -/
def step (p : Permutation) : Option (Draw Permutation) :=
  some do
    let i ← Draw.below p.size
    let j ← Draw.below (p.size - 1)
    return { p with order := Finite.swap p.order i (Finite.raise i j) }

/-- Exchanges positions for as long as rolls succeed; a single number is never rolled for. -/
def mutate (p : Permutation) : Draw Permutation :=
  if p.size ≤ 1 then pure p else Draw.walk p.rate step p

/-- Holds an ordering of the same size. -/
def assign (p : Permutation) : Value → Except DomainFault Permutation
  | .ints xs =>
    if Finite.isOrdering xs p.size then .ok { p with order := xs.map (·.toInt.toNat) }
    else .error (.notOrdering xs p.size)
  | v => .error (.notOrderingList v)

/-- Whether two orderings are equal. -/
def same (p q : Permutation) : Bool :=
  p.order == q.order

/-- The ordering as machine integers. -/
def value (p : Permutation) : List Int64 :=
  p.order.map Int64.ofNat

end Permutation

end Tuning
