import Tuning.Finite.Bisection
import Tuning.Gene.Fault
import Tuning.Gene.Walk

/-! # One of several integers in order -/

namespace Tuning

/-- A position among increasing integers. -/
structure Discrete where
  /-- The integers, increasing. -/
  numbers : List Int64
  rank : Nat
  rate : Float

namespace Discrete

/-- The integers of a list in increasing order, each once. -/
def increasing (numbers : List Int64) : List Int64 :=
  (numbers.mergeSort (· ≤ ·)).eraseReps

/-- Holds the smallest of the integers. -/
def make (numbers : List Int64) (rate : Float) : Except DomainFault Discrete := do
  if numbers.isEmpty then .error .noNumbers
  checkRate rate
  return { numbers := increasing numbers, rank := 0, rate }

/-- How many integers there are. -/
def card (d : Discrete) : Nat :=
  d.numbers.length

/-- The current integer. -/
def value (d : Discrete) : Int64 :=
  d.numbers.getD d.rank 0

/-- The same integers with the position at an index that is moved into range. -/
def select (d : Discrete) (i : Int) : Discrete :=
  { d with rank := min i.toNat (d.card - 1) }

/-- Draws a position. -/
def reset (d : Discrete) : Draw Discrete :=
  return { d with rank := ← Draw.below d.card }

/-- Moves to a neighbouring position; a single integer has none. -/
def step (d : Discrete) : Option (Draw Discrete) :=
  if d.card ≤ 1 then none
  else if d.rank = 0 then some (pure { d with rank := d.rank + 1 })
  else if d.rank = d.card - 1 then some (pure { d with rank := d.rank - 1 })
  else some do
    if (← Draw.below 2) = 0 then return { d with rank := d.rank - 1 }
    else return { d with rank := d.rank + 1 }

/-- Moves to neighbours for as long as rolls succeed. -/
def mutate (d : Discrete) : Draw Discrete :=
  Draw.walk d.rate step d

/-- Holds an integer of the domain. -/
def assign (d : Discrete) : Value → Except DomainFault Discrete
  | .int n =>
    let rank := Finite.firstIndex (n ≤ ·) d.numbers
    if d.numbers[rank]? = some n then .ok { d with rank } else .error (.unknownNumber n d.numbers)
  | v => .error (.notInteger v)

/-- Whether two positions hold the same integer. -/
def same (d e : Discrete) : Bool :=
  d.value == e.value

end Discrete

end Tuning
