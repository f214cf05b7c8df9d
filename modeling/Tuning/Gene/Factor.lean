import Tuning.Finite.Partition
import Tuning.Gene.Fault
import Tuning.Gene.Walk

/-! # A product split into factors -/

namespace Tuning

/-- A product and a list of factors of it. -/
structure Factor where
  product : Int64
  slots : Nat
  /-- The primes of the product with their multiplicities. -/
  powers : List (Int64 × Nat)
  parts : List Int64
  rate : Float

/-- A transfer of a prime from one slot to another. -/
structure Transfer where
  source : Nat
  target : Nat
  prime : Int64

namespace Factor

/-- The number of factors that a list can hold. -/
def largestSlots : Int64 := 35184372088832

/-- Holds the whole product in the first slot. -/
def make (product slots : Int64) (rate : Float) : Except DomainFault Factor := do
  if product < 1 then .error (.product product)
  if slots < 1 then .error (.slots slots)
  checkRate rate
  if largestSlots < slots then .error (.tooManySlots slots)
  let count := slots.toInt.toNat
  return { product, slots := count, powers := Finite.primePowers product
           parts := product :: List.replicate (count - 1) 1, rate }

/-- All lists of factors with the product. -/
def domain (f : Factor) : Indexed (List Int64) :=
  Finite.partitionFamily f.powers f.slots

/-- How many lists of factors there are. -/
def card (f : Factor) : Nat :=
  f.domain.size

/-- The factors at an index that is moved into range. -/
def select (f : Factor) (i : Int) : Factor :=
  { f with parts := f.domain.clamped i }

/-- Draws a list of factors. -/
def reset (f : Factor) : Draw Factor :=
  return { f with parts := f.domain.get (← Draw.below f.card) }

/-- The transfers that the current factors allow, by source, target and prime. -/
def transfers (f : Factor) : List Transfer :=
  (List.range f.slots).flatMap fun source =>
    (List.range f.slots).flatMap fun target =>
      if source = target then []
      else f.powers.filterMap fun (prime, _) =>
        if f.parts.getD source 1 % prime == 0 then some { source, target, prime } else none

/-- Carries a transfer out. -/
def apply (f : Factor) (t : Transfer) : Factor :=
  { f with parts := (f.parts.modify t.source (· / t.prime)).modify t.target (· * t.prime) }

/-- Transfers one prime; without transfers the factors stay. -/
def step (f : Factor) : Option (Draw Factor) :=
  let options := f.transfers
  if options.isEmpty then some (pure f)
  else some do
    match options[← Draw.below options.length]? with
    | some t => return f.apply t
    | none => return f

/-- Transfers primes for as long as rolls succeed. -/
def mutate (f : Factor) : Draw Factor :=
  Draw.walk f.rate step f

/-- The product of a list in 64-bit arithmetic. -/
def multiply (xs : List Int64) : Int64 :=
  xs.foldl (· * ·) 1

/-- Holds positive factors, one for each slot, with the product in 64-bit arithmetic. -/
def assign (f : Factor) : Value → Except DomainFault Factor
  | .ints xs =>
    if xs.length ≠ f.slots then .error (.slotCount xs f.slots)
    else if xs.any (· < 1) then .error (.nonPositiveFactor xs)
    else if multiply xs ≠ f.product then .error (.wrongProduct xs (multiply xs) f.product)
    else .ok { f with parts := xs }
  | v => .error (.notFactorList v)

/-- Whether two lists of factors are equal. -/
def same (f g : Factor) : Bool :=
  f.parts == g.parts

end Factor

end Tuning
