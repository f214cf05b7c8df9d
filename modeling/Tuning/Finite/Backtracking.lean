import Tuning.Finite.Ordering

/-! # Orderings by backtracking

The search for orderings keeps one table of the numbers in use and one list of the numbers chosen. A
choice is taken back once the search below it is done. -/

namespace Tuning.Finite

/-- The numbers in use, the numbers chosen in order, and the orderings found so far. -/
structure Trail where
  used : List Bool
  chosen : List Int64
  found : Array (List Int64)

namespace Trail

/-- None of `n` numbers is in use. -/
def start (n : Nat) : Trail :=
  { used := List.replicate n false, chosen := [], found := #[] }

/-- Chooses a number. -/
def choose (t : Trail) (v : Nat) : Trail :=
  { t with used := t.used.set v true, chosen := t.chosen ++ [Int64.ofNat v] }

/-- Takes the choice of a number back. -/
def retract (t : Trail) (v : Nat) : Trail :=
  { t with used := t.used.set v false, chosen := t.chosen.dropLast }

/-- Keeps the numbers chosen as an ordering. -/
def record (t : Trail) : Trail :=
  { t with found := t.found.push t.chosen }

/-- Goes on with a number chosen, unless it is in use. -/
def attempt (next : Trail → Trail) (t : Trail) (v : Nat) : Trail :=
  if t.used.getD v false then t else (next (t.choose v)).retract v

/-- Searches all choices for the places that are left. -/
def walk : (left : Nat) → Trail → Trail
  | 0, t => t.record
  | left + 1, t => (List.range t.used.length).foldl (attempt (walk left)) t

end Trail

/-- The factorial in 64-bit arithmetic. -/
def factorial (n : Int64) : Int64 :=
  n.toInt.toNat.fold (fun i _ product => product * Int64.ofNat (i + 1)) 1

/-- Whether a list can hold so many orderings. Each takes 24 bytes, and there are `2 ^ 48` at most. -/
def hasRoom (count : Int) : Bool :=
  0 ≤ count && 24 * count ≤ 281474976710656

/-- All orderings of `0, …, n - 1`, if there is room for them. Room is asked for in advance, for as many as
the factorial in 64-bit arithmetic says, and there has to be room for those that are found. -/
def listing (n : Int64) : Option (List (List Int64)) :=
  if 0 ≤ n ∧ hasRoom (factorial n).toInt then
    let size := n.toInt.toNat
    let found := (Trail.walk size (.start size)).found
    if hasRoom found.size then some found.toList else none
  else none

end Tuning.Finite
