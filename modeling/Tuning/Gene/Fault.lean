import Tuning.Value.Text

/-! # What can be wrong with a domain or a value for it -/

namespace Tuning

/-- Why a domain or a value is refused. -/
inductive DomainFault where
  | noChoices
  | noNumbers
  | notAtom (v : Value)
  | rate (x : Float)
  | orderingSize (n : Int64)
  | product (n : Int64)
  | slots (n : Int64)
  /-- No list can hold so many factors. -/
  | tooManySlots (n : Int64)
  | unknownAtom (v : Value) (atoms : List Value)
  | notInteger (v : Value)
  | unknownNumber (n : Int64) (numbers : List Int64)
  | notOrderingList (v : Value)
  | notOrdering (xs : List Int64) (size : Nat)
  | notFactorList (v : Value)
  | slotCount (xs : List Int64) (slots : Nat)
  | nonPositiveFactor (xs : List Int64)
  | wrongProduct (xs : List Int64) (found wanted : Int64)

namespace DomainFault

/-- The largest size of an ordering. -/
def maxOrderingSize : Nat := 10

/-- The words for a fault. -/
def message : DomainFault → String
  | noChoices => "choice domain is empty"
  | noNumbers => "discrete domain is empty"
  | notAtom v => "choice atom " ++ v.message ++ " is not comparable"
  | rate x => "mutate rate " ++ messageNumber x ++ " outside [0, 1)"
  | orderingSize n =>
    "permutation size " ++ toString n.toInt ++ " outside [1, " ++ toString maxOrderingSize ++ "]"
  | product n => "factor product " ++ toString n.toInt ++ " must be at least 1"
  | slots n => "factor slot count " ++ toString n.toInt ++ " must be at least 1"
  | tooManySlots n => "no room for " ++ toString n.toInt ++ " factors"
  | unknownAtom v atoms => v.message ++ " is not one of " ++ (Value.list atoms).message
  | notInteger v => "discrete value " ++ v.message ++ " is not an integer"
  | unknownNumber n numbers => toString n.toInt ++ " is not one of " ++ intsMessage numbers
  | notOrderingList v => "permutation value " ++ v.message ++ " is not an integer list"
  | notOrdering xs size =>
    intsMessage xs ++ " is not a permutation of 0.." ++ toString ((size : Int) - 1)
  | notFactorList v => "factor value " ++ v.message ++ " is not an integer list"
  | slotCount xs wanted =>
    "partition " ++ intsMessage xs ++ " has " ++ toString xs.length ++ " slots, want "
      ++ toString wanted
  | nonPositiveFactor xs => "partition " ++ intsMessage xs ++ " has a non-positive factor"
  | wrongProduct xs found wanted =>
    "partition " ++ intsMessage xs ++ " multiplies to " ++ toString found.toInt ++ ", want "
      ++ toString wanted.toInt

end DomainFault

/-- A mutation rate lies in `[0, 1)`; what compares with nothing is let through. -/
def checkRate (rate : Float) : Except DomainFault Unit :=
  if rate < 0.0 || 1.0 ≤ rate then .error (.rate rate) else .ok ()

end Tuning
