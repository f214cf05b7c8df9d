import Tuning.Gene.Fault
import Tuning.Gene.Walk

/-! # One of several atoms -/

namespace Tuning

/-- A choice among atoms, with the atom it holds. -/
structure Choice where
  /-- The atoms, each once. -/
  atoms : List Value
  value : Value
  rate : Float

namespace Choice

/-- Keeps the first of every group of same atoms. -/
def distinct (atoms : List Value) : List Value :=
  atoms.foldl (fun kept v => if kept.any (·.same v) then kept else kept ++ [v]) []

/-- A choice that holds its first atom. Every element must be an atom; repetitions are dropped. -/
def make (choices : List Value) (rate : Float) : Except DomainFault Choice := do
  match choices with
  | [] => .error .noChoices
  | first :: _ =>
    checkRate rate
    match choices.find? (!·.isAtom) with
    | some v => .error (.notAtom v)
    | none => return { atoms := distinct choices, value := first, rate }

/-- How many atoms there are. -/
def card (c : Choice) : Nat :=
  c.atoms.length

/-- The same choice with its atom at an index that is moved into range. -/
def select (c : Choice) (i : Int) : Choice :=
  { c with value := c.atoms.getD (min i.toNat (c.card - 1)) c.value }

/-- Draws one of the atoms. -/
def reset (c : Choice) : Draw Choice :=
  return c.select (← Draw.below c.card)

/-- The atoms that are not the current one. -/
def others (c : Choice) : List Value :=
  c.atoms.filter fun v => !v.same c.value

/-- Moves to another atom, if there is one. -/
def step (c : Choice) : Option (Draw Choice) :=
  if c.others.isEmpty then none
  else some do return { c with value := c.others.getD (← Draw.below c.others.length) c.value }

/-- Moves to other atoms for as long as rolls succeed. -/
def mutate (c : Choice) : Draw Choice :=
  Draw.walk c.rate step c

/-- Holds the atom that is the same as a value. -/
def assign (c : Choice) (v : Value) : Except DomainFault Choice :=
  match c.atoms.find? (·.same v) with
  | some atom => .ok { c with value := atom }
  | none => .error (.unknownAtom v c.atoms)

/-- Whether two choices hold the same atom. -/
def same (c d : Choice) : Bool :=
  c.value.same d.value

end Choice

end Tuning
