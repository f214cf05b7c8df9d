/-! # Finite families by index

A family knows its size and its element at every index below it, so that one element can be picked
without listing all of them. -/

namespace Tuning

/-- A finite family of elements; `get` is meant for indices below `size`. -/
structure Indexed (α : Type) where
  size : Nat
  get : Nat → α

namespace Indexed

variable {α β : Type}

/-- The elements in order. -/
def toList (x : Indexed α) : List α :=
  (List.range x.size).map x.get

/-- The family of one element. -/
def single (a : α) : Indexed α :=
  ⟨1, fun _ => a⟩

/-- The numbers below `n`. -/
def upTo (n : Nat) : Indexed Nat :=
  ⟨n, id⟩

/-- Applies a function to every element. -/
def map (f : α → β) (x : Indexed α) : Indexed β :=
  ⟨x.size, fun i => f (x.get i)⟩

/-- All pairs; the second part varies fastest. -/
def product (x : Indexed α) (y : Indexed β) : Indexed (α × β) :=
  ⟨x.size * y.size, fun i => (x.get (i / y.size), y.get (i % y.size))⟩

/-- The element at an index that is moved into range first. -/
def clamped (x : Indexed α) (i : Int) : α :=
  x.get (min i.toNat (x.size - 1))

@[simp] theorem length_toList (x : Indexed α) : x.toList.length = x.size := by
  simp [toList]

@[simp] theorem toList_map (f : α → β) (x : Indexed α) : (x.map f).toList = x.toList.map f := by
  simp [toList, map]

@[simp] theorem toList_single (a : α) : (single a).toList = [a] := rfl

@[simp] theorem toList_upTo (n : Nat) : (upTo n).toList = List.range n := by
  simp [toList, upTo]

end Indexed

end Tuning
