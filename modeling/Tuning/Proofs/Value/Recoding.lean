import Tuning.Proofs.Decimal.Brevity
import Tuning.Proofs.Value.Normal

/-! # Documents that are written again

A value that has come back from a document has a document as well. It is the same one if and only if
all texts in the value are Unicode and every whole number is what the nearest double is written as, and
up to 2 ^ 53 it is. -/

namespace Tuning

/-! ## Mappings -/

section Mapping

variable {α : Type}

end Mapping

namespace Value

mutual

/-- The whole numbers in a value. -/
def wholes : Value → List Int
  | int n => [n.toInt]
  | signed _ n => [n.toInt]
  | unsigned _ n => [n.toNat]
  | ints xs => xs.map Int64.toInt
  | list items => wholesOfItems items
  | map fields => wholesOfFields fields
  | _ => []

/-- The whole numbers in items. -/
def wholesOfItems : List Value → List Int
  | [] => []
  | item :: rest => item.wholes ++ wholesOfItems rest

/-- The whole numbers in fields. -/
def wholesOfFields : List (String × Value) → List Int
  | [] => []
  | (_, value) :: rest => value.wholes ++ wholesOfFields rest

end

mutual

/-- Whether all texts in a value are Unicode. -/
def isUnicode : Value → Bool
  | garbled _ => false
  | list items => isUnicodeOfItems items
  | map fields => isUnicodeOfFields fields
  | _ => true

/-- Whether all texts in items are Unicode. -/
def isUnicodeOfItems : List Value → Bool
  | [] => true
  | item :: rest => item.isUnicode && isUnicodeOfItems rest

/-- Whether all texts in the values of fields are Unicode. -/
def isUnicodeOfFields : List (String × Value) → Bool
  | [] => true
  | (_, value) :: rest => value.isUnicode && isUnicodeOfFields rest

end

mutual

/-- The names of every mapping in a value increase. -/
def Ordered : Value → Prop
  | list items => OrderedItems items
  | map fields => (fields.map (·.1)).Pairwise (· < ·) ∧ OrderedFields fields
  | _ => True

/-- The names of every mapping in items increase. -/
def OrderedItems : List Value → Prop
  | [] => True
  | item :: rest => item.Ordered ∧ OrderedItems rest

/-- The names of every mapping in the values of fields increase. -/
def OrderedFields : List (String × Value) → Prop
  | [] => True
  | (_, value) :: rest => value.Ordered ∧ OrderedFields rest

end

/-- A whole number is written as the nearest double is. -/
def Kept (k : Int) : Prop :=
  documentNumber (Float.ofInt k) = toString k

end Value

end Tuning
