import Tuning.Decimal.Text
import Tuning.Text.Bytes

/-! # JSON documents -/

namespace Tuning

/-- A JSON document. A number keeps its text, and an object its fields in order with repetitions. -/
inductive Json where
  | null
  | bool (b : Bool)
  | number (text : String)
  | string (s : String)
  /-- A string with bytes that belong to no character. It is written, but never read. -/
  | garbled (spelled : List (Option Char))
  | array (items : List Json)
  | object (fields : List (String × Json))
  deriving Repr, Inhabited

namespace Json

/-- The document of an integer. -/
def int (n : Int) : Json :=
  number (toString n)

/-- The document of a finite double. -/
def float (x : Float) : Json :=
  number (documentNumber x)

/-- A field that is left out when `present` is false. -/
def field? (present : Bool) (name : String) (value : Json) : List (String × Json) :=
  if present then [(name, value)] else []

/-- The last value of a field of an object. -/
def field (name : String) : Json → Option Json
  | object fields => (fields.reverse.find? (·.1 == name)).map (·.2)
  | _ => none

/-- How deep arrays and objects can stand in each other where texts are read or indented. -/
def maxDepth : Nat := 10000

mutual

/-- How deep arrays and objects stand in each other. -/
def depth : Json → Nat
  | array items => depthOfItems items + 1
  | object fields => depthOfFields fields + 1
  | _ => 0

/-- How deep arrays and objects stand in each other in the items of an array. -/
def depthOfItems : List Json → Nat
  | [] => 0
  | item :: rest => max item.depth (depthOfItems rest)

/-- How deep arrays and objects stand in each other in the fields of an object. -/
def depthOfFields : List (String × Json) → Nat
  | [] => 0
  | (_, value) :: rest => max value.depth (depthOfFields rest)

end

end Json

end Tuning
