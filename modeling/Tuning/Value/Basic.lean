import Tuning.Text.Bytes
import Tuning.Time.Instant

/-! # Values

A parameter takes values whose type is known only when they are read: numbers of several widths,
texts, truth values, dates, and lists and mappings of them. -/

namespace Tuning

/-- A value with its dynamic type. -/
inductive Value where
  | null
  | bool (b : Bool)
  /-- A machine integer. -/
  | int (n : Int64)
  /-- A signed integer of a declared width. -/
  | signed (width : Nat) (n : Int64)
  /-- An unsigned integer of a declared width. -/
  | unsigned (width : Nat) (n : UInt64)
  | float (x : Float)
  /-- A single-precision number. -/
  | single (x : Float32)
  | text (s : String)
  | garbled (s : Garbled)
  /-- A moment. A time zone that is not shared with other moments has a number of its own. -/
  | time (t : Instant) (zone : Option Nat)
  /-- A list of machine integers. -/
  | ints (xs : List Int64)
  | list (items : List Value)
  /-- A mapping, its names in increasing order. -/
  | map (fields : List (String × Value))
  /-- A mapping whose keys are values of any type, in increasing order. -/
  | table (entries : List (Value × Value))
  deriving Inhabited

/-- A number apart from the width it is stored in. -/
inductive Numeric where
  | whole (n : Int)
  | real (x : Float)

namespace Numeric

/-- The nearest double. -/
def toFloat : Numeric → Float
  | whole n => Float.ofInt n
  | real x => x

/-- Numbers are the same by value; as soon as one of them is a double, both are compared as doubles. -/
def same : Numeric → Numeric → Bool
  | whole m, whole n => m == n
  | a, b => a.toFloat == b.toFloat

end Numeric

namespace Value

/-- The number that a value is. -/
def numeric? : Value → Option Numeric
  | int n => some (.whole n.toInt)
  | signed _ n => some (.whole n.toInt)
  | unsigned _ n => some (.whole n.toNat)
  | float x => some (.real x)
  | single x => some (.real x.toFloat)
  | _ => none

/-- The value of a text that is given by its bytes. -/
def ofBytes (bytes : List UInt8) : Value :=
  if stray : none ∈ Text.spelled bytes then garbled ⟨bytes, stray⟩ else text (Text.ofBytes bytes)

/-- Whether a value can serve as an atom of a choice: it is present and is neither list nor mapping. -/
def isAtom : Value → Bool
  | null | ints _ | list _ | map _ | table _ => false
  | _ => true

/-- Whether two values are the same atom. Numbers compare by value across widths; values of other
types agree when they are of one type and equal, moments also in their zones. Lists and mappings are
never the same. -/
def same (a b : Value) : Bool :=
  match a.numeric?, b.numeric? with
  | some x, some y => x.same y
  | _, _ =>
    match a, b with
    | null, null => true
    | bool x, bool y => x == y
    | text x, text y => x == y
    | garbled x, garbled y => x == y
    | time x zone, time y zone' => x == y && zone == zone'
    | _, _ => false

/-- The name of the type of a value. -/
def typeName : Value → String
  | null => "<nil>"
  | bool _ => "bool"
  | int _ => "int"
  | signed width _ => "int" ++ toString width
  | unsigned width _ => "uint" ++ toString width
  | float _ => "float64"
  | single _ => "float32"
  | text _ | garbled _ => "string"
  | time .. => "time.Time"
  | ints _ => "[]int"
  | list _ => "[]interface \x7b\x7d"
  | map _ => "map[string]interface \x7b\x7d"
  | table _ => "map[interface \x7b\x7d]interface \x7b\x7d"

end Value

/-- Sets a name of a mapping whose names increase; a value it already has is replaced. -/
def insertField {α : Type} (name : String) (value : α) : List (String × α) → List (String × α)
  | [] => [(name, value)]
  | (other, x) :: rest =>
    if name < other then (name, value) :: (other, x) :: rest
    else if name = other then (name, value) :: rest
    else (other, x) :: insertField name value rest

/-- The mapping that names values one after another; of two values for a name the later one stays. -/
def mappingOf {α : Type} (fields : List (String × α)) : List (String × α) :=
  fields.foldl (fun done (name, value) => insertField name value done) []

/-- A candidate: what each parameter name stands for, names increasing. -/
abbrev Candidate := List (String × Value)

/-- The value a candidate has for a name. -/
def Candidate.find? (c : Candidate) (name : String) : Option Value :=
  c.lookup name

end Tuning
