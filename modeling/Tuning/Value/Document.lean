import Tuning.Value.Basic
import Tuning.Json.Printer
import Tuning.Json.Record
import Tuning.Value.Text

/-! # Values in documents

Every value but a number that is not finite, a date outside the four-digit years and a mapping with keys
of several types has a JSON document. Reading a document back gives doubles for all numbers. -/

namespace Tuning

/-- Why a value has no document. -/
inductive EncodeError where
  /-- A number that is not finite, by its text. -/
  | notFinite (text : String)
  /-- A date that cannot be written. -/
  | timeRange
  /-- A value of a type without documents. -/
  | unsupported (typeName : String)
  /-- A document that is too deep to be indented. -/
  | tooDeep
  deriving DecidableEq, Repr

/-- The words for a value without document. -/
def EncodeError.message : EncodeError → String
  | notFinite text => "json: unsupported value: " ++ text
  | timeRange => "..."
  | unsupported typeName => "json: unsupported type: " ++ typeName
  | tooDeep => "..."

/-- The document of a double. -/
def encodeFloat (x : Float) : Except EncodeError Json :=
  if x.isNaN || x.isInf then .error (.notFinite (messageNumber x)) else .ok (.float x)

/-- The document of an instant. -/
def encodeInstant (t : Instant) : Except EncodeError Json :=
  match t.document? with
  | some s => .ok (.string s)
  | none => .error .timeRange

namespace Value

mutual

/-- The document of a value. -/
def encode : Value → Except EncodeError Json
  | null => .ok .null
  | bool b => .ok (.bool b)
  | int n => .ok (.int n.toInt)
  | signed _ n => .ok (.int n.toInt)
  | unsigned _ n => .ok (.int n.toNat)
  | float x => encodeFloat x
  | single x =>
    if x.isNaN || x.isInf then .error (.notFinite (messageSingle x))
    else .ok (.number (documentSingle x))
  | text s => .ok (.string s)
  | garbled s => .ok (.garbled (Text.spelled s.bytes))
  | time t _ => encodeInstant t
  | ints xs => .ok (.array (xs.map fun n => .int n.toInt))
  | list items => return .array (← encodeItems items)
  | map fields => return .object (← encodeFields fields)
  | table entries => .error (.unsupported (table entries).typeName)

/-- The documents of the items of a list. -/
def encodeItems : List Value → Except EncodeError (List Json)
  | [] => .ok []
  | item :: rest => return (← encode item) :: (← encodeItems rest)

/-- The documents of the fields of a mapping. -/
def encodeFields : List (String × Value) → Except EncodeError (List (String × Json))
  | [] => .ok []
  | (name, value) :: rest => return (name, ← encode value) :: (← encodeFields rest)

end

mutual

/-- The value of a document: numbers become doubles. -/
def ofJson? : Json → Option Value
  | .null => some null
  | .bool b => some (bool b)
  | .number digits => (readFloat? digits).map float
  | .string s => some (text s)
  | .garbled spelled => some (text (Text.shown spelled))
  | .array items => (itemsOfJson? items).map list
  | .object fields => (fieldsOfJson? fields).map fun fields => map (mappingOf fields)

/-- The values of the items of an array. -/
def itemsOfJson? : List Json → Option (List Value)
  | [] => some []
  | item :: rest => do return (← ofJson? item) :: (← itemsOfJson? rest)

/-- The values of the fields of an object. -/
def fieldsOfJson? : List (String × Json) → Option (List (String × Value))
  | [] => some []
  | (name, value) :: rest => do return (name, ← ofJson? value) :: (← fieldsOfJson? rest)

end

end Value

namespace Candidate

/-- The document of a candidate. -/
def encode (c : Candidate) : Except EncodeError Json :=
  (Value.map c).encode

/-- The key of a candidate: its compact document, or its text when a value has no document. -/
def key (c : Candidate) : String :=
  match c.encode with
  | .ok j => j.compact
  | .error _ => (Value.map c).message

end Candidate

end Tuning
