import Tuning.Value.Basic
import Tuning.Decimal.Text

/-! # Values in messages -/

namespace Tuning

/-- Texts between brackets, separated by blanks. -/
def bracketText (items : List String) : String :=
  "[" ++ " ".intercalate items ++ "]"

namespace Value

mutual

/-- The text of a value in a message. -/
def message : Value → String
  | null => "<nil>"
  | bool b => if b then "true" else "false"
  | int n => toString n.toInt
  | signed _ n => toString n.toInt
  | unsigned _ n => toString n.toNat
  | float x => messageNumber x
  | single x => messageSingle x
  | text s => s
  | garbled s => Text.ofBytes s.bytes
  | time t _ => t.message
  | ints xs => bracketText (xs.map fun n => toString n.toInt)
  | list items => bracketText (messageItems items)
  | map fields => "map" ++ bracketText (messageFields fields)
  | table entries => "map" ++ bracketText (messageEntries entries)

/-- The texts of the items of a list. -/
def messageItems : List Value → List String
  | [] => []
  | item :: rest => message item :: messageItems rest

/-- The texts of the fields of a mapping. -/
def messageFields : List (String × Value) → List String
  | [] => []
  | (name, value) :: rest => (name ++ ":" ++ message value) :: messageFields rest

/-- The texts of the entries of a mapping with keys of any type. -/
def messageEntries : List (Value × Value) → List String
  | [] => []
  | (key, value) :: rest => (message key ++ ":" ++ message value) :: messageEntries rest

end

end Value

/-- The text of machine integers in a message. -/
def intsMessage (xs : List Int64) : String :=
  (Value.ints xs).message

end Tuning
