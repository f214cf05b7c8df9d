import Tuning.Yaml.Node
import Tuning.Yaml.Scalar
import Tuning.Decimal.Binary
import Tuning.Value.Key

/-! # The values of nodes

A mention stands for the node it mentions. Since a few mentions can stand for a great many nodes, the
nodes that are visited are counted, and too large a share of mentioned ones is refused. A node that
does not fit where it stands is passed over, and what was read around it is worthless; only its being
flawed is kept. -/

namespace Tuning.Yaml

/-- Why reading a value stops. -/
inductive Halt where
  /-- The node has no such value. -/
  | invalid
  /-- A collection was to be remembered as a key while fields are merged. -/
  | unhashable
  deriving DecidableEq, Repr

/-- What reading a value keeps in mind. -/
structure Tally where
  /-- How many nodes have been visited. -/
  visits : Nat := 0
  /-- How many of them were mentioned. -/
  mentioned : Nat := 0
  /-- Whether a node did not fit. -/
  flawed : Bool := false
  /-- How many time zones that are not shared have been met. -/
  zones : Nat := 0

/-- Steps of reading a value. -/
abbrev Decoder := StateT Tally (Except Halt)

namespace Decoder

/-- The share of mentioned nodes that is allowed; the more nodes, the smaller it is. -/
def allowedShare (visits : Nat) : Float :=
  if visits ≤ 400000 then 0.99
  else if 4000000 ≤ visits then 0.10
  else 0.99 - 0.89 * (Float.ofNat (visits - 400000) / 3600000.0)

/-- Counts a node; `depth` mentions lead to it. -/
def visit (depth : Nat) : Decoder Unit := do
  let t ← get
  let visits := t.visits + 1
  let mentioned := if depth == 0 then t.mentioned else t.mentioned + 1
  if 100 < mentioned && 1000 < visits
      && allowedShare visits < Float.ofNat mentioned / Float.ofNat visits then throw .invalid
  set { t with visits, mentioned }

/-- Notes that a node does not fit. -/
def spoil : Decoder Unit :=
  modify fun t => { t with flawed := true }

/-- Passes over a node that does not fit. -/
def flaw {α : Type} : Decoder (Option α) := do
  spoil
  return none

/-- Gives a moment in a time zone that is not shared the number of that zone. -/
def stamp : Value → Decoder Value
  | .time t none => do
    if t.sharesZone then return .time t none
    let zones := (← get).zones
    modify fun t => { t with zones := zones + 1 }
    return .time t (some zones)
  | v => return v

/-- The value of a scalar. -/
def scalar (tag text : String) : Decoder Value :=
  match scalarValue? tag text with
  | some v => stamp v
  | none => throw .invalid

/-- Reads a value from the beginning, when so many time zones have been met before; gives their number
afterwards as well. -/
def run {α : Type} (step : Decoder α) (zones : Nat) : Except Halt (α × Nat) := do
  let (result, t) ← step { zones }
  if t.flawed then .error .invalid else .ok (result, t.zones)

end Decoder

open Decoder

namespace Node

mutual

/-- The tag of the type of a node. -/
def typeTag : Node → String
  | scalar _ tag text => if tag.isEmpty then tagOf (plainValue text) else tag
  | sequence _ tag _ => if tag.isEmpty then "!!seq" else tag
  | mapping _ tag _ => if tag.isEmpty then "!!map" else tag
  | reference _ _ target => targetTag target

/-- The tag of the target of a mention. -/
def targetTag : Option Node → String
  | none => "!!map"
  | some node => typeTag node

end

/-- Whether the keys of a mapping are all texts. -/
def hasNames (fields : List (Node × Node)) : Bool :=
  fields.all fun (key, _) => key.typeTag == "!!str" || key.typeTag == "!!merge"

/-- Whether a mapping merges fields of others. -/
def merges (fields : List (Node × Node)) : Bool :=
  fields.any fun (key, _) => key.isMerge

mutual

/-- The text of a node as it is written; null has none. -/
def text (depth : Nat) : Node → Decoder (Option String)
  | scalar _ tag text => do
    visit depth
    match ← Decoder.scalar tag text with
    | .null => return none
    | .text s => return some s
    | .garbled s => return some (Text.ofBytes s.bytes)
    | _ => return some text
  | sequence .. | mapping .. => visit depth *> flaw
  | reference _ _ target => visit depth *> targetText (depth + 1) target

/-- The text of the target of a mention. -/
def targetText (depth : Nat) : Option Node → Decoder (Option String)
  | none => throw .invalid
  | some node => text depth node

end

/-- The entries of a mapping that have been read. -/
structure Entries where
  /-- Whether the keys are texts. -/
  named : Bool
  found : List (Value × Value) := []
  /-- While fields are merged: the keys that are taken. -/
  taken : Option (List Value) := none

namespace Entries

/-- The mapping of entries. -/
def toValue (e : Entries) : Value :=
  if e.named then
    .map (e.found.filterMap fun (key, v) => match key with
      | .text name => some (name, v)
      | _ => none)
  else .table e.found

/-- Takes a key. While fields are merged, a key that is taken already is not taken again. -/
def claim (key : Value) (taken : Option (List Value)) : Decoder (Bool × Option (List Value)) := do
  let some keys := taken | return (true, none)
  if !key.isKey then throw .unhashable
  if keys.any key.sameKey then return (false, taken) else return (true, some (key :: keys))

end Entries

mutual

/-- The value of a node. -/
def value (depth : Nat) : Node → Decoder (Option Value)
  | scalar _ tag text => do
    visit depth
    return some (← Decoder.scalar tag text)
  | sequence _ _ items => do
    visit depth
    return some (.list (← itemValues depth items))
  | mapping _ _ fields => do
    visit depth
    if !distinct fields then flaw
    else
      let e ← fieldValues depth { named := hasNames fields } fields
      if !merges fields then return some e.toValue
      let e ← mergedFields depth { e with taken := some (← keyValues depth fields) } fields
      return some e.toValue
  | reference _ _ target => do
    visit depth
    targetValue (depth + 1) target

/-- The value of the target of a mention. A node inside itself has none. -/
def targetValue (depth : Nat) : Option Node → Decoder (Option Value)
  | none => throw .invalid
  | some node => value depth node

/-- The values of the items of a sequence. -/
def itemValues (depth : Nat) : List Node → Decoder (List Value)
  | [] => return []
  | item :: rest => do
    match ← value depth item with
    | some v => return v :: (← itemValues depth rest)
    | none => itemValues depth rest

/-- The keys of a mapping, as values. -/
def keyValues (depth : Nat) : List (Node × Node) → Decoder (List Value)
  | [] => return []
  | (key, _) :: rest => do
    match ← value depth key with
    | some v =>
      if !v.isKey then throw .unhashable
      return v :: (← keyValues depth rest)
    | none => keyValues depth rest

/-- Reads fields into entries. Fields without key are passed over, and so are those that are merged. -/
def fieldValues (depth : Nat) (e : Entries) : List (Node × Node) → Decoder Entries
  | [] => return e
  | (key, item) :: rest => do
    if key.isMerge then fieldValues depth e rest
    else
      let name ← if e.named then (·.map .text) <$> text depth key else value depth key
      let some name := name | fieldValues depth e rest
      let (free, taken) ← Entries.claim name e.taken
      let e := { e with taken }
      if !free then fieldValues depth e rest
      else
        if !name.isKey then throw .invalid
        match ← value depth item with
        | some v => fieldValues depth { e with found := Value.insertEntry name v e.found } rest
        | none => fieldValues depth e rest

/-- Merges what a mapping wants to have merged. -/
def mergedFields (depth : Nat) (e : Entries) : List (Node × Node) → Decoder Entries
  | [] => return e
  | (key, item) :: rest => if key.isMerge then mergedNode depth e item else mergedFields depth e rest

/-- Merges a mapping, or several of them. -/
def mergedNode (depth : Nat) (e : Entries) : Node → Decoder Entries
  | mapping _ _ fields => do
    visit depth
    if !distinct fields then
      spoil
      return e
    let e ← fieldValues depth e fields
    mergedFields depth e fields
  | reference _ _ target => mergedTarget depth e target
  | sequence _ _ items => mergedItems depth e items
  | scalar .. => throw .invalid

/-- Merges the target of a mention, which has to be a mapping. -/
def mergedTarget (depth : Nat) (e : Entries) : Option Node → Decoder Entries
  | none => throw .invalid
  | some node => do
    if !node.isMapping then throw .invalid
    visit depth
    mergedNode (depth + 1) e node

/-- Merges mappings one after another. -/
def mergedItems (depth : Nat) (e : Entries) : List Node → Decoder Entries
  | [] => return e
  | item :: rest => do
    if item.isSequence then throw .invalid
    mergedItems depth (← mergedNode depth e item) rest

end

/-- The integer that a double stands for: it loses its fraction and saturates at the lower end. -/
def wordOfFloat? (x : Float) : Option Int64 :=
  if x ≤ 9223372036854775808.0 then
    some (((Binary.ofFloat x).truncate?.bind wordOfInt?).getD Int64.minValue)
  else none

mutual

/-- The integer of a node; null has none. -/
def word (depth : Nat) : Node → Decoder (Option Int64)
  | scalar _ tag text => do
    visit depth
    match ← Decoder.scalar tag text with
    | .null => return none
    | .int n => return some n
    | .float x =>
      match wordOfFloat? x with
      | some n => return some n
      | none => flaw
    | _ => flaw
  | sequence .. | mapping .. => visit depth *> flaw
  | reference _ _ target => visit depth *> targetWord (depth + 1) target

/-- The integer of the target of a mention. -/
def targetWord (depth : Nat) : Option Node → Decoder (Option Int64)
  | none => throw .invalid
  | some node => word depth node

end

mutual

/-- The number of a node; null has none. -/
def number (depth : Nat) : Node → Decoder (Option Float)
  | scalar _ tag text => do
    visit depth
    match ← Decoder.scalar tag text with
    | .null => return none
    | .int n => return some (Float.ofInt n.toInt)
    | .unsigned _ n => return some (Float.ofInt n.toNat)
    | .float x => return some x
    | _ => flaw
  | sequence .. | mapping .. => visit depth *> flaw
  | reference _ _ target => visit depth *> targetNumber (depth + 1) target

/-- The number of the target of a mention. -/
def targetNumber (depth : Nat) : Option Node → Decoder (Option Float)
  | none => throw .invalid
  | some node => number depth node

end

mutual

/-- The items of a sequence, and how many mentions lead to them; null has none. -/
def items (depth : Nat) : Node → Decoder (Nat × List Node)
  | scalar _ tag text => do
    visit depth
    match ← Decoder.scalar tag text with
    | .null => return (depth, [])
    | _ =>
      spoil
      return (depth, [])
  | sequence _ _ items => do
    visit depth
    return (depth, items)
  | mapping .. => do
    visit depth
    spoil
    return (depth, [])
  | reference _ _ target => visit depth *> targetItems (depth + 1) target

/-- The items of the target of a mention. -/
def targetItems (depth : Nat) : Option Node → Decoder (Nat × List Node)
  | none => throw .invalid
  | some node => items depth node

end

/-- The integers of a sequence; null items are passed over. -/
def words (depth : Nat) (node : Node) : Decoder (List Int64) := do
  let (depth, items) ← node.items depth
  return (← items.mapM (word depth)).filterMap id

/-- The values of a sequence. -/
def values (depth : Nat) (node : Node) : Decoder (List Value) := do
  let (depth, items) ← node.items depth
  itemValues depth items

/-- The lists of integers of a sequence. -/
def wordLists (node : Node) : Decoder (List (List Int64)) := do
  let (depth, items) ← node.items 0
  items.mapM (words depth)

end Node

end Tuning.Yaml
