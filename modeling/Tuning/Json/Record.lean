import Tuning.Json.Basic
import Tuning.Decimal.Reader

/-! # Records from JSON objects

A record is read over a value it already has: fields that are absent or null keep it, and fields it
does not know are passed over. Names match without regard to case when none matches exactly. -/

namespace Tuning.Json

/-- A string. -/
def string? : Json → Option String
  | string s => some s
  | _ => none

/-- A truth value. -/
def bool? : Json → Option Bool
  | bool b => some b
  | _ => none

/-- A number, read as the nearest double. -/
def float? : Json → Option Float
  | number text => readFloat? text
  | _ => none

/-- A number without fraction and exponent that fits into a signed 64-bit word. -/
def word? : Json → Option Int64
  | number text => (readInt? text).bind wordOfInt?
  | _ => none

/-- How a record of type `σ` takes in one of its fields. -/
structure Field (σ : Type) where
  name : String
  read : Json → σ → Option σ

/-- A field that null leaves alone. -/
def Field.of {σ α : Type} (name : String) (read : Json → Option α) (set : α → σ → σ) : Field σ :=
  { name
    read := fun j s => match j with
      | null => some s
      | j => (read j).map (set · s) }

/-- The form of a character under which names are compared without regard to case. -/
def foldCase (c : Char) : Char :=
  if c == 'ſ' then 's' else if c == 'K' then 'k' else c.toLower

/-- Whether two names agree up to case. -/
def sameName (a b : String) : Bool :=
  a.toList.map foldCase == b.toList.map foldCase

/-- The field that a name of a document addresses. -/
def findField? {σ : Type} (fields : List (Field σ)) (name : String) : Option (Field σ) :=
  (fields.find? (·.name == name)).or (fields.find? fun f => sameName f.name name)

/-- Takes the fields of an object into a record, in order. -/
def readFields {σ : Type} (known : List (Field σ)) : List (String × Json) → σ → Option σ
  | [], s => some s
  | (name, value) :: rest, s =>
    match findField? known name with
    | none => readFields known rest s
    | some f => (f.read value s).bind (readFields known rest)

/-- Reads a record over the value it has. -/
def readRecord {σ : Type} (known : List (Field σ)) : Json → σ → Option σ
  | null, s => some s
  | object fields, s => readFields known fields s
  | _, _ => none

/-- A field that is a record itself, read over the record it already is. -/
def Field.record {σ τ : Type} (name : String) (known : List (Field τ)) (get : σ → τ) (set : τ → σ → σ) :
    Field σ :=
  { name, read := fun j s => (readRecord known j (get s)).map (set · s) }

/-- A field of a part of a record. -/
def Field.within {σ τ : Type} (get : σ → τ) (set : τ → σ → σ) (f : Field τ) : Field σ :=
  { name := f.name, read := fun j s => (f.read j (get s)).map (set · s) }

/-- A list that is read more than once: its items, and items of earlier readings that stand behind
them and show up again in a longer list. -/
structure Refilled (τ : Type) where
  items : List τ := []
  behind : List τ := []

/-- Reads the items of an array, each over the item already in its place. The places not reached are
given back. -/
def readItems {τ : Type} (known : List (Field τ)) (fresh : τ) :
    List Json → List τ → Option (List τ × List τ)
  | [], old => some ([], old)
  | j :: rest, old => do
    let item ← readRecord known j (old.headD fresh)
    let (items, behind) ← readItems known fresh rest old.tail
    return (item :: items, behind)

/-- A field that is a list of records; null and an empty array take away all that was read. -/
def Field.records {σ τ : Type} (name : String) (known : List (Field τ)) (fresh : τ)
    (get : σ → Refilled τ) (set : Refilled τ → σ → σ) : Field σ :=
  { name
    read := fun j s => match j with
      | null | array [] => some (set {} s)
      | array items =>
        (readItems known fresh items ((get s).items ++ (get s).behind)).map fun (items, behind) =>
          set { items, behind } s
      | _ => none }

end Tuning.Json
