import Tuning.Space.Basic
import Tuning.Yaml.Document
import Tuning.Yaml.Value
import Tuning.Json.Reader
import Tuning.Text.Blank

/-! # Spaces in documents

A document maps parameter names to their descriptions: a kind, a domain, and possibly starting values
and a mutation rate. -/

namespace Tuning

/-- Why a document does not describe a space. -/
inductive SpaceError where
  /-- The text is not a document. -/
  | malformed
  /-- The document is not a mapping; where it begins. -/
  | notMapping (line : Nat)
  /-- The description of a parameter cannot be read. -/
  | undecodable (name : String)
  /-- A field of the description of a parameter cannot be read. -/
  | undecodableField (field name : String)
  /-- A collection was to be remembered as a name while fields are merged. -/
  | unhashable
  | parameter (error : ParameterError)
  | fault (cause : SpaceFault)

namespace SpaceError

/-- The words for a document that does not describe a space. -/
def message : SpaceError → String
  | malformed | unhashable => "..."
  | notMapping line => "line " ++ toString line ++ ": search space must be a mapping"
  | undecodable name => "failed to decode " ++ name ++ ": ..."
  | undecodableField field name => "failed to decode " ++ field ++ " of " ++ name ++ ": ..."
  | parameter error => error.message
  | .fault cause => cause.message

end SpaceError

namespace Space

open Yaml

/-- The description of a parameter before its domain is read. -/
structure Description where
  kind : String := ""
  value : Option Node := none
  init : Option Node := none
  rate : Option Float := none

/-- A description while its fields are read. -/
structure Describing where
  description : Description := {}
  /-- The fields of the mapping being read that have been set. -/
  done : List String := []
  /-- While fields are merged: the names that are taken. -/
  taken : Option (List Value) := none

/-- Takes one field into a description; other fields are passed over. -/
def describeField (depth : Nat) (d : Description) (name : String) (item : Node) :
    Decoder Description := do
  match name with
  | "_type" => return { d with kind := (← item.text depth).getD d.kind }
  | "_value" =>
    Decoder.visit depth
    return { d with value := some item }
  | "_init" =>
    Decoder.visit depth
    return { d with init := some item }
  | "_mutate_rate" => return { d with rate := ← item.number depth }
  | _ => return d

/-- The fields of a description. -/
def isField (name : String) : Bool :=
  name == "_type" || name == "_value" || name == "_init" || name == "_mutate_rate"

/-- Reads the fields of a description. A field is set once, and one that is merged only if it has not
been set elsewhere. -/
def describeFields (depth : Nat) (d : Describing) : List (Node × Node) → Decoder Describing
  | [] => return d
  | (key, item) :: rest => do
    if key.isMerge then describeFields depth d rest
    else
      let some name ← key.text depth | describeFields depth d rest
      let (free, taken) ← Node.Entries.claim (.text name) d.taken
      let d := { d with taken }
      if !free || !isField name then describeFields depth d rest
      else if d.done.contains name then
        Decoder.spoil
        describeFields depth d rest
      else
        let description ← describeField depth d.description name item
        describeFields depth { d with description, done := name :: d.done } rest

mutual

/-- Merges what the description of a parameter wants to have merged. -/
def describeMerged (depth : Nat) (d : Describing) : List (Node × Node) → Decoder Describing
  | [] => return d
  | (key, item) :: rest =>
    if key.isMerge then describeNode depth d item else describeMerged depth d rest

/-- Merges a mapping, or several of them. -/
def describeNode (depth : Nat) (d : Describing) : Node → Decoder Describing
  | .mapping _ _ fields => do
    Decoder.visit depth
    if !Node.distinct fields then
      Decoder.spoil
      return d
    let d ← describeFields depth { d with done := [] } fields
    describeMerged depth d fields
  | .reference _ _ target => describeTarget depth d target
  | .sequence _ _ items => describeItems depth d items
  | .scalar .. => throw .invalid

/-- Merges the target of a mention, which has to be a mapping. -/
def describeTarget (depth : Nat) (d : Describing) : Option Node → Decoder Describing
  | none => throw .invalid
  | some node => do
    if !node.isMapping then throw .invalid
    Decoder.visit depth
    describeNode (depth + 1) d node

/-- Merges mappings one after another. -/
def describeItems (depth : Nat) (d : Describing) : List Node → Decoder Describing
  | [] => return d
  | item :: rest => do
    if item.isSequence then throw .invalid
    describeItems depth (← describeNode depth d item) rest

end

mutual

/-- Reads the description of a parameter from a mapping; null describes nothing. -/
def describe (depth : Nat) : Node → Decoder Description
  | .mapping _ _ fields => do
    Decoder.visit depth
    if !Node.distinct fields then
      Decoder.spoil
      return {}
    let d ← describeFields depth {} fields
    if !Node.merges fields then return d.description
    let d ← describeMerged depth { d with taken := some (← Node.keyValues depth fields) } fields
    return d.description
  | .reference _ _ target => do
    Decoder.visit depth
    describeMention (depth + 1) target
  | .sequence .. => do
    Decoder.visit depth
    Decoder.spoil
    return {}
  | .scalar _ tag text => do
    Decoder.visit depth
    match ← Decoder.scalar tag text with
    | .null => return {}
    | _ =>
      Decoder.spoil
      return {}

/-- Reads the description of a parameter from the target of a mention. -/
def describeMention (depth : Nat) : Option Node → Decoder Description
  | none => throw .invalid
  | some node => describe depth node

end

/-- Reads the domain of a kind; what is not a pair of integers describes no factorisation. -/
def readDomain (kind : Kind) (value : Node) : Decoder (Option Domain) := do
  match kind with
  | .choice => return some (.choice (← value.values 0))
  | .discrete => return some (.discrete (← value.words 0))
  | .permutation => return some (.permutation ((← value.word 0).getD 0))
  | .factor =>
    match ← value.words 0 with
    | [product, slots] => return some (.factor product slots)
    | _ => return none

/-- Reads starting values for a kind. -/
def readSeeds (kind : Kind) (init : Node) : Decoder (List Value) := do
  match kind with
  | .choice => init.values 0
  | .discrete => return (← init.words 0).map .int
  | .permutation | .factor => return (← init.wordLists).map .ints

/-- Reads a part of a document, when so many time zones have been met before. -/
def readPart {α : Type} (step : Decoder α) (zones : Nat) (undecodable : SpaceError) :
    Except SpaceError (α × Nat) :=
  (step.run zones).mapError fun
    | .invalid => undecodable
    | .unhashable => .unhashable

/-- The parameter that a description describes, when so many time zones have been met before. Of an
unknown kind only the rate is kept. -/
def readParameter (name : String) (d : Description) (zones : Nat) :
    Except SpaceError (Parameter × Nat) := do
  match Kind.ofSpelling? d.kind with
  | none => return ({ name, domain := .unknown d.kind, rate := d.rate }, zones)
  | some kind =>
    let some value := d.value | throw (.parameter (.invalid name "missing _value"))
    let (domain, zones) ← readPart (readDomain kind value) zones (.undecodableField "_value" name)
    let some domain := domain
      | throw (.parameter (.invalid name "factor _value must be [product, slots]"))
    let (seeds, zones) ← match d.init with
      | none => pure ([], zones)
      | some init => readPart (readSeeds kind init) zones (.undecodableField "_init" name)
    return ({ name, domain, seeds, rate := d.rate }, zones)

/-- Reads the parameters of a document in order. -/
def readParameters (zones : Nat) : List (Node × Node) → Except SpaceError (List Parameter)
  | [] => .ok []
  | (key, node) :: rest => do
    let (d, zones) ← readPart (describe 0 node) zones (.undecodable key.label)
    let (p, zones) ← readParameter key.label d zones
    return p :: (← readParameters zones rest)

/-- The parameters of a document. One that is null has none, and so has a mapping that is called null. -/
def ofNode : Node → Except SpaceError Space
  | .mapping _ tag fields => do
    if tag == "!!null" then
      if Node.distinct fields then return ⟨[]⟩ else throw .malformed
    return ⟨← readParameters 0 fields⟩
  | .scalar line tag text =>
    match scalarValue? tag text with
    | some .null => .ok ⟨[]⟩
    | some _ => .error (.notMapping line)
    | none => .error (if tag == "!!null" then .malformed else .notMapping line)
  | .sequence line tag _ => .error (if tag == "!!null" then .malformed else .notMapping line)
  | .reference line _ _ => .error (.notMapping line)

/-- Reads the document of a space; a text without document has no parameters. -/
def parse (text : String) : Except SpaceError Space := do
  let some root := Yaml.parse? text | throw .malformed
  let space ← match root with
    | some node => ofNode node
    | none => pure ⟨[]⟩
  match space.validate with
  | .ok () => return space
  | .error fault => throw (.fault fault)

end Space

/-- Why a request holds no space. -/
inductive RequestedSpaceError where
  | missing
  /-- A text that begins like a string is none. -/
  | badString
  | invalid (error : SpaceError)

/-- The words for a request that holds no space. -/
def RequestedSpaceError.message : RequestedSpaceError → String
  | missing => "space is required"
  | badString => "invalid space: ..."
  | invalid error => "invalid space: " ++ error.message

/-- Reads the space of a request: a string that holds a document, or the document itself. -/
def Space.ofRequest (text : String) : Except RequestedSpaceError Space :=
  let read := fun document => (Space.parse document).mapError RequestedSpaceError.invalid
  let trimmed := Text.trim text.toList
  let text := String.ofList trimmed
  if trimmed.isEmpty || text == "null" then .error .missing
  else if trimmed.head? == some '"' then
    match Json.parse? text with
    | some (.string document) => read document
    | _ => .error .badString
  else read text

end Tuning
