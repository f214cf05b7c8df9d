/-! # Nodes of a document -/

namespace Tuning.Yaml

/-- A node with the line it begins on. A tag is empty when none is given. -/
inductive Node where
  /-- A scalar; one without tag has its meaning by its text. -/
  | scalar (line : Nat) (tag text : String)
  | sequence (line : Nat) (tag : String) (items : List Node)
  | mapping (line : Nat) (tag : String) (fields : List (Node × Node))
  /-- A mention of a named node. A node that is still being read when it is mentioned has no target. -/
  | reference (line : Nat) (name : String) (target : Option Node)
  deriving Inhabited

namespace Node

/-- The line a node begins on. -/
def line : Node → Nat
  | scalar n _ _ | sequence n _ _ | mapping n _ _ | reference n _ _ => n

/-- The text of a node as it names a field: collections have none, and a mention has the name it
mentions. -/
def label : Node → String
  | scalar _ _ text => text
  | reference _ name _ => name
  | sequence .. | mapping .. => ""

/-- The absent node. -/
def empty (line : Nat) : Node :=
  scalar line "" ""

/-- Which of the four forms a node has. -/
def form : Node → Nat
  | scalar .. => 0
  | sequence .. => 1
  | mapping .. => 2
  | reference .. => 3

/-- Whether a node is a sequence. -/
def isSequence : Node → Bool
  | sequence .. => true
  | _ => false

/-- Whether a node is a mapping. -/
def isMapping : Node → Bool
  | mapping .. => true
  | _ => false

/-- Whether two fields of a mapping have the same name. -/
def repeats (a b : Node) : Bool :=
  a.form == b.form && a.label == b.label

/-- Whether no field of a mapping is repeated. -/
def distinct : List (Node × Node) → Bool
  | [] => true
  | (key, _) :: rest => !rest.any (fun field => key.repeats field.1) && distinct rest

/-- Whether a key merges the fields of its value into the mapping. -/
def isMerge : Node → Bool
  | scalar _ tag text => text == "<<" && tag == "!!merge"
  | _ => false

end Node

end Tuning.Yaml
