import Tuning.Objective.Matmul
import Tuning.Objective.Hashed

/-! # Objectives by name -/

namespace Tuning

/-- A name that no objective has. -/
structure UnknownObjective where
  name : String
  deriving DecidableEq, Repr

/-- The words for a name that no objective has. -/
def UnknownObjective.message (e : UnknownObjective) : String :=
  "unsupported objective: " ++ e.name

namespace Objective

/-- The objectives that have a name of their own, in the order of the names. -/
def registered : List Objective :=
  [Hashed.objective 0, Matmul.objective {} false, Matmul.objective {} true]

/-- The names of objectives. -/
def names : List String :=
  registered.map (·.name)

/-- The objective of a name. -/
def ofName (name : String) : Except UnknownObjective Objective :=
  match registered.find? (·.name == name) with
  | some objective => .ok objective
  | none => .error ⟨name⟩

end Objective

end Tuning
