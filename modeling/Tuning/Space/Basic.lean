import Tuning.Gene.Basic
import Tuning.Text.Quoted

/-! # Search spaces

A space lists parameters by name: a domain, starting values and possibly a mutation rate each. -/

namespace Tuning

/-- The domain of a parameter as it is declared. -/
inductive Domain where
  | choice (choices : List Value)
  | discrete (numbers : List Int64)
  | permutation (size : Int64)
  | factor (product slots : Int64)
  /-- A domain of a kind that is not known. -/
  | unknown (kind : String)

/-- A declared parameter. -/
structure Parameter where
  name : String
  domain : Domain
  /-- The values the search starts from. -/
  seeds : List Value := []
  /-- The mutation rate, where it is not the common one. -/
  rate : Option Float := none

/-- Why a parameter cannot be used. -/
inductive ParameterError where
  | unsupportedKind (name kind : String)
  | invalid (name reason : String)
  /-- No list can hold so many factors. -/
  | tooManySlots (name : String) (slots : Int64)
  deriving DecidableEq, Repr

/-- Why a list of parameters is not a space. -/
inductive SpaceFault where
  | noParameters
  | unnamed (index : Nat)
  | duplicate (name : String)
  deriving DecidableEq, Repr

/-- A search space. -/
structure Space where
  parameters : List Parameter

namespace ParameterError

/-- The words for an unusable parameter. -/
def message : ParameterError → String
  | unsupportedKind name kind =>
    if name ≠ "" then "unsupported parameter kind " ++ Text.quoted kind ++ " for " ++ name
    else if kind ≠ "" then "unsupported parameter kind " ++ Text.quoted kind
    else "unsupported parameter kind"
  | invalid name reason =>
    if name ≠ "" ∧ reason ≠ "" then "invalid parameter " ++ name ++ ": " ++ reason
    else if reason ≠ "" then "invalid parameter: " ++ reason
    else "invalid parameter"
  | tooManySlots name slots => "no room for " ++ toString slots.toInt ++ " factors of " ++ name

end ParameterError

namespace SpaceFault

/-- The words for a fault of a space. -/
def message : SpaceFault → String
  | noParameters => "search space has no parameters"
  | unnamed index => "parameter " ++ toString index ++ " has no name"
  | duplicate name => "duplicate parameter name: " ++ name

end SpaceFault

namespace Domain

/-- The name of the kind of a domain. -/
def kindName : Domain → String
  | choice _ => Kind.choice.name
  | discrete _ => Kind.discrete.name
  | permutation _ => Kind.permutation.name
  | factor _ _ => Kind.factor.name
  | unknown kind => kind

/-- The gene of a domain of a known kind. -/
def gene? (d : Domain) (rate : Float) : Option (Except DomainFault Gene) :=
  match d with
  | choice choices => some ((Choice.make choices rate).map .choice)
  | discrete numbers => some ((Discrete.make numbers rate).map .discrete)
  | permutation size => some ((Permutation.make size rate).map .permutation)
  | factor product slots => some ((Factor.make product slots rate).map .factor)
  | unknown _ => none

end Domain

namespace Parameter

/-- The rate of a parameter under a common rate. -/
def rateOr (p : Parameter) (common : Float) : Float :=
  p.rate.getD common

/-- The gene of a parameter at the start of its domain. -/
def gene (p : Parameter) (common : Float) : Except ParameterError Gene :=
  match p.domain.gene? (p.rateOr common) with
  | none => .error (.unsupportedKind p.name p.domain.kindName)
  | some result => result.mapError fun
    | .tooManySlots slots => .tooManySlots p.name slots
    | fault => .invalid p.name fault.message

/-- The parameter once for every starting value, carrying that value alone; without starting values
it stands for itself. -/
def bindings (p : Parameter) : List Parameter :=
  if p.seeds.isEmpty then [p] else p.seeds.map fun seed => { p with seeds := [seed] }

end Parameter

namespace Space

/-- The names in order. -/
def names (s : Space) : List String :=
  s.parameters.map (·.name)

/-- The first parameter of a name. -/
def find? (s : Space) (name : String) : Option Parameter :=
  s.parameters.find? (·.name == name)

/-- Whether some parameter has starting values. -/
def seeded (s : Space) : Bool :=
  s.parameters.any (!·.seeds.isEmpty)

/-- The first parameter, from an index on, without a name or with a name that was seen. -/
def checkFrom : (index : Nat) → (seen : List String) → List Parameter → Except SpaceFault Unit
  | _, _, [] => .ok ()
  | index, seen, p :: rest =>
    if p.name = "" then .error (.unnamed index)
    else if p.name ∈ seen then .error (.duplicate p.name)
    else checkFrom (index + 1) (p.name :: seen) rest

/-- A space has parameters, and their names are present and differ. -/
def validate (s : Space) : Except SpaceFault Unit :=
  if s.parameters.isEmpty then .error .noParameters else checkFrom 0 [] s.parameters

/-- All choices of one starting value for every parameter that has some; the first parameter varies
slowest. -/
def expandParameters : List Parameter → List (List Parameter)
  | [] => [[]]
  | p :: rest => p.bindings.flatMap fun bound => (expandParameters rest).map (bound :: ·)

/-- The spaces with one starting value for every parameter that has some. -/
def expand (s : Space) : List Space :=
  (expandParameters s.parameters).map (⟨·⟩)

/-- The number of choices of starting values, in 64-bit arithmetic. -/
def combinations (s : Space) : Int64 :=
  s.parameters.foldl
    (fun n p => if p.seeds.isEmpty then n else n * Int64.ofNat p.seeds.length) 1

end Space

end Tuning
