import Tuning.Text.Quoted

/-! # The direction of a search -/

namespace Tuning

/-- Whether high or low fitness is wanted. -/
inductive Mode where
  | maximize
  | minimize
  deriving DecidableEq, Repr

/-- A name that is no direction. -/
structure UnknownMode where
  name : String
  deriving DecidableEq, Repr

/-- The words for an unknown direction. -/
def UnknownMode.message (e : UnknownMode) : String :=
  "unknown optimize mode: " ++ Text.quoted e.name

namespace Mode

/-- The name of a direction. -/
def name : Mode → String
  | maximize => "maximize"
  | minimize => "minimize"

/-- The direction of a name, which may be cut short to three letters. -/
def ofName (s : String) : Except UnknownMode Mode :=
  if s == "maximize" || s == "max" then .ok maximize
  else if s == "minimize" || s == "min" then .ok minimize
  else .error ⟨s⟩

/-- Turns fitness into a score that is better when higher, and back. -/
def orient (m : Mode) (x : Float) : Float :=
  match m with
  | maximize => x
  | minimize => -x

end Mode

end Tuning
