import Tuning.Time.Duration
import Tuning.Value.Document

/-! # Objectives

An objective scores candidates. A measurement may fail, and it may be told to end early. -/

namespace Tuning

/-- Why work ends early. -/
inductive Ending where
  | cancelled
  | expired
  deriving DecidableEq, Repr

/-- The words for an early end. -/
def Ending.message : Ending → String
  | cancelled => "context canceled"
  | expired => "context deadline exceeded"

/-- Under which a measurement is made: whether the work has ended already, and whether the measurement
has a time limit of its own. -/
structure Context where
  ended : Option Ending := none
  limited : Bool := false
  deriving DecidableEq, Repr

/-- The context of a measurement with a time limit; a limit of zero is none. A limit that is over at the
next look at the clock ends the measurement before it starts. -/
def Context.within (ended : Option Ending) (limit : Duration) : Context :=
  let limited := 0 < limit.nanoseconds
  { limited
    ended := ended <|>
      if limited && limit.nanoseconds ≤ Int64.ofNat Instant.moment then some .expired else none }

/-- How a measurement under a context ends when it does nothing but wait. -/
def Context.wait (c : Context) : Ending :=
  c.ended.getD (if c.limited then .expired else .cancelled)

/-- Why a measurement failed. -/
inductive Failure where
  | missingParameter (objective parameter : String)
  | notIntegers (parameter type : String)
  | unencodable (error : EncodeError)
  | ended (ending : Ending)
  /-- The measured function gives its own reason. -/
  | reason (text : String)
  deriving DecidableEq, Repr

/-- The words for a failed measurement. -/
def Failure.message : Failure → String
  | missingParameter objective parameter =>
    "objective " ++ objective ++ " requires parameter " ++ parameter
  | notIntegers parameter type => "parameter " ++ parameter ++ ": expected integers, got " ++ type
  | unencodable error => "failed to encode candidate: " ++ error.message
  | ended ending => ending.message
  | reason text => text

/-- A scoring of candidates. Objectives of one identity score every candidate alike. -/
structure Objective where
  name : String
  identity : String
  evaluate : Context → Candidate → Except Failure Float

namespace Objective

/-- An objective that measures nothing once the work has ended. -/
def checked (name identity : String) (score : Candidate → Except Failure Float) : Objective :=
  { name, identity
    evaluate := fun context c => match context.ended with
      | some ending => .error (.ended ending)
      | none => score c }

/-- An objective given by a function; the serial number sets it apart from all others of its name. -/
def ofFunction (name : String) (serial : Nat) (f : Context → Candidate → Except Failure Float) :
    Objective :=
  { name, identity := name ++ "@" ++ toString serial, evaluate := f }

end Objective

/-- The integers that a candidate has for a name; a single integer counts as a list. -/
def Candidate.integers (c : Candidate) (objective name : String) : Except Failure (List Int64) :=
  match c.find? name with
  | none => .error (.missingParameter objective name)
  | some (.ints xs) => .ok xs
  | some (.int n) => .ok [n]
  | some v => .error (.notIntegers name v.typeName)

end Tuning
