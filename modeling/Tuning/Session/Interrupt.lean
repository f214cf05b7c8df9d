import Tuning.Objective.Basic

/-! # When work ends early

The measurements of a session are its tasks, counted from zero through all rounds. Work may be told to
end before some task starts or while it is being measured. -/

namespace Tuning

/-- The point at which work is told to end. -/
inductive Interrupt where
  | never
  /-- When the task of this number would start, the work has ended. -/
  | before (task : Nat)
  /-- The work ends while the task of this number is measured. -/
  | during (task : Nat)
  deriving DecidableEq, Repr

namespace Interrupt

/-- Whether the work has ended when a task would start. -/
def atStart (i : Interrupt) (task : Nat) : Option Ending :=
  match i with
  | never => none
  | before first => if first ≤ task then some .cancelled else none
  | during last => if last < task then some .cancelled else none

/-- Whether the work has ended when the measurement of a task is made. -/
def atMeasurement (i : Interrupt) (task : Nat) : Option Ending :=
  match i with
  | never => none
  | before first => if first ≤ task then some .cancelled else none
  | during last => if last ≤ task then some .cancelled else none

/-- The point after a number of rounds with as many tasks each. -/
def afterRounds (rounds tasks : Nat) : Interrupt :=
  before (rounds * tasks)

end Interrupt

end Tuning
