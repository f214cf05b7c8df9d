import Std.Data.TreeMap
import Tuning.Individual
import Tuning.Objective.Basic
import Tuning.Store.Trace

/-! # Measurements

A runner remembers what was measured and marks what is being measured. A measurement goes in steps:
look up, mark, evaluate, remember, release. Sessions that share a runner never measure the same
candidate at once, for as long as marks last. -/

namespace Tuning

/-- Something that counts up to a moment. -/
structure Lasting (α : Type) where
  value : α
  last : Instant

/-- What counts at a time. -/
def Lasting.current? {α : Type} (x : Lasting α) (now : Instant) : Option α :=
  if x.last.before now then none else some x.value

/-- What sessions share. -/
structure Runner where
  /-- Measured fitness by scoped key. -/
  memo : Std.TreeMap String (Lasting Float) := {}
  /-- The scoped keys of candidates that are being measured, with the moment up to which they count. -/
  inFlight : List (String × Instant) := []
  /-- Where reports and traces go, if anywhere. -/
  store : Option Store := none
  files : FileTree := {}
  /-- The time of the next look at the clock. -/
  now : Instant := .zero

/-- An objective as a runner sees it. An evaluation may use the runner it is made on, and a state of
its own. -/
structure Probe (ε : Type) where
  name : String
  identity : String
  evaluate : Context → Candidate → Runner × ε → Except Failure Float × (Runner × ε)

/-- Why a candidate has no fitness. -/
inductive MeasureError where
  /-- The candidate of this key is being measured elsewhere. -/
  | busy (key : String)
  | failed (failure : Failure)
  /-- The objective of this name gave a number that is not finite, by its text. -/
  | notFinite (objective text : String)
  deriving DecidableEq, Repr

/-- The words for a candidate without fitness. -/
def MeasureError.message : MeasureError → String
  | busy key => "candidate already being measured: " ++ key
  | failed failure => failure.message
  | notFinite objective text => "objective " ++ objective ++ " returned " ++ text

/-- What came of measuring a candidate. -/
inductive Outcome where
  | scored (fitness : Float) (cached : Bool)
  | failed (error : MeasureError)

/-- An objective that leaves everything alone. -/
def Objective.probe {ε : Type} (o : Objective) : Probe ε :=
  { name := o.name, identity := o.identity
    evaluate := fun context c s => (o.evaluate context c, s) }

namespace Runner

/-- The time, and the runner a moment later. -/
def tick (r : Runner) : Instant × Runner :=
  (r.now, { r with now := r.now.later Instant.moment })

/-- The key of a candidate under an objective. -/
def scopedKey (identity key : String) : String :=
  identity ++ "|" ++ key

/-- The time for which a fitness is remembered, in nanoseconds: an hour. -/
def memoTime : Nat := 3600000000000

/-- The time for which a mark counts, in nanoseconds: ten minutes. -/
def markTime : Nat := 600000000000

/-- The remembered fitness of a key. -/
def lookup (r : Runner) (key : String) : Option Float :=
  (r.memo.get? key).bind (·.current? r.now)

/-- Whether a key is marked. -/
def isMarked (r : Runner) (key : String) : Bool :=
  r.inFlight.any fun (other, last) => other == key && !last.before r.now

/-- Takes the mark off a key. -/
def release (r : Runner) (key : String) : Runner :=
  { r with inFlight := r.inFlight.filter (·.1 ≠ key) }

/-- Marks a key as being measured, unless it is marked already. -/
def mark (r : Runner) (key : String) : Option Runner :=
  if r.isMarked key then none
  else some { r with inFlight := (key, r.now.later markTime) :: (r.release key).inFlight }

/-- Remembers the fitness of a key. -/
def remember (r : Runner) (key : String) (fitness : Float) : Runner :=
  { r with memo := r.memo.insert key ⟨fitness, r.now.later memoTime⟩ }

end Runner

/-- What an evaluation amounts to: only a finite number is a fitness. -/
def judge (name : String) : Except Failure Float → Except MeasureError Float
  | .error failure => .error (.failed failure)
  | .ok fitness =>
    if fitness.isNaN || fitness.isInf then .error (.notFinite name (messageNumber fitness))
    else .ok fitness

namespace Probe

variable {ε : Type}

/-- Measures a candidate. -/
def measure (p : Probe ε) (context : Context) (x : Individual) (s : Runner × ε) : Outcome × (Runner × ε) :=
  let key := Runner.scopedKey p.identity x.key
  match s.1.lookup key with
  | some fitness => (.scored fitness true, s)
  | none =>
    match s.1.mark key with
    | none => (.failed (.busy x.key), s)
    | some marked =>
      let (result, r, e) := p.evaluate context x.candidate (marked, s.2)
      match judge p.name result with
      | .ok fitness => (.scored fitness false, ((r.remember key fitness).release key, e))
      | .error error => (.failed error, (r.release key, e))

end Probe

end Tuning
