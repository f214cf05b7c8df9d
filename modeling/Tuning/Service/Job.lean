import Tuning.Report.Basic
import Tuning.Session.Run

/-! # Jobs

A job is a session that someone has asked for: what it is about, how far it has come, and how it
ended. -/

namespace Tuning

/-- Where a job stands. -/
inductive JobState where
  | pending
  | running
  | completed
  | failed
  | cancelled
  /-- A state that only has a name. -/
  | other (name : String)
  deriving DecidableEq, Repr

namespace JobState

/-- The name of a state. -/
def name : JobState → String
  | pending => "pending"
  | running => "running"
  | completed => "completed"
  | failed => "failed"
  | cancelled => "cancelled"
  | other name => name

/-- The state of a name. -/
def ofName (name : String) : JobState :=
  match [pending, running, completed, failed, cancelled].find? (·.name = name) with
  | some state => state
  | none => other name

/-- Whether a job in this state has ended. -/
def terminal : JobState → Bool
  | completed | failed | cancelled => true
  | _ => false

end JobState

/-- A session that someone has asked for. -/
structure Job where
  id : String
  state : JobState := .pending
  config : Config
  objective : String
  /-- The number of candidates, once it is known. -/
  volume : String := ""
  round : Int64 := 0
  evaluations : Int64 := 0
  failures : Int64 := 0
  bestFitness : Option Float := none
  best : Candidate := []
  converged : Bool := false
  exhausted : Bool := false
  startTime : Instant
  endTime : Option Instant := none
  /-- Why the job failed. -/
  error : String := ""
  /-- Whether the work can be told to end. -/
  cancellable : Bool := false
  /-- Whether the work was told to end. -/
  cancelRequested : Bool := false

/-- What a client hears about a job. -/
structure Event where
  jobId : String
  state : JobState
  round : Int64 := 0
  evaluations : Int64 := 0
  failures : Int64 := 0
  bestFitness : Option Float := none
  timestamp : Instant := .zero

/-- The field of a best fitness, if there is one. -/
def encodeBest : Option Float → Except EncodeError (List (String × Json))
  | none => .ok []
  | some fitness => return [("bestFitness", ← encodeFloat fitness)]

/-- The document of an event. -/
def Event.encode (e : Event) : Except EncodeError Json := do
  return .object
    ([("jobId", .string e.jobId), ("state", .string e.state.name), ("round", .int e.round.toInt),
      ("evaluations", .int e.evaluations.toInt), ("failures", .int e.failures.toInt)]
    ++ (← encodeBest e.bestFitness)
    ++ [("timestamp", ← encodeInstant e.timestamp)])

namespace Job

/-- What clients hear about a job at a time. -/
def event (j : Job) (timestamp : Instant) : Event :=
  { jobId := j.id, state := j.state, round := j.round, evaluations := j.evaluations
    failures := j.failures, bestFitness := j.bestFitness, timestamp }

/-- The fields of the document of a job. -/
def encodeFields (j : Job) : Except EncodeError (List (String × Json)) := do
  let config ← j.config.encode
  let bestFitness ← encodeBest j.bestFitness
  let best ← encodeMapping (some j.best)
  let endTime ← match j.endTime with
    | none => pure []
    | some time => pure [("endTime", ← encodeInstant time)]
  return [("id", .string j.id), ("state", .string j.state.name), ("config", config),
      ("objective", .string j.objective)]
    ++ Json.field? (j.volume != "") "volume" (.string j.volume)
    ++ [("round", .int j.round.toInt), ("evaluations", .int j.evaluations.toInt),
      ("failures", .int j.failures.toInt)]
    ++ bestFitness
    ++ Json.field? (!j.best.isEmpty) "best" best
    ++ [("converged", .bool j.converged), ("exhausted", .bool j.exhausted),
      ("startTime", ← encodeInstant j.startTime)]
    ++ endTime
    ++ Json.field? (j.error != "") "error" (.string j.error)

/-- The document of a job. -/
def encode (j : Job) : Except EncodeError Json :=
  return .object (← j.encodeFields)

/-- The time from the start of a job to its end, or to now. -/
def elapsed (j : Job) (now : Instant) : Duration :=
  (j.endTime.getD now).since j.startTime

/-- The document of a job with its pace. -/
def encodeStatus (j : Job) (now : Instant) : Except EncodeError Json := do
  let elapsed := (j.elapsed now).seconds
  let pace := if 0.0 < elapsed then Float.ofInt j.evaluations.toInt / elapsed else 0.0
  return .object ((← j.encodeFields)
    ++ [("elapsed", ← encodeFloat elapsed), ("evaluationsPerSecond", ← encodeFloat pace)])

/-- The job once its work has begun. -/
def begin (j : Job) : Job :=
  { j with state := .running }

/-- The job after a round. -/
def advance (p : Progress) (j : Job) : Job :=
  let j := { j with
    round := Int64.ofNat p.round, evaluations := Int64.ofNat p.evaluations
    failures := Int64.ofNat p.failures }
  match p.best with
  | none => j
  | some (fitness, best) => { j with bestFitness := some fitness, best }

/-- The job once its session has come to a result. -/
def complete (r : SessionResult) (time : Instant) (j : Job) : Job :=
  let report := r.report
  let best := report.best.values.getD []
  let j := { j with
    state := .completed, volume := report.volume
    round := if report.rounds ≤ 1 then 0 else report.rounds - 1
    evaluations := report.evaluations, failures := report.failures, converged := report.converged
    exhausted := r.exhausted, endTime := some time }
  if best.isEmpty then j else { j with bestFitness := some report.best.fitness, best }

/-- The job once it has failed. -/
def fail (error : String) (time : Instant) (j : Job) : Job :=
  { j with state := .failed, error, endTime := some time }

/-- The job once its work has ended early. -/
def abandon (time : Instant) (j : Job) : Job :=
  { j with state := .cancelled, endTime := some time }

end Job

end Tuning
