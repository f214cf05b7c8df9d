import Tuning.ErrorKind
import Tuning.Service.Broadcaster
import Tuning.Service.Job

/-! # The service

A service keeps jobs, works them off on one runner and tells clients how they come along. Whatever
changes a job while it is worked on is broadcast. -/

namespace Tuning

/-- A job that waits to be worked on. -/
structure Task where
  job : String
  space : Space
  objective : Objective

/-- Jobs, clients and the runner they share. -/
structure Service where
  /-- The jobs in the order in which they were created. -/
  jobs : List Job := []
  hub : Broadcaster Event := {}
  runner : Runner := {}
  /-- What is still to be done. -/
  backlog : List Task := []
  /-- Whether all work was told to end. -/
  stopped : Bool := false

/-- Why a job was not worked on to a result. -/
inductive JobError where
  | unknown (id : String)
  | ended (ending : Ending)
  | session (error : SessionError)

/-- The words for a job that came to no result. -/
def JobError.message : JobError → String
  | unknown id => "job not found: " ++ id
  | ended ending => ending.message
  | session error => error.message

instance : Explained JobError where
  kind
    | .unknown _ => .other
    | .ended ending => .ended ending
    | .session e => errorKind e
  message e := e.message

/-- When a session failed, the ending of its work, if the work had ended by then. -/
def Interrupt.endingOf (i : Interrupt) (error : SessionError) (progress : List Progress) : Option Ending :=
  match error with
  | .interrupted ending _ => some ending
  | _ => i.atStart ((progress.getLast?.map (·.evaluations)).getD 0)

/-- What the work on a job finds whenever it looks whether it was told to end: before it begins, at the
tasks of its session, and when the session has failed. -/
structure Signal where
  early : Option Ending
  session : Interrupt
  late : SessionError → List Progress → Option Ending

/-- What the work finds that is told to end at a point of its session. -/
def Signal.ofInterrupt (i : Interrupt) : Signal :=
  { early := i.atStart 0, session := i, late := i.endingOf }

/-- Whether a session has no outcome: it breaks down, or it would go on for ever. -/
def SessionError.isBreakdown : SessionError → Bool
  | population (.parameter (.tooManySlots ..)) | offspring (.tooMany _)
  | offspring (.seed (.tooManySlots ..)) | stuck => true
  | _ => false

namespace Service

/-- The job of an id. -/
def find? (s : Service) (id : String) : Option Job :=
  s.jobs.find? (·.id = id)

/-- The time, and the service a moment later. -/
def tick (s : Service) : Instant × Service :=
  let (time, runner) := s.runner.tick
  (time, { s with runner })

/-- A new job for a configuration. -/
def create (s : Service) (id : String) (config : Config) : Job × Service :=
  let (startTime, s) := s.tick
  let job : Job := { id, config, objective := config.objective, startTime }
  (job, { s with jobs := s.jobs ++ [job] })

/-- All jobs, those that started first in front. -/
def list (s : Service) : List Job :=
  s.jobs.mergeSort fun a b => !b.startTime.before a.startTime

/-- The jobs that are being worked on. -/
def running (s : Service) : List Job :=
  s.jobs.filter (·.state = .running)

/-- Changes the job of an id. -/
def change (s : Service) (id : String) (f : Job → Job) : Service :=
  { s with jobs := s.jobs.map fun job => if job.id = id then f job else job }

/-- Changes the job of an id, which has to exist. -/
def update (s : Service) (id : String) (f : Job → Job) : Except JobError Service :=
  match s.find? id with
  | none => .error (.unknown id)
  | some _ => .ok (s.change id f)

/-- Tells the work on a job to end. Nothing can be told to a job that has ended. -/
def cancel (s : Service) (id : String) : Bool × Service :=
  match s.find? id with
  | none => (false, s)
  | some job =>
    if job.state.terminal || !job.cancellable then (false, s)
    else (true, s.change id fun job => { job with cancelRequested := true })

/-- Broadcasts where a job stands. -/
def announce (s : Service) (id : String) : Service :=
  match s.find? id with
  | none => s
  | some job =>
    let (time, s) := s.tick
    { s with hub := (s.hub.broadcast? id (job.event time)).getD s.hub }

/-- Changes a job and broadcasts where it stands then. -/
def report (s : Service) (id : String) (f : Job → Job) : Service :=
  (s.change id f).announce id

/-- Marks a job as failed. -/
def fail (s : Service) (id error : String) : Service :=
  let (time, s) := s.tick
  s.report id (Job.fail error time)

/-- Marks a job as cancelled. -/
def abandon (s : Service) (id : String) : Service :=
  let (time, s) := s.tick
  s.report id (Job.abandon time)

/-- Marks a job as completed. -/
def complete (s : Service) (id : String) (r : SessionResult) : Service :=
  let (time, s) := s.tick
  s.report id (Job.complete r time)

/-- Works on a job until its session ends, and broadcasts its beginning, every round and its end. A
session without outcome leaves the job as it stands. -/
def attend {ε : Type} (s : Service) (id : String) (space : Space) (p : Probe ε) (signal : Signal) (e : ε) :
    Except JobError Unit × Service × ε :=
  match s.find? id, signal.early with
  | none, _ => (.error (.unknown id), s, e)
  | some _, some ending => (.error (.ended ending), s.abandon id, e)
  | some job, none =>
    let s := s.report id Job.begin
    let (result, progress, runner, e) := p.run space job.config id signal.session (s.runner, e)
    let s := progress.foldl (fun s p => s.report id (Job.advance p)) { s with runner }
    match result with
    | .ok r => (.ok (), s.complete id r, e)
    | .error error =>
      if error.isBreakdown then (.error (.session error), s, e)
      else
        match signal.late error progress with
        | some ending => (.error (.ended ending), s.abandon id, e)
        | none => (.error (.session error), s.fail id error.message, e)

/-- Works on a job with an objective. -/
def perform (s : Service) (id : String) (space : Space) (o : Objective) (i : Interrupt) :
    Except JobError Unit × Service :=
  let (result, s, _) := s.attend id space (o.probe : Probe Unit) (.ofInterrupt i) ()
  (result, s)

/-- A new job whose work is put off. -/
def submit (s : Service) (id : String) (config : Config) (space : Space) (objective : Objective) :
    Job × Service :=
  let (job, s) := s.create id config
  let s := s.change id fun job => { job with cancellable := true }
  (job, { s with backlog := s.backlog ++ [{ job := id, space, objective }] })

/-- Does the work on a job that was put off. -/
def settle (s : Service) (id : String) : Service :=
  match s.backlog.find? (·.job = id) with
  | none => s
  | some task =>
    let told := s.stopped || (s.find? id).any (·.cancelRequested)
    let i := if told then .before 0 else .never
    let s := { s with backlog := s.backlog.filter (·.job ≠ id) }
    (s.perform id task.space task.objective i).2

/-- Tells all work to end and lets it come to its end. -/
def shutdown (s : Service) : Service :=
  s.backlog.foldl (fun s task => s.settle task.job) { s with stopped := true }

end Service

end Tuning
