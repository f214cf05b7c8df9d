import Tuning.Population.Offspring
import Tuning.Session.Convergence
import Tuning.Session.Interrupt
import Tuning.Session.Runner

/-! # Sessions

A session breeds batches and measures them, round after round, until it has made its rounds, has
converged, or has recorded every candidate. Failed measurements are counted and dropped. -/

namespace Tuning

/-- What a session shows after a round. -/
structure Progress where
  round : Nat
  evaluations : Nat
  failures : Nat
  /-- The best fitness so far with its candidate. -/
  best : Option (Float × Candidate)

/-- Why a session comes to nothing. -/
inductive SessionError where
  | config (error : ConfigError)
  | mode (error : UnknownMode)
  | population (error : PopulationError)
  | offspring (error : BreedError)
  /-- The work ended; so many tasks of the batch did not start. -/
  | interrupted (ending : Ending) (tasks : Nat)
  | trace (error : TraceError)
  | report (fault : ReportFault)
  | store (error : StoreError)
  /-- The random source ran dry. -/
  | stuck

/-- The words for a session that comes to nothing. -/
def SessionError.message : SessionError → String
  | config error => error.message
  | mode error => error.message
  | population error => "failed to create population: " ++ error.message
  | offspring error => "failed to generate offspring: " ++ error.message
  | interrupted ending tasks =>
    "evaluation interrupted: " ++ "\n".intercalate (List.replicate (max tasks 1) ending.message)
  | trace error => error.message
  | report fault => "failed to validate report: " ++ fault.message
  | store error => error.message
  | stuck => "random source ran dry"

/-- The outcome of a session. -/
structure SessionResult where
  report : Report
  population : Population
  /-- The number of measurements that were remembered. -/
  cached : Nat
  /-- Whether the session ended because every candidate was recorded. -/
  exhausted : Bool

/-- A session between two rounds. -/
structure Session where
  population : Population
  source : Source
  tracker : Tracker Float := .ofFloats
  rounds : Nat := 0
  evaluations : Nat := 0
  failures : Nat := 0
  cached : Nat := 0
  converged : Bool := false
  exhausted : Bool := false
  /-- The entries of the trace, the latest first. -/
  trace : List TraceEntry := []
  /-- What was shown after the rounds, the latest first. -/
  progress : List Progress := []

/-- What a round leads to. -/
inductive Turn where
  | goOn (session : Session)
  | stop (session : Session)
  /-- The session up to the point where it failed. -/
  | fail (error : SessionError) (session : Session)

namespace Session

variable {ε : Type}

/-- Measures a batch whose first task has the given number. A task that would start after the work has
ended is not measured. -/
def measureBatch (p : Probe ε) (limit : Duration) (i : Interrupt) :
    (task : Nat) → List Individual → Runner × ε → List (Option Outcome) × (Runner × ε)
  | _, [], s => ([], s)
  | task, x :: rest, s =>
    match i.atStart task with
    | some _ =>
      let (outcomes, s) := measureBatch p limit i (task + 1) rest s
      (none :: outcomes, s)
    | none =>
      let (outcome, s) := p.measure (.within (i.atMeasurement task) limit) x s
      let (outcomes, s) := measureBatch p limit i (task + 1) rest s
      (some outcome :: outcomes, s)

/-- The error of a batch that was interrupted. -/
def interruption? (i : Interrupt) (task : Nat) (outcomes : List (Option Outcome)) : Option SessionError :=
  let refused := outcomes.countP Option.isNone
  match i.atMeasurement (task + outcomes.length - 1) with
  | some ending => if outcomes.isEmpty then none else some (.interrupted ending refused)
  | none => none

/-- Shows the best fitness so far in the latest entry of the trace. -/
def showBest (s : Session) : Session :=
  match s.population.best?, s.trace with
  | some (_, best), entry :: rest => { s with trace := { entry with best } :: rest }
  | _, _ => s

/-- Takes in one measured individual at the time it is recorded. -/
def record (s : Session) (x : Individual) (outcome : Outcome) (time : Instant) : Session :=
  let evaluations := s.evaluations + 1
  let entry : TraceEntry :=
    { round := Int64.ofNat s.rounds, evaluation := Int64.ofNat evaluations, candidate := some x.candidate
      timestamp := time }
  showBest (match outcome with
    | .scored fitness cached =>
      { s with
        evaluations, cached := if cached then s.cached + 1 else s.cached
        population := (s.population.append x fitness).getD s.population
        trace := { entry with fitness } :: s.trace }
    | .failed error =>
      { s with
        evaluations, failures := s.failures + 1
        trace := { entry with error := error.message } :: s.trace })

/-- Takes in a batch. With a store, an entry that has no line in the trace stops the recording. -/
def recordBatch (stored : Bool) :
    List (Individual × Outcome) → Session → Runner → Except EncodeError Session × Session × Runner
  | [], s, r => (.ok s, s, r)
  | (x, outcome) :: rest, s, r =>
    let (time, r) := r.tick
    let next := s.record x outcome time
    let line := match next.trace with
      | entry :: _ => entry.line
      | [] => .ok ""
    match stored, line with
    | true, .error error => (.error error, s, r)
    | _, _ => recordBatch stored rest next r

/-- Closes a round: shows the progress and follows the convergence. -/
def closeRound (c : Convergence Float) (mode : Mode) (s : Session) : Turn :=
  let best := s.population.best?
  let progress : Progress :=
    { round := s.rounds, evaluations := s.evaluations, failures := s.failures
      best := best.map fun (x, fitness) => (fitness, x.candidate) }
  let s := { s with rounds := s.rounds + 1, progress := progress :: s.progress }
  match best with
  | none => .goOn s
  | some (_, fitness) =>
    let (converged, tracker) := s.tracker.update c (mode.orient fitness)
    let s := { s with tracker }
    if converged then .stop { s with converged } else .goOn s

/-- Convergence as a configuration wants it. -/
def convergence (config : Config) : Convergence Float :=
  .ofThreshold (0 < config.patience) config.patience.toInt config.threshold

/-- One round. -/
def playRound (p : Probe ε) (config : Config) (mode : Mode) (i : Interrupt) (s : Session)
    (bench : Runner × ε) : Turn × (Runner × ε) :=
  match s.population.offspring config.parents config.offspring s.source with
  | none => (.fail .stuck s, bench)
  | some (.error (.exhausted ..), source) => (.stop { s with exhausted := true, source }, bench)
  | some (.error error, source) => (.fail (.offspring error) { s with source }, bench)
  | some (.ok (children, population), source) =>
    let s := { s with population, source }
    let (outcomes, r, e) := measureBatch p config.evalTimeout i s.evaluations children bench
    match interruption? i s.evaluations outcomes with
    | some error => (.fail error s, (r, e))
    | none =>
      let measured := (children.zip outcomes).filterMap fun (x, outcome) => outcome.map (x, ·)
      match recordBatch r.store.isSome measured s r with
      | (.error error, s, r) => (.fail (.trace (.unencodable error)) s, (r, e))
      | (.ok s, _, r) => (closeRound (convergence config) mode s, (r, e))

/-- So many rounds at most. -/
def play (p : Probe ε) (config : Config) (mode : Mode) (i : Interrupt) :
    (rounds : Nat) → Session → Runner × ε → Except SessionError Unit × Session × (Runner × ε)
  | 0, s, bench => (.ok (), s, bench)
  | rounds + 1, s, bench =>
    match playRound p config mode i s bench with
    | (.goOn s, bench) => play p config mode i rounds s bench
    | (.stop s, bench) => (.ok (), s, bench)
    | (.fail error s, bench) => (.error error, s, bench)

/-- The report of a session that has ended. -/
def report (s : Session) (id : String) (config : Config) (startedAt finishedAt : Instant) : Report :=
  let ranked := s.population.ranked
  let scored := ranked.map fun (x, fitness) => ({ values := some x.candidate, fitness } : Scored)
  { sessionId := id, config := config.recorded, volume := toString s.population.volume
    best := scored.headD {}
    top := scored.take config.topK.toInt.toNat
    stats := .of (ranked.map (·.2))
    rounds := Int64.ofNat s.rounds, converged := s.converged
    evaluations := Int64.ofNat s.evaluations, failures := Int64.ofNat s.failures
    startedAt, finishedAt }

end Session

namespace Runner

/-- Performs an action on the files of a runner. -/
def withFiles {ε α : Type} (r : Runner) (action : ExceptT ε (StateM FileTree) α) : Except ε α × Runner :=
  let (result, files) := action.run r.files
  (result, { r with files })

/-- Begins the trace of a session, if there is a store. -/
def startTrace (r : Runner) (id : String) : Except TraceError Unit × Runner :=
  match r.store with
  | none => (.ok (), r)
  | some store => r.withFiles (Trace.start store id false)

/-- Writes the trace of a session, if there is a store. -/
def writeTrace (r : Runner) (id : String) (entries : List TraceEntry) : Runner :=
  match r.store with
  | none => r
  | some store => (r.withFiles (Trace.add store id (Trace.encodeLines entries).1)).2

/-- Stores the report of a session, if there is a store. -/
def saveReport (r : Runner) (id : String) (report : Report) : Except SessionError Unit × Runner :=
  match r.store with
  | none => (.ok (), r)
  | some store =>
    match report.validate with
    | .error fault => (.error (.report fault), r)
    | .ok () =>
      match r.withFiles (store.save id report) with
      | (.ok (), r) => (.ok (), r)
      | (.error error, r) => (.error (.store error), r)

end Runner

/-- A session at its start. -/
def Session.start (space : Space) (config : Config) : Except SessionError (Session × Mode) :=
  match config.validate, Mode.ofName config.mode with
  | .error error, _ => .error (.config error)
  | .ok (), .error error => .error (.mode error)
  | .ok (), .ok mode =>
    match Population.make space config.mutateRate mode (Source.ofSeed config.seed) with
    | none => .error .stuck
    | some (.error error, _) => .error (.population error)
    | some (.ok population, source) => .ok ({ population, source }, mode)

/-- Runs a session to its end and tells what it showed after its rounds. -/
def Probe.run {ε : Type} (p : Probe ε) (space : Space) (config : Config) (id : String) (i : Interrupt)
    (bench : Runner × ε) : Except SessionError SessionResult × List Progress × (Runner × ε) :=
  match Session.start space config with
  | .error error => (.error error, [], bench)
  | .ok (s, mode) =>
    let (startedAt, r) := bench.1.tick
    match r.startTrace id with
    | (.error error, r) => (.error (.trace error), [], (r, bench.2))
    | (.ok (), r) =>
      let (played, s, r, e) := Session.play p config mode i config.rounds.toInt.toNat s (r, bench.2)
      let r := r.writeTrace id s.trace.reverse
      let progress := s.progress.reverse
      match played with
      | .error error => (.error error, progress, (r, e))
      | .ok () =>
        let (finishedAt, r) := r.tick
        let report := s.report id config startedAt finishedAt
        match r.saveReport id report with
        | (.error error, r) => (.error error, progress, (r, e))
        | (.ok (), r) =>
          (.ok { report, population := s.population, cached := s.cached, exhausted := s.exhausted },
            progress, (r, e))

/-- Runs a session with an objective. -/
def Runner.run (r : Runner) (o : Objective) (space : Space) (config : Config) (id : String)
    (i : Interrupt) : Except SessionError SessionResult × List Progress × Runner :=
  let (result, progress, r, _) := (o.probe : Probe Unit).run space config id i (r, ())
  (result, progress, r)

end Tuning
