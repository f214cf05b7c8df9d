import Tuning.Report.Stats
import Tuning.Session.Config
import Tuning.Text.Quoted

/-! # Reports

A report records what a session was told and what it found. -/

namespace Tuning

/-- The part of a configuration that a report records. -/
structure RunConfig where
  spacePath : String := ""
  objective : String := ""
  mode : String := ""
  rounds : Int64 := 0
  parents : Int64 := 0
  offspring : Int64 := 0
  mutateRate : Float := 0
  seed : Int64 := 0
  workers : Int64 := 0
  patience : Int64 := 0

/-- A measured candidate; a candidate that was never found has no values. -/
structure Scored where
  values : Option Candidate := none
  fitness : Float := 0

/-- The outcome of a session. -/
structure Report where
  sessionId : String := ""
  config : RunConfig := {}
  /-- The number of candidates of the space, in decimal. -/
  volume : String := ""
  best : Scored := {}
  /-- The best candidates in order. -/
  top : List Scored := []
  stats : Stats := {}
  rounds : Int64 := 0
  converged : Bool := false
  evaluations : Int64 := 0
  failures : Int64 := 0
  startedAt : Instant := .zero
  finishedAt : Instant := .zero

/-- What a listing shows of a report. -/
structure ReportInfo where
  sessionId : String := ""
  objective : String := ""
  mode : String := ""
  bestFitness : Float := 0
  evaluations : Int64 := 0
  rounds : Int64 := 0
  timestamp : Instant := .zero

/-- Why a report cannot be stored. -/
structure ReportFault where
  field : String
  reason : String
  deriving DecidableEq, Repr

/-- The words for a report that cannot be stored. -/
def ReportFault.message (f : ReportFault) : String :=
  "validation error: " ++ f.field ++ " " ++ f.reason

/-- The part of a configuration that a report records. -/
def Config.recorded (c : Config) : RunConfig :=
  { spacePath := c.spacePath, objective := c.objective, mode := c.mode, rounds := c.rounds
    parents := c.parents, offspring := c.offspring, mutateRate := c.mutateRate, seed := c.seed
    workers := c.workers, patience := c.patience }

namespace RunConfig

/-- The fields of the document of a recorded configuration. -/
def fields : List (Json.Field RunConfig) :=
  [.of "spacePath" Json.string? fun x c => { c with spacePath := x },
    .of "objective" Json.string? fun x c => { c with objective := x },
    .of "mode" Json.string? fun x c => { c with mode := x },
    .of "rounds" Json.word? fun x c => { c with rounds := x },
    .of "parents" Json.word? fun x c => { c with parents := x },
    .of "offspring" Json.word? fun x c => { c with offspring := x },
    .of "mutateRate" Json.float? fun x c => { c with mutateRate := x },
    .of "seed" Json.word? fun x c => { c with seed := x },
    .of "workers" Json.word? fun x c => { c with workers := x },
    .of "patience" Json.word? fun x c => { c with patience := x }]

/-- The document of a recorded configuration. -/
def encode (c : RunConfig) : Except EncodeError Json := do
  let word := fun (n : Int64) => Json.int n.toInt
  return .object
    (Json.field? (c.spacePath != "") "spacePath" (.string c.spacePath)
    ++ [("objective", .string c.objective), ("mode", .string c.mode), ("rounds", word c.rounds),
      ("parents", word c.parents), ("offspring", word c.offspring),
      ("mutateRate", ← encodeFloat c.mutateRate), ("seed", word c.seed), ("workers", word c.workers)]
    ++ Json.field? (c.patience != 0) "patience" (word c.patience))

end RunConfig

/-- The names of an object, set one after another over a mapping. -/
def Candidate.read? (j : Json) (old : Option Candidate) : Option (Option Candidate) :=
  match j with
  | .null => some none
  | .object fields =>
    (Value.fieldsOfJson? fields).map fun new =>
      some (new.foldl (fun done (name, value) => insertField name value done) (old.getD []))
  | _ => none

/-- A field that is a mapping; null takes it away. -/
def Json.Field.mapping {σ : Type} (name : String) (get : σ → Option Candidate)
    (set : Option Candidate → σ → σ) : Json.Field σ :=
  { name, read := fun j s => (Candidate.read? j (get s)).map (set · s) }

/-- An instant of a document. -/
def Json.instant? (j : Json) : Option Instant :=
  j.string?.bind Instant.parse?

/-- The document of a mapping that may be absent. -/
def encodeMapping : Option Candidate → Except EncodeError Json
  | none => .ok .null
  | some c => c.encode

namespace Scored

/-- The fields of the document of a measured candidate. -/
def fields : List (Json.Field Scored) :=
  [.mapping "values" (·.values) fun x s => { s with values := x },
    .of "fitness" Json.float? fun x s => { s with fitness := x }]

/-- The document of a measured candidate. -/
def encode (s : Scored) : Except EncodeError Json := do
  return .object [("values", ← encodeMapping s.values), ("fitness", ← encodeFloat s.fitness)]

end Scored

namespace Report

/-- The fields of the document of a report, apart from the best candidates. -/
def fields : List (Json.Field Report) :=
  [.of "sessionId" Json.string? fun x r => { r with sessionId := x },
    .record "config" RunConfig.fields (·.config) fun x r => { r with config := x },
    .of "volume" Json.string? fun x r => { r with volume := x },
    .record "best" Scored.fields (·.best) fun x r => { r with best := x },
    .record "stats" Stats.fields (·.stats) fun x r => { r with stats := x },
    .of "rounds" Json.word? fun x r => { r with rounds := x },
    .of "converged" Json.bool? fun x r => { r with converged := x },
    .of "evaluations" Json.word? fun x r => { r with evaluations := x },
    .of "failures" Json.word? fun x r => { r with failures := x },
    .of "startedAt" Json.instant? fun x r => { r with startedAt := x },
    .of "finishedAt" Json.instant? fun x r => { r with finishedAt := x }]

/-- A report that is being read. -/
structure Draft where
  report : Report := {}
  top : Json.Refilled Scored := {}

/-- The fields of the document of a report. -/
def Draft.fields : List (Json.Field Draft) :=
  .records "top" Scored.fields {} (·.top) (fun x d => { d with top := x })
    :: Report.fields.map (.within (·.report) fun x d => { d with report := x })

/-- Reads the document of a report. -/
def ofJson? (j : Json) : Option Report :=
  (Json.readRecord Draft.fields j {}).map fun d => { d.report with top := d.top.items }

/-- The document of a report. -/
def encode (r : Report) : Except EncodeError Json := do
  let config ← r.config.encode
  let best ← r.best.encode
  let top ← r.top.mapM Scored.encode
  let stats ← r.stats.encode
  return .object
    ([("sessionId", .string r.sessionId), ("config", config), ("volume", .string r.volume), ("best", best)]
    ++ Json.field? (!top.isEmpty) "top" (.array top)
    ++ [("stats", stats), ("rounds", .int r.rounds.toInt), ("converged", .bool r.converged),
      ("evaluations", .int r.evaluations.toInt), ("failures", .int r.failures.toInt),
      ("startedAt", ← encodeInstant r.startedAt), ("finishedAt", ← encodeInstant r.finishedAt)])

/-- The indented text of a report. -/
def text (r : Report) : Except EncodeError String := do
  let document ← r.encode
  if Json.maxDepth < document.depth then throw .tooDeep else return document.indented

/-- What a listing shows of a report. -/
def info (r : Report) : ReportInfo :=
  { sessionId := r.sessionId, objective := r.config.objective, mode := r.config.mode
    bestFitness := r.best.fitness, evaluations := r.evaluations, rounds := r.rounds
    timestamp := r.finishedAt }

/-- The time that the session took. -/
def duration (r : Report) : Duration :=
  r.finishedAt.since r.startedAt

/-- The first fault that keeps a report from being stored. -/
def validate (r : Report) : Except ReportFault Unit :=
  if r.sessionId = "" then .error ⟨"SessionID", "cannot be empty"⟩
  else if r.config.objective = "" then .error ⟨"Config.Objective", "cannot be empty"⟩
  else if r.config.mode ≠ "maximize" ∧ r.config.mode ≠ "minimize" then
    .error ⟨"Config.Mode", "unknown mode " ++ Text.quoted r.config.mode⟩
  else if r.evaluations < 0 ∨ r.failures < 0 ∨ r.rounds < 0 then
    .error ⟨"Evaluations", "counters cannot be negative"⟩
  else if r.evaluations < r.failures then .error ⟨"Failures", "cannot exceed evaluations"⟩
  else if r.failures < r.evaluations ∧ (r.best.values.getD []).isEmpty then
    .error ⟨"Best", "missing for a session with successful evaluations"⟩
  else if r.best.fitness.isNaN then .error ⟨"Best.Fitness", "is NaN"⟩
  else if r.finishedAt.isZero then .error ⟨"FinishedAt", "cannot be zero"⟩
  else if r.finishedAt.before r.startedAt then .error ⟨"FinishedAt", "before StartedAt"⟩
  else .ok ()

end Report

namespace ReportInfo

/-- The fields of the document of a listed report. -/
def fields : List (Json.Field ReportInfo) :=
  [.of "sessionId" Json.string? fun x r => { r with sessionId := x },
    .of "objective" Json.string? fun x r => { r with objective := x },
    .of "mode" Json.string? fun x r => { r with mode := x },
    .of "bestFitness" Json.float? fun x r => { r with bestFitness := x },
    .of "evaluations" Json.word? fun x r => { r with evaluations := x },
    .of "rounds" Json.word? fun x r => { r with rounds := x },
    .of "timestamp" Json.instant? fun x r => { r with timestamp := x }]

/-- Reads the document of a listed report. -/
def ofJson? (j : Json) : Option ReportInfo :=
  Json.readRecord fields j {}

/-- The document of a listed report. -/
def encode (r : ReportInfo) : Except EncodeError Json := do
  return .object
    [("sessionId", .string r.sessionId), ("objective", .string r.objective), ("mode", .string r.mode),
      ("bestFitness", ← encodeFloat r.bestFitness), ("evaluations", .int r.evaluations.toInt),
      ("rounds", .int r.rounds.toInt), ("timestamp", ← encodeInstant r.timestamp)]

end ReportInfo

end Tuning
