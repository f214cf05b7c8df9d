import Tuning.Json.Raw
import Tuning.Objective.Registry
import Tuning.Service.Basic

/-! # Submissions

The body of a request for a session: a space, and what its configuration changes of the standard
one. -/

namespace Tuning

/-- What a request for a session holds. -/
structure Submission where
  /-- The text of the space. -/
  space : String := ""
  /-- The standard configuration with its changes. -/
  config : Config := .standard
  /-- After a null in place of the configuration: what came then, over a blank configuration. -/
  blank : Option (Option Config) := none

/-- Why a request for a session is refused. -/
inductive SubmissionError where
  | malformed
  | space (error : RequestedSpaceError)
  | config (error : ConfigError)
  | objective (error : UnknownObjective)
  | mode (error : UnknownMode)
  | population (error : PopulationError)

/-- The words for a refused request. -/
def SubmissionError.message : SubmissionError → String
  | malformed => "Invalid JSON: ..."
  | space error => error.message
  | config error => error.message
  | objective error => error.message
  | mode error => error.message
  | population error => error.message

instance : Explained SubmissionError where
  kind
    | .malformed => .json
    | .space e => errorKind e
    | .config e => errorKind e
    | .objective e => errorKind e
    | .mode e => errorKind e
    | .population e => errorKind e
  message e := e.message

namespace Submission

/-- The largest number of bytes that are read of a body. -/
def limit : Nat := 1048576

/-- The characters that lie within a number of bytes; those passed so far are kept in reverse. -/
def within : (bytes : Nat) → (done : List Char) → List Char → List Char
  | _, done, [] => done.reverse
  | bytes, done, c :: rest =>
    if c.utf8Size ≤ bytes then within (bytes - c.utf8Size) (c :: done) rest else done.reverse

/-- Takes in a configuration. -/
def configure (r : Submission) (j : Json) : Option Submission :=
  match j, r.blank with
  | .null, _ => some { r with blank := some none }
  | j, none => (Config.read? j r.config).map fun config => { r with config }
  | j, some old => (Config.read? j (old.getD {})).map fun config => { r with blank := some (some config) }

/-- Takes in fields one after another; unknown ones are passed over. -/
def readFields? : List (String × String) → Submission → Option Submission
  | [], r => some r
  | (name, text) :: rest, r =>
    if Json.sameName name "space" then readFields? rest { r with space := text }
    else if Json.sameName name "config" then
      match (Json.parse? text).bind r.configure with
      | none => none
      | some r => readFields? rest r
    else readFields? rest r

/-- Reads the first value of a body. -/
def read? (body : String) : Option Submission :=
  let cs := within limit [] body.toList
  match Json.first? cs with
  | some (.null, _) => some {}
  | some (.object _, _) => (Json.rawFields? cs).bind (readFields? · {})
  | _ => none

/-- The configuration that was asked for. -/
def wanted (r : Submission) : Config :=
  match r.blank with
  | some (some config) => config
  | _ => r.config

/-- Checks everything about a body; the search could start with what is left. -/
def check (body : String) : Except SubmissionError (Space × Config × Objective) := do
  let some r := read? body | throw .malformed
  let config := r.wanted
  let space ← (Space.ofRequest r.space).mapError .space
  config.validate.mapError .config
  let objective ← (Objective.ofName config.objective).mapError .objective
  let mode ← (Mode.ofName config.mode).mapError .mode
  match Population.make space config.mutateRate mode (Source.ofSeed config.seed) with
  | some (.error error, _) => throw (.population error)
  | _ => return (space, config, objective)

end Submission

end Tuning
