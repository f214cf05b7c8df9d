import Tuning.Population.Mode
import Tuning.Time.Duration
import Tuning.Value.Document

/-! # Configuration of a session -/

namespace Tuning

/-- What a session is told to do. -/
structure Config where
  objective : String := ""
  mode : String := ""
  rounds : Int64 := 0
  parents : Int64 := 0
  offspring : Int64 := 0
  mutateRate : Float := 0
  seed : Int64 := 0
  /-- The number of measurements made at a time. -/
  workers : Int64 := 0
  /-- The time limit of one measurement; zero is none. -/
  evalTimeout : Duration := ⟨0⟩
  /-- The number of rounds without progress that end the session; zero is no end. -/
  patience : Int64 := 0
  /-- The least relative gain that counts as progress. -/
  threshold : Float := 0
  /-- The number of candidates that the report shows. -/
  topK : Int64 := 0
  /-- Where the space was read from. -/
  spacePath : String := ""

/-- A field of a configuration that breaks a rule. -/
structure FieldFault where
  field : String
  rule : String
  /-- The bound of the rule, if it has one. -/
  bound : String
  /-- The text of the value. -/
  value : String
  deriving DecidableEq, Repr

/-- The words for a field that breaks a rule. -/
def FieldFault.message (f : FieldFault) : String :=
  let rule := if f.bound = "" then f.rule else f.rule ++ "=" ++ f.bound
  f.field ++ " must satisfy " ++ rule ++ " (got " ++ f.value ++ ")"

/-- All fields that break a rule. -/
structure ConfigError where
  faults : List FieldFault
  deriving DecidableEq, Repr

/-- The words for a bad configuration. -/
def ConfigError.message (e : ConfigError) : String :=
  "invalid session config: " ++ String.intercalate "; " (e.faults.map (·.message))

namespace Config

/-- The configuration that is used where nothing else is said. -/
def standard : Config :=
  { objective := "matmul", mode := "maximize", rounds := 20, parents := 16, offspring := 16
    mutateRate := 0.5, seed := 1, workers := 4, threshold := 0.001, topK := 5 }

/-- The first of several rules that a field breaks; a rule is a name, a bound and whether it holds. -/
def check (field value : String) (rules : List (String × String × Bool)) : List FieldFault :=
  match rules.find? fun (_, _, holds) => !holds with
  | some (rule, bound, _) => [{ field, rule, bound, value }]
  | none => []

/-- Checks an integer from below. -/
def checkLeast (field rule : String) (least n : Int64) : List FieldFault :=
  check field (toString n.toInt) [(rule, toString least.toInt, least ≤ n)]

/-- The faults of a configuration, one at most for every field. -/
def faults (c : Config) : List FieldFault :=
  check "Objective" c.objective [("required", "", c.objective != "")]
    ++ check "Mode" c.mode [("oneof", "maximize minimize", c.mode == "maximize" || c.mode == "minimize")]
    ++ checkLeast "Rounds" "min" 1 c.rounds
    ++ checkLeast "Parents" "min" 1 c.parents
    ++ checkLeast "Offspring" "min" 1 c.offspring
    ++ check "MutateRate" (messageNumber c.mutateRate)
      [("gte", "0", c.mutateRate ≥ 0), ("lt", "1", c.mutateRate < 1)]
    ++ check "Workers" (toString c.workers.toInt)
      [("min", "1", 1 ≤ c.workers), ("max", "1024", c.workers ≤ 1024)]
    ++ check "EvalTimeout" c.evalTimeout.toText [("gte", "0", 0 ≤ c.evalTimeout.nanoseconds)]
    ++ checkLeast "Patience" "gte" 0 c.patience
    ++ check "Threshold" (messageNumber c.threshold) [("gte", "0", c.threshold ≥ 0)]
    ++ checkLeast "TopK" "gte" 0 c.topK

/-- A configuration is valid if no field breaks a rule. -/
def validate (c : Config) : Except ConfigError Unit :=
  if c.faults.isEmpty then .ok () else .error ⟨c.faults⟩

/-- The fields of the document of a configuration. -/
def fields : List (Json.Field Config) :=
  [.of "objective" Json.string? fun x c => { c with objective := x },
    .of "mode" Json.string? fun x c => { c with mode := x },
    .of "rounds" Json.word? fun x c => { c with rounds := x },
    .of "parents" Json.word? fun x c => { c with parents := x },
    .of "offspring" Json.word? fun x c => { c with offspring := x },
    .of "mutateRate" Json.float? fun x c => { c with mutateRate := x },
    .of "seed" Json.word? fun x c => { c with seed := x },
    .of "workers" Json.word? fun x c => { c with workers := x },
    .of "evalTimeout" Json.word? fun x c => { c with evalTimeout := ⟨x⟩ },
    .of "patience" Json.word? fun x c => { c with patience := x },
    .of "threshold" Json.float? fun x c => { c with threshold := x },
    .of "topK" Json.word? fun x c => { c with topK := x },
    .of "spacePath" Json.string? fun x c => { c with spacePath := x }]

/-- Reads a document over a configuration. -/
def read? (j : Json) (c : Config) : Option Config :=
  Json.readRecord fields j c

/-- The document of a configuration. -/
def encode (c : Config) : Except EncodeError Json := do
  let word := fun (n : Int64) => Json.int n.toInt
  return .object
    ([("objective", .string c.objective), ("mode", .string c.mode), ("rounds", word c.rounds),
      ("parents", word c.parents), ("offspring", word c.offspring),
      ("mutateRate", ← encodeFloat c.mutateRate), ("seed", word c.seed), ("workers", word c.workers)]
    ++ Json.field? (c.evalTimeout.nanoseconds != 0) "evalTimeout" (word c.evalTimeout.nanoseconds)
    ++ Json.field? (c.patience != 0) "patience" (word c.patience)
    ++ [("threshold", ← encodeFloat c.threshold), ("topK", word c.topK)]
    ++ Json.field? (c.spacePath != "") "spacePath" (.string c.spacePath))

end Config

end Tuning
