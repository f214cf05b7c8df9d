import Tuning.Command.Flag
import Tuning.Baseline.Optimizer
import Tuning.Session.Config

/-! # Settings

What the flags of all commands set, with the values that hold without flags. -/

namespace Tuning

/-- A comparison of searches. -/
structure Comparison where
  objective : String := "matmul"
  mode : String := "maximize"
  /-- The evaluations for each search. -/
  budget : Int64 := 256
  offspring : Int64 := 16
  members : Int64 := Int64.ofInt Optimizer.leastSwarm
  seed : Int64 := 42

/-- The settings of all commands. -/
structure Settings where
  help : Bool := false
  logLevel : String := "info"
  dataDir : String := "./data"
  spacePath : String := ""
  config : Config := .standard
  noStore : Bool := false
  comparison : Comparison := {}
  address : String := ":8080"
  grace : Duration := ⟨10000000000⟩
  keepLast : Int64 := 0
  olderThan : Int64 := 0
  force : Bool := false

namespace Settings

/-- Changes the configuration. -/
def configure (f : Config → Config) (s : Settings) : Settings :=
  { s with config := f s.config }

/-- Changes the comparison. -/
def compare (f : Comparison → Comparison) (s : Settings) : Settings :=
  { s with comparison := f s.comparison }

/-- The flags of all commands. -/
def shared : List (Flag Settings) :=
  [.text "log-level" "Log level (debug, info, warn, error)" (·.logLevel) fun x s => { s with logLevel := x },
    .text "data-dir" "Base directory for session reports and traces" (·.dataDir) fun x s =>
      { s with dataDir := x }]

/-- The flag that asks for help on a command. -/
def helpFlag (command : String) : Flag Settings :=
  .switch "help" ("help for " ++ command) (some 'h') fun x s => { s with help := x }

/-- The flag for the file of a space. -/
def spaceFlag : Flag Settings :=
  .text "space" "Search-space file, YAML or JSON (required)" (·.spacePath) fun x s =>
    { s with spacePath := x }

/-- The flag to keep nothing. -/
def noStoreFlag (help : String) : Flag Settings :=
  .switch "no-store" help none fun x s => { s with noStore := x }

/-- The flags of a session. -/
def sessionFlags : List (Flag Settings) :=
  [spaceFlag,
    .text "objective" "Objective to maximize or minimize" (·.config.objective) fun x =>
      configure fun c => { c with objective := x },
    .text "mode" "Optimization mode: maximize, minimize" (·.config.mode) fun x =>
      configure fun c => { c with mode := x },
    .word "rounds" "Number of generations" (·.config.rounds) fun x =>
      configure fun c => { c with rounds := x },
    .word "parents" "Number of top candidates that pass genes on" (·.config.parents) fun x =>
      configure fun c => { c with parents := x },
    .word "offspring" "Candidates per generation" (·.config.offspring) fun x =>
      configure fun c => { c with offspring := x },
    .float "mutate-rate" "Mutation rate in [0, 1)" (·.config.mutateRate) fun x =>
      configure fun c => { c with mutateRate := x },
    .word "seed" "Random seed" (·.config.seed) fun x => configure fun c => { c with seed := x },
    .word "workers" "Concurrent evaluations" (·.config.workers) fun x =>
      configure fun c => { c with workers := x },
    .duration "timeout" "Timeout per evaluation (0 = none)" (·.config.evalTimeout) fun x =>
      configure fun c => { c with evalTimeout := x },
    .word "patience" "Stop after N generations without improvement (0 = never)" (·.config.patience) fun x =>
      configure fun c => { c with patience := x },
    .float "threshold" "Minimum relative improvement for --patience" (·.config.threshold) fun x =>
      configure fun c => { c with threshold := x },
    .word "top" "Number of best candidates kept in the report" (·.config.topK) fun x =>
      configure fun c => { c with topK := x },
    noStoreFlag "Do not write a report or trace"]

/-- The flags of a comparison. -/
def comparisonFlags : List (Flag Settings) :=
  [spaceFlag,
    .text "objective" "Objective to compare on" (·.comparison.objective) fun x =>
      compare fun c => { c with objective := x },
    .text "mode" "Optimization mode: maximize, minimize" (·.comparison.mode) fun x =>
      compare fun c => { c with mode := x },
    .word "budget" "Evaluations per optimizer" (·.comparison.budget) fun x =>
      compare fun c => { c with budget := x },
    .word "offspring" "Candidates per generation of the evolutionary search" (·.comparison.offspring) fun x =>
      compare fun c => { c with offspring := x },
    .word "pop" "Mayfly population size" (·.comparison.members) fun x =>
      compare fun c => { c with members := x },
    .word "seed" "Random seed" (·.comparison.seed) fun x => compare fun c => { c with seed := x }]

/-- The flags of the service. -/
def serviceFlags : List (Flag Settings) :=
  [.text "addr" "Listen address" (·.address) fun x s => { s with address := x },
    noStoreFlag "Do not write reports or traces",
    .duration "shutdown-timeout" "Grace period for open requests on shutdown" (·.grace) fun x s =>
      { s with grace := x }]

/-- The flags of a clean-up. -/
def retentionFlags : List (Flag Settings) :=
  [.word "keep-last" "Keep only the last N sessions (0 = keep all)" (·.keepLast) fun x s =>
      { s with keepLast := x },
    .word "older-than" "Delete sessions older than N days (0 = no age limit)" (·.olderThan) fun x s =>
      { s with olderThan := x },
    .switch "force" "Skip confirmation prompt" (some 'f') fun x s => { s with force := x }]

end Settings

end Tuning
