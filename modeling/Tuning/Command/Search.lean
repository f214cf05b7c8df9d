import Tuning.Command.Console
import Tuning.Command.Settings
import Tuning.Text.Amount
import Tuning.Text.Table

/-! # Search commands

Commands that describe a space, search it, and compare searches of it. -/

namespace Tuning

namespace Settings

/-- Searches a space and tells what came of it. -/
def search (s : Settings) : Console Unit := do
  let space ← Console.loadSpace s.spacePath
  let objective ← Console.require (.objectiveAmong · Objective.names) (Objective.ofName s.config.objective)
  let store ← if s.noStore then pure none else some <$> Console.openStore s.dataDir
  let result ← Console.runSession store space objective { s.config with spacePath := s.spacePath }
  let report := result.report
  Console.line ("Session:     " ++ report.sessionId)
  Console.line ("Volume:      " ++ Amount.comma result.population.volume)
  Console.line ("Evaluations: " ++ Amount.comma report.evaluations.toInt ++ " ("
    ++ toString report.failures.toInt ++ " failed, " ++ toString result.cached ++ " cached)")
  if result.exhausted then Console.line "Search space exhausted."
  if report.converged then Console.line ("Converged after " ++ toString report.rounds.toInt ++ " rounds.")
  let best := report.best.values.getD []
  if best.isEmpty then Console.line "No candidate was evaluated successfully."
  else
    let document ← Console.require .encodeBest (encodeMapping (some best))
    Console.line ("Best:        " ++ document.compact)
    Console.line ("Fitness:     " ++ significantNumber 6 report.best.fitness ++ " ("
      ++ report.config.mode ++ ")")

/-- The values of a parameter in words. -/
def domainText : Domain → String
  | .choice atoms => (Value.list atoms).message
  | .discrete numbers => (Value.ints numbers).message
  | .permutation size => "orderings of " ++ toString size.toInt
  | .factor product slots => toString product.toInt ++ " into " ++ toString slots.toInt ++ " slots"
  | .unknown _ => "?"

/-- The line of a parameter whose domain has the given size. -/
def parameterLine (p : Parameter) (card : Nat) : String :=
  let rate := (p.rate.map (fixedNumber 2)).getD "default"
  "\t".intercalate [p.name, p.domain.kindName, domainText p.domain, Amount.comma card,
    toString p.seeds.length, rate] ++ "\n"

/-- Draws with a source; a source that runs dry leaves the search stuck. -/
def drawn {ε α : Type} (wrap : ε → CommandError) (d : ExceptT ε Draw α) (source : Source) :
    Console (α × Source) :=
  match d source with
  | some (.ok a, source) => pure (a, source)
  | some (.error error, _) => throw (wrap error)
  | none => throw (.session .stuck)

/-- Describes a space. -/
def describe (s : Settings) : Console Unit := do
  let space ← Console.loadSpace s.spacePath
  let (population, source) ← drawn .population (Population.make space 0.0 .maximize) (Source.ofSeed 1)
  let (individual, _) ← drawn .individual (Individual.make space 0.0) source
  let rows := (space.parameters.zip individual.cards).map fun (p, card) => parameterLine p card
  Console.write (Table.align ("NAME\tKIND\tDOMAIN\tSIZE\tSEEDS\tRATE\n----\t----\t------\t----\t-----\t----\n"
    ++ String.join rows))
  Console.line ("\nSeed combinations: " ++ Amount.comma space.combinations.toInt)
  Console.line ("Volume:            " ++ Amount.comma population.volume)

/-- The line of a search that was compared. -/
def comparisonLine (name : String) (fitness : Float) (evaluations : Int) (best : Option Candidate) : String :=
  let document := match encodeMapping best with
    | .ok j => j.compact
    | .error _ => ""
  "\t".intercalate [name, significantNumber 6 fitness, toString evaluations, document] ++ "\n"

/-- The configuration of the search that others are compared with. -/
def comparedConfig (s : Settings) : Config :=
  let c := s.comparison
  { Config.standard with
    objective := c.objective, mode := c.mode, offspring := c.offspring, parents := c.offspring
    rounds := c.budget / c.offspring, seed := c.seed, spacePath := s.spacePath }

/-- The searches of the unit box to compare with. About two evaluations go to every member of a swarm in
an iteration. -/
def rivals (library : Swarm) (c : Comparison) : List Optimizer :=
  let members := max c.members (Int64.ofInt Optimizer.leastSwarm)
  let iterations := max (c.budget / (2 * members)) 1
  [.swarm library iterations.toInt c.members.toInt c.seed, .random (c.budget * 4).toInt c.seed]

/-- Runs a baseline and gives its line. -/
def rivalLine (c : Comparison) (space : Space) (objective : Objective) (mode : Mode) (o : Optimizer) :
    Console String := do
  let b : Baseline := { optimizer := o, objective, mode, budget := c.budget.toInt }
  let (finding, _) ← drawn (.baseline o.name) (b.run {} space) (Source.ofSeed c.seed)
  return comparisonLine finding.optimizer finding.fitness finding.evaluations (some finding.best)

/-- Compares searches of a space. -/
def compareSearches (s : Settings) : Console Unit := do
  let c := s.comparison
  let space ← Console.loadSpace s.spacePath
  let objective ← Console.require .objective (Objective.ofName c.objective)
  if c.budget < c.offspring then throw (.smallBudget c.budget c.offspring)
  if c.offspring = 0 then throw .emptyGeneration
  let mode ← Console.require .mode (Mode.ofName c.mode)
  let result ← Console.runSession none space objective s.comparedConfig
  let report := result.report
  let first := comparisonLine "opevo" report.best.fitness report.evaluations.toInt report.best.values
  let rest ← (rivals (← get).swarm c).mapM (rivalLine c space objective mode)
  Console.write (Table.align
    ("OPTIMIZER\tBEST FITNESS\tEVALUATIONS\tBEST CANDIDATE\n"
    ++ "---------\t------------\t-----------\t--------------\n"
    ++ String.join (first :: rest)))

/-- Starts the service. Without a listener it fails to start, after the store was opened. -/
def serve (s : Settings) : Console Unit := do
  if !s.noStore then discard (Console.openStore s.dataDir)
  throw .listen

end Settings

end Tuning
