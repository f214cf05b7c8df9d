import Std.Data.HashMap
import Tuning.Baseline.Optimizer
import Tuning.Individual
import Tuning.Objective.Basic
import Tuning.Population.Mode

/-! # The baseline

For comparison a space is searched by an optimizer over a box: every parameter is a dimension, cut into
as many cells as its domain has elements. Each candidate is measured once, and only as many of them as
the budget allows. -/

namespace Tuning

/-- A search by an optimizer. -/
structure Baseline where
  optimizer : Optimizer
  objective : Objective
  mode : Mode
  /-- The number of candidates that may be measured. -/
  budget : Int

/-- What a baseline has asked for and found. -/
structure Ledger where
  /-- The costs of measured candidates by key. -/
  costs : Std.HashMap String Float := {}
  /-- Candidates measured. -/
  evaluations : Nat := 0
  /-- Positions asked for. -/
  lookups : Nat := 0
  /-- Measurements that failed. -/
  failures : Nat := 0
  /-- The first measured candidate of least cost, where that is below infinity. -/
  best : Option (Individual × Float) := none

/-- The best candidate of a baseline. -/
structure Finding where
  optimizer : String
  best : Candidate
  fitness : Float
  evaluations : Nat
  failures : Nat
  lookups : Nat

/-- Why a baseline has no finding. -/
inductive BaselineError where
  | badBudget (budget : Int)
  | noSource
  | template (error : ParameterError)
  /-- The optimizer needs a box with other bounds. -/
  | unbounded
  | ended (ending : Ending)
  | nothingValid (optimizer : String) (evaluations : Nat)
  deriving DecidableEq, Repr

namespace BaselineError

/-- The words for a baseline without finding. -/
def message : BaselineError → String
  | badBudget budget => "budget must be positive, got " ++ toString budget
  | noSource => "failed to build template: " ++ Source.missing
  | template error => "failed to build template: " ++ error.message
  | unbounded => "search box has no bounds"
  | ended ending => ending.message
  | nothingValid optimizer evaluations =>
    "baseline " ++ optimizer ++ " found no valid candidate in " ++ toString evaluations ++ " evaluations"

end BaselineError

/-- An objective as a baseline sees it. It may keep a state of its own from one measurement to the next. -/
structure Gauge (τ : Type) where
  evaluate : Context → Candidate → τ → Except Failure Float × τ

/-- An objective that keeps nothing. -/
def Objective.gauge {τ : Type} (o : Objective) : Gauge τ :=
  { evaluate := fun context c t => (o.evaluate context c, t) }

namespace Baseline

/-- The greatest finite double, the cost of what cannot be measured. -/
def worst : Float := 1.7976931348623157e308

/-- The cost of a fitness. -/
def cost (b : Baseline) (fitness : Float) : Float :=
  match b.mode with
  | .minimize => fitness
  | .maximize => -fitness

/-- The cost of a candidate by what came of measuring it. -/
def costOf (b : Baseline) : Except Failure Float → Float
  | .ok fitness => b.cost fitness
  | .error _ => worst

/-- The least cost so far. -/
def Ledger.leastCost (l : Ledger) : Float :=
  match l.best with
  | some (_, cost) => cost
  | none => 1.0 / 0.0

/-- Enters what came of measuring a candidate. -/
def enter (b : Baseline) (x : Individual) (result : Except Failure Float) (l : Ledger) : Ledger :=
  let cost := b.costOf result
  { l with
    costs := l.costs.insert x.key cost, evaluations := l.evaluations + 1
    failures := match result with
      | .ok _ => l.failures
      | .error _ => l.failures + 1
    best := if cost < Ledger.leastCost l then some (x, cost) else l.best }

/-- The individual at a position. -/
def individualAt (template : Individual) (position : Position) : Individual :=
  template.select ((position.decode (template.cards.map Int64.ofNat)).map Int64.toInt)

/-- The unit box over the domains of a template. -/
def box (template : Individual) : Box :=
  let cells := template.cards
  { lower := cells.map fun _ => 0.0, upper := cells.map fun _ => 1.0, dimension := cells.length }

/-- What a ledger amounts to. -/
def finding (b : Baseline) (context : Context) (l : Ledger) : Except BaselineError Finding :=
  match context.ended, l.best with
  | some ending, _ => .error (.ended ending)
  | none, none => .error (.nothingValid b.optimizer.name l.evaluations)
  | none, some (x, cost) =>
    if cost == worst then .error (.nothingValid b.optimizer.name l.evaluations)
    else .ok
      { optimizer := b.optimizer.name, best := x.candidate
        fitness := match b.mode with
          | .minimize => cost
          | .maximize => -cost
        evaluations := l.evaluations, failures := l.failures, lookups := l.lookups }

end Baseline

namespace Gauge

variable {τ : Type}

/-- Measures a candidate that was not measured before. -/
def measure (g : Gauge τ) (b : Baseline) (context : Context) (x : Individual) (s : Ledger × τ) :
    Float × (Ledger × τ) :=
  let (result, t) := g.evaluate context x.candidate s.2
  (b.costOf result, (b.enter x result s.1, t))

/-- The cost of a position: that of its candidate, if that is known or can be measured. -/
def ask (g : Gauge τ) (b : Baseline) (context : Context) (template : Individual) (position : Position)
    (s : Ledger × τ) : Float × (Ledger × τ) :=
  let l := { s.1 with lookups := s.1.lookups + 1 }
  let x := Baseline.individualAt template position
  match l.costs.get? x.key with
  | some cost => (cost, (l, s.2))
  | none =>
    if b.budget ≤ l.evaluations || context.ended.isSome then (Baseline.worst, (l, s.2))
    else g.measure b context x (l, s.2)

/-- Searches with a template, whose genes only give the domains. -/
def search (g : Gauge τ) (b : Baseline) (context : Context) (template : Individual) (t : τ) :
    Except BaselineError Finding × τ :=
  let box := Baseline.box template
  if b.optimizer.accepts box then
    let (l, t) := (b.optimizer.run (g.ask b context template) box ({}, t)).2
    (b.finding context l, t)
  else (.error .unbounded, t)

/-- Searches a space. -/
def run (g : Gauge τ) (b : Baseline) (context : Context) (s : Space) (t : τ) :
    Draw (Except BaselineError Finding × τ) := do
  if b.budget < 1 then return (.error (.badBudget b.budget), t)
  match ← (Individual.make s 0.0).run with
  | .error error => return (.error (.template error), t)
  | .ok template => return g.search b context template t

end Gauge

namespace Baseline

/-- The cost of a position under the objective of the baseline. -/
def ask (b : Baseline) (context : Context) (template : Individual) (position : Position) (l : Ledger) :
    Float × Ledger :=
  let (cost, (l, ())) := b.objective.gauge.ask b context template position (l, ())
  (cost, l)

/-- Searches a space under the objective of the baseline. -/
def run (b : Baseline) (context : Context) (s : Space) : ExceptT BaselineError Draw Finding :=
  ExceptT.mk do return (← b.objective.gauge.run b context s ()).1

end Baseline

end Tuning
