import Tuning.Individual
import Tuning.Population.Mode
import Tuning.Population.Ranking
import Tuning.Population.Wheel
import Tuning.Powers

/-! # Populations

A population is the ranked history of the individuals that were measured, best first, with the
starting values that have not been tried. -/

namespace Tuning

open scoped Powers

/-- Why a population cannot be made. -/
inductive PopulationError where
  | rate (x : Float)
  | space (fault : SpaceFault)
  | parameter (e : ParameterError)

/-- The words for a population that cannot be made. -/
def PopulationError.message : PopulationError → String
  | rate x => "mutate rate must be in [0, 1), got " ++ messageNumber x
  | space fault => fault.message
  | parameter e => e.message

/-- A ranked history and what new individuals are made from. -/
structure Population where
  rate : Float
  mode : Mode
  /-- The spaces with one starting value each that are still to be tried. -/
  pending : List Space
  /-- An individual of the space that random individuals are drawn from. -/
  reference : Individual
  /-- The number of individuals of the space. -/
  volume : Nat
  /-- Individuals with scores, higher scores first. -/
  history : List (Individual × Float)

namespace Population

/-- A population without history. Every starting value is tried once, so that what is wrong with a
parameter comes up here. A domain is listed to be counted, and a listing that is longer than machine
integers can count has no end. -/
def make (s : Space) (rate : Float) (mode : Mode) : ExceptT PopulationError Draw Population := do
  if rate < 0.0 || 1.0 ≤ rate then throw (.rate rate)
  if let .error fault := s.validate then throw (.space fault)
  let pending := s.expand
  let _ ← pending.mapM fun bound => ExceptT.adapt .parameter (Individual.make bound rate)
  let reference ← ExceptT.adapt .parameter (Individual.make (pending.headD s) rate)
  (guard (reference.cards.all (· < 2 ^ (63 : Nat))) : Draw Unit)
  return { rate, mode, pending, reference, volume := reference.cards.foldl (· * ·) 1, history := [] }

/-- How many individuals are recorded. -/
def size (p : Population) : Nat :=
  p.history.length

/-- Whether an individual is the same as a recorded one. -/
def records (p : Population) (x : Individual) : Bool :=
  p.history.any fun (y, _) => x.same y

/-- Records a measured individual; one that is already recorded is refused. -/
def append (p : Population) (x : Individual) (fitness : Float) : Option Population :=
  if p.records x then none
  else some { p with history := Ranking.insert x (p.mode.orient fitness) p.history }

/-- The history with fitness in place of scores. -/
def ranked (p : Population) : List (Individual × Float) :=
  p.history.map fun (x, score) => (x, p.mode.orient score)

/-- The best individual and its fitness. -/
def best? (p : Population) : Option (Individual × Float) :=
  p.ranked.head?

end Population

end Tuning
