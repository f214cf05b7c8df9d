import Tuning.Baseline.Position
import Tuning.Random.Source

/-! # Optimizers over a box

An optimizer looks for a position of least cost. It knows the cost only by asking for it. -/

namespace Tuning

/-- The bounds of positions. -/
structure Box where
  lower : List Float
  upper : List Float
  dimension : Int

namespace Box

/-- Whether every dimension has its bounds. -/
def isBounded (b : Box) : Bool :=
  0 ≤ b.dimension && b.dimension ≤ b.lower.length && b.dimension ≤ b.upper.length

/-- A position drawn evenly from the box. -/
def draw (b : Box) : Draw Position :=
  ((b.lower.zip b.upper).take b.dimension.toNat).mapM fun (low, high) =>
    return low + (← Draw.fraction) * (high - low)

end Box

/-- The position of least cost so far; of equal costs the first stays. -/
abbrev Leader := Option (Position × Float)

/-- Takes another position into account. -/
def Leader.update (leader : Leader) (x : Position) (cost : Float) : Leader :=
  match leader with
  | none => some (x, cost)
  | some (_, least) => if cost < least then some (x, cost) else leader

/-- A way to choose positions. -/
structure Optimizer where
  name : String
  /-- Whether a box has the bounds that the search needs. -/
  accepts : Box → Bool
  run : {σ : Type} → (ask : Position → σ → Float × σ) → Box → σ → Leader × σ

namespace Optimizer

/-- Asks for the costs of positions in order. -/
def survey {σ : Type} (ask : Position → σ → Float × σ) : List Position → Leader → σ → Leader × σ
  | [], leader, s => (leader, s)
  | x :: rest, leader, s =>
    let (cost, s) := ask x s
    survey ask rest (leader.update x cost) s

/-- Asks for the costs of positions drawn one after another. -/
def sample {σ : Type} (ask : Position → σ → Float × σ) (box : Box) :
    (count : Nat) → Source → Leader → σ → Leader × σ
  | 0, _, leader, s => (leader, s)
  | count + 1, source, leader, s =>
    match box.draw source with
    | none => (leader, s)
    | some (x, source) =>
      let (cost, s) := ask x s
      sample ask box count source (leader.update x cost) s

/-- Positions drawn evenly; at least one. -/
def random (samples : Int) (seed : Int64) : Optimizer :=
  { name := "random"
    accepts := Box.isBounded
    run := fun ask box s => sample ask box (max samples 1).toNat (Source.ofSeed seed) none s }

/-- Positions given beforehand. -/
def scripted (positions : List Position) : Optimizer :=
  { name := "scripted"
    accepts := fun _ => true
    run := fun ask _ s => survey ask positions none s }

end Optimizer

/-! ## Swarms -/

/-- What a swarm is told. It knows one lower and one upper bound for all dimensions. -/
structure Flight where
  iterations : Int
  members : Int
  seed : Int64
  low : Float
  high : Float
  dimension : Int

/-- A search that goes by the costs it is told: it is settled on a position and its cost, or asks
for the cost of another position. -/
inductive Inquiry where
  | settled (x : Position) (cost : Float)
  | ask (x : Position) (next : Float → Inquiry)

/-- Answers the questions of a search. -/
def Inquiry.run {σ : Type} (answer : Position → σ → Float × σ) : Inquiry → σ → Leader × σ
  | settled x cost, s => (some (x, cost), s)
  | ask x next, s =>
    let (cost, s) := answer x s
    (next cost).run answer s

/-- Swarms from outside: how one searches, unless it refuses what it is told. -/
abbrev Swarm := Flight → Option Inquiry

namespace Optimizer

/-- The least number of members of a swarm. -/
def leastSwarm : Int := 20

/-- The flight over a box. All dimensions share the bounds of the first one. -/
def flight? (iterations members : Int) (seed : Int64) (box : Box) : Option Flight :=
  match box.lower, box.upper with
  | low :: _, high :: _ =>
    some { iterations := max iterations 1, members := max members leastSwarm, seed, low, high
           dimension := box.dimension }
  | _, _ => none

/-- A swarm over a box. A box that it refuses is represented by its lower corner. -/
def swarm (library : Swarm) (iterations members : Int) (seed : Int64) : Optimizer :=
  { name := "mayfly"
    accepts := fun box =>
      match flight? iterations members seed box with
      | some flight =>
        (library flight).isSome || (0 ≤ box.dimension && box.dimension ≤ box.lower.length)
      | none => false
    run := fun ask box s =>
      match (flight? iterations members seed box).bind library with
      | some inquiry => inquiry.run ask s
      | none => survey ask [box.lower.take box.dimension.toNat] none s }

end Optimizer

end Tuning
