import Tuning.Population.Basic

/-! # Breeding

A batch of children is new: no child is the same as a recorded individual or as another child. -/

namespace Tuning

/-- Why a batch cannot be bred. -/
inductive BreedError where
  | sizes (parents children : Int64)
  | exhausted (recorded : Nat) (requested : Int64) (volume : Nat)
  /-- No batch can hold so many children. -/
  | tooMany (children : Int64)
  | seed (e : ParameterError)

/-- The words for a batch that cannot be bred. -/
def BreedError.message : BreedError → String
  | sizes parents children =>
    "parents and offspring sizes must be positive, got " ++ toString parents.toInt ++ " and "
      ++ toString children.toInt
  | exhausted recorded requested volume =>
    "search space exhausted: " ++ toString recorded ++ " recorded, " ++ toString requested.toInt
      ++ " requested, volume " ++ toString volume
  | tooMany children => "no room for " ++ toString children.toInt ++ " children"
  | seed e => "failed to build seed individual: " ++ e.message

/-- How a batch is bred. -/
inductive Policy where
  /-- Starting values first, then random individuals. -/
  | coldStart
  /-- Random individuals. -/
  | restart
  /-- Genes of good individuals, perturbed. -/
  | crossover
  deriving DecidableEq, Repr

namespace Population

/-- The best score below which a population counts as collapsed. -/
def stagnation : Float := 1e-3

/-- How the next batch is bred: a short history starts cold, a collapsed one restarts. -/
def policy (p : Population) (parents : Nat) : Policy :=
  if p.size < parents then .coldStart
  else
    match p.history with
    | (_, score) :: _ => if score < stagnation then .restart else .crossover
    | [] => .coldStart

/-- Whether an individual is recorded or in a batch. -/
def collides (p : Population) (batch : List Individual) (x : Individual) : Bool :=
  p.records x || batch.any x.same

/-- Perturbs an individual until it is new, `fuel` times at most; a perturbation that changes nothing
is followed by a fresh draw. -/
def freshen (p : Population) (batch : List Individual) : (fuel : Nat) → Individual → Draw Individual
  | 0, _ => failure
  | fuel + 1, x =>
    if p.collides batch x then do
      let next ← x.mutate
      freshen p batch fuel (← if next.same x then next.reset else pure next)
    else pure x

/-- Perturbs an individual until it is new. -/
def unique (p : Population) (batch : List Individual) (x : Individual) : Draw Individual := do
  p.freshen batch ((← get).allowance + 1) x

/-- A random new individual. -/
def fresh (p : Population) (batch : List Individual) : Draw Individual := do
  p.unique batch (← p.reference.reset)

/-- An individual whose genes are taken from the top of the history, each from an individual that the
wheel picks. -/
def cross (p : Population) (wheel : List Float) : Draw Individual := do
  let parents := p.history.map (·.1)
  match parents with
  | [] => return p.reference
  | best :: _ =>
    return ⟨← best.genes.zipIdx.mapM fun ((name, gene), i) => do
      let k ← Wheel.spin wheel
      let picked := (parents[k]?).bind fun parent => (parent.genes[i]?).map (·.2)
      return (name, picked.getD gene)⟩

/-- Adds children to a batch, each made against the batch before it. -/
def extend (make : List Individual → Draw Individual) :
    (count : Nat) → (batch : List Individual) → Draw (List Individual)
  | 0, batch => return batch
  | count + 1, batch => do extend make count (batch ++ [← make batch])

/-- Makes an individual of each space in turn, new against the batch before it. -/
def seedBatch (p : Population) :
    (spaces : List Space) → (batch : List Individual) → ExceptT BreedError Draw (List Individual)
  | [], batch => return batch
  | s :: rest, batch => do
    let x ← ExceptT.adapt .seed (Individual.make s p.rate)
    seedBatch p rest (batch ++ [← p.unique batch x])

/-- The sum of the history length and the batch size in 64-bit arithmetic exceeds the volume. -/
def exhaustedBy (p : Population) (children : Int64) : Bool :=
  (p.volume : Int) < (Int64.ofNat p.size + children).toInt

/-- The number of children that a batch can hold. -/
def largestBatch : Int64 := 35184372088832

/-- Breeds a batch of new individuals. -/
def offspring (p : Population) (parents children : Int64) :
    ExceptT BreedError Draw (List Individual × Population) := do
  if parents < 1 || children < 1 then throw (.sizes parents children)
  if p.exhaustedBy children then throw (.exhausted p.size children p.volume)
  if largestBatch < children then throw (.tooMany children)
  let count := children.toInt.toNat
  match p.policy parents.toInt.toNat with
  | .coldStart =>
    let batch ← p.seedBatch (p.pending.take count) []
    let batch ← extend p.fresh (count - batch.length) batch
    return (batch, { p with pending := p.pending.drop count })
  | .restart => return (← extend p.fresh count [], p)
  | .crossover =>
    let wheel := Wheel.make ((p.history.take parents.toInt.toNat).map (·.2))
    let batch ← extend (fun batch => do p.unique batch (← (← p.cross wheel).mutate)) count []
    return (batch, p)

end Population

end Tuning
