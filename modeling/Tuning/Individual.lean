import Tuning.Space.Basic
import Tuning.Value.Document

/-! # Individuals

An individual is a candidate in the making: a gene for every parameter of a space. -/

namespace Tuning

/-- A gene for every parameter name, in the order of the space. -/
structure Individual where
  genes : List (String × Gene)

namespace Individual

/-- The gene of a parameter: its starting value, or else a value drawn from the domain. -/
def geneOf (p : Parameter) (rate : Float) : ExceptT ParameterError Draw Gene := do
  let gene ← p.gene rate
  match p.seeds with
  | [] => gene.reset
  | seed :: _ =>
    match gene.assign seed with
    | .ok gene => return gene
    | .error fault => throw (.invalid p.name fault.message)

/-- An individual of a space; the parameters take their values in order. -/
def make (s : Space) (rate : Float) : ExceptT ParameterError Draw Individual := do
  return ⟨← s.parameters.mapM fun p => do return (p.name, ← geneOf p rate)⟩

/-- The names in order. -/
def names (x : Individual) : List String :=
  x.genes.map (·.1)

/-- The first gene of a name. -/
def find? (x : Individual) (name : String) : Option Gene :=
  x.genes.lookup name

/-- The sizes of the domains. -/
def cards (x : Individual) : List Nat :=
  x.genes.map (·.2.card)

/-- Perturbs every gene in order. -/
def mutate (x : Individual) : Draw Individual :=
  return ⟨← x.genes.mapM fun (name, gene) => do return (name, ← gene.mutate)⟩

/-- Draws every gene anew in order. -/
def reset (x : Individual) : Draw Individual :=
  return ⟨← x.genes.mapM fun (name, gene) => do return (name, ← gene.reset)⟩

/-- Genes at given indices of their domains; genes beyond the indices stay. -/
def selectGenes : List (String × Gene) → List Int → List (String × Gene)
  | (name, gene) :: rest, i :: indices => (name, gene.select i) :: selectGenes rest indices
  | genes, _ => genes

/-- The individual with genes at given indices of their domains. -/
def select (x : Individual) (indices : List Int) : Individual :=
  ⟨selectGenes x.genes indices⟩

/-- Replaces the value of the first gene of a name in a list of genes. -/
def assignGenes (name : String) (v : Value) :
    List (String × Gene) → Except DomainFault (List (String × Gene))
  | [] => .ok []
  | (other, gene) :: rest =>
    if other == name then return (other, ← gene.assign v) :: rest
    else return (other, gene) :: (← assignGenes name v rest)

/-- Replaces the value of the first gene of a name. -/
def assign (x : Individual) (name : String) (v : Value) : Except DomainFault Individual :=
  return ⟨← assignGenes name v x.genes⟩

/-- The values by name. -/
def candidate (x : Individual) : Candidate :=
  mappingOf (x.genes.map fun (name, gene) => (name, gene.value))

/-- The key of the candidate. -/
def key (x : Individual) : String :=
  x.candidate.key

/-- Whether two lists of genes agree in names and values. -/
def sameGenes : List (String × Gene) → List (String × Gene) → Bool
  | [], [] => true
  | (m, g) :: xs, (n, h) :: ys => m == n && g.same h && sameGenes xs ys
  | _, _ => false

/-- Whether two individuals have the same names with the same values. -/
def same (x y : Individual) : Bool :=
  sameGenes x.genes y.genes

end Individual

end Tuning
