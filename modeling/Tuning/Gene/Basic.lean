import Tuning.Gene.Choice
import Tuning.Gene.Discrete
import Tuning.Gene.Permutation
import Tuning.Gene.Factor

/-! # Genes

A gene is a parameter with a current value. All operations but `assign` leave the domain and the rate
as they are and move the value within the domain. -/

namespace Tuning

/-- The kinds of parameters. -/
inductive Kind where
  | choice
  | discrete
  | permutation
  | factor
  deriving DecidableEq, Repr

namespace Kind

/-- Every kind. -/
def all : List Kind := [choice, discrete, permutation, factor]

/-- The name of a kind. -/
def name : Kind → String
  | choice => "choice"
  | discrete => "discrete"
  | permutation => "permutation"
  | factor => "factor"

/-- The kind of a name. -/
def ofName? (s : String) : Option Kind :=
  all.find? (·.name == s)

/-- The kind of a name or of one of its other spellings. -/
def ofSpelling? (s : String) : Option Kind :=
  if s == "categorical" then some choice
  else if s == "perm" then some permutation
  else ofName? s

end Kind

/-- A parameter with a current value. -/
inductive Gene where
  | choice (c : Choice)
  | discrete (d : Discrete)
  | permutation (p : Permutation)
  | factor (f : Factor)

namespace Gene

/-- The kind of a gene. -/
def kind : Gene → Kind
  | choice _ => .choice
  | discrete _ => .discrete
  | permutation _ => .permutation
  | factor _ => .factor

/-- The mutation rate. -/
def rate : Gene → Float
  | choice c => c.rate
  | discrete d => d.rate
  | permutation p => p.rate
  | factor f => f.rate

/-- The size of the domain. -/
def card : Gene → Nat
  | choice c => c.card
  | discrete d => d.card
  | permutation p => p.card
  | factor f => f.card

/-- The current value. -/
def value : Gene → Value
  | choice c => c.value
  | discrete d => .int d.value
  | permutation p => .ints p.value
  | factor f => .ints f.parts

/-- The gene with the element of the domain at an index that is moved into range. -/
def select (g : Gene) (i : Int) : Gene :=
  match g with
  | choice c => choice (c.select i)
  | discrete d => discrete (d.select i)
  | permutation p => permutation (p.select i)
  | factor f => factor (f.select i)

/-- Draws a value uniformly from the domain. -/
def reset : Gene → Draw Gene
  | choice c => return choice (← c.reset)
  | discrete d => return discrete (← d.reset)
  | permutation p => return permutation (← p.reset)
  | factor f => return factor (← f.reset)

/-- Perturbs the value for as long as rolls against the rate succeed. -/
def mutate : Gene → Draw Gene
  | choice c => return choice (← c.mutate)
  | discrete d => return discrete (← d.mutate)
  | permutation p => return permutation (← p.mutate)
  | factor f => return factor (← f.mutate)

/-- Replaces the value by one of the domain. -/
def assign (g : Gene) (v : Value) : Except DomainFault Gene :=
  match g with
  | choice c => return choice (← c.assign v)
  | discrete d => return discrete (← d.assign v)
  | permutation p => return permutation (← p.assign v)
  | factor f => return factor (← f.assign v)

/-- Whether two genes are of one kind and hold the same value. -/
def same : Gene → Gene → Bool
  | choice c, choice d => c.same d
  | discrete d, discrete e => d.same e
  | permutation p, permutation q => p.same q
  | factor f, factor g => f.same g
  | _, _ => false

end Gene

end Tuning
