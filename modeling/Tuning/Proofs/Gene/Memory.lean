import Tuning.Gene.Basic
import Tuning.Proofs.Random.Draws

/-! # Genes in memory

Orderings and factors lie in lists that a gene points to. A perturbation copies a gene and changes the
copy in place, and an assignment changes the gene itself. As every copy gets a list of its own, neither
is seen anywhere else. -/

namespace Tuning

/-- A gene as it lies in memory, with the number of its list if it has one. -/
inductive Cell where
  | choice (c : Choice)
  | discrete (d : Discrete)
  | permutation (list : Nat) (rate : Float)
  | factor (product : Int64) (slots : Nat) (powers : List (Int64 × Nat)) (list : Nat) (rate : Float)

/-- The genes in memory and the lists that they point to. -/
structure Memory where
  cells : List Cell
  orders : List (List Nat)
  parts : List (List Int64)

namespace Memory

/-! ## Reading and writing -/

/-- What a cell holds. -/
def read (m : Memory) : Cell → Option Gene
  | .choice c => some (.choice c)
  | .discrete d => some (.discrete d)
  | .permutation list rate => (m.orders[list]?).map fun order => .permutation { order, rate }
  | .factor product slots powers list rate =>
    (m.parts[list]?).map fun parts => .factor { product, slots, powers, parts, rate }

/-- The gene at an address. -/
def gene? (m : Memory) (a : Nat) : Option Gene :=
  (m.cells[a]?).bind m.read

/-- Makes a cell for a gene, with a list of its own. -/
def hold (m : Memory) : Gene → Cell × Memory
  | .choice c => (.choice c, m)
  | .discrete d => (.discrete d, m)
  | .permutation p =>
    (.permutation m.orders.length p.rate, { m with orders := m.orders ++ [p.order] })
  | .factor f =>
    (.factor f.product f.slots f.powers m.parts.length f.rate, { m with parts := m.parts ++ [f.parts] })

/-- Lets a cell have a list of its own with the elements of the list that it points to. -/
def detach (m : Memory) (cell : Cell) : Cell × Memory :=
  match cell with
  | .permutation list rate =>
    (.permutation m.orders.length rate, { m with orders := m.orders ++ [m.orders.getD list []] })
  | .factor product slots powers list rate =>
    (.factor product slots powers m.parts.length rate,
      { m with parts := m.parts ++ [m.parts.getD list []] })
  | cell => (cell, m)

/-- A memory with one more cell. -/
def add (held : Cell × Memory) : Memory :=
  { held.2 with cells := held.2.cells ++ [held.1] }

/-- A memory with another cell at an address. -/
def put (a : Nat) (held : Cell × Memory) : Memory :=
  { held.2 with cells := held.2.cells.set a held.1 }

variable {m : Memory} {a b : Nat} {g k : Gene} {cell : Cell}

theorem cells_hold (m : Memory) (g : Gene) : (m.hold g).2.cells = m.cells := by
  cases g <;> rfl

/-- A cell made for a gene holds it. -/
theorem read_hold (m : Memory) (g : Gene) : (m.hold g).2.read (m.hold g).1 = some g := by
  cases g <;> simp [hold, read]

/-- A list that is added leaves what other cells hold as it is. -/
theorem read_hold_of_some (h : m.read cell = some k) (g : Gene) : (m.hold g).2.read cell = some k := by
  have horders : ∀ (order : List Nat) (list : Nat) (x : List Nat), m.orders[list]? = some x →
      (m.orders ++ [order])[list]? = some x := fun order list x hx => by
    rw [List.getElem?_append_left (List.getElem?_eq_some_iff.mp hx).1, hx]
  have hparts : ∀ (parts : List Int64) (list : Nat) (x : List Int64), m.parts[list]? = some x →
      (m.parts ++ [parts])[list]? = some x := fun parts list x hx => by
    rw [List.getElem?_append_left (List.getElem?_eq_some_iff.mp hx).1, hx]
  cases cell with
  | choice c => cases g <;> exact h
  | discrete d => cases g <;> exact h
  | permutation list rate =>
      obtain ⟨x, hx, rfl⟩ := Option.map_eq_some_iff.mp h
      cases g with
      | permutation p => exact Option.map_eq_some_iff.mpr ⟨x, horders _ _ _ hx, rfl⟩
      | _ => exact h
  | factor product slots powers list rate =>
      obtain ⟨x, hx, rfl⟩ := Option.map_eq_some_iff.mp h
      cases g with
      | factor f => exact Option.map_eq_some_iff.mpr ⟨x, hparts _ _ _ hx, rfl⟩
      | _ => exact h

theorem gene?_add_hold_self (m : Memory) (g : Gene) :
    (add (m.hold g)).gene? m.cells.length = some g := by
  have hcell : (add (m.hold g)).cells[m.cells.length]? = some (m.hold g).1 := by
    simp [add, cells_hold]
  rw [gene?, hcell]
  exact read_hold m g

/-- What was in memory stays as it is when a gene is added. -/
theorem gene?_add_hold (h : m.gene? b = some k) (g : Gene) : (add (m.hold g)).gene? b = some k := by
  obtain ⟨cell, hcell, hread⟩ := Option.bind_eq_some_iff.mp h
  have hlt := (List.getElem?_eq_some_iff.mp hcell).1
  have hcell' : (add (m.hold g)).cells[b]? = some cell := by
    rw [add, cells_hold, List.getElem?_append_left hlt, hcell]
  rw [gene?, hcell']
  exact read_hold_of_some hread g

theorem gene?_put_hold_self (h : m.gene? a = some k) (g : Gene) :
    (put a (m.hold g)).gene? a = some g := by
  obtain ⟨cell, hcell, -⟩ := Option.bind_eq_some_iff.mp h
  have hlt := (List.getElem?_eq_some_iff.mp hcell).1
  have hcell' : (put a (m.hold g)).cells[a]? = some (m.hold g).1 := by
    rw [put, cells_hold, List.getElem?_set_self hlt]
  rw [gene?, hcell']
  exact read_hold m g

/-- What is at other addresses stays as it is when a gene is replaced. -/
theorem gene?_put_hold (h : m.gene? b = some k) (hne : a ≠ b) (g : Gene) :
    (put a (m.hold g)).gene? b = some k := by
  obtain ⟨cell, hcell, hread⟩ := Option.bind_eq_some_iff.mp h
  have hcell' : (put a (m.hold g)).cells[b]? = some cell := by
    rw [put, cells_hold, List.getElem?_set_ne hne, hcell]
  rw [gene?, hcell']
  exact read_hold_of_some hread g

/-! ## Perturbing a copy -/

/-- Copies a cell with its list. The copy is at the end. -/
def clone (m : Memory) (a : Nat) : Memory :=
  match m.cells[a]? with
  | some cell => add (m.detach cell)
  | none => m

/-- Moves the value of a cell in place: another atom, another position, two elements of the list
exchanged, or one of its elements divided and another multiplied. -/
def step (a : Nat) (m : Memory) : Option (Draw Memory) :=
  match m.cells[a]? with
  | some (.choice c) => c.step.map fun next => do return put a (.choice (← next), m)
  | some (.discrete d) => d.step.map fun next => do return put a (.discrete (← next), m)
  | some (.permutation list _) =>
    some do
      let size := (m.orders.getD list []).length
      let i ← Draw.below size
      let j ← Draw.below (size - 1)
      return { m with orders := m.orders.modify list (Finite.swap · i (Finite.raise i j)) }
  | some (.factor product slots powers list rate) =>
    let options := Factor.transfers { product, slots, powers, parts := m.parts.getD list [], rate }
    if options.isEmpty then some (pure m)
    else some do
      match options[← Draw.below options.length]? with
      | some t =>
        let divided := m.parts.modify list (·.modify t.source (· / t.prime))
        return { m with parts := divided.modify list (·.modify t.target (· * t.prime)) }
      | none => return m
  | none => none

/-- Copies the gene at an address and moves the value of the copy while rolls succeed. -/
def mutate (m : Memory) (a : Nat) : Draw (Nat × Memory) :=
  let child := m.cells.length
  match (m.clone a).gene? child with
  | some (.permutation p) =>
    if p.size ≤ 1 then return (child, m.clone a)
    else return (child, ← Draw.walk p.rate (step child) (m.clone a))
  | some g => return (child, ← Draw.walk g.rate (step child) (m.clone a))
  | none => failure

/-- A copy is a cell made for the same gene. -/
theorem clone_eq (h : m.gene? a = some g) : m.clone a = add (m.hold g) := by
  obtain ⟨cell, hcell, hread⟩ := Option.bind_eq_some_iff.mp h
  rw [clone, hcell]
  cases cell with
  | choice c =>
      obtain rfl := Option.some.inj hread
      rfl
  | discrete d =>
      obtain rfl := Option.some.inj hread
      rfl
  | permutation list rate =>
      obtain ⟨order, horder, rfl⟩ := Option.map_eq_some_iff.mp hread
      simp [detach, hold, List.getD_eq_getElem?_getD, horder]
  | factor product slots powers list rate =>
      obtain ⟨parts, hparts, rfl⟩ := Option.map_eq_some_iff.mp hread
      simp [detach, hold, List.getD_eq_getElem?_getD, hparts]

/-- Where steps on images are the images of steps, so are walks. -/
theorem walk_map {α β : Type} (f : α → β) {step : α → Option (Draw α)} {step' : β → Option (Draw β)}
    (hstep : ∀ x, step' (f x) = (step x).map fun next => f <$> next) (rate : Float) (x : α) :
    Draw.walk rate step' (f x) = f <$> Draw.walk rate step x := by
  have hfor : ∀ (fuel : Nat) (x : α),
      Draw.walkFor rate step' fuel (f x) = f <$> Draw.walkFor rate step fuel x := by
    intro fuel
    induction fuel with
    | zero => exact fun x => rfl
    | succ fuel ih =>
        intro x
        simp only [Draw.walkFor, hstep, map_bind]
        refine congrArg (Draw.fraction >>= ·) (funext fun r => ?_)
        split
        · cases step x with
          | none => exact (map_pure f x).symm
          | some next => simp only [Option.map_some, bind_map_left, ih, map_bind]
        · exact (map_pure f x).symm
  simp only [Draw.walk, hfor, map_bind]

theorem modify_concat {α : Type} (xs : List α) (x : α) (f : α → α) :
    (xs ++ [x]).modify xs.length f = xs ++ [f x] := by
  induction xs with
  | nil => rfl
  | cons y ys ih => exact congrArg (y :: ·) ih

theorem step_choice (m : Memory) (c : Choice) : step m.cells.length (add (m.hold (.choice c))) =
    c.step.map fun next => (fun d => add (m.hold (.choice d))) <$> next := by
  simp [step, add, hold, put]

theorem step_discrete (m : Memory) (d : Discrete) :
    step m.cells.length (add (m.hold (.discrete d))) =
      d.step.map fun next => (fun e => add (m.hold (.discrete e))) <$> next := by
  simp [step, add, hold, put]

theorem step_permutation (m : Memory) (p : Permutation) :
    step m.cells.length (add (m.hold (.permutation p))) =
      p.step.map fun next => (fun q => add (m.hold (.permutation q))) <$> next := by
  simp [step, add, hold, Permutation.step, Permutation.size, modify_concat]

theorem step_factor (m : Memory) (f : Factor) :
    step m.cells.length (add (m.hold (.factor f))) =
      f.step.map fun next => (fun e => add (m.hold (.factor e))) <$> next := by
  obtain ⟨product, slots, powers, parts, rate⟩ := f
  have hparts : (m.parts ++ [parts]).getD m.parts.length [] = parts := by simp
  simp only [step, add, hold, List.getElem?_concat_length, hparts, Factor.step]
  split
  · rfl
  · simp only [Option.map_some, map_bind]
    refine congrArg some (congrArg (Draw.below _ >>= ·) (funext fun i => ?_))
    cases (Factor.transfers { product, slots, powers, parts, rate })[i]? with
    | none => rfl
    | some t => simp only [modify_concat, Factor.apply, map_pure]

/-- Perturbing a copy in place adds the perturbed gene. -/
theorem mutate_eq (h : m.gene? a = some g) :
    m.mutate a = (fun child => (m.cells.length, add (m.hold child))) <$> g.mutate := by
  simp only [mutate, clone_eq h, gene?_add_hold_self]
  cases g with
  | choice c => simp [Gene.mutate, Choice.mutate, Gene.rate, walk_map _ (step_choice m)]
  | discrete d => simp [Gene.mutate, Discrete.mutate, Gene.rate, walk_map _ (step_discrete m)]
  | permutation p =>
      simp only [Gene.mutate, Permutation.mutate]
      split
      · simp
      · simp [walk_map _ (step_permutation m)]
  | factor f => simp [Gene.mutate, Factor.mutate, Gene.rate, walk_map _ (step_factor m)]

/-! ## Assigning in place -/

/-- Assigns a value to the gene at an address. -/
def assign (a : Nat) (v : Value) : ExceptT DomainFault (StateM Memory) Unit := do
  ((← get).gene? a).forM fun g => do
    let h ← g.assign v
    modify fun m => put a (m.hold h)

theorem run_assign (hg : m.gene? a = some g) (v : Value) :
    (assign a v).run m = match g.assign v with
      | .ok h => (.ok (), put a (m.hold h))
      | .error fault => (.error fault, m) := by
  change ((m.gene? a).forM fun g => (do
    let h ← g.assign v
    modify fun m => put a (m.hold h) : ExceptT DomainFault (StateM Memory) Unit)).run m = _
  rw [hg]
  change ((g.assign v : ExceptT DomainFault (StateM Memory) Gene) >>= fun h =>
    modify fun m => put a (m.hold h)).run m = _
  cases g.assign v with
  | ok h => rfl
  | error fault => rfl

end Memory

end Tuning
