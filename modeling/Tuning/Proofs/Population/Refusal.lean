import Tuning.Proofs.Population.Breeding

/-! # Refused batches

A population is bred where it stands: a starting value leaves the queue before an individual is made of
it, so a failure there would leave the queue shorter. It never comes to that. Whatever is refused is
refused before anything is taken or drawn. -/

namespace Tuning.Population

variable {p p' : Population} {batch batch' : List Individual} {src src' : Source} {e : BreedError}

/-! ## Breeding in place -/

/-- Makes an individual of each starting value that it takes off the queue, so many at most. -/
def takeSeeds :
    (count : Nat) → List Individual → Population → Draw (Except BreedError (List Individual) × Population)
  | 0, batch, p => return (.ok batch, p)
  | count + 1, batch, p =>
    match p.pending with
    | [] => return (.ok batch, p)
    | bound :: rest => do
      match ← (Individual.make bound p.rate).run with
      | .error e => return (.error (.seed e), { p with pending := rest })
      | .ok x =>
        let x ← p.unique batch x
        takeSeeds count (batch ++ [x]) { p with pending := rest }

/-- Draws a batch, and tells what the population is afterwards, with or without a batch. -/
def breedHere (p : Population) (parents children : Nat) :
    Draw (Except BreedError (List Individual) × Population) :=
  match p.policy parents with
  | .coldStart => do
    match ← takeSeeds children [] p with
    | (.error e, p) => return (.error e, p)
    | (.ok batch, p) =>
      let batch ← extend p.fresh (children - batch.length) batch
      return (.ok batch, p)
  | .restart => do
    let batch ← extend p.fresh children []
    return (.ok batch, p)
  | .crossover => do
    let wheel := Wheel.make ((p.history.take parents).map (·.2))
    let batch ← extend (fun batch => do p.unique batch (← (← p.cross wheel).mutate)) children []
    return (.ok batch, p)

/-- Breeds a batch in place. -/
def offspringHere (p : Population) (parents children : Int64) :
    Draw (Except BreedError (List Individual) × Population) :=
  if parents < 1 || children < 1 then return (.error (.sizes parents children), p)
  else if p.exhaustedBy children then return (.error (.exhausted p.size children p.volume), p)
  else if largestBatch < children then return (.error (.tooMany children), p)
  else p.breedHere parents.toInt.toNat children.toInt.toNat

/-! Only the history has a part in making a child new. -/

theorem freshen_congr {q : Population} (h : p.history = q.history) (batch : List Individual)
    (fuel : Nat) (x : Individual) : p.freshen batch fuel x = q.freshen batch fuel x := by
  induction fuel generalizing x with
  | zero => rfl
  | succ fuel ih => simp only [freshen, collides, records, h, ih]

theorem unique_congr {q : Population} (h : p.history = q.history) : p.unique = q.unique := by
  funext batch x
  simp only [unique, freshen_congr h]

theorem fresh_congr {q : Population} (h : p.history = q.history) (href : p.reference = q.reference) :
    p.fresh = q.fresh := by
  funext batch
  simp only [fresh, unique_congr h, href]

theorem fresh_pending (p : Population) (pending : List Space) : fresh { p with pending } = p.fresh :=
  fresh_congr rfl rfl

theorem seedBatch_pending (p : Population) (pending spaces : List Space) (batch : List Individual) :
    seedBatch { p with pending } spaces batch = p.seedBatch spaces batch := by
  have hunique : unique { p with pending } = p.unique := unique_congr rfl
  induction spaces generalizing batch with
  | nil => rfl
  | cons bound spaces ih => simp only [seedBatch, hunique, ih]

/-- What comes of the starting values is what comes of making a batch from them. -/
theorem fst_takeSeeds (count : Nat) (batch : List Individual) (p : Population) :
    Prod.fst <$> takeSeeds count batch p = (p.seedBatch (p.pending.take count) batch).run := by
  induction count generalizing batch p with
  | zero => simp [takeSeeds, seedBatch]
  | succ count ih =>
      cases hpending : p.pending with
      | nil => simp [takeSeeds, seedBatch, hpending]
      | cons bound rest =>
          simp only [takeSeeds, hpending, List.take_succ_cons, seedBatch, ExceptT.run_bind, map_bind,
            ExceptT.run_adapt, ExceptT.run_monadLift, bind_map_left]
          refine bind_congr fun made => ?_
          cases made with
          | error e => rfl
          | ok x =>
              simp only [Except.mapError, map_bind, ih, seedBatch_pending]
              rfl

/-- A batch that comes of starting values has taken them off the front of the queue. -/
theorem takeSeeds_pending {count : Nat}
    (h : takeSeeds count batch p src = some ((.ok batch', p'), src')) :
    p' = { p with pending := p.pending.drop count } := by
  induction count generalizing batch p src with
  | zero =>
      obtain ⟨heq, -⟩ := Draw.pure_eq_some.mp h
      exact (Prod.mk.inj heq).2.symm
  | succ count ih =>
      cases hpending : p.pending with
      | nil =>
          simp only [takeSeeds, hpending] at h
          obtain ⟨heq, -⟩ := Draw.pure_eq_some.mp h
          rw [← (Prod.mk.inj heq).2, List.drop_nil, ← hpending]
      | cons bound rest =>
          simp only [takeSeeds, hpending] at h
          obtain ⟨made, t, -, h⟩ := Draw.bind_eq_some.mp h
          cases made with
          | error e => cases h
          | ok x =>
              obtain ⟨y, t', -, h⟩ := Draw.bind_eq_some.mp h
              exact ih h

theorem exists_takeSeeds {count : Nat} {result : Except BreedError (List Individual)} :
    (∃ p', takeSeeds count batch p src = some ((result, p'), src')) ↔
      p.seedBatch (p.pending.take count) batch src = some (result, src') := by
  change _ ↔ (p.seedBatch (p.pending.take count) batch).run src = some (result, src')
  rw [← fst_takeSeeds, Draw.map_eq_some]
  constructor
  · rintro ⟨p', h⟩
    exact ⟨_, h, rfl⟩
  · rintro ⟨⟨_, p'⟩, h, rfl⟩
    exact ⟨p', h⟩

theorem batchHere_eq_ok {d : Draw (List Individual)} {q : Population} :
    (do let grown ← d; return (.ok grown, q) : Draw (Except BreedError (List Individual) × Population))
        src = some ((.ok batch, p'), src') ↔
      (do let grown ← d; return (grown, q) : ExceptT BreedError Draw (List Individual × Population))
        src = some (.ok (batch, p'), src') := by
  rw [Draw.bind_eq_some, Draw.ok_bind_eq_some]
  simp [Draw.ok_lift_eq_some]

theorem batchHere_ne_error {d : Draw (List Individual)} {q : Population} :
    ¬∃ p', (do let grown ← d; return (.ok grown, q) :
      Draw (Except BreedError (List Individual) × Population)) src = some ((.error e, p'), src') := by
  rintro ⟨p', h⟩
  obtain ⟨grown, t, -, h⟩ := Draw.bind_eq_some.mp h
  cases h

theorem batch_ne_error {d : Draw (List Individual)} {q : Population} :
    (do let grown ← d; return (grown, q) : ExceptT BreedError Draw (List Individual × Population))
      src ≠ some (.error e, src') := by
  rw [Ne, Draw.error_bind_eq_some]
  simp [Draw.error_lift_ne_some]

/-- Breeding in place gives the batches that breeding gives, and leaves the same population. -/
theorem breedHere_eq_ok {parents children : Nat} :
    p.breedHere parents children src = some ((.ok batch, p'), src') ↔
      p.breed parents children src = some (.ok (batch, p'), src') := by
  cases hpolicy : p.policy parents with
  | coldStart =>
      simp only [breedHere, breed, hpolicy]
      rw [Draw.bind_eq_some, Draw.ok_bind_eq_some]
      constructor
      · rintro ⟨⟨_ | seeded, q⟩, t, hseeds, h⟩
        · cases h
        · obtain rfl := takeSeeds_pending hseeds
          simp only [fresh_pending] at h
          exact ⟨seeded, t, exists_takeSeeds.mp ⟨_, hseeds⟩, batchHere_eq_ok.mp h⟩
      · rintro ⟨seeded, t, hseeded, h⟩
        obtain ⟨q, hseeds⟩ := exists_takeSeeds.mpr hseeded
        obtain rfl := takeSeeds_pending hseeds
        refine ⟨_, t, hseeds, ?_⟩
        simp only [fresh_pending]
        exact batchHere_eq_ok.mpr h
  | restart => simp only [breedHere, breed, hpolicy, batchHere_eq_ok]
  | crossover => simp only [breedHere, breed, hpolicy, batchHere_eq_ok]

/-- In place, too, only a starting value that does not fit stops a batch that is being drawn. -/
theorem breedHere_eq_error {parents children : Nat} :
    (∃ p', p.breedHere parents children src = some ((.error e, p'), src')) ↔
      p.breed parents children src = some (.error e, src') := by
  cases hpolicy : p.policy parents with
  | coldStart =>
      simp only [breedHere, breed, hpolicy]
      rw [Draw.error_bind_eq_some]
      constructor
      · rintro ⟨p', h⟩
        obtain ⟨⟨_ | seeded, q⟩, t, hseeds, h⟩ := Draw.bind_eq_some.mp h
        · obtain ⟨heq, rfl⟩ := Draw.pure_eq_some.mp h
          obtain ⟨⟨⟩, -⟩ := Prod.mk.inj heq
          exact .inl (exists_takeSeeds.mp ⟨q, hseeds⟩)
        · obtain ⟨grown, t', -, h⟩ := Draw.bind_eq_some.mp h
          cases h
      · rintro (hseeded | ⟨seeded, t, -, h⟩)
        · obtain ⟨q, hseeds⟩ := exists_takeSeeds.mpr hseeded
          exact ⟨q, Draw.bind_eq_some.mpr ⟨_, src', hseeds, rfl⟩⟩
        · exact absurd h batch_ne_error
  | restart =>
      simp only [breedHere, breed, hpolicy]
      exact iff_of_false batchHere_ne_error batch_ne_error
  | crossover =>
      simp only [breedHere, breed, hpolicy]
      exact iff_of_false batchHere_ne_error batch_ne_error

theorem offspringHere_apply (p : Population) (parents children : Int64) (src : Source) :
    p.offspringHere parents children src =
      if parents < 1 || children < 1 then some ((.error (.sizes parents children), p), src)
      else if p.exhaustedBy children then
        some ((.error (.exhausted p.size children p.volume), p), src)
      else if largestBatch < children then some ((.error (.tooMany children), p), src)
      else p.breedHere parents.toInt.toNat children.toInt.toNat src := by
  unfold offspringHere
  split_ifs <;> rfl

theorem offspringHere_eq_ok {parents children : Int64} :
    p.offspringHere parents children src = some ((.ok batch, p'), src') ↔
      p.offspring parents children src = some (.ok (batch, p'), src') := by
  rw [offspringHere_apply, offspring_apply]
  split_ifs
  · simp
  · simp
  · simp
  · exact breedHere_eq_ok

theorem offspringHere_eq_error {parents children : Int64} :
    (∃ p', p.offspringHere parents children src = some ((.error e, p'), src')) ↔
      p.offspring parents children src = some (.error e, src') := by
  rw [offspringHere_apply, offspring_apply]
  split_ifs
  · simp
  · simp
  · simp
  · exact breedHere_eq_error

/-! ## Refusals -/

/-- Where every starting value in the queue fits, a batch is refused for its sizes, because it does not
fit into the space, or because no batch is so large. The population and the source stay as they were. -/
theorem refused_of_fits {parents children : Int64}
    (hmake : ∀ bound ∈ p.pending, ∀ src e src',
      Individual.make bound p.rate src ≠ some (.error e, src'))
    (h : p.offspringHere parents children src = some ((.error e, p'), src')) :
    (e = .sizes parents children ∧ (parents < 1 ∨ children < 1) ∨
        e = .exhausted p.size children p.volume ∧ p.exhaustedBy children = true ∨
        e = .tooMany children ∧ largestBatch < children) ∧
      p' = p ∧ src' = src := by
  rw [offspringHere_apply] at h
  split_ifs at h with hsizes hexhausted hlarge
  · cases h
    exact ⟨.inl ⟨rfl, by simpa using hsizes⟩, rfl, rfl⟩
  · cases h
    exact ⟨.inr (.inl ⟨rfl, hexhausted⟩), rfl, rfl⟩
  · cases h
    exact ⟨.inr (.inr ⟨rfl, hlarge⟩), rfl, rfl⟩
  · exact absurd (breedHere_eq_error.mp ⟨p', h⟩) (breed_ne_error hmake _ _ _ _ _)

/-- The states of a population that is changed in place: it is made, individuals at hand are recorded or
refused, and batches are bred or refused. -/
inductive Life (s : Space) (rate : Float) (mode : Mode) : Population → List Individual → Prop
  | start {p : Population} {src src' : Source} (h : make s rate mode src = some (.ok p, src')) :
      Life s rate mode p []
  | build {p : Population} {pool : List Individual} {bound : Space} {r : Float} {x : Individual}
      {src src' : Source} (hp : Life s rate mode p pool) (hbound : bound ∈ s :: s.expand)
      (h : Individual.make bound r src = some (.ok x, src')) : Life s rate mode p (x :: pool)
  | move {p : Population} {pool : List Individual} {x y : Individual}
      (hp : Life s rate mode p pool) (hx : x ∈ pool) (h : x.Move y) : Life s rate mode p (y :: pool)
  | append {p : Population} {pool : List Individual} {x : Individual} (fitness : Float)
      (hp : Life s rate mode p pool) (hx : x ∈ pool) :
      Life s rate mode ((p.append x fitness).getD p) pool
  | breed {p p' : Population} {pool batch : List Individual} {parents children : Int64}
      {src src' : Source} (hp : Life s rate mode p pool)
      (h : p.offspringHere parents children src = some ((.ok batch, p'), src')) :
      Life s rate mode p' (batch ++ pool)
  | refuse {p p' : Population} {pool : List Individual} {e : BreedError} {parents children : Int64}
      {src src' : Source} (hp : Life s rate mode p pool)
      (h : p.offspringHere parents children src = some ((.error e, p'), src')) :
      Life s rate mode p' pool

variable {s : Space} {rate : Float} {mode : Mode} {pool : List Individual}

/-- Refusals lead to no other states than those of a search. -/
theorem Life.search (h : Life s rate mode p pool) : Search s rate mode p pool := by
  induction h with
  | start h => exact .start h
  | build _ hbound h ih => exact ih.build hbound h
  | move _ hx h ih => exact ih.move hx h
  | @append p _ x fitness _ hx ih =>
      cases happend : p.append x fitness with
      | none => exact ih
      | some p' => exact ih.append hx happend
  | breed _ h ih => exact ih.offspring (offspringHere_eq_ok.mp h)
  | refuse _ h ih =>
      obtain ⟨-, rfl, -⟩ := refused_of_fits (fun _ hbound => ih.make_ne_error hbound) h
      exact ih

/-- Whatever became of a population before, a batch is refused only for its sizes, because it does not
fit into the space, or because no batch is so large. Nothing is recorded, taken off the queue or drawn. -/
theorem offspring_refused (hp : Life s rate mode p pool) {parents children : Int64}
    (h : p.offspringHere parents children src = some ((.error e, p'), src')) :
    (e = .sizes parents children ∧ (parents < 1 ∨ children < 1) ∨
        e = .exhausted p.size children p.volume ∧ p.exhaustedBy children = true ∨
        e = .tooMany children ∧ largestBatch < children) ∧
      p' = p ∧ src' = src ∧ p.offspring parents children src = some (.error e, src) := by
  obtain ⟨hwhy, hpopulation, hsource⟩ :=
    refused_of_fits (fun _ hbound => hp.search.make_ne_error hbound) h
  refine ⟨hwhy, hpopulation, hsource, ?_⟩
  rw [hsource] at h
  exact offspringHere_eq_error.mp ⟨p', h⟩

/-- One side of the coin is recorded, and the coin is still in the queue, when two more sides are asked
for. -/
theorem coin_asked : ∃ p pool e p' src', Life coin 0.5 .maximize p pool ∧ p.size = 1 ∧
    p.pending.length = 1 ∧
    p.offspringHere 2 2 (.ofScript [0, 0] 0) = some ((.error e, p'), src') := by
  have hstart := Life.start
    (rfl : make coin 0.5 .maximize (.ofScript [0, 0] 0) = some (.ok _, _))
  have hbuild := hstart.build List.mem_cons_self
    (rfl : Individual.make coin 0.5 (.ofScript [0] 0) = some (.ok _, _))
  exact ⟨_, _, _, _, _, hbuild.append 2.0 List.mem_cons_self, rfl, rfl, rfl⟩

theorem offspring_refused_coin : ∃ p pool e p' src', Life coin 0.5 .maximize p pool ∧ p.size = 1 ∧
    p.pending.length = 1 ∧
    p.offspringHere 2 2 (.ofScript [0, 0] 0) = some ((.error e, p'), src') ∧
    e = .exhausted p.size 2 p.volume ∧ p' = p ∧ src' = .ofScript [0, 0] 0 := by
  obtain ⟨p, pool, e, p', src', hp, hsize, hpending, h⟩ := coin_asked
  obtain ⟨hwhy, hpopulation, hsource, -⟩ := offspring_refused hp h
  refine ⟨p, pool, e, p', src', hp, hsize, hpending, h, ?_, hpopulation, hsource⟩
  rcases hwhy with ⟨-, hsizes⟩ | ⟨he, -⟩ | ⟨-, hlarge⟩
  · exact absurd hsizes (by decide)
  · exact he
  · exact absurd hlarge (by decide)

end Tuning.Population
