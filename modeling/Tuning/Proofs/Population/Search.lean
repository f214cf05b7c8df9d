import Tuning.Population.Offspring
import Tuning.Proofs.Individual.Building

/-! # The states of a search

A search has a population and individuals at hand. It makes and moves individuals, records some of
them, and breeds batches. What the laws of the space say holds of all individuals it ever meets. -/

namespace Tuning

open Draw (Ensures)

/-! ## The steps taken apart -/

namespace Ranking

theorem insert_perm {α σ : Type} [LT σ] [DecidableLT σ] (x : α) (score : σ) (xs : List (α × σ)) :
    (insert x score xs).Perm ((x, score) :: xs) := by
  induction xs with
  | nil => exact .refl _
  | cons y ys ih =>
      rw [insert]
      split
      · exact (ih.cons y).trans (.swap _ _ _)
      · exact .refl _

end Ranking

namespace Population

/-- What a population is made of. -/
theorem make_eq_ok {s : Space} {rate : Float} {mode : Mode} {src src' : Source} {p : Population}
    (h : make s rate mode src = some (.ok p, src')) :
    s.validate = .ok () ∧
      (∀ bound ∈ s.expand, ∃ t x t', Individual.make bound rate t = some (.ok x, t')) ∧
      (∃ t t', Individual.make (s.expand.headD s) rate t = some (.ok p.reference, t')) ∧
      (∀ card ∈ p.reference.cards, card < 2 ^ 63) ∧
      p = { rate, mode, pending := s.expand, reference := p.reference,
            volume := p.reference.cards.foldl (· * ·) 1, history := [] } := by
  by_cases hrate : (rate < 0.0 || 1.0 ≤ rate) = true
  · simp only [make, hrate, ↓reduceIte] at h
    cases h
  cases hvalid : s.validate with
  | error fault =>
    simp only [make, hrate, hvalid] at h
    cases h
  | ok u =>
    simp only [make, hrate, hvalid] at h
    obtain ⟨xs, t, hxs, h⟩ := Draw.ok_bind_eq_some.mp h
    obtain ⟨reference, t', hreference, h⟩ := Draw.ok_bind_eq_some.mp h
    obtain ⟨_, u, hcounted, h⟩ := Draw.ok_bind_eq_some.mp h
    obtain ⟨rfl, -⟩ := Draw.ok_pure_eq_some.mp h
    refine ⟨rfl, ?_, ⟨t, t', Draw.ok_adapt_eq_some.mp hreference⟩, ?_, rfl⟩
    swap
    · have hall := Draw.guard_eq_some.mp (Draw.ok_lift_eq_some.mp hcounted)
      simpa using hall.1
    have hmade := Draw.mapM_ok (R := fun bound x => ∃ t t',
      Individual.make bound rate t = some (.ok x, t')) hxs
      fun bound _ t x t' hx => ⟨t, t', Draw.ok_adapt_eq_some.mp hx⟩
    intro bound hbound
    obtain ⟨i, rfl⟩ := List.mem_iff_get.mp hbound
    obtain ⟨t, t', hx⟩ := hmade.get i.isLt (hmade.length_eq ▸ i.isLt)
    exact ⟨t, _, t', hx⟩

theorem append_eq_some {p p' : Population} {x : Individual} {fitness : Float}
    (h : p.append x fitness = some p') :
    p.records x = false ∧
      p' = { p with history := Ranking.insert x (p.mode.orient fitness) p.history } := by
  unfold append at h
  split at h
  · cases h
  · next hx => exact ⟨by simpa using hx, (Option.some.inj h).symm⟩

/-- The part of breeding that draws. -/
def breed (p : Population) (parents children : Nat) :
    ExceptT BreedError Draw (List Individual × Population) :=
  match p.policy parents with
  | .coldStart => do
    let batch ← p.seedBatch (p.pending.take children) []
    let batch ← extend p.fresh (children - batch.length) batch
    return (batch, { p with pending := p.pending.drop children })
  | .restart => return (← extend p.fresh children [], p)
  | .crossover => do
    let wheel := Wheel.make ((p.history.take parents).map (·.2))
    let batch ← extend (fun batch => do p.unique batch (← (← p.cross wheel).mutate)) children []
    return (batch, p)

/-- Breeding checks its sizes before it draws. -/
theorem offspring_apply (p : Population) (parents children : Int64) (src : Source) :
    p.offspring parents children src =
      if parents < 1 || children < 1 then some (.error (.sizes parents children), src)
      else if p.exhaustedBy children then
        some (.error (.exhausted p.size children p.volume), src)
      else if largestBatch < children then some (.error (.tooMany children), src)
      else p.breed parents.toInt.toNat children.toInt.toNat src := by
  by_cases hsizes : (parents < 1 || children < 1) = true
  · simp only [offspring, hsizes, ↓reduceIte]
    rfl
  · by_cases hexhausted : p.exhaustedBy children = true
    · simp only [offspring, hsizes, hexhausted, ↓reduceIte]
      rfl
    · by_cases hlarge : largestBatch < children
      · simp only [offspring, hsizes, hexhausted, hlarge, ↓reduceIte]
        rfl
      · simp only [offspring, hsizes, hexhausted, hlarge, ↓reduceIte]
        rfl

theorem offspring_eq_ok {p p' : Population} {parents children : Int64} {src src' : Source}
    {batch : List Individual} (h : p.offspring parents children src = some (.ok (batch, p'), src')) :
    1 ≤ children ∧ p.breed parents.toInt.toNat children.toInt.toNat src = some (.ok (batch, p'), src') := by
  rw [offspring_apply] at h
  split at h
  · cases h
  · next hsizes =>
      split at h
      · cases h
      · split at h
        · cases h
        · refine ⟨?_, h⟩
          simp only [Bool.or_eq_true, decide_eq_true_eq, not_or, Int64.not_lt] at hsizes
          exact hsizes.2

/-- What a batch that was bred came from, policy by policy. -/
theorem breed_eq_ok {p p' : Population} {parents children : Nat} {src src' : Source}
    {batch : List Individual} (h : p.breed parents children src = some (.ok (batch, p'), src')) :
    (p.policy parents = .coldStart ∧ (∃ seeded t,
        p.seedBatch (p.pending.take children) [] src = some (.ok seeded, t) ∧
        extend p.fresh (children - seeded.length) seeded t = some (batch, src')) ∧
      p' = { p with pending := p.pending.drop children }) ∨
    (p.policy parents = .restart ∧ extend p.fresh children [] src = some (batch, src') ∧ p' = p) ∨
    (p.policy parents = .crossover ∧
      extend (fun batch => do
        p.unique batch
          (← (← p.cross (Wheel.make ((p.history.take parents).map (·.2)))).mutate))
        children [] src = some (batch, src') ∧ p' = p) := by
  cases hpolicy : p.policy parents with
  | coldStart =>
      simp only [breed, hpolicy] at h
      obtain ⟨seeded, t, hseeded, h⟩ := Draw.ok_bind_eq_some.mp h
      obtain ⟨batch', t', hbatch, h⟩ := Draw.ok_bind_eq_some.mp h
      obtain ⟨hresult, rfl⟩ := Draw.ok_pure_eq_some.mp h
      obtain ⟨rfl, rfl⟩ := Prod.mk.inj hresult
      exact .inl ⟨rfl, ⟨seeded, t, hseeded, Draw.ok_lift_eq_some.mp hbatch⟩, rfl⟩
  | restart =>
      simp only [breed, hpolicy] at h
      obtain ⟨batch', t', hbatch, h⟩ := Draw.ok_bind_eq_some.mp h
      obtain ⟨hresult, rfl⟩ := Draw.ok_pure_eq_some.mp h
      obtain ⟨rfl, rfl⟩ := Prod.mk.inj hresult
      exact .inr (.inl ⟨rfl, Draw.ok_lift_eq_some.mp hbatch, rfl⟩)
  | crossover =>
      simp only [breed, hpolicy] at h
      obtain ⟨batch', t', hbatch, h⟩ := Draw.ok_bind_eq_some.mp h
      obtain ⟨hresult, rfl⟩ := Draw.ok_pure_eq_some.mp h
      obtain ⟨rfl, rfl⟩ := Prod.mk.inj hresult
      exact .inr (.inr ⟨rfl, Draw.ok_lift_eq_some.mp hbatch, rfl⟩)

theorem seedBatch_eq_error {p : Population} {spaces : List Space} {batch : List Individual}
    {src src' : Source} {e : BreedError} (h : p.seedBatch spaces batch src = some (.error e, src')) :
    ∃ bound ∈ spaces, ∃ t cause t',
      Individual.make bound p.rate t = some (.error cause, t') ∧ e = .seed cause := by
  induction spaces generalizing batch src with
  | nil => cases h
  | cons bound spaces ih =>
      rcases Draw.error_bind_eq_some.mp h with h | ⟨x, t, -, h⟩
      · obtain ⟨cause, hmake, rfl⟩ := Draw.error_adapt_eq_some.mp h
        exact ⟨bound, by simp, src, cause, src', hmake, rfl⟩
      · rcases Draw.error_bind_eq_some.mp h with h | ⟨y, t', -, h⟩
        · exact absurd h Draw.error_lift_ne_some
        · obtain ⟨other, hother, hmake⟩ := ih h
          exact ⟨other, by simp [hother], hmake⟩

/-- Breeding fails only when a starting value does not fit. -/
theorem breed_eq_error {p : Population} {parents children : Nat} {src src' : Source} {e : BreedError}
    (h : p.breed parents children src = some (.error e, src')) :
    ∃ bound ∈ p.pending, ∃ t cause t',
      Individual.make bound p.rate t = some (.error cause, t') ∧ e = .seed cause := by
  cases hpolicy : p.policy parents with
  | coldStart =>
      simp only [breed, hpolicy] at h
      rcases Draw.error_bind_eq_some.mp h with h | ⟨seeded, t, -, h⟩
      · obtain ⟨bound, hbound, hmake⟩ := seedBatch_eq_error h
        exact ⟨bound, List.mem_of_mem_take hbound, hmake⟩
      · rcases Draw.error_bind_eq_some.mp h with h | ⟨batch, t', -, h⟩
        · exact absurd h Draw.error_lift_ne_some
        · cases h
  | restart =>
      simp only [breed, hpolicy] at h
      rcases Draw.error_bind_eq_some.mp h with h | ⟨batch, t, -, h⟩
      · exact absurd h Draw.error_lift_ne_some
      · cases h
  | crossover =>
      simp only [breed, hpolicy] at h
      rcases Draw.error_bind_eq_some.mp h with h | ⟨batch, t, -, h⟩
      · exact absurd h Draw.error_lift_ne_some
      · cases h

theorem breed_ne_error {p : Population}
    (hmake : ∀ bound ∈ p.pending, ∀ src e src',
      Individual.make bound p.rate src ≠ some (.error e, src'))
    (parents children : Nat) (src : Source) (e : BreedError) (src' : Source) :
    p.breed parents children src ≠ some (.error e, src') := by
  intro h
  obtain ⟨bound, hbound, t, cause, t', hfails, -⟩ := breed_eq_error h
  exact hmake bound hbound t cause t' hfails

/-- With positive sizes and fitting starting values, a batch is refused only because the space is
exhausted or because no batch is so large. -/
theorem offspring_eq_error {p : Population} {parents children : Int64} {src src' : Source}
    {e : BreedError} (hparents : 1 ≤ parents) (hchildren : 1 ≤ children)
    (hmake : ∀ bound ∈ p.pending, ∀ src e src',
      Individual.make bound p.rate src ≠ some (.error e, src'))
    (h : p.offspring parents children src = some (.error e, src')) :
    e = .exhausted p.size children p.volume ∨ e = .tooMany children := by
  have hsizes : ¬ (parents < 1 || children < 1) = true := by
    simpa [Int64.not_lt] using ⟨hparents, hchildren⟩
  rw [offspring_apply, if_neg hsizes] at h
  split at h
  · obtain ⟨h, -⟩ := Prod.mk.inj (Option.some.inj h)
    exact .inl (Except.error.inj h).symm
  · split at h
    · obtain ⟨h, -⟩ := Prod.mk.inj (Option.some.inj h)
      exact .inr (Except.error.inj h).symm
    · exact absurd h (breed_ne_error hmake _ _ _ _ _)

/-! ## Searches -/

/-- The states of a search in a space: a population, and the individuals at hand. Individuals are
made, with or without starting values and at any rate, and moved; those at hand are recorded with any
fitness; batches of children come to hand as they are bred. -/
inductive Search (s : Space) (rate : Float) (mode : Mode) : Population → List Individual → Prop
  | start {p : Population} {src src' : Source} (h : make s rate mode src = some (.ok p, src')) :
      Search s rate mode p []
  | build {p : Population} {pool : List Individual} {bound : Space} {r : Float} {x : Individual}
      {src src' : Source} (hp : Search s rate mode p pool) (hbound : bound ∈ s :: s.expand)
      (h : Individual.make bound r src = some (.ok x, src')) : Search s rate mode p (x :: pool)
  | move {p : Population} {pool : List Individual} {x y : Individual}
      (hp : Search s rate mode p pool) (hx : x ∈ pool) (h : x.Move y) :
      Search s rate mode p (y :: pool)
  | append {p p' : Population} {pool : List Individual} {x : Individual} {fitness : Float}
      (hp : Search s rate mode p pool) (hx : x ∈ pool) (h : p.append x fitness = some p') :
      Search s rate mode p' pool
  | offspring {p p' : Population} {pool batch : List Individual} {parents children : Int64}
      {src src' : Source} (hp : Search s rate mode p pool)
      (h : p.offspring parents children src = some (.ok (batch, p'), src')) :
      Search s rate mode p' (batch ++ pool)

/-- Everything that a population holds fits a space: the untried starting values are some of the
space, and the genes of all individuals have a property. -/
structure Fitting (S : Parameter → Gene → Prop) (s : Space) (rate : Float) (p : Population) :
    Prop where
  rate_eq : p.rate = rate
  pending : p.pending ⊆ s.expand
  reference : p.reference.Matches S s
  history : ∀ scored ∈ p.history, scored.1.Matches S s

variable {S : Parameter → Gene → Prop} {s : Space} {rate : Float} {mode : Mode}

theorem covers_headD_expand (s : Space) :
    List.Forall₂ Parameter.Covers s.parameters (s.expand.headD s).parameters := by
  cases hexpand : s.expand with
  | nil => exact s.covers_self
  | cons bound rest =>
      have hbound : bound ∈ s.expand := by simp [hexpand]
      exact Space.covers_of_mem_expand hbound

theorem make_fitting (law : s.Law S) {p : Population} {src src' : Source}
    (h : make s rate mode src = some (.ok p, src')) : p.Fitting S s rate := by
  obtain ⟨-, -, ⟨t, t', hreference⟩, -, hp⟩ := make_eq_ok h
  rw [hp]
  exact ⟨rfl, List.Subset.refl _,
    Individual.make_matches law (covers_headD_expand s) hreference, by simp⟩

theorem Fitting.append {p p' : Population} {x : Individual} {fitness : Float}
    (hp : p.Fitting S s rate) (hx : x.Matches S s) (h : p.append x fitness = some p') :
    p'.Fitting S s rate := by
  obtain ⟨-, rfl⟩ := append_eq_some h
  refine ⟨hp.rate_eq, hp.pending, hp.reference, fun scored hscored => ?_⟩
  rcases List.mem_cons.mp ((Ranking.insert_perm _ _ _).mem_iff.mp hscored) with rfl | hscored
  · exact hx
  · exact hp.history scored hscored

/-- Breeding takes starting values away and changes nothing else. -/
theorem breed_population {p p' : Population} {parents children : Nat} {src src' : Source}
    {batch : List Individual} (h : p.breed parents children src = some (.ok (batch, p'), src')) :
    ∃ n, p' = { p with pending := p.pending.drop n } := by
  rcases breed_eq_ok h with ⟨-, -, hp⟩ | ⟨-, -, hp⟩ | ⟨-, -, hp⟩
  · exact ⟨children, hp⟩
  · exact ⟨0, hp⟩
  · exact ⟨0, hp⟩

theorem Fitting.breed {p p' : Population} {parents children : Nat} {src src' : Source}
    {batch : List Individual} (hp : p.Fitting S s rate)
    (h : p.breed parents children src = some (.ok (batch, p'), src')) : p'.Fitting S s rate := by
  obtain ⟨n, rfl⟩ := breed_population h
  exact ⟨hp.rate_eq, List.Subset.trans (List.drop_subset n p.pending) hp.pending, hp.reference,
    hp.history⟩

end Population

end Tuning
