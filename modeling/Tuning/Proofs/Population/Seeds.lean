import Tuning.Proofs.Gene.Assignment
import Tuning.Proofs.Population.Refusal
import Tuning.Proofs.Space.Expansion

/-! # Starting values in order

A population is made with all choices of starting values in a queue. Only a cold start takes some off, from
the front, and makes a child of each at its place in the batch. The child holds the starting values, unless
the individual made of them was taken already. -/

namespace Tuning

/-! ## Individuals made of starting values -/

/-- The genes of an individual hold the starting values of a space. -/
def Individual.Holds (x : Individual) (s : Space) : Prop :=
  List.Forall₂ (fun q named => named.1 = q.name ∧ ∀ seed ∈ q.seeds, named.2.Names seed) s.parameters x.genes

/-- A gene that was assigned a value holds it. -/
theorem Domain.Grows.names_of_assign {d : Domain} {rate : Float} {g h : Gene} {v : Value}
    (hg : d.Grows rate g) (hassign : g.assign v = .ok h) : h.Names v := by
  rcases hg.assign_eq_ok_iff.mp hassign with ⟨i, -, hnames, -, rfl⟩ | ⟨hwraps, -, hvalue⟩
  · exact hnames
  · cases d with
    | factor product slots =>
        cases (hg.moved (.assign hassign)).suits
        exact hvalue.symm
    | choice _ | discrete _ | permutation _ | unknown _ => exact hwraps.elim

theorem Space.Binds.length_seeds_le {ps bs : List Parameter} {v : List Nat} (h : Space.Binds ps v bs) :
    ∀ b ∈ bs, b.seeds.length ≤ 1 := by
  induction h with
  | nil => simp
  | free h _ ih => exact List.forall_mem_cons.mpr ⟨by simp [h], ih⟩
  | seeded _ _ ih => exact List.forall_mem_cons.mpr ⟨le_rfl, ih⟩

/-- An individual holds the starting values of the space that it is made from, if there is at most one for
each parameter. -/
theorem Individual.holds_of_make {bound : Space} (hbound : ∀ b ∈ bound.parameters, b.seeds.length ≤ 1)
    {rate : Float} {x : Individual} {src src' : Source} (h : make bound rate src = some (.ok x, src')) :
    x.Holds bound := by
  obtain ⟨genes, t, hgenes, hx⟩ := Draw.ok_bind_eq_some.mp h
  obtain ⟨rfl, -⟩ := Draw.ok_pure_eq_some.mp hx
  refine Draw.mapM_ok hgenes fun b hb t named t' hnamed => ?_
  obtain ⟨g, u, hg, hnamed⟩ := Draw.ok_bind_eq_some.mp hnamed
  obtain ⟨rfl, -⟩ := Draw.ok_pure_eq_some.mp hnamed
  refine ⟨rfl, fun seed hseed => ?_⟩
  obtain ⟨start, hstart, ⟨hnone, -⟩ | ⟨first, rest, hseeds, hassign, -⟩⟩ := geneOf_eq_ok hg
  · simp [hnone] at hseed
  · have hle := hbound b hb
    rw [hseeds, List.length_cons] at hle
    obtain rfl : rest = [] := List.length_eq_zero_iff.mp (by omega)
    rw [hseeds, List.mem_singleton] at hseed
    rw [hseed]
    exact (Domain.Grows.made (Parameter.gene_eq_ok hstart)).names_of_assign hassign

namespace Population

variable {p p' : Population} {batch batch' : List Individual} {src src' : Source}

/-! ## One batch -/

/-- An individual that is new already stays as it is, and nothing is drawn. -/
theorem unique_of_new {x : Individual} (h : p.collides batch x = false) :
    p.unique batch x src = some (x, src) := by
  simp only [unique, freshen, h]
  rfl

theorem extend_prefix {make : List Individual → Draw Individual} {count : Nat}
    (h : extend make count batch src = some (batch', src')) : batch <+: batch' := by
  induction count generalizing batch src with
  | zero =>
      obtain ⟨rfl, -⟩ := Draw.pure_eq_some.mp h
      exact List.prefix_rfl
  | succ count ih =>
      obtain ⟨x, t, -, h⟩ := Draw.bind_eq_some.mp h
      exact (List.prefix_append _ _).trans (ih h)

/-- Each of the starting values becomes the child at its place. -/
theorem seedBatch_served {spaces : List Space} (h : p.seedBatch spaces batch src = some (.ok batch', src')) :
    ∃ grown, batch' = batch ++ grown ∧ grown.length = spaces.length ∧
      ∀ k bound, spaces[k]? = some bound → ∃ t x t' child t'',
        p.seedBatch (spaces.take k) batch src = some (.ok (batch ++ grown.take k), t) ∧
          Individual.make bound p.rate t = some (.ok x, t') ∧
          p.unique (batch ++ grown.take k) x t' = some (child, t'') ∧ grown[k]? = some child := by
  induction spaces generalizing batch src with
  | nil =>
      obtain ⟨rfl, -⟩ := Draw.ok_pure_eq_some.mp h
      exact ⟨[], by simp, rfl, by simp⟩
  | cons first spaces ih =>
      obtain ⟨x, t, hx, h⟩ := Draw.ok_bind_eq_some.mp h
      obtain ⟨y, t', hy, h⟩ := Draw.ok_bind_eq_some.mp h
      obtain ⟨grown, rfl, hlength, hserved⟩ := ih h
      refine ⟨y :: grown, by simp, by simp [hlength], fun k bound hbound => ?_⟩
      cases k with
      | zero =>
          obtain rfl : first = bound := by simpa using hbound
          refine ⟨src, x, t, y, t', by simp [seedBatch], Draw.ok_adapt_eq_some.mp hx, ?_, rfl⟩
          simpa using Draw.ok_lift_eq_some.mp hy
      | succ k =>
          obtain ⟨u, x', u', child, u'', hseeded, hx', hchild, hget⟩ :=
            hserved k bound (by simpa using hbound)
          refine ⟨u, x', u', child, u'', ?_, hx', by simpa using hchild, by simpa using hget⟩
          rw [List.take_succ_cons, List.take_succ_cons, seedBatch]
          refine Draw.ok_bind_eq_some.mpr ⟨x, t, hx, Draw.ok_bind_eq_some.mpr ⟨y, t', hy, ?_⟩⟩
          simpa using hseeded

/-- The individual that a batch makes of the starting values at a place of the queue: the ones before them
have become the children before it, and the source stands where these have left it. -/
def Makes (p : Population) (src : Source) (seeds : List Space) (batch : List Individual) (k : Nat)
    (bound : Space) (x : Individual) : Prop :=
  ∃ t t', p.seedBatch (seeds.take k) [] src = some (.ok (batch.take k), t) ∧
    Individual.make bound p.rate t = some (.ok x, t')

/-- A cold start makes its first children of the starting values at the front of the queue. -/
theorem seedBatch_makes {seeds : List Space} {seeded : List Individual} {t : Source} {count : Nat}
    (hseeded : p.seedBatch seeds [] src = some (.ok seeded, t))
    (hbatch : extend p.fresh count seeded t = some (batch, src')) {k : Nat} {bound : Space}
    (hbound : seeds[k]? = some bound) :
    ∃ x child, p.Makes src seeds batch k bound x ∧ batch[k]? = some child ∧
      (child = x ∨ p.collides (batch.take k) x = true) := by
  obtain ⟨grown, hgrown, hlength, hserved⟩ := seedBatch_served hseeded
  rw [List.nil_append] at hgrown
  subst hgrown
  obtain ⟨u, x, u', child, u'', hbefore, hmake, hchild, hget⟩ := hserved k bound hbound
  obtain ⟨more, rfl⟩ := extend_prefix hbatch
  have hk : k < seeded.length := hlength ▸ (List.getElem?_eq_some_iff.mp hbound).1
  have htake : (seeded ++ more).take k = seeded.take k := List.take_append_of_le_length hk.le
  rw [List.nil_append] at hbefore hchild
  refine ⟨x, child, ⟨u, u', by rwa [htake], hmake⟩, by rwa [List.getElem?_append_left hk], ?_⟩
  rw [htake]
  by_cases hnew : p.collides (seeded.take k) x = true
  · exact .inr hnew
  · rw [unique_of_new (Bool.eq_false_iff.mpr hnew)] at hchild
    exact .inl (Prod.mk.inj (Option.some.inj hchild)).1.symm

theorem collides_eq_true {x : Individual} (h : p.collides batch x = true) :
    (∃ scored ∈ p.history, x.same scored.1 = true) ∨ ∃ y ∈ batch, x.same y = true := by
  simpa [collides, records] using h

/-! ## Every course of calls -/

/-- The states of a population that is asked for batches and given individuals to record, of whatever origin,
in any order. Some of the batches and of the individuals may be refused. -/
inductive Course (s : Space) (rate : Float) (mode : Mode) : Population → Prop
  | start {p : Population} {src src' : Source} (h : make s rate mode src = some (.ok p, src')) :
      Course s rate mode p
  | append {p : Population} (x : Individual) (fitness : Float) (hp : Course s rate mode p) :
      Course s rate mode ((p.append x fitness).getD p)
  | offspring {p p' : Population} {parents children : Int64} {src src' : Source}
      {result : Except BreedError (List Individual)} (hp : Course s rate mode p)
      (h : p.offspringHere parents children src = some ((result, p'), src')) : Course s rate mode p'

theorem pending_append (p : Population) (x : Individual) (fitness : Float) :
    ((p.append x fitness).getD p).pending = p.pending := by
  unfold append
  split_ifs <;> rfl

theorem rate_append (p : Population) (x : Individual) (fitness : Float) :
    ((p.append x fitness).getD p).rate = p.rate := by
  unfold append
  split_ifs <;> rfl

/-- The queue is what is left of the expansion of the space, and every choice of starting values in it
fits. -/
structure Queued (s : Space) (rate : Float) (p : Population) : Prop where
  rate_eq : p.rate = rate
  suffix : p.pending <:+ s.expand
  fits : ∀ bound ∈ s.expand, ∀ src e src', Individual.make bound rate src ≠ some (.error e, src')

variable {s : Space} {rate : Float} {mode : Mode}

theorem Queued.make_ne_error (h : p.Queued s rate) {bound : Space} (hbound : bound ∈ p.pending) (src : Source)
    (e : ParameterError) (src' : Source) : Individual.make bound p.rate src ≠ some (.error e, src') := by
  rw [h.rate_eq]
  exact h.fits bound (h.suffix.subset hbound) src e src'

theorem Course.queued (h : Course s rate mode p) : p.Queued s rate := by
  induction h with
  | @start p _ _ h =>
      obtain ⟨-, hmade, -, -, hp⟩ := make_eq_ok h
      rw [hp]
      refine ⟨rfl, List.suffix_rfl, fun bound hbound => ?_⟩
      obtain ⟨t, x, t', hx⟩ := hmade bound hbound
      exact Individual.make_ne_error hx
  | append x fitness _ ih =>
      refine ⟨(rate_append _ x fitness).trans ih.rate_eq, ?_, ih.fits⟩
      rw [pending_append]
      exact ih.suffix
  | @offspring p p' _ _ _ _ result _ h ih =>
      cases result with
      | error e =>
          obtain ⟨-, rfl, -⟩ := refused_of_fits (fun _ hbound => ih.make_ne_error hbound) h
          exact ih
      | ok batch =>
          obtain ⟨n, rfl⟩ := breed_population (offspring_eq_ok (offspringHere_eq_ok.mp h)).2
          exact ⟨ih.rate_eq, (List.drop_suffix n p.pending).trans ih.suffix, ih.fits⟩

/-- Whatever a population was asked before, its queue is an end of the expansion of the space. A batch of a
cold start takes as many starting values off the front as there are children, or all that are left; nothing
else takes any. At the place of each of them stands the individual that was made of it, which holds the
starting values, unless this individual is the same as a recorded one or as an earlier child. -/
theorem seeds_in_order (hp : Course s rate mode p) :
    p.pending <:+ s.expand ∧
      (∀ x fitness, ((p.append x fitness).getD p).pending = p.pending) ∧
      (∀ parents children src e p' src',
        p.offspringHere parents children src = some ((.error e, p'), src') → p'.pending = p.pending) ∧
      ∀ parents children src batch p' src',
        p.offspring parents children src = some (.ok (batch, p'), src') →
        (p.policy parents.toInt.toNat ≠ .coldStart → p'.pending = p.pending) ∧
        (p.policy parents.toInt.toNat = .coldStart → ∃ taken, p.pending = taken ++ p'.pending ∧
          (taken.length : Int) = min children.toInt p.pending.length ∧
          ∀ k bound, taken[k]? = some bound → ∃ x child, p.Makes src taken batch k bound x ∧
            x.Holds bound ∧ batch[k]? = some child ∧
            (child = x ∨ (∃ scored ∈ p.history, x.same scored.1 = true) ∨
              ∃ y ∈ batch.take k, x.same y = true)) := by
  have hqueued := hp.queued
  refine ⟨hqueued.suffix, pending_append p, fun parents children src e p' src' h => ?_,
    fun parents children src batch p' src' h => ?_⟩
  · obtain ⟨-, rfl, -⟩ := refused_of_fits (fun _ hbound => hqueued.make_ne_error hbound) h
    rfl
  obtain ⟨hchildren, hbreed⟩ := offspring_eq_ok h
  rcases breed_eq_ok hbreed with ⟨hpolicy, ⟨seeded, t, hseeded, hbatch⟩, rfl⟩ | ⟨hpolicy, -, rfl⟩ |
    ⟨hpolicy, -, rfl⟩
  · refine ⟨fun hne => absurd hpolicy hne, fun _ => ⟨p.pending.take children.toInt.toNat,
      (List.take_append_drop _ _).symm, ?_, fun k bound hbound => ?_⟩⟩
    · have hpositive : 1 ≤ children.toInt := Int64.le_iff_toInt_le.mp hchildren
      rw [List.length_take]
      omega
    · obtain ⟨x, child, hmakes, hchild, hnew⟩ := seedBatch_makes hseeded hbatch hbound
      refine ⟨x, child, hmakes, ?_, hchild, hnew.imp_right collides_eq_true⟩
      obtain ⟨u, u', -, hmake⟩ := hmakes
      have hexpand := hqueued.suffix.subset (List.mem_of_mem_take (List.mem_of_getElem? hbound))
      obtain ⟨v, hbinds⟩ := Space.exists_binds hexpand
      exact Individual.holds_of_make hbinds.length_seeds_le hmake
  · exact ⟨fun _ => rfl, fun hcold => absurd (hpolicy.symm.trans hcold) (by simp)⟩
  · exact ⟨fun _ => rfl, fun hcold => absurd (hpolicy.symm.trans hcold) (by simp)⟩

/-- A coin with both sides to start from. -/
def bothSides : Space :=
  ⟨[{ name := "side", domain := .choice [.text "heads", .text "tails"],
      seeds := [.text "tails", .text "heads"] }]⟩

/-- The first side is taken off the queue and becomes a child, and the other one stays. -/
theorem seeds_in_order_bothSides : ∃ p batch p' src', Course bothSides 0.5 .maximize p ∧
    p.policy 1 = .coldStart ∧ p.offspring 1 1 (.ofScript [] 0) = some (.ok (batch, p'), src') ∧
    p.pending <:+ bothSides.expand ∧ p.pending.length = 2 ∧ p'.pending.length = 1 ∧
    ∃ bound x, p.pending.head? = some bound ∧ x.Holds bound ∧ batch = [x] := by
  have hstart := Course.start
    (rfl : make bothSides 0.5 .maximize (.ofScript [] 0) = some (.ok _, _))
  obtain ⟨p, hp, hhistory, hpending, hpolicy, batch, p', src', hbred, hlength⟩ : ∃ p,
      Course bothSides 0.5 .maximize p ∧ p.history = [] ∧ p.pending.length = 2 ∧
        p.policy 1 = .coldStart ∧ ∃ batch p' src',
          p.offspring 1 1 (.ofScript [] 0) = some (.ok (batch, p'), src') ∧ batch.length = 1 :=
    ⟨_, hstart, rfl, rfl, rfl, _, _, _, rfl, rfl⟩
  obtain ⟨hsuffix, -, -, hoffspring⟩ := seeds_in_order hp
  obtain ⟨taken, htaken, hcount, hserved⟩ := (hoffspring 1 1 _ batch p' src' hbred).2 hpolicy
  obtain ⟨bound, rfl⟩ : ∃ bound, taken = [bound] := List.length_eq_one_iff.mp (by
    rw [hpending] at hcount
    exact Int.ofNat_inj.mp hcount)
  obtain ⟨x, child, -, hholds, hchild, rfl | ⟨scored, hscored, -⟩ | ⟨y, hy, -⟩⟩ := hserved 0 bound rfl
  · refine ⟨p, batch, p', src', hp, hpolicy, hbred, hsuffix, hpending, ?_, bound, child, ?_, hholds, ?_⟩
    · simpa [htaken] using hpending
    · simp [htaken]
    · obtain ⟨z, rfl⟩ := List.length_eq_one_iff.mp hlength
      simpa using hchild
  · simp [hhistory] at hscored
  · simp at hy

end Population

end Tuning
