import Tuning.Proofs.Population.Search
import Tuning.Proofs.Value.Sameness

/-! # Batches of children

Every child goes through the loop that perturbs it until it is new. So a batch grows by new children
only, whichever way it is bred. -/

namespace Tuning.Population

open Draw (Ensures)

/-- The individuals of a batch have a property and are new: not recorded, and no two the same. -/
structure NewBatch (p : Population) (Q : Individual → Prop) (batch : List Individual) : Prop where
  all : ∀ x ∈ batch, Q x
  unrecorded : ∀ x ∈ batch, p.records x = false
  distinct : batch.Pairwise fun x y => x.same y = false

variable {p : Population} {Q : Individual → Prop}

theorem NewBatch.nil : p.NewBatch Q [] := by
  constructor <;> simp

theorem NewBatch.push {batch : List Individual} (h : p.NewBatch Q batch) {x : Individual} (hx : Q x)
    (hnew : p.collides batch x = false) : p.NewBatch Q (batch ++ [x]) := by
  obtain ⟨hrecords, hbatch⟩ := Bool.or_eq_false_iff.mp hnew
  refine ⟨?_, ?_, ?_⟩
  · simpa [or_imp, forall_and] using ⟨h.all, hx⟩
  · simpa [or_imp, forall_and] using ⟨h.unrecorded, hrecords⟩
  · refine List.pairwise_append.mpr ⟨h.distinct, List.pairwise_singleton _ _, ?_⟩
    intro y hy z hz
    rw [List.mem_singleton.mp hz, Individual.same_comm]
    exact Bool.eq_false_iff.mpr (List.any_eq_false.mp hbatch y hy)

theorem NewBatch.tail {x : Individual} {batch : List Individual} (h : p.NewBatch Q (x :: batch)) :
    p.NewBatch Q batch :=
  ⟨fun y hy => h.all y (by simp [hy]), fun y hy => h.unrecorded y (by simp [hy]),
    (List.pairwise_cons.mp h.distinct).2⟩

/-- When the first individual is recorded, the others are still new. -/
theorem NewBatch.append {x : Individual} {batch : List Individual} (h : p.NewBatch Q (x :: batch))
    {fitness : Float} {p' : Population} (happend : p.append x fitness = some p') :
    p'.NewBatch Q batch := by
  obtain ⟨-, rfl⟩ := append_eq_some happend
  refine ⟨h.tail.all, fun y hy => ?_, h.tail.distinct⟩
  refine List.any_eq_false.mpr fun scored hscored => ?_
  rcases List.mem_cons.mp ((Ranking.insert_perm _ _ _).mem_iff.mp hscored) with rfl | hscored
  · dsimp only
    rw [Individual.same_comm]
    exact Bool.eq_false_iff.mp ((List.pairwise_cons.mp h.distinct).1 y hy)
  · exact List.any_eq_false.mp (h.tail.unrecorded y hy) scored hscored

/-! ## One child -/

/-- The loop ends with an individual that is new, and that moves have led to. -/
theorem freshen_ensures (hQ : ∀ x y : Individual, Q x → x.Move y → Q y) (batch : List Individual)
    (fuel : Nat) (x : Individual) (hx : Q x) :
    Ensures (p.freshen batch fuel x) fun y => Q y ∧ p.collides batch y = false := by
  induction fuel generalizing x with
  | zero => exact fun _ _ _ h => nomatch h
  | succ fuel ih =>
      rw [freshen]
      split
      · refine .bind (P := Q) (fun _ y _ hy => hQ x y hx (.mutate hy)) fun y hy => ?_
        dsimp only
        split
        · exact .bind (P := Q) (fun _ z _ hz => hQ y z hy (.reset hz)) ih
        · exact .bind (.pure hy) ih
      · next hnew => exact .pure ⟨hx, Bool.eq_false_iff.mpr hnew⟩

theorem unique_ensures (hQ : ∀ x y : Individual, Q x → x.Move y → Q y) (batch : List Individual)
    (x : Individual) (hx : Q x) :
    Ensures (p.unique batch x) fun y => Q y ∧ p.collides batch y = false :=
  .bind_any fun _ => freshen_ensures hQ batch _ x hx

theorem fresh_ensures (hQ : ∀ x y : Individual, Q x → x.Move y → Q y) (href : Q p.reference)
    (batch : List Individual) :
    Ensures (p.fresh batch) fun y => Q y ∧ p.collides batch y = false :=
  .bind (fun _ x _ hx => hQ p.reference x href (.reset hx)) fun x hx =>
    unique_ensures hQ batch x hx

/-- A child takes every gene from an individual that fits, so it fits. -/
theorem cross_ensures {S : Parameter → Gene → Prop} {s : Space} {rate : Float}
    (hp : p.Fitting S s rate) (wheel : List Float) :
    Ensures (p.cross wheel) (Individual.Matches S s) := by
  unfold cross
  have hparents : ∀ x ∈ p.history.map (·.1), x.Matches S s := by
    intro x hx
    obtain ⟨scored, hscored, rfl⟩ := List.mem_map.mp hx
    exact hp.history scored hscored
  generalize p.history.map (·.1) = parents at hparents
  cases parents with
  | nil => exact .pure hp.reference
  | cons best rest =>
      have hbest := hparents best (by simp)
      -- a gene is the one of the best individual or the one at the same place of another
      refine .bind (Draw.mapM_ensures (R := fun numbered named => named.1 = numbered.1.1 ∧
        ∃ x : Individual, x.Matches S s ∧ ∃ name, x.genes[numbered.2]? = some (name, named.2))
        best.genes.zipIdx ?_) fun genes hgenes => .pure ?_
      · rintro ⟨⟨name, gene⟩, i⟩ hi
        have hgene : best.genes[i]? = some (name, gene) := List.mk_mem_zipIdx_iff_getElem?.mp hi
        refine .bind_any fun k => .pure ⟨rfl, ?_⟩
        cases hparent : (best :: rest)[k]? with
        | none => exact ⟨best, hbest, name, hgene⟩
        | some x =>
            cases hpicked : x.genes[i]? with
            | none => exact ⟨best, hbest, name, by simpa [hpicked] using hgene⟩
            | some named =>
                have hx := hparents x (List.mem_of_getElem? hparent)
                exact ⟨x, hx, named.1, by simp [hpicked]⟩
      · have hlength : genes.length = best.genes.length := by
          rw [← hgenes.length_eq, List.length_zipIdx]
        refine List.forall₂_of_length_eq_of_get (hbest.length_eq.trans hlength.symm) ?_
        intro i hi hi'
        obtain ⟨hname, x, hx, name, hgene⟩ := hgenes.get (by simpa [hlength] using hi') hi'
        have hxi : i < x.genes.length := hx.length_eq ▸ hi
        simp only [List.get_eq_getElem, List.getElem_zipIdx, Nat.zero_add] at hname hgene ⊢
        refine ⟨hname.trans (hbest.get hi (hlength ▸ hi')).1, ?_⟩
        have hS := (hx.get hi hxi).2
        rw [List.getElem?_eq_getElem hxi] at hgene
        rwa [List.get_eq_getElem, List.get_eq_getElem, Option.some.inj hgene] at hS

/-! ## Batches -/

/-- Every child is made against the batch before it, so the batch stays new as it grows. -/
theorem extend_ensures {make : List Individual → Draw Individual}
    (hmake : ∀ batch, Ensures (make batch) fun y => Q y ∧ p.collides batch y = false)
    (count : Nat) (batch : List Individual) (h : p.NewBatch Q batch) :
    Ensures (extend make count batch) fun grown =>
      p.NewBatch Q grown ∧ grown.length = batch.length + count := by
  induction count generalizing batch with
  | zero => exact .pure ⟨h, rfl⟩
  | succ count ih =>
      refine .bind (hmake batch) fun x hx => ?_
      refine (ih (batch ++ [x]) (h.push hx.1 hx.2)).mono fun grown hgrown => ⟨hgrown.1, ?_⟩
      rw [hgrown.2, List.length_append, List.length_singleton]
      omega

theorem seedBatch_ok (hQ : ∀ x y : Individual, Q x → x.Move y → Q y) {spaces : List Space}
    {batch seeded : List Individual} {src src' : Source}
    (hmade : ∀ bound ∈ spaces, ∀ t x t', Individual.make bound p.rate t = some (.ok x, t') → Q x)
    (h : p.NewBatch Q batch) (hseeded : p.seedBatch spaces batch src = some (.ok seeded, src')) :
    p.NewBatch Q seeded ∧ seeded.length = batch.length + spaces.length := by
  induction spaces generalizing batch src with
  | nil =>
      obtain ⟨rfl, -⟩ := Draw.ok_pure_eq_some.mp hseeded
      exact ⟨h, rfl⟩
  | cons bound spaces ih =>
      obtain ⟨x, t, hx, hseeded⟩ := Draw.ok_bind_eq_some.mp hseeded
      obtain ⟨y, t', hy, hseeded⟩ := Draw.ok_bind_eq_some.mp hseeded
      have hxQ := hmade bound (by simp) src x t (Draw.ok_adapt_eq_some.mp hx)
      obtain ⟨hyQ, hnew⟩ := unique_ensures hQ batch x hxQ t y t' (Draw.ok_lift_eq_some.mp hy)
      obtain ⟨hbatch, hlength⟩ := ih (fun b hb => hmade b (by simp [hb])) (h.push hyQ hnew) hseeded
      refine ⟨hbatch, ?_⟩
      rw [hlength, List.length_append, List.length_singleton, List.length_cons]
      omega

/-- Whichever way a batch is bred, it has the size that was asked for, its children are new, and they
fit. -/
theorem breed_new {S : Parameter → Gene → Prop} {s : Space} {rate : Float} (law : s.Law S)
    (hp : p.Fitting S s rate) {parents children : Nat} {src src' : Source} {p' : Population}
    {batch : List Individual} (h : p.breed parents children src = some (.ok (batch, p'), src')) :
    p.NewBatch (Individual.Matches S s) batch ∧ batch.length = children := by
  have hmove : ∀ x y : Individual, x.Matches S s → x.Move y → y.Matches S s :=
    fun _ _ hx hxy => hxy.matches law hx
  have hfresh := fresh_ensures hmove hp.reference
  rcases breed_eq_ok h with ⟨-, ⟨seeded, t, hseeded, hbatch⟩, -⟩ | ⟨-, hbatch, -⟩ | ⟨-, hbatch, -⟩
  · have hmade : ∀ bound ∈ p.pending.take children, ∀ t x t',
        Individual.make bound p.rate t = some (.ok x, t') → x.Matches S s := by
      intro bound hbound t x t' hx
      have hexpand := hp.pending (List.mem_of_mem_take hbound)
      exact Individual.make_matches law (Space.covers_of_mem_expand hexpand) hx
    obtain ⟨hnew, hlength⟩ := seedBatch_ok hmove hmade .nil hseeded
    obtain ⟨hnew, hlength'⟩ := extend_ensures hfresh _ seeded hnew t batch src' hbatch
    refine ⟨hnew, ?_⟩
    rw [List.length_take, List.length_nil] at hlength
    omega
  · simpa using extend_ensures hfresh children [] .nil src batch src' hbatch
  · refine (extend_ensures ?_ children [] .nil src batch src' hbatch).imp_right (by simp)
    intro grown
    refine .bind (cross_ensures hp _) fun x hx => ?_
    refine .bind (P := Individual.Matches S s) ?_ fun y hy => unique_ensures hmove grown y hy
    exact fun _ y _ hy => hmove x y hx (.mutate hy)

/-! ## Every batch of a search -/

/-- The laws of a space hold of all individuals that a search meets. -/
theorem Search.fitting {S : Parameter → Gene → Prop} {s : Space} {rate : Float} {mode : Mode}
    {pool : List Individual} (law : s.Law S) (h : Search s rate mode p pool) :
    p.Fitting S s rate ∧ ∀ x ∈ pool, x.Matches S s := by
  induction h with
  | start h => exact ⟨make_fitting law h, by simp⟩
  | build _ hbound h ih =>
      refine ⟨ih.1, List.forall_mem_cons.mpr ⟨?_, ih.2⟩⟩
      rcases List.mem_cons.mp hbound with rfl | hbound
      · exact Individual.make_matches law (Space.covers_self _) h
      · exact Individual.make_matches law (Space.covers_of_mem_expand hbound) h
  | move _ hx h ih => exact ⟨ih.1, List.forall_mem_cons.mpr ⟨h.matches law (ih.2 _ hx), ih.2⟩⟩
  | append _ hx h ih => exact ⟨ih.1.append (ih.2 _ hx) h, ih.2⟩
  | offspring _ h ih =>
      have hbreed := (offspring_eq_ok h).2
      exact ⟨ih.1.breed hbreed, List.forall_mem_append.mpr ⟨(breed_new law ih.1 hbreed).1.all, ih.2⟩⟩

theorem Search.exists_make {s : Space} {rate : Float} {mode : Mode} {pool : List Individual}
    (h : Search s rate mode p pool) :
    ∃ start src src', make s rate mode src = some (.ok start, src') := by
  induction h with
  | start h => exact ⟨_, _, _, h⟩
  | build _ _ _ ih => exact ih
  | move _ _ _ ih => exact ih
  | append _ _ _ ih => exact ih
  | offspring _ _ ih => exact ih

/-- The starting values of a search fit, whatever the source: they were tried when the population was
made. -/
theorem Search.make_ne_error {s : Space} {rate : Float} {mode : Mode} {pool : List Individual}
    (h : Search s rate mode p pool) {bound : Space} (hbound : bound ∈ p.pending) (src : Source)
    (e : ParameterError) (src' : Source) :
    Individual.make bound p.rate src ≠ some (.error e, src') := by
  obtain ⟨start, t, t', hmake⟩ := h.exists_make
  have hfit := (h.fitting s.law_true).1
  obtain ⟨u, x, u', hx⟩ := (make_eq_ok hmake).2.1 bound (hfit.pending hbound)
  rw [hfit.rate_eq]
  exact Individual.make_ne_error hx src e src'

/-- Whatever a search has done before, a batch that is bred has the size that was asked for. No child
is the same as a recorded individual or as another child, and every child has the parameters of the
space. The history stays as it was. -/
theorem offspring_new {s : Space} {rate : Float} {mode : Mode} {pool : List Individual}
    (hp : Search s rate mode p pool) {parents children : Int64} {src src' : Source}
    {batch : List Individual} {p' : Population}
    (h : p.offspring parents children src = some (.ok (batch, p'), src')) :
    (batch.length : Int) = children.toInt ∧
      (∀ x ∈ batch, ∀ scored ∈ p.history, x.same scored.1 = false) ∧
      (∀ i j (hi : i < batch.length) (hj : j < batch.length), i ≠ j →
        batch[i].same batch[j] = false) ∧
      (∀ x ∈ batch, x.names = s.names) ∧
      p'.history = p.history := by
  obtain ⟨hchildren, hbreed⟩ := offspring_eq_ok h
  obtain ⟨hnew, hlength⟩ := breed_new s.law_true (hp.fitting s.law_true).1 hbreed
  refine ⟨?_, ?_, ?_, fun x hx => (hnew.all x hx).names_eq, ?_⟩
  · have hpositive : 1 ≤ children.toInt := Int64.le_iff_toInt_le.mp hchildren
    rw [hlength, Int.toNat_of_nonneg (by omega)]
  · intro x hx scored hscored
    exact Bool.eq_false_iff.mpr (List.any_eq_false.mp (hnew.unrecorded x hx) scored hscored)
  · intro i j hi hj hij
    rcases Nat.lt_or_gt_of_ne hij with hlt | hgt
    · exact List.pairwise_iff_getElem.mp hnew.distinct i j hi hj hlt
    · rw [Individual.same_comm]
      exact List.pairwise_iff_getElem.mp hnew.distinct j i hj hi hgt
  · obtain ⟨n, rfl⟩ := breed_population hbreed
    rfl

/-- The two sides of a coin. -/
def coin : Space :=
  ⟨[{ name := "side", domain := .choice [.text "heads", .text "tails"] }]⟩

/-- A search of the coin that has recorded one side and breeds one child. -/
theorem coin_search : ∃ p pool batch p' src',
    Search coin 0.5 .maximize p pool ∧ p.size = 1 ∧
      p.offspring 1 1 (.ofScript [0, 0, 0, 2 ^ 62] 0) = some (.ok (batch, p'), src') := by
  have hstart := Search.start
    (rfl : make coin 0.5 .maximize (.ofScript [0, 0] 0) = some (.ok _, _))
  have hbuild := hstart.build List.mem_cons_self
    (rfl : Individual.make coin 0.5 (.ofScript [0] 0) = some (.ok _, _))
  have happend := hbuild.append List.mem_cons_self (rfl : append _ _ 2.0 = some _)
  exact ⟨_, _, _, _, _, happend, rfl, rfl⟩

/-- The child is the other side. -/
theorem offspring_new_coin : ∃ p pool batch p' src',
    Search coin 0.5 .maximize p pool ∧ p.size = 1 ∧
      p.offspring 1 1 (.ofScript [0, 0, 0, 2 ^ 62] 0) = some (.ok (batch, p'), src') ∧
      batch.length = (1 : Int) ∧
      (∀ x ∈ batch, ∀ scored ∈ p.history, x.same scored.1 = false) ∧
      (∀ x ∈ batch, x.names = ["side"]) ∧ p'.history = p.history := by
  obtain ⟨p, pool, batch, p', src', hp, hsize, h⟩ := coin_search
  obtain ⟨hlength, hunrecorded, -, hnames, hhistory⟩ := offspring_new hp h
  exact ⟨p, pool, batch, p', src', hp, hsize, h, hlength, hunrecorded, hnames, hhistory⟩

end Tuning.Population
