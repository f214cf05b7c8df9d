import Tuning.Proofs.Gene.Reach
import Tuning.Proofs.Population.Capacity
import Tuning.Proofs.Population.Volume

/-! # A way out of every collision

While fewer individuals are taken than the space has room for, some vector of indices is free. A
perturbation that changes nothing is followed by a fresh draw, and the draw can pick that vector. So
for every batch that has room there is a script under which it is bred. -/

namespace Tuning

open Draw (Reaches)

/-! ## Individuals -/

namespace Individual

/-- The individuals of a space, starting values included. -/
abbrev Spans (s : Space) (x : Individual) : Prop :=
  x.Matches (fun p g => p.domain.Spans g) s

variable {s : Space} {x y : Individual}

theorem Spans.cards_eq (hx : x.Spans s) (hy : y.Spans s) : x.cards = y.cards := by
  have hforall : List.Forall₂ (· = ·) (x.genes.map (·.2.card)) (y.genes.map (·.2.card)) := by
    rw [List.forall₂_map_left_iff, List.forall₂_map_right_iff]
    exact forall₂_chain hx.flip hy fun _ _ _ _ hg hh => hg.2.card_eq hh.2
  rwa [List.forall₂_eq_eq_eq] at hforall

theorem same_self_of_same (h : x.same y = true) : x.same x = true := by
  obtain ⟨xs⟩ := x
  obtain ⟨ys⟩ := y
  change sameGenes xs ys = true at h
  change sameGenes xs xs = true
  induction xs generalizing ys with
  | nil => rfl
  | cons x xs ih =>
      cases ys with
      | nil => cases h
      | cons y ys =>
          simp only [sameGenes, Bool.and_eq_true] at h ⊢
          exact ⟨⟨beq_self_eq_true _, Gene.same_self_of_same h.1.2⟩, ih ys h.2⟩

theorem Spans.exists_parameter (hx : x.Spans s) {named : String × Gene} (h : named ∈ x.genes) :
    ∃ p ∈ s.parameters, p.domain.Spans named.2 := by
  obtain ⟨i, rfl⟩ := List.mem_iff_get.mp h
  have hi : i.val < s.parameters.length := by
    rw [hx.length_eq]
    exact i.isLt
  exact ⟨s.parameters.get ⟨i, hi⟩, List.get_mem _ _, (hx.get hi i.isLt).2⟩

/-- Perturbed, an individual can stay as it is. -/
theorem Spans.reaches_self (hx : x.Spans s) : x.mutate.Reaches x := by
  refine Reaches.give (.mapM (List.forall₂_same.mpr fun named hnamed => ?_)) Individual.mk
  obtain ⟨p, -, hspans⟩ := hx.exists_parameter hnamed
  exact hspans.reaches_self.give fun gene => (named.1, gene)

theorem forall₂_selectGenes {R : String × Gene → String × Gene → Prop} {genes : List (String × Gene)}
    {v : List Nat} (hv : List.Forall₂ (· < ·) v (genes.map (·.2.card)))
    (h : ∀ named ∈ genes, ∀ i < named.2.card, R named (named.1, named.2.select (i : Nat))) :
    List.Forall₂ R genes (selectGenes genes (v.map (↑))) := by
  induction genes generalizing v with
  | nil =>
      cases hv
      exact .nil
  | cons named genes ih =>
      cases hv with
      | cons hi hv =>
          exact .cons (h named List.mem_cons_self _ hi)
            (ih hv fun other hother => h other (List.mem_cons_of_mem _ hother))

/-- Drawn anew, an individual can be at every vector of indices. -/
theorem Spans.reaches_select (hx : x.Spans s) (hcards : ∀ card ∈ x.cards, card < 2 ^ 63)
    {v : List Nat} (hv : List.Forall₂ (· < ·) v x.cards) :
    x.reset.Reaches (x.select (v.map (↑))) := by
  refine Reaches.give (.mapM (forall₂_selectGenes hv fun named hnamed i hi => ?_)) Individual.mk
  obtain ⟨p, -, hspans⟩ := hx.exists_parameter hnamed
  have hcard := hcards _ (List.mem_map_of_mem hnamed)
  exact (hspans.reaches_select hi hcard).give fun gene => (named.1, gene)

theorem selectGenes_inj {ps : List Parameter} {xs ys : List (String × Gene)}
    (hxs : List.Forall₂ (fun p named => named.1 = p.name ∧ p.domain.Spans named.2) ps xs)
    (hys : List.Forall₂ (fun p named => named.1 = p.name ∧ p.domain.Spans named.2) ps ys)
    {v w : List Nat} (hv : List.Forall₂ (· < ·) v (xs.map (·.2.card)))
    (hw : List.Forall₂ (· < ·) w (xs.map (·.2.card)))
    (hvy : sameGenes (selectGenes xs (v.map (↑))) ys = true)
    (hwy : sameGenes (selectGenes xs (w.map (↑))) ys = true) : v = w := by
  induction hxs generalizing ys v w with
  | nil =>
      cases hv
      cases hw
      rfl
  | cons hg _ ih =>
      cases hys with
      | cons hh hys =>
          cases hv with
          | cons hi hv =>
              cases hw with
              | cons hj hw =>
                  simp only [List.map_cons, selectGenes, sameGenes, Bool.and_eq_true] at hvy hwy
                  rw [hg.2.select_inj hh.2.suits hi hj hvy.1.2 hwy.1.2, ih hys hv hw hvy.2 hwy.2]

/-- At most one vector of indices is the same as an individual. -/
theorem Spans.select_inj (hx : x.Spans s) (hy : y.Spans s) {v w : List Nat}
    (hv : List.Forall₂ (· < ·) v x.cards) (hw : List.Forall₂ (· < ·) w x.cards)
    (hvy : (x.select (v.map (↑))).same y = true) (hwy : (x.select (w.map (↑))).same y = true) :
    v = w :=
  selectGenes_inj hx hy hv hw hvy hwy

/-- Where there are more vectors than individuals are taken, one is the same as none of them. -/
theorem Spans.exists_free (hx : x.Spans s) (taken : List Individual) (htaken : ∀ y ∈ taken, y.Spans s)
    (hroom : taken.length < x.cards.prod) :
    ∃ v : List Nat, List.Forall₂ (· < ·) v x.cards ∧
      ∀ y ∈ taken, (x.select (v.map (↑))).same y = false := by
  by_contra hnone
  have hindex : ∀ v : List Nat, List.Forall₂ (· < ·) v x.cards →
      ∃ k, ∃ hk : k < taken.length, (x.select (v.map (↑))).same taken[k] = true := by
    intro v hv
    by_contra hfree
    refine hnone ⟨v, hv, fun y hy => Bool.eq_false_iff.mpr fun hsame => hfree ?_⟩
    obtain ⟨k, hk, rfl⟩ := List.getElem_of_mem hy
    exact ⟨k, hk, hsame⟩
  choose! index hlt hsame using hindex
  have henum := Indexed.enumerates_vectors x.cards
  have hnodup : ((Indexed.vectors x.cards).toList.map index).Nodup := by
    refine henum.nodup_toList.map_on fun v hv w hw heq => ?_
    have hv' := henum.mem_toList.mp hv
    have hw' := henum.mem_toList.mp hw
    have hsame' := hsame v hv'
    simp only [heq] at hsame'
    exact hx.select_inj (htaken _ (List.getElem_mem _)) hv' hw' hsame' (hsame w hw')
  have hsubset : (Indexed.vectors x.cards).toList.map index ⊆ List.range taken.length := by
    intro k hk
    obtain ⟨v, hv, rfl⟩ := List.mem_map.mp hk
    exact List.mem_range.mpr (hlt v (henum.mem_toList.mp hv))
  have hle := (hnodup.subperm hsubset).length_le
  rw [List.length_map, Indexed.length_toList, Indexed.size_vectors, List.length_range] at hle
  omega

end Individual

/-! ## Populations -/

/-- The domains of a space are countable with machine integers. -/
def Space.Counted (s : Space) : Prop :=
  ∀ p ∈ s.parameters, ∀ g, p.domain.Spans g → g.card < 2 ^ 63

theorem Individual.Spans.card_lt {s : Space} (hs : s.Counted) {x : Individual} (hx : x.Spans s) :
    ∀ card ∈ x.cards, card < 2 ^ 63 := by
  intro card hcard
  obtain ⟨named, hnamed, rfl⟩ := List.mem_map.mp hcard
  obtain ⟨p, hp, hspans⟩ := hx.exists_parameter hnamed
  exact hs p hp named.2 hspans

theorem Individual.reaches_geneOf {p : Parameter} {rate : Float} {g : Gene} {src src' : Source}
    (h : Individual.geneOf p rate src = some (.ok g, src'))
    (hcard : ∀ g, p.domain.Spans g → g.card < 2 ^ 63) :
    ∃ g, (Individual.geneOf p rate).run.Reaches (.ok g) := by
  obtain ⟨start, hstart, hg⟩ := Individual.geneOf_eq_ok h
  have hspans := Parameter.spans_of_gene hstart
  unfold Individual.geneOf
  rw [hstart]
  rcases hg with ⟨hseeds, -⟩ | ⟨seed, rest, hseeds, hassign, -⟩
  · have hreset := hspans.reaches_select hspans.card_pos (hcard start hspans)
    refine ⟨start.select (0 : Nat), (Reaches.ok_pure start).ok_bind ?_⟩
    simp only [hseeds]
    exact hreset.ok_lift
  · refine ⟨g, (Reaches.ok_pure start).ok_bind ?_⟩
    simp only [hseeds, hassign]
    exact .ok_pure g

/-- An individual that can be made is made under some script. -/
theorem Individual.reaches_make {s bound : Space} {rate : Float} {x : Individual} {src src' : Source}
    (hs : s.Counted) (hbound : List.Forall₂ Parameter.Covers s.parameters bound.parameters)
    (h : Individual.make bound rate src = some (.ok x, src')) :
    ∃ y, (Individual.make bound rate).run.Reaches (.ok y) ∧ y.Spans s := by
  obtain ⟨genes, t, hgenes, -⟩ := Draw.ok_bind_eq_some.mp h
  have hmade : List.Forall₂ (fun b _ => ∃ t g t', Individual.geneOf b rate t = some (.ok g, t'))
      bound.parameters genes := by
    refine Draw.mapM_ok hgenes fun b _ t named t' hnamed => ?_
    obtain ⟨g, u, hg, -⟩ := Draw.ok_bind_eq_some.mp hnamed
    exact ⟨t, g, u, hg⟩
  have hgene : ∀ b ∈ bound.parameters, ∃ named : String × Gene, ExceptT.run (m := Draw)
      (do return (b.name, ← Individual.geneOf b rate)) |>.Reaches (.ok named) := by
    intro b hb
    obtain ⟨i, rfl⟩ := List.mem_iff_get.mp hb
    obtain ⟨t, g, t', hg⟩ := hmade.get i.isLt (hmade.length_eq ▸ i.isLt)
    have hi : i.val < s.parameters.length := by
      rw [hbound.length_eq]
      exact i.isLt
    have hcovers := hbound.get hi i.isLt
    obtain ⟨g, hg⟩ := Individual.reaches_geneOf hg fun g hspans =>
      hs _ (List.get_mem _ ⟨i, hi⟩) g (hcovers.domain_eq ▸ hspans)
    exact ⟨_, hg.ok_bind (.ok_pure _)⟩
  obtain ⟨named, hnamed⟩ := Reaches.exists_forall₂ hgene
  have hreaches : (Individual.make bound rate).run.Reaches (.ok ⟨named⟩) :=
    (Reaches.ok_mapM hnamed).ok_bind (.ok_pure _)
  refine ⟨⟨named⟩, hreaches, ?_⟩
  refine hreaches.ensured (P := fun result => ∀ y, result = .ok y → y.Spans s) ?_ _ rfl
  rintro t _ t' hmake y rfl
  exact make_matches s.law_spans hbound hmake

namespace Population

/-- The parts of a population are of a space, and the volume counts the vectors of indices. -/
structure Roomy (s : Space) (rate : Float) (p : Population) : Prop where
  counted : s.Counted
  fitting : p.Fitting (fun q g => q.domain.Spans g) s rate
  volume_eq : p.volume = p.reference.cards.prod
  made : ∀ bound ∈ p.pending, ∃ src x src', Individual.make bound p.rate src = some (.ok x, src')

variable {s : Space} {rate : Float} {p : Population} {batch : List Individual} {x : Individual}

theorem collides_eq_any (p : Population) (batch : List Individual) (x : Individual) :
    p.collides batch x = (p.history.map (·.1) ++ batch).any x.same := by
  rw [List.any_append, List.any_map]
  rfl

theorem spans_of_move {x y : Individual} (hx : x.Spans s) (hxy : x.Move y) : y.Spans s :=
  hxy.matches s.law_spans hx

/-- The loop that perturbs an individual until it is new can end at once, or after one fresh draw. -/
theorem Roomy.unique (hp : p.Roomy s rate) (hx : x.Spans s) (hbatch : ∀ y ∈ batch, y.Spans s)
    (hroom : p.size + batch.length < p.volume) :
    ∃ y, (p.unique batch x).Reaches y ∧ y.Spans s := by
  suffices hreaches : ∃ y, (p.unique batch x).Reaches y by
    obtain ⟨y, hy⟩ := hreaches
    exact ⟨y, hy, (hy.ensured (unique_ensures (fun _ _ => spans_of_move) batch x hx)).1⟩
  by_cases hcollides : p.collides batch x = true
  · have htaken : ∀ y ∈ p.history.map (·.1) ++ batch, y.Spans s := by
      refine List.forall_mem_append.mpr ⟨fun y hy => ?_, hbatch⟩
      obtain ⟨scored, hscored, rfl⟩ := List.mem_map.mp hy
      exact hp.fitting.history scored hscored
    have hcards := hx.cards_eq hp.fitting.reference
    obtain ⟨v, hv, hfree⟩ := hx.exists_free _ htaken (by
      rw [hcards, ← hp.volume_eq, List.length_append, List.length_map]
      exact hroom)
    have hself : x.same x = true := by
      rw [collides_eq_any, List.any_eq_true] at hcollides
      obtain ⟨y, -, hsame⟩ := hcollides
      exact Individual.same_self_of_same hsame
    have hnew : p.collides batch (x.select (v.map (↑))) = false := by
      rw [collides_eq_any, List.any_eq_false]
      exact fun y hy => Bool.eq_false_iff.mp (hfree y hy)
    obtain ⟨words, hwords, hmutate⟩ := hx.reaches_self
    obtain ⟨more, hmore, hreset⟩ := hx.reaches_select (hx.card_lt hp.counted) hv
    refine ⟨x.select (v.map (↑)), .get_bind ⟨words ++ (more ++ []), ?_, fun src hsrc => ?_⟩⟩
    · simpa [or_imp, forall_and] using ⟨hwords, hmore⟩
    obtain ⟨fuel, hfuel⟩ := Nat.exists_eq_add_one_of_ne_zero hsrc.ne'
    have hdone : (p.freshen batch (fuel + 1) (x.select (v.map (↑)))).Gives []
        (x.select (v.map (↑))) := by
      rw [freshen, if_neg (Bool.eq_false_iff.mp hnew)]
      exact fun _ _ => rfl
    rw [hfuel, freshen, if_pos hcollides]
    refine hmutate.bind ?_
    rw [if_pos hself]
    exact hreset.bind hdone
  · refine ⟨x, .get_bind ⟨[], by simp, fun src _ => ?_⟩⟩
    rw [freshen, if_neg hcollides]
    exact fun _ _ => rfl

theorem Roomy.fresh (hp : p.Roomy s rate) (hbatch : ∀ y ∈ batch, y.Spans s)
    (hroom : p.size + batch.length < p.volume) :
    ∃ y, (p.fresh batch).Reaches y ∧ y.Spans s := by
  have href : p.reference.Spans s := hp.fitting.reference
  obtain ⟨v, hv, -⟩ := href.exists_free [] (by simp) (by
    rw [← hp.volume_eq, List.length_nil]
    omega)
  have hreset := href.reaches_select (href.card_lt hp.counted) hv
  obtain ⟨y, hy, hspans⟩ := hp.unique (spans_of_move href (.select _ _)) hbatch hroom
  exact ⟨y, hreset.bind hy, hspans⟩

theorem reaches_spin (wheel : List Float) : ∃ k, (Wheel.spin wheel).Reaches k :=
  ⟨_, Reaches.give ⟨_, by simp, Draw.gives_lastFraction⟩ _⟩

theorem reaches_cross (p : Population) (wheel : List Float) : ∃ x, (p.cross wheel).Reaches x := by
  obtain ⟨k, hk⟩ := reaches_spin wheel
  unfold cross
  dsimp only
  split
  · exact ⟨_, .pure _⟩
  · obtain ⟨genes, hgenes⟩ := Reaches.exists_forall₂ fun numbered _ => ⟨_, hk.give _⟩
    exact ⟨⟨genes⟩, Reaches.give (.mapM hgenes) Individual.mk⟩

theorem Roomy.bred (hp : p.Roomy s rate) (wheel : List Float) (hbatch : ∀ y ∈ batch, y.Spans s)
    (hroom : p.size + batch.length < p.volume) :
    ∃ y, Reaches (do p.unique batch (← (← p.cross wheel).mutate)) y ∧ y.Spans s := by
  obtain ⟨x, hx⟩ := reaches_cross p wheel
  have hspans : x.Spans s := hx.ensured (cross_ensures hp.fitting wheel)
  obtain ⟨y, hy, hyspans⟩ := hp.unique hspans hbatch hroom
  exact ⟨y, hx.bind (hspans.reaches_self.bind hy), hyspans⟩

theorem reaches_extend {make : List Individual → Draw Individual}
    (hmake : ∀ batch, (∀ y ∈ batch, y.Spans s) → p.size + batch.length < p.volume →
      ∃ y, (make batch).Reaches y ∧ y.Spans s)
    (count : Nat) (batch : List Individual) (hbatch : ∀ y ∈ batch, y.Spans s)
    (hroom : p.size + (batch.length + count) ≤ p.volume) :
    ∃ grown, (extend make count batch).Reaches grown ∧ grown.length = batch.length + count := by
  induction count generalizing batch with
  | zero => exact ⟨batch, .pure batch, rfl⟩
  | succ count ih =>
      obtain ⟨y, hy, hspans⟩ := hmake batch hbatch (by omega)
      have hgrown : ∀ z ∈ batch ++ [y], z.Spans s := by
        simpa [or_imp, forall_and] using ⟨hbatch, hspans⟩
      obtain ⟨grown, hreaches, hlength⟩ := ih _ hgrown (by simp; omega)
      refine ⟨grown, hy.bind hreaches, ?_⟩
      rw [hlength, List.length_append, List.length_singleton]
      omega

theorem Roomy.seedBatch (hp : p.Roomy s rate) {spaces : List Space} (hspaces : spaces ⊆ p.pending)
    (batch : List Individual) (hbatch : ∀ y ∈ batch, y.Spans s)
    (hroom : p.size + (batch.length + spaces.length) ≤ p.volume) :
    ∃ seeded, (p.seedBatch spaces batch).run.Reaches (.ok seeded) ∧ (∀ y ∈ seeded, y.Spans s) ∧
      seeded.length = batch.length + spaces.length := by
  induction spaces generalizing batch with
  | nil => exact ⟨batch, .ok_pure batch, hbatch, rfl⟩
  | cons bound spaces ih =>
      obtain ⟨hbound, hrest⟩ := List.cons_subset.mp hspaces
      rw [List.length_cons] at hroom
      obtain ⟨src, x, src', hmade⟩ := hp.made bound hbound
      have hcovers := Space.covers_of_mem_expand (hp.fitting.pending hbound)
      obtain ⟨x, hx, hxspans⟩ := Individual.reaches_make hp.counted hcovers hmade
      obtain ⟨y, hy, hyspans⟩ := hp.unique hxspans hbatch (by omega)
      have hgrown : ∀ z ∈ batch ++ [y], z.Spans s := by
        simpa [or_imp, forall_and] using ⟨hbatch, hyspans⟩
      obtain ⟨seeded, hseeded, hspans, hlength⟩ := ih hrest _ hgrown (by simp; omega)
      refine ⟨seeded, hx.ok_adapt.ok_bind (hy.ok_lift.ok_bind hseeded), hspans, ?_⟩
      rw [hlength, List.length_append, List.length_singleton, List.length_cons]
      omega

theorem Roomy.breed (hp : p.Roomy s rate) (parents : Nat) {children : Nat}
    (hroom : p.size + children ≤ p.volume) :
    ∃ batch p', (p.breed parents children).run.Reaches (.ok (batch, p')) ∧
      batch.length = children := by
  unfold Population.breed
  cases p.policy parents with
  | coldStart =>
      have htake : (p.pending.take children).length ≤ children := List.length_take_le _ _
      obtain ⟨seeded, hseeded, hspans, hlength⟩ := hp.seedBatch
        (List.take_subset children p.pending) [] (by simp) (by rw [List.length_nil]; omega)
      rw [List.length_nil, Nat.zero_add] at hlength
      obtain ⟨batch, hbatch, hgrown⟩ := reaches_extend (fun _ => hp.fresh) (children - seeded.length)
        seeded hspans (by omega)
      refine ⟨batch, _, hseeded.ok_bind (hbatch.ok_lift.ok_bind (.ok_pure _)), ?_⟩
      omega
  | restart =>
      obtain ⟨batch, hbatch, hgrown⟩ := reaches_extend (fun _ => hp.fresh) children []
        (by simp) (by simpa using hroom)
      exact ⟨batch, p, hbatch.ok_lift.ok_bind (.ok_pure _), by simpa using hgrown⟩
  | crossover =>
      obtain ⟨batch, hbatch, hgrown⟩ := reaches_extend (fun _ => hp.bred _) children []
        (by simp) (by simpa using hroom)
      exact ⟨batch, p, hbatch.ok_lift.ok_bind (.ok_pure _), by simpa using hgrown⟩

/-! ## Searches -/

theorem Search.volume_eq {mode : Mode} {pool : List Individual} (h : Search s rate mode p pool) :
    p.volume = p.reference.cards.prod := by
  induction h with
  | start h => exact volume_eq_prod h
  | build _ _ _ ih => exact ih
  | move _ _ _ ih => exact ih
  | append _ _ h ih =>
      obtain ⟨-, rfl⟩ := append_eq_some h
      exact ih
  | offspring _ h ih =>
      obtain ⟨n, rfl⟩ := breed_population (offspring_eq_ok h).2
      exact ih

theorem Search.counted {mode : Mode} {pool : List Individual} (h : Search s rate mode p pool) :
    s.Counted := by
  obtain ⟨start, src, src', hmake⟩ := h.exists_make
  have href : start.reference.Spans s := (make_fitting s.law_spans hmake).reference
  have hcards := (make_eq_ok hmake).2.2.2.1
  intro q hq g hg
  obtain ⟨i, rfl⟩ := List.mem_iff_get.mp hq
  have hi : i.val < start.reference.genes.length := by
    rw [← href.length_eq]
    exact i.isLt
  rw [hg.card_eq (href.get i.isLt hi).2]
  exact hcards _ (List.mem_map_of_mem (List.get_mem _ ⟨i, hi⟩))

theorem Search.roomy {mode : Mode} {pool : List Individual} (h : Search s rate mode p pool) :
    p.Roomy s rate where
  counted := h.counted
  fitting := (h.fitting s.law_spans).1
  volume_eq := h.volume_eq
  made bound hbound := by
    obtain ⟨start, src, src', hmake⟩ := h.exists_make
    have hfit := (h.fitting s.law_spans).1
    rw [hfit.rate_eq]
    exact (make_eq_ok hmake).2.1 bound (hfit.pending hbound)

/-- The sum in 64-bit arithmetic is not above the sum. -/
theorem not_exhaustedBy {children : Int64} (hchildren : 1 ≤ children)
    (hroom : (p.size : Int) + children.toInt ≤ p.volume) : p.exhaustedBy children = false := by
  have hpositive : 1 ≤ children.toInt := Int64.le_iff_toInt_le.mp hchildren
  have hle : ((p.size : Int) + children.toInt).bmod (2 ^ 64) ≤ p.size + children.toInt := by
    rw [Int.bmod_def]
    split <;> omega
  rw [← Bool.not_eq_true, exhaustedBy_iff_bmod]
  omega

/-- Whatever a search has done before, a batch for which the space has room, and that is not too large
to be held, is bred under some script of random words. -/
theorem offspring_reachable {mode : Mode} {pool : List Individual} (hp : Search s rate mode p pool)
    {parents children : Int64} (hparents : 1 ≤ parents) (hchildren : 1 ≤ children)
    (hroom : (p.size : Int) + children.toInt ≤ p.volume) (hlarge : children ≤ largestBatch) :
    ∃ (script : List Nat) (batch : List Individual) (p' : Population),
      (∀ word ∈ script, word < 2 ^ 63) ∧ (batch.length : Int) = children.toInt ∧
      ∀ src : Source, script <+: src.script → script.length < src.allowance →
        ∃ src', p.offspring parents children src = some (.ok (batch, p'), src') := by
  have hpositive : 1 ≤ children.toInt := Int64.le_iff_toInt_le.mp hchildren
  obtain ⟨batch, p', hreaches, hlength⟩ :=
    hp.roomy.breed parents.toInt.toNat (show p.size + children.toInt.toNat ≤ p.volume by omega)
  obtain ⟨script, hwords, hscript⟩ := hreaches.exists_script
  refine ⟨script, batch, p', hwords, by omega, fun src hsrc hallowance => ?_⟩
  obtain ⟨src', hbreed⟩ := hscript src hsrc hallowance
  refine ⟨src', ?_⟩
  rw [offspring_apply, if_neg (by simpa [Int64.not_lt] using ⟨hparents, hchildren⟩),
    if_neg (by simp [not_exhaustedBy hchildren hroom]), if_neg (Int64.not_lt.mpr hlarge)]
  exact hbreed

/-- One side of the coin is recorded and one is left. -/
theorem coin_left : ∃ p pool, Search coin 0.0 .maximize p pool ∧
    (p.size : Int) + (1 : Int64).toInt = p.volume := by
  have hstart := Search.start
    (rfl : make coin 0.0 .maximize (.ofScript [0, 0] 0) = some (.ok _, _))
  have hbuild := hstart.build List.mem_cons_self
    (rfl : Individual.make coin 0.0 (.ofScript [0] 0) = some (.ok _, _))
  exact ⟨_, _, hbuild.append List.mem_cons_self (rfl : append _ _ 2.0 = some _), rfl⟩

/-- No perturbation changes the coin, but the side that is left is found. -/
theorem offspring_reachable_coin : ∃ p pool, Search coin 0.0 .maximize p pool ∧
    (p.size : Int) + (1 : Int64).toInt ≤ p.volume ∧ (1 : Int64) ≤ largestBatch ∧
    ∃ (script : List Nat) (batch : List Individual) (p' : Population),
      (∀ word ∈ script, word < 2 ^ 63) ∧ (batch.length : Int) = (1 : Int64).toInt ∧
      ∀ src : Source, script <+: src.script → script.length < src.allowance →
        ∃ src', p.offspring 1 1 src = some (.ok (batch, p'), src') := by
  obtain ⟨p, pool, hp, hroom⟩ := coin_left
  exact ⟨p, pool, hp, hroom.le, by decide,
    offspring_reachable hp (by decide) (by decide) hroom.le (by decide)⟩

/-- Three orderings of ten numbers. -/
def orderings : Space :=
  ⟨[{ name := "x", domain := .permutation 10 }, { name := "y", domain := .permutation 10 },
    { name := "z", domain := .permutation 10 }]⟩

theorem make_orderings : ∃ p src',
    make orderings 0.5 .maximize (.ofScript [0, 0, 0, 0, 0, 0] 0) = some (.ok p, src') ∧
      p.size = 0 ∧ p.volume = 47784725839872000000 :=
  ⟨_, _, rfl, rfl, rfl⟩

/-- The space has room for more children than a batch can hold: no source leads to the batch. -/
theorem not_offspring_reachable : ∃ p pool, Search orderings 0.5 .maximize p pool ∧
    (p.size : Int) + (35184372088833 : Int64).toInt ≤ p.volume ∧
    ∀ src batch p' src', p.offspring 1 35184372088833 src ≠ some (.ok (batch, p'), src') := by
  obtain ⟨p, _, hmake, hsize, hvolume⟩ := make_orderings
  have hroom : (p.size : Int) + (35184372088833 : Int64).toInt ≤ p.volume := by
    rw [hsize, hvolume]
    decide
  refine ⟨p, [], .start hmake, hroom, fun src batch p' src' h => ?_⟩
  rw [offspring_apply, if_neg (by decide), if_neg (by simp [not_exhaustedBy (by decide) hroom]),
    if_pos (by decide)] at h
  cases h

end Population

end Tuning
