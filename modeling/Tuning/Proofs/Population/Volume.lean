import Mathlib
import Tuning.Proofs.Gene.Domain
import Tuning.Proofs.Population.Breeding

/-! # The volume of a space

Individuals of a space without starting values stand for vectors of indices, one index for each
domain. So the product of the sizes of the domains is the number of different individuals. -/

namespace Tuning

/-! ## Individuals and vectors of indices -/

namespace Individual

/-- The indices of a vector lie in the domains. -/
def InRange (v : List Int) (cards : List Nat) : Prop :=
  List.Forall₂ (fun (i : Int) (card : Nat) => 0 ≤ i ∧ i < card) v cards

theorem InRange.exists_nat {v : List Int} {cards : List Nat} (h : InRange v cards) :
    ∃ w : List Nat, List.Forall₂ (· < ·) w cards ∧ v = w.map (↑) := by
  induction h with
  | nil => exact ⟨[], .nil, rfl⟩
  | @cons i card v cards hi _ ih =>
      obtain ⟨w, hw, rfl⟩ := ih
      refine ⟨i.toNat :: w, .cons (by omega) hw, ?_⟩
      rw [List.map_cons, Int.toNat_of_nonneg hi.1]

theorem inRange_cast {w : List Nat} {cards : List Nat} (h : List.Forall₂ (· < ·) w cards) :
    InRange (w.map (↑)) cards := by
  induction h with
  | nil => exact .nil
  | cons hi _ ih => exact .cons (by omega) ih

/-- Genes are of given parameters, in order, and hold elements of the domains. -/
abbrev GenesWithin (ps : List Parameter) (genes : List (String × Gene)) : Prop :=
  List.Forall₂ (fun p named => named.1 = p.name ∧ p.domain.Holds named.2) ps genes

section Genes

variable {ps : List Parameter} {xs ys : List (String × Gene)}

theorem cards_eq (hxs : GenesWithin ps xs) (hys : GenesWithin ps ys) :
    xs.map (·.2.card) = ys.map (·.2.card) := by
  induction hxs generalizing ys with
  | nil =>
      cases hys
      rfl
  | cons hg _ ih =>
      cases hys with
      | cons hh hys => rw [List.map_cons, List.map_cons, hg.2.card_eq hh.2, ih hys]

/-- Genes stand for a vector of indices. -/
theorem exists_selectGenes (hxs : GenesWithin ps xs) :
    ∃ v : List Nat, List.Forall₂ (· < ·) v (xs.map (·.2.card)) ∧
      selectGenes xs (v.map (↑)) = xs := by
  induction hxs with
  | nil => exact ⟨[], .nil, rfl⟩
  | cons hg _ ih =>
      obtain ⟨i, hi, hselect⟩ := hg.2.exists_select
      obtain ⟨v, hv, hrest⟩ := ih
      refine ⟨i :: v, .cons hi hv, ?_⟩
      rw [List.map_cons, selectGenes, hselect, hrest]

/-- Genes at two vectors of indices are the same only if the vectors are equal. -/
theorem sameGenes_selectGenes (hxs : GenesWithin ps xs) (hys : GenesWithin ps ys)
    (hps : ∀ p ∈ ps, p.domain.Reflexive) {v w : List Nat}
    (hv : List.Forall₂ (· < ·) v (xs.map (·.2.card)))
    (hw : List.Forall₂ (· < ·) w (ys.map (·.2.card))) :
    sameGenes (selectGenes xs (v.map (↑))) (selectGenes ys (w.map (↑))) = true ↔ v = w := by
  induction hxs generalizing ys v w with
  | nil =>
      cases hys
      cases hv
      cases hw
      exact ⟨fun _ => rfl, fun _ => rfl⟩
  | @cons p named ps xs hg _ ih =>
      cases hys with
      | @cons _ named' _ ys hh hys =>
          cases hv with
          | @cons i _ v _ hi hv =>
              cases hw with
              | @cons j _ w _ hj hw =>
                  have hfirst := hg.2.select_same (hps p (by simp)) hh.2 hi hj
                  have hrest := ih hys (fun q hq => hps q (by simp [hq])) hv hw
                  have hname : (named.1 == named'.1) = true := by simp [hg.1, hh.1]
                  rw [List.map_cons, List.map_cons, selectGenes, selectGenes, sameGenes, hname,
                    Bool.true_and, Bool.and_eq_true, hfirst, hrest, List.cons.injEq]

end Genes

/-- The individuals of a space with elements of the domains. -/
abbrev Within (s : Space) (x : Individual) : Prop :=
  GenesWithin s.parameters x.genes

variable {s : Space} {x y r : Individual}

theorem Within.cards_eq (hx : x.Within s) (hy : y.Within s) : x.cards = y.cards :=
  Individual.cards_eq hx hy

theorem Within.exists_select (hx : x.Within s) :
    ∃ v : List Nat, List.Forall₂ (· < ·) v x.cards ∧ x.select (v.map (↑)) = x := by
  obtain ⟨v, hv, hselect⟩ := exists_selectGenes hx
  exact ⟨v, hv, congrArg mk hselect⟩

theorem Within.select_same (hs : ∀ p ∈ s.parameters, p.domain.Reflexive) (hx : x.Within s)
    (hy : y.Within s) {v w : List Nat} (hv : List.Forall₂ (· < ·) v x.cards)
    (hw : List.Forall₂ (· < ·) w x.cards) :
    (x.select (v.map (↑))).same (y.select (w.map (↑))) = true ↔ v = w := by
  rw [hx.cards_eq hy] at hw
  exact sameGenes_selectGenes hx hy hs hv hw

end Individual

namespace Population

/-- The individuals that come to hand in some search. -/
def Visits (s : Space) (rate : Float) (mode : Mode) (x : Individual) : Prop :=
  ∃ p pool, Search s rate mode p pool ∧ x ∈ pool

variable {s : Space} {rate : Float} {mode : Mode} {p : Population} {src src' : Source}

theorem volume_eq_prod (h : make s rate mode src = some (.ok p, src')) :
    p.volume = p.reference.cards.prod := by
  obtain ⟨-, -, -, -, hp⟩ := make_eq_ok h
  rw [List.prod_eq_foldl, hp]

/-- Without starting values, all that a search meets has elements of the domains. -/
theorem Visits.within (hs : s.seeded = false) {x : Individual} (h : Visits s rate mode x) :
    x.Within s := by
  obtain ⟨p, pool, hp, hx⟩ := h
  exact (hp.fitting (Space.law_holds hs)).2 x hx

theorem Visits.move {x y : Individual} (h : Visits s rate mode x) (hxy : x.Move y) :
    Visits s rate mode y := by
  obtain ⟨p, pool, hp, hx⟩ := h
  exact ⟨p, y :: pool, hp.move hx hxy, List.mem_cons_self⟩

/-- The individual that random individuals are drawn from can come to hand. -/
theorem visits_reference (h : make s rate mode src = some (.ok p, src')) :
    Visits s rate mode p.reference := by
  obtain ⟨-, -, ⟨t, t', hreference⟩, -⟩ := make_eq_ok h
  refine ⟨p, [p.reference], (Search.start h).build ?_ hreference, List.mem_cons_self⟩
  cases s.expand with
  | nil => exact List.mem_cons_self
  | cons bound rest => exact List.mem_cons_of_mem _ List.mem_cons_self

/-- There are as many different individuals as the volume says. -/
theorem isGreatest_volume (h : make s rate mode src = some (.ok p, src')) (hs : s.seeded = false)
    (hatoms : ∀ q ∈ s.parameters, q.domain.Reflexive) :
    IsGreatest {n | ∃ xs : List Individual, (∀ x ∈ xs, Visits s rate mode x) ∧
      xs.Pairwise (fun x y => x.same y = false) ∧ xs.length = n} p.volume := by
  have hreference := (visits_reference h).within hs
  have henum := Indexed.enumerates_vectors p.reference.cards
  rw [volume_eq_prod h, ← Indexed.size_vectors]
  constructor
  · -- the individuals at all vectors
    refine ⟨(Indexed.vectors p.reference.cards).toList.map fun v => p.reference.select (v.map (↑)),
      ?_, ?_, by simp⟩
    · intro x hx
      obtain ⟨v, -, rfl⟩ := List.mem_map.mp hx
      exact (visits_reference h).move (.select _ _)
    · rw [List.pairwise_map]
      refine henum.nodup_toList.imp_of_mem fun {v w} hv hw hne => Bool.eq_false_iff.mpr ?_
      intro hsame
      exact hne ((hreference.select_same hatoms hreference (henum.mem_toList.mp hv)
        (henum.mem_toList.mp hw)).mp hsame)
  · -- different individuals are at different vectors
    rintro n ⟨xs, hxs, hdistinct, rfl⟩
    have hindex : ∀ x : Individual, Visits s rate mode x → ∃ v : List Nat,
        List.Forall₂ (· < ·) v p.reference.cards ∧ x.select (v.map (↑)) = x := by
      intro x hx
      obtain ⟨v, hv, hselect⟩ := (hx.within hs).exists_select
      exact ⟨v, (hx.within hs).cards_eq hreference ▸ hv, hselect⟩
    choose! index hrange hselect using hindex
    have hnodup : (xs.map index).Nodup := by
      refine List.pairwise_map.mpr (hdistinct.imp_of_mem fun {x y} hx hy hne heq => ?_)
      have hx' := (hxs x hx).within hs
      have hsame := hx'.select_same hatoms ((hxs y hy).within hs)
        (hx'.cards_eq hreference ▸ hrange x (hxs x hx))
        (hx'.cards_eq hreference ▸ hrange y (hxs y hy))
      rw [hselect x (hxs x hx), hselect y (hxs y hy), hne] at hsame
      exact Bool.false_ne_true (hsame.mpr heq)
    have hsubset : xs.map index ⊆ (Indexed.vectors p.reference.cards).toList := by
      intro v hv
      obtain ⟨x, hx, rfl⟩ := List.mem_map.mp hv
      exact henum.mem_toList.mpr (hrange x (hxs x hx))
    simpa using (hnodup.subperm hsubset).length_le

/-- For a space without starting values whose atoms are the same as themselves: individuals at two
vectors of indices are the same only if the vectors are equal; whatever is built from the space is the
same as the individual at one vector; and the volume is the number of different individuals that a
search can meet. -/
theorem volume_exact (h : make s rate mode src = some (.ok p, src')) (hs : s.seeded = false)
    (hatoms : ∀ q ∈ s.parameters, q.domain.Reflexive) :
    (∀ v w, Individual.InRange v p.reference.cards → Individual.InRange w p.reference.cards →
      ((p.reference.select v).same (p.reference.select w) = true ↔ v = w)) ∧
    (∀ x, Individual.Built s x →
      ∃! v, Individual.InRange v p.reference.cards ∧ x.same (p.reference.select v) = true) ∧
    IsGreatest {n | ∃ xs : List Individual, (∀ x ∈ xs, Visits s rate mode x) ∧
      xs.Pairwise (fun x y => x.same y = false) ∧ xs.length = n} p.volume := by
  have hreference := (visits_reference h).within hs
  refine ⟨fun v w hv hw => ?_, fun x hx => ?_, isGreatest_volume h hs hatoms⟩
  · obtain ⟨v, hv', rfl⟩ := hv.exists_nat
    obtain ⟨w, hw', rfl⟩ := hw.exists_nat
    rw [hreference.select_same hatoms hreference hv' hw']
    exact (List.map_inj_right fun _ _ => Int.ofNat.inj).symm
  · have hx' : x.Within s := hx.matches (Space.law_holds hs)
    obtain ⟨v, hv, hselect⟩ := hx'.exists_select
    have hsame := fun w (hw : List.Forall₂ (· < ·) w x.cards) =>
      hx'.select_same hatoms hreference hv hw
    simp only [hselect, hx'.cards_eq hreference] at hsame hv
    refine ⟨v.map (↑), ⟨Individual.inRange_cast hv, (hsame v hv).mpr rfl⟩, ?_⟩
    rintro w ⟨hw, hxw⟩
    obtain ⟨w, hw', rfl⟩ := hw.exists_nat
    rw [(hsame w hw').mp hxw]

/-- Two atoms, one of them repeated, two orderings, and the four splits of six into two factors. -/
def box : Space :=
  ⟨[{ name := "atom", domain := .choice [.text "a", .int 2, .int 2] },
    { name := "order", domain := .permutation 2 },
    { name := "factors", domain := .factor 6 2 }]⟩

theorem make_box : ∃ p src',
    make box 0.5 .maximize (.ofScript [0, 0, 0, 0, 0, 0] 0) = some (.ok p, src') ∧ p.volume = 16 :=
  ⟨_, _, rfl, rfl⟩

theorem reflexive_box : ∀ q ∈ box.parameters, q.domain.Reflexive := by
  simp [box, Domain.Reflexive, Value.same, Value.numeric?, Numeric.same]

theorem volume_exact_box : box.seeded = false ∧ (∀ q ∈ box.parameters, q.domain.Reflexive) ∧
    IsGreatest {n | ∃ xs : List Individual, (∀ x ∈ xs, Visits box 0.5 .maximize x) ∧
      xs.Pairwise (fun x y => x.same y = false) ∧ xs.length = n} 16 := by
  obtain ⟨p, src', hp, hvolume⟩ := make_box
  have hgreatest := (volume_exact hp rfl reflexive_box).2.2
  rw [hvolume] at hgreatest
  exact ⟨rfl, reflexive_box, hgreatest⟩

end Population

end Tuning
