import Tuning.Proofs.Gene.Memory
import Tuning.Proofs.Gene.Reach

/-! # Perturbations reach the whole domain

The steps of a perturbation connect all elements of a domain: one step leads from an atom to any other,
neighbours connect all ranks, exchanges of two positions all orderings, and transfers of primes between
slots all factorisations. A perturbation at a positive rate can follow every path of steps. -/

namespace Tuning

open Draw (CanStep)
open Relation (ReflTransGen)

/-! ## Exchanges -/

namespace Finite

/-- Two positions of a list are exchanged. -/
def Exchanged (xs ys : List Nat) : Prop :=
  ∃ i j, i < xs.length ∧ j < xs.length ∧ i ≠ j ∧ ys = swap xs i j

theorem Exchanged.cons {xs ys : List Nat} (h : Exchanged xs ys) (x : Nat) :
    Exchanged (x :: xs) (x :: ys) := by
  obtain ⟨i, j, hi, hj, hne, rfl⟩ := h
  exact ⟨i + 1, j + 1, by simpa using hi, by simpa using hj, by simpa using hne, by simp [swap]⟩

/-- Exchanges lead from an ordering to every other one. -/
theorem exchanges_of_perm {xs ys : List Nat} (h : xs.Perm ys) : ReflTransGen Exchanged xs ys := by
  induction h with
  | nil => exact .refl
  | cons x _ ih => exact ih.lift (x :: ·) fun _ _ h => h.cons x
  | swap x y xs => exact .single ⟨0, 1, by simp, by simp, by simp, by simp [swap]⟩
  | trans _ _ ih ih' => exact ih.trans ih'

/-! ## Transfers of primes -/

/-- A prime goes from one position of a list to another. -/
def Transferred (xs ys : List Nat) : Prop :=
  ∃ s t p, ∃ (hs : s < xs.length), t < xs.length ∧ s ≠ t ∧ p.Prime ∧ p ∣ xs[s] ∧
    ys = (xs.modify s (· / p)).modify t (· * p)

/-- A transfer is taken back by the transfer the other way. -/
theorem Transferred.symm {xs ys : List Nat} (h : Transferred xs ys) : Transferred ys xs := by
  obtain ⟨s, t, p, hs, ht, hne, hp, hdvd, rfl⟩ := h
  refine ⟨t, s, p, by simpa using ht, by simpa using hs, hne.symm, hp, ?_, ?_⟩
  · simp [hne]
  · refine List.ext_getElem (by simp) fun k hk _ => ?_
    by_cases hks : s = k
    · subst hks
      simp [hne.symm, Nat.div_mul_cancel hdvd]
    · by_cases hkt : t = k
      · subst hkt
        simp [hne, Nat.mul_div_cancel _ hp.pos]
      · simp [hks, hkt]

theorem Transferred.length_eq {xs ys : List Nat} (h : Transferred xs ys) : ys.length = xs.length := by
  obtain ⟨s, t, p, -, -, -, -, -, rfl⟩ := h
  simp

theorem Transferred.prod_eq {xs ys : List Nat} (h : Transferred xs ys) : ys.prod = xs.prod := by
  obtain ⟨s, t, p, hs, ht, -, -, hdvd, rfl⟩ := h
  rw [prod_modify_mul p (by simpa using ht), prod_modify_div hs hdvd]

/-- All primes can be gathered in the first position. -/
theorem transfers_to_first (a : Nat) (rest : List Nat) (hpos : 0 < rest.prod) :
    ReflTransGen Transferred (a :: rest) (a * rest.prod :: List.replicate rest.length 1) := by
  induction hprod : rest.prod using Nat.strong_induction_on generalizing a rest with
  | _ n ih =>
      subst hprod
      by_cases hones : ∀ x ∈ rest, x = 1
      · have hrest : rest = List.replicate rest.length 1 := List.eq_replicate_iff.mpr ⟨rfl, hones⟩
        rw [List.prod_eq_one hones, Nat.mul_one, ← hrest]
      · -- some later position has a prime, which goes to the first one
        push Not at hones
        obtain ⟨x, hx, hne⟩ := hones
        obtain ⟨s, hs, rfl⟩ := List.getElem_of_mem hx
        have hp := Nat.minFac_prime hne
        have hdvd := Nat.minFac_dvd rest[s]
        have hsplit := prod_modify_div hs hdvd
        generalize rest[s].minFac = p at hp hdvd hsplit
        have hpos' : 0 < (rest.modify s (· / p)).prod := Nat.pos_of_mul_pos_right (hsplit ▸ hpos)
        have hlt : (rest.modify s (· / p)).prod < rest.prod := by
          rw [← hsplit]
          exact lt_mul_of_one_lt_right hpos' hp.one_lt
        have hmove : Transferred (a :: rest) (a * p :: rest.modify s (· / p)) :=
          ⟨s + 1, 0, p, by simpa using hs, by simp, by simp, hp, by simpa using hdvd, by simp⟩
        refine .head hmove ?_
        have hrest := ih _ hlt (a * p) (rest.modify s (· / p)) hpos' rfl
        rwa [Nat.mul_assoc, Nat.mul_comm p, hsplit, List.length_modify] at hrest

/-- Transfers lead from a factorisation to every other one. -/
theorem transfers_of_prod_eq {xs ys : List Nat} (hlength : xs.length = ys.length)
    (hprod : xs.prod = ys.prod) (hpos : 0 < xs.prod) : ReflTransGen Transferred xs ys := by
  have : Std.Symm Transferred := ⟨fun _ _ h => h.symm⟩
  cases xs with
  | nil => rw [List.length_eq_zero_iff.mp hlength.symm]
  | cons a xs =>
      cases ys with
      | nil => cases hlength
      | cons b ys =>
          rw [List.prod_cons] at hpos
          rw [List.prod_cons, List.prod_cons] at hprod
          have hleft := transfers_to_first a xs (Nat.pos_of_mul_pos_left hpos)
          have hright := transfers_to_first b ys (Nat.pos_of_mul_pos_left (hprod ▸ hpos))
          rw [hprod, Nat.succ.inj hlength] at hleft
          exact hleft.trans (ReflTransGen.stdSymm.symm _ _ hright)

/-! ## Numbers of prime factors -/

/-- A number has fewer prime factors than bits. -/
theorem two_pow_countP_dvd_le {primes : List Nat} (hprime : ∀ p ∈ primes, p.Prime)
    (hnodup : primes.Nodup) {x : Nat} (hx : 0 < x) : 2 ^ primes.countP (· ∣ x) ≤ x := by
  induction primes generalizing x with
  | nil => exact hx
  | cons p primes ih =>
      obtain ⟨hp, hprimes⟩ := List.forall_mem_cons.mp hprime
      obtain ⟨hnew, hnodup⟩ := List.nodup_cons.mp hnodup
      by_cases hdvd : p ∣ x
      · -- the other primes divide what is left of the number without this one
        obtain ⟨y, rfl⟩ := hdvd
        have hy : 0 < y := Nat.pos_of_mul_pos_left hx
        have hrest : primes.countP (· ∣ p * y) = primes.countP (· ∣ y) := by
          refine List.countP_congr fun q hq => ?_
          have hcoprime : q.Coprime p :=
            (Nat.coprime_primes (hprimes q hq) hp).mpr fun heq => hnew (heq ▸ hq)
          simp [hcoprime.dvd_mul_left]
        rw [List.countP_cons_of_pos (by simp), hrest, Nat.pow_succ, Nat.mul_comm]
        exact Nat.mul_le_mul hp.two_le (ih hprimes hnodup hy)
      · rw [List.countP_cons_of_neg (by simpa using hdvd)]
        exact ih hprimes hnodup hx

theorem two_pow_sum_le_prod {xs : List Nat} {count : Nat → Nat} (h : ∀ x ∈ xs, 2 ^ count x ≤ x) :
    2 ^ (xs.map count).sum ≤ xs.prod := by
  induction xs with
  | nil => exact Nat.le_refl 1
  | cons x xs ih =>
      obtain ⟨hx, hxs⟩ := List.forall_mem_cons.mp h
      rw [List.map_cons, List.sum_cons, List.prod_cons, Nat.pow_add]
      exact Nat.mul_le_mul hx (ih hxs)

end Finite

/-! ## Atoms -/

namespace Choice

variable {choices : List Value} {c : Choice}

theorem length_foldl_keep_le (atoms kept : List Value) :
    (atoms.foldl keep kept).length ≤ kept.length + atoms.length := by
  induction atoms generalizing kept with
  | nil => exact Nat.le_refl _
  | cons v atoms ih =>
      have hkeep : (keep kept v).length ≤ kept.length + 1 := by
        unfold keep
        split <;> simp
      have := ih (keep kept v)
      rw [List.foldl_cons, List.length_cons]
      omega

/-- There are no more atoms to move to than choices. -/
theorem Of.length_others_le (h : Of choices c) : c.others.length ≤ choices.length := by
  refine (List.length_filter_le _ _).trans ?_
  rw [h.atoms_eq, distinct_eq_foldl]
  simpa using length_foldl_keep_le choices []

/-- One step leads from an atom to any other. -/
theorem Of.canStep (h : Of choices c) (hchoices : choices.length < 2 ^ 63) {i j : Nat} (hi : i < c.card)
    (hj : j < c.card) (hne : i ≠ j) : CanStep step (c.select i) (c.select j) := by
  have hmem : c.atoms[j] ∈ (c.select i).others := by
    refine List.mem_filter.mpr ⟨List.getElem_mem hj, ?_⟩
    rw [← value_select hj, Bool.not_eq_true', Bool.eq_false_iff]
    exact fun hsame => hne (h.eq_of_select_same h hj hi hsame).symm
  obtain ⟨k, hk, hkj⟩ := List.getElem_of_mem hmem
  have hnonempty : ¬ (c.select i).others.isEmpty = true := by
    rw [List.isEmpty_iff]
    exact List.ne_nil_of_mem hmem
  refine ⟨_, if_neg hnonempty, ?_⟩
  have hselect : c.select j =
      { c.select i with value := (c.select i).others.getD k (c.select i).value } := by
    rw [select_eq hj, List.getD_eq_getElem?_getD, List.getElem?_eq_getElem hk, Option.getD_some, hkj]
    rfl
  rw [hselect]
  have hothers := Nat.lt_of_le_of_lt (h.select i).length_others_le hchoices
  exact (Draw.reaches_below hk hothers).give fun k =>
    { c.select i with value := (c.select i).others.getD k (c.select i).value }

end Choice

/-! ## Integers in order -/

namespace Discrete

variable {d : Discrete}

theorem canStep_up {i : Nat} (hi : i + 1 < d.card) :
    CanStep step { d with rank := i } { d with rank := i + 1 } := by
  have hcard : ¬ d.card ≤ 1 := by omega
  have hlast : i ≠ d.card - 1 := by omega
  by_cases hzero : i = 0
  · exact ⟨_, (if_neg hcard).trans (if_pos hzero), .pure _⟩
  · refine ⟨_, (if_neg hcard).trans ((if_neg hzero).trans (if_neg hlast)), ?_⟩
    refine (Draw.reaches_below (show 1 < 2 by decide) (by decide)).bind ?_
    exact .pure _

theorem canStep_down {i : Nat} (hi : i + 1 < d.card) :
    CanStep step { d with rank := i + 1 } { d with rank := i } := by
  have hcard : ¬ d.card ≤ 1 := by omega
  by_cases hlast : i + 1 = d.card - 1
  · exact ⟨_, (if_neg hcard).trans ((if_neg i.succ_ne_zero).trans (if_pos hlast)), .pure _⟩
  · refine ⟨_, (if_neg hcard).trans ((if_neg i.succ_ne_zero).trans (if_neg hlast)), ?_⟩
    refine (Draw.reaches_below (show 0 < 2 by decide) (by decide)).bind ?_
    exact .pure _

/-- Neighbours lead from a rank to every other one. -/
theorem path {i j : Nat} (hi : i < d.card) (hj : j < d.card) :
    ReflTransGen (CanStep step) (d.select i) (d.select j) := by
  have hranks : ReflTransGen
      (fun i j => CanStep step { d with rank := i } { d with rank := j }) i j := by
    refine reflTransGen_of_succ _ (fun k hk => canStep_up ?_) fun k hk => canStep_down ?_
    · have := hk.2
      omega
    · have := hk.2
      omega
  rw [select_eq hi, select_eq hj]
  exact hranks.lift _ fun _ _ h => h

end Discrete

/-! ## Orderings -/

namespace Permutation

variable {p : Permutation}

theorem canStep {order order' : List Nat} (horder : order.length < 2 ^ 63)
    (h : Finite.Exchanged order order') : CanStep step { p with order } { p with order := order' } := by
  obtain ⟨i, j, hi, hj, hne, rfl⟩ := h
  have hlower : Finite.lower i j < order.length - 1 :=
    Finite.lower_lt (by omega) (by omega) hne.symm
  refine ⟨_, rfl, ?_⟩
  refine (Draw.reaches_below hi horder).bind ?_
  refine (Draw.reaches_below hlower (by omega)).bind ?_
  dsimp only
  rw [Finite.raise_lower hne.symm]
  exact .pure _

/-- Exchanges lead from an ordering to every other one. -/
theorem path {order order' : List Nat} (horder : order.length < 2 ^ 63) (h : order.Perm order') :
    ReflTransGen (CanStep step) { p with order } { p with order := order' } := by
  have hpath := Finite.exchanges_of_perm h
  clear h
  induction hpath using ReflTransGen.head_induction_on with
  | refl => exact .refl
  | head hstep _ ih =>
      refine .head (canStep horder hstep) (ih ?_)
      obtain ⟨i, j, -, -, -, rfl⟩ := hstep
      simpa [Finite.swap] using horder

/-- At a positive rate a perturbation can lead from any ordering to any other. -/
theorem reaches_mutate (hlow : 0.0 < p.rate) (hhigh : ¬ 1.0 ≤ p.rate) {order order' : List Nat}
    (horder : order.length < 2 ^ 63) (h : order.Perm order') :
    ({ p with order } : Permutation).mutate.Reaches { p with order := order' } := by
  unfold mutate
  split
  · next hsize =>
      -- nothing can be exchanged, so there is one ordering
      change order.length ≤ 1 at hsize
      obtain rfl | ⟨_, ⟨i, j, hi, hj, hne, -⟩, -⟩ := (Finite.exchanges_of_perm h).cases_head
      · exact .pure _
      · omega
  · exact Draw.reaches_walk_of_path hlow hhigh (path horder h)

end Permutation

/-! ## Factors -/

namespace Factor

variable {product slots : Int64} {f : Factor}

theorem mem_transfers_of {t : Transfer} {k : Nat} (hsource : t.source < f.slots)
    (htarget : t.target < f.slots) (hne : t.source ≠ t.target) (hprime : (t.prime, k) ∈ f.powers)
    (hdvd : (f.parts.getD t.source 1 % t.prime == 0) = true) : t ∈ f.transfers := by
  refine List.mem_flatMap.mpr ⟨t.source, List.mem_range.mpr hsource, ?_⟩
  refine List.mem_flatMap.mpr ⟨t.target, List.mem_range.mpr htarget, ?_⟩
  rw [if_neg hne]
  exact List.mem_filterMap.mpr ⟨(t.prime, k), hprime, if_pos hdvd⟩

/-- A transfer that the factors allow is a step. -/
theorem canStep_apply {t : Transfer} (ht : t ∈ f.transfers) (hcount : f.transfers.length < 2 ^ 63) :
    CanStep step f (f.apply t) := by
  obtain ⟨k, hk, hkt⟩ := List.getElem_of_mem ht
  have hnonempty : ¬ f.transfers.isEmpty = true := by
    rw [List.isEmpty_iff]
    exact List.ne_nil_of_mem ht
  refine ⟨_, if_neg hnonempty, (Draw.reaches_below hk hcount).bind ?_⟩
  rw [List.getElem?_eq_getElem hk, hkt]
  exact .pure _

/-- The primes of the product are among its prime powers. -/
theorem Of.exists_power (h : Of product slots f) {p : Nat} (hp : p.Prime)
    (hdvd : p ∣ product.toNatClampNeg) : ∃ k, (Int64.ofNat p, k) ∈ f.powers := by
  obtain ⟨powers, hpowers, heq⟩ := h.exists_powers
  rw [← hpowers.prod_eq] at hdvd
  obtain ⟨q, hq, hpq⟩ := (Prime.dvd_prod_iff hp.prime).mp hdvd
  obtain ⟨power, hpower, rfl⟩ := List.mem_map.mp hq
  obtain rfl := (Nat.prime_dvd_prime_iff_eq hp (hpowers.prime power hpower)).mp (hp.dvd_of_dvd_pow hpq)
  exact ⟨power.2, heq ▸ List.mem_map_of_mem hpower⟩

/-- How many primes of the product can leave a slot. -/
def movable (f : Factor) (source : Nat) : Nat :=
  f.powers.countP fun power => f.parts.getD source 1 % power.1 == 0

/-- Every prime that can leave a slot has a transfer to each other slot. -/
theorem length_transfers_le (f : Factor) :
    f.transfers.length ≤ f.slots * ((List.range f.slots).map f.movable).sum := by
  rw [transfers, List.length_flatMap, ← List.sum_map_mul_left]
  refine List.sum_le_sum fun source _ => ?_
  rw [List.length_flatMap]
  refine (List.sum_le_card_nsmul _ (f.movable source) fun count hcount => ?_).trans_eq (by simp)
  obtain ⟨target, -, rfl⟩ := List.mem_map.mp hcount
  split
  · exact Nat.zero_le _
  · rw [List.length_filterMap_eq_countP]
    refine (List.countP_congr fun power _ => ?_).le
    dsimp only
    split <;> simp_all

/-- The primes that can leave a slot are those that divide its factor. -/
theorem Of.movable_eq (h : Of product slots f) {powers : List (Nat × Nat)} {xs : List Nat}
    (hpowers : Finite.IsPrimePowers 2 product.toNatClampNeg powers)
    (heq : f.powers = powers.map fun power => (.ofNat power.1, power.2))
    (hxs : xs.prod = product.toNatClampNeg) (hparts : f.parts = xs.map .ofNat) {source : Nat}
    (hsource : source < xs.length) :
    f.movable source = (powers.map (·.1)).countP (· ∣ xs[source]) := by
  obtain ⟨hpos, hlt, -⟩ := toNat_bounds h.positive
  have hbound := Finite.lt_of_mem_of_prod hxs hpos hlt
  rw [movable, heq, List.countP_map, List.countP_map]
  refine List.countP_congr fun power hpower => ?_
  have hprime := Nat.lt_of_le_of_lt (hpowers.le hpos hpower) hlt
  have hget : f.parts.getD source 1 = .ofNat xs[source] := by
    simp [hparts, List.getD_eq_getElem?_getD, hsource]
  simp only [Function.comp_apply]
  rw [hget, Finite.ofNat_mod_eq_zero (hbound _ (List.getElem_mem hsource)) hprime]

/-- Factors that can be held have so few prime factors that their transfers can be counted. -/
theorem Of.length_transfers_lt (h : Of product slots f) (hslots : slots ≤ largestSlots) :
    f.transfers.length < 2 ^ 63 := by
  obtain ⟨hpos, hlt, -⟩ := toNat_bounds h.positive
  obtain ⟨powers, hpowers, heq⟩ := h.exists_powers
  obtain ⟨xs, hlength, hprod, hparts⟩ := h.split
  have hnodup : (powers.map (·.1)).Nodup :=
    List.pairwise_map.mpr (hpowers.increasing.imp fun hlt => hlt.ne)
  have hmovable : (List.range f.slots).map f.movable =
      xs.map fun x => (powers.map (·.1)).countP (· ∣ x) := by
    refine List.ext_getElem (by simp [hlength]) fun source hsource hsource' => ?_
    rw [List.getElem_map, List.getElem_range, List.getElem_map]
    exact h.movable_eq hpowers heq hprod hparts _
  have hsum : ((List.range f.slots).map f.movable).sum < 63 := by
    refine (Nat.pow_lt_pow_iff_right Nat.one_lt_two).mp (Nat.lt_of_le_of_lt ?_ hlt)
    rw [hmovable, ← hprod]
    refine Finite.two_pow_sum_le_prod fun x hx => Finite.two_pow_countP_dvd_le ?_ hnodup ?_
    · simpa using fun p k hp => hpowers.prime (p, k) hp
    · exact Nat.pos_of_ne_zero fun hzero => hpos.ne' (hprod ▸ List.prod_eq_zero (hzero ▸ hx))
  have hroom : f.slots ≤ 2 ^ 45 := by
    have hle : slots.toInt ≤ 2 ^ 45 := Int64.le_iff_toInt_le.mp hslots
    rw [h.slots_eq]
    omega
  calc f.transfers.length ≤ f.slots * ((List.range f.slots).map f.movable).sum := f.length_transfers_le
    _ ≤ 2 ^ 45 * 63 := Nat.mul_le_mul hroom hsum.le
    _ < 2 ^ 63 := by decide

/-- The factors with given numbers. -/
def holding (f : Factor) (xs : List Nat) : Factor :=
  { f with parts := xs.map .ofNat }

/-- A prime that goes from one number to another is a step. -/
theorem Of.canStep (h : Of product slots f) (hslots : slots ≤ largestSlots) {xs ys : List Nat}
    (hlength : xs.length = f.slots) (hprod : xs.prod = product.toNatClampNeg)
    (hmove : Finite.Transferred xs ys) : CanStep step (f.holding xs) (f.holding ys) := by
  obtain ⟨s, t, p, hs, ht, hne, hp, hdvd, rfl⟩ := hmove
  obtain ⟨hpos, hlt, -⟩ := toNat_bounds h.positive
  have hbound := Finite.lt_of_mem_of_prod hprod hpos hlt
  have hproduct : p ∣ product.toNatClampNeg :=
    hprod ▸ hdvd.trans (List.dvd_prod (List.getElem_mem hs))
  have hp' : p < 2 ^ 63 := Nat.lt_of_le_of_lt (Nat.le_of_dvd hpos hproduct) hlt
  obtain ⟨k, hpower⟩ := h.exists_power hp hproduct
  have hrest : ((f.holding xs).parts.getD s 1 % .ofNat p == 0) = true := by
    have hget : (f.holding xs).parts.getD s 1 = .ofNat xs[s] := by
      simp [holding, List.getD_eq_getElem?_getD, hs]
    rw [hget, Finite.ofNat_mod_eq_zero (hbound _ (List.getElem_mem hs)) hp', decide_eq_true hdvd]
  have hmem : (Transfer.mk s t (.ofNat p)) ∈ (f.holding xs).transfers :=
    mem_transfers_of (lt_of_lt_of_eq hs hlength) (lt_of_lt_of_eq ht hlength) hne hpower hrest
  have happly : (f.holding xs).apply (Transfer.mk s t (.ofNat p)) =
      f.holding ((xs.modify s (· / p)).modify t (· * p)) := by
    have hdiv : ∀ x ∈ xs, Int64.ofNat x / Int64.ofNat p = Int64.ofNat (x / p) :=
      fun x hx => Finite.ofNat_div (hbound x hx) hp'
    have hmul : ∀ x ∈ xs.modify s (· / p), Int64.ofNat x * Int64.ofNat p = Int64.ofNat (x * p) :=
      fun x _ => (Int64.ofNat_mul x p).symm
    simp only [Factor.apply, holding]
    rw [Finite.modify_map_ofNat (g := (· / Int64.ofNat p)) hdiv,
      Finite.modify_map_ofNat (g := (· * Int64.ofNat p)) hmul]
  have hholding : Of product slots (f.holding xs) := h.move ⟨xs, hlength, hprod, rfl⟩
  rw [← happly]
  exact canStep_apply hmem (hholding.length_transfers_lt hslots)

/-- Transfers lead from a factorisation to every other one. -/
theorem Of.path (h : Of product slots f) (hslots : slots ≤ largestSlots) {xs ys : List Nat}
    (hxs : xs.length = f.slots ∧ xs.prod = product.toNatClampNeg)
    (hys : ys.length = f.slots ∧ ys.prod = product.toNatClampNeg) :
    ReflTransGen (CanStep step) (f.holding xs) (f.holding ys) := by
  have hpos : 0 < xs.prod := hxs.2 ▸ (toNat_bounds h.positive).1
  have hpath := Finite.transfers_of_prod_eq (hxs.1.trans hys.1.symm) (hxs.2.trans hys.2.symm) hpos
  clear hys hpos
  induction hpath using ReflTransGen.head_induction_on with
  | refl => exact .refl
  | head hmove _ ih =>
      refine .head (h.canStep hslots hxs.1 hxs.2 hmove) (ih ?_)
      exact ⟨hmove.length_eq.trans hxs.1, hmove.prod_eq.trans hxs.2⟩

end Factor

/-! ## All kinds -/

namespace Domain

variable {d : Domain} {g : Gene}

/-- A domain has no more choices than machine integers can count, and no more slots than can be held. -/
def IsCountable : Domain → Prop
  | choice choices => choices.length < 2 ^ 63
  | factor _ slots => slots ≤ Factor.largestSlots
  | _ => True

/-- The slots of a factor that was made can be held. -/
theorem isCountable_of_gene? {rate : Float} (h : d.gene? rate = some (.ok g))
    (hchoices : ∀ choices, d = .choice choices → choices.length < 2 ^ 63) : d.IsCountable := by
  cases d with
  | choice choices => exact hchoices choices rfl
  | factor product slots =>
      obtain ⟨f, hf, -⟩ := except_map_eq_ok.mp (Option.some.inj h)
      exact (Factor.make_eq_ok hf).2.2.1
  | _ => exact trivial

/-- At a positive rate a perturbation can lead from any element of a domain to any other. -/
theorem Holds.reaches_mutate (hg : d.Holds g) (hd : d.IsCountable) (hlow : 0.0 < g.rate)
    (hhigh : ¬ 1.0 ≤ g.rate) {i j : Nat} (hi : i < g.card) (hj : j < g.card) :
    (g.select i).mutate.Reaches (g.select j) := by
  cases hg with
  | @choice choices c hc =>
      refine Draw.Reaches.bind (Draw.reaches_walk_of_path hlow hhigh ?_) (.pure _)
      by_cases hne : i = j
      · rw [hne]
      · exact .single (hc.canStep hd hi hj hne)
  | discrete _ => exact (Draw.reaches_walk_of_path hlow hhigh (Discrete.path hi hj)).bind (.pure _)
  | @permutation size p hp =>
      have hperm := (hp.select i).trans (hp.select j).symm
      have hlength : (p.select i).order.length < 2 ^ 63 := by
        have := size.toInt_lt
        rw [(hp.select i).length_eq, List.length_range]
        omega
      exact (Permutation.reaches_mutate hlow hhigh hlength hperm).bind (.pure _)
  | @factor product slots f hf =>
      refine Draw.Reaches.bind (Draw.reaches_walk_of_path hlow hhigh ?_) (.pure _)
      obtain ⟨xs, hlength, hprod, hxs⟩ := (hf.select i).split
      obtain ⟨ys, hlength', hprod', hys⟩ := (hf.select j).split
      have hfrom : f.select i = f.holding xs := congrArg (Factor.mk _ _ _ · _) hxs
      have hto : f.select j = f.holding ys := congrArg (Factor.mk _ _ _ · _) hys
      rw [hfrom, hto]
      exact hf.path hd ⟨hlength, hprod⟩ ⟨hlength', hprod'⟩

/-- At a positive rate, whatever element of its domain a gene holds, some script leads one perturbation
to any other element. Wherever the gene lies in memory, the perturbed one is put at a new address, and
the gene itself and all others stay as they are. The choices of a domain are as many as a machine integer
can count. -/
theorem mutate_connects {rate : Float} {start : Gene} (hstart : d.gene? rate = some (.ok start))
    (hchoices : ∀ choices, d = .choice choices → choices.length < 2 ^ 63) (hrate : 0.0 < start.rate)
    {i j : Nat} (hi : i < start.card) (hj : j < start.card) :
    ∃ script : List Nat, (∀ word ∈ script, word < 2 ^ 63) ∧
      ∀ src : Source, script <+: src.script → script.length < src.allowance →
        ∃ src', (start.select i).mutate src = some (start.select j, src') ∧
          ∀ (m : Memory) (a : Nat), m.gene? a = some (start.select i) → ∃ child m',
            m.mutate a src = some ((child, m'), src') ∧ m'.gene? child = some (start.select j) ∧
            ∀ b g, m.gene? b = some g → m'.gene? b = some g := by
  have hreaches := (holds_of_gene? hstart).reaches_mutate (isCountable_of_gene? hstart hchoices) hrate
    (rate_of_gene? hstart) hi hj
  obtain ⟨script, hwords, hscript⟩ := hreaches.exists_script
  refine ⟨script, hwords, fun src hprefix hallowance => ?_⟩
  obtain ⟨src', hmutate⟩ := hscript src hprefix hallowance
  refine ⟨src', hmutate, fun m a ha => ⟨m.cells.length, .add (m.hold (start.select j)), ?_, ?_, ?_⟩⟩
  · rw [Memory.mutate_eq ha]
    exact Draw.map_eq_some.mpr ⟨_, hmutate, rfl⟩
  · exact m.gene?_add_hold_self _
  · exact fun b g hb => Memory.gene?_add_hold hb _

/-- Six ways to split a dozen in two: a perturbation can turn the first one around. -/
theorem mutate_connects_dozen : ∃ start : Gene,
    (Domain.factor 12 2).gene? 0.5 = some (.ok start) ∧ 0.0 < start.rate ∧ start.card = 6 ∧
      (start.select 0).value = .ints [1, 12] ∧ (start.select 5).value = .ints [12, 1] ∧
      ∃ script : List Nat, (∀ word ∈ script, word < 2 ^ 63) ∧
        ∀ src : Source, script <+: src.script → script.length < src.allowance →
          ∃ src' child m', (start.select 0).mutate src = some (start.select 5, src') ∧
            (Memory.add (Memory.hold ⟨[], [], []⟩ (start.select 0))).mutate 0 src =
              some ((child, m'), src') ∧
            m'.gene? child = some (start.select 5) ∧ m'.gene? 0 = some (start.select 0) := by
  obtain ⟨start, hstart, hrate, hcard, hzero, hfive⟩ : ∃ start : Gene,
      (Domain.factor 12 2).gene? 0.5 = some (.ok start) ∧ 0.0 < start.rate ∧ start.card = 6 ∧
        (start.select 0).value = .ints [1, 12] ∧ (start.select 5).value = .ints [12, 1] :=
    ⟨_, rfl, by decide, rfl, rfl, rfl⟩
  obtain ⟨script, hwords, hscript⟩ := @mutate_connects (.factor 12 2) 0.5 start hstart nofun hrate 0 5
    (by omega) (by omega)
  refine ⟨start, hstart, hrate, hcard, hzero, hfive, script, hwords, fun src hprefix hallowance => ?_⟩
  obtain ⟨src', hmutate, hmemory⟩ := hscript src hprefix hallowance
  have hheld := Memory.gene?_add_hold_self ⟨[], [], []⟩ (start.select 0)
  obtain ⟨child, m', hrun, hchild, hkept⟩ := hmemory _ 0 hheld
  exact ⟨src', child, m', hmutate, hrun, hchild, hkept 0 _ hheld⟩

end Domain

end Tuning
