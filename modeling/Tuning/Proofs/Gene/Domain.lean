import Mathlib
import Tuning.Proofs.Finite.Orderings
import Tuning.Proofs.Finite.Partitions
import Tuning.Proofs.Individual.Building
import Tuning.Proofs.Value.Sameness

/-! # Genes stay in their domains

A gene holds an element of its domain, and every element stands at one index. No move leads out of the
domain, and two genes hold the same value if their elements have the same index. -/

namespace Tuning

open Draw (Ensures)

/-! ## Atoms -/

namespace Choice

/-- Keeps an atom unless it is the same as one that is kept. -/
def keep (kept : List Value) (v : Value) : List Value :=
  if kept.any (·.same v) then kept else kept ++ [v]

theorem distinct_eq_foldl (atoms : List Value) : distinct atoms = atoms.foldl keep [] := rfl

theorem keep_of_any {kept : List Value} {v : Value} (h : kept.any (·.same v) = true) :
    keep kept v = kept :=
  if_pos h

theorem keep_of_not_any {kept : List Value} {v : Value} (h : ¬ kept.any (·.same v) = true) :
    keep kept v = kept ++ [v] :=
  if_neg h

theorem subset_keep (kept : List Value) (v : Value) : kept ⊆ keep kept v := by
  unfold keep
  split
  · exact List.Subset.refl kept
  · exact List.subset_append_left kept [v]

theorem keep_subset (kept : List Value) (v : Value) : keep kept v ⊆ kept ++ [v] := by
  unfold keep
  split
  · exact List.subset_append_left kept [v]
  · exact List.Subset.refl _

theorem pairwise_keep {kept : List Value} (h : kept.Pairwise fun v w => v.same w = false) (v : Value) :
    (keep kept v).Pairwise fun v w => v.same w = false := by
  unfold keep
  split
  · exact h
  · next hnew =>
      refine List.pairwise_append.mpr ⟨h, List.pairwise_singleton _ _, ?_⟩
      intro w hw u hu
      rw [List.mem_singleton.mp hu]
      exact Bool.eq_false_iff.mpr fun hsame => hnew (List.any_eq_true.mpr ⟨w, hw, hsame⟩)

theorem subset_foldl_keep (atoms kept : List Value) : kept ⊆ atoms.foldl keep kept := by
  induction atoms generalizing kept with
  | nil => exact List.Subset.refl kept
  | cons v atoms ih => exact List.Subset.trans (subset_keep kept v) (ih (keep kept v))

theorem pairwise_foldl_keep (atoms : List Value) {kept : List Value}
    (h : kept.Pairwise fun v w => v.same w = false) :
    (atoms.foldl keep kept).Pairwise fun v w => v.same w = false := by
  induction atoms generalizing kept with
  | nil => exact h
  | cons v atoms ih => exact ih (pairwise_keep h v)

theorem pairwise_distinct (atoms : List Value) :
    (distinct atoms).Pairwise fun v w => v.same w = false :=
  pairwise_foldl_keep atoms .nil

theorem foldl_keep_subset (atoms kept : List Value) : atoms.foldl keep kept ⊆ kept ++ atoms := by
  induction atoms generalizing kept with
  | nil => simp
  | cons v atoms ih =>
      intro w hw
      rcases List.mem_append.mp (ih (keep kept v) hw) with hw | hw
      · have := keep_subset kept v hw
        grind
      · simp [hw]

theorem distinct_subset (atoms : List Value) : distinct atoms ⊆ atoms :=
  foldl_keep_subset atoms []

theorem first_mem_distinct (first : Value) (rest : List Value) :
    first ∈ distinct (first :: rest) :=
  subset_foldl_keep rest [first] List.mem_cons_self

/-- A choice among given atoms that holds one of them. -/
structure Of (choices : List Value) (c : Choice) : Prop where
  isAtom : ∀ v ∈ choices, v.isAtom = true
  atoms_eq : c.atoms = distinct choices
  value_mem : c.value ∈ c.atoms

variable {choices : List Value} {c d : Choice}

theorem getD_mem {α : Type} {xs : List α} {a : α} (ha : a ∈ xs) (i : Nat) : xs.getD i a ∈ xs := by
  rw [List.getD_eq_getElem?_getD]
  cases hi : xs[i]? with
  | none => exact ha
  | some b => exact List.mem_of_getElem? hi

/-- What a choice is made of. -/
theorem make_eq_ok {rate : Float} (h : make choices rate = .ok c) :
    ∃ first rest, choices = first :: rest ∧ checkRate rate = .ok () ∧
      (∀ v ∈ choices, v.isAtom = true) ∧ c = { atoms := distinct choices, value := first, rate } := by
  unfold make at h
  split at h
  · cases h
  · next first rest =>
      obtain ⟨_, hrate, h⟩ := except_bind_eq_ok.mp h
      split at h
      · cases h
      · next hatoms =>
          refine ⟨first, rest, rfl, hrate, fun v hv => ?_, (Except.ok.inj h).symm⟩
          simpa using List.find?_eq_none.mp hatoms v hv

theorem of_make {rate : Float} (h : make choices rate = .ok c) : Of choices c := by
  obtain ⟨first, rest, rfl, -, hatoms, rfl⟩ := make_eq_ok h
  exact ⟨hatoms, rfl, first_mem_distinct first rest⟩

theorem Of.assign (h : Of choices c) {v : Value} (hd : c.assign v = .ok d) : Of choices d := by
  unfold Choice.assign at hd
  split at hd
  · next atom hatom =>
      obtain rfl := Except.ok.inj hd
      exact ⟨h.isAtom, h.atoms_eq, List.mem_of_find?_eq_some hatom⟩
  · cases hd

theorem Of.select (h : Of choices c) (i : Int) : Of choices (c.select i) :=
  ⟨h.isAtom, h.atoms_eq, getD_mem h.value_mem _⟩

theorem Of.reset (h : Of choices c) : Ensures c.reset (Of choices) :=
  .bind_any fun i => .pure (h.select i)

theorem Of.mutate (h : Of choices c) : Ensures c.mutate (Of choices) := by
  refine Draw.walk_ensures (fun c next hc hnext => ?_) c h
  unfold step at hnext
  split at hnext
  · cases hnext
  · obtain rfl := Option.some.inj hnext
    refine .bind_any fun i => .pure ⟨hc.isAtom, hc.atoms_eq, ?_⟩
    dsimp only
    rw [List.getD_eq_getElem?_getD]
    cases hi : c.others[i]? with
    | none => exact hc.value_mem
    | some v => exact List.mem_of_mem_filter (List.mem_of_getElem? hi)

theorem value_select {i : Nat} (hi : i < c.atoms.length) : (c.select i).value = c.atoms[i] := by
  have hmin : min (i : Int).toNat (c.card - 1) = i := by
    simp only [card]
    omega
  rw [select, hmin, List.getD_eq_getElem?_getD, List.getElem?_eq_getElem hi, Option.getD_some]

theorem select_eq {i : Nat} (hi : i < c.atoms.length) :
    c.select i = { c with value := c.atoms[i] } :=
  congrArg (Choice.mk _ · _) (value_select hi)

theorem Of.mem_choices (h : Of choices c) : c.value ∈ choices :=
  distinct_subset choices (h.atoms_eq ▸ h.value_mem)

/-- Two atoms of a choice that are the same are one atom. -/
theorem Of.value_eq (hc : Of choices c) (hd : Of choices d) (h : c.same d = true) :
    c.value = d.value := by
  by_contra hne
  have hsymm : Std.Symm fun v w : Value => v.same w = false :=
    ⟨fun v w h => (Value.same_comm w v).trans h⟩
  have hdiffer := (pairwise_distinct choices).forall (hc.atoms_eq ▸ hc.value_mem)
    (hd.atoms_eq ▸ hd.value_mem) hne
  rw [Choice.same, hdiffer] at h
  cases h

/-- The atom of a choice stands at some index. -/
theorem Of.exists_select (h : Of choices c) : ∃ i : Nat, i < c.card ∧ c.select i = c := by
  obtain ⟨i, hi, hvalue⟩ := List.getElem_of_mem h.value_mem
  exact ⟨i, hi, by rw [select_eq hi, hvalue]⟩

/-- Atoms at two indices are the same only if the indices are equal. -/
theorem Of.eq_of_select_same (hc : Of choices c) (hd : Of choices d) {i j : Nat} (hi : i < c.card)
    (hj : j < d.card) (hsame : (c.select i).same (d.select j) = true) : i = j := by
  obtain ⟨atoms, v, rate⟩ := c
  obtain ⟨atoms', w, rate'⟩ := d
  obtain rfl : atoms = distinct choices := hc.atoms_eq
  obtain rfl : atoms' = distinct choices := hd.atoms_eq
  rw [Choice.same, value_select hi, value_select hj] at hsame
  by_contra hne
  have hpairwise := List.pairwise_iff_getElem.mp (pairwise_distinct choices)
  rcases Nat.lt_or_gt_of_ne hne with hlt | hgt
  · simp [hpairwise i j hi hj hlt] at hsame
  · rw [Value.same_comm] at hsame
    simp [hpairwise j i hj hi hgt] at hsame

/-- Only the atom at an index is the same as the atom there. -/
theorem Of.select_same (hc : Of choices c) (hd : Of choices d)
    (hself : ∀ v ∈ choices, v.same v = true) {i j : Nat} (hi : i < c.card) (hj : j < d.card) :
    (c.select i).same (d.select j) = true ↔ i = j := by
  refine ⟨hc.eq_of_select_same hd hi hj, ?_⟩
  rintro rfl
  obtain ⟨atoms, v, rate⟩ := c
  obtain ⟨atoms', w, rate'⟩ := d
  obtain rfl : atoms = distinct choices := hc.atoms_eq
  obtain rfl : atoms' = distinct choices := hd.atoms_eq
  rw [Choice.same, value_select hi, value_select hj]
  exact hself _ (distinct_subset choices (List.getElem_mem hi))

end Choice

/-! ## Integers in order -/

namespace Discrete

/-- Dropping repetitions of a sorted list leaves increasing integers. -/
theorem pairwise_eraseReps (n : Int64) (numbers done : List Int64)
    (hdone : (n :: done).Pairwise (· > ·)) (hnumbers : (n :: numbers).Pairwise (· ≤ ·)) :
    (List.eraseRepsBy.loop (· == ·) n numbers done).Pairwise (· < ·) := by
  induction numbers generalizing n done with
  | nil =>
      rw [List.eraseRepsBy.loop, List.pairwise_reverse]
      exact hdone
  | cons m numbers ih =>
      obtain ⟨hn, hrest⟩ := List.pairwise_cons.mp hnumbers
      rw [List.eraseRepsBy.loop]
      split
      · exact ih n done hdone (List.pairwise_cons.mpr
          ⟨fun k hk => hn k (by simp [hk]), (List.pairwise_cons.mp hrest).2⟩)
      · next hne =>
          have hlt : n < m := Int64.lt_of_le_of_ne (hn m (by simp)) (by simpa using hne)
          refine ih m (n :: done) (List.pairwise_cons.mpr ⟨fun k hk => ?_, hdone⟩) hrest
          rcases List.mem_cons.mp hk with rfl | hk
          · exact hlt
          · exact Int64.lt_trans ((List.pairwise_cons.mp hdone).1 k hk) hlt

theorem pairwise_increasing (numbers : List Int64) : (increasing numbers).Pairwise (· < ·) := by
  have hsorted : (numbers.mergeSort (· ≤ ·)).Pairwise (· ≤ ·) := by
    refine (List.pairwise_mergeSort ?_ ?_ numbers).imp (by simp)
    · simpa using fun a b c => Int64.le_trans
    · simpa using fun a b => Int64.le_total a b
  unfold increasing List.eraseReps
  cases hnumbers : numbers.mergeSort (· ≤ ·) with
  | nil => exact .nil
  | cons n rest =>
      exact pairwise_eraseReps n rest [] (List.pairwise_singleton _ _) (hnumbers ▸ hsorted)

theorem eraseReps_ne_nil (n : Int64) (numbers done : List Int64) :
    List.eraseRepsBy.loop (· == ·) n numbers done ≠ [] := by
  induction numbers generalizing n done with
  | nil => simp [List.eraseRepsBy.loop]
  | cons m numbers ih =>
      rw [List.eraseRepsBy.loop]
      split
      · exact ih n done
      · exact ih m (n :: done)

theorem increasing_ne_nil {numbers : List Int64} (h : numbers ≠ []) : increasing numbers ≠ [] := by
  have hlength := (List.mergeSort_perm numbers (· ≤ ·)).length_eq
  unfold increasing List.eraseReps
  cases hnumbers : numbers.mergeSort (· ≤ ·) with
  | nil =>
      rw [hnumbers] at hlength
      exact absurd (List.length_eq_zero_iff.mp hlength.symm) h
  | cons n rest => exact eraseReps_ne_nil n rest []

/-- A position among the integers of a list. -/
structure Of (numbers : List Int64) (d : Discrete) : Prop where
  numbers_eq : d.numbers = increasing numbers
  rank_lt : d.rank < d.card

variable {numbers : List Int64} {d e : Discrete}

theorem Of.card_pos (h : Of numbers d) : 0 < d.card :=
  Nat.zero_lt_of_lt h.rank_lt

theorem Of.move (h : Of numbers d) {rank : Nat} (hrank : rank < d.card) :
    Of numbers { d with rank } :=
  ⟨h.numbers_eq, hrank⟩

/-- What a choice among integers is made of. -/
theorem make_eq_ok {rate : Float} (h : make numbers rate = .ok d) :
    numbers ≠ [] ∧ checkRate rate = .ok () ∧
      d = { numbers := increasing numbers, rank := 0, rate } := by
  by_cases hempty : numbers.isEmpty = true
  · simp only [make, hempty, ↓reduceIte] at h
    cases h
  · simp only [make, hempty] at h
    obtain ⟨_, hrate, h⟩ := except_bind_eq_ok.mp h
    exact ⟨by simpa using hempty, hrate, (Except.ok.inj h).symm⟩

theorem of_make {rate : Float} (h : make numbers rate = .ok d) : Of numbers d := by
  obtain ⟨hne, -, rfl⟩ := make_eq_ok h
  exact ⟨rfl, List.length_pos_iff.mpr (increasing_ne_nil hne)⟩

theorem Of.select (h : Of numbers d) (i : Int) : Of numbers (d.select i) :=
  h.move (by have := h.card_pos; omega)

theorem Of.reset (h : Of numbers d) : Ensures d.reset (Of numbers) :=
  .bind (Draw.below_ensures h.card_pos) fun _ hi => .pure (h.move hi)

theorem Of.mutate (h : Of numbers d) : Ensures d.mutate (Of numbers) := by
  refine Draw.walk_ensures (fun d next hd hnext => ?_) d h
  have hrank := hd.rank_lt
  unfold step at hnext
  split at hnext
  · cases hnext
  · split at hnext
    · obtain rfl := Option.some.inj hnext
      exact .pure (hd.move (by omega))
    · split at hnext
      · obtain rfl := Option.some.inj hnext
        exact .pure (hd.move (by omega))
      · obtain rfl := Option.some.inj hnext
        refine .bind_any fun i => ?_
        split
        · exact .pure (hd.move (by omega))
        · exact .pure (hd.move (by omega))

theorem rank_select {i : Nat} (hi : i < d.card) : (d.select i).rank = i := by
  simp only [select, Int.toNat_natCast]
  omega

theorem select_eq {i : Nat} (hi : i < d.card) : d.select i = { d with rank := i } :=
  congrArg (Discrete.mk _ · _) (rank_select hi)

theorem value_select {i : Nat} (hi : i < d.numbers.length) : (d.select i).value = d.numbers[i] := by
  rw [value, rank_select hi, List.getD_eq_getElem?_getD]
  simp [select, hi]

theorem Of.exists_select (h : Of numbers d) : ∃ i : Nat, i < d.card ∧ d.select i = d :=
  ⟨d.rank, h.rank_lt, select_eq h.rank_lt⟩

/-- Only the integer at an index is the integer there. -/
theorem Of.select_same (hd : Of numbers d) (he : Of numbers e) {i j : Nat} (hi : i < d.card)
    (hj : j < e.card) : (d.select i).same (e.select j) = true ↔ i = j := by
  obtain ⟨ns, r, rate⟩ := d
  obtain ⟨ms, r', rate'⟩ := e
  obtain rfl : ns = increasing numbers := hd.numbers_eq
  obtain rfl : ms = increasing numbers := he.numbers_eq
  have hnodup : (increasing numbers).Nodup :=
    (pairwise_increasing numbers).imp fun hlt heq => Int64.ne_of_lt hlt heq
  rw [Discrete.same, beq_iff_eq, value_select hi, value_select hj]
  exact hnodup.getElem_inj_iff

end Discrete

/-! ## Orderings -/

namespace Permutation

/-- An ordering of the first numbers. -/
def Of (n : Nat) (p : Permutation) : Prop :=
  p.order.Perm (List.range n)

variable {n : Nat} {p q : Permutation}

theorem Of.size_eq (h : Of n p) : p.size = n := by
  rw [size, h.length_eq, List.length_range]

theorem Of.enumerates (h : Of n p) : p.domain.Enumerates (List.Perm · (List.range n)) := by
  rw [domain, h.size_eq]
  exact Finite.enumerates_orderings n

/-- What an ordering is made of. -/
theorem make_eq_ok {size : Int64} {rate : Float} (h : make size rate = .ok p) :
    1 ≤ size.toInt ∧ size.toInt ≤ DomainFault.maxOrderingSize ∧ checkRate rate = .ok () ∧
      p = { order := List.range size.toInt.toNat, rate } := by
  by_cases hsize : size.toInt < 1 ∨ DomainFault.maxOrderingSize < size.toInt
  · simp only [make, hsize, ↓reduceIte] at h
    cases h
  · simp only [make, hsize] at h
    obtain ⟨_, hrate, h⟩ := except_bind_eq_ok.mp h
    rw [not_or, not_lt, not_lt] at hsize
    exact ⟨hsize.1, hsize.2, hrate, (Except.ok.inj h).symm⟩

theorem of_make {size : Int64} {rate : Float} (h : make size rate = .ok p) :
    Of size.toInt.toNat p := by
  obtain ⟨-, -, -, rfl⟩ := make_eq_ok h
  exact .refl _

theorem Of.select (h : Of n p) (i : Int) : Of n (p.select i) :=
  h.enumerates.clamped h i

theorem Of.reset (h : Of n p) : Ensures p.reset (Of n) :=
  .bind (Draw.below_ensures (h.enumerates.size_pos h)) fun i hi => .pure (h.enumerates.sound i hi)

theorem Of.mutate (h : Of n p) : Ensures p.mutate (Of n) := by
  unfold Permutation.mutate
  split
  · exact .pure h
  · next hsize =>
      refine Draw.walk_ensures (fun q next hq hnext => ?_) p h
      obtain rfl := Option.some.inj hnext
      have hsize : 1 < q.size := by
        rw [hq.size_eq, ← h.size_eq]
        omega
      refine .bind (Draw.below_ensures (by omega)) fun i hi => ?_
      refine .bind (Draw.below_ensures (by omega)) fun j hj => .pure ?_
      have hraise : Finite.raise i j < q.size := by
        unfold Finite.raise
        split <;> omega
      exact (Finite.swap_perm hi hraise).trans hq

theorem Of.assign (h : Of n p) {v : Value} (hq : p.assign v = .ok q) : Of n q := by
  unfold Permutation.assign at hq
  split at hq
  · next xs =>
      split at hq
      · next hordering =>
          obtain rfl := Except.ok.inj hq
          rw [h.size_eq] at hordering
          exact Finite.perm_of_isOrdering hordering
      · cases hq
  · cases hq

theorem Of.exists_select (h : Of n p) : ∃ i : Nat, i < p.card ∧ p.select i = p := by
  obtain ⟨i, hi, horder⟩ := h.enumerates.exists_clamped h
  refine ⟨i, hi, ?_⟩
  cases p
  exact congrArg (Permutation.mk · _) horder

theorem Of.domain_eq (hp : Of n p) (hq : Of n q) : q.domain = p.domain := by
  rw [domain, domain, hp.size_eq, hq.size_eq]

/-- Only the ordering at an index is the ordering there. -/
theorem Of.select_same (hp : Of n p) (hq : Of n q) {i j : Nat} (hi : i < p.card) (hj : j < q.card) :
    (p.select i).same (q.select j) = true ↔ i = j := by
  rw [Permutation.same, beq_iff_eq]
  change p.domain.clamped i = q.domain.clamped j ↔ i = j
  rw [hp.domain_eq hq]
  exact hp.enumerates.clamped_inj hi (hp.domain_eq hq ▸ hj)

end Permutation

/-! ## Factors -/

namespace Factor

/-- Positive factors, one for each slot, with a given product. -/
structure Of (product slots : Int64) (f : Factor) : Prop where
  positive : 1 ≤ product
  slots_eq : f.slots = slots.toInt.toNat
  powers_eq : f.powers = Finite.primePowers product
  split : Finite.IsSplit product.toNatClampNeg f.slots f.parts

variable {product slots : Int64} {f g : Factor}

theorem toNat_bounds (h : 1 ≤ product) :
    0 < product.toNatClampNeg ∧ product.toNatClampNeg < 2 ^ 63 ∧
      Int64.ofNat product.toNatClampNeg = product := by
  have hle : 1 ≤ product.toInt := Int64.le_iff_toInt_le.mp h
  have hlt := product.toInt_lt
  refine ⟨?_, ?_, Int64.ofNat_toNatClampNeg product (Int64.le_iff_toInt_le.mpr ?_)⟩
  · rw [Int64.toNatClampNeg]
    omega
  · rw [Int64.toNatClampNeg]
    omega
  · exact Int.le_trans (by decide) hle

theorem Of.exists_powers (h : Of product slots f) :
    ∃ powers, Finite.IsPrimePowers 2 product.toNatClampNeg powers ∧
      f.powers = powers.map fun power => (.ofNat power.1, power.2) := by
  obtain ⟨hpos, hlt, hofNat⟩ := toNat_bounds h.positive
  obtain ⟨powers, hpowers, heq⟩ := Finite.primePowers_ofNat hpos hlt
  exact ⟨powers, hpowers, by rw [h.powers_eq, ← heq, hofNat]⟩

theorem Of.enumerates (h : Of product slots f) :
    f.domain.Enumerates (Finite.IsSplit product.toNatClampNeg f.slots) := by
  obtain ⟨hpos, hlt, -⟩ := toNat_bounds h.positive
  obtain ⟨powers, hpowers, heq⟩ := h.exists_powers
  rw [domain, heq]
  exact Finite.enumerates_partitions hpowers hpos hlt

/-- What factors are made of. -/
theorem make_eq_ok {rate : Float} (h : make product slots rate = .ok f) :
    1 ≤ product ∧ 1 ≤ slots ∧ slots ≤ largestSlots ∧ checkRate rate = .ok () ∧
      f = { product, slots := slots.toInt.toNat, powers := Finite.primePowers product
            parts := product :: List.replicate (slots.toInt.toNat - 1) 1, rate } := by
  by_cases hproduct : product < 1
  · simp only [make, hproduct, ↓reduceIte] at h
    cases h
  by_cases hslots : slots < 1
  · simp only [make, hproduct, hslots, ↓reduceIte] at h
    cases h
  simp only [make, hproduct, hslots] at h
  obtain ⟨_, hrate, h⟩ := except_bind_eq_ok.mp h
  by_cases hroom : largestSlots < slots
  · simp only [hroom, ↓reduceIte] at h
    cases h
  simp only [hroom] at h
  exact ⟨Int64.not_lt.mp hproduct, Int64.not_lt.mp hslots, Int64.not_lt.mp hroom, hrate,
    (Except.ok.inj h).symm⟩

theorem of_make {rate : Float} (h : make product slots rate = .ok f) : Of product slots f := by
  obtain ⟨hpositive, hslots, -, -, rfl⟩ := make_eq_ok h
  have hcount : 1 ≤ slots.toInt := Int64.le_iff_toInt_le.mp hslots
  refine ⟨hpositive, rfl, rfl,
    product.toNatClampNeg :: List.replicate (slots.toInt.toNat - 1) 1, ?_, by simp, ?_⟩
  · rw [List.length_cons, List.length_replicate]
    dsimp only
    omega
  · simp [(toNat_bounds hpositive).2.2]

theorem Of.move (h : Of product slots f) {parts : List Int64}
    (hparts : Finite.IsSplit product.toNatClampNeg f.slots parts) :
    Of product slots { f with parts } :=
  ⟨h.positive, h.slots_eq, h.powers_eq, hparts⟩

theorem Of.select (h : Of product slots f) (i : Int) : Of product slots (f.select i) :=
  h.move (h.enumerates.clamped h.split i)

theorem Of.reset (h : Of product slots f) : Ensures f.reset (Of product slots) :=
  .bind (Draw.below_ensures (h.enumerates.size_pos h.split)) fun i hi =>
    .pure (h.move (h.enumerates.sound i hi))

theorem mem_transfers {t : Transfer} (h : t ∈ f.transfers) :
    t.source < f.slots ∧ t.target < f.slots ∧ (∃ k, (t.prime, k) ∈ f.powers) ∧
      (f.parts.getD t.source 1 % t.prime == 0) = true := by
  obtain ⟨source, hsource, h⟩ := List.mem_flatMap.mp h
  obtain ⟨target, htarget, h⟩ := List.mem_flatMap.mp h
  split at h
  · cases h
  · obtain ⟨⟨prime, k⟩, hpower, h⟩ := List.mem_filterMap.mp h
    dsimp only at h
    split at h
    · next hdvd =>
        obtain rfl := Option.some.inj h
        exact ⟨List.mem_range.mp hsource, List.mem_range.mp htarget, ⟨k, hpower⟩, hdvd⟩
    · cases h

/-- A transfer of a prime leads from factors of the product to factors of the product. -/
theorem Of.apply (h : Of product slots f) {t : Transfer} (ht : t ∈ f.transfers) :
    Of product slots (f.apply t) := by
  obtain ⟨hsource, htarget, ⟨k, hpower⟩, hdvd⟩ := mem_transfers ht
  obtain ⟨hpos, hlt, -⟩ := toNat_bounds h.positive
  obtain ⟨powers, hpowers, heq⟩ := h.exists_powers
  rw [heq] at hpower
  obtain ⟨power, hmem, hprime⟩ := List.mem_map.mp hpower
  obtain ⟨hprime, -⟩ := Prod.mk.inj hprime
  have hbound := Nat.lt_of_le_of_lt (hpowers.le hpos hmem) hlt
  refine h.move ?_
  rw [← hprime] at hdvd ⊢
  exact h.split.transfer hpos hlt hbound hsource htarget hdvd

theorem Of.mutate (h : Of product slots f) : Ensures f.mutate (Of product slots) := by
  refine Draw.walk_ensures (fun f next hf hnext => ?_) f h
  unfold step at hnext
  dsimp only at hnext
  split at hnext
  · obtain rfl := Option.some.inj hnext
    exact .pure hf
  · obtain rfl := Option.some.inj hnext
    refine .bind_any fun i => ?_
    split
    · next t ht => exact .pure (hf.apply (List.mem_of_getElem? ht))
    · exact .pure hf

theorem Of.exists_select (h : Of product slots f) : ∃ i : Nat, i < f.card ∧ f.select i = f := by
  obtain ⟨i, hi, hparts⟩ := h.enumerates.exists_clamped h.split
  refine ⟨i, hi, ?_⟩
  cases f
  exact congrArg (Factor.mk _ _ _ · _) hparts

theorem Of.domain_eq (hf : Of product slots f) (hg : Of product slots g) : g.domain = f.domain := by
  rw [domain, domain, hf.slots_eq, hg.slots_eq, hf.powers_eq, hg.powers_eq]

/-- Only the factors at an index are the factors there. -/
theorem Of.select_same (hf : Of product slots f) (hg : Of product slots g) {i j : Nat}
    (hi : i < f.card) (hj : j < g.card) : (f.select i).same (g.select j) = true ↔ i = j := by
  rw [Factor.same, beq_iff_eq]
  change f.domain.clamped i = g.domain.clamped j ↔ i = j
  rw [hf.domain_eq hg]
  exact hf.enumerates.clamped_inj hi (hf.domain_eq hg ▸ hj)

end Factor

/-! ## All kinds -/

namespace Domain

/-- The genes that hold an element of a domain. -/
inductive Holds : Domain → Gene → Prop
  | choice {choices : List Value} {c : Choice} (h : c.Of choices) : Holds (.choice choices) (.choice c)
  | discrete {numbers : List Int64} {d : Discrete} (h : d.Of numbers) :
      Holds (.discrete numbers) (.discrete d)
  | permutation {size : Int64} {p : Permutation} (h : p.Of size.toInt.toNat) :
      Holds (.permutation size) (.permutation p)
  | factor {product slots : Int64} {f : Factor} (h : f.Of product slots) :
      Holds (.factor product slots) (.factor f)

/-- Every atom is the same as itself. -/
def Reflexive : Domain → Prop
  | .choice choices => ∀ v ∈ choices, v.same v = true
  | _ => True

variable {d : Domain} {g h : Gene}

theorem holds_of_gene? {rate : Float} (hg : d.gene? rate = some (.ok g)) : d.Holds g := by
  cases d with
  | choice choices =>
      obtain ⟨c, hc, rfl⟩ := except_map_eq_ok.mp (Option.some.inj hg)
      exact .choice (Choice.of_make hc)
  | discrete numbers =>
      obtain ⟨c, hc, rfl⟩ := except_map_eq_ok.mp (Option.some.inj hg)
      exact .discrete (Discrete.of_make hc)
  | permutation size =>
      obtain ⟨c, hc, rfl⟩ := except_map_eq_ok.mp (Option.some.inj hg)
      exact .permutation (Permutation.of_make hc)
  | factor product slots =>
      obtain ⟨c, hc, rfl⟩ := except_map_eq_ok.mp (Option.some.inj hg)
      exact .factor (Factor.of_make hc)
  | unknown kind => cases hg

theorem closed_holds (d : Domain) : Gene.Closed d.Holds where
  mutate g hg := by
    cases hg with
    | choice h => exact .bind h.mutate fun _ h => .pure (.choice h)
    | discrete h => exact .bind h.mutate fun _ h => .pure (.discrete h)
    | permutation h => exact .bind h.mutate fun _ h => .pure (.permutation h)
    | factor h => exact .bind h.mutate fun _ h => .pure (.factor h)
  reset g hg := by
    cases hg with
    | choice h => exact .bind h.reset fun _ h => .pure (.choice h)
    | discrete h => exact .bind h.reset fun _ h => .pure (.discrete h)
    | permutation h => exact .bind h.reset fun _ h => .pure (.permutation h)
    | factor h => exact .bind h.reset fun _ h => .pure (.factor h)
  select g i hg := by
    cases hg with
    | choice h => exact .choice (h.select i)
    | discrete h => exact .discrete (h.select i)
    | permutation h => exact .permutation (h.select i)
    | factor h => exact .factor (h.select i)

/-- The value of a gene stands at some index of its domain. -/
theorem Holds.exists_select (hg : d.Holds g) : ∃ i : Nat, i < g.card ∧ g.select i = g := by
  cases hg with
  | choice h =>
      obtain ⟨i, hi, hselect⟩ := h.exists_select
      exact ⟨i, hi, congrArg Gene.choice hselect⟩
  | discrete h =>
      obtain ⟨i, hi, hselect⟩ := h.exists_select
      exact ⟨i, hi, congrArg Gene.discrete hselect⟩
  | permutation h =>
      obtain ⟨i, hi, hselect⟩ := h.exists_select
      exact ⟨i, hi, congrArg Gene.permutation hselect⟩
  | factor h =>
      obtain ⟨i, hi, hselect⟩ := h.exists_select
      exact ⟨i, hi, congrArg Gene.factor hselect⟩

/-- Genes at two indices hold the same value only if the indices are equal. -/
theorem Holds.select_same (hd : d.Reflexive) (hg : d.Holds g) (hh : d.Holds h) {i j : Nat}
    (hi : i < g.card) (hj : j < h.card) : (g.select i).same (h.select j) = true ↔ i = j := by
  cases hg with
  | choice hg => cases hh with | choice hh => exact hg.select_same hh hd hi hj
  | discrete hg => cases hh with | discrete hh => exact hg.select_same hh hi hj
  | permutation hg => cases hh with | permutation hh => exact hg.select_same hh hi hj
  | factor hg => cases hh with | factor hh => exact hg.select_same hh hi hj

theorem Holds.card_eq (hg : d.Holds g) (hh : d.Holds h) : g.card = h.card := by
  cases hg with
  | choice hg =>
      cases hh with
      | choice hh => exact congrArg List.length (hg.atoms_eq.trans hh.atoms_eq.symm)
  | discrete hg =>
      cases hh with
      | discrete hh => exact congrArg List.length (hg.numbers_eq.trans hh.numbers_eq.symm)
  | permutation hg =>
      cases hh with
      | permutation hh => exact congrArg Indexed.size (hh.domain_eq hg)
  | factor hg =>
      cases hh with
      | factor hh => exact congrArg Indexed.size (hh.domain_eq hg)

end Domain

theorem Parameter.gene_eq_ok {p : Parameter} {rate : Float} {g : Gene} (h : p.gene rate = .ok g) :
    p.domain.gene? (p.rateOr rate) = some (.ok g) := by
  unfold gene at h
  split at h
  · cases h
  · next result hresult =>
      cases result with
      | error fault => cases h
      | ok start => rw [hresult, Except.ok.inj h]

theorem Parameter.holds_of_gene {p : Parameter} {rate : Float} {g : Gene}
    (h : p.gene rate = .ok g) : p.domain.Holds g :=
  Domain.holds_of_gene? (gene_eq_ok h)

/-- Without starting values, genes hold elements of their domains. -/
theorem Space.law_holds {s : Space} (hs : s.seeded = false) : s.Law fun p g => p.domain.Holds g where
  made p hp b hb rate src g src' hg := by
    have hseeds : p.seeds = [] := by simpa using List.any_eq_false.mp hs p hp
    obtain rfl : b = p := by
      rcases hb with rfl | hb
      · rfl
      · simpa [Parameter.bindings, hseeds] using hb
    obtain ⟨start, hstart, ⟨-, hreset⟩ | ⟨seed, rest, hseed, -⟩⟩ := Individual.geneOf_eq_ok hg
    · exact (b.domain.closed_holds).reset start (Parameter.holds_of_gene hstart) _ _ _ hreset
    · simp [hseeds] at hseed
  closed p _ := p.domain.closed_holds

/-! ## Starting values -/

namespace Domain

/-- The genes of the kind of a domain. Starting values of choices and permutations are elements of the
domain; the factors of a starting value multiply to the product in 64-bit arithmetic only. -/
inductive Suits : Domain → Gene → Prop
  | choice {choices : List Value} {c : Choice} (h : c.Of choices) : Suits (.choice choices) (.choice c)
  | discrete {numbers : List Int64} {d : Discrete} : Suits (.discrete numbers) (.discrete d)
  | permutation {size : Int64} {p : Permutation} (h : p.Of size.toInt.toNat) :
      Suits (.permutation size) (.permutation p)
  | factor {product slots : Int64} {f : Factor} : Suits (.factor product slots) (.factor f)

variable {d : Domain} {g h : Gene}

theorem Holds.suits (hg : d.Holds g) : d.Suits g := by
  cases hg with
  | choice h => exact .choice h
  | discrete _ => exact .discrete
  | permutation h => exact .permutation h
  | factor _ => exact .factor

theorem Suits.assign (hg : d.Suits g) {v : Value} (hh : g.assign v = .ok h) : d.Suits h := by
  cases hg with
  | choice hc =>
      obtain ⟨c, hassign, hh⟩ := except_bind_eq_ok.mp hh
      obtain rfl := Except.ok.inj hh
      exact .choice (hc.assign hassign)
  | discrete =>
      obtain ⟨e, -, hh⟩ := except_bind_eq_ok.mp hh
      obtain rfl := Except.ok.inj hh
      exact .discrete
  | permutation hp =>
      obtain ⟨q, hassign, hh⟩ := except_bind_eq_ok.mp hh
      obtain rfl := Except.ok.inj hh
      exact .permutation (hp.assign hassign)
  | factor =>
      obtain ⟨f, -, hh⟩ := except_bind_eq_ok.mp hh
      obtain rfl := Except.ok.inj hh
      exact .factor

theorem closed_suits (d : Domain) : Gene.Closed d.Suits where
  mutate g hg := by
    cases hg with
    | choice h => exact .bind h.mutate fun _ h => .pure (.choice h)
    | discrete => exact .bind_any fun _ => .pure .discrete
    | permutation h => exact .bind h.mutate fun _ h => .pure (.permutation h)
    | factor => exact .bind_any fun _ => .pure .factor
  reset g hg := by
    cases hg with
    | choice h => exact .bind h.reset fun _ h => .pure (.choice h)
    | discrete => exact .bind_any fun _ => .pure .discrete
    | permutation h => exact .bind h.reset fun _ h => .pure (.permutation h)
    | factor => exact .bind_any fun _ => .pure .factor
  select g i hg := by
    cases hg with
    | choice h => exact .choice (h.select i)
    | discrete => exact .discrete
    | permutation h => exact .permutation (h.select i)
    | factor => exact .factor

end Domain

/-- With or without starting values, genes are of the kinds of their domains. -/
theorem Space.law_suits (s : Space) : s.Law fun p g => p.domain.Suits g where
  made p _ b hb rate src g src' hg := by
    rw [← hb.domain_eq]
    obtain ⟨start, hstart, ⟨-, hreset⟩ | ⟨seed, rest, -, hassign, -⟩⟩ := Individual.geneOf_eq_ok hg
    · exact (b.domain.closed_suits).reset start (Parameter.holds_of_gene hstart).suits _ _ _ hreset
    · exact (Parameter.holds_of_gene hstart).suits.assign hassign
  closed p _ := p.domain.closed_suits

end Tuning
