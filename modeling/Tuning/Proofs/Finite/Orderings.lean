import Mathlib
import Tuning.Finite.Ordering
import Tuning.Proofs.Finite.Enumeration

/-! # Orderings are enumerated

The family of orderings holds each rearrangement of the first numbers once. The test for orderings
accepts these rearrangements. -/

namespace Tuning.Finite

/-- Takes back what making room for `k` does. -/
def lower (k j : Nat) : Nat :=
  if k < j then j - 1 else j

@[simp] theorem lower_raise (k j : Nat) : lower k (raise k j) = j := by
  unfold lower raise
  split <;> split <;> omega

theorem raise_lower {k j : Nat} (h : j ≠ k) : raise k (lower k j) = j := by
  unfold lower raise
  split <;> split <;> omega

theorem lower_lt {n k j : Nat} (hk : k < n + 1) (hj : j < n + 1) (h : j ≠ k) : lower k j < n := by
  unfold lower
  split <;> omega

theorem raise_injective (k : Nat) : Function.Injective (raise k) :=
  fun i j h => by rw [← lower_raise k i, h, lower_raise]

/-- Making room for `k` leaves the other numbers. -/
theorem map_raise_range {n k : Nat} (hk : k < n + 1) :
    ((List.range n).map (raise k)).Perm ((List.range (n + 1)).erase k) := by
  refine (List.perm_ext_iff_of_nodup (List.nodup_range.map (raise_injective k))
    (List.nodup_range.erase k)).mpr fun j => ?_
  rw [List.nodup_range.mem_erase_iff, List.mem_map]
  simp only [List.mem_range]
  constructor
  · rintro ⟨i, hi, rfl⟩
    unfold raise
    split <;> omega
  · rintro ⟨hne, hj⟩
    exact ⟨lower k j, lower_lt hk hj hne, raise_lower hne⟩

/-- An ordering is a first number and an ordering of the other numbers. -/
theorem cons_perm_range {n first : Nat} {rest : List Nat} :
    (first :: rest).Perm (List.range (n + 1)) ↔
      first < n + 1 ∧ ∃ xs : List Nat, xs.Perm (List.range n) ∧ xs.map (raise first) = rest := by
  rw [List.cons_perm_iff_perm_erase, List.mem_range]
  refine and_congr_right fun hfirst => ?_
  have hothers := map_raise_range hfirst
  constructor
  · intro h
    have hrest := h.trans hothers.symm
    refine ⟨rest.map (lower first), ?_, ?_⟩
    · simpa [Function.comp_def] using hrest.map (lower first)
    · rw [List.map_map]
      refine (List.map_congr_left fun j hj => ?_).trans (List.map_id' rest)
      exact raise_lower (List.nodup_range.mem_erase_iff.mp (h.mem_iff.mp hj)).1
  · rintro ⟨xs, hxs, rfl⟩
    exact (hxs.map _).trans hothers

/-- Every ordering of the first numbers stands at one index. -/
theorem enumerates_orderings (n : Nat) :
    (orderings n).Enumerates (List.Perm · (List.range n)) := by
  induction n with
  | zero => exact (Indexed.Enumerates.single []).iff fun xs => by simp
  | succ n ih =>
      refine ((Indexed.Enumerates.upTo (n + 1)).product ih).map ?_ ?_
      · rintro ⟨i, xs⟩ ⟨j, ys⟩ - - h
        obtain ⟨rfl, h⟩ := List.cons.inj h
        rw [List.map_injective_iff.mpr (raise_injective i) h]
      · intro xs
        cases xs with
        | nil => simp [List.range_succ]
        | cons first rest =>
            rw [cons_perm_range]
            constructor
            · rintro ⟨hfirst, xs, hxs, rfl⟩
              exact ⟨(first, xs), ⟨hfirst, hxs⟩, rfl⟩
            · rintro ⟨⟨first, xs⟩, ⟨hfirst, hxs⟩, h⟩
              obtain ⟨rfl, rfl⟩ := List.cons.inj h
              exact ⟨hfirst, xs, hxs, rfl⟩

/-! ## The test for orderings -/

theorem isOrdering_iff {xs : List Int64} {n : Int} :
    isOrdering xs n = true ↔
      (xs.length : Int) = n ∧ (∀ x ∈ xs, 0 ≤ x.toInt ∧ x.toInt < n) ∧ xs.Nodup := by
  simp [isOrdering, and_assoc]

/-- What is accepted as an ordering is one. -/
theorem perm_of_isOrdering {xs : List Int64} {n : Nat} (h : isOrdering xs n = true) :
    (xs.map (·.toInt.toNat)).Perm (List.range n) := by
  obtain ⟨hlength, hrange, hnodup⟩ := isOrdering_iff.mp h
  have hinj : ∀ x ∈ xs, ∀ y ∈ xs, x.toInt.toNat = y.toInt.toNat → x = y := by
    intro x hx y hy hxy
    have := hrange x hx
    have := hrange y hy
    exact Int64.toInt_inj.mp (by omega)
  refine List.Subperm.perm_of_length_le (List.subperm_of_subset (hnodup.map_on hinj) ?_) (by simp; omega)
  intro k hk
  obtain ⟨x, hx, rfl⟩ := List.mem_map.mp hk
  have := hrange x hx
  exact List.mem_range.mpr (by omega)

/-- The numbers of an ordering are small, so nothing is lost on the way to numbers and back. -/
theorem map_ofNat_of_isOrdering {xs : List Int64} {n : Nat} (h : isOrdering xs n = true) :
    (xs.map (·.toInt.toNat)).map Int64.ofNat = xs := by
  obtain ⟨-, hrange, -⟩ := isOrdering_iff.mp h
  rw [List.map_map]
  refine (List.map_congr_left fun x hx => ?_).trans (List.map_id' xs)
  exact Int64.ofNat_toNatClampNeg x (Int64.le_iff_toInt_le.mpr (hrange x hx).1)

/-- The test accepts the rearrangements of the first numbers. -/
theorem isOrdering_iff_perm {xs : List Int64} {n : Nat} (hn : n ≤ 2 ^ 63) :
    isOrdering xs n = true ↔ xs.Perm ((List.range n).map Int64.ofNat) := by
  constructor
  · intro h
    rw [← map_ofNat_of_isOrdering h]
    exact (perm_of_isOrdering h).map Int64.ofNat
  · intro h
    have hint : ∀ k < n, (Int64.ofNat k).toInt = k := fun k hk =>
      Int64.toInt_ofNat_of_lt (by omega)
    have hnodup : ((List.range n).map Int64.ofNat).Nodup := by
      refine List.nodup_range.map_on fun j hj k hk hjk => ?_
      have hjk' := congrArg Int64.toInt hjk
      rw [hint j (List.mem_range.mp hj), hint k (List.mem_range.mp hk)] at hjk'
      omega
    refine isOrdering_iff.mpr ⟨by simpa using h.length_eq, fun x hx => ?_, h.nodup_iff.mpr hnodup⟩
    obtain ⟨k, hk, rfl⟩ := List.mem_map.mp (h.mem_iff.mp hx)
    have hlt : k < n := List.mem_range.mp hk
    rw [hint k hlt]
    omega

/-! ## Exchanges -/

theorem swap_perm {xs : List Nat} {i j : Nat} (hi : i < xs.length) (hj : j < xs.length) :
    (swap xs i j).Perm xs := by
  simpa [swap, List.getD_eq_getElem?_getD, hi, hj] using List.set_set_perm hi hj

end Tuning.Finite
