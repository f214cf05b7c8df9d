import Mathlib
import Tuning.Finite.Composition
import Tuning.Proofs.Finite.Enumeration

/-! # Compositions are enumerated

Compositions are counted by binomial coefficients. A composition is found by its first part: the
compositions with smaller first parts are skipped, block by block. -/

namespace Tuning.Finite

open Indexed (Enumerates)

/-! ## Counting -/

theorem binomial_eq_choose (n k : Nat) : binomial n k = n.choose k := by
  induction k with
  | zero => exact (Nat.choose_zero_right n).symm
  | succ k ih =>
      rw [binomial, List.range_succ, List.foldl_append]
      change binomial n k * (n - k) / (k + 1) = n.choose (k + 1)
      rw [ih, ← Nat.choose_succ_right_eq, Nat.mul_div_cancel _ k.succ_pos]

theorem countCompositions_succ (m k : Nat) : countCompositions m (k + 1) = (m + k).choose k :=
  binomial_eq_choose (m + k) k

/-- How many compositions of `m` into `k + 1` parts have a first part from `first` to
`first + fuel`. -/
def countFrom (m k : Nat) : (fuel first : Nat) → Nat
  | 0, first => countCompositions (m - first) k
  | fuel + 1, first => countCompositions (m - first) k + countFrom m k fuel (first + 1)

theorem countFrom_eq_choose (m k : Nat) {fuel first : Nat} (h : first + fuel = m) :
    countFrom m (k + 1) fuel first = (fuel + k + 1).choose (k + 1) := by
  induction fuel generalizing first with
  | zero =>
      rw [countFrom, countCompositions_succ, ← h]
      simp
  | succ fuel ih =>
      have hrest : m - first + k = fuel + k + 1 := by omega
      rw [countFrom, countCompositions_succ, ih (by omega), hrest, Nat.add_right_comm fuel 1 k]
      exact (Nat.choose_succ_succ' _ k).symm

/-- A composition has some first part. -/
theorem countFrom_zero (m k : Nat) :
    countFrom m (k + 1) m 0 = countCompositions m (k + 2) := by
  rw [countFrom_eq_choose m k (Nat.zero_add m), countCompositions_succ]
  rfl

/-! ## Finding -/

/-- Skipping whole blocks finds every position in every block once. -/
theorem enumerates_locate (m k fuel first : Nat) :
    Enumerates ⟨countFrom m k fuel first, locate m k fuel first⟩ fun found =>
      first ≤ found.1 ∧ found.1 ≤ first + fuel ∧ found.2 < countCompositions (m - found.1) k := by
  induction fuel generalizing first with
  | zero =>
      refine ⟨fun i hi => ⟨Nat.le_refl _, Nat.le_refl _, hi⟩, ?_, ?_⟩
      · intro i _ j _ h
        exact (Prod.mk.inj h).2
      · rintro ⟨f, r⟩ ⟨hlow, hhigh, hr⟩
        obtain rfl : f = first := Nat.le_antisymm hhigh hlow
        exact ⟨r, hr, rfl⟩
  | succ fuel ih =>
      -- an index is in the first block or, past it, in the later blocks
      have hfirst : ∀ i < countCompositions (m - first) k,
          locate m k (fuel + 1) first i = (first, i) := by
        intro i hi
        rw [locate, if_pos hi]
      have hlater : ∀ i, countCompositions (m - first) k ≤ i →
          locate m k (fuel + 1) first i =
            locate m k fuel (first + 1) (i - countCompositions (m - first) k) := by
        intro i hi
        rw [locate, if_neg (Nat.not_lt.mpr hi)]
      obtain ⟨hsound, hinjective, hcomplete⟩ := ih (first + 1)
      dsimp only at hsound hinjective hcomplete
      refine ⟨?_, ?_, ?_⟩
      all_goals dsimp only [countFrom]
      · intro i hi
        rcases Nat.lt_or_ge i (countCompositions (m - first) k) with hblock | hblock
        · rw [hfirst i hblock]
          exact ⟨Nat.le_refl _, Nat.le_add_right _ _, hblock⟩
        · rw [hlater i hblock]
          obtain ⟨hlow, hhigh, hr⟩ := hsound (i - countCompositions (m - first) k) (by omega)
          exact ⟨by omega, by omega, hr⟩
      · intro i hi j hj h
        rcases Nat.lt_or_ge i (countCompositions (m - first) k) with hi' | hi' <;>
          rcases Nat.lt_or_ge j (countCompositions (m - first) k) with hj' | hj'
        · rw [hfirst i hi', hfirst j hj'] at h
          exact (Prod.mk.inj h).2
        · rw [hfirst i hi', hlater j hj'] at h
          have hlow := (hsound (j - countCompositions (m - first) k) (by omega)).1
          rw [← h] at hlow
          omega
        · rw [hlater i hi', hfirst j hj'] at h
          have hlow := (hsound (i - countCompositions (m - first) k) (by omega)).1
          rw [h] at hlow
          omega
        · rw [hlater i hi', hlater j hj'] at h
          have hij := hinjective _ (by omega) _ (by omega) h
          omega
      · rintro ⟨f, r⟩ ⟨hlow, hhigh, hr⟩
        dsimp only at hlow hhigh hr
        rcases Nat.eq_or_lt_of_le hlow with rfl | hlow
        · exact ⟨r, by omega, hfirst r hr⟩
        · obtain ⟨i, hi, hfound⟩ := hcomplete (f, r) ⟨hlow, by omega, hr⟩
          refine ⟨countCompositions (m - first) k + i, by omega, ?_⟩
          rw [hlater _ (by omega), Nat.add_sub_cancel_left, hfound]

theorem nthComposition_cons (m k i : Nat) :
    nthComposition m (k + 2) i =
      (locate m (k + 1) m 0 i).1 ::
        nthComposition (m - (locate m (k + 1) m 0 i).1) (k + 1) (locate m (k + 1) m 0 i).2 := rfl

/-- Every composition stands at one index. -/
theorem enumerates_compositions (m k : Nat) :
    (compositionFamily m k).Enumerates fun xs => xs.length = k ∧ xs.sum = m := by
  induction k generalizing m with
  | zero =>
      by_cases hm : m = 0
      · subst hm
        refine (Enumerates.single []).iff fun xs => ?_
        simp +contextual [List.length_eq_zero_iff]
      · have hsize : (compositionFamily m 0).size = 0 := if_neg hm
        refine ⟨by simp [hsize], by simp [hsize], ?_⟩
        rintro xs ⟨hlength, hsum⟩
        rw [List.length_eq_zero_iff.mp hlength] at hsum
        exact absurd hsum.symm hm
  | succ k ih =>
      cases k with
      | zero =>
          refine (Enumerates.single [m]).iff fun xs => ?_
          rw [List.length_eq_one_iff]
          constructor
          · rintro rfl
            exact ⟨⟨m, rfl⟩, by simp⟩
          · rintro ⟨⟨n, rfl⟩, hsum⟩
            simpa using hsum
      | succ k =>
          have hlocate := enumerates_locate m (k + 1) m 0
          rw [countFrom_zero, Nat.zero_add] at hlocate
          obtain ⟨hsound, hinjective, hcomplete⟩ := hlocate
          dsimp only at hsound hinjective hcomplete
          refine ⟨?_, ?_, ?_⟩
          · intro i hi
            obtain ⟨-, hfirst, hr⟩ := hsound i hi
            obtain ⟨hlength, hsum⟩ := (ih _).sound _ hr
            change (nthComposition m (k + 2) i).length = k + 2 ∧ (nthComposition m (k + 2) i).sum = m
            rw [nthComposition_cons, List.length_cons, List.sum_cons]
            dsimp only [compositionFamily] at hlength hsum
            exact ⟨congrArg (· + 1) hlength, by omega⟩
          · intro i hi j hj h
            change nthComposition m (k + 2) i = nthComposition m (k + 2) j at h
            rw [nthComposition_cons, nthComposition_cons] at h
            obtain ⟨hfirst, hrest⟩ := List.cons.inj h
            rw [hfirst] at hrest
            have hr := (hsound i hi).2.2
            rw [hfirst] at hr
            have hr' := (ih _).injective _ hr _ (hsound j hj).2.2 hrest
            exact hinjective i hi j hj (Prod.ext hfirst hr')
          · rintro (_ | ⟨first, xs⟩) ⟨hlength, hsum⟩
            · cases hlength
            · rw [List.sum_cons] at hsum
              obtain ⟨r, hr, hxs⟩ := (ih (m - first)).complete xs ⟨by simpa using hlength, by omega⟩
              obtain ⟨i, hi, hfound⟩ := hcomplete (first, r) ⟨Nat.zero_le _, by omega, hr⟩
              refine ⟨i, hi, ?_⟩
              change nthComposition m (k + 2) i = _
              rw [nthComposition_cons, hfound, ← hxs]
              rfl

end Tuning.Finite
