import Mathlib
import Tuning.Finite.Bisection

/-! # What halving finds

Halving ends between an index that fails and one that passes. Where passing is for good, no index before
it passes, so halving finds what looking from the front finds. -/

namespace Tuning.Finite

/-- Halving ends between an index that fails the test and one that passes. -/
theorem bisect_spec (passes : Nat → Bool) (fuel low high : Nat) (hle : low ≤ high)
    (hfuel : high - low ≤ fuel) :
    low ≤ bisect passes fuel low high ∧ bisect passes fuel low high ≤ high ∧
      (bisect passes fuel low high < high → passes (bisect passes fuel low high) = true) ∧
      (low < bisect passes fuel low high → passes (bisect passes fuel low high - 1) = false) := by
  induction fuel generalizing low high with
  | zero =>
      obtain rfl : low = high := by omega
      simp [bisect]
  | succ fuel ih =>
      rw [bisect]
      split
      · dsimp only
        -- the middle is an end of the next range, and was tested
        split
        · next hpasses =>
            obtain ⟨hlow, hhigh, habove, hbelow⟩ := ih low ((low + high) / 2) (by omega) (by omega)
            refine ⟨hlow, by omega, fun _ => ?_, hbelow⟩
            obtain heq | hless := hhigh.eq_or_lt
            · rwa [heq]
            · exact habove hless
        · next hpasses =>
            obtain ⟨hlow, hhigh, habove, hbelow⟩ := ih ((low + high) / 2 + 1) high (by omega) (by omega)
            refine ⟨by omega, hhigh, habove, fun _ => ?_⟩
            obtain heq | hless := hlow.eq_or_lt
            · rw [← heq, Nat.add_sub_cancel]
              simpa using hpasses
            · exact hbelow hless
      · obtain rfl : low = high := by omega
        simp

variable {α : Type} {test : α → Bool} {xs : List α}

theorem firstIndex_le_length (test : α → Bool) (xs : List α) : firstIndex test xs ≤ xs.length :=
  (bisect_spec _ xs.length 0 xs.length (Nat.zero_le _) le_rfl).2.1

/-- What is found passes. -/
theorem any_getElem?_firstIndex (test : α → Bool) (xs : List α)
    (h : firstIndex test xs < xs.length) : (xs[firstIndex test xs]?).any test = true :=
  (bisect_spec (fun i => (xs[i]?).any test) xs.length 0 xs.length (Nat.zero_le _) le_rfl).2.2.1 h

/-- What stands right before fails. -/
theorem any_getElem?_pred_firstIndex (test : α → Bool) (xs : List α) (h : 0 < firstIndex test xs) :
    (xs[firstIndex test xs - 1]?).any test = false :=
  (bisect_spec (fun i => (xs[i]?).any test) xs.length 0 xs.length (Nat.zero_le _) le_rfl).2.2.2 h

/-- Where all that comes after an element that passes passes too, halving finds the first one. -/
theorem firstIndex_eq_findIdx (h : xs.Pairwise fun a b => test a = true → test b = true) :
    firstIndex test xs = xs.findIdx test := by
  have hle := firstIndex_le_length test xs
  have hbefore : ∀ (k : Nat) (hk : k < firstIndex test xs) (hlt : k < xs.length),
      test xs[k] = false := by
    intro k hk hlt
    have hfails := any_getElem?_pred_firstIndex test xs (lt_of_le_of_lt (Nat.zero_le k) hk)
    have hlast : firstIndex test xs - 1 < xs.length := by omega
    rw [List.getElem?_eq_getElem hlast, Option.any_some] at hfails
    obtain heq | hless := (show k ≤ firstIndex test xs - 1 by omega).eq_or_lt
    · simpa only [heq] using hfails
    · refine Bool.eq_false_iff.mpr fun hpasses => ?_
      have := List.pairwise_iff_getElem.mp h k _ hlt hlast hless hpasses
      rw [hfails] at this
      contradiction
  obtain heq | hlt := hle.eq_or_lt
  · rw [heq, eq_comm, List.findIdx_eq_length]
    intro x hx
    obtain ⟨k, hk, rfl⟩ := List.getElem_of_mem hx
    exact hbefore k (heq ▸ hk) hk
  · have hpasses := any_getElem?_firstIndex test xs hlt
    rw [List.getElem?_eq_getElem hlt, Option.any_some] at hpasses
    exact ((List.findIdx_eq hlt).mpr ⟨hpasses, fun k hk => hbefore k hk _⟩).symm

end Tuning.Finite
