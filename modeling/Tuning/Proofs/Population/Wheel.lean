import Tuning.Population.Wheel
import Tuning.Proofs.Finite.Bisection

/-! # The shares of a wheel

On a wheel every weight has a share: the points from the total before it up to its own total. A point
below the whole total lies in one share only, and halving finds it. What has no weight has an empty
share, so it is never picked. -/

namespace Tuning.Wheel

/-! ## Totals

What follows up to the shares needs no law of order or addition, so it holds of doubles too. -/

section Totals

variable {σ : Type} [Add σ]

/-- A total is the one before it and a weight. -/
theorem getElem?_totals {start high : σ} {ws : List σ} {i : Nat}
    (h : (totals start ws)[i]? = some high) :
    ∃ low w, (start :: totals start ws)[i]? = some low ∧ ws[i]? = some w ∧ high = low + w := by
  induction ws generalizing start i with
  | nil => simp [totals] at h
  | cons w ws ih =>
      cases i with
      | zero => exact ⟨start, w, rfl, rfl, (by simpa [totals] using h.symm)⟩
      | succ i =>
          rw [totals, List.getElem?_cons_succ] at h
          obtain ⟨low, w', hlow, hw, rfl⟩ := ih h
          exact ⟨low, w', hlow, hw, rfl⟩

theorem getLastD_totals (start : σ) (ws : List σ) :
    (totals start ws).getLastD start = ws.foldl (· + ·) start := by
  induction ws generalizing start with
  | nil => rfl
  | cons w ws ih =>
      rw [totals, List.getLastD_cons, ih, List.foldl_cons]

end Totals

/-! ## Halving -/

section Halving

variable {σ : Type} [LT σ] [DecidableLT σ]

/-- A point before the end of the wheel is past the total before its index, and not past its own. -/
theorem indexOf_totals [Add σ] [OfNat σ 0] {ws : List σ} {point : σ} (hstart : ¬ point < 0)
    (hend : point < (totals 0 ws).getLastD 0) :
    ∃ low w, (0 :: totals 0 ws)[indexOf (totals 0 ws) point]? = some low ∧
      ws[indexOf (totals 0 ws) point]? = some w ∧
      (totals 0 ws)[indexOf (totals 0 ws) point]? = some (low + w) ∧
      ¬ point < low ∧ point < low + w := by
  have hle := Finite.firstIndex_le_length (point < ·) (totals 0 ws)
  have habove := Finite.any_getElem?_firstIndex (point < ·) (totals 0 ws)
  have hbelow := Finite.any_getElem?_pred_firstIndex (point < ·) (totals 0 ws)
  rw [indexOf]
  generalize Finite.firstIndex (point < ·) (totals 0 ws) = i at hle habove hbelow ⊢
  -- the last total exceeds the point, so the search does not run over the end
  have hlt : i < (totals 0 ws).length := by
    refine hle.lt_of_ne fun heq => ?_
    have hne : totals 0 ws ≠ [] := by
      intro hnil
      rw [hnil] at hend
      exact hstart hend
    have hlast := hbelow (heq ▸ List.length_pos_iff.mpr hne)
    rw [heq, ← List.getLast?_eq_getElem?, List.getLast?_eq_some_getLast hne] at hlast
    rw [List.getLastD_eq_getLast?, List.getLast?_eq_some_getLast hne] at hend
    simp only [Option.any_some, decide_eq_false_iff_not] at hlast
    exact hlast hend
  rw [Nat.min_eq_left (by omega)]
  have hexceeds := habove hlt
  rw [List.getElem?_eq_getElem hlt, Option.any_some, decide_eq_true_iff] at hexceeds
  have hhigh := List.getElem?_eq_getElem hlt
  obtain ⟨low, w, hlow, hw, hsum⟩ := getElem?_totals hhigh
  refine ⟨low, w, hlow, hw, hsum ▸ hhigh, ?_, hsum ▸ hexceeds⟩
  cases i with
  | zero =>
      obtain rfl : 0 = low := Option.some.inj hlow
      exact hstart
  | succ i =>
      have hfails := hbelow (Nat.succ_pos i)
      rw [Nat.succ_sub_one, show (totals 0 ws)[i]? = some low from hlow] at hfails
      simpa using hfails

end Halving

/-! ## Weights in an ordered field -/

section Field

variable {K : Type} [Field K] [LinearOrder K] [IsStrictOrderedRing K]

/-- The point lies in the share of an index: past the total before it, and not past its own. -/
def InShare (wheel : List K) (point : K) (i : Nat) : Prop :=
  ∃ low high, (0 :: wheel)[i]? = some low ∧ wheel[i]? = some high ∧ low ≤ point ∧ point < high

omit [IsStrictOrderedRing K] in
theorem weight_eq_max (score : K) : weight score = max score 0 := by
  unfold weight
  split
  · next h => exact (max_eq_left h.le).symm
  · next h => rw [if_pos (not_lt.mp h), max_eq_right (not_lt.mp h)]

/-- Weights that are not negative make totals that do not fall. -/
theorem pairwise_totals {ws : List K} (hws : ∀ w ∈ ws, 0 ≤ w) (start : K) :
    (start :: totals start ws).Pairwise (· ≤ ·) := by
  induction ws generalizing start with
  | nil => simp [totals]
  | cons w ws ih =>
      have hrest := ih (fun v hv => hws v (by simp [hv])) (start + w)
      have hstep : start ≤ start + w := le_add_of_nonneg_right (hws w (by simp))
      refine List.pairwise_cons.mpr ⟨fun x hx => ?_, hrest⟩
      obtain rfl | hx := List.mem_cons.mp hx
      · exact hstep
      · exact hstep.trans (List.rel_of_pairwise_cons hrest hx)

theorem inShare_unique {ws : List K} (hws : ∀ w ∈ ws, 0 ≤ w) {point : K} {i j : Nat}
    (hi : InShare (totals 0 ws) point i) (hj : InShare (totals 0 ws) point j) : i = j := by
  have hlate : ∀ {i j : Nat}, InShare (totals 0 ws) point i → InShare (totals 0 ws) point j →
      ¬ i < j := by
    rintro i j ⟨-, high, -, hhigh, -, hbelow⟩ ⟨low, -, hlow, -, habove, -⟩ hlt
    have hle : high ≤ low := by
      obtain rfl | hlt := (Nat.succ_le_iff.mpr hlt).eq_or_lt
      · exact le_of_eq (Option.some.inj (hhigh.symm.trans hlow))
      · obtain ⟨hl, hlow⟩ := List.getElem?_eq_some_iff.mp hlow
        obtain ⟨hh, hhigh⟩ := List.getElem?_eq_some_iff.mp
          (show (0 :: totals 0 ws)[i + 1]? = some high from hhigh)
        rw [← hlow, ← hhigh]
        exact List.pairwise_iff_getElem.mp (pairwise_totals hws 0) _ _ hh hl hlt
    exact absurd (hle.trans habove) (not_le.mpr hbelow)
  exact Nat.le_antisymm (not_lt.mp (hlate hj hi)) (not_lt.mp (hlate hi hj))

omit [LinearOrder K] [IsStrictOrderedRing K] in
theorem sum_eq (ws : List K) : sum ws = ws.sum :=
  List.sum_eq_foldl.symm

/-- Something has weight exactly if some score is positive. -/
theorem sum_weight_eq_zero_iff (scores : List K) :
    sum (scores.map weight) = 0 ↔ ∀ score ∈ scores, score ≤ 0 := by
  have hnonneg : ∀ w ∈ scores.map weight, 0 ≤ w := by
    intro w hw
    obtain ⟨score, -, rfl⟩ := List.mem_map.mp hw
    rw [weight_eq_max]
    exact le_max_right _ _
  have hzero : ∀ score : K, weight score = 0 ↔ score ≤ 0 := by
    intro score
    rw [weight_eq_max, max_eq_right_iff]
  rw [sum_eq]
  refine ⟨fun hsum score hscore => ?_, fun h => ?_⟩
  · exact (hzero score).mp
      (List.all_zero_of_le_zero_le_of_sum_eq_zero hnonneg hsum (List.mem_map_of_mem hscore))
  · refine List.sum_eq_zero fun w hw => ?_
    obtain ⟨score, hscore, rfl⟩ := List.mem_map.mp hw
    exact (hzero score).mpr (h score hscore)

/-- If no score is positive, each has weight one. -/
theorem weights_of_not_pos {scores : List K} (h : ∀ score ∈ scores, score ≤ 0) :
    weights scores = scores.map fun _ => 1 := by
  rw [weights, if_pos (by simpa using (sum_weight_eq_zero_iff scores).mpr h), List.map_map]
  rfl

/-- Else the positive ones have their own weight, and the others none. -/
theorem weights_of_pos {scores : List K} (h : ∃ score ∈ scores, 0 < score) :
    weights scores = scores.map fun score => max score 0 := by
  have hsum : ¬ sum (scores.map weight) = 0 := by
    rw [sum_weight_eq_zero_iff]
    push Not
    exact h
  rw [weights, if_neg (by simpa using hsum)]
  exact List.map_congr_left fun score _ => weight_eq_max score

theorem weights_nonneg (scores : List K) : ∀ w ∈ weights scores, 0 ≤ w := by
  intro w hw
  by_cases h : ∀ score ∈ scores, score ≤ 0
  · rw [weights_of_not_pos h] at hw
    obtain ⟨score, -, rfl⟩ := List.mem_map.mp hw
    exact zero_le_one
  · rw [weights_of_pos (by push Not at h; exact h)] at hw
    obtain ⟨score, -, rfl⟩ := List.mem_map.mp hw
    exact le_max_right _ _

/-- The index of a point is the one in whose share it lies, and has a positive weight. -/
theorem indexOf_make {scores : List K} {point : K} (hstart : 0 ≤ point)
    (hend : point < (make scores).getLastD 0) :
    (∀ i, InShare (make scores) point i ↔ i = indexOf (make scores) point) ∧
      ∃ w, (weights scores)[indexOf (make scores) point]? = some w ∧ 0 < w := by
  obtain ⟨low, w, hlow, hw, hhigh, hpast, hbelow⟩ := indexOf_totals (not_lt.mpr hstart) hend
  have hshare : InShare (make scores) point (indexOf (make scores) point) :=
    ⟨low, low + w, hlow, hhigh, not_lt.mp hpast, hbelow⟩
  refine ⟨fun i => ⟨fun hi => inShare_unique (weights_nonneg scores) hi hshare, fun hi => hi ▸ hshare⟩,
    w, hw, ?_⟩
  exact pos_of_lt_add_right ((not_lt.mp hpast).trans_lt hbelow)

/-- What is picked has a positive score, unless no score is positive. -/
theorem score_pos {scores : List K} {point : K} (hstart : 0 ≤ point)
    (hend : point < (make scores).getLastD 0) (h : ∃ score ∈ scores, 0 < score) :
    ∃ score, scores[indexOf (make scores) point]? = some score ∧ 0 < score := by
  obtain ⟨-, w, hw, hpos⟩ := indexOf_make hstart hend
  rw [weights_of_pos h, List.getElem?_map] at hw
  obtain ⟨score, hscore, rfl⟩ := Option.map_eq_some_iff.mp hw
  exact ⟨score, hscore, (lt_max_iff.mp hpos).resolve_right (lt_irrefl 0)⟩

end Field

end Tuning.Wheel
