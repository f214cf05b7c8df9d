import Mathlib
import Tuning.Proofs.Population.Breeding

/-! # Room for a batch

The recorded and the requested individuals are added in 64-bit arithmetic, and the sum is compared with
the volume, which has no bound. The comparison is right as long as 64-bit arithmetic can hold the sum.
A sum that it cannot hold turns negative, and the space never counts as exhausted. -/

namespace Tuning.Population

variable {p : Population} {parents children : Int64} {src : Source}

/-! ## The guard -/

/-- What is compared with the volume is the sum of the two numbers in 64-bit arithmetic. -/
theorem exhaustedBy_iff_bmod (p : Population) (children : Int64) :
    p.exhaustedBy children = true ↔
      (p.volume : Int) < ((p.size : Int) + children.toInt).bmod (2 ^ 64) := by
  have hsum : (Int64.ofNat p.size + children).toInt =
      ((p.size : Int) + children.toInt).bmod (2 ^ 64) := by
    rw [Int64.toInt_add, Int64.toInt_ofNat', Int.bmod_add_bmod]
    rfl
  rw [exhaustedBy, hsum, decide_eq_true_iff]

/-- The sum of a history length and a positive batch size stays as it is, or it turns negative. -/
theorem sum_bmod (hsize : p.size < 2 ^ 63) (hchildren : 1 ≤ children) :
    ((p.size : Int) + children.toInt).bmod (2 ^ 64) =
      if p.size + children.toInt < 2 ^ 63 then p.size + children.toInt
      else p.size + children.toInt - 2 ^ 64 := by
  have hpositive : 1 ≤ children.toInt := Int64.le_iff_toInt_le.mp hchildren
  have hbound := children.toInt_lt
  rw [Int.bmod_def]
  split_ifs <;> omega

/-- A space counts as exhausted by a batch that it has no room for, unless the sum is too large for
64-bit arithmetic. -/
theorem exhaustedBy_iff_lt (hsize : p.size < 2 ^ 63) (hchildren : 1 ≤ children) :
    p.exhaustedBy children = true ↔
      (p.volume : Int) < p.size + children.toInt ∧ p.size + children.toInt < 2 ^ 63 := by
  have hbound := children.toInt_lt
  rw [exhaustedBy_iff_bmod, sum_bmod hsize hchildren]
  split_ifs <;> omega

/-! ## The answer -/

theorem offspring_of_positive (hparents : 1 ≤ parents) (hchildren : 1 ≤ children) (src : Source) :
    p.offspring parents children src =
      if p.exhaustedBy children then some (.error (.exhausted p.size children p.volume), src)
      else if largestBatch < children then some (.error (.tooMany children), src)
      else p.breed parents.toInt.toNat children.toInt.toNat src := by
  have hsizes : ¬ (parents < 1 || children < 1) = true := by
    simpa [Int64.not_lt] using ⟨hparents, hchildren⟩
  rw [offspring_apply, if_neg hsizes]

/-- The answer that the space is exhausted is given by the guard and by nothing behind it. -/
theorem offspring_exhausted_iff_guard (hparents : 1 ≤ parents) (hchildren : 1 ≤ children) :
    (∃ recorded requested volume src', p.offspring parents children src =
        some (.error (.exhausted recorded requested volume), src')) ↔
      p.exhaustedBy children = true := by
  rw [offspring_of_positive hparents hchildren]
  constructor
  · rintro ⟨recorded, requested, volume, src', h⟩
    split_ifs at h with hguard hlarge
    · exact hguard
    · cases h
    · obtain ⟨bound, -, t, cause, t', -, hcause⟩ := breed_eq_error h
      cases hcause
  · intro hguard
    exact ⟨p.size, children, p.volume, src, if_pos hguard⟩

/-- Whatever a population has recorded, a batch of positive size is refused because the space is
exhausted exactly if the space has no room for it and 64-bit arithmetic can hold the sum of the
recorded and the requested individuals. A batch that makes the sum wrap around is refused as too large,
unless the history is about as long as machine integers can count. -/
theorem offspring_exhausted_iff (p : Population) (hsize : p.size < 2 ^ 63) (hparents : 1 ≤ parents)
    (hchildren : 1 ≤ children) (src : Source) :
    ((∃ recorded requested volume src', p.offspring parents children src =
        some (.error (.exhausted recorded requested volume), src')) ↔
      (p.volume : Int) < p.size + children.toInt ∧ p.size + children.toInt < 2 ^ 63) ∧
    (p.size + largestBatch.toInt < 2 ^ 63 → 2 ^ 63 ≤ p.size + children.toInt →
      p.offspring parents children src = some (.error (.tooMany children), src)) := by
  have hguard := exhaustedBy_iff_lt hsize hchildren
  refine ⟨(offspring_exhausted_iff_guard hparents hchildren).trans hguard, ?_⟩
  intro hshort hwraps
  have hroom : ¬ p.exhaustedBy children = true := by
    rw [hguard]
    omega
  have hlarge : largestBatch < children := by
    rw [Int64.lt_iff_toInt_lt]
    omega
  rw [offspring_of_positive hparents hchildren, if_neg hroom, if_pos hlarge]

/-- One of the two sides of the coin is recorded. -/
theorem coin_oneRecorded : ∃ p pool, Search coin 0.5 .maximize p pool ∧ p.size = 1 ∧ p.volume = 2 := by
  have hstart := Search.start
    (rfl : make coin 0.5 .maximize (.ofScript [0, 0] 0) = some (.ok _, _))
  have hbuild := hstart.build List.mem_cons_self
    (rfl : Individual.make coin 0.5 (.ofScript [0] 0) = some (.ok _, _))
  exact ⟨_, _, hbuild.append List.mem_cons_self (rfl : append _ _ 2.0 = some _), rfl, rfl⟩

/-- The coin has no room for two more sides, and is said to be exhausted. It has none for the largest
number of sides either, and that batch is said to be too large. -/
theorem offspring_exhausted_iff_coin : ∃ p pool, Search coin 0.5 .maximize p pool ∧ p.size = 1 ∧
    p.volume = 2 ∧ ∀ src,
      (∃ recorded requested volume src', p.offspring 1 2 src =
        some (.error (.exhausted recorded requested volume), src')) ∧
      p.offspring 1 9223372036854775807 src =
        some (.error (.tooMany 9223372036854775807), src) := by
  obtain ⟨p, pool, hp, hsize, hvolume⟩ := coin_oneRecorded
  have hshort : p.size < 2 ^ 63 := by simp [hsize]
  refine ⟨p, pool, hp, hsize, hvolume, fun src => ⟨?_, ?_⟩⟩
  · apply (offspring_exhausted_iff p hshort (by decide) (by decide) src).1.mpr
    simp [hsize, hvolume]
  · apply (offspring_exhausted_iff p hshort (by decide) (by decide) src).2
    · rw [hsize]
      decide
    · rw [hsize]
      decide

/-- A population is not always said to be exhausted by a batch that its space has no room for. -/
theorem not_exhausted_exact : ∃ p pool, Search coin 0.5 .maximize p pool ∧
    (p.volume : Int) < p.size + (9223372036854775807 : Int64).toInt ∧
    ∀ src recorded requested volume src', p.offspring 1 9223372036854775807 src ≠
      some (.error (.exhausted recorded requested volume), src') := by
  obtain ⟨p, pool, hp, hsize, hvolume⟩ := coin_oneRecorded
  refine ⟨p, pool, hp, by rw [hsize, hvolume]; decide, ?_⟩
  intro src recorded requested volume src' h
  have hguard := (offspring_exhausted_iff_guard (by decide) (by decide)).mp ⟨_, _, _, _, h⟩
  rw [exhaustedBy, hsize, hvolume] at hguard
  exact absurd hguard (by decide)

end Tuning.Population
