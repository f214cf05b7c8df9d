import Mathlib
import Tuning.Finite.Primes

/-! # Trial division finds the prime powers

The invariant of trial division is that what is left has no prime factor below the divisor. The
square of the divisor may wrap around; then it exceeds what is left, whatever the comparison says, and
the loop goes on until the divisor is what is left. -/

namespace Tuning.Finite

/-! ## Small numbers as machine integers -/

section Words

variable {a b : Nat}

theorem ofNat_inj (ha : a < 2 ^ 63) (hb : b < 2 ^ 63) : Int64.ofNat a = Int64.ofNat b ↔ a = b := by
  rw [← Int64.toInt_inj, Int64.toInt_ofNat_of_lt ha, Int64.toInt_ofNat_of_lt hb, Int.natCast_inj]

theorem ofNat_mod (ha : a < 2 ^ 63) (hb : b < 2 ^ 63) :
    Int64.ofNat a % Int64.ofNat b = Int64.ofNat (a % b) := by
  have hmod : a % b < 2 ^ 63 := Nat.lt_of_le_of_lt (Nat.mod_le a b) ha
  rw [← Int64.toInt_inj, Int64.toInt_mod, Int64.toInt_ofNat_of_lt ha, Int64.toInt_ofNat_of_lt hb,
    Int64.toInt_ofNat_of_lt hmod, Int.ofNat_tmod]

theorem ofNat_div (ha : a < 2 ^ 63) (hb : b < 2 ^ 63) :
    Int64.ofNat a / Int64.ofNat b = Int64.ofNat (a / b) := by
  have hdiv : a / b < 2 ^ 63 := Nat.lt_of_le_of_lt (Nat.div_le_self a b) ha
  have hmin : Int64.ofNat a ≠ Int64.minValue := by
    rw [Ne, ← Int64.toInt_inj, Int64.toInt_ofNat_of_lt ha, Int64.toInt_minValue]
    omega
  rw [← Int64.toInt_inj, Int64.toInt_div_of_ne_left _ _ hmin, Int64.toInt_ofNat_of_lt ha,
    Int64.toInt_ofNat_of_lt hb, Int64.toInt_ofNat_of_lt hdiv, Int.ofNat_tdiv]

theorem ofNat_mod_eq_zero (ha : a < 2 ^ 63) (hb : b < 2 ^ 63) :
    (Int64.ofNat a % Int64.ofNat b == 0) = decide (b ∣ a) := by
  have hmod : a % b < 2 ^ 63 := Nat.lt_of_le_of_lt (Nat.mod_le a b) ha
  rw [ofNat_mod ha hb, Bool.eq_iff_iff, beq_iff_eq, decide_eq_true_iff]
  exact (ofNat_inj hmod (by decide)).trans (Nat.dvd_iff_mod_eq_zero ..).symm

end Words

/-! ## Lists of prime powers -/

/-- Powers of increasing primes from `low` on that multiply to a number. -/
structure IsPrimePowers (low n : Nat) (powers : List (Nat × Nat)) : Prop where
  prime : ∀ power ∈ powers, power.1.Prime
  low_le : ∀ power ∈ powers, low ≤ power.1
  positive : ∀ power ∈ powers, 0 < power.2
  increasing : powers.Pairwise (·.1 < ·.1)
  prod_eq : (powers.map fun power => power.1 ^ power.2).prod = n

/-- The primes of prime powers, each as often as its multiplicity says. -/
def spell (powers : List (Nat × Nat)) : List Int64 :=
  (powers.map fun power => List.replicate power.2 (Int64.ofNat power.1)).flatten

/-- No prime below `low` divides a number. -/
def Rough (low n : Nat) : Prop :=
  ∀ q, q.Prime → q ∣ n → low ≤ q

theorem IsPrimePowers.one (low : Nat) : IsPrimePowers low 1 [] := by
  constructor <;> simp

theorem IsPrimePowers.of_prime {low p : Nat} (hp : p.Prime) (hlow : low ≤ p) :
    IsPrimePowers low p [(p, 1)] := by
  constructor <;> simp [hp, hlow]

theorem IsPrimePowers.cons {p k n : Nat} {powers : List (Nat × Nat)} (hp : p.Prime) (hk : 0 < k)
    (h : IsPrimePowers (p + 1) n powers) : IsPrimePowers p (p ^ k * n) ((p, k) :: powers) where
  prime := List.forall_mem_cons.mpr ⟨hp, h.prime⟩
  low_le := List.forall_mem_cons.mpr
    ⟨Nat.le_refl p, fun power hpower => Nat.le_of_succ_le (h.low_le power hpower)⟩
  positive := List.forall_mem_cons.mpr ⟨hk, h.positive⟩
  increasing := List.pairwise_cons.mpr ⟨h.low_le, h.increasing⟩
  prod_eq := by rw [List.map_cons, List.prod_cons, h.prod_eq]

theorem IsPrimePowers.mono {low low' n : Nat} {powers : List (Nat × Nat)} (hlow : low' ≤ low)
    (h : IsPrimePowers low n powers) : IsPrimePowers low' n powers where
  prime := h.prime
  low_le power hpower := hlow.trans (h.low_le power hpower)
  positive := h.positive
  increasing := h.increasing
  prod_eq := h.prod_eq

/-- The first prime does not divide what the others multiply to. -/
theorem IsPrimePowers.of_cons {low n p k : Nat} {powers : List (Nat × Nat)}
    (h : IsPrimePowers low n ((p, k) :: powers)) :
    ∃ m, n = p ^ k * m ∧ ¬ p ∣ m ∧ IsPrimePowers (p + 1) m powers := by
  obtain ⟨hprime, hprimes⟩ := List.forall_mem_cons.mp h.prime
  obtain ⟨hlow, hincreasing⟩ := List.pairwise_cons.mp h.increasing
  refine ⟨_, h.prod_eq.symm.trans (List.prod_cons ..), ?_, hprimes, hlow,
    (List.forall_mem_cons.mp h.positive).2, hincreasing, rfl⟩
  intro hdvd
  obtain ⟨q, hq, hpq⟩ := (Prime.dvd_prod_iff hprime.prime).mp hdvd
  obtain ⟨power, hpower, rfl⟩ := List.mem_map.mp hq
  have heq := (Nat.prime_dvd_prime_iff_eq hprime (hprimes power hpower)).mp
    (hprime.dvd_of_dvd_pow hpq)
  exact absurd (hlow power hpower) (by omega)

/-! ## The loops -/

/-- Dividing out removes all of a divisor. -/
theorem divideOut_ofNat {p n : Nat} (hp : 2 ≤ p) (hp' : p < 2 ^ 63) (hn : 0 < n) (hn' : n < 2 ^ 63)
    (fuel : Nat) (hfuel : n < 2 ^ fuel) (done : List Int64) :
    ∃ k m, n = p ^ k * m ∧ ¬ p ∣ m ∧
      divideOut (.ofNat p) fuel (.ofNat n) done =
        (List.replicate k (.ofNat p) ++ done, .ofNat m) := by
  induction fuel generalizing n done with
  | zero => omega
  | succ fuel ih =>
      by_cases hdvd : p ∣ n
      · obtain ⟨rest, rfl⟩ := hdvd
        have hrest : 0 < rest := Nat.pos_of_mul_pos_left hn
        have hhalf : 2 * rest ≤ p * rest := Nat.mul_le_mul_right rest hp
        obtain ⟨k, m, hm, hndvd, hdivide⟩ :=
          ih hrest (by omega) (by omega) (.ofNat p :: done)
        refine ⟨k + 1, m, ?_, hndvd, ?_⟩
        · rw [Nat.pow_succ', Nat.mul_assoc, ← hm]
        · rw [divideOut, ofNat_mod_eq_zero hn' hp', if_pos (by simp), ofNat_div hn' hp',
            Nat.mul_div_cancel_left _ (by omega), hdivide, List.replicate_succ',
            List.append_assoc, List.singleton_append]
      · refine ⟨0, n, by simp, hdvd, ?_⟩
        rw [divideOut, ofNat_mod_eq_zero hn' hp', if_neg (by simpa using hdvd)]
        rfl

/-- What is left over goes behind the primes that were found. -/
def collect (found : List Int64 × Int64) : List Int64 :=
  (if 1 < found.2 then found.2 :: found.1 else found.1).reverse

theorem Rough.next {p n : Nat} (hodd : Odd p) (hp : 3 ≤ p) (h : Rough p n) (hndvd : ¬ p ∣ n) :
    Rough (p + 2) n := by
  intro q hq hdvd
  have hle := h q hq hdvd
  have hne : q ≠ p := by
    rintro rfl
    exact hndvd hdvd
  have hne' : q ≠ p + 1 := by
    rintro rfl
    have htwo := (hq.even_iff).mp hodd.add_one
    omega
  omega

theorem Rough.of_dvd {p m n : Nat} (h : Rough p n) (hdvd : m ∣ n) : Rough p m :=
  fun q hq hq' => h q hq (hq'.trans hdvd)

/-- A divisor without smaller prime factors is prime. -/
theorem Rough.prime {p n : Nat} (hp : 2 ≤ p) (h : Rough p n) (hdvd : p ∣ n) : p.Prime := by
  have hmin := Nat.minFac_prime (show p ≠ 1 by omega)
  have hle := h _ hmin ((Nat.minFac_dvd p).trans hdvd)
  rwa [Nat.le_antisymm (Nat.minFac_le (by omega)) hle] at hmin

/-- When nothing is left, the loop finds nothing, also when the divisor wraps around at its end. -/
theorem tryOdd_one {fuel p : Nat} (hp : 3 ≤ p) (hfuel : p + 2 * fuel = 2 ^ 63 + 3)
    (done : List Int64) : tryOdd fuel (.ofNat p) 1 done = (done, 1) := by
  induction fuel generalizing p with
  | zero => rfl
  | succ fuel ih =>
      have hmod : ((1 : Int64) % Int64.ofNat p == 0) = false := by
        rw [beq_eq_false_iff_ne, Ne, ← Int64.toInt_inj, Int64.toInt_mod, Int64.toInt_ofNat']
        intro hzero
        have hdvd := Int.natAbs_dvd_natAbs.mpr (Int.dvd_of_tmod_eq_zero hzero)
        have hunit := Nat.dvd_one.mp hdvd
        rw [Int.bmod_def, show Int64.size = 2 ^ 64 from rfl] at hunit
        split at hunit <;> omega
      have hnext : tryOdd fuel (Int64.ofNat p + 2) 1 done = (done, 1) := by
        rw [← ih (show 3 ≤ p + 2 by omega) (by omega), Int64.ofNat_add]
        rfl
      rw [tryOdd, hmod, if_neg Bool.false_ne_true, hnext, ite_self]

/-- The loop finds the prime powers of what is left. -/
theorem tryOdd_ofNat {fuel p n : Nat} (hodd : Odd p) (hp : 3 ≤ p)
    (hfuel : p + 2 * fuel = 2 ^ 63 + 3) (hn : 0 < n) (hn' : n < 2 ^ 63) (hrough : Rough p n)
    (done : List Int64) :
    ∃ powers, IsPrimePowers p n powers ∧
      collect (tryOdd fuel (.ofNat p) (.ofNat n) done) = done.reverse ++ spell powers := by
  induction fuel generalizing p n done with
  | zero =>
      -- every number below the divisor has been tried
      obtain rfl : n = 1 := by
        by_contra hone
        have hle := hrough _ (Nat.minFac_prime hone) (Nat.minFac_dvd n)
        have := Nat.minFac_le hn
        omega
      exact ⟨[], .one p, by simp [collect, tryOdd, spell]⟩
  | succ fuel ih =>
      by_cases hone : n = 1
      · subst hone
        refine ⟨[], .one p, ?_⟩
        rw [show Int64.ofNat 1 = 1 from rfl, tryOdd_one hp hfuel]
        simp [collect, spell]
      have hple : p ≤ n.minFac := hrough _ (Nat.minFac_prime hone) (Nat.minFac_dvd n)
      have hp' : p < 2 ^ 63 := Nat.lt_of_le_of_lt (hple.trans (Nat.minFac_le hn)) hn'
      have hnext : Int64.ofNat p + 2 = Int64.ofNat (p + 2) := (Int64.ofNat_add p 2).symm
      have hodd' : Odd (p + 2) := hodd.add_even even_two
      by_cases hgo : Int64.ofNat p * Int64.ofNat p ≤ Int64.ofNat n
      · rw [tryOdd, if_pos hgo, ofNat_mod_eq_zero hn' hp', hnext]
        by_cases hdvd : p ∣ n
        · obtain ⟨k, m, rfl, hndvd, hdivide⟩ :=
            divideOut_ofNat (by omega) hp' hn hn' 64 (by omega) done
          have hprime := hrough.prime (by omega) hdvd
          have hk : 0 < k := by
            rcases Nat.eq_zero_or_pos k with rfl | hk
            · exact absurd hdvd (by simpa using hndvd)
            · exact hk
          have hmle : m ≤ p ^ k * m := Nat.le_mul_of_pos_left m (Nat.pow_pos hprime.pos)
          have hrough' := (hrough.of_dvd (Nat.dvd_mul_left m _)).next hodd hp hndvd
          obtain ⟨powers, hpowers, hcollect⟩ := ih hodd' (by omega) (by omega)
            (Nat.pos_of_mul_pos_left hn) (by omega) hrough' (List.replicate k (.ofNat p) ++ done)
          refine ⟨(p, k) :: powers, .cons hprime hk (hpowers.mono (by omega)), ?_⟩
          rw [if_pos (by simpa using hdvd), hdivide]
          simpa [spell] using hcollect
        · rw [if_neg (by simpa using hdvd)]
          obtain ⟨powers, hpowers, hcollect⟩ :=
            ih hodd' (by omega) (by omega) hn hn' (hrough.next hodd hp hdvd) done
          exact ⟨powers, hpowers.mono (by omega), hcollect⟩
      · -- a square that wraps around exceeds what is left, so the comparison is right in any case
        have hprime : n.Prime := by
          by_contra hnot
          have hsquare : p * p ≤ n := calc
            p * p ≤ n.minFac * n.minFac := Nat.mul_le_mul hple hple
            _ = n.minFac ^ 2 := (Nat.pow_two _).symm
            _ ≤ n := Nat.minFac_sq_le_self hn hnot
          rw [← Int64.ofNat_mul, Int64.ofNat_le_iff_le (by omega) hn'] at hgo
          exact hgo hsquare
        refine ⟨[(n, 1)], .of_prime hprime (hple.trans (Nat.minFac_le hn)), ?_⟩
        have hlt : 1 < Int64.ofNat n :=
          (Int64.ofNat_lt_iff_lt (show 1 < 2 ^ 63 by decide) hn').mpr hprime.one_lt
        rw [tryOdd, if_neg hgo, collect, if_pos hlt]
        simp [spell]

/-! ## The whole computation -/

theorem Rough.three {n : Nat} (hndvd : ¬ 2 ∣ n) : Rough 3 n := by
  intro q hq hdvd
  have hne : q ≠ 2 := by
    rintro rfl
    exact hndvd hdvd
  have := hq.two_le
  omega

/-- The factors two go first, if there are any. -/
theorem halve_ofNat {n : Nat} (hn : 0 < n) (hn' : n < 2 ^ 63) :
    ∃ k m, n = 2 ^ k * m ∧ ¬ 2 ∣ m ∧
      (if 1 < Int64.ofNat n then divideOut 2 64 (.ofNat n) [] else ([], .ofNat n)) =
        (List.replicate k 2, .ofNat m) := by
  by_cases hone : n = 1
  · exact ⟨0, 1, by simp [hone], by decide, by rw [hone]; rfl⟩
  · obtain ⟨k, m, hnm, hndvd, hdivide⟩ :=
      divideOut_ofNat (Nat.le_refl 2) (by decide) hn hn' 64 (by omega) []
    have hlt : 1 < Int64.ofNat n :=
      (Int64.ofNat_lt_iff_lt (show 1 < 2 ^ 63 by decide) hn').mpr (by omega)
    exact ⟨k, m, hnm, hndvd, by rw [if_pos hlt]; simpa using hdivide⟩

/-- The prime factors of a positive number are found, in increasing order. -/
theorem primeFactors_ofNat {n : Nat} (hn : 0 < n) (hn' : n < 2 ^ 63) :
    ∃ powers, IsPrimePowers 2 n powers ∧ primeFactors (.ofNat n) = spell powers := by
  obtain ⟨k, m, hnm, hndvd, hhalve⟩ := halve_ofNat hn hn'
  subst hnm
  have hmle : m ≤ 2 ^ k * m := Nat.le_mul_of_pos_left m (Nat.two_pow_pos k)
  obtain ⟨powers, hpowers, hcollect⟩ := tryOdd_ofNat (by decide) (Nat.le_refl 3)
    (show 3 + 2 * 2 ^ 62 = 2 ^ 63 + 3 by decide) (Nat.pos_of_mul_pos_left hn) (by omega)
    (Rough.three hndvd) (List.replicate k 2)
  have hfactors : primeFactors (.ofNat (2 ^ k * m)) = List.replicate k 2 ++ spell powers := by
    rw [← List.reverse_replicate, ← hcollect, primeFactors, hhalve]
    rfl
  rcases Nat.eq_zero_or_pos k with rfl | hk
  · exact ⟨powers, by simpa using hpowers.mono (by omega), by simpa using hfactors⟩
  · exact ⟨(2, k) :: powers, .cons Nat.prime_two hk hpowers, hfactors⟩

theorem IsPrimePowers.le {low n : Nat} {powers : List (Nat × Nat)} (h : IsPrimePowers low n powers)
    (hn : 0 < n) {power : Nat × Nat} (hpower : power ∈ powers) : power.1 ≤ n := by
  have hdvd : power.1 ^ power.2 ∣ n :=
    h.prod_eq ▸ List.dvd_prod (List.mem_map_of_mem hpower)
  exact Nat.le_of_dvd hn ((dvd_pow_self _ (Nat.ne_of_gt (h.positive power hpower))).trans hdvd)

/-- The prime powers of a positive number are found. -/
theorem primePowers_ofNat {n : Nat} (hn : 0 < n) (hn' : n < 2 ^ 63) :
    ∃ powers, IsPrimePowers 2 n powers ∧
      primePowers (.ofNat n) = powers.map fun power => (.ofNat power.1, power.2) := by
  obtain ⟨powers, hpowers, hfactors⟩ := primeFactors_ofNat hn hn'
  refine ⟨powers, hpowers, ?_⟩
  have hruns : (spell powers).splitBy (· == ·) =
      powers.map fun power => List.replicate power.2 (Int64.ofNat power.1) := by
    refine List.splitBy_flatten ?_ ?_ ?_
    · intro hnil
      obtain ⟨power, hpower, hempty⟩ := List.mem_map.mp hnil
      have := hpowers.positive power hpower
      simp only [List.replicate_eq_nil_iff] at hempty
      omega
    · intro run hrun
      obtain ⟨power, -, rfl⟩ := List.mem_map.mp hrun
      exact (List.pairwise_replicate.mpr (.inr (beq_self_eq_true _))).isChain
    · rw [List.isChain_map]
      refine (hpowers.increasing.imp_of_mem fun {a b} ha hb hab => ?_).isChain
      refine ⟨?_, ?_, ?_⟩
      · simpa using Nat.ne_of_gt (hpowers.positive a ha)
      · simpa using Nat.ne_of_gt (hpowers.positive b hb)
      · have ha' := Nat.lt_of_le_of_lt (hpowers.le hn ha) hn'
        have hb' := Nat.lt_of_le_of_lt (hpowers.le hn hb) hn'
        rw [List.getLast_replicate, List.head_replicate, beq_eq_false_iff_ne, Ne, ofNat_inj ha' hb']
        omega
  rw [primePowers, hfactors, hruns, List.filterMap_map, ← List.filterMap_eq_map']
  refine List.filterMap_congr fun power hpower => ?_
  have hhead : (List.replicate power.2 (Int64.ofNat power.1)).head? = some (.ofNat power.1) := by
    rw [List.head?_replicate, if_neg (Nat.ne_of_gt (hpowers.positive power hpower))]
  simp [hhead]

end Tuning.Finite
