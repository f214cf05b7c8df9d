import Mathlib
import Tuning.Proofs.Finite.Primes

/-! # Trial division comes to an end

The loops of trial division, without a bound on their steps. The test of the outer loop multiplies the
divisor with itself in 64-bit arithmetic. When the square wraps around the test may hold for divisors
that are far too large, but such a divisor exceeds the square root of what is left, which is then prime
or one. There is a divisor at which the test cannot hold, so the loop ends there if not before. -/

namespace Tuning.Finite

/-! ## The loops as rules -/

/-- Dividing by `p` as long as a test holds gives some copies of `p` and leaves a number. -/
inductive Divides (test : Int64 → Prop) (p : Int64) : Int64 → List Int64 → Int64 → Prop where
  | stop {n : Int64} (h : ¬ test n) : Divides test p n [] n
  | step {n rest : Int64} {found : List Int64} (h : test n) :
      Divides test p (n / p) found rest → Divides test p n (p :: found) rest

/-- Trying `p`, `p + 2` and so on, as long as the square of the divisor is at most what is left. -/
inductive Trials : Int64 → Int64 → List Int64 → Int64 → Prop where
  | stop {p n : Int64} (h : ¬ p * p ≤ n) : Trials p n [] n
  | step {p n m rest : Int64} {found more : List Int64} (h : p * p ≤ n) :
      Divides (· % p = 0) p n found m → Trials (p + 2) m more rest →
      Trials p n (found ++ more) rest

/-- Trial division: the factors two, the odd divisors, and what is left if it is not one. -/
inductive TrialDivision (n : Int64) : List Int64 → Prop where
  | done {m rest : Int64} {twos odds : List Int64} :
      Divides (fun m => m % 2 = 0 ∧ 1 < m) 2 n twos m → Trials 3 m odds rest →
      TrialDivision n (twos ++ odds ++ if 1 < rest then [rest] else [])

theorem Divides.unique {test : Int64 → Prop} {p n rest rest' : Int64} {found found' : List Int64}
    (h : Divides test p n found rest) (h' : Divides test p n found' rest') :
    found = found' ∧ rest = rest' := by
  induction h generalizing found' with
  | stop htest =>
      cases h' with
      | stop => exact ⟨rfl, rfl⟩
      | step htest' => exact absurd htest' htest
  | step htest _ ih =>
      cases h' with
      | stop htest' => exact absurd htest htest'
      | step _ hrest =>
          obtain ⟨rfl, rfl⟩ := ih hrest
          exact ⟨rfl, rfl⟩

theorem Trials.unique {p n rest rest' : Int64} {found found' : List Int64}
    (h : Trials p n found rest) (h' : Trials p n found' rest') : found = found' ∧ rest = rest' := by
  induction h generalizing found' with
  | stop htest =>
      cases h' with
      | stop => exact ⟨rfl, rfl⟩
      | step htest' => exact absurd htest' htest
  | step htest hdivides _ ih =>
      cases h' with
      | stop htest' => exact absurd htest htest'
      | step _ hdivides' hrest =>
          obtain ⟨rfl, rfl⟩ := hdivides.unique hdivides'
          obtain ⟨rfl, rfl⟩ := ih hrest
          exact ⟨rfl, rfl⟩

theorem TrialDivision.unique {n : Int64} {factors factors' : List Int64}
    (h : TrialDivision n factors) (h' : TrialDivision n factors') : factors = factors' := by
  cases h with
  | done hhalve htrials =>
      cases h' with
      | done hhalve' htrials' =>
          obtain ⟨rfl, rfl⟩ := hhalve.unique hhalve'
          obtain ⟨rfl, rfl⟩ := htrials.unique htrials'
          rfl

/-! ## The loops end -/

theorem ofNat_mod_eq_zero_iff {a b : Nat} (ha : a < 2 ^ 63) (hb : b < 2 ^ 63) :
    Int64.ofNat a % Int64.ofNat b = 0 ↔ b ∣ a := by
  rw [← decide_eq_true_iff (p := b ∣ a), ← ofNat_mod_eq_zero ha hb, beq_iff_eq]

/-- A test that holds of the multiples of `p` divides out all powers of `p`. -/
theorem divides_pow_mul {test : Int64 → Prop} {p m k : Nat} (hp : 0 < p) (hp' : p < 2 ^ 63)
    (htest : ∀ n : Nat, 0 < n → n < 2 ^ 63 → (test (.ofNat n) ↔ p ∣ n)) (hm : 0 < m)
    (hndvd : ¬ p ∣ m) (hlt : p ^ k * m < 2 ^ 63) :
    Divides test (.ofNat p) (.ofNat (p ^ k * m)) (List.replicate k (.ofNat p)) (.ofNat m) := by
  induction k with
  | zero =>
      rw [Nat.pow_zero, Nat.one_mul] at hlt ⊢
      exact .stop ((htest m hm hlt).not.mpr hndvd)
  | succ k ih =>
      have hpow : p ^ (k + 1) * m = p * (p ^ k * m) := by rw [Nat.pow_succ', Nat.mul_assoc]
      have hrest : 0 < p ^ k * m := Nat.mul_pos (Nat.pow_pos hp) hm
      rw [hpow] at hlt ⊢
      have hle : p ^ k * m ≤ p * (p ^ k * m) := Nat.le_mul_of_pos_left _ hp
      apply Divides.step ((htest _ (Nat.mul_pos hp hrest) hlt).mpr (Nat.dvd_mul_right ..))
      rw [ofNat_div hlt hp', Nat.mul_div_cancel_left _ hp]
      exact ih (Nat.lt_of_le_of_lt hle hlt)

/-- A divisor whose square is `2 ^ 63 - 7` in 64-bit arithmetic. -/
def lastDivisor : Nat := 2759374635167858507

theorem lastDivisor_square :
    Int64.ofNat lastDivisor * Int64.ofNat lastDivisor = Int64.ofNat (2 ^ 63 - 7) := by
  decide

/-- The seven largest numbers have small factors, so none of them is left at the last divisor. -/
theorem lastDivisor_square_not_le {n : Nat} (hn' : n < 2 ^ 63) (hrough : Rough lastDivisor n) :
    ¬ Int64.ofNat lastDivisor * Int64.ofNat lastDivisor ≤ Int64.ofNat n := by
  rw [lastDivisor_square, Int64.ofNat_le_iff_le (by decide) hn']
  intro hle
  have hsmall : ∃ q, q.Prime ∧ q ∣ n ∧ q < 158 := by
    by_cases heven : 2 ∣ n
    · exact ⟨2, Nat.prime_two, heven, by decide⟩
    · obtain rfl | rfl | rfl | rfl :
          n = 2 ^ 63 - 7 ∨ n = 2 ^ 63 - 5 ∨ n = 2 ^ 63 - 3 ∨ n = 2 ^ 63 - 1 := by omega
      · exact ⟨157, by norm_num, by norm_num, by decide⟩
      · exact ⟨3, by norm_num, by norm_num, by decide⟩
      · exact ⟨5, by norm_num, by norm_num, by decide⟩
      · exact ⟨7, by norm_num, by norm_num, by decide⟩
  obtain ⟨q, hq, hdvd, hlt⟩ := hsmall
  have hlast := hrough q hq hdvd
  rw [lastDivisor] at hlast
  omega

theorem divideOut_of_not_dvd {p n : Int64} (h : ¬ (n % p == 0) = true) (fuel : Nat)
    (done : List Int64) : divideOut p fuel n done = (done, n) := by
  cases fuel with
  | zero => rfl
  | succ fuel => rw [divideOut, if_neg h]

/-- One round of trial division divides out the divisor, if it divides at all. -/
theorem tryOdd_succ (fuel : Nat) (p n : Int64) (done : List Int64) :
    tryOdd (fuel + 1) p n done =
      if p * p ≤ n then
        tryOdd fuel (p + 2) (divideOut p 64 n done).2 (divideOut p 64 n done).1
      else (done, n) := by
  rw [tryOdd]
  by_cases hdvd : (n % p == 0) = true
  · rw [if_pos hdvd]
  · rw [if_neg hdvd, divideOut_of_not_dvd hdvd]

/-- Trying divisors comes to an end at the last divisor if not before. The invariant is that what is
left has no prime factor below the divisor. -/
theorem tryOdd_trials {fuel p n : Nat} (hodd : Odd p) (hp : 3 ≤ p) (hlast : p ≤ lastDivisor)
    (hfuel : lastDivisor < p + 2 * fuel) (hn : 0 < n) (hn' : n < 2 ^ 63) (hrough : Rough p n)
    (done : List Int64) :
    ∃ found rest, Trials (.ofNat p) (.ofNat n) found rest ∧
      tryOdd fuel (.ofNat p) (.ofNat n) done = (found.reverse ++ done, rest) := by
  induction fuel generalizing p n done with
  | zero => omega
  | succ fuel ih =>
      rw [tryOdd_succ]
      by_cases htest : Int64.ofNat p * Int64.ofNat p ≤ Int64.ofNat n
      · have hlt : p < lastDivisor := by
          apply Nat.lt_of_le_of_ne hlast
          rintro rfl
          exact lastDivisor_square_not_le hn' hrough htest
        have hp' : p < 2 ^ 63 := Nat.lt_trans hlt (by decide)
        have hnext : p + 2 ≤ lastDivisor := by
          obtain ⟨i, hi⟩ := hodd
          obtain ⟨j, hj⟩ : Odd lastDivisor := by decide
          omega
        obtain ⟨k, m, rfl, hndvd, hdivide⟩ :=
          divideOut_ofNat (by omega) hp' hn hn' 64 (by omega) done
        have hm : 0 < m := Nat.pos_of_mul_pos_left hn
        have hmle : m ≤ p ^ k * m := Nat.le_mul_of_pos_left m (Nat.pow_pos (by omega))
        have hrough' := (hrough.of_dvd (Nat.dvd_mul_left m _)).next hodd hp hndvd
        have hdivides : Divides (· % Int64.ofNat p = 0) (.ofNat p) (.ofNat (p ^ k * m))
            (List.replicate k (.ofNat p)) (.ofNat m) :=
          divides_pow_mul (by omega) hp' (fun a _ ha' => ofNat_mod_eq_zero_iff ha' hp') hm hndvd hn'
        obtain ⟨found, rest, htrials, hrun⟩ := ih (hodd.add_even even_two) (by omega) hnext (by omega)
          hm (by omega) hrough' (List.replicate k (.ofNat p) ++ done)
        have hsum : Int64.ofNat p + 2 = Int64.ofNat (p + 2) := (Int64.ofNat_add p 2).symm
        refine ⟨List.replicate k (.ofNat p) ++ found, rest, .step htest hdivides (hsum ▸ htrials), ?_⟩
        rw [if_pos htest, hdivide, hsum, hrun]
        simp
      · exact ⟨[], _, .stop htest, if_neg htest⟩

/-- Trial division of a positive number comes to an end with its prime factors. -/
theorem trialDivision_ofNat {n : Nat} (hn : 0 < n) (hn' : n < 2 ^ 63) :
    TrialDivision (.ofNat n) (primeFactors (.ofNat n)) := by
  obtain ⟨k, m, hnm, hndvd, hhalve⟩ := halve_ofNat hn hn'
  subst hnm
  have hm : 0 < m := Nat.pos_of_mul_pos_left hn
  have hmle : m ≤ 2 ^ k * m := Nat.le_mul_of_pos_left m (Nat.two_pow_pos k)
  have htest : ∀ a : Nat, 0 < a → a < 2 ^ 63 →
      (Int64.ofNat a % 2 = 0 ∧ 1 < Int64.ofNat a ↔ 2 ∣ a) := by
    intro a ha ha'
    have heven : Int64.ofNat a % 2 = 0 ↔ 2 ∣ a :=
      ofNat_mod_eq_zero_iff ha' (show 2 < 2 ^ 63 by decide)
    have hone : 1 < Int64.ofNat a ↔ 1 < a := Int64.ofNat_lt_iff_lt (show 1 < 2 ^ 63 by decide) ha'
    rw [heven, hone]
    omega
  obtain ⟨odds, rest, htrials, hrun⟩ := tryOdd_trials (by decide) (Nat.le_refl 3)
    (by decide) (show lastDivisor < 3 + 2 * 2 ^ 62 by decide) hm (by omega) (Rough.three hndvd)
    (List.replicate k 2)
  have hfactors : primeFactors (.ofNat (2 ^ k * m)) =
      List.replicate k 2 ++ odds ++ if 1 < rest then [rest] else [] := by
    have hrun' : tryOdd (2 ^ 62) 3 (.ofNat m) (List.replicate k 2) =
      (odds.reverse ++ List.replicate k 2, rest) := hrun
    rw [primeFactors, hhalve]
    simp only [hrun']
    split <;> simp
  rw [hfactors]
  exact .done (divides_pow_mul (by decide) (by decide) htest hm hndvd hn') htrials

/-! ## What they find -/

/-- The primes of prime powers of increasing primes are the prime factors in increasing order. -/
theorem IsPrimePowers.spell_eq {low n : Nat} {powers : List (Nat × Nat)}
    (h : IsPrimePowers low n powers) : spell powers = n.primeFactorsList.map Int64.ofNat := by
  have hspell : spell powers =
      (powers.flatMap fun power => List.replicate power.2 power.1).map Int64.ofNat := by
    simp [spell, List.flatMap, List.map_flatten, Function.comp_def]
  have hprime : ∀ q ∈ powers.flatMap (fun power => List.replicate power.2 power.1), q.Prime := by
    intro q hq
    obtain ⟨power, hpower, hq⟩ := List.mem_flatMap.mp hq
    rw [List.eq_of_mem_replicate hq]
    exact h.prime power hpower
  have hprod : (powers.flatMap fun power => List.replicate power.2 power.1).prod = n := by
    rw [← h.prod_eq]
    simp [List.flatMap, List.prod_flatten, Function.comp_def]
  have hsorted : (powers.flatMap fun power => List.replicate power.2 power.1).Pairwise (· ≤ ·) := by
    rw [List.pairwise_flatMap]
    refine ⟨fun power _ => List.pairwise_replicate.mpr (.inr le_rfl), h.increasing.imp ?_⟩
    intro a b hab q hq q' hq'
    rw [List.eq_of_mem_replicate hq, List.eq_of_mem_replicate hq']
    exact hab.le
  rw [hspell, (Nat.primeFactorsList_unique hprod hprime).eq_of_pairwise' hsorted
    (Nat.primeFactorsList_sorted n).pairwise]

/-- Leaving out repetitions compares neighbours. -/
theorem eraseReps_cons_cons {α : Type} [BEq α] (a b : α) (l : List α) :
    (a :: b :: l).eraseReps = if a == b then (a :: l).eraseReps else a :: (b :: l).eraseReps := by
  have hloop : ∀ (a : α) (l done : List α), List.eraseRepsBy.loop (· == ·) a l done =
      done.reverse ++ (a :: l).eraseReps := by
    intro a l
    induction l generalizing a with
    | nil => simp [List.eraseReps, List.eraseRepsBy, List.eraseRepsBy.loop]
    | cons b l ih =>
        intro done
        simp only [List.eraseReps, List.eraseRepsBy, List.eraseRepsBy.loop]
        split <;> simp [ih]
  rw [List.eraseReps, List.eraseRepsBy, List.eraseRepsBy.loop]
  split <;> simp_all

theorem mem_eraseReps {α : Type} [BEq α] [LawfulBEq α] {l : List α} {a : α} :
    a ∈ l.eraseReps ↔ a ∈ l := by
  cases l with
  | nil => rfl
  | cons b l =>
      induction l generalizing b with
      | nil => rfl
      | cons c l ih =>
          rw [eraseReps_cons_cons]
          split
          · next hbc =>
              rw [ih, eq_of_beq hbc]
              simp
          · rw [List.mem_cons, ih, ← List.mem_cons]

/-- Without repetitions an increasing list is strictly increasing. -/
theorem pairwise_lt_eraseReps {l : List Int64} (h : l.Pairwise (· ≤ ·)) :
    l.eraseReps.Pairwise (· < ·) := by
  cases l with
  | nil => exact .nil
  | cons b l =>
      induction l generalizing b with
      | nil => exact List.pairwise_singleton ..
      | cons c l ih =>
          obtain ⟨hb, hc⟩ := List.pairwise_cons.mp h
          rw [eraseReps_cons_cons]
          split
          · next hbc =>
              rw [eq_of_beq hbc]
              exact ih c hc
          · next hbc =>
              have hlt : b < c := Int64.lt_of_le_of_ne (hb c List.mem_cons_self) (by simpa using hbc)
              refine List.pairwise_cons.mpr ⟨fun d hd => ?_, ih c hc⟩
              rcases List.mem_cons.mp (mem_eraseReps.mp hd) with rfl | hd
              · exact hlt
              · exact Int64.lt_of_lt_of_le hlt ((List.pairwise_cons.mp hc).1 d hd)

/-- The factors of a positive number that 64-bit trial division finds are its prime factors. -/
theorem primeFactors_eq_primeFactorsList {n : Nat} (hn : 0 < n) (hn' : n < 2 ^ 63) :
    primeFactors (.ofNat n) = n.primeFactorsList.map Int64.ofNat := by
  obtain ⟨powers, hpowers, hfactors⟩ := primeFactors_ofNat hn hn'
  rw [hfactors, hpowers.spell_eq]

/-- For every positive number, trial division in 64-bit arithmetic comes to an end, in one way only. It
finds primes in increasing order that multiply to the number. Without repetitions they are exactly the
primes that divide the number, in strictly increasing order. -/
theorem trialDivision_complete {n : Int64} (hn : 1 ≤ n) :
    (∀ factors, TrialDivision n factors ↔ factors = primeFactors n) ∧
    (primeFactors n).Pairwise (· ≤ ·) ∧
    (∀ a ∈ primeFactors n, ∃ q : Nat, q.Prime ∧ a.toInt = q) ∧
    ((primeFactors n).map Int64.toInt).prod = n.toInt ∧
    (distinctPrimes n).Pairwise (· < ·) ∧
    ∀ z : Int, z ∈ (distinctPrimes n).map Int64.toInt ↔
      ∃ q : Nat, q.Prime ∧ (q : Int) ∣ n.toInt ∧ z = q := by
  obtain ⟨m, hm, hm', rfl⟩ : ∃ m : Nat, 0 < m ∧ m < 2 ^ 63 ∧ n = Int64.ofNat m := by
    have hpositive : 1 ≤ n.toInt := Int64.le_iff_toInt_le.mp hn
    have hbound := n.toInt_lt
    refine ⟨n.toInt.toNat, by omega, by omega, ?_⟩
    rw [← Int64.toInt_inj, Int64.toInt_ofNat_of_lt (by omega)]
    omega
  have hfactors := primeFactors_eq_primeFactorsList hm hm'
  have hword : ∀ q ∈ m.primeFactorsList, q < 2 ^ 63 := fun q hq =>
    Nat.lt_of_le_of_lt (Nat.le_of_mem_primeFactorsList hq) hm'
  have hints : (primeFactors (.ofNat m)).map Int64.toInt = m.primeFactorsList.map Nat.cast := by
    rw [hfactors, List.map_map]
    exact List.map_congr_left fun q hq => Int64.toInt_ofNat_of_lt (hword q hq)
  have hsorted : (primeFactors (.ofNat m)).Pairwise (· ≤ ·) := by
    rw [hfactors, List.pairwise_map]
    apply (Nat.primeFactorsList_sorted m).pairwise.imp_of_mem
    intro a b ha hb hab
    exact (Int64.ofNat_le_iff_le (hword a ha) (hword b hb)).mpr hab
  refine ⟨?_, hsorted, ?_, ?_, pairwise_lt_eraseReps hsorted, ?_⟩
  · intro factors
    constructor
    · intro h
      exact h.unique (trialDivision_ofNat hm hm')
    · rintro rfl
      exact trialDivision_ofNat hm hm'
  · intro a ha
    rw [hfactors] at ha
    obtain ⟨q, hq, rfl⟩ := List.mem_map.mp ha
    exact ⟨q, Nat.prime_of_mem_primeFactorsList hq, Int64.toInt_ofNat_of_lt (hword q hq)⟩
  · rw [hints, ← Nat.cast_list_prod, Nat.prod_primeFactorsList (by omega),
      Int64.toInt_ofNat_of_lt hm']
  · intro z
    have hmem : z ∈ (distinctPrimes (.ofNat m)).map Int64.toInt ↔
        z ∈ (primeFactors (.ofNat m)).map Int64.toInt := by
      simp only [distinctPrimes, List.mem_map, mem_eraseReps]
    rw [hmem, hints, List.mem_map, Int64.toInt_ofNat_of_lt hm']
    simp only [Nat.mem_primeFactorsList (show m ≠ 0 by omega), Int.natCast_dvd_natCast]
    grind

/-- Trial division of a number for which the square of a divisor wraps around and passes the test. -/
theorem trialDivision_complete_wraps :
    (3037000501 : Int64) * 3037000501 ≤ 9223372036854775783 ∧
    (9223372036854775783 : Int64).toInt < 3037000501 * 3037000501 ∧
    TrialDivision 9223372036854775783 (primeFactors 9223372036854775783) ∧
    ((primeFactors 9223372036854775783).map Int64.toInt).prod = 9223372036854775783 := by
  obtain ⟨hends, -, -, hprod, -⟩ :=
    trialDivision_complete (show (1 : Int64) ≤ 9223372036854775783 by decide)
  exact ⟨by decide, by decide, (hends _).mpr rfl, hprod⟩

end Tuning.Finite
