import Mathlib
import Tuning.Proofs.Decimal.Numeral

/-! # Rounding intervals

Every positive rational lies in the rounding interval of at most one number of a binary format. The
decimal that is written for a number lies in the interval of the number, so the number can be told from
the decimal. -/

namespace Tuning

/-! ## Numbers of a format -/

namespace Binary

/-- The finite numbers of a format with `bits` fraction bits and a least exponent. -/
structure Canonical (bits : Nat) (least : Int) (mantissa : Nat) (exponent : Int) (narrow : Bool) :
    Prop where
  mantissa_lt : mantissa < 2 ^ (bits + 1)
  least_le : least ≤ exponent
  /-- Only numbers of the least exponent have a leading zero. -/
  normal : least < exponent → 2 ^ bits ≤ mantissa
  narrow_iff : narrow = true ↔ mantissa = 2 ^ bits ∧ least < exponent

/-- A rational lies between the halves of the gaps around `mantissa * 2 ^ exponent`, ends included if
the mantissa is even. -/
structure Rounds (mantissa : Nat) (exponent : Int) (narrow : Bool) (q : ℚ) : Prop where
  low_le : (4 * mantissa - if narrow then 1 else 2) * 2 ^ (exponent - 2) ≤ q
  le_high : q ≤ (4 * mantissa + 2) * 2 ^ (exponent - 2)
  odd : mantissa % 2 = 1 →
    (4 * mantissa - if narrow then 1 else 2) * 2 ^ (exponent - 2) < q ∧
      q < (4 * mantissa + 2) * 2 ^ (exponent - 2)

/-- A unit of the last place has four quarters. -/
theorem pow_eq_quarters (e : Int) : (2 : ℚ) ^ e = 4 * 2 ^ (e - 2) := by
  rw [zpow_sub₀ (by norm_num)]
  norm_num
  ring

theorem rounds_self (m : Nat) (e : Int) (narrow : Bool) : Rounds m e narrow (m * 2 ^ e) := by
  have hunit : (0 : ℚ) < 2 ^ (e - 2) := zpow_pos (by norm_num) _
  have hvalue : (m : ℚ) * 2 ^ e = 4 * m * 2 ^ (e - 2) := by
    rw [pow_eq_quarters, mul_left_comm, mul_assoc]
  have hlow : (4 * (m : ℚ) - if narrow then 1 else 2) * 2 ^ (e - 2) < m * 2 ^ e := by
    rw [hvalue]
    gcongr
    split <;> linarith
  have hhigh : (m : ℚ) * 2 ^ e < (4 * m + 2) * 2 ^ (e - 2) := by
    rw [hvalue]
    gcongr
    linarith
  exact ⟨hlow.le, hhigh.le, fun _ => ⟨hlow, hhigh⟩⟩

variable {bits : Nat} {least : Int} {m m' : Nat} {e e' : Int} {narrow narrow' : Bool} {q : ℚ}

/-- The interval of a number ends before that of a number with a greater exponent begins. -/
theorem Rounds.not_exponent_lt (h : Canonical bits least m e narrow)
    (h' : Canonical bits least m' e' narrow') (hq : Rounds m e narrow q)
    (hq' : Rounds m' e' narrow' q) : ¬e < e' := by
  intro hlt
  have hm : (m : ℚ) + 1 ≤ 2 * 2 ^ bits := by
    have := h.mantissa_lt
    rw [pow_succ] at this
    exact_mod_cast show m + 1 ≤ 2 * 2 ^ bits by omega
  have hm' : 4 * (2 : ℚ) ^ bits - 1 ≤ 4 * m' - if narrow' then 1 else 2 := by
    have hlow := h'.normal (h.least_le.trans_lt hlt)
    rcases hlow.eq_or_lt with heq | hlow
    · rw [if_pos (h'.narrow_iff.mpr ⟨heq.symm, h.least_le.trans_lt hlt⟩), ← heq]
      push_cast
      exact le_rfl
    · have hlow' : (2 : ℚ) ^ bits + 1 ≤ m' := by exact_mod_cast hlow
      split <;> linarith
  have hunit : (0 : ℚ) < 2 ^ (e - 2) := zpow_pos (by norm_num) _
  have hunits : 2 * (2 : ℚ) ^ (e - 2) ≤ 2 ^ (e' - 2) := by
    rw [← zpow_one_add₀ (by norm_num)]
    exact zpow_le_zpow_right₀ (by norm_num) (by omega)
  have hbits : (1 : ℚ) ≤ 2 ^ bits := one_le_pow₀ (by norm_num)
  -- both ends are the middle between two binades, which belongs to the upper one
  have hmid : (8 * (2 : ℚ) ^ bits - 2) * 2 ^ (e - 2) ≤ q :=
    calc (8 * (2 : ℚ) ^ bits - 2) * 2 ^ (e - 2)
        = (4 * 2 ^ bits - 1) * (2 * 2 ^ (e - 2)) := by ring
      _ ≤ (4 * m' - if narrow' then 1 else 2) * 2 ^ (e' - 2) := by
          apply mul_le_mul hm' hunits <;> [positivity; linarith]
      _ ≤ q := hq'.low_le
  have hend : (4 * (m : ℚ) + 2) * 2 ^ (e - 2) ≤ (8 * 2 ^ bits - 2) * 2 ^ (e - 2) := by
    gcongr
    linarith
  have heq : (m : ℚ) + 1 = 2 * 2 ^ bits := by
    have hle := (hmid.trans hq.le_high)
    have := le_of_mul_le_mul_right hle hunit
    linarith
  have hodd : m % 2 = 1 := by
    have : m + 1 = 2 * 2 ^ bits := by exact_mod_cast heq
    omega
  exact absurd (hq.odd hodd).2 (not_lt.mpr (hend.trans hmid))

/-- The interval of a number ends before that of the next number begins. -/
theorem Rounds.not_mantissa_lt (hq : Rounds m e narrow q) (hq' : Rounds m' e narrow' q) :
    ¬m < m' := by
  intro hlt
  have hunit : (0 : ℚ) < 2 ^ (e - 2) := zpow_pos (by norm_num) _
  have hgap : 4 * (m : ℚ) + 2 ≤ 4 * m' - 2 := by
    have : (m : ℚ) + 1 ≤ m' := by exact_mod_cast hlt
    linarith
  have hlow : (4 * (m' : ℚ) - 2) * 2 ^ (e - 2) ≤
      (4 * m' - if narrow' then 1 else 2) * 2 ^ (e - 2) := by
    gcongr
    split <;> norm_num
  have hmid : (4 * (m : ℚ) + 2) * 2 ^ (e - 2) ≤ (4 * m' - 2) * 2 ^ (e - 2) := by gcongr
  -- the ends meet only if the mantissas are neighbours, and then one of them is odd
  have heq : (m' : ℚ) = m + 1 := by
    have hle := le_of_mul_le_mul_right ((hlow.trans hq'.low_le).trans hq.le_high) hunit
    have : (m : ℚ) + 1 ≤ m' := by exact_mod_cast hlt
    linarith
  have heq : m' = m + 1 := by exact_mod_cast heq
  rcases Nat.mod_two_eq_zero_or_one m with heven | hodd
  · have := (hq'.odd (by omega)).1
    have := hq.le_high
    linarith
  · have := (hq.odd hodd).2
    have := hq'.low_le
    linarith

/-- A rational lies in the rounding interval of one number of a format. -/
theorem Rounds.unique (h : Canonical bits least m e narrow)
    (h' : Canonical bits least m' e' narrow') (hq : Rounds m e narrow q)
    (hq' : Rounds m' e' narrow' q) : m = m' ∧ e = e' ∧ narrow = narrow' := by
  have hexp : e = e' :=
    le_antisymm (not_lt.mp (hq'.not_exponent_lt h' h hq)) (not_lt.mp (hq.not_exponent_lt h h' hq'))
  subst hexp
  have hmant : m = m' :=
    le_antisymm (not_lt.mp (hq'.not_mantissa_lt hq)) (not_lt.mp (hq.not_mantissa_lt hq'))
  subst hmant
  refine ⟨rfl, rfl, ?_⟩
  rw [Bool.eq_iff_iff, h.narrow_iff, h'.narrow_iff]

end Binary

/-! ## Normal decimals -/

namespace Decimal

theorem value_strip (fuel : Nat) (d : Decimal) : (d.strip fuel).value = d.value := by
  induction fuel generalizing d with
  | zero => rfl
  | succ fuel ih =>
      rw [strip]
      split
      · next hten =>
          obtain ⟨k, hk⟩ := Nat.dvd_of_mod_eq_zero hten
          rw [ih, value, value, hk, Nat.mul_div_cancel_left _ (by decide), zpow_add_one₀ (by norm_num)]
          push_cast
          ring
      · rfl

theorem coefficient_strip_pos (fuel : Nat) {d : Decimal} (h : 0 < d.coefficient) :
    0 < (d.strip fuel).coefficient := by
  induction fuel generalizing d with
  | zero => exact h
  | succ fuel ih =>
      rw [strip]
      split
      · exact ih (d := ⟨d.coefficient / 10, d.scale + 1⟩) (show 0 < d.coefficient / 10 by omega)
      · exact h

theorem value_normal (d : Decimal) : d.normal.value = d.value := by
  unfold normal
  split
  · next h => simp [value, h]
  · exact d.value_strip _

theorem normal_pos_or_zero (d : Decimal) : 0 < d.normal.coefficient ∨ d.normal.scale = 0 := by
  unfold normal
  split
  · exact .inr rfl
  · exact .inl (coefficient_strip_pos _ (by omega))

/-! ## The shortest decimal -/

theorem zpow_eq_div (b : ℚ) (k : Int) : b ^ k = b ^ k.toNat / b ^ (-k).toNat := by
  rcases le_total 0 k with h | h
  · have hneg : (-k).toNat = 0 := by omega
    rw [hneg, pow_zero, div_one, ← zpow_natCast, Int.toNat_of_nonneg h]
  · have hpos : k.toNat = 0 := by omega
    rw [hpos, pow_zero, one_div, ← zpow_natCast, Int.toNat_of_nonneg (by omega), zpow_neg, inv_inv]

namespace Interval

theorem holds_of_nearest? {i : Interval} {n : Nat} (h : i.nearest? = some n) :
    i.holds n = true := by
  unfold nearest? at h
  dsimp only at h
  cases hbelow : i.holds (i.value / i.denominator) <;>
    cases habove : i.holds (i.value / i.denominator + 1) <;>
    simp only [hbelow, habove] at h
  · cases h
  · cases h
    exact habove
  · cases h
    exact hbelow
  · split_ifs at h
    · cases h
      exact hbelow
    · cases h
      exact habove
    · cases h
      rcases Nat.mod_two_eq_zero_or_one (i.value / i.denominator) with hmod | hmod <;> rw [hmod]
      · exact hbelow
      · exact habove

/-- Fractions over a common denominator compare like their numerators. -/
theorem scaled_le_iff (x y : Nat) (e power : Int) :
    (x * 2 ^ (e - 2).toNat * 10 ^ (-power).toNat ≤ y * (2 ^ (2 - e).toNat * 10 ^ power.toNat) ↔
      (x : ℚ) * 2 ^ (e - 2) ≤ y * 10 ^ power) ∧
    (y * (2 ^ (2 - e).toNat * 10 ^ power.toNat) ≤ x * 2 ^ (e - 2).toNat * 10 ^ (-power).toNat ↔
      (y : ℚ) * 10 ^ power ≤ x * 2 ^ (e - 2)) := by
  have hbin : (0 : ℚ) < 2 ^ (2 - e).toNat := by positivity
  have hdec : (0 : ℚ) < 10 ^ (-power).toNat := by positivity
  rw [zpow_eq_div 2, zpow_eq_div 10, neg_sub, ← mul_div_assoc, ← mul_div_assoc,
    div_le_div_iff₀ hbin hdec, div_le_div_iff₀ hdec hbin, ← Nat.cast_le (α := ℚ),
    ← Nat.cast_le (α := ℚ)]
  push_cast
  constructor <;> constructor <;> intro h <;> linarith

/-- Whole numbers in the interval in units of a power of ten are the decimals of that power that round
to the number. -/
theorem holds_iff_rounds {m : Nat} {e power : Int} {narrow : Bool} {n : Nat} (hm : 0 < m) :
    ((around m e narrow).inUnits power).holds n = true ↔
      Binary.Rounds m e narrow (n * 10 ^ power) := by
  have hlow : ((4 * m - if narrow then 1 else 2 : Nat) : ℚ) = 4 * m - if narrow then 1 else 2 := by
    cases narrow <;> simp <;> rw [Nat.cast_sub (by omega)] <;> push_cast <;> rfl
  have hhigh : ((4 * m + 2 : Nat) : ℚ) = 4 * m + 2 := by push_cast; rfl
  obtain ⟨hl, hl'⟩ := scaled_le_iff (4 * m - if narrow then 1 else 2) n e power
  obtain ⟨hh', hh⟩ := scaled_le_iff (4 * m + 2) n e power
  rw [hlow] at hl hl'
  rw [hhigh] at hh hh'
  unfold holds inUnits around
  dsimp only
  by_cases heven : m % 2 = 0
  · simp only [heven, decide_true, ↓reduceIte, Bool.and_eq_true, decide_eq_true_eq, hl, hh]
    exact ⟨fun h => ⟨h.1, h.2, fun hodd => by omega⟩, fun h => ⟨h.low_le, h.le_high⟩⟩
  · simp only [heven, decide_false, Bool.false_eq_true, ↓reduceIte, Bool.and_eq_true,
      decide_eq_true_eq, ← not_le, hl', hh']
    exact ⟨fun h => ⟨(not_le.mp h.1).le, (not_le.mp h.2).le, fun _ => h.imp not_le.mp not_le.mp⟩,
      fun h => (h.odd (by omega)).imp not_le.mpr not_le.mpr⟩

theorem lt_pow_width (n : Nat) : n < 10 ^ width n :=
  (Nat.length_toDigits_le_iff (by decide) (width_pos n)).mp le_rfl

theorem pow_width_le {n : Nat} (h : 0 < n) : 10 ^ (width n - 1) ≤ n := by
  rcases Nat.eq_zero_or_pos (width n - 1) with hwidth | hwidth
  · rw [hwidth, pow_zero]
    exact h
  · refine not_lt.mp fun hlt => ?_
    have hle : width n ≤ width n - 1 := (Nat.length_toDigits_le_iff (by decide) hwidth).mpr hlt
    omega

/-- The power of ten of the first digit is not above the value. -/
theorem pow_exponent_le (i : Interval) (hv : 0 < i.value) (hd : 0 < i.denominator) :
    (10 : ℚ) ^ i.exponent ≤ i.value / i.denominator := by
  unfold exponent
  split
  · next hle =>
      have hpow : ((10 ^ (width (i.value / i.denominator) - 1) : Nat) : ℚ) ≤
          (i.value / i.denominator : Nat) := Nat.cast_le.mpr (pow_width_le (Nat.div_pos hle hd))
      have hcast : (width (i.value / i.denominator) : Int) - 1 =
          (width (i.value / i.denominator) - 1 : Nat) := by
        have := width_pos (i.value / i.denominator)
        omega
      rw [hcast, zpow_natCast]
      exact (by simpa using hpow : _ ≤ _).trans Nat.cast_div_le
  · have hpow : i.denominator ≤ i.value * 10 ^ width (i.denominator / i.value) :=
      ((Nat.div_lt_iff_lt_mul hv).mp (lt_pow_width _)).le.trans_eq (mul_comm _ _)
    have hd' : (0 : ℚ) < i.denominator := by exact_mod_cast hd
    rw [zpow_neg, zpow_natCast, inv_eq_one_div, div_le_div_iff₀ (by positivity) hd', one_mul]
    exact_mod_cast hpow

/-- The search looks at the two whole numbers next to the value. -/
theorem nearest?_eq_none {i : Interval} : i.nearest? = none ↔
    i.holds (i.value / i.denominator) = false ∧ i.holds (i.value / i.denominator + 1) = false := by
  unfold nearest?
  dsimp only
  cases i.holds (i.value / i.denominator) <;> cases i.holds (i.value / i.denominator + 1) <;> simp
  split_ifs <;> simp

/-- If a whole number lies in the interval, then so does one of the two next to the value. -/
theorem nearest?_ne_none {i : Interval} (hd : 0 < i.denominator) (hlow : i.low < i.value)
    (hhigh : i.value < i.high) {n : Nat} (h : i.holds n = true) : i.nearest? ≠ none := by
  have hbelow : i.value / i.denominator * i.denominator ≤ i.value := Nat.div_mul_le_self _ _
  have habove : i.value < (i.value / i.denominator + 1) * i.denominator := by
    rw [mul_comm]
    exact Nat.lt_mul_div_succ _ hd
  rw [Ne, nearest?_eq_none, not_and_or, Bool.not_eq_false, Bool.not_eq_false]
  unfold holds at h ⊢
  dsimp only at h ⊢
  rcases Nat.lt_or_ge (i.value / i.denominator) n with hn | hn
  · have hle := Nat.mul_le_mul_right i.denominator (Nat.succ_le_of_lt hn)
    refine .inr ?_
    split at h <;> simp only [Bool.and_eq_true, decide_eq_true_eq] at h ⊢ <;> grind
  · have hle := Nat.mul_le_mul_right i.denominator hn
    refine .inl ?_
    split at h <;> simp only [Bool.and_eq_true, decide_eq_true_eq] at h ⊢ <;> grind

/-- Where more than one unit fits above the value, the next whole number lies in the interval. -/
theorem holds_next {i : Interval} (hd : 0 < i.denominator) (hlow : i.low < i.value)
    (hhigh : i.value + i.denominator < i.high) : i.holds (i.value / i.denominator + 1) = true := by
  have hbelow : i.value < (i.value / i.denominator + 1) * i.denominator := by
    rw [mul_comm]
    exact Nat.lt_mul_div_succ _ hd
  have habove : (i.value / i.denominator + 1) * i.denominator ≤ i.value + i.denominator := by
    rw [add_mul, one_mul]
    exact Nat.add_le_add_right (Nat.div_mul_le_self _ _) _
  unfold holds
  dsimp only
  split <;> simp only [Bool.and_eq_true, decide_eq_true_eq] <;> omega

theorem around_denominator_pos (m : Nat) (e : Int) (narrow : Bool) :
    0 < (around m e narrow).denominator := by
  change 0 < 2 ^ (2 - e).toNat
  positivity

theorem around_low_lt {m : Nat} (e : Int) (narrow : Bool) (hm : 0 < m) :
    (around m e narrow).low < (around m e narrow).value := by
  refine Nat.mul_lt_mul_of_pos_right ?_ (by positivity)
  split <;> omega

theorem around_lt_high (m : Nat) (e : Int) (narrow : Bool) :
    (around m e narrow).value < (around m e narrow).high :=
  Nat.mul_lt_mul_of_pos_right (by omega) (by positivity)

/-- So many digits are enough that a half gap is more than one unit. -/
theorem nearest?_of_lt_pow {m k : Nat} (e : Int) (narrow : Bool) (hm : 0 < m) (hlt : 2 * m < 10 ^ k) :
    ((around m e narrow).inUnits ((around m e narrow).exponent - k)).nearest? ≠ none := by
  have hvalue : 0 < (around m e narrow).value := by
    change 0 < 4 * m * 2 ^ (e - 2).toNat
    positivity
  have hden := around_denominator_pos m e narrow
  have hexp := pow_exponent_le _ hvalue hden
  generalize hpower : (around m e narrow).exponent - k = power at *
  have hunit : 0 < (around m e narrow).denominator * 10 ^ power.toNat := Nat.mul_pos hden (by positivity)
  have hunits : 10 ^ k * ((around m e narrow).denominator * 10 ^ power.toNat) ≤
      (around m e narrow).value * 10 ^ (-power).toNat := by
    have hden' : (0 : ℚ) < (around m e narrow).denominator := by exact_mod_cast hden
    rw [show (around m e narrow).exponent = power + k by omega, zpow_add₀ (by norm_num),
      zpow_eq_div 10 power, zpow_natCast, div_mul_eq_mul_div,
      div_le_div_iff₀ (by positivity) hden'] at hexp
    have hcast : (10 : ℚ) ^ k * ((around m e narrow).denominator * 10 ^ power.toNat) ≤
        (around m e narrow).value * 10 ^ (-power).toNat := by
      refine le_trans (le_of_eq ?_) hexp
      ring
    exact_mod_cast hcast
  have hhigh : 2 * m * ((around m e narrow).high * 10 ^ (-power).toNat) =
      (2 * m + 1) * ((around m e narrow).value * 10 ^ (-power).toNat) := by
    simp only [around]
    ring
  have hlow : (around m e narrow).low * 10 ^ (-power).toNat <
      (around m e narrow).value * 10 ^ (-power).toNat :=
    Nat.mul_lt_mul_of_pos_right (around_low_lt e narrow hm) (by positivity)
  have hroom : (around m e narrow).value * 10 ^ (-power).toNat +
      (around m e narrow).denominator * 10 ^ power.toNat <
      (around m e narrow).high * 10 ^ (-power).toNat := by
    have hsmall : 2 * m * ((around m e narrow).denominator * 10 ^ power.toNat) <
        (around m e narrow).value * 10 ^ (-power).toNat :=
      lt_of_lt_of_le (Nat.mul_lt_mul_of_pos_right hlt hunit) hunits
    refine Nat.lt_of_mul_lt_mul_left (a := 2 * m) ?_
    calc 2 * m * ((around m e narrow).value * 10 ^ (-power).toNat +
          (around m e narrow).denominator * 10 ^ power.toNat)
        < 2 * m * ((around m e narrow).value * 10 ^ (-power).toNat) +
          (around m e narrow).value * 10 ^ (-power).toNat := by
          rw [mul_add]
          exact Nat.add_lt_add_left hsmall _
      _ = 2 * m * ((around m e narrow).high * 10 ^ (-power).toNat) := by
          rw [hhigh]
          ring
  exact nearest?_ne_none hunit hlow ((Nat.le_add_right _ _).trans_lt hroom) (holds_next hunit hlow hroom)

/-- The search ends at the first count for which there is a decimal. -/
theorem search_eq {i : Interval} (fuel count k : Nat) (hk : k < fuel)
    (h : (i.inUnits (i.exponent - (count + k : Nat) + 1)).nearest? ≠ none) :
    ∃ n power, i.exponent - (count + k : Nat) + 1 ≤ power ∧ (i.inUnits power).holds n = true ∧
      i.search fuel count = normal ⟨n, power⟩ := by
  induction fuel generalizing count k with
  | zero => omega
  | succ fuel ih =>
      rw [search]
      split
      · next n hn => exact ⟨n, _, by omega, holds_of_nearest? hn, rfl⟩
      · next hnone =>
          obtain _ | k := k
          · exact absurd hnone h
          · rw [show count + (k + 1) = count + 1 + k by omega] at h ⊢
            exact ih (count + 1) k (by omega) h

end Interval

/-- The search for the shortest decimal finds one in the interval, with no more digits than tell
mantissas of this size apart. -/
theorem exists_shortest {m k : Nat} (e : Int) (narrow : Bool) (hm : 0 < m) (hlt : 2 * m < 10 ^ k)
    (hk : k < 20) : ∃ n power, (Interval.around m e narrow).exponent - k ≤ power ∧
      ((Interval.around m e narrow).inUnits power).holds n = true ∧
      shortest m e narrow = normal ⟨n, power⟩ := by
  have hdigits := Interval.nearest?_of_lt_pow e narrow hm hlt
  rw [show (Interval.around m e narrow).exponent - k =
    (Interval.around m e narrow).exponent - (1 + k : Nat) + 1 by omega] at hdigits ⊢
  rw [shortest, if_neg (by omega)]
  exact Interval.search_eq 20 1 k hk hdigits

/-- The decimal that is written for a number rounds to the number. -/
theorem rounds_shortest {m : Nat} (e : Int) (narrow : Bool) (hlt : m < 2 ^ 54) :
    Binary.Rounds m e narrow (shortest m e narrow).value := by
  rcases Nat.eq_zero_or_pos m with rfl | hm
  · simpa [shortest, value] using Binary.rounds_self 0 e narrow
  · obtain ⟨n, power, -, hholds, hsearch⟩ := exists_shortest (k := 17) e narrow hm (by omega) (by decide)
    rw [hsearch, value_normal]
    exact (Interval.holds_iff_rounds hm).mp hholds

theorem shortest_pos_or_zero {m : Nat} (e : Int) (narrow : Bool) (hlt : m < 2 ^ 54) :
    0 < (shortest m e narrow).coefficient ∨ (shortest m e narrow).scale = 0 := by
  rcases Nat.eq_zero_or_pos m with rfl | hm
  · exact .inr rfl
  · obtain ⟨n, power, -, -, hsearch⟩ := exists_shortest (k := 17) e narrow hm (by omega) (by decide)
    rw [hsearch]
    exact normal_pos_or_zero _

end Decimal

end Tuning
