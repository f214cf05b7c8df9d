import Tuning.Proofs.Decimal.Reading

/-! # Decimals that are the shortest already

A decimal that is read as a double is the shortest one of the double, if no other decimal with as many
places is read as the same double. So whole numbers that doubles tell apart keep their texts, and so do
numbers of single precision. -/

namespace Tuning

namespace Decimal

/-! ## Decimals without zeros at the end -/

theorem coefficient_strip_mod (fuel : Nat) {d : Decimal} (hpos : 0 < d.coefficient)
    (hlt : d.coefficient < 10 ^ fuel) : (d.strip fuel).coefficient % 10 ≠ 0 := by
  induction fuel generalizing d with
  | zero =>
      rw [pow_zero] at hlt
      omega
  | succ fuel ih =>
      rw [strip]
      split
      · refine ih (d := ⟨d.coefficient / 10, d.scale + 1⟩) ?_ ?_
        · change 0 < d.coefficient / 10
          omega
        · change d.coefficient / 10 < 10 ^ fuel
          rw [pow_succ] at hlt
          omega
      · assumption

theorem coefficient_normal_mod {d : Decimal} (hpos : 0 < d.coefficient) :
    d.normal.coefficient % 10 ≠ 0 := by
  rw [normal, if_neg (by omega)]
  exact coefficient_strip_mod _ hpos (Interval.lt_pow_width _)

/-- A number has one decimal without zeros at the end. -/
theorem eq_of_value_eq {c d : Decimal} (hc : c.coefficient % 10 ≠ 0) (hd : d.coefficient % 10 ≠ 0)
    (h : c.value = d.value) : c = d := by
  wlog hle : c.scale ≤ d.scale generalizing c d
  · exact (this hd hc h.symm (by omega)).symm
  obtain ⟨k, hk⟩ : ∃ k : Nat, d.scale = c.scale + k := ⟨(d.scale - c.scale).toNat, by omega⟩
  have hcoefficient : c.coefficient = d.coefficient * 10 ^ k := by
    rw [value, value, hk, zpow_add₀ (by norm_num), zpow_natCast, ← mul_assoc, mul_right_comm] at h
    exact_mod_cast mul_right_cancel₀ (zpow_pos (by norm_num) _).ne' h
  have hzero : k = 0 := by
    by_contra hne
    obtain ⟨j, rfl⟩ := Nat.exists_eq_succ_of_ne_zero hne
    rw [hcoefficient, pow_succ, ← mul_assoc, Nat.mul_mod_left] at hc
    exact hc rfl
  rw [hzero, pow_zero, mul_one] at hcoefficient
  exact (Decimal.mk.injEq ..).mpr ⟨hcoefficient, by omega⟩

/-! ## Where the search ends -/

/-- A number in units of a power of ten, told in smaller units. -/
theorem mul_pow_add (n k : Nat) (power : Int) :
    (n : ℚ) * 10 ^ (power + k) = (n * 10 ^ k : Nat) * 10 ^ power := by
  rw [zpow_add₀ (by norm_num), zpow_natCast]
  push_cast
  ring

section Search

variable {m : Nat} {e least : Int} {narrow : Bool} {d : Decimal}

/-- The search can find nothing but a decimal that rounds to the number, if no other one with as many
places does. -/
theorem search_eq_of_unique (hm : 0 < m) (hround : Binary.Rounds m e narrow d.value)
    (hd : d.coefficient % 10 ≠ 0) (hscale : least ≤ d.scale)
    (hunique : ∀ n : Nat, Binary.Rounds m e narrow (n * 10 ^ least) → n * 10 ^ least = d.value)
    (fuel count : Nat) (hleast : least ≤ (Interval.around m e narrow).exponent - count + 1)
    (hfuel : (Interval.around m e narrow).exponent - count + 1 < least + fuel) :
    (Interval.around m e narrow).search fuel count = d := by
  induction fuel generalizing count with
  | zero => omega
  | succ fuel ih =>
      rw [Interval.search]
      generalize hpower : (Interval.around m e narrow).exponent - count + 1 = power at *
      split
      · next n hn =>
          have hholds := (Interval.holds_iff_rounds hm).mp (Interval.holds_of_nearest? hn)
          obtain ⟨k, rfl⟩ : ∃ k : Nat, power = least + k := ⟨(power - least).toNat, by omega⟩
          have hvalue : (n : ℚ) * 10 ^ (least + k) = d.value := by
            rw [mul_pow_add] at hholds ⊢
            exact hunique _ hholds
          have hpos : 0 < n := by
            refine Nat.pos_of_ne_zero ?_
            rintro rfl
            rw [Nat.cast_zero, zero_mul, value, eq_comm, mul_eq_zero, Nat.cast_eq_zero] at hvalue
            have := hvalue.resolve_right (zpow_pos (by norm_num) _).ne'
            omega
          exact eq_of_value_eq (coefficient_normal_mod hpos) hd ((value_normal _).trans hvalue)
      · next hnone =>
          -- a power that the decimal is a multiple of would have been found
          have hlarge : d.scale < power := by
            by_contra hle
            obtain ⟨k, hk⟩ : ∃ k : Nat, d.scale = power + k := ⟨(d.scale - power).toNat, by omega⟩
            rw [value, hk, mul_pow_add] at hround
            refine Interval.nearest?_ne_none ?_ ?_ ?_ ((Interval.holds_iff_rounds hm).mpr hround) hnone
            · exact Nat.mul_pos (Interval.around_denominator_pos m e narrow) (by positivity)
            · exact Nat.mul_lt_mul_of_pos_right (Interval.around_low_lt e narrow hm) (by positivity)
            · exact Nat.mul_lt_mul_of_pos_right (Interval.around_lt_high m e narrow) (by positivity)
          exact ih (count + 1) (by omega) (by omega)

variable (least) in
/-- A decimal is the shortest one of the number that it rounds to, if no other one with as many places
rounds to the number. -/
theorem shortest_eq_of_unique (hm : 0 < m) (hround : Binary.Rounds m e narrow d.value)
    (hd : d.coefficient % 10 ≠ 0) (hscale : least ≤ d.scale)
    (hunique : ∀ n : Nat, Binary.Rounds m e narrow (n * 10 ^ least) → n * 10 ^ least = d.value)
    (hleast : least ≤ (Interval.around m e narrow).exponent)
    (hcount : (Interval.around m e narrow).exponent < least + 20) : shortest m e narrow = d := by
  rw [shortest, if_neg (by omega)]
  exact search_eq_of_unique hm hround hd hscale hunique 20 1 (by omega) (by omega)

end Search

/-! ## Whole numbers -/

theorem scale_le_strip (fuel : Nat) (d : Decimal) : d.scale ≤ (d.strip fuel).scale := by
  induction fuel generalizing d with
  | zero => exact le_rfl
  | succ fuel ih =>
      rw [strip]
      split
      · have := ih ⟨d.coefficient / 10, d.scale + 1⟩
        change d.scale + 1 ≤ _ at this
        omega
      · exact le_rfl

theorem scale_le_normal {d : Decimal} (hpos : 0 < d.coefficient) : d.scale ≤ d.normal.scale := by
  rw [normal, if_neg (by omega)]
  exact scale_le_strip _ d

theorem Interval.exponent_eq_width {i : Interval} {n : Nat} (hd : 0 < i.denominator) (hn : 0 < n)
    (hvalue : i.value = n * i.denominator) : i.exponent = width n - 1 := by
  rw [exponent, if_pos (hvalue ▸ Nat.le_mul_of_pos_left _ hn), hvalue, Nat.mul_div_cancel _ hd]

/-- A whole number whose double is exact, with a last place of one at most, is its own shortest
decimal. -/
theorem shortest_whole {n : Nat} (k : Nat) (narrow : Bool) (hn : 0 < n) (hlt : n < 10 ^ 20) :
    shortest (n * 2 ^ k) (-k) narrow = normal ⟨n, 0⟩ := by
  have hvalue : (normal ⟨n, 0⟩).value = n := by
    rw [value_normal, value, zpow_zero, mul_one]
  have hexact : ((n * 2 ^ k : Nat) : ℚ) * 2 ^ (-k : Int) = n := by
    rw [zpow_neg, zpow_natCast]
    push_cast
    exact mul_inv_cancel_right₀ (by positivity) _
  have hself : 4 * ((n * 2 ^ k : Nat) : ℚ) * 2 ^ (-k - 2 : Int) = n := by
    rw [← hexact, Binary.pow_eq_quarters (-k), mul_left_comm, mul_assoc]
  have hunit : (0 : ℚ) < 2 ^ (-k - 2 : Int) ∧ (2 : ℚ) ^ (-k - 2 : Int) ≤ 1 / 4 := by
    refine ⟨zpow_pos (by norm_num) _, ?_⟩
    calc (2 : ℚ) ^ (-k - 2 : Int) ≤ 2 ^ (-2 : Int) := zpow_le_zpow_right₀ (by norm_num) (by omega)
      _ = 1 / 4 := by norm_num
  have hexponent : (Interval.around (n * 2 ^ k) (-k) narrow).exponent = width n - 1 := by
    refine Interval.exponent_eq_width (Interval.around_denominator_pos _ _ _) hn ?_
    change 4 * (n * 2 ^ k) * 2 ^ (-k - 2 : Int).toNat = n * 2 ^ (2 - (-k : Int)).toNat
    rw [show (-k - 2 : Int).toNat = 0 by omega, show (2 - (-k : Int)).toNat = k + 2 by omega]
    ring
  have hwidth : width n ≤ 20 := (Nat.length_toDigits_le_iff (by decide) (by decide)).mpr hlt
  have hpos := width_pos n
  refine shortest_eq_of_unique 0 (by positivity) ?_ (coefficient_normal_mod hn)
    (scale_le_normal hn) ?_ (by omega) (by omega)
  · have hround := Binary.rounds_self (n * 2 ^ k) (-k) narrow
    rwa [hexact, ← hvalue] at hround
  · intro n' hn'
    rw [hvalue, zpow_zero, mul_one] at *
    have hlow := hn'.low_le
    have hhigh := hn'.le_high
    have hslack : (if narrow then 1 else 2 : ℚ) ≤ 2 := by split <;> norm_num
    have hle : (n' : ℚ) < n + 1 := by nlinarith
    have hge : (n : ℚ) < n' + 1 := by nlinarith
    have hle' : n' < n + 1 := by exact_mod_cast hle
    have hge' : n < n' + 1 := by exact_mod_cast hge
    rw [show n' = n by omega]

/-- Zeros that are taken off the coefficient are written all the same. -/
theorem positional_strip (fuel : Nat) {d : Decimal} (hpos : 0 < d.coefficient) (hscale : 0 ≤ d.scale) :
    (d.strip fuel).positional = d.positional := by
  induction fuel generalizing d with
  | zero => rfl
  | succ fuel ih =>
      rw [strip]
      split
      · next hten =>
          obtain ⟨c, hc⟩ := Nat.dvd_of_mod_eq_zero hten
          have hquotient : d.coefficient / 10 = c := by omega
          rw [ih (d := ⟨d.coefficient / 10, d.scale + 1⟩) (show 0 < d.coefficient / 10 by omega)
            (show 0 ≤ d.scale + 1 by omega)]
          have hdigits : digits d.coefficient = digits c ++ ['0'] := by
            have := Nat.toDigits_append_toDigits (b := 10) (n := c) (d := 0) (by decide) (by omega)
              (by decide)
            rw [digits, hc, digits]
            exact this.symm
          rw [positional, positional]
          simp only [if_pos hscale, if_pos (show 0 ≤ d.scale + 1 by omega), hquotient, hdigits]
          rw [show (d.scale + 1).toNat = d.scale.toNat + 1 by omega, List.replicate_succ]
          simp
      · rfl

end Decimal

/-- A whole number of at most 53 bits is a double. -/
theorem Binary.canonical_whole {n : Nat} (hpos : 0 < n) (hlt : n < 2 ^ 53) :
    Canonical 52 (-1074) (n * 2 ^ (52 - n.log2)) (-(52 - n.log2 : Nat)) (n * 2 ^ (52 - n.log2) = 2 ^ 52) ∧
      Rounds (n * 2 ^ (52 - n.log2)) (-(52 - n.log2 : Nat)) (n * 2 ^ (52 - n.log2) = 2 ^ 52) n := by
  have hlog : n.log2 ≤ 52 := Nat.lt_succ_iff.mp ((Nat.log2_lt hpos.ne').mpr hlt)
  have hpow : 2 ^ n.log2 * 2 ^ (52 - n.log2) = 2 ^ 52 := by
    rw [← pow_add, Nat.add_sub_cancel' hlog]
  refine ⟨⟨?_, by omega, fun _ => ?_, ?_⟩, ?_⟩
  · calc n * 2 ^ (52 - n.log2) < 2 ^ (n.log2 + 1) * 2 ^ (52 - n.log2) :=
        Nat.mul_lt_mul_of_pos_right Nat.lt_log2_self (by positivity)
      _ = 2 ^ (52 + 1) := by rw [pow_succ 2 n.log2, mul_right_comm, hpow, ← pow_succ]
  · rw [← hpow]
    exact Nat.mul_le_mul_right _ (Nat.log2_self_le hpos.ne')
  · rw [decide_eq_true_eq]
    exact ⟨fun h => ⟨h, by omega⟩, And.left⟩
  · have hround := rounds_self (n * 2 ^ (52 - n.log2)) (-(52 - n.log2 : Nat))
      (n * 2 ^ (52 - n.log2) = 2 ^ 52)
    rwa [zpow_neg, zpow_natCast, Nat.cast_mul, Nat.cast_pow, Nat.cast_ofNat,
      mul_inv_cancel_right₀ (by positivity)] at hround

/-- Documents show whole numbers in positional notation. -/
theorem NumberFormat.document_write_whole {n : Nat} (hpos : 0 < n) (hlt : n < 10 ^ 20)
    (negative : Bool) :
    document.write negative (Decimal.normal ⟨n, 0⟩) = if negative then "-" ++ n.repr else n.repr := by
  have hvalue : (Decimal.normal ⟨n, 0⟩).value = n := by
    rw [Decimal.value_normal, Decimal.value, zpow_zero, mul_one]
  have hcoefficient : 0 < (Decimal.normal ⟨n, 0⟩).coefficient := by
    have := Decimal.coefficient_normal_mod (d := ⟨n, 0⟩) hpos
    omega
  have hexponent : -6 ≤ (Decimal.normal ⟨n, 0⟩).exponent ∧ (Decimal.normal ⟨n, 0⟩).exponent < 21 := by
    have hle := Decimal.pow_exponent_le hcoefficient
    have hgt := Decimal.value_lt (Decimal.normal ⟨n, 0⟩)
    rw [hvalue] at hle hgt
    have hone : (10 : ℚ) ^ (0 : Int) < 10 ^ ((Decimal.normal ⟨n, 0⟩).exponent + 1) := by
      rw [zpow_zero]
      exact lt_of_le_of_lt (by exact_mod_cast hpos) hgt
    have htwenty : (10 : ℚ) ^ (Decimal.normal ⟨n, 0⟩).exponent < 10 ^ (20 : Int) :=
      lt_of_le_of_lt hle (by exact_mod_cast hlt)
    rw [zpow_lt_zpow_iff_right₀ (by norm_num)] at hone htwenty
    omega
  have hbody : (Decimal.normal ⟨n, 0⟩).positional = n.repr := by
    rw [Decimal.normal, if_neg hpos.ne', Decimal.positional_strip _ hpos le_rfl, Decimal.positional,
      if_pos le_rfl, Nat.repr_eq_ofList_toDigits]
    simp [Decimal.digits]
  have hpositional : (Decimal.normal ⟨n, 0⟩).coefficient = 0 ∨
      document.least ≤ (Decimal.normal ⟨n, 0⟩).exponent ∧
        (Decimal.normal ⟨n, 0⟩).exponent < document.limit := .inr hexponent
  simp only [write, if_pos hpositional, hbody]

/-- The text of a whole number that doubles tell from all others is the text of its double. -/
theorem documentNumber_ofInt {k : Int} (h : k.natAbs ≤ 2 ^ 53) :
    documentNumber (Float.ofInt k) = toString k := by
  rcases h.eq_or_lt with heq | hlt
  · -- the next whole number rounds to the same double, but it is not the shorter one
    rcases Int.natAbs_eq k with hk | hk <;> rw [heq] at hk <;> subst hk <;> rfl
  rcases Nat.eq_zero_or_pos k.natAbs with hzero | hpos
  · obtain rfl := Int.natAbs_eq_zero.mp hzero
    rfl
  obtain ⟨m, e, narrow, hfinite, hc, hround⟩ := exists_ofInt k (natAbs_lt_of_lt (hlt.trans (by decide)))
  obtain ⟨hc', hround'⟩ := Binary.canonical_whole hpos hlt
  obtain ⟨rfl, rfl, rfl⟩ := hround.unique hc hc' hround'
  have hlarge : k.natAbs < 10 ^ 20 := hlt.trans (by decide)
  rw [documentNumber, hfinite, NumberFormat.render, Decimal.shortest_whole _ _ hpos hlarge,
    NumberFormat.document_write_whole hpos hlarge]
  cases k with
  | ofNat k => rw [if_neg (by simp)]; rfl
  | negSucc k => rw [if_pos (by simp)]; rfl

/-! ## Numbers of single precision -/

namespace Decimal.Interval

variable {m : Nat} {e : Int} {narrow : Bool}

end Decimal.Interval

namespace Binary.Rounds

variable {m : Nat} {e : Int} {narrow : Bool} {p q : ℚ}

/-- A rounding interval lies between half and twice its number. -/
theorem bounds (h : Rounds m e narrow q) (hm : 0 < m) :
    m * 2 ^ e ≤ 2 * q ∧ q ≤ 2 * (m * 2 ^ e) := by
  have hunit : (0 : ℚ) < 2 ^ (e - 2) := zpow_pos (by norm_num) _
  have hm' : (1 : ℚ) ≤ m := by exact_mod_cast hm
  have hslack : (if narrow then 1 else 2 : ℚ) ≤ 2 := by split <;> norm_num
  have hlow := h.low_le
  have hhigh := h.le_high
  rw [pow_eq_quarters]
  constructor <;> nlinarith

end Binary.Rounds

end Tuning
