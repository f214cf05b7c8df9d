import Tuning.Proofs.Decimal.Nearest
import Tuning.Proofs.Value.Doubles

/-! # Reading numbers back

A decimal is read as its nearest double. The text of a double in documents rounds to the double, so it
reads back as the double itself. -/

namespace Tuning

open Float.Model UnpackedFloat

/-! ## Products and quotients -/

theorem Truncates.ofFraction (num : Nat) {den : Nat} (hden : 0 < den) :
    Truncates (.ofMantissaAndAccuracy (num / den) (accuracyOfFraction (num % den) den))
      (num / den : ℚ) := by
  have hden' : (0 : ℚ) < den := by exact_mod_cast hden
  have hsplit : (num : ℚ) = den * (num / den : Nat) + (num % den : Nat) := by
    exact_mod_cast (Nat.div_add_mod num den).symm
  have hvalue : (num / den : ℚ) = (num / den : Nat) + (num % den : Nat) / den := by
    rw [hsplit]
    field_simp
  have hrest : ((num % den : Nat) : ℚ) < den := by exact_mod_cast Nat.mod_lt num hden
  rw [hvalue]
  generalize num / den = m
  generalize num % den = rest at hrest
  unfold accuracyOfFraction
  split
  · next hzero =>
      rw [hzero]
      simpa using Truncates.ofExact m
  · next hpos =>
      have hpos' : (0 : ℚ) < rest := by exact_mod_cast Nat.pos_of_ne_zero hpos
      have hfraction : (0 : ℚ) < rest / den := div_pos hpos' hden'
      have hone : (rest : ℚ) / den < 1 := (div_lt_one hden').mpr hrest
      rcases Nat.lt_trichotomy (2 * rest) den with hlt | heq | hgt
      · have hhalf : (rest : ℚ) / den < 1 / 2 := by
          rw [div_lt_div_iff₀ hden' (by norm_num), one_mul, mul_comm]
          exact_mod_cast hlt
        rw [Nat.compare_eq_lt.mpr hlt]
        refine ⟨?_, ?_, iff_of_false Bool.noConfusion ?_⟩ <;>
          simp only [ExtendedMantissa.ofMantissaAndAccuracy, Bool.false_eq_true, ↓reduceIte] <;> linarith
      · have hhalf : (rest : ℚ) / den = 1 / 2 := by
          rw [div_eq_div_iff hden'.ne' (by norm_num), one_mul, mul_comm]
          exact_mod_cast heq
        rw [Nat.compare_eq_eq.mpr heq, hhalf]
        constructor <;> norm_num [ExtendedMantissa.ofMantissaAndAccuracy]
      · have hhalf : 1 / 2 < (rest : ℚ) / den := by
          rw [div_lt_div_iff₀ (by norm_num) hden', one_mul, mul_comm _ (2 : ℚ)]
          exact_mod_cast hgt
        rw [Nat.compare_eq_gt.mpr hgt]
        refine ⟨?_, ?_, iff_of_false Bool.noConfusion ?_⟩ <;>
          simp only [ExtendedMantissa.ofMantissaAndAccuracy, ↓reduceIte] <;> linarith

section Operations

variable {m₁ m₂ : Nat} (e₁ e₂ : Int) (h₁ : 0 < m₁) (h₂ : 0 < m₂)

/-- A product with enough digits is rounded to the nearest double. -/
theorem nearest_mul (h : 52 ≤ (m₁ * m₂).log2) :
    Nearest (mul Format.binary64 (.finite .positive m₁ e₁ h₁) (.finite .positive m₂ e₂ h₂)) .positive
      (m₁ * 2 ^ e₁ * (m₂ * 2 ^ e₂)) := by
  have hvalue : (m₁ * 2 ^ e₁ * (m₂ * 2 ^ e₂) : ℚ) = (m₁ * m₂ : Nat) * 2 ^ (e₁ + e₂) := by
    rw [zpow_add₀ (by norm_num)]
    push_cast
    ring
  rw [hvalue]
  exact nearest_roundWithAccuracy .positive (by omega)

/-- A quotient is worked out to enough digits and rounded to the nearest double. -/
theorem nearest_div :
    Nearest (div Format.binary64 (.finite .positive m₁ e₁ h₁) (.finite .positive m₂ e₂ h₂)) .positive
      (m₁ * 2 ^ e₁ / (m₂ * 2 ^ e₂)) := by
  have htarget : Format.binary64.targetExponent (totalExponent m₁ e₁ - totalExponent m₂ e₂) =
      max ((m₁.log2 + e₁) - (m₂.log2 + e₂) - 53) (-1074) := by
    simp only [Format.targetExponent, totalExponent, Format.mantissaBits, Format.minExponent]
    norm_num
    omega
  obtain ⟨target, ht⟩ : ∃ target, target =
    min (e₁ - e₂) (max ((m₁.log2 + e₁) - (m₂.log2 + e₂) - 53) (-1074)) := ⟨_, rfl⟩
  obtain ⟨k, hk⟩ : ∃ k : Nat, (e₁ - e₂ - target).toNat = k := ⟨_, rfl⟩
  have hshift : e₁ - e₂ = target + k := by omega
  have hlog : (m₁ * 2 ^ k).log2 = m₁.log2 + k := log2_mul_pow h₁ k
  have hvalue : (m₁ * 2 ^ e₁ / (m₂ * 2 ^ e₂) : ℚ) = (m₁ * 2 ^ k : Nat) / m₂ * 2 ^ target := by
    have hpow : (2 : ℚ) ^ e₁ = 2 ^ e₂ * (2 ^ target * 2 ^ k) := by
      rw [← zpow_natCast, ← zpow_add₀ (by norm_num), ← zpow_add₀ (by norm_num)]
      congr 1
      omega
    rw [hpow]
    push_cast
    field_simp
  have hresult : div Format.binary64 (.finite .positive m₁ e₁ h₁) (.finite .positive m₂ e₂ h₂) =
      roundWithAccuracy Format.binary64 .positive (m₁ * 2 ^ k / m₂) target
        (accuracyOfFraction (m₁ * 2 ^ k % m₂) m₂) := by
    rw [UnpackedFloat.div, divCore, htarget, ← ht, hk, Nat.shiftLeft_eq]
    rfl
  rw [hresult, hvalue]
  refine nearest_of_truncates .positive (.ofFraction _ h₂) ?_ ?_
  · rw [div_lt_iff₀ (by exact_mod_cast h₂)]
    exact_mod_cast Nat.lt_div_mul_add h₂ |>.trans_eq (by ring)
  · -- the quotient has 53 bits, unless the exponent is the least one
    rcases le_or_gt target (-1074) with hleast | hnormal
    · omega
    · have hbits : 2 ^ 52 ≤ m₁ * 2 ^ k / m₂ := by
        rw [Nat.le_div_iff_mul_le h₂]
        calc 2 ^ 52 * m₂ ≤ 2 ^ 52 * 2 ^ (m₂.log2 + 1) :=
              Nat.mul_le_mul_left _ (Nat.lt_log2_self (n := m₂)).le
          _ = 2 ^ (52 + (m₂.log2 + 1)) := (pow_add ..).symm
          _ ≤ 2 ^ (m₁ * 2 ^ k).log2 := Nat.pow_le_pow_right (by decide) (by omega)
          _ ≤ m₁ * 2 ^ k := Nat.log2_self_le (by positivity)
      have := (Nat.le_log2 (by omega)).mpr hbits
      omega

end Operations

/-! ## Doubles without rounding -/

/-- Where the rational is a double, the nearest double is this one. -/
theorem Nearest.eq_finite {u : UnpackedFloat} {s : Sign} {m : Nat} {e : Int} {narrow : Bool}
    (hm : 0 < m) (hc : Binary.Canonical 52 (-1074) m e narrow) (h : Nearest u s (m * 2 ^ e)) :
    u = .finite s m e hm := by
  obtain ⟨m', e', narrow', hu, hc', hround⟩ := h
  obtain ⟨rfl, rfl, rfl⟩ := (Binary.rounds_self m e narrow).unique hc hc' hround
  refine Binary.ofUnpacked_injective (hu.trans ?_)
  have hnarrow : narrow = (m = 2 ^ 52 && -1074 < e : Bool) := by
    rw [Bool.eq_iff_iff, hc.narrow_iff]
    simp
  rw [Binary.ofUnpacked, ← hnarrow]

/-- Whether a double is a power of ten, with the mantissa as long as it can be. -/
def isPowerOfTen (k : Nat) (x : Float) : Bool :=
  match x.toModel.unpack with
  | .finite .positive m e _ => 2 ^ 52 ≤ m && m * 2 ^ e.toNat == 10 ^ k * 2 ^ (-e).toNat
  | _ => false

theorem exists_of_isPowerOfTen {k : Nat} {x : Float} (h : isPowerOfTen k x = true) :
    ∃ m e hm, x.toModel.unpack = .finite .positive m e hm ∧ 2 ^ 52 ≤ m ∧ (m * 2 ^ e : ℚ) = 10 ^ k := by
  unfold isPowerOfTen at h
  split at h
  · next m e hm hx =>
      simp only [Bool.and_eq_true, decide_eq_true_eq, beq_iff_eq] at h
      refine ⟨m, e, hm, hx, h.1, ?_⟩
      have hcast : (m * 2 ^ e.toNat : ℚ) = 10 ^ k * 2 ^ (-e).toNat := by exact_mod_cast h.2
      rw [Decimal.zpow_eq_div, ← mul_div_assoc, hcast, mul_div_assoc, div_self (by positivity), mul_one]
  · cases h

theorem isPowerOfTen_table : ∀ k : Fin Float.exactlyRepresentablePowersOfTen.size,
    isPowerOfTen k Float.exactlyRepresentablePowersOfTen[k] = true := by
  decide +kernel

/-- A whole number of at most 53 bits is a double. -/
theorem exists_toFloat {n : Nat} (hn : 0 < n) (hlt : n < 2 ^ 53) :
    ∃ m e hm, n.toUInt64.toFloat.toModel.unpack = .finite .positive m e hm ∧ 2 ^ 52 ≤ m ∧
      (m * 2 ^ e : ℚ) = n := by
  have hlog : n.log2 ≤ 52 := by
    have := (Nat.log2_lt (by omega)).mpr hlt
    omega
  obtain ⟨k, hk⟩ : ∃ k, n.log2 + k = 52 := ⟨52 - n.log2, by omega⟩
  have hpos : 0 < n * 2 ^ k := by positivity
  have hbits := log2_mul_pow hn k
  rw [hk] at hbits
  have hlow : 2 ^ 52 ≤ n * 2 ^ k := hbits ▸ Nat.log2_self_le hpos.ne'
  have hhigh : n * 2 ^ k < 2 ^ 53 := by
    have := Nat.lt_log2_self (n := n * 2 ^ k)
    rwa [hbits] at this
  have hvalue : ((n * 2 ^ k : Nat) : ℚ) * 2 ^ (-k : Int) = n := by
    push_cast
    rw [mul_assoc, zpow_neg, zpow_natCast, mul_inv_cancel₀ (by positivity), mul_one]
  have hnearest := nearest_ofUInt64 hn (hlt.trans (by decide))
  have hfits : (n : ℚ) < 2 ^ 970 := by
    refine lt_of_lt_of_le (Nat.cast_lt.mpr hlt) ?_
    rw [Nat.cast_pow, Nat.cast_ofNat]
    exact pow_le_pow_right₀ (by norm_num) (by norm_num)
  refine ⟨n * 2 ^ k, -k, hpos, ?_, hlow, hvalue⟩
  change (Float.Model.pack (UnpackedFloat.ofUInt64 Format.binary64 n.toUInt64)).unpack = _
  rw [hnearest.unpack_pack hfits]
  rw [← hvalue] at hnearest
  have hcanonical : Binary.Canonical 52 (-1074) (n * 2 ^ k) (-k) (n * 2 ^ k = 2 ^ 52) :=
    ⟨hhigh, by omega, fun _ => hlow, by simp; omega⟩
  exact hnearest.eq_finite hpos hcanonical

/-! ## Decimals -/

namespace Decimal

variable {d : Decimal}

theorem value_lt (d : Decimal) : d.value < 10 ^ (d.exponent + 1) := by
  have hwidth : (d.coefficient : ℚ) < 10 ^ width d.coefficient := by
    exact_mod_cast Interval.lt_pow_width d.coefficient
  rw [value, exponent, show d.scale + width d.coefficient - 1 + 1 = width d.coefficient + d.scale by omega,
    zpow_add₀ (by norm_num), zpow_natCast]
  exact mul_lt_mul_of_pos_right hwidth (zpow_pos (by norm_num) _)

theorem pow_exponent_le (hd : 0 < d.coefficient) : 10 ^ d.exponent ≤ d.value := by
  have hwidth : ((10 ^ (width d.coefficient - 1) : Nat) : ℚ) ≤ d.coefficient :=
    Nat.cast_le.mpr (Interval.pow_width_le hd)
  have hpos := width_pos d.coefficient
  rw [value, exponent,
    show d.scale + width d.coefficient - 1 = (width d.coefficient - 1 : Nat) + d.scale by omega,
    zpow_add₀ (by norm_num), zpow_natCast]
  exact mul_le_mul_of_nonneg_right (by exact_mod_cast hwidth) (zpow_pos (by norm_num) _).le

/-- A number has no more decimal digits than binary ones. -/
theorem width_le_log2 (n : Nat) : width n ≤ n.log2 + 1 := by
  refine (Nat.length_toDigits_le_iff (by decide) (Nat.succ_pos _)).mpr ?_
  exact (Nat.lt_log2_self (n := n)).trans_le (Nat.pow_le_pow_left (by decide) _)

/-- Short decimals are products and quotients of two doubles. -/
theorem nearest_fast (hd : 0 < d.coefficient) (hlt : d.coefficient < 2 ^ 53)
    (hscale : d.scale.natAbs ≤ 22) (negative : Bool)
    (hsign : d.scale = if negative then -(d.scale.natAbs : Int) else d.scale.natAbs) :
    ∃ u, Float.ofScientific d.coefficient negative d.scale.natAbs = .ofModel (Float.Model.pack u) ∧
      Nearest u .positive d.value := by
  obtain ⟨m, e, hm, hunpack, hbits, hvalue⟩ := exists_toFloat hd hlt
  have hsize : d.scale.natAbs < Float.exactlyRepresentablePowersOfTen.size := by
    change d.scale.natAbs < 23
    omega
  obtain ⟨m', e', hm', hunpack', hbits', hvalue'⟩ :=
    exists_of_isPowerOfTen (isPowerOfTen_table ⟨d.scale.natAbs, hsize⟩)
  unfold Float.ofScientific
  rw [dif_pos ⟨hlt, hscale⟩]
  cases negative with
  | false =>
      refine ⟨mul Format.binary64 (.finite .positive m e hm) (.finite .positive m' e' hm'), ?_, ?_⟩
      · rw [← hunpack, ← hunpack']
        rfl
      · have hlog : 52 ≤ (m * m').log2 :=
          (Nat.le_log2 (by positivity)).mpr (hbits.trans (Nat.le_mul_of_pos_right _ hm'))
        have hnearest := nearest_mul e e' hm hm' hlog
        rw [hvalue, hvalue', ← zpow_natCast] at hnearest
        rw [value, hsign]
        exact hnearest
  | true =>
      refine ⟨div Format.binary64 (.finite .positive m e hm) (.finite .positive m' e' hm'), ?_, ?_⟩
      · rw [← hunpack, ← hunpack']
        rfl
      · have hnearest := nearest_div e e' hm hm'
        rw [hvalue, hvalue', ← zpow_natCast] at hnearest
        rw [value, hsign, if_pos rfl, zpow_neg, ← div_eq_mul_inv]
        exact hnearest

/-- A mantissa is lengthened before it is multiplied by a power of ten. -/
theorem nearest_mul_pow {n : Nat} (hn : 0 < n) (k : Nat) {h : 0 < n <<< 53} {h' : 0 < 10 ^ k} :
    Nearest (mul Format.binary64 (.finite .positive (n <<< 53) (-53) h) (.finite .positive (10 ^ k) 0 h'))
      .positive (n * 10 ^ k) := by
  have hlog : 52 ≤ (n <<< 53 * 10 ^ k).log2 := by
    refine (Nat.le_log2 (Nat.mul_pos h h').ne').mpr ?_
    calc 2 ^ 52 ≤ 1 * 2 ^ 53 := by decide
      _ ≤ n * 2 ^ 53 := Nat.mul_le_mul_right _ hn
      _ = n <<< 53 := (Nat.shiftLeft_eq ..).symm
      _ ≤ n <<< 53 * 10 ^ k := Nat.le_mul_of_pos_right _ h'
  have hvalue : ((n <<< 53 : Nat) * 2 ^ (-53 : Int) * ((10 ^ k : Nat) * 2 ^ (0 : Int)) : ℚ) =
      n * 10 ^ k := by
    rw [Nat.shiftLeft_eq, zpow_zero, mul_one, Nat.cast_mul, mul_assoc (n : ℚ),
      show ((2 ^ 53 : Nat) : ℚ) * 2 ^ (-53 : Int) = 1 by norm_num, mul_one, Nat.cast_pow, Nat.cast_ofNat]
  have hnearest := nearest_mul (-53) 0 h h' hlog
  rwa [hvalue] at hnearest

/-- Long decimals are worked out as fractions. -/
theorem nearest_slow (hd : 0 < d.coefficient) (hlow : -400 ≤ d.exponent) (hhigh : d.exponent ≤ 400)
    (hlong : ¬(d.coefficient < 2 ^ 53 ∧ d.scale.natAbs ≤ 22)) (negative : Bool)
    (hsign : d.scale = if negative then -(d.scale.natAbs : Int) else d.scale.natAbs) :
    ∃ u, Float.ofScientific d.coefficient negative d.scale.natAbs = .ofModel (Float.Model.pack u) ∧
      Nearest u .positive d.value := by
  have hwidth := width_le_log2 d.coefficient
  have hpos := width_pos d.coefficient
  have hscale : -(400 + d.coefficient.log2 : Int) ≤ d.scale ∧ d.scale ≤ 400 := by
    rw [exponent] at hlow hhigh
    omega
  have hresult : Float.ofScientific d.coefficient negative d.scale.natAbs =
      .ofModel (Float.Model.pack (UnpackedFloat.ofScientific Format.binary64 d.coefficient d.scale)) := by
    unfold Float.ofScientific
    rw [dif_neg hlong]
    change Float.ofModel (Float.Model.pack (UnpackedFloat.ofScientific _ _ _)) = _
    have hint : (if negative then Int.negOfNat d.scale.natAbs else Int.ofNat d.scale.natAbs) = d.scale := by
      rw [Int.negOfNat_eq]
      exact hsign.symm
    rw [hint]
  refine ⟨_, hresult, ?_⟩
  unfold UnpackedFloat.ofScientific
  rw [dif_neg (by omega), if_neg (by norm_num; omega), if_neg (by norm_num; omega)]
  split
  · next hnonneg =>
      rw [value, ← Int.toNat_of_nonneg hnonneg, zpow_natCast]
      exact nearest_mul_pow hd d.scale.toNat
  · next hneg =>
      have hnearest := nearest_div 0 0 hd (show 0 < 10 ^ (-d.scale).toNat by positivity)
      have hvalue : (d.coefficient * 2 ^ (0 : Int) / ((10 ^ (-d.scale).toNat : Nat) * 2 ^ (0 : Int)) : ℚ) =
          d.value := by
        rw [value, show d.scale = -((-d.scale).toNat : Int) by omega, zpow_neg, zpow_natCast, zpow_zero,
          mul_one, mul_one, Nat.cast_pow, Nat.cast_ofNat, div_eq_mul_inv]
        congr 4
        omega
      rwa [hvalue] at hnearest

/-- A decimal is read as its nearest double, which may be beyond the range of doubles. -/
theorem exists_toFloat (hd : 0 < d.coefficient) (hlow : -400 ≤ d.exponent) (hhigh : d.exponent ≤ 400) :
    ∃ u, d.toFloat = .ofModel (Float.Model.pack u) ∧ Nearest u .positive d.value := by
  have hread : ∀ negative : Bool,
      d.scale = (if negative then -(d.scale.natAbs : Int) else d.scale.natAbs) →
      ∃ u, Float.ofScientific d.coefficient negative d.scale.natAbs = .ofModel (Float.Model.pack u) ∧
        Nearest u .positive d.value := by
    intro negative hsign
    by_cases hshort : d.coefficient < 2 ^ 53 ∧ d.scale.natAbs ≤ 22
    · exact nearest_fast hd hshort.1 hshort.2 negative hsign
    · exact nearest_slow hd hlow hhigh hshort negative hsign
  unfold toFloat
  rw [if_neg (by omega), if_neg (by omega)]
  split
  · exact hread false (by rw [if_neg Bool.false_ne_true]; omega)
  · exact hread true (by rw [if_pos rfl]; omega)

theorem pow_two_le_pow_ten {i j : Nat} (h : i ≤ 3 * j) : (2 : ℚ) ^ i ≤ 10 ^ j :=
  calc (2 : ℚ) ^ i ≤ 2 ^ (3 * j) := pow_le_pow_right₀ (by norm_num) h
    _ = (2 ^ 3) ^ j := pow_mul ..
    _ ≤ 10 ^ j := pow_le_pow_left₀ (by norm_num) (by norm_num) j

/-- What a decimal that is not too large is read as. -/
theorem rounds_toFloat (d : Decimal) (hhigh : d.coefficient = 0 ∨ d.exponent ≤ 400) :
    ∃ m e narrow, Binary.Canonical 52 (-1074) m e narrow ∧ Binary.Rounds m e narrow d.value ∧
      (e ≤ 971 → Binary.ofFloat d.toFloat = .finite false m e narrow) := by
  by_cases hsmall : d.coefficient = 0 ∨ d.exponent < -400
  · have hzero : d.toFloat = 0.0 := if_pos hsmall
    have hnonneg : 0 ≤ d.value := mul_nonneg (Nat.cast_nonneg _) (zpow_nonneg (by norm_num) _)
    have hvalue : d.value ≤ 2 ^ (-1075 : Int) := by
      rcases hsmall with hsmall | hsmall
      · rw [value, hsmall, Nat.cast_zero, zero_mul]
        positivity
      · calc d.value ≤ 10 ^ (d.exponent + 1) := d.value_lt.le
          _ ≤ 10 ^ (-399 : Int) := zpow_le_zpow_right₀ (by norm_num) (by omega)
          _ ≤ 2 ^ (-(1075 : Nat) : Int) := by
              rw [show (-399 : Int) = -(399 : Nat) from rfl, zpow_neg, zpow_neg, zpow_natCast, zpow_natCast]
              exact inv_anti₀ (by positivity) (pow_two_le_pow_ten (by decide))
    refine ⟨0, -1074, false, ⟨by decide, le_rfl, by simp, by simp⟩, ⟨?_, ?_, by simp⟩, fun _ => ?_⟩
    · refine le_trans ?_ hnonneg
      norm_num
    · refine hvalue.trans (le_of_eq ?_)
      rw [show (-1075 : Int) = 1 + (-1074 - 2) by norm_num, zpow_one_add₀ (by norm_num)]
      norm_num
    · rw [hzero]
      rfl
  · obtain ⟨u, hu, m, e, narrow, hmeaning, hc, hround⟩ :=
      d.exists_toFloat (by omega) (by omega) (by omega)
    refine ⟨m, e, narrow, hc, hround, fun he => ?_⟩
    rw [hu, Binary.ofFloat_eq]
    exact (congrArg Binary.ofUnpacked (unpack_pack hmeaning hc he)).trans hmeaning

end Decimal

/-! ## Texts -/

namespace Binary

variable {x y : Float} {negative narrow : Bool} {m : Nat} {e : Int}

/-- Doubles with one meaning are one, unless they are no numbers. -/
theorem eq_of_ofFloat_eq (h : ofFloat x = ofFloat y) (hx : ofFloat x ≠ nan) : x = y := by
  rw [ofFloat_eq, ofFloat_eq] at h
  rw [ofFloat_eq] at hx
  have hunpack := ofUnpacked_injective h
  have hne : x.toModel.unpack ≠ .notANumber := by
    intro hnan
    rw [hnan] at hx
    exact hx rfl
  have hne' : y.toModel.unpack ≠ .notANumber := hunpack ▸ hne
  have hbits : x.toModel.toBits.toBitVec = y.toModel.toBits.toBitVec :=
    (pack_unpack _ hne).symm.trans ((congrArg _ hunpack).trans (pack_unpack _ hne'))
  obtain ⟨⟨bits, valid⟩⟩ := x
  obtain ⟨⟨bits', valid'⟩⟩ := y
  obtain rfl : bits = bits' := UInt64.toBitVec_inj.mp hbits
  rfl

theorem ofUnpacked_neg {u : UnpackedFloat} (h : ofUnpacked u = finite negative m e narrow) :
    ofUnpacked u.neg = finite (!negative) m e narrow := by
  rcases u with (_ | _) | _ | (_ | _) | ⟨_ | _, n, f, hn⟩ <;>
    simp only [ofUnpacked, finite.injEq, reduceCtorEq] at h
  all_goals
    obtain ⟨rfl, rfl, rfl, rfl⟩ := h
    rfl

theorem ofFloat_neg (h : ofFloat x = finite negative m e narrow) :
    ofFloat (-x) = finite (!negative) m e narrow := by
  rw [ofFloat_eq] at h ⊢
  rw [unpack_neg]
  exact ofUnpacked_neg h

/-- A double with a finite meaning is neither infinite nor undefined. -/
theorem not_special_of_finite (h : ofFloat x = finite negative m e narrow) :
    (x.isNaN || x.isInf) = false := by
  change (x.toModel.unpack.isNaN || x.toModel.unpack.isInf) = false
  rw [ofFloat_eq] at h
  cases hu : x.toModel.unpack with
  | infinity s => simp [hu, ofUnpacked] at h
  | notANumber => simp [hu, ofUnpacked] at h
  | _ => rfl

theorem exponent_le_of_ofWord {exponentBits bits word : Nat} (hbits : 1 < exponentBits)
    (h : ofWord exponentBits bits word = finite negative m e narrow) :
    e ≤ 2 ^ (exponentBits - 1) - bits - 1 := by
  have hfield : word >>> bits % 2 ^ exponentBits < 2 ^ exponentBits := Nat.mod_lt _ (by positivity)
  obtain ⟨k, rfl⟩ : ∃ k, exponentBits = k + 1 := ⟨exponentBits - 1, by omega⟩
  obtain ⟨half, hhalf, hhalf', hpos⟩ : ∃ half : Nat, 2 ^ k = half ∧ (2 : Int) ^ k = half ∧ 2 ≤ half :=
    ⟨2 ^ k, rfl, by push_cast; rfl, Nat.le_self_pow (by omega) 2⟩
  unfold ofWord at h
  dsimp only at h
  rw [Nat.add_sub_cancel, hhalf'] at h ⊢
  rw [pow_succ, hhalf] at h hfield
  split_ifs at h with hmax hzero hleast
  · obtain ⟨-, -, rfl, -⟩ := finite.inj h
    omega
  · obtain ⟨-, -, rfl, -⟩ := finite.inj h
    omega

end Binary

/-- A numeral is read as the double that its number rounds to, if there is one. -/
theorem Denotes.exists_rounds {text : String} {negative : Bool} {v : ℚ} (h : Denotes text negative v)
    (hv : v < 10 ^ 400) :
    ∃ m e narrow, Binary.Canonical 52 (-1074) m e narrow ∧ Binary.Rounds m e narrow v ∧
      (e ≤ 971 → ∃ x, readFloat? text = some x ∧ Binary.ofFloat x = .finite negative m e narrow) := by
  obtain ⟨n, hn, htext, rfl, rfl⟩ := h
  have hhigh : n.decimal.coefficient = 0 ∨ n.decimal.exponent ≤ 400 := by
    refine (Nat.eq_zero_or_pos n.decimal.coefficient).imp_right fun hpos => ?_
    have hlt := (Decimal.pow_exponent_le hpos).trans_lt hv
    rw [← zpow_natCast] at hlt
    exact ((zpow_lt_zpow_iff_right₀ (by norm_num)).mp hlt).le
  obtain ⟨m, e, narrow, hc, hround, hread⟩ := n.decimal.rounds_toFloat hhigh
  refine ⟨m, e, narrow, hc, hround, fun he => ?_⟩
  have hx := hread he
  have hfinite := (Bool.or_eq_false_iff.mp (Binary.not_special_of_finite hx)).2
  have hsplit := Numeral.splitSign_text hn
  rw [htext] at hsplit
  unfold readFloat?
  rw [hsplit]
  simp only [Numeral.readDecimal?_magnitude hn, Option.bind_eq_bind, Option.bind_some,
    hfinite, Bool.false_eq_true, ↓reduceIte, Option.pure_def]
  cases n.negative
  · exact ⟨_, rfl, hx⟩
  · exact ⟨_, rfl, Binary.ofFloat_neg hx⟩

theorem Binary.Rounds.lt_pow_ten {m : Nat} {e : Int} {narrow : Bool} {q : ℚ}
    (h : Binary.Rounds m e narrow q) (hc : Binary.Canonical 52 (-1074) m e narrow) (he : e ≤ 971) :
    q < 10 ^ 400 := by
  have hm : (m : ℚ) + 1 ≤ 2 ^ 53 := by exact_mod_cast hc.mantissa_lt
  calc q ≤ (4 * m + 2) * 2 ^ (e - 2) := h.le_high
    _ ≤ 2 ^ 55 * 2 ^ (969 : Int) := by
        refine mul_le_mul (by linarith) (zpow_le_zpow_right₀ (by norm_num) (by omega)) ?_ ?_ <;>
          positivity
    _ = 2 ^ 1024 := by rw [← zpow_natCast, ← zpow_add₀ (by norm_num), ← zpow_natCast]; rfl
    _ < 2 ^ 1025 := pow_lt_pow_right₀ (by norm_num) (by norm_num)
    _ ≤ 10 ^ 400 := Decimal.pow_two_le_pow_ten (by norm_num)

/-- A numeral reads back as a double that its number rounds to. -/
theorem Denotes.readFloat?_eq {text : String} {negative narrow : Bool} {v : ℚ} {m : Nat} {e : Int}
    {x : Float} (h : Denotes text negative v) (hround : Binary.Rounds m e narrow v)
    (hx : Binary.ofFloat x = .finite negative m e narrow) : readFloat? text = some x := by
  have hc := Binary.canonical_ofFloat hx
  have he : e ≤ 971 := Binary.exponent_le_of_ofWord (by decide) hx
  obtain ⟨m', e', narrow', hc', hround', hread⟩ := h.exists_rounds (hround.lt_pow_ten hc he)
  obtain ⟨rfl, rfl, rfl⟩ := hround.unique hc hc' hround'
  obtain ⟨y, hread, hy⟩ := hread he
  rw [hread, Binary.eq_of_ofFloat_eq (hy.trans hx.symm) (by simp [hy])]

/-- The text of a finite double reads back as the double. -/
theorem readFloat?_documentNumber {x : Float} (hx : (x.isNaN || x.isInf) = false) :
    readFloat? (documentNumber x) = some x := by
  obtain ⟨negative, m, e, narrow, hfinite⟩ := Binary.exists_finite hx
  obtain ⟨v, hv, hround⟩ := exists_denotes_documentNumber hfinite
  exact hv.readFloat?_eq hround hfinite

/-- The text of a whole number reads back as its nearest double. -/
theorem readFloat?_int {k : Int} (hlt : k.natAbs < 2 ^ 64) :
    readFloat? (toString k) = some (Float.ofInt k) := by
  obtain ⟨m, e, narrow, hfinite, -, hround⟩ := exists_ofInt k (natAbs_lt_of_lt hlt)
  exact (denotes_int k).readFloat?_eq hround hfinite

/-- The text of a finite single-precision number reads back as the double that its number rounds to. -/
theorem readFloat?_documentSingle {x : Float32} {negative narrow : Bool} {m : Nat} {e : Int}
    (hfinite : Binary.ofSingle x = .finite negative m e narrow) :
    ∃ y m' e' narrow', readFloat? (documentSingle x) = some y ∧
      Binary.ofFloat y = .finite negative m' e' narrow' ∧
      Binary.Rounds m' e' narrow' (Decimal.shortest m e narrow).value := by
  have hm : m < 2 ^ 24 := (Binary.canonical_ofWord hfinite).mantissa_lt
  have he : e ≤ 104 := Binary.exponent_le_of_ofWord (by decide) hfinite
  have hlt : m < 2 ^ 54 := hm.trans (by decide)
  have hv : Denotes (documentSingle x) negative (Decimal.shortest m e narrow).value := by
    rw [documentSingle, hfinite]
    exact NumberFormat.denotes_write _ _ _ (Decimal.shortest_pos_or_zero e narrow hlt)
  have hbound : (Decimal.shortest m e narrow).value < 2 ^ 970 := by
    have hm' : (m : ℚ) + 1 ≤ 2 ^ 24 := by exact_mod_cast hm
    calc (Decimal.shortest m e narrow).value
        ≤ (4 * m + 2) * 2 ^ (e - 2) := (Decimal.rounds_shortest e narrow hlt).le_high
      _ ≤ 2 ^ 26 * 2 ^ (102 : Int) := by
          refine mul_le_mul (by linarith) (zpow_le_zpow_right₀ (by norm_num) (by omega)) ?_ ?_ <;>
            positivity
      _ = 2 ^ 128 := by norm_num
      _ < 2 ^ 970 := pow_lt_pow_right₀ (by norm_num) (by norm_num)
  obtain ⟨m', e', narrow', hc', hround', hread⟩ :=
    hv.exists_rounds (hbound.trans_le (Decimal.pow_two_le_pow_ten (by norm_num)))
  obtain ⟨y, hread, hy⟩ := hread (hround'.exponent_le hc' hbound)
  exact ⟨y, m', e', narrow', hread, hy, hround'⟩

/-! ## Whole numbers -/

theorem splitSign_digits (n : Nat) : splitSign (Decimal.digits n) = (false, Decimal.digits n) := by
  have hsign : ∀ c cs, Decimal.digits n = c :: cs → c ≠ '-' ∧ c ≠ '+' := by
    intro c cs hds
    have hc : c.isDigit = true := Decimal.isDigit_of_mem_digits (n := n) (by simp [hds])
    constructor <;> rintro rfl <;> revert hc <;> decide
  unfold splitSign
  split
  · next hds => exact absurd rfl (hsign _ _ hds).1
  · next hds => exact absurd rfl (hsign _ _ hds).2
  · rfl

/-- The text of a whole number reads back. -/
theorem readInt?_toString (k : Int) : readInt? (toString k) = some k := by
  have hdigits (n : Nat) :
      ((Decimal.digits n).isEmpty || !(Decimal.digits n).all Char.isDigit) = false := by
    have hall := List.all_eq_true.mpr fun c hc => Decimal.isDigit_of_mem_digits (n := n) (c := c) hc
    simp [hall, Decimal.digits_ne_nil]
  have hrepr (n : Nat) : n.repr.toList = Decimal.digits n := by
    rw [Nat.repr_eq_ofList_toDigits, String.toList_ofList, Decimal.digits]
  cases k with
  | ofNat n =>
      have htext : (toString (Int.ofNat n)).toList = Decimal.digits n := hrepr n
      rw [readInt?, htext, splitSign_digits]
      simp only [hdigits, Decimal.natOfDigits_digits, Bool.false_eq_true, if_false]
      rfl
  | negSucc n =>
      have htext : (toString (Int.negSucc n)).toList = '-' :: Decimal.digits (n + 1) := by
        rw [← hrepr]
        exact String.toList_append
      rw [readInt?, htext, splitSign]
      simp only [hdigits, Decimal.natOfDigits_digits, Bool.false_eq_true, if_false, if_true]
      rfl

end Tuning
