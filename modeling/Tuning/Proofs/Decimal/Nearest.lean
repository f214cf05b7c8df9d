import Tuning.Proofs.Decimal.Words

/-! # The nearest double of a whole number

Conversion shifts a mantissa to the exponent that the format asks for and keeps two bits of what is
lost. That is enough to round to the nearest double, ties to even. -/

namespace Tuning

open Float.Model UnpackedFloat

/-! ## Shifting -/

/-- A mantissa with its two bits stands for a number between the mantissa and the next one: the first
bit tells the half, the second whether something is lost. -/
structure Truncates (em : ExtendedMantissa) (q : ℚ) : Prop where
  le : em.mantissa + (if em.roundBit then 1 / 2 else 0) ≤ q
  lt : q < em.mantissa + (if em.roundBit then 1 else 1 / 2)
  sticky : em.stickyBit = false ↔ q = em.mantissa + (if em.roundBit then 1 / 2 else 0)

namespace Truncates

variable {em : ExtendedMantissa} {q : ℚ}

theorem ofExact (m : Nat) : Truncates (.ofMantissaAndAccuracy m .exact) m := by
  constructor <;> simp [ExtendedMantissa.ofMantissaAndAccuracy]

/-- The new first bit is the last bit of the mantissa; the old bits are lost. -/
theorem shiftRightOne (h : Truncates em q) : Truncates em.shiftRightOne (q / 2) := by
  obtain ⟨m, round, sticky⟩ := em
  obtain ⟨hle, hlt, hsticky⟩ := h
  have hm : (m : ℚ) = 2 * (m / 2 : Nat) + (m % 2 : Nat) := by
    exact_mod_cast (Nat.div_add_mod m 2).symm
  have hq : (round || sticky) = false ↔ q = m := by
    cases round
    · simpa using hsticky
    · simp only [↓reduceIte, Bool.true_or, Bool.true_eq_false, false_iff] at hle ⊢
      linarith
  have hbounds : (m : ℚ) ≤ q ∧ q < m + 1 := by
    cases round <;> simp only [Bool.false_eq_true, ↓reduceIte] at hle hlt <;>
      constructor <;> linarith
  rcases Nat.mod_two_eq_zero_or_one m with hmod | hmod <;> rw [hmod] at hm <;> push_cast at hm <;>
    constructor <;>
    simp only [ExtendedMantissa.shiftRightOne, hmod, bne_self_eq_false, Bool.false_eq_true,
      Nat.one_ne_zero, bne_iff_ne, ne_eq, not_false_eq_true, ↓reduceIte]
  · linarith
  · linarith
  · rw [hq]
    constructor <;> intro <;> linarith
  · linarith
  · linarith
  · rw [hq]
    constructor <;> intro <;> linarith

theorem shiftRight (h : Truncates em q) (k : Nat) : Truncates (em >>> k) (q / 2 ^ k) := by
  change Truncates (k.repeat ExtendedMantissa.shiftRightOne em) _
  induction k with
  | zero => simpa [Nat.repeat] using h
  | succ k ih =>
      rw [Nat.repeat, pow_succ, ← div_div]
      exact ih.shiftRightOne

theorem mantissa_le (h : Truncates em q) : (em.mantissa : ℚ) ≤ q := by
  refine le_trans ?_ h.le
  split <;> norm_num

/-- Rounding takes the nearest mantissa, and an even one if two are equally near. -/
theorem roundedMantissa (h : Truncates em q) :
    (em.roundedMantissa : ℚ) - 1 / 2 ≤ q ∧ q ≤ em.roundedMantissa + 1 / 2 ∧
      (em.roundedMantissa % 2 = 1 →
        (em.roundedMantissa : ℚ) - 1 / 2 < q ∧ q < em.roundedMantissa + 1 / 2) := by
  obtain ⟨m, round, sticky⟩ := em
  obtain ⟨hle, hlt, hsticky⟩ := h
  cases round <;> cases sticky <;>
    simp only [ExtendedMantissa.roundedMantissa, ExtendedMantissa.accuracy,
      Accuracy.roundToNearestEven, Bool.false_eq_true, Bool.true_eq_false, ↓reduceIte, false_iff,
      true_iff] at hle hlt hsticky ⊢
  · refine ⟨by linarith, by linarith, fun _ => ⟨by linarith, by linarith⟩⟩
  · refine ⟨by linarith, by linarith, fun _ => ⟨by linarith, by linarith⟩⟩
  · -- halfway: the rounded mantissa is even
    have heven : (m + m % 2) % 2 = 0 := by omega
    have hcast : ((m % 2 : Nat) : ℚ) ≤ 1 ∧ 0 ≤ ((m % 2 : Nat) : ℚ) :=
      ⟨by exact_mod_cast Nat.le_of_lt_succ (Nat.mod_lt m (by decide)), by positivity⟩
    push_cast
    refine ⟨by linarith, by linarith, fun hodd => by omega⟩
  · have hne := lt_of_le_of_ne hle (Ne.symm hsticky)
    push_cast
    refine ⟨by linarith, by linarith, fun _ => ⟨by linarith, by linarith⟩⟩

theorem roundedMantissa_bounds (em : ExtendedMantissa) :
    em.mantissa ≤ em.roundedMantissa ∧ em.roundedMantissa ≤ em.mantissa + 1 := by
  obtain ⟨m, round, sticky⟩ := em
  cases round <;> cases sticky <;>
    simp only [ExtendedMantissa.roundedMantissa, ExtendedMantissa.accuracy,
      Accuracy.roundToNearestEven] <;> omega

end Truncates

theorem targetExponent_eq (m : Nat) (e : Int) :
    Format.binary64.targetExponent (totalExponent m e) = max (m.log2 + e - 52) (-1074) := by
  simp only [Format.targetExponent, totalExponent, Format.mantissaBits, Format.minExponent]
  norm_num
  omega

/-- A mantissa that fits stays as it is. -/
theorem shift_of_lt {m : Nat} {e : Int} (hm : m < 2 ^ 53) (he : -1074 ≤ e) :
    shiftToTargetExponent Format.binary64 m e .exact = (⟨m, false, false⟩, e) := by
  have hlog : m.log2 ≤ 52 := by
    rcases Nat.eq_zero_or_pos m with rfl | hpos
    · decide
    · have := (Nat.log2_lt (by omega)).mpr hm
      omega
  have hshift : (max (m.log2 + e - 52) (-1074) - e).toNat = 0 := by omega
  simp only [shiftToTargetExponent, targetExponent_eq, shiftToExponent, hshift]
  simp [ExtendedMantissa.ofMantissaAndAccuracy, HShiftRight.hShiftRight, Nat.repeat]

/-- A mantissa that rounding has made too long by one bit loses a zero. -/
theorem shift_of_eq {e : Int} (he : -1074 ≤ e) :
    shiftToTargetExponent Format.binary64 (2 ^ 53) e .exact = (⟨2 ^ 52, false, false⟩, e + 1) := by
  have hlog : (2 ^ 53).log2 = 53 := Nat.log2_two_pow
  have hshift : (max (((2 ^ 53).log2 : Int) + e - 52) (-1074) - e).toNat = 1 := by
    rw [hlog]
    omega
  simp only [shiftToTargetExponent, targetExponent_eq, shiftToExponent, hshift]
  simp [ExtendedMantissa.ofMantissaAndAccuracy, HShiftRight.hShiftRight, Nat.repeat,
    ExtendedMantissa.shiftRightOne]

/-! ## Rounding -/

/-- Unpacked parts make the double that a rational rounds to. -/
def Nearest (u : UnpackedFloat) (s : Sign) (q : ℚ) : Prop :=
  ∃ m e narrow, Binary.ofUnpacked u = .finite (isMinus s) m e narrow ∧
    Binary.Canonical 52 (-1074) m e narrow ∧ Binary.Rounds m e narrow q

/-- The rounding interval in units of the last place. -/
theorem rounds_units {m : Nat} {narrow : Bool} {q : ℚ} (e : Int)
    (hlow : m - (if narrow then 1 / 4 else 1 / 2) ≤ q) (hhigh : q ≤ m + 1 / 2)
    (hodd : m % 2 = 1 → m - (if narrow then 1 / 4 else 1 / 2) < q ∧ q < m + 1 / 2) :
    Binary.Rounds m e narrow (q * 2 ^ e) := by
  have hunit : (0 : ℚ) < 2 ^ (e - 2) := zpow_pos (by norm_num) _
  have hpow := Binary.pow_eq_quarters e
  have hleft : (4 * (m : ℚ) - if narrow then 1 else 2) * 2 ^ (e - 2) =
      (m - (if narrow then 1 / 4 else 1 / 2)) * 2 ^ e := by
    rw [hpow]
    split <;> ring
  have hright : (4 * (m : ℚ) + 2) * 2 ^ (e - 2) = (m + 1 / 2) * 2 ^ e := by
    rw [hpow]
    ring
  have hpos : (0 : ℚ) < 2 ^ e := zpow_pos (by norm_num) _
  refine ⟨?_, ?_, fun h => ⟨?_, ?_⟩⟩
  · rw [hleft]
    exact mul_le_mul_of_nonneg_right hlow hpos.le
  · rw [hright]
    exact mul_le_mul_of_nonneg_right hhigh hpos.le
  · rw [hleft]
    exact mul_lt_mul_of_pos_right (hodd h).1 hpos
  · rw [hright]
    exact mul_lt_mul_of_pos_right (hodd h).2 hpos

/-- The double with a given mantissa and exponent. -/
def assemble (s : Sign) (m : Nat) (e : Int) : UnpackedFloat :=
  if h : m = 0 then .zero s else .finite s m e (Nat.pos_of_ne_zero h)

theorem ofUnpacked_assemble (s : Sign) {m : Nat} {e : Int} (h : m = 0 → e = -1074) :
    Binary.ofUnpacked (assemble s m e) =
      .finite (isMinus s) m e (m = 2 ^ 52 && -1074 < e) := by
  unfold assemble
  split
  · next hm =>
      rw [hm, h hm]
      rfl
  · rfl

/-- A rounded mantissa makes the nearest double, also when rounding has made it too long. -/
theorem nearest_assemble (s : Sign) {r : Nat} {t : Int} {q : ℚ} (ht : -1074 ≤ t)
    (hr : r ≤ 2 ^ 53) (hnormal : -1074 < t → 2 ^ 52 ≤ q)
    (hround : (r : ℚ) - 1 / 2 ≤ q ∧ q ≤ r + 1 / 2 ∧
      (r % 2 = 1 → (r : ℚ) - 1 / 2 < q ∧ q < r + 1 / 2)) :
    Nearest (assemble s (shiftToTargetExponent Format.binary64 r t .exact).1.mantissa
      (shiftToTargetExponent Format.binary64 r t .exact).2) s (q * 2 ^ t) := by
  obtain ⟨hlow, hhigh, hodd⟩ := hround
  have hle : -1074 < t → 2 ^ 52 ≤ r := by
    intro hlt
    have hq := hnormal hlt
    have : ((2 ^ 52 : Nat) : ℚ) < r + 1 := by
      push_cast
      linarith
    exact Nat.lt_succ_iff.mp (by exact_mod_cast this)
  rcases hr.lt_or_eq with hlt | rfl
  · rw [shift_of_lt hlt ht]
    refine ⟨r, t, r = 2 ^ 52 && -1074 < t, ofUnpacked_assemble s ?_, ⟨hlt, ht, hle, ?_⟩, ?_⟩
    · intro (hzero : r = 0)
      by_contra hne
      have := hle (by omega)
      omega
    · simp
    · by_cases hnarrow : r = 2 ^ 52 ∧ -1074 < t
      · obtain ⟨rfl, hlt'⟩ := hnarrow
        refine rounds_units t ?_ hhigh fun h => by omega
        have := hnormal hlt'
        simp only [hlt', decide_true, Bool.and_self, ↓reduceIte]
        push_cast
        linarith
      · have hfalse : (decide (r = 2 ^ 52) && decide (-1074 < t)) = false := by
          simpa using hnarrow
        rw [hfalse]
        exact rounds_units t hlow hhigh hodd
  · rw [shift_of_eq ht]
    refine ⟨2 ^ 52, t + 1, true, ?_, ⟨by decide, by omega, fun _ => le_rfl, by simp; omega⟩, ?_⟩
    · rw [ofUnpacked_assemble s (by simp)]
      simp only [decide_true, Bool.true_and, Binary.finite.injEq, true_and]
      exact decide_eq_true (by omega)
    · have hhalf : q * 2 ^ t = q / 2 * 2 ^ (t + 1) := by
        rw [zpow_add_one₀ (by norm_num)]
        ring
      push_cast at hlow hhigh
      rw [hhalf]
      refine rounds_units (t + 1) ?_ ?_ fun h => by omega
      · simp only [↓reduceIte]
        push_cast
        linarith
      · push_cast
        linarith

/-- Rounding what stands for a rational gives its nearest double, if the exponent only has to grow. -/
theorem nearest_of_truncates (s : Sign) {m : Nat} {e : Int} {accuracy : Accuracy} {q : ℚ}
    (h : Truncates (.ofMantissaAndAccuracy m accuracy) q) (hlt : q < m + 1)
    (he : e ≤ max (m.log2 + e - 52) (-1074)) :
    Nearest (roundWithAccuracy Format.binary64 s m e accuracy) s (q * 2 ^ e) := by
  obtain ⟨k, hk⟩ : ∃ k : Nat, (max (m.log2 + e - 52) (-1074) - e).toNat = k := ⟨_, rfl⟩
  have htarget : max (m.log2 + e - 52) (-1074) = e + k := by omega
  have hfirst : shiftToTargetExponent Format.binary64 m e accuracy =
      (ExtendedMantissa.ofMantissaAndAccuracy m accuracy >>> k, e + k) := by
    simp only [shiftToTargetExponent, targetExponent_eq, shiftToExponent, hk]
  have hmantissa : (ExtendedMantissa.ofMantissaAndAccuracy m accuracy).mantissa = m := by
    unfold ExtendedMantissa.ofMantissaAndAccuracy
    split <;> rfl
  have hle : (m : ℚ) ≤ q := hmantissa ▸ h.mantissa_le
  have hem := h.shiftRight k
  generalize ExtendedMantissa.ofMantissaAndAccuracy m accuracy >>> k = em at hfirst hem
  have hlog : (m : ℚ) + 1 ≤ 2 ^ (m.log2 + 1) := by
    exact_mod_cast Nat.succ_le_of_lt (Nat.lt_log2_self (n := m))
  have hvalue : q * 2 ^ e = q / 2 ^ k * 2 ^ (e + k) := by
    rw [zpow_add₀ (by norm_num), zpow_natCast]
    field_simp
  have hlt : q / 2 ^ k < 2 ^ 53 := by
    rw [div_lt_iff₀ (by positivity), ← pow_add]
    exact (hlt.trans_le hlog).trans_le (pow_le_pow_right₀ (by norm_num) (by omega))
  have hresult : roundWithAccuracy Format.binary64 s m e accuracy =
      assemble s (shiftToTargetExponent Format.binary64 em.roundedMantissa (e + k) .exact).1.mantissa
        (shiftToTargetExponent Format.binary64 em.roundedMantissa (e + k) .exact).2 := by
    unfold roundWithAccuracy
    rw [hfirst]
    rfl
  rw [hresult, hvalue]
  refine nearest_assemble s (by omega) ?_ ?_ hem.roundedMantissa
  · have hmant : (em.mantissa : ℚ) < (2 ^ 53 : Nat) := by
      push_cast
      exact hem.mantissa_le.trans_lt hlt
    have := (Truncates.roundedMantissa_bounds em).2
    have : em.mantissa < 2 ^ 53 := by exact_mod_cast hmant
    omega
  · intro hnormal
    rcases Nat.eq_zero_or_pos m with rfl | hm
    · rw [show (0 : Nat).log2 = 0 from rfl] at he htarget
      omega
    · have hlog' : (2 : ℚ) ^ m.log2 ≤ m := by exact_mod_cast Nat.log2_self_le (by omega)
      rw [le_div_iff₀ (by positivity), ← pow_add]
      refine le_trans (pow_le_pow_right₀ (by norm_num) ?_) (hlog'.trans hle)
      omega

/-- So does rounding an exact mantissa. -/
theorem nearest_roundWithAccuracy (s : Sign) {m : Nat} {e : Int}
    (he : e ≤ max (m.log2 + e - 52) (-1074)) :
    Nearest (roundWithAccuracy Format.binary64 s m e .exact) s (m * 2 ^ e) :=
  nearest_of_truncates s (.ofExact m) (lt_add_one _) he

/-! ## Packing -/

theorem toNat_packComponents (s : Sign) (field : BitVec 11) (fraction : BitVec 52) :
    (packComponents Format.binary64 s field fraction).toNat =
      (if isMinus s then 2 ^ 63 else 0) + field.toNat * 2 ^ 52 + fraction.toNat := by
  have happend : (packComponents Format.binary64 s field fraction).toNat =
      (s.toBitVec ++ field).toNat <<< 52 ||| fraction.toNat := BitVec.toNat_append _ _
  rw [happend, ← Nat.shiftLeft_add_eq_or_of_lt fraction.isLt, BitVec.toNat_append,
    ← Nat.shiftLeft_add_eq_or_of_lt field.isLt]
  cases s
  · simp only [Sign.toBitVec, isMinus, Nat.shiftLeft_eq, BitVec.toNat_ofNat, ↓reduceIte]
    omega
  · simp [Sign.toBitVec, isMinus, Nat.shiftLeft_eq]

/-- A word that is put together from fields has these fields. -/
theorem ofWord_fields (s : Sign) (field fraction : Nat) (hfield : field < 2047)
    (hfraction : fraction < 2 ^ 52) :
    Binary.ofWord 11 52 ((if isMinus s then 2 ^ 63 else 0) + field * 2 ^ 52 + fraction) =
      if field = 0 then .finite (isMinus s) fraction (-1074) false
      else .finite (isMinus s) (2 ^ 52 + fraction) (field - 1075) (fraction = 0 && 1 < field) := by
  generalize hword : (if isMinus s then 2 ^ 63 else 0) + field * 2 ^ 52 + fraction = word
  have hsign : word.testBit (11 + 52) = isMinus s := by
    rw [Nat.testBit_eq_decide_div_mod_eq, ← hword]
    cases s <;> simp [isMinus] <;> omega
  have hshift : word >>> 52 % 2 ^ 11 = field := by
    rw [Nat.shiftRight_eq_div_pow, ← hword]
    cases s <;> simp [isMinus] <;> omega
  have hrest : word % 2 ^ 52 = fraction := by
    rw [← hword]
    cases s <;> simp [isMinus] <;> omega
  unfold Binary.ofWord
  simp only [hsign, hshift, hrest]
  rw [if_neg (by omega)]
  split
  · norm_num
  · norm_num
    omega

/-- Packing keeps a finite double of the format. -/
theorem unpack_pack {u : UnpackedFloat} {negative narrow : Bool} {m : Nat} {e : Int}
    (hu : Binary.ofUnpacked u = .finite negative m e narrow)
    (hc : Binary.Canonical 52 (-1074) m e narrow) (he : e ≤ 971) :
    (Float.Model.pack u).unpack = u := by
  refine Binary.ofUnpacked_injective ?_
  change Binary.ofUnpacked (UnpackedFloat.unpack Format.binary64
    (UnpackedFloat.pack Format.binary64 u)) = _
  rw [← Binary.ofWord_eq]
  cases u with
  | infinity s => simp [Binary.ofUnpacked] at hu
  | notANumber => simp [Binary.ofUnpacked] at hu
  | zero s =>
      rw [UnpackedFloat.pack, packedZero, toNat_packComponents]
      exact ofWord_fields s 0 0 (by decide) (by decide)
  | finite s n f hn =>
      obtain ⟨-, rfl, rfl, hnarrow⟩ := Binary.finite.inj hu
      have hexp : ((f + (Format.binary64.exponentBias : Int) + 52).toNat : Int) = f + 1075 := by
        have := hc.least_le
        simp only [Format.exponentBias]
        norm_num
        omega
      unfold UnpackedFloat.pack
      dsimp only
      generalize hfield : (f + (Format.binary64.exponentBias : Int) + 52).toNat = field at *
      rw [if_neg (by have := hc.least_le; omega)]
      have hupper := hc.mantissa_lt
      have hlower := hc.least_le
      have hbits : n.log2 < 53 := (Nat.log2_lt (by omega)).mpr hupper
      by_cases hnormal : 2 ^ 52 ≤ n
      · have hlog : n.log2 + 1 = Format.binary64.mantissaBits := by
          have := (Nat.le_log2 (by omega)).mpr hnormal
          change n.log2 + 1 = 53
          omega
        rw [if_pos hlog, toNat_packComponents, BitVec.toNat_ofNat, BitVec.toNat_ofNat]
        change Binary.ofWord 11 52 (_ + field % 2 ^ 11 * 2 ^ 52 + n % 2 ^ 52) = _
        rw [Nat.mod_eq_of_lt (by omega),
          ofWord_fields s field (n % 2 ^ 52) (by omega) (Nat.mod_lt _ (by decide)), if_neg (by omega),
          Binary.ofUnpacked, Binary.finite.injEq]
        refine ⟨rfl, by omega, by omega, ?_⟩
        congr 1 <;> exact decide_eq_decide.mpr (by omega)
      · have hlog : ¬n.log2 + 1 = Format.binary64.mantissaBits := by
          have := (Nat.log2_lt (by omega)).mpr (not_le.mp hnormal)
          change ¬n.log2 + 1 = 53
          omega
        have hleast : f = -1074 := by
          by_contra hne
          exact hnormal (hc.normal (by omega))
        rw [if_neg hlog, toNat_packComponents, BitVec.toNat_ofNat]
        change Binary.ofWord 11 52 (_ + 0 * 2 ^ 52 + n % 2 ^ 52) = _
        rw [Nat.mod_eq_of_lt (by omega), ofWord_fields s 0 n (by decide) (by omega), if_pos rfl,
          Binary.ofUnpacked, hleast]
        simp

theorem Binary.Rounds.exponent_le {m : Nat} {e : Int} {narrow : Bool} {q : ℚ}
    (h : Binary.Rounds m e narrow q) (hc : Binary.Canonical 52 (-1074) m e narrow) (hq : q < 2 ^ 970) :
    e ≤ 971 := by
  refine not_lt.mp fun he => absurd hq (not_lt.mpr ?_)
  have hm : (2 : ℚ) ^ 52 ≤ m := by exact_mod_cast hc.normal (by omega)
  have hpow : (2 : ℚ) ^ 970 ≤ 2 ^ (e - 2) := by
    rw [← zpow_natCast]
    exact zpow_le_zpow_right₀ (by norm_num) (by omega)
  calc (2 : ℚ) ^ 970 ≤ 2 ^ (e - 2) := hpow
    _ ≤ (4 * m - if narrow then 1 else 2) * 2 ^ (e - 2) := by
        refine le_mul_of_one_le_left (zpow_nonneg (by norm_num) _) ?_
        split <;> linarith
    _ ≤ q := h.low_le

namespace Nearest

variable {u : UnpackedFloat} {s : Sign} {q : ℚ}

/-- A rational that is not too large rounds to a finite double, which packing keeps. -/
theorem unpack_pack (h : Nearest u s q) (hq : q < 2 ^ 970) : (Float.Model.pack u).unpack = u := by
  obtain ⟨m, e, narrow, hu, hc, hround⟩ := h
  exact Tuning.unpack_pack hu hc (hround.exponent_le hc hq)

theorem neg (h : Nearest u .positive q) : Nearest u.neg .negative q := by
  obtain ⟨m, e, narrow, hu, hc, hround⟩ := h
  refine ⟨m, e, narrow, ?_, hc, hround⟩
  cases u with
  | notANumber => simp [Binary.ofUnpacked] at hu
  | infinity t => simp [Binary.ofUnpacked] at hu
  | zero t =>
      obtain ⟨ht, hrest⟩ := Binary.finite.inj hu
      rw [isMinus_injective ht]
      exact (Binary.finite.injEq ..).mpr ⟨rfl, hrest⟩
  | finite t n f hn =>
      obtain ⟨ht, hrest⟩ := Binary.finite.inj hu
      rw [isMinus_injective ht]
      exact (Binary.finite.injEq ..).mpr ⟨rfl, hrest⟩

end Nearest

/-! ## Whole numbers -/

theorem log2_mul_pow {m : Nat} (hm : 0 < m) (k : Nat) : (m * 2 ^ k).log2 = m.log2 + k := by
  rw [Nat.log2_eq_iff (by positivity)]
  have hlow := Nat.log2_self_le hm.ne'
  have hhigh := Nat.lt_log2_self (n := m)
  constructor
  · rw [pow_add]
    exact Nat.mul_le_mul_right _ hlow
  · rw [Nat.add_right_comm, pow_add]
    exact Nat.mul_lt_mul_of_pos_right hhigh (by positivity)

/-- Rounding gives the nearest double. -/
theorem nearest_round (s : Sign) {m : Nat} (e : Int) (hm : 0 < m) :
    Nearest (UnpackedFloat.round Format.binary64 s m e) s (m * 2 ^ e) := by
  unfold UnpackedFloat.round decreaseExponent
  rw [targetExponent_eq]
  dsimp only
  generalize hk : (e - max (m.log2 + e - 52) (-1074)).toNat = k
  have hlog := log2_mul_pow hm k
  have hvalue : (m : ℚ) * 2 ^ e = (m * 2 ^ k : Nat) * 2 ^ (e - k) := by
    push_cast
    rw [mul_assoc, ← zpow_natCast, ← zpow_add₀ (by norm_num), add_sub_cancel]
  rw [Nat.shiftLeft_eq, hvalue]
  refine nearest_roundWithAccuracy s ?_
  rw [hlog]
  push_cast
  omega

/-- A product with one is the double itself. -/
theorem nearest_mul_one {u : UnpackedFloat} {q : ℚ} (h : Nearest u .positive q) :
    Nearest (mul Format.binary64 u (.finite .positive (2 ^ 52) (-52) (by decide))) .positive q := by
  obtain ⟨m, e, narrow, hu, hc, hround⟩ := h
  cases u with
  | notANumber => simp [Binary.ofUnpacked] at hu
  | infinity t => simp [Binary.ofUnpacked] at hu
  | zero t =>
      obtain ⟨ht, -⟩ := Binary.finite.inj hu
      cases isMinus_injective (t := .positive) ht
      exact ⟨m, e, narrow, hu, hc, hround⟩
  | finite t n f hn =>
      obtain ⟨ht, rfl, rfl, rfl⟩ := Binary.finite.inj hu
      cases isMinus_injective (t := .positive) ht
      have hvalue : ((n * 2 ^ 52 : Nat) : ℚ) * 2 ^ (f + -52) = n * 2 ^ f := by
        rw [Nat.cast_mul, Nat.cast_pow, Nat.cast_ofNat, mul_assoc, ← zpow_natCast,
          ← zpow_add₀ (by norm_num)]
        congr 2
        omega
      have hlog := log2_mul_pow hn 52
      obtain ⟨m', e', narrow', hu', hc', hround'⟩ :=
        nearest_roundWithAccuracy .positive (m := n * 2 ^ 52)
          (e := f + -52) (by rw [hlog]; push_cast; omega)
      rw [hvalue] at hround'
      obtain ⟨rfl, rfl, rfl⟩ := (Binary.rounds_self n f _).unique hc hc' hround'
      exact ⟨_, _, _, hu', hc', hround⟩

theorem ofNat_of_lt {n : Nat} (h : n < 2 ^ 53) :
    Float.ofNat n = n.toUInt64.toFloat * Float.ofBits 0x3FF0000000000000 := by
  change Float.ofScientific n false 0 = _
  unfold Float.ofScientific
  rw [dif_pos ⟨h, by decide⟩]
  rfl

theorem ofNat_of_ge {n : Nat} (h : 2 ^ 53 ≤ n) :
    Float.ofNat n = ⟨Float.Model.pack (roundWithAccuracy Format.binary64 .positive (n * 2 ^ 53)
      (-53) .exact)⟩ := by
  change Float.ofScientific n false 0 = _
  unfold Float.ofScientific
  rw [dif_neg (by omega)]
  change Float.ofModel (Float.Model.pack (UnpackedFloat.ofScientific Format.binary64 n 0)) = _
  congr 2
  unfold UnpackedFloat.ofScientific
  rw [dif_neg (by omega), if_neg (by norm_num), if_neg (by norm_num), if_pos le_rfl,
    UnpackedFloat.mul, Nat.shiftLeft_eq, Int.toNat_zero, pow_zero, mul_one]
  rfl

theorem unpack_one : (Float.ofBits 0x3FF0000000000000).toModel.unpack =
    .finite .positive (2 ^ 52) (-52) (by decide) :=
  rfl

theorem nearest_ofUInt64 {n : Nat} (hn : 0 < n) (hlt : n < 2 ^ 64) :
    Nearest (UnpackedFloat.ofUInt64 Format.binary64 n.toUInt64) .positive n := by
  have hround := nearest_round .positive 0 hn
  have hword : n.toUInt64.toNat = n := by
    simp only [Nat.toUInt64_eq, UInt64.toNat_ofNat']
    omega
  have hsign : compare (n : Int) 0 = .gt := compare_gt_iff_gt.mpr (by omega)
  rw [zpow_zero, mul_one] at hround
  unfold UnpackedFloat.ofUInt64 UnpackedFloat.ofNat UnpackedFloat.ofInt UnpackedFloat.normalize
  rw [hword, hsign]
  exact hround

/-- A whole number becomes the nearest double. -/
theorem nearest_ofNat {n : Nat} (hn : 0 < n) (hlt : (n : ℚ) < 2 ^ 970) :
    Nearest (Float.ofNat n).toModel.unpack .positive n := by
  rcases Nat.lt_or_ge n (2 ^ 53) with hsmall | hlarge
  · have hround := nearest_ofUInt64 hn (hsmall.trans (by decide))
    have hproduct := nearest_mul_one hround
    rw [ofNat_of_lt hsmall]
    change Nearest (Float.Model.pack (mul Format.binary64
      (Float.Model.pack (UnpackedFloat.ofUInt64 Format.binary64 n.toUInt64)).unpack
      (Float.ofBits 0x3FF0000000000000).toModel.unpack)).unpack .positive n
    rw [hround.unpack_pack hlt, unpack_one, hproduct.unpack_pack hlt]
    exact hproduct
  · have hlog := log2_mul_pow hn 53
    have hround := nearest_roundWithAccuracy .positive (m := n * 2 ^ 53)
      (e := -53) (by rw [hlog]; push_cast; omega)
    have hvalue : ((n * 2 ^ 53 : Nat) : ℚ) * 2 ^ (-53 : Int) = n := by
      rw [Nat.cast_mul, Nat.cast_pow, Nat.cast_ofNat, mul_assoc, ← zpow_natCast,
        ← zpow_add₀ (by norm_num)]
      norm_num
    rw [hvalue] at hround
    rw [ofNat_of_ge hlarge]
    change Nearest (Float.Model.pack _).unpack .positive n
    rw [hround.unpack_pack hlt]
    exact hround

/-- So does a whole number with a sign. -/
theorem exists_ofInt (k : Int) (hlt : (k.natAbs : ℚ) < 2 ^ 970) :
    ∃ m e narrow, Binary.ofFloat (Float.ofInt k) = .finite (decide (k < 0)) m e narrow ∧
      Binary.Canonical 52 (-1074) m e narrow ∧ Binary.Rounds m e narrow k.natAbs := by
  cases k with
  | ofNat n =>
      have hsign : decide (Int.ofNat n < 0) = false := by simp
      rw [hsign]
      rcases Nat.eq_zero_or_pos n with rfl | hn
      · exact ⟨0, -1074, false, rfl, ⟨by decide, le_rfl, by simp, by simp⟩,
          by simpa using Binary.rounds_self 0 (-1074) false⟩
      · rw [Binary.ofFloat_eq]
        exact nearest_ofNat hn hlt
  | negSucc n =>
      have hsign : decide (Int.negSucc n < 0) = true := by simp
      have hneg := (nearest_ofNat (Nat.succ_pos n) hlt).neg
      rw [hsign, Binary.ofFloat_eq]
      change Nearest (Float.Model.pack (Float.ofNat (n + 1)).toModel.unpack.neg).unpack .negative _
      rw [hneg.unpack_pack hlt]
      exact hneg

theorem natAbs_lt_of_lt {k : Int} (hlt : k.natAbs < 2 ^ 64) : (k.natAbs : ℚ) < 2 ^ 970 := by
  refine lt_of_lt_of_le (Nat.cast_lt.mpr hlt) ?_
  rw [Nat.cast_pow, Nat.cast_ofNat]
  exact pow_le_pow_right₀ (by norm_num) (by norm_num)

/-- A double with the text of a whole number is the nearest double of the number. -/
theorem beq_of_documentNumber_eq_int {x : Float} {k : Int} (hx : (x.isNaN || x.isInf) = false)
    (hlt : k.natAbs < 2 ^ 64) (h : documentNumber x = toString k) :
    (Float.ofInt k == x) = true := by
  obtain ⟨s, m, e, narrow, hxm⟩ := Binary.exists_finite hx
  obtain ⟨m', e', narrow', hkm, hc, hround⟩ := exists_ofInt k (natAbs_lt_of_lt hlt)
  obtain ⟨v, hv, hvm⟩ := exists_denotes_documentNumber hxm
  rw [h] at hv
  obtain ⟨rfl, rfl⟩ := hv.unique (denotes_int k)
  obtain ⟨rfl, rfl, rfl⟩ := hvm.unique (Binary.canonical_ofFloat hxm) hc hround
  exact Binary.beq_of_ofFloat_eq (hkm.trans hxm.symm) (by rw [hkm]; simp)

end Tuning
