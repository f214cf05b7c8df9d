import Mathlib
import Tuning.Proofs.Value.Sameness

/-! # The order of doubles

Doubles that are numbers are ordered in a line, on which the two zeros share a place. Negation turns
the line around and is undone by itself. -/

namespace Tuning

open Float.Model UnpackedFloat

/-! ## Places on the line -/

/-- The place of an unpacked number on the line: its side, then its exponent, then its mantissa. -/
def place : UnpackedFloat → Int ×ₗ Int ×ₗ Int
  | .infinity .negative => toLex (-2, toLex (0, 0))
  | .finite .negative m e _ => toLex (-1, toLex (-e, -m))
  | .zero _ => toLex (0, toLex (0, 0))
  | .notANumber => toLex (0, toLex (0, 0))
  | .finite .positive m e _ => toLex (1, toLex (e, m))
  | .infinity .positive => toLex (2, toLex (0, 0))

theorem compare_sign_eq_lt_iff (s t : Sign) : compare s t = .lt ↔ s = .negative ∧ t = .positive := by
  cases s <;> cases t <;> simp [compare]

theorem compare_unpacked_eq_lt_iff (a b : UnpackedFloat) :
    a.compare b = some .lt ↔ a ≠ .notANumber ∧ b ≠ .notANumber ∧ place a < place b := by
  rcases a with (_ | _) | _ | (_ | _) | ⟨_ | _, m, e, hm⟩ <;>
    rcases b with (_ | _) | _ | (_ | _) | ⟨_ | _, n, f, hn⟩ <;>
    simp [UnpackedFloat.compare, place, Prod.Lex.toLex_lt_toLex, compare_sign_eq_lt_iff,
      Ordering.then_eq_lt, Ordering.then_eq_gt, Int.compare_eq_lt, Int.compare_eq_gt, Nat.compare_eq_lt,
      Nat.compare_eq_gt]

/-- Only the two zeros share a place. -/
theorem place_eq_iff {a b : UnpackedFloat} (ha : a ≠ .notANumber) (hb : b ≠ .notANumber) :
    place a = place b ↔ a.compare b = some .eq := by
  rcases a with (_ | _) | _ | (_ | _) | ⟨_ | _, m, e, hm⟩ <;>
    rcases b with (_ | _) | _ | (_ | _) | ⟨_ | _, n, f, hn⟩ <;>
    simp_all [UnpackedFloat.compare, place, compare_sign_eq_iff, Ordering.then_eq_eq]

theorem unpack_ne_notANumber_iff {x : Float} :
    x.toModel.unpack ≠ .notANumber ↔ x.isNaN = false := by
  change _ ↔ x.toModel.unpack.isNaN = false
  cases x.toModel.unpack <;> simp [UnpackedFloat.isNaN]

/-- The place of a double on the line. -/
def Double.place (x : Float) : Int ×ₗ Int ×ₗ Int :=
  Tuning.place x.toModel.unpack

theorem float_lt_iff_compare {x y : Float} :
    x < y ↔ x.toModel.unpack.compare y.toModel.unpack = some .lt := by
  change decide (x.toModel < y.toModel) = true ↔ _
  rw [decide_eq_true_iff]
  change (x.toModel.unpack.compare y.toModel.unpack == some .lt) = true ↔ _
  rw [beq_iff_eq]

theorem float_le_iff_lt_or_beq {x y : Float} : x ≤ y ↔ x < y ∨ (x == y) = true := by
  rw [float_lt_iff_compare]
  change decide (x.toModel ≤ y.toModel) = true ↔
    _ ∨ (x.toModel.unpack.compare y.toModel.unpack == some .eq) = true
  rw [decide_eq_true_iff]
  change (x.toModel.unpack.compare y.toModel.unpack).any (·.isLE) = true ↔ _
  rcases x.toModel.unpack.compare y.toModel.unpack with _ | _ | _ | _ <;> decide

theorem float_lt_iff {x y : Float} :
    x < y ↔ x.isNaN = false ∧ y.isNaN = false ∧ Double.place x < Double.place y := by
  rw [float_lt_iff_compare, compare_unpacked_eq_lt_iff, unpack_ne_notANumber_iff, unpack_ne_notANumber_iff]
  rfl

theorem float_beq_iff_place {x y : Float} :
    (x == y) = true ↔ x.isNaN = false ∧ y.isNaN = false ∧ Double.place x = Double.place y := by
  change (x.toModel.unpack.compare y.toModel.unpack == some .eq) = true ↔ _
  rw [beq_iff_eq, ← unpack_ne_notANumber_iff, ← unpack_ne_notANumber_iff]
  constructor
  · intro h
    have hx : x.toModel.unpack ≠ .notANumber := by
      intro hnan
      simp [hnan, UnpackedFloat.compare] at h
    have hy : y.toModel.unpack ≠ .notANumber := by
      intro hnan
      cases hu : x.toModel.unpack <;> simp [hu, hnan, UnpackedFloat.compare] at h
    exact ⟨hx, hy, (place_eq_iff hx hy).mpr h⟩
  · rintro ⟨hx, hy, h⟩
    exact (place_eq_iff hx hy).mp h

theorem float_le_iff {x y : Float} :
    x ≤ y ↔ x.isNaN = false ∧ y.isNaN = false ∧ Double.place x ≤ Double.place y := by
  rw [float_le_iff_lt_or_beq, float_lt_iff, float_beq_iff_place, le_iff_lt_or_eq]
  tauto

theorem float_lt_irrefl (x : Float) : ¬ x < x :=
  fun h => lt_irrefl _ (float_lt_iff.mp h).2.2

theorem float_lt_of_le_of_lt {x y z : Float} (h : x ≤ y) (h' : y < z) : x < z := by
  rw [float_le_iff] at h
  rw [float_lt_iff] at h' ⊢
  exact ⟨h.1, h'.2.1, h.2.2.trans_lt h'.2.2⟩

theorem float_lt_of_lt_of_le {x y z : Float} (h : x < y) (h' : y ≤ z) : x < z := by
  rw [float_le_iff] at h'
  rw [float_lt_iff] at h ⊢
  exact ⟨h.1, h'.2.1, h.2.2.trans_le h'.2.2⟩

theorem float_le_trans {x y z : Float} (h : x ≤ y) (h' : y ≤ z) : x ≤ z := by
  rw [float_le_iff] at h h' ⊢
  exact ⟨h.1, h'.2.1, h.2.2.trans h'.2.2⟩

theorem float_le_of_lt {x y : Float} (h : x < y) : x ≤ y :=
  float_le_iff_lt_or_beq.mpr (.inl h)

theorem float_le_of_not_lt {x y : Float} (hx : x.isNaN = false) (hy : y.isNaN = false) (h : ¬ y < x) :
    x ≤ y := by
  rw [float_lt_iff] at h
  exact float_le_iff.mpr ⟨hx, hy, not_lt.mp fun hlt => h ⟨hy, hx, hlt⟩⟩

theorem float_lt_trans {x y z : Float} (h : x < y) (h' : y < z) : x < z :=
  float_lt_of_lt_of_le h (float_le_of_lt h')

/-! ## Negation -/

section Packing

theorem unpackSign_packComponents {spec : Format} {s : Sign} {e : BitVec spec.exponentBits}
    {m : BitVec spec.mantissaBitsWithoutImplicit} :
    unpackSign (packComponents spec s e m) = s.toBitVec := by
  ext i hi
  obtain rfl : i = 0 := by omega
  simp [unpackSign, packComponents, BitVec.getLsbD_append, BitVec.getElem_append]

theorem ofBitVec_toBitVec (s : Sign) : Sign.ofBitVec s.toBitVec = s := by
  cases s <;> rfl

/-- A number with another sign. -/
def withSign (s : Sign) : UnpackedFloat → UnpackedFloat
  | .infinity _ => .infinity s
  | .notANumber => .notANumber
  | .zero _ => .zero s
  | .finite _ m e hm => .finite s m e hm

variable (b : BitVec Format.binary64.numBits)

/-- Another sign leaves exponent and mantissa as they are. -/
theorem unpack_packComponents (s : Sign) :
    UnpackedFloat.unpack Format.binary64
        (packComponents Format.binary64 s (unpackExponent b) (unpackMantissa b)) =
      withSign s (UnpackedFloat.unpack Format.binary64 b) := by
  unfold UnpackedFloat.unpack
  simp only [unpackExponent_packComponents, unpackMantissa_packComponents,
    unpackSign_packComponents, ofBitVec_toBitVec]
  split
  · split <;> rfl
  · split
    · split <;> rfl
    · rfl

theorem packComponents_unpack :
    packComponents Format.binary64 (Sign.ofBitVec (unpackSign b)) (unpackExponent b)
      (unpackMantissa b) = b := by
  have hs : (Sign.ofBitVec (unpackSign b)).toBitVec = unpackSign b := by
    generalize unpackSign b = c
    revert c
    decide
  unfold packComponents
  rw [hs]
  refine BitVec.eq_of_getLsbD_eq fun i hi => ?_
  have hi : i < 64 := hi
  simp only [unpackSign, unpackExponent, unpackMantissa, BitVec.getLsbD_append, BitVec.getLsbD_cast,
    BitVec.getLsbD_extractLsb]
  split_ifs with hmantissa hexponent
  · simp [hmantissa]
  · simp [hexponent, show 52 + (i - 52) = i by omega]
  · obtain rfl : i = 63 := by omega
    rfl

theorem pack_subnormal (s : Sign) (mantissa : BitVec 52) (hm : 0 < mantissa.toNat) :
    UnpackedFloat.pack Format.binary64 (.finite s mantissa.toNat (-1074) hm) =
      packComponents Format.binary64 s 0 mantissa := by
  have hlog : mantissa.toNat.log2 < 52 := (Nat.log2_lt (by omega)).mpr mantissa.isLt
  have hbits : ¬mantissa.toNat.log2 + 1 = Format.binary64.mantissaBits := by
    change ¬mantissa.toNat.log2 + 1 = 53
    omega
  unfold UnpackedFloat.pack
  dsimp only
  rw [if_neg (by decide), if_neg hbits]
  simp

theorem pack_normal (s : Sign) (field : BitVec 11) (mantissa : BitVec 52) (hfield : field ≠ -1#11)
    (hm : 0 < (1#1 ++ mantissa).toNat) :
    UnpackedFloat.pack Format.binary64
        (.finite s (1#1 ++ mantissa).toNat (field.toNat - 1075) hm) =
      packComponents Format.binary64 s field mantissa := by
  have hnat : (1#1 ++ mantissa).toNat = 2 ^ 52 + mantissa.toNat := by
    rw [BitVec.toNat_append, ← Nat.shiftLeft_add_eq_or_of_lt mantissa.isLt]
    rfl
  have hlt := mantissa.isLt
  have hlog : (1#1 ++ mantissa).toNat.log2 + 1 = Format.binary64.mantissaBits := by
    have hlog : (1#1 ++ mantissa).toNat.log2 = 52 := by
      rw [hnat, Nat.log2_eq_iff (by omega)]
      omega
    rw [hlog]
    rfl
  have hmax : field.toNat ≠ 2047 := fun h => hfield (BitVec.eq_of_toNat_eq h)
  have hle := field.isLt
  have hbias : ((field.toNat : Int) - 1075 + Format.binary64.exponentBias +
      Format.binary64.mantissaBitsWithoutImplicit).toNat = field.toNat := by
    change ((field.toNat : Int) - 1075 + 1023 + 52).toNat = field.toNat
    omega
  unfold UnpackedFloat.pack
  dsimp only
  rw [hbias, if_neg (by omega), if_pos hlog]
  congr 1
  · simp
  · refine BitVec.eq_of_toNat_eq ?_
    rw [hnat, BitVec.toNat_ofNat]
    omega

/-- A number packed with a sign keeps its exponent and mantissa. -/
theorem pack_withSign (s : Sign) (hb : UnpackedFloat.unpack Format.binary64 b ≠ .notANumber) :
    UnpackedFloat.pack Format.binary64 (withSign s (UnpackedFloat.unpack Format.binary64 b)) =
      packComponents Format.binary64 s (unpackExponent b) (unpackMantissa b) := by
  revert hb
  unfold UnpackedFloat.unpack
  dsimp only
  split
  · next hmax =>
      split
      · next hzero =>
          intro _
          rw [hmax, hzero]
          rfl
      · exact fun h => absurd rfl h
  · next hmax =>
      intro _
      split
      · next hleast =>
          split
          · next hzero =>
              rw [hleast, hzero]
              rfl
          · next hzero =>
              simp only [hleast]
              exact pack_subnormal s _ _
      · next hleast => exact pack_normal s _ _ hmax _

theorem neg_unpack :
    (UnpackedFloat.unpack Format.binary64 b).neg =
      withSign (-Sign.ofBitVec (unpackSign b)) (UnpackedFloat.unpack Format.binary64 b) := by
  unfold UnpackedFloat.unpack
  dsimp only
  split
  · split <;> rfl
  · split
    · split <;> rfl
    · rfl

theorem withSign_unpack :
    withSign (Sign.ofBitVec (unpackSign b)) (UnpackedFloat.unpack Format.binary64 b) =
      UnpackedFloat.unpack Format.binary64 b := by
  rw [← unpack_packComponents, packComponents_unpack]

theorem pack_unpack (hb : UnpackedFloat.unpack Format.binary64 b ≠ .notANumber) :
    UnpackedFloat.pack Format.binary64 (UnpackedFloat.unpack Format.binary64 b) = b := by
  rw [← withSign_unpack, pack_withSign _ _ hb, packComponents_unpack]

end Packing

theorem neg_neg_unpacked (u : UnpackedFloat) : u.neg.neg = u := by
  rcases u with (_ | _) | _ | (_ | _) | ⟨_ | _, m, e, hm⟩ <;> rfl

theorem unpack_neg (x : Float) : (-x).toModel.unpack = x.toModel.unpack.neg := by
  change UnpackedFloat.unpack Format.binary64
    (UnpackedFloat.pack Format.binary64 x.toModel.unpack.neg) = _
  by_cases hx : x.toModel.unpack = .notANumber
  · rw [hx]
    rfl
  · rw [Float.Model.unpack] at hx ⊢
    rw [neg_unpack, pack_withSign _ _ hx, unpack_packComponents]

/-- Negation is undone by itself. -/
theorem float_neg_neg {x : Float} (hx : x.isNaN = false) : -(-x) = x := by
  have hbits : UnpackedFloat.pack Format.binary64 (-x).toModel.unpack.neg =
      x.toModel.toBits.toBitVec := by
    rw [unpack_neg, neg_neg_unpacked]
    exact pack_unpack _ (unpack_ne_notANumber_iff.mpr hx)
  obtain ⟨⟨bits, valid⟩⟩ := x
  change Float.ofModel ⟨.ofBitVec _, _⟩ = _
  congr

theorem isNaN_neg (x : Float) : (-x).isNaN = x.isNaN := by
  change (-x).toModel.unpack.isNaN = x.toModel.unpack.isNaN
  rw [unpack_neg]
  cases x.toModel.unpack <;> rfl

theorem neg_negative : -Sign.negative = .positive := rfl

theorem neg_positive : -Sign.positive = .negative := rfl

theorem place_neg_lt_iff (a b : UnpackedFloat) : place a.neg < place b.neg ↔ place b < place a := by
  rcases a with (_ | _) | _ | (_ | _) | ⟨_ | _, m, e, hm⟩ <;>
    rcases b with (_ | _) | _ | (_ | _) | ⟨_ | _, n, f, hn⟩ <;>
    simp [UnpackedFloat.neg, place, Prod.Lex.toLex_lt_toLex, neg_negative, neg_positive]
  all_goals rw [@eq_comm _ e f]

/-- Negation turns the line around. -/
theorem float_neg_le_neg_iff {x y : Float} : -x ≤ -y ↔ y ≤ x := by
  rw [float_le_iff, float_le_iff, isNaN_neg, isNaN_neg, Double.place, Double.place, unpack_neg,
    unpack_neg, ← not_lt, place_neg_lt_iff, not_lt]
  tauto

end Tuning
