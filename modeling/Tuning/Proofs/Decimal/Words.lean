import Tuning.Proofs.Decimal.Rounding
import Tuning.Proofs.Value.Sameness

/-! # Doubles and their texts

A double is a word of 64 bits. Its exact meaning determines it up to what comparison cannot tell, and
the text it has in documents determines its meaning. -/

namespace Tuning

open Float.Model UnpackedFloat

/-- Whether a sign is the minus sign. -/
def isMinus : Sign → Bool
  | .negative => true
  | .positive => false

theorem isMinus_injective {s t : Sign} (h : isMinus s = isMinus t) : s = t := by
  cases s <;> cases t <;> first | rfl | cases h

namespace Binary

/-- The exact meaning of unpacked parts in double precision. -/
def ofUnpacked : UnpackedFloat → Binary
  | .notANumber => nan
  | .infinity s => infinite (isMinus s)
  | .zero s => finite (isMinus s) 0 (-1074) false
  | .finite s m e _ => finite (isMinus s) m e (m = 2 ^ 52 && -1074 < e)

theorem ofUnpacked_injective {u v : UnpackedFloat} (h : ofUnpacked u = ofUnpacked v) : u = v := by
  cases u <;> cases v <;> simp only [ofUnpacked, finite.injEq, infinite.injEq, reduceCtorEq] at h
  · rw [isMinus_injective h]
  · rfl
  · rw [isMinus_injective h.1]
  · next hm => omega
  · next hm _ => omega
  · obtain ⟨hs, rfl, rfl, -⟩ := h
    rw [isMinus_injective hs]

section Fields

variable (b : BitVec Format.binary64.numBits)

theorem toNat_unpackExponent : (unpackExponent b).toNat = b.toNat >>> 52 % 2 ^ 11 := by
  simp [unpackExponent]

theorem toNat_unpackMantissa : (unpackMantissa b).toNat = b.toNat % 2 ^ 52 := by
  simp [unpackMantissa]

theorem isMinus_unpackSign : isMinus (Sign.ofBitVec (unpackSign b)) = b.toNat.testBit 63 := by
  have hbit : (unpackSign b).toNat = b.toNat >>> 63 % 2 := by simp [unpackSign]
  rw [Nat.testBit_eq_decide_div_mod_eq, ← Nat.shiftRight_eq_div_pow, ← hbit]
  unfold Sign.ofBitVec
  split
  · next h => simp [h, isMinus]
  · next h =>
      have hne : (unpackSign b).toNat ≠ 0 := fun h0 => h (BitVec.eq_of_toNat_eq h0)
      have hlt := (unpackSign b).isLt
      simp only [isMinus]
      exact (decide_eq_true (by omega)).symm

theorem unpackExponent_eq_max : unpackExponent b = -1#_ ↔ b.toNat >>> 52 % 2 ^ 11 = 2 ^ 11 - 1 := by
  rw [← toNat_unpackExponent, ← BitVec.toNat_inj]
  rfl

theorem unpackExponent_eq_zero : unpackExponent b = 0#_ ↔ b.toNat >>> 52 % 2 ^ 11 = 0 := by
  rw [← toNat_unpackExponent, ← BitVec.toNat_inj]
  rfl

theorem unpackMantissa_eq_zero : unpackMantissa b = 0#_ ↔ b.toNat % 2 ^ 52 = 0 := by
  rw [← toNat_unpackMantissa, ← BitVec.toNat_inj]
  rfl

theorem toNat_implicit : (1#1 ++ unpackMantissa b).toNat = 2 ^ 52 + b.toNat % 2 ^ 52 := by
  rw [BitVec.toNat_append, ← Nat.shiftLeft_add_eq_or_of_lt (unpackMantissa b).isLt,
    toNat_unpackMantissa]
  rfl

/-- A word means what its parts mean. -/
theorem ofWord_eq : ofWord 11 52 b.toNat = ofUnpacked (UnpackedFloat.unpack Format.binary64 b) := by
  unfold ofWord UnpackedFloat.unpack
  have hsign := isMinus_unpackSign b
  have hmant := toNat_unpackMantissa b
  by_cases hmax : unpackExponent b = -1#_
  · have hmax' := (unpackExponent_eq_max b).mp hmax
    by_cases hzero : unpackMantissa b = 0#_
    · have hzero' := (unpackMantissa_eq_zero b).mp hzero
      simp only [hmax, hzero, hmax', hzero', ↓reduceIte, ofUnpacked, hsign]
    · have hzero' := mt (unpackMantissa_eq_zero b).mpr hzero
      simp only [hmax, hzero, hmax', hzero', ↓reduceIte, ofUnpacked]
  have hmax' := mt (unpackExponent_eq_max b).mpr hmax
  dsimp only
  rw [if_neg hmax', if_neg hmax]
  by_cases hleast : unpackExponent b = 0#_
  · rw [if_pos ((unpackExponent_eq_zero b).mp hleast), if_pos hleast]
    by_cases hzero : unpackMantissa b = 0#_
    · rw [dif_pos hzero, (unpackMantissa_eq_zero b).mp hzero]
      simp only [ofUnpacked, hsign]
      norm_num
    · rw [dif_neg hzero]
      simp only [ofUnpacked, hsign, hmant, hleast]
      simp [Format.exponentBias]
  · have hleast' := mt (unpackExponent_eq_zero b).mpr hleast
    rw [if_neg hleast', if_neg hleast]
    simp only [ofUnpacked, hsign, toNat_unpackExponent]
    rw [toNat_implicit]
    generalize b.toNat >>> 52 % 2 ^ 11 = field at *
    generalize b.toNat % 2 ^ 52 = fraction at *
    simp only [Format.exponentBias]
    norm_num
    refine ⟨by ring, ?_⟩
    congr 1
    exact decide_eq_decide.mpr (by omega)

end Fields

theorem ofFloat_eq (x : Float) : ofFloat x = ofUnpacked x.toModel.unpack :=
  ofWord_eq x.toModel.toBits.toBitVec

/-- Doubles with one meaning are equal, unless they are no numbers. -/
theorem beq_of_ofFloat_eq {x y : Float} (h : ofFloat x = ofFloat y) (hx : ofFloat x ≠ nan) :
    (x == y) = true := by
  rw [float_beq_iff]
  rw [ofFloat_eq] at h hx
  rw [ofFloat_eq] at h
  refine .inl ⟨ofUnpacked_injective h, fun hnan => ?_⟩
  rw [hnan] at hx
  exact hx rfl

/-- A double that is neither infinite nor undefined has a finite meaning. -/
theorem exists_finite {x : Float} (h : (x.isNaN || x.isInf) = false) :
    ∃ negative m e narrow, ofFloat x = finite negative m e narrow := by
  have h' : (x.toModel.unpack.isNaN || x.toModel.unpack.isInf) = false := h
  rw [ofFloat_eq]
  cases hu : x.toModel.unpack with
  | infinity s => simp [hu, UnpackedFloat.isInf] at h'
  | notANumber => simp [hu, UnpackedFloat.isNaN] at h'
  | zero s => exact ⟨_, _, _, _, rfl⟩
  | finite s m e hm => exact ⟨_, _, _, _, rfl⟩

/-- So has a single-precision number. -/
theorem exists_finite_single {x : Float32} (h : (x.isNaN || x.isInf) = false) :
    ∃ negative m e narrow, ofSingle x = finite negative m e narrow := by
  have h' : (x.toModel.unpack.isNaN || x.toModel.unpack.isInf) = false := h
  have hexp : ∀ b : BitVec Format.binary32.numBits,
      (unpackExponent b).toNat = b.toNat >>> 23 % 2 ^ 8 := fun b => by simp [unpackExponent]
  have hmax : x.toBits.toNat >>> 23 % 2 ^ 8 ≠ 2 ^ 8 - 1 := by
    intro hmax
    have hfield : unpackExponent (show BitVec Format.binary32.numBits from x.toModel.toBits.toBitVec) =
        -1#_ := BitVec.eq_of_toNat_eq ((hexp _).trans hmax)
    unfold Float32.Model.unpack UnpackedFloat.unpack at h'
    dsimp only at h'
    rw [if_pos hfield] at h'
    split at h' <;> simp [UnpackedFloat.isNaN, UnpackedFloat.isInf] at h'
  unfold ofSingle ofWord
  dsimp only
  rw [if_neg hmax]
  split
  · exact ⟨_, _, _, _, rfl⟩
  · exact ⟨_, _, _, _, rfl⟩

theorem canonical_ofWord {exponentBits bits word m : Nat} {negative narrow : Bool} {e : Int}
    (h : ofWord exponentBits bits word = finite negative m e narrow) :
    Canonical bits (2 - 2 ^ (exponentBits - 1) - bits) m e narrow := by
  have hlt : word % 2 ^ bits < 2 ^ bits := Nat.mod_lt _ (by positivity)
  unfold ofWord at h
  dsimp only at h
  split_ifs at h with hmax hzero hleast
  · obtain ⟨-, rfl, rfl, rfl⟩ := finite.inj h
    refine ⟨?_, le_rfl, fun hlt => absurd hlt (lt_irrefl _), by simp⟩
    rw [pow_succ]
    omega
  · obtain ⟨-, rfl, rfl, rfl⟩ := finite.inj h
    refine ⟨?_, by omega, fun _ => Nat.le_add_right _ _, ?_⟩
    · rw [pow_succ]
      omega
    · simp only [Bool.and_eq_true, decide_eq_true_eq]
      omega

theorem canonical_ofFloat {x : Float} {negative narrow : Bool} {m : Nat} {e : Int}
    (h : ofFloat x = finite negative m e narrow) : Canonical 52 (-1074) m e narrow := by
  simpa using canonical_ofWord h

end Binary

/-! ## Texts in documents -/

/-- The text of a finite double denotes a number that rounds to it. -/
theorem exists_denotes_documentNumber {x : Float} {negative narrow : Bool} {m : Nat} {e : Int}
    (h : Binary.ofFloat x = .finite negative m e narrow) :
    ∃ v, Denotes (documentNumber x) negative v ∧ Binary.Rounds m e narrow v := by
  have hlt : m < 2 ^ 54 := (Binary.canonical_ofFloat h).mantissa_lt.trans (by decide)
  refine ⟨_, ?_, Decimal.rounds_shortest e narrow hlt⟩
  rw [documentNumber, h]
  exact NumberFormat.denotes_write _ _ _ (Decimal.shortest_pos_or_zero e narrow hlt)

/-- The text of a finite single-precision number is a numeral too. -/
theorem exists_denotes_documentSingle {x : Float32} (hx : (x.isNaN || x.isInf) = false) :
    ∃ negative v, Denotes (documentSingle x) negative v := by
  obtain ⟨negative, m, e, narrow, hm⟩ := Binary.exists_finite_single hx
  have hlt : m < 2 ^ 54 := (Binary.canonical_ofWord hm).mantissa_lt.trans (by decide)
  rw [documentSingle, hm]
  exact ⟨_, _, NumberFormat.denotes_write _ _ _ (Decimal.shortest_pos_or_zero e narrow hlt)⟩

/-- Finite doubles with one text are equal. -/
theorem beq_of_documentNumber_eq {x y : Float} (hx : (x.isNaN || x.isInf) = false)
    (hy : (y.isNaN || y.isInf) = false) (h : documentNumber x = documentNumber y) :
    (x == y) = true := by
  obtain ⟨s, m, e, narrow, hxm⟩ := Binary.exists_finite hx
  obtain ⟨t, m', e', narrow', hym⟩ := Binary.exists_finite hy
  obtain ⟨v, hv, hvm⟩ := exists_denotes_documentNumber hxm
  obtain ⟨w, hw, hwm⟩ := exists_denotes_documentNumber hym
  rw [← h] at hw
  obtain ⟨rfl, rfl⟩ := hv.unique hw
  obtain ⟨rfl, rfl, rfl⟩ := hvm.unique (Binary.canonical_ofFloat hxm) (Binary.canonical_ofFloat hym) hwm
  exact Binary.beq_of_ofFloat_eq (hxm.trans hym.symm) (by rw [hxm]; simp)

end Tuning
