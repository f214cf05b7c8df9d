import Tuning.Proofs.Decimal.Reading
import Tuning.Proofs.Value.Doubles

/-! # Sums and products of doubles

Rounding keeps the order of rationals. So a sum of doubles that are not negative is not less than either
of them, and a double that is not too small is greater than its product with a fraction. -/

namespace Tuning

open Float.Model UnpackedFloat

/-! ## Rounding keeps order -/

namespace Binary

variable {bits : Nat} {least : Int} {m m' : Nat} {e e' : Int} {narrow narrow' : Bool} {q q' : ℚ}

/-- Between a number of a format and a greater one there is room for a unit of the first one. -/
theorem Canonical.succ_le (h : Canonical bits least m e narrow)
    (h' : Canonical bits least m' e' narrow') (hlt : e < e' ∨ e = e' ∧ m < m') :
    ((m : ℚ) + 1) * 2 ^ e ≤ m' * 2 ^ e' := by
  obtain hlt | ⟨rfl, hlt⟩ := hlt
  · have hm : (m : ℚ) + 1 ≤ 2 ^ bits * 2 := by
      have := h.mantissa_lt
      rw [pow_succ] at this
      exact_mod_cast this
    have hm' : (2 : ℚ) ^ bits ≤ m' := by exact_mod_cast h'.normal (h.least_le.trans_lt hlt)
    have hpow : 2 * (2 : ℚ) ^ e ≤ 2 ^ e' := by
      rw [← zpow_one_add₀ (by norm_num)]
      exact zpow_le_zpow_right₀ (by norm_num) (by omega)
    calc ((m : ℚ) + 1) * 2 ^ e ≤ 2 ^ bits * 2 * 2 ^ e := by gcongr
      _ = 2 ^ bits * (2 * 2 ^ e) := mul_assoc ..
      _ ≤ m' * 2 ^ e' := by gcongr
  · have : (m : ℚ) + 1 ≤ m' := by exact_mod_cast hlt
    gcongr

theorem Canonical.value_le (h : Canonical bits least m e narrow)
    (h' : Canonical bits least m' e' narrow') (hle : e < e' ∨ e = e' ∧ m ≤ m') :
    (m : ℚ) * 2 ^ e ≤ m' * 2 ^ e' := by
  by_cases heq : e = e' ∧ m = m'
  · rw [heq.1, heq.2]
  · refine le_trans ?_ (h.succ_le h' (by omega))
    gcongr
    linarith

/-- The greater of two rationals rounds to a number that is not less. -/
theorem Rounds.mono (h : Canonical bits least m e narrow) (h' : Canonical bits least m' e' narrow')
    (hq : Rounds m e narrow q) (hq' : Rounds m' e' narrow' q') (hle : q ≤ q') :
    e < e' ∨ e = e' ∧ m ≤ m' := by
  by_contra hnot
  have hroom := h'.succ_le h (show e' < e ∨ e' = e ∧ m' < m by omega)
  rw [pow_eq_quarters e, pow_eq_quarters e'] at hroom
  have hunit : (0 : ℚ) < 2 ^ (e - 2) := zpow_pos (by norm_num) _
  have hunit' : (0 : ℚ) < 2 ^ (e' - 2) := zpow_pos (by norm_num) _
  have hhigh : (4 * (m' : ℚ) + 2) * 2 ^ (e' - 2) < (4 * m + 2) * 2 ^ (e - 2) := by linarith
  -- the greater rational would round to both numbers
  have hboth : Rounds m e narrow q' :=
    ⟨hq.low_le.trans hle, hq'.le_high.trans hhigh.le,
      fun hodd => ⟨(hq.odd hodd).1.trans_le hle, hq'.le_high.trans_lt hhigh⟩⟩
  obtain ⟨rfl, rfl, -⟩ := hboth.unique h h' hq'
  omega

end Binary

/-! ## Places of doubles that are not negative -/

theorem place_finite_le_iff {m m' : Nat} {e e' : Int} {hm : 0 < m} {hm' : 0 < m'} :
    place (.finite .positive m e hm) ≤ place (.finite .positive m' e' hm') ↔
      e < e' ∨ e = e' ∧ m ≤ m' := by
  simp [place, Prod.Lex.toLex_le_toLex]

/-- What a double that is not negative is. -/
theorem unpack_of_nonneg {x : Float} (h : 0 ≤ x) :
    x.toModel.unpack = .infinity .positive ∨ (∃ s, x.toModel.unpack = .zero s) ∨
      ∃ m e hm, x.toModel.unpack = .finite .positive m e hm := by
  have hzero : (0 : Float).toModel.unpack = .zero .positive := by rfl
  obtain ⟨-, hnan, hle⟩ := float_le_iff.mp h
  rw [← unpack_ne_notANumber_iff] at hnan
  rw [Double.place, Double.place, hzero] at hle
  rcases hu : x.toModel.unpack with (_ | _) | _ | s | ⟨_ | _, m, e, hm⟩
  · simp [hu, place, Prod.Lex.toLex_le_toLex] at hle
  · exact .inl rfl
  · exact absurd hu hnan
  · exact .inr (.inl ⟨s, rfl⟩)
  · simp [hu, place, Prod.Lex.toLex_le_toLex] at hle
  · exact .inr (.inr ⟨m, e, hm, rfl⟩)

/-- The rational that a finite double is. -/
def Double.value (x : Float) : ℚ :=
  match x.toModel.unpack with
  | .finite .positive m e _ => m * 2 ^ e
  | .finite .negative m e _ => -(m * 2 ^ e)
  | _ => 0

theorem value_pos_iff {x : Float} (hx : (x.isNaN || x.isInf) = false) :
    0 < Double.value x ↔ 0 < x := by
  have hzero : (0 : Float).toModel.unpack = .zero .positive := by rfl
  have hx : (x.toModel.unpack.isNaN || x.toModel.unpack.isInf) = false := hx
  rw [float_lt_iff_compare, compare_unpacked_eq_lt_iff, hzero]
  unfold Double.value
  rcases hu : x.toModel.unpack with s | _ | s | ⟨_ | _, m, e, hm⟩
  · simp [hu, UnpackedFloat.isNaN, UnpackedFloat.isInf] at hx
  · simp [hu, UnpackedFloat.isNaN, UnpackedFloat.isInf] at hx
  · simp [place]
  · have hvalue : (0 : ℚ) ≤ m * 2 ^ e := by positivity
    simpa [place, Prod.Lex.toLex_lt_toLex] using hvalue
  · have hvalue : (0 : ℚ) < m * 2 ^ e := by positivity
    simpa [place, Prod.Lex.toLex_lt_toLex] using hvalue

theorem canonical_of_unpack {x : Float} {s : Sign} {m : Nat} {e : Int} {hm : 0 < m}
    (hu : x.toModel.unpack = .finite s m e hm) :
    Binary.Canonical 52 (-1074) m e (m = 2 ^ 52 && -1074 < e) ∧ e ≤ 971 := by
  have hfinite := Binary.ofFloat_eq x
  rw [hu] at hfinite
  exact ⟨Binary.canonical_ofFloat hfinite, Binary.exponent_le_of_ofWord (by decide) hfinite⟩

/-- Packing keeps what was unpacked. -/
theorem unpack_pack_unpack (x : Float) :
    (Float.Model.pack x.toModel.unpack).unpack = x.toModel.unpack := by
  by_cases hx : x.toModel.unpack = .notANumber
  · rw [hx]
    rfl
  · exact congrArg (UnpackedFloat.unpack Format.binary64) (pack_unpack _ hx)

theorem unpack_pack_infinity :
    (Float.Model.pack (.infinity .positive)).unpack = .infinity .positive := by rfl

theorem unpack_pack_zero (s : Sign) : (Float.Model.pack (.zero s)).unpack = .zero s := by
  cases s <;> rfl

theorem unpack_add (x y : Float) : (x + y).toModel.unpack =
    (Float.Model.pack (add Format.binary64 x.toModel.unpack y.toModel.unpack)).unpack := rfl

theorem unpack_mul (x y : Float) : (x * y).toModel.unpack =
    (Float.Model.pack (mul Format.binary64 x.toModel.unpack y.toModel.unpack)).unpack := rfl

/-- A rational rounds to a finite double, which packing keeps, or is too large for one. -/
theorem Nearest.unpack_pack_or {u : UnpackedFloat} {q : ℚ} (h : Nearest u .positive q) :
    (Float.Model.pack u).unpack = u ∨ (Float.Model.pack u).unpack = .infinity .positive := by
  obtain ⟨m, e, narrow, hu, hc, -⟩ := h
  by_cases he : e ≤ 971
  · exact .inl (Tuning.unpack_pack hu hc he)
  · right
    cases u with
    | notANumber => simp [Binary.ofUnpacked] at hu
    | infinity s => simp [Binary.ofUnpacked] at hu
    | zero s =>
        obtain ⟨-, -, rfl, -⟩ := Binary.finite.inj hu
        omega
    | finite s n f hn =>
        obtain ⟨hs, rfl, rfl, -⟩ := Binary.finite.inj hu
        cases isMinus_injective (t := .positive) hs
        change UnpackedFloat.unpack Format.binary64 (UnpackedFloat.pack Format.binary64 _) = _
        unfold UnpackedFloat.pack
        dsimp only
        rw [if_pos]
        · rfl
        · simp only [Format.exponentBias]
          norm_num
          omega

namespace Nearest

variable {u v : UnpackedFloat} {q r : ℚ}

theorem ne_notANumber {s : Sign} (h : Nearest u s q) : u ≠ .notANumber := by
  obtain ⟨m, e, narrow, hu, -⟩ := h
  rintro rfl
  simp [Binary.ofUnpacked] at hu

/-- A finite double is the nearest one to its own value. -/
theorem of_unpack {x : Float} {m : Nat} {e : Int} {hm : 0 < m}
    (hu : x.toModel.unpack = .finite .positive m e hm) :
    Nearest (.finite .positive m e hm) .positive (m * 2 ^ e) :=
  ⟨m, e, _, rfl, (canonical_of_unpack hu).1, Binary.rounds_self m e _⟩

/-- The place of a double that a rational rounds to. -/
theorem place_eq (h : Nearest u .positive q) : ∃ m e narrow, Binary.Canonical 52 (-1074) m e narrow ∧
    Binary.Rounds m e narrow q ∧
      place u = if m = 0 then toLex (0, toLex (0, 0)) else toLex (1, toLex (e, (m : Int))) := by
  obtain ⟨m, e, narrow, hu, hc, hround⟩ := h
  refine ⟨m, e, narrow, hc, hround, ?_⟩
  cases u with
  | notANumber => simp [Binary.ofUnpacked] at hu
  | infinity s => simp [Binary.ofUnpacked] at hu
  | zero s =>
      obtain ⟨-, rfl, -⟩ := Binary.finite.inj hu
      rfl
  | finite s n f hn =>
      obtain ⟨hs, rfl, rfl, -⟩ := Binary.finite.inj hu
      cases isMinus_injective (t := .positive) hs
      rw [if_neg hn.ne']
      rfl

theorem zero_le_place (h : Nearest u .positive q) : place (.zero .positive) ≤ place u := by
  obtain ⟨m, e, narrow, -, -, hu⟩ := h.place_eq
  rw [hu]
  split_ifs
  · exact le_rfl
  · simp [place, Prod.Lex.toLex_le_toLex]

/-- A rational that is not greater than a double rounds to a double. -/
theorem unpack_pack_of_le {m : Nat} {e : Int} {narrow : Bool} (h : Nearest u .positive q)
    (hc : Binary.Canonical 52 (-1074) m e narrow) (he : e ≤ 971) (hq : q ≤ m * 2 ^ e) :
    (Float.Model.pack u).unpack = u := by
  obtain ⟨m', e', narrow', hu, hc', hround⟩ := h
  have hmono := hround.mono hc' hc (Binary.rounds_self m e narrow) hq
  exact Tuning.unpack_pack hu hc' (by omega)

theorem place_le (hu : Nearest u .positive q) (hv : Nearest v .positive r) (hle : q ≤ r) :
    place u ≤ place v := by
  obtain ⟨m, e, narrow, hc, hq, hu⟩ := hu.place_eq
  obtain ⟨m', e', narrow', hc', hr, hv⟩ := hv.place_eq
  have hmono := hq.mono hc hc' hr hle
  have hleast := hc.least_le
  have hnormal' := hc'.normal
  rw [hu, hv]
  split_ifs with hm hm' hm'
  · exact le_rfl
  · simp [Prod.Lex.toLex_le_toLex]
  · omega
  · simp only [Prod.Lex.toLex_le_toLex, lt_self_iff_false, true_and, false_or]
    omega

/-- What rounds to a double is not below its rounding interval. -/
theorem place_lt {m : Nat} {e : Int} {narrow : Bool} (hm : 0 < m) (hv : Nearest v .positive q)
    (hc : Binary.Canonical 52 (-1074) m e narrow)
    (hq : q < (4 * m - if narrow then 1 else 2) * 2 ^ (e - 2)) :
    place v < place (.finite .positive m e hm) := by
  obtain ⟨m', e', narrow', hc', hround, hv⟩ := hv.place_eq
  have hself := Binary.rounds_self m e narrow
  have hmono := hround.mono hc' hc hself (hq.le.trans hself.low_le)
  have hne : ¬ (e' = e ∧ m' = m) := by
    rintro ⟨rfl, rfl⟩
    have hnarrow : narrow' = narrow := by
      rw [Bool.eq_iff_iff, hc'.narrow_iff, hc.narrow_iff]
    rw [hnarrow] at hround
    exact absurd hround.low_le (not_le.mpr hq)
  rw [hv, place]
  split_ifs with hm'
  · simp [Prod.Lex.toLex_lt_toLex]
  · simp only [Prod.Lex.toLex_lt_toLex, lt_self_iff_false, true_and, false_or]
    omega

end Nearest

/-! ## Sums -/

section Sums

variable {m₁ m₂ : Nat} (e₁ e₂ : Int) (h₁ : 0 < m₁) (h₂ : 0 < m₂)

/-- A sum is rounded to the nearest double. -/
theorem nearest_add :
    Nearest (add Format.binary64 (.finite .positive m₁ e₁ h₁) (.finite .positive m₂ e₂ h₂)) .positive
      (m₁ * 2 ^ e₁ + m₂ * 2 ^ e₂) := by
  generalize hk₁ : (e₁ - min e₁ e₂).toNat = k₁
  generalize hk₂ : (e₂ - min e₁ e₂).toNat = k₂
  have hpos : 0 < m₁ * 2 ^ k₁ + m₂ * 2 ^ k₂ := by positivity
  have haligned : ∀ (m k : Nat) (e : Int), e = min e₁ e₂ + k →
      (m : ℚ) * 2 ^ e = (m * 2 ^ k : Nat) * 2 ^ min e₁ e₂ := by
    rintro m k e rfl
    rw [zpow_add₀ (by norm_num), zpow_natCast]
    push_cast
    ring
  have hvalue : (m₁ : ℚ) * 2 ^ e₁ + m₂ * 2 ^ e₂ =
      (m₁ * 2 ^ k₁ + m₂ * 2 ^ k₂ : Nat) * 2 ^ min e₁ e₂ := by
    rw [haligned m₁ k₁ e₁ (by omega), haligned m₂ k₂ e₂ (by omega)]
    push_cast
    ring
  have hsum : add Format.binary64 (.finite .positive m₁ e₁ h₁) (.finite .positive m₂ e₂ h₂) =
      normalize Format.binary64 (m₁ * 2 ^ k₁ + m₂ * 2 ^ k₂ : Nat) (min e₁ e₂) .positive := by
    rw [← hk₁, ← hk₂, ← Nat.shiftLeft_eq, ← Nat.shiftLeft_eq]
    rfl
  have hsign : compare ((m₁ * 2 ^ k₁ + m₂ * 2 ^ k₂ : Nat) : Int) 0 = .gt :=
    compare_gt_iff_gt.mpr (by exact_mod_cast hpos)
  rw [hsum, hvalue, UnpackedFloat.normalize, hsign]
  exact nearest_round .positive _ hpos

end Sums

/-- Adding zero moves no double. -/
theorem float_lt_add_zero_iff {x y : Float} : x < y + 0 ↔ x < y := by
  have hzero : (0 : Float).toModel.unpack = .zero .positive := by rfl
  have hsame := unpack_pack_unpack y
  rw [float_lt_iff_compare, float_lt_iff_compare, unpack_add, hzero]
  cases hu : y.toModel.unpack with
  | infinity s =>
      rw [hu] at hsame
      change x.toModel.unpack.compare (Float.Model.pack (.infinity s)).unpack = _ ↔ _
      rw [hsame]
  | notANumber => rfl
  | zero s =>
      -- the sum may have the other sign, which comparison does not see
      obtain ⟨t, ht⟩ : ∃ t, (Float.Model.pack
          (add Format.binary64 (.zero s) (.zero .positive))).unpack = .zero t := by
        cases s <;> exact ⟨_, unpack_pack_zero _⟩
      rw [ht, compare_unpacked_eq_lt_iff, compare_unpacked_eq_lt_iff]
      simp [place]
  | finite s m e hm =>
      rw [hu] at hsame
      change x.toModel.unpack.compare (Float.Model.pack (.finite s m e hm)).unpack = _ ↔ _
      rw [hsame]

theorem float_le_of_place_le {x y : Float} (hx : x.toModel.unpack ≠ .notANumber)
    (hy : y.toModel.unpack ≠ .notANumber) (h : place x.toModel.unpack ≤ place y.toModel.unpack) :
    x ≤ y :=
  float_le_iff.mpr ⟨unpack_ne_notANumber_iff.mp hx, unpack_ne_notANumber_iff.mp hy, h⟩

theorem float_le_infinity {x y : Float} (hx : 0 ≤ x) (hy : y.toModel.unpack = .infinity .positive) :
    x ≤ y := by
  rcases unpack_of_nonneg hx with hu | ⟨s, hu⟩ | ⟨m, e, hm, hu⟩ <;>
    refine float_le_of_place_le (by simp [hu]) (by simp [hy]) ?_ <;>
    simp [hu, hy, place, Prod.Lex.toLex_le_toLex]

/-- A sum is not less than what something was added to. -/
theorem float_le_add {x y : Float} (hx : 0 ≤ x) (hy : 0 ≤ y) : x ≤ x + y := by
  rcases unpack_of_nonneg hy with hv | ⟨t, hv⟩ | ⟨n, f, hn, hv⟩
  · refine float_le_infinity hx ?_
    rw [unpack_add, hv]
    rcases unpack_of_nonneg hx with hu | ⟨s, hu⟩ | ⟨m, e, hm, hu⟩ <;> rw [hu] <;>
      exact unpack_pack_infinity
  · have hsame := unpack_pack_unpack x
    rcases unpack_of_nonneg hx with hu | ⟨s, hu⟩ | ⟨m, e, hm, hu⟩
    · refine float_le_infinity hx ?_
      rw [unpack_add, hu, hv]
      exact unpack_pack_infinity
    · obtain ⟨r, hr⟩ : ∃ r, (x + y).toModel.unpack = .zero r := by
        rw [unpack_add, hu, hv]
        cases s <;> cases t <;> exact ⟨_, rfl⟩
      exact float_le_of_place_le (by simp [hu]) (by simp [hr]) (by simp [hu, hr, place])
    · have hsum : (x + y).toModel.unpack = x.toModel.unpack := by
        rw [unpack_add, hv]
        rw [hu] at hsame ⊢
        exact hsame
      exact float_le_of_place_le (by simp [hu]) (by simp [hsum, hu]) (by rw [hsum])
  · rcases unpack_of_nonneg hx with hu | ⟨s, hu⟩ | ⟨m, e, hm, hu⟩
    · refine float_le_infinity hx ?_
      rw [unpack_add, hu, hv]
      exact unpack_pack_infinity
    · have hsame := unpack_pack_unpack y
      have hsum : (x + y).toModel.unpack = y.toModel.unpack := by
        rw [unpack_add, hu]
        rw [hv] at hsame ⊢
        exact hsame
      refine float_le_of_place_le (by simp [hu]) (by simp [hsum, hv]) ?_
      simp [hsum, hu, hv, place, Prod.Lex.toLex_le_toLex]
    · have hnearest := nearest_add e f hm hn
      rcases hnearest.unpack_pack_or with hsum | hsum
      · have hplace := (Nearest.of_unpack hu).place_le hnearest
          (le_add_of_nonneg_right (mul_nonneg n.cast_nonneg (zpow_nonneg (by norm_num) f)))
        refine float_le_of_place_le (by simp [hu]) ?_ ?_ <;> rw [unpack_add, hu, hv, hsum]
        · exact hnearest.ne_notANumber
        · exact hplace
      · refine float_le_infinity hx ?_
        rw [unpack_add, hu, hv, hsum]

/-- So a sum is not negative. -/
theorem float_add_nonneg {x y : Float} (hx : 0 ≤ x) (hy : 0 ≤ y) : 0 ≤ x + y :=
  float_le_trans hx (float_le_add hx hy)

theorem float_le_zero_add {y : Float} (hy : 0 ≤ y) : y ≤ 0 + y := by
  have hzero : (0 : Float).toModel.unpack = .zero .positive := by rfl
  have hsame := unpack_pack_unpack y
  have hsum : (0 + y).toModel.unpack = y.toModel.unpack ∨ ∃ s t,
      (0 + y).toModel.unpack = .zero s ∧ y.toModel.unpack = .zero t := by
    rw [unpack_add, hzero]
    rcases unpack_of_nonneg hy with hv | ⟨t, hv⟩ | ⟨n, f, hn, hv⟩ <;> rw [hv] at hsame ⊢
    · exact .inl hsame
    · cases t <;> exact .inr ⟨_, _, rfl, rfl⟩
    · exact .inl hsame
  obtain hsum | ⟨s, t, hsum, hv⟩ := hsum
  · have hnan := unpack_ne_notANumber_iff.mpr (float_le_iff.mp hy).2.1
    exact float_le_of_place_le hnan (hsum ▸ hnan) (by rw [hsum])
  · exact float_le_of_place_le (by simp [hv]) (by simp [hsum]) (by simp [hv, hsum, place])

/-! ## Products -/

/-- The fractions end a unit before one. -/
theorem fraction_value_le {u : Float} (h : u < 1.0) {m : Nat} {e : Int} {hm : 0 < m}
    (hu : u.toModel.unpack = .finite .positive m e hm) : (m : ℚ) * 2 ^ e ≤ 1 - 2 ^ (-53 : Int) := by
  have hone : (1.0 : Float).toModel.unpack = .finite .positive (2 ^ 52) (-52) (by norm_num) := by rfl
  obtain ⟨-, -, hlt⟩ := float_lt_iff.mp h
  rw [Double.place, Double.place, hu, hone, ← not_le, place_finite_le_iff] at hlt
  obtain ⟨hc, -⟩ := canonical_of_unpack hu
  have hupper := hc.mantissa_lt
  have hnormal := hc.normal
  have he : e ≤ -53 := by omega
  have hm' : (m : ℚ) ≤ 2 ^ 53 - 1 := by
    have : (m : ℚ) + 1 ≤ 2 ^ 53 := by exact_mod_cast hupper
    linarith
  calc (m : ℚ) * 2 ^ e ≤ (2 ^ 53 - 1) * 2 ^ (-53 : Int) := by
        refine mul_le_mul hm' (zpow_le_zpow_right₀ (by norm_num) he) (by positivity) (by norm_num)
    _ = 1 - 2 ^ (-53 : Int) := by norm_num

/-- Such a part of a double lies below the rounding interval of the double. -/
theorem part_lt_low {m : Nat} {e : Int} {narrow : Bool} {q : ℚ}
    (hc : Binary.Canonical 52 (-1074) m e narrow) (he : -1074 < e)
    (hq : q ≤ (1 - 2 ^ (-53 : Int)) * (m * 2 ^ e)) :
    q < (4 * m - if narrow then 1 else 2) * 2 ^ (e - 2) := by
  have hunit : (0 : ℚ) < 2 ^ (e - 2) := zpow_pos (by norm_num) _
  have hm : (2 : ℚ) ^ 52 ≤ m := by exact_mod_cast hc.normal he
  have hshare : (1 - 2 ^ (-53 : Int)) * ((m : ℚ) * 2 ^ e) =
      (4 * m - m / 2 ^ 51) * 2 ^ (e - 2) := by
    rw [Binary.pow_eq_quarters e]
    norm_num
    ring
  refine hq.trans_lt ?_
  rw [hshare]
  refine mul_lt_mul_of_pos_right ?_ hunit
  split
  · linarith
  · next hnarrow =>
      have hne : m ≠ 2 ^ 52 := fun heq => hnarrow (hc.narrow_iff.mpr ⟨heq, he⟩)
      have hlt : (2 : ℚ) ^ 52 < m := by
        exact_mod_cast lt_of_le_of_ne (hc.normal he) (Ne.symm hne)
      linarith

/-- A double that is not too small is greater than its product with a fraction. -/
theorem float_mul_lt_self {u x : Float} (hu : 0 ≤ u) (hu' : u < 1.0) {m : Nat} {e : Int} {hm : 0 < m}
    (hx : x.toModel.unpack = .finite .positive m e hm) (he : -1074 < e) : 0 ≤ u * x ∧ u * x < x := by
  have hzero : (0 : Float).toModel.unpack = .zero .positive := by rfl
  obtain ⟨hc, hle⟩ := canonical_of_unpack hx
  suffices hproduct : ∃ v, (u * x).toModel.unpack = v ∧ v ≠ .notANumber ∧
      place (.zero .positive) ≤ place v ∧ place v < place (.finite .positive m e hm) by
    obtain ⟨v, hv, hnan, hstart, hend⟩ := hproduct
    refine ⟨float_le_of_place_le (by simp [hzero]) (hv ▸ hnan) (by rw [hzero, hv]; exact hstart), ?_⟩
    rw [float_lt_iff, ← unpack_ne_notANumber_iff, ← unpack_ne_notANumber_iff, Double.place, Double.place,
      hv, hx]
    exact ⟨hnan, by simp, hend⟩
  rw [unpack_mul, hx]
  rcases unpack_of_nonneg hu with hv | ⟨s, hv⟩ | ⟨n, f, hn, hv⟩
  · have hinf : ¬ u < 1.0 := by
      rw [float_lt_iff_compare, hv]
      decide
    exact absurd hu' hinf
  · obtain ⟨r, hr⟩ : ∃ r, (Float.Model.pack
        (mul Format.binary64 (.zero s) (.finite .positive m e hm))).unpack = .zero r :=
      ⟨_, unpack_pack_zero _⟩
    rw [hv, hr]
    exact ⟨_, rfl, by simp, by simp [place], by simp [place, Prod.Lex.toLex_lt_toLex]⟩
  · have hbits : 52 ≤ (n * m).log2 := by
      have hm' := hc.normal he
      exact (Nat.le_log2 (by positivity)).mpr (hm'.trans (Nat.le_mul_of_pos_left m hn))
    have hnearest := nearest_mul f e hn hm hbits
    have hvalue : (n : ℚ) * 2 ^ f * (m * 2 ^ e) ≤ (1 - 2 ^ (-53 : Int)) * (m * 2 ^ e) :=
      mul_le_mul_of_nonneg_right (fraction_value_le hu' hv) (by positivity)
    have hbelow := part_lt_low hc he hvalue
    rw [hv, hnearest.unpack_pack_of_le hc hle (hbelow.le.trans (Binary.rounds_self m e _).low_le)]
    exact ⟨_, rfl, hnearest.ne_notANumber, hnearest.zero_le_place, hnearest.place_lt hm hc hbelow⟩

end Tuning
