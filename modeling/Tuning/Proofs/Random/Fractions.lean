import Tuning.Proofs.Decimal.Arithmetic
import Tuning.Proofs.Random.Draws

/-! # Drawn fractions

A source whose script holds words of 63 bits serves only such words, and the fractions drawn from it lie
between zero and one. -/

namespace Tuning

open Float.Model UnpackedFloat

/-! ## Sound sources -/

/-- All words of the script have 63 bits. -/
def Source.Sound (s : Source) : Prop :=
  ∀ word ∈ s.script, word < 2 ^ 63

namespace Source.Sound

/-- A sound source serves a word of 63 bits and stays sound. -/
theorem next {s s' : Source} {word : Nat} (h : s.Sound) (hnext : s.next = some (word, s')) :
    word < 2 ^ 63 ∧ s'.Sound := by
  unfold Source.next at hnext
  split at hnext
  · cases hnext
  · split at hnext
    · next first script hscript =>
        obtain ⟨rfl, rfl⟩ := Prod.mk.inj (Option.some.inj hnext)
        unfold Sound at h
        rw [hscript] at h
        exact ⟨h _ (by simp), fun other hother => h other (by simp [hother])⟩
    · next hscript =>
        obtain ⟨rfl, rfl⟩ := Prod.mk.inj (Option.some.inj hnext)
        refine ⟨?_, h⟩
        rw [UInt64.toNat_and]
        exact Nat.and_lt_two_pow _ (by decide)

end Source.Sound

namespace Draw

variable {α β : Type} {P : α → Prop} {Q : β → Prop}

/-- From a sound source every result has the property, and the source stays sound. -/
def Soundly (d : Draw α) (P : α → Prop) : Prop :=
  ∀ s a s', s.Sound → d s = some (a, s') → P a ∧ s'.Sound

namespace Soundly

theorem pure {a : α} (h : P a) : Soundly (pure a) P := by
  intro s b s' hs hb
  obtain ⟨rfl, rfl⟩ := pure_eq_some.mp hb
  exact ⟨h, hs⟩

theorem bind {d : Draw α} {f : α → Draw β} (hd : Soundly d P) (hf : ∀ a, P a → Soundly (f a) Q) :
    Soundly (d >>= f) Q := by
  intro s b s' hs hb
  obtain ⟨a, t, ha, hb⟩ := bind_eq_some.mp hb
  obtain ⟨hP, ht⟩ := hd s a t hs ha
  exact hf a hP t b s' ht hb

theorem mono {P' : α → Prop} {d : Draw α} (h : Soundly d P) (hP : ∀ a, P a → P' a) : Soundly d P' :=
  fun s a s' hs ha => ⟨hP a (h s a s' hs ha).1, (h s a s' hs ha).2⟩

theorem map {d : Draw α} {f : α → β} (h : Soundly d fun a => Q (f a)) : Soundly (f <$> d) Q := by
  intro s b s' hs hb
  obtain ⟨a, ha, rfl⟩ := map_eq_some.mp hb
  exact h s a s' hs ha

theorem mapM {f : α → Draw β} {R : α → β → Prop} (xs : List α) (hf : ∀ x ∈ xs, Soundly (f x) (R x)) :
    Soundly (xs.mapM f) (List.Forall₂ R xs) := by
  induction xs with
  | nil => exact .pure .nil
  | cons x xs ih =>
      rw [List.mapM_cons]
      refine (hf x (by simp)).bind fun y hy => ?_
      refine (ih fun z hz => hf z (by simp [hz])).bind fun ys hys => ?_
      exact .pure (.cons hy hys)

/-- What is drawn until it is accepted has the property of the draw, and is accepted. -/
theorem firstThat {accept : α → Bool} {d : Draw α} (hd : Soundly d P) :
    Soundly (firstThat accept d) fun a => P a ∧ accept a = true := by
  have hretry : ∀ fuel, Soundly (retry d accept fuel) fun a => P a ∧ accept a = true := by
    intro fuel
    induction fuel with
    | zero =>
        intro s a s' _ h
        cases h
    | succ fuel ih =>
        refine hd.bind fun a ha => ?_
        by_cases haccept : accept a = true
        · rw [if_pos haccept]
          exact .pure ⟨ha, haccept⟩
        · rw [if_neg haccept]
          exact ih
  intro s a s' hs h
  obtain ⟨t, t', ht, h⟩ := bind_eq_some.mp h
  obtain ⟨rfl, rfl⟩ := Prod.mk.inj (Option.some.inj ht)
  exact hretry _ s a s' hs h

end Soundly

/-! ## Fractions -/

theorem word_soundly : Soundly word (· < 2 ^ 63) :=
  fun _ _ _ hs h => hs.next h

theorem unpack_div (x y : Float) : (x / y).toModel.unpack =
    (Float.Model.pack (div Format.binary64 x.toModel.unpack y.toModel.unpack)).unpack := rfl

/-- A quotient of doubles of which the second one is not less lies between zero and one. -/
theorem div_bounds {x y : Float} {u : UnpackedFloat} {q : ℚ} (hx : x.toModel.unpack = u)
    (hu : Nearest u .positive q) {m : Nat} {e : Int} {hm : 0 < m}
    (hy : y.toModel.unpack = .finite .positive m e hm) (hq : q ≤ m * 2 ^ e) :
    0 ≤ x / y ∧ x / y ≤ 1.0 := by
  have hzero : (0 : Float).toModel.unpack = .zero .positive := by rfl
  have hone : (1.0 : Float).toModel.unpack = .finite .positive (2 ^ 52) (-52) (by norm_num) := by rfl
  suffices hquotient : ∃ v, (x / y).toModel.unpack = v ∧ v ≠ .notANumber ∧
      place (.zero .positive) ≤ place v ∧ place v ≤ place (1.0 : Float).toModel.unpack by
    obtain ⟨v, hv, hnan, hstart, hend⟩ := hquotient
    refine ⟨float_le_of_place_le (by simp [hzero]) (hv ▸ hnan) (by rw [hzero, hv]; exact hstart), ?_⟩
    exact float_le_of_place_le (hv ▸ hnan) (by simp [hone]) (by rw [hv]; exact hend)
  rw [unpack_div, hx, hy, hone]
  obtain ⟨n, f, narrow, hparts, hc, hround⟩ := hu
  cases u with
  | notANumber => simp [Binary.ofUnpacked] at hparts
  | infinity s => simp [Binary.ofUnpacked] at hparts
  | zero s =>
      obtain ⟨r, hr⟩ : ∃ r, (Float.Model.pack
          (div Format.binary64 (.zero s) (.finite .positive m e hm))).unpack = .zero r :=
        ⟨_, unpack_pack_zero _⟩
      exact ⟨_, hr, by simp, by simp [place], by simp [place, Prod.Lex.toLex_le_toLex]⟩
  | finite s k g hk =>
      obtain ⟨hs, rfl, rfl, -⟩ := Binary.finite.inj hparts
      cases isMinus_injective (t := .positive) hs
      obtain ⟨hc', -⟩ := canonical_of_unpack hy
      have hvalue := hc.value_le hc' (hround.mono hc hc' (Binary.rounds_self m e _) hq)
      have hratio : (k : ℚ) * 2 ^ g / (m * 2 ^ e) ≤ (2 ^ 52 : Nat) * 2 ^ (-52 : Int) := by
        rw [div_le_iff₀ (by positivity)]
        norm_num
        exact hvalue
      have hnearest := nearest_div g e hk hm
      have hone' := canonical_of_unpack hone
      rw [hnearest.unpack_pack_of_le hone'.1 hone'.2 hratio]
      exact ⟨_, rfl, hnearest.ne_notANumber, hnearest.zero_le_place,
        hnearest.place_le (Nearest.of_unpack hone) hratio⟩

/-- The quotient of a word of 63 bits and `2 ^ 63`. -/
theorem quotient_bounds {n : Nat} (hn : n < 2 ^ 63) :
    0 ≤ n.toUInt64.toFloat / 9223372036854775808.0 ∧
      n.toUInt64.toFloat / 9223372036854775808.0 ≤ 1.0 := by
  have hlast : (9223372036854775808.0 : Float).toModel.unpack =
      .finite .positive (2 ^ 52) 11 (by norm_num) := by rfl
  obtain rfl | hpos := Nat.eq_zero_or_pos n
  · decide +kernel
  · have hnearest := nearest_ofUInt64 hpos (hn.trans (by norm_num))
    have hle : (n : ℚ) ≤ (2 ^ 52 : Nat) * 2 ^ (11 : Int) := by
      norm_num
      exact_mod_cast hn.le
    obtain ⟨hc, he⟩ := canonical_of_unpack hlast
    exact div_bounds (hnearest.unpack_pack_of_le hc he hle) hnearest hlast hle

/-- A fraction lies between zero and one, and is not one. -/
theorem fraction_soundly : Soundly fraction fun u => 0 ≤ u ∧ u < 1.0 := by
  have hquotient : Soundly (do return (← word).toUInt64.toFloat / 9223372036854775808.0 : Draw Float)
      fun u => 0 ≤ u ∧ u ≤ 1.0 :=
    word_soundly.bind fun n hn => .pure (quotient_bounds hn)
  intro s u s' hs h
  obtain ⟨⟨⟨hstart, hend⟩, haccept⟩, hs'⟩ := hquotient.firstThat s u s' hs h
  refine ⟨⟨hstart, ?_⟩, hs'⟩
  rcases float_le_iff_lt_or_beq.mp hend with hlt | heq
  · exact hlt
  · simp [bne, heq] at haccept

end Draw

end Tuning
