import Mathlib
import Tuning.Finite.Partition
import Tuning.Proofs.Finite.Compositions
import Tuning.Proofs.Finite.Primes

/-! # Factorisations into slots are enumerated

The powers of a prime in the slots form a composition of its multiplicity. What is left of the slots
splits the rest of the product, which the prime does not divide. So the slots determine both parts and
are determined by them. -/

namespace Tuning.Finite

open Indexed (Enumerates)

/-- Multiplies every slot with a power of a prime. -/
def scaleNat (p : Nat) (slots exponents : List Nat) : List Nat :=
  List.zipWith (fun x e => x * p ^ e) slots exponents

/-! ## Slots and exponents determine each other -/

section Slots

variable {p : Nat}

theorem factorization_mul_pow (hp : p.Prime) {x : Nat} (hx : ¬ p ∣ x) (e : Nat) :
    (x * p ^ e).factorization p = e := by
  have hzero : x ≠ 0 := by
    rintro rfl
    exact hx (Nat.dvd_zero p)
  rw [Nat.factorization_mul hzero (pow_ne_zero e hp.ne_zero), Finsupp.add_apply,
    Nat.factorization_eq_zero_of_not_dvd hx, hp.factorization_pow]
  simp

/-- The exponents can be read off the slots. -/
theorem map_factorization_scaleNat (hp : p.Prime) {xs es : List Nat} (hxs : ∀ x ∈ xs, ¬ p ∣ x)
    (hlength : xs.length = es.length) :
    (scaleNat p xs es).map (·.factorization p) = es := by
  induction xs generalizing es with
  | nil => exact (List.length_eq_zero_iff.mp hlength.symm).symm
  | cons x xs ih =>
      cases es with
      | nil => cases hlength
      | cons e es =>
          rw [scaleNat, List.zipWith_cons_cons, List.map_cons,
            factorization_mul_pow hp (hxs x (by simp))]
          rw [← scaleNat, ih (fun y hy => hxs y (by simp [hy])) (Nat.succ.inj hlength)]

/-- What the exponents leave of the slots can be read off too. -/
theorem map_ordCompl_scaleNat (hp : p.Prime) {xs es : List Nat} (hxs : ∀ x ∈ xs, ¬ p ∣ x)
    (hlength : xs.length = es.length) :
    (scaleNat p xs es).map (fun y => y / p ^ y.factorization p) = xs := by
  induction xs generalizing es with
  | nil => rfl
  | cons x xs ih =>
      cases es with
      | nil => cases hlength
      | cons e es =>
          rw [scaleNat, List.zipWith_cons_cons, List.map_cons,
            factorization_mul_pow hp (hxs x (by simp)),
            Nat.mul_div_cancel _ (Nat.pow_pos hp.pos)]
          rw [← scaleNat, ih (fun y hy => hxs y (by simp [hy])) (Nat.succ.inj hlength)]

theorem prod_scaleNat {xs es : List Nat} (hlength : xs.length = es.length) :
    (scaleNat p xs es).prod = xs.prod * p ^ es.sum := by
  induction xs generalizing es with
  | nil =>
      rw [List.length_eq_zero_iff.mp hlength.symm]
      rfl
  | cons x xs ih =>
      cases es with
      | nil => cases hlength
      | cons e es =>
          rw [scaleNat, List.zipWith_cons_cons, List.prod_cons, ← scaleNat,
            ih (Nat.succ.inj hlength), List.prod_cons, List.sum_cons, Nat.pow_add]
          exact Nat.mul_mul_mul_comm ..

/-- Every list of slots is made of exponents and what they leave. -/
theorem scaleNat_ordCompl (ys : List Nat) :
    scaleNat p (ys.map fun y => y / p ^ y.factorization p) (ys.map (·.factorization p)) = ys := by
  rw [scaleNat, List.zipWith_map, List.zipWith_self]
  refine List.map_id'' (fun y => ?_) ys
  rw [Nat.mul_comm, Nat.ordProj_mul_ordCompl_eq_self]

theorem sum_factorization {ys : List Nat} (hys : ys.prod ≠ 0) :
    (ys.map (·.factorization p)).sum = ys.prod.factorization p := by
  induction ys with
  | nil => simp
  | cons y ys ih =>
      rw [List.prod_cons] at hys ⊢
      obtain ⟨hy, hys⟩ := Nat.mul_ne_zero_iff.mp hys
      rw [List.map_cons, List.sum_cons, ih hys, Nat.factorization_mul hy hys, Finsupp.add_apply]

theorem prod_ordCompl (ys : List Nat) :
    (ys.map fun y => y / p ^ y.factorization p).prod = ys.prod / p ^ ys.prod.factorization p := by
  induction ys with
  | nil => simp
  | cons y ys ih => rw [List.map_cons, List.prod_cons, ih, List.prod_cons, Nat.ordCompl_mul]

end Slots

/-! ## The same with machine integers -/

theorem powerFrom_ofNat (p e done : Nat) :
    powerFrom (.ofNat p) e (.ofNat done) = .ofNat (done * p ^ e) := by
  induction e generalizing done with
  | zero => rw [powerFrom, Nat.pow_zero, Nat.mul_one]
  | succ e ih => rw [powerFrom, ← Int64.ofNat_mul, ih, Nat.pow_succ', Nat.mul_assoc]

theorem scale_ofNat (p : Nat) (xs es : List Nat) :
    scale (.ofNat p) (xs.map .ofNat) es = (scaleNat p xs es).map .ofNat := by
  have hpower : ∀ e, power (.ofNat p) e = .ofNat (p ^ e) := by
    intro e
    rw [power, show (1 : Int64) = .ofNat 1 from rfl, powerFrom_ofNat, Nat.one_mul]
  rw [scale, scaleNat, List.zipWith_map_left, List.map_zipWith]
  simp only [hpower, Int64.ofNat_mul]

/-- The lists of positive machine integers, one for each slot, with a given product. -/
def IsSplit (n slots : Nat) (xs : List Int64) : Prop :=
  ∃ ns : List Nat, ns.length = slots ∧ ns.prod = n ∧ xs = ns.map .ofNat

theorem map_ofNat_inj {xs ys : List Nat} (hxs : ∀ x ∈ xs, x < 2 ^ 63) (hys : ∀ y ∈ ys, y < 2 ^ 63)
    (h : xs.map Int64.ofNat = ys.map Int64.ofNat) : xs = ys := by
  have hback : ∀ {zs : List Nat}, (∀ z ∈ zs, z < 2 ^ 63) →
      (zs.map Int64.ofNat).map Int64.toNatClampNeg = zs := by
    intro zs hzs
    rw [List.map_map]
    refine (List.map_congr_left fun z hz => ?_).trans (List.map_id' zs)
    exact Int64.toNatClampNeg_ofNat_of_lt (hzs z hz)
  rw [← hback hxs, h, hback hys]

theorem lt_of_mem_of_prod {xs : List Nat} {n : Nat} (hprod : xs.prod = n) (hn : 0 < n)
    (hn' : n < 2 ^ 63) : ∀ x ∈ xs, x < 2 ^ 63 :=
  fun _ hx => Nat.lt_of_le_of_lt (Nat.le_of_dvd hn (hprod ▸ List.dvd_prod hx)) hn'

/-! ## The family -/

theorem scale_comm (p q : Int64) (xs : List Int64) (es fs : List Nat) :
    scale p (scale q xs fs) es = scale q (scale p xs es) fs := by
  unfold scale
  induction xs generalizing es fs with
  | nil => rfl
  | cons x xs ih =>
      cases es with
      | nil => simp
      | cons e es =>
          cases fs with
          | nil => simp
          | cons f fs =>
              have hx : x * power q f * power p e = x * power p e * power q f := by
                rw [Int64.mul_assoc, Int64.mul_comm (power q f), ← Int64.mul_assoc]
              rw [List.zipWith_cons_cons, List.zipWith_cons_cons, List.zipWith_cons_cons,
                List.zipWith_cons_cons, hx, ih]

theorem foldl_scale (p : Int64) (es : List Nat) (spread : List (Int64 × List Nat))
    (parts : List Int64) :
    spread.foldl (fun parts (prime, exponents) => scale prime parts exponents) (scale p parts es) =
      scale p (spread.foldl (fun parts (prime, exponents) => scale prime parts exponents) parts)
        es := by
  induction spread generalizing parts with
  | nil => rfl
  | cons factor spread ih =>
      obtain ⟨prime, exponents⟩ := factor
      rw [List.foldl_cons, List.foldl_cons]
      dsimp only
      rw [scale_comm, ih]

/-- The first prime is spread over what the other primes give. -/
theorem partitionFamily_cons (p : Int64) (k slots : Nat) (powers : List (Int64 × Nat)) :
    partitionFamily ((p, k) :: powers) slots =
      (Indexed.product (compositionFamily k slots) (partitionFamily powers slots)).map
        fun (exponents, parts) => scale p parts exponents := by
  refine congrArg (Indexed.mk _) (funext fun i => ?_)
  exact foldl_scale p _ _ _

section Spread

variable {p k m slots : Nat}

/-- Exponents of a prime that are spread over factors without it. -/
def IsSpread (k m slots : Nat) (spread : List Nat × List Int64) : Prop :=
  (spread.1.length = slots ∧ spread.1.sum = k) ∧ IsSplit m slots spread.2

/-- The exponents and the factors that they are spread over can be told from the result. -/
theorem eq_of_scale_eq (hp : p.Prime) (hndvd : ¬ p ∣ m) (hn : 0 < p ^ k * m) (hn' : p ^ k * m < 2 ^ 63)
    {spread spread' : List Nat × List Int64} (h : IsSpread k m slots spread)
    (h' : IsSpread k m slots spread')
    (heq : scale (.ofNat p) spread.2 spread.1 = scale (.ofNat p) spread'.2 spread'.1) :
    spread = spread' := by
  obtain ⟨es, _⟩ := spread
  obtain ⟨fs, _⟩ := spread'
  obtain ⟨⟨hes, hsum⟩, ns, hns, hprod, rfl⟩ := h
  obtain ⟨⟨hfs, hsum'⟩, ms, hms, hprod', rfl⟩ := h'
  dsimp only at hes hsum hfs hsum' heq
  have hrest : ∀ ns : List Nat, ns.prod = m → ∀ x ∈ ns, ¬ p ∣ x :=
    fun ns hprod x hx hdvd => hndvd (hdvd.trans (hprod ▸ List.dvd_prod hx))
  have hbound : ∀ {xs es : List Nat}, xs.length = es.length → xs.prod = m → es.sum = k →
      ∀ y ∈ scaleNat p xs es, y < 2 ^ 63 := by
    intro xs es hlength hxs hes
    refine lt_of_mem_of_prod ?_ hn hn'
    rw [prod_scaleNat hlength, hxs, hes, Nat.mul_comm]
  rw [scale_ofNat, scale_ofNat] at heq
  have hscale := map_ofNat_inj (hbound (hns.trans hes.symm) hprod hsum)
    (hbound (hms.trans hfs.symm) hprod' hsum') heq
  have hexponents : es = fs := by
    rw [← map_factorization_scaleNat hp (hrest ns hprod) (hns.trans hes.symm), hscale,
      map_factorization_scaleNat hp (hrest ms hprod') (hms.trans hfs.symm)]
  have hslots : ns = ms := by
    rw [← map_ordCompl_scaleNat hp (hrest ns hprod) (hns.trans hes.symm), hscale,
      map_ordCompl_scaleNat hp (hrest ms hprod') (hms.trans hfs.symm)]
  rw [hexponents, hslots]

/-- Factors of a number are factors of what is left without a prime, over which its exponents are
spread. -/
theorem isSplit_mul_iff (hp : p.Prime) (hndvd : ¬ p ∣ m) (hn : 0 < p ^ k * m) (xs : List Int64) :
    IsSplit (p ^ k * m) slots xs ↔
      ∃ spread, IsSpread k m slots spread ∧ scale (.ofNat p) spread.2 spread.1 = xs := by
  constructor
  · rintro ⟨ns, hns, hprod, rfl⟩
    refine ⟨(ns.map (·.factorization p), (ns.map fun y => y / p ^ y.factorization p).map .ofNat),
      ⟨⟨by rw [List.length_map, hns], ?_⟩, _, by rw [List.length_map, hns], ?_, rfl⟩, ?_⟩
    · dsimp only
      rw [sum_factorization (by omega), hprod, Nat.mul_comm, factorization_mul_pow hp hndvd]
    · rw [prod_ordCompl, hprod, Nat.mul_comm, factorization_mul_pow hp hndvd,
        Nat.mul_div_cancel _ (Nat.pow_pos hp.pos)]
    · dsimp only
      rw [scale_ofNat, scaleNat_ordCompl]
  · rintro ⟨⟨es, _⟩, ⟨⟨hes, hsum⟩, ns, hns, hprod, rfl⟩, rfl⟩
    dsimp only at hes hsum ⊢
    have hlength : ns.length = es.length := hns.trans hes.symm
    refine ⟨scaleNat p ns es, ?_, ?_, scale_ofNat p ns es⟩
    · rw [scaleNat, List.length_zipWith, hns, hes, Nat.min_self]
    · rw [prod_scaleNat hlength, hprod, hsum, Nat.mul_comm]

end Spread

/-- Every list of factors stands at one index. -/
theorem enumerates_partitions {low n slots : Nat} {powers : List (Nat × Nat)}
    (h : IsPrimePowers low n powers) (hn : 0 < n) (hn' : n < 2 ^ 63) :
    (partitionFamily (powers.map fun power => (.ofNat power.1, power.2)) slots).Enumerates
      (IsSplit n slots) := by
  induction powers generalizing low n with
  | nil =>
      obtain rfl : n = 1 := h.prod_eq.symm
      refine (Enumerates.single (List.replicate slots 1)).iff fun xs => ?_
      constructor
      · rintro rfl
        exact ⟨List.replicate slots 1, by simp, by simp, by simp⟩
      · rintro ⟨ns, hlength, hprod, rfl⟩
        have hns : ns = List.replicate slots 1 :=
          List.eq_replicate_iff.mpr ⟨hlength, fun x hx =>
            Nat.dvd_one.mp (hprod ▸ List.dvd_prod hx)⟩
        rw [hns, List.map_replicate]
        rfl
  | cons power powers ih =>
      obtain ⟨p, k⟩ := power
      have hp : p.Prime := h.prime _ List.mem_cons_self
      obtain ⟨m, rfl, hndvd, hpowers⟩ := h.of_cons
      have hm : 0 < m := Nat.pos_of_mul_pos_left hn
      have hmle : m ≤ p ^ k * m := Nat.le_mul_of_pos_left m (Nat.pow_pos hp.pos)
      rw [List.map_cons, partitionFamily_cons]
      refine ((enumerates_compositions k slots).product (ih hpowers hm (by omega))).map ?_ ?_
      · exact fun spread spread' hs hs' => eq_of_scale_eq hp hndvd hn hn' hs hs'
      · exact isSplit_mul_iff hp hndvd hn

/-! ## Transfers of a prime -/

theorem modify_map_ofNat {f : Nat → Nat} {g : Int64 → Int64} {ns : List Nat}
    (h : ∀ x ∈ ns, g (.ofNat x) = .ofNat (f x)) (i : Nat) :
    (ns.map Int64.ofNat).modify i g = (ns.modify i f).map .ofNat := by
  induction ns generalizing i with
  | nil => simp
  | cons x ns ih =>
      cases i with
      | zero => simp [h x]
      | succ i => simp [ih fun y hy => h y (by simp [hy])]

theorem prod_modify_mul (p : Nat) {ns : List Nat} {i : Nat} (hi : i < ns.length) :
    (ns.modify i (· * p)).prod = ns.prod * p := by
  induction ns generalizing i with
  | nil => cases hi
  | cons x ns ih =>
      cases i with
      | zero => simp [Nat.mul_right_comm]
      | succ i => simp [ih (Nat.lt_of_succ_lt_succ hi), Nat.mul_assoc]

theorem prod_modify_div {p : Nat} {ns : List Nat} {i : Nat} (hi : i < ns.length)
    (hdvd : p ∣ ns[i]) : (ns.modify i (· / p)).prod * p = ns.prod := by
  induction ns generalizing i with
  | nil => cases hi
  | cons x ns ih =>
      cases i with
      | zero =>
          have hx : x / p * p = x := Nat.div_mul_cancel hdvd
          rw [List.modify_zero_cons, List.prod_cons, Nat.mul_right_comm, hx, List.prod_cons]
      | succ i =>
          rw [List.modify_succ_cons, List.prod_cons, Nat.mul_assoc,
            ih (Nat.lt_of_succ_lt_succ hi) hdvd, List.prod_cons]

/-- A divisor of one slot may go to another slot. -/
theorem IsSplit.transfer {n slots p source target : Nat} {xs : List Int64} (h : IsSplit n slots xs)
    (hn : 0 < n) (hn' : n < 2 ^ 63) (hp : p < 2 ^ 63) (hsource : source < slots)
    (htarget : target < slots) (hdvd : (xs.getD source 1 % .ofNat p == 0) = true) :
    IsSplit n slots ((xs.modify source (· / .ofNat p)).modify target (· * .ofNat p)) := by
  obtain ⟨ns, hlength, hprod, rfl⟩ := h
  have hbound := lt_of_mem_of_prod hprod hn hn'
  have hi : source < ns.length := hlength ▸ hsource
  have hdvd' : p ∣ ns[source] := by
    have hget : (ns.map Int64.ofNat).getD source 1 = .ofNat ns[source] := by
      simp [List.getD_eq_getElem?_getD, hi]
    rw [hget, ofNat_mod_eq_zero (hbound _ (List.getElem_mem hi)) hp] at hdvd
    simpa using hdvd
  refine ⟨(ns.modify source (· / p)).modify target (· * p), by simpa using hlength, ?_, ?_⟩
  · rw [prod_modify_mul p (by simpa [hlength] using htarget), prod_modify_div hi hdvd', hprod]
  · have hdiv : ∀ x ∈ ns, Int64.ofNat x / Int64.ofNat p = Int64.ofNat (x / p) :=
      fun x hx => ofNat_div (hbound x hx) hp
    rw [modify_map_ofNat hdiv, modify_map_ofNat fun x _ => (Int64.ofNat_mul x p).symm]

end Tuning.Finite
