import Mathlib
import Tuning.Gene.Factor
import Tuning.Proofs.Gene.Domain

/-! # Factorisations are listed completely

The list of factorisations is made prime by prime, and the family that a parameter draws from has the
same elements in the same order. So the list holds every factorisation once, and its length is a product
of binomial coefficients. No multiplication on the way leaves the machine integers. -/

namespace Tuning

namespace Indexed

variable {α β : Type}

/-- The pairs in order: the second part varies fastest. -/
theorem toList_product (x : Indexed α) (y : Indexed β) :
    (product x y).toList = x.toList.flatMap fun a => y.toList.map (a, ·) := by
  obtain ⟨n, get⟩ := x
  induction n with
  | zero => simp [product, toList]
  | succ n ih =>
      have hlast : ∀ j ∈ List.range y.size,
          (get ((n * y.size + j) / y.size), y.get ((n * y.size + j) % y.size)) = (get n, y.get j) := by
        intro j hj
        have hlt : j < y.size := List.mem_range.mp hj
        rw [Nat.mul_comm, Nat.mul_add_div (by omega), Nat.div_eq_of_lt hlt, Nat.mul_add_mod,
          Nat.mod_eq_of_lt hlt, Nat.add_zero]
      simp only [product, toList] at ih ⊢
      rw [Nat.succ_mul, List.range_add, List.map_append, ih, List.map_map, List.range_succ,
        List.map_append, List.flatMap_append]
      congr 1
      simpa using hlast

end Indexed

namespace Finite

/-! ## Compositions -/

/-- Skipping blocks goes through the blocks in order. -/
theorem map_locate_range (m k fuel first : Nat) :
    (List.range (countFrom m k fuel first)).map (locate m k fuel first) =
      (List.range (fuel + 1)).flatMap fun d =>
        (List.range (countCompositions (m - (first + d)) k)).map (first + d, ·) := by
  induction fuel generalizing first with
  | zero => simp [countFrom, locate]
  | succ fuel ih =>
      have hblock : (List.range (countCompositions (m - first) k)).map (locate m k (fuel + 1) first) =
          (List.range (countCompositions (m - first) k)).map (first, ·) := by
        refine List.map_congr_left fun i hi => ?_
        rw [locate, if_pos (List.mem_range.mp hi)]
      have hlater : ∀ i, locate m k (fuel + 1) first (countCompositions (m - first) k + i) =
          locate m k fuel (first + 1) i := by
        intro i
        rw [locate, if_neg (by omega), Nat.add_sub_cancel_left]
      rw [countFrom, List.range_add, List.map_append, hblock, List.map_map, List.range_succ_eq_map,
        List.flatMap_cons, List.flatMap_map]
      simp only [Function.comp_def, hlater]
      rw [ih]
      simp [Nat.add_assoc, Nat.add_comm 1]

/-- The family of compositions has the order of their list. -/
theorem toList_compositionFamily (m k : Nat) :
    (compositionFamily m k).toList = compositions m k := by
  induction k generalizing m with
  | zero =>
      by_cases hm : m = 0 <;> simp [compositionFamily, compositions, countCompositions,
        nthComposition, Indexed.toList, hm]
  | succ k ih =>
      cases k with
      | zero => rfl
      | succ k =>
          have hnth : nthComposition m (k + 2) =
              (fun found => found.1 :: nthComposition (m - found.1) (k + 1) found.2) ∘
                locate m (k + 1) m 0 :=
            funext (nthComposition_cons m k)
          have hrest : ∀ first, compositions (m - first) (k + 1) =
              (List.range (countCompositions (m - first) (k + 1))).map
                (nthComposition (m - first) (k + 1)) :=
            fun first => (ih (m - first)).symm
          rw [compositions, Indexed.toList, compositionFamily, hnth, ← List.map_map,
            ← countFrom_zero, map_locate_range, List.map_flatMap]
          simp [hrest, Function.comp_def]

theorem mem_compositions {m k : Nat} {es : List Nat} :
    es ∈ compositions m k ↔ es.length = k ∧ es.sum = m := by
  rw [← toList_compositionFamily]
  exact (enumerates_compositions m k).mem_toList

/-! ## Lists and families of factorisations -/

theorem length_scale {p : Int64} {xs : List Int64} {es : List Nat} (h : es.length = xs.length) :
    (scale p xs es).length = xs.length := by
  rw [scale, List.length_zipWith, h, Nat.min_self]

theorem toList_exponentFamily (slots : Nat) (prime : Int64) (k : Nat) (powers : List (Int64 × Nat)) :
    (exponentFamily slots ((prime, k) :: powers)).toList =
      (compositions k slots).flatMap fun exponents =>
        (exponentFamily slots powers).toList.map ((prime, exponents) :: ·) := by
  rw [exponentFamily, Indexed.toList_map, Indexed.toList_product, toList_compositionFamily,
    List.map_flatMap]
  simp [Function.comp_def]

/-- Prime powers are multiplied into slots in the order of the exponents. -/
theorem spreadOver_eq_map (xs : List Int64) (powers : List (Int64 × Nat)) :
    spreadOver xs powers =
      (exponentFamily xs.length powers).toList.map fun spread =>
        spread.foldl (fun parts (prime, exponents) => scale prime parts exponents) xs := by
  induction powers generalizing xs with
  | nil => rfl
  | cons power powers ih =>
      obtain ⟨prime, k⟩ := power
      rw [spreadOver, toList_exponentFamily, List.map_flatMap]
      refine List.flatMap_congr fun exponents hexponents => ?_
      rw [ih, length_scale (mem_compositions.mp hexponents).1, List.map_map]
      rfl

/-! ## One list for all slots -/

/-- Writes the slots times powers of a prime over a list, slot by slot. -/
def overwrite (prime : Int64) (saved : List Int64) (exponents : List Nat) (current : List Int64) :
    List Int64 :=
  exponents.zipIdx.foldl
    (fun current slot => current.set slot.2 (saved.getD slot.2 1 * power prime slot.1)) current

/-- Multiplies prime powers into the slots of one list. The slots are written anew for every split of a
multiplicity, and are restored in the end. -/
def spreadHere : List (Int64 × Nat) → Quest (List Int64) (List Int64) → Quest (List Int64) (List Int64)
  | [], t => t.keep
  | (prime, multiplicity) :: rest, t =>
    { (compositions multiplicity t.current.length).foldl (fun u exponents =>
        spreadHere rest { u with current := overwrite prime t.current exponents u.current }) t with
      current := t.current }

/-- Every slot is written over, whatever was in it. -/
theorem overwrite_eq_scale (prime : Int64) {saved current : List Int64} {exponents : List Nat}
    (hsaved : saved.length = exponents.length) (hcurrent : current.length = exponents.length) :
    overwrite prime saved exponents current = scale prime saved exponents := by
  -- slots before the next one are written, and the others are not
  have hwrite : ∀ (exponents : List Nat) (before written after old : List Int64),
      written.length = before.length → after.length = exponents.length →
      old.length = exponents.length →
      (exponents.zipIdx before.length).foldl (fun current slot =>
        current.set slot.2 ((before ++ after).getD slot.2 1 * power prime slot.1)) (written ++ old) =
      written ++ scale prime after exponents := by
    intro exponents
    induction exponents with
    | nil =>
        intro before written after old hwritten hafter hold
        rw [List.length_eq_zero_iff.mp hold]
        simp [scale]
    | cons e es ih =>
        intro before written after old hwritten hafter hold
        obtain ⟨x, after, rfl⟩ := List.exists_cons_of_length_eq_add_one hafter
        obtain ⟨y, old, rfl⟩ := List.exists_cons_of_length_eq_add_one hold
        have hrest := ih (before ++ [x]) (written ++ [x * power prime e]) after old (by simp [hwritten])
          (by simpa using hafter) (by simpa using hold)
        simp only [List.length_append, List.length_singleton, List.append_assoc,
          List.singleton_append] at hrest
        rw [List.zipIdx_cons, List.foldl_cons]
        simp only [← hwritten, List.set_append_right _ _ (le_refl _), Nat.sub_self, List.set_cons_zero]
        rw [hwritten]
        simpa [scale] using hrest
  simpa [overwrite] using hwrite exponents [] [] saved current rfl hsaved hcurrent

theorem spreadHere_eq_gain (powers : List (Int64 × Nat)) (t : Quest (List Int64) (List Int64)) :
    spreadHere powers t = t.gain (spreadOver t.current powers) := by
  induction powers generalizing t with
  | nil => rfl
  | cons power powers ih =>
      obtain ⟨prime, multiplicity⟩ := power
      -- the slots change from split to split, but not their number
      have hsplits : ∀ (splits : List (List Nat)) (u : Quest (List Int64) (List Int64)),
          (∀ exponents ∈ splits, exponents.length = t.current.length) →
          u.current.length = t.current.length →
          (splits.foldl (fun u exponents => spreadHere powers
            { u with current := overwrite prime t.current exponents u.current }) u).found =
          u.found ++ splits.flatMap fun exponents =>
            spreadOver (scale prime t.current exponents) powers := by
        intro splits
        induction splits with
        | nil => simp
        | cons exponents splits ihsplits =>
            intro u hlengths hu
            obtain ⟨hlength, hrest⟩ := List.forall_mem_cons.mp hlengths
            have hwritten := overwrite_eq_scale prime hlength.symm (hu.trans hlength.symm)
            rw [List.foldl_cons, ih, hwritten, ihsplits _ hrest (length_scale hlength)]
            simp [Quest.gain]
      have hfound := hsplits (compositions multiplicity t.current.length) t
        (fun exponents h => (mem_compositions.mp h).1) rfl
      rw [spreadHere, spreadOver, hfound]
      rfl

/-- What is found in one list is the list of factorisations, in the same order. -/
theorem spreadHere_primePowers (product : Int64) (slots : Nat) :
    spreadHere (primePowers product) { current := List.replicate slots 1 } =
      { current := List.replicate slots 1, found := partitions product slots } := by
  rw [spreadHere_eq_gain]
  rfl

/-- The family of factorisations has the order of their list. -/
theorem toList_partitionFamily (product : Int64) (slots : Nat) :
    (partitionFamily (primePowers product) slots).toList = partitions product slots := by
  rw [partitions, spreadOver_eq_map, partitionFamily, Indexed.toList_map, List.length_replicate]

theorem natCast_toNatClampNeg {x : Int64} (h : 1 ≤ x) : ((x.toNatClampNeg : Nat) : Int) = x.toInt :=
  Int.toNat_of_nonneg (Int.le_trans (by decide) (Int64.le_iff_toInt_le.mp h))

/-- Positive factors, one for each slot, whose product in unbounded arithmetic is a given one. -/
theorem isSplit_iff {product : Int64} (h : 1 ≤ product) {slots : Nat} {xs : List Int64} :
    IsSplit product.toNatClampNeg slots xs ↔
      xs.length = slots ∧ (∀ x ∈ xs, 1 ≤ x) ∧ (xs.map Int64.toInt).prod = product.toInt := by
  obtain ⟨hpos, hlt, -⟩ := Factor.toNat_bounds h
  rw [← natCast_toNatClampNeg h]
  constructor
  · rintro ⟨ns, hlength, hprod, rfl⟩
    have hbound := lt_of_mem_of_prod hprod hpos hlt
    have hint : ∀ k ∈ ns, (Int64.ofNat k).toInt = k := fun k hk =>
      Int64.toInt_ofNat_of_lt (hbound k hk)
    refine ⟨by rwa [List.length_map], List.forall_mem_map.mpr fun k hk => ?_, ?_⟩
    · have hk' : 0 < k := Nat.pos_of_dvd_of_pos (hprod ▸ List.dvd_prod hk) hpos
      rw [Int64.le_iff_toInt_le, hint k hk]
      exact Int.ofNat_le.mpr hk'
    · have hmap : (ns.map Int64.ofNat).map Int64.toInt = ns.map fun k : Nat => (k : Int) := by
        rw [List.map_map]
        exact List.map_congr_left hint
      rw [hmap, ← hprod]
      exact (map_list_prod (Nat.castRingHom Int) ns).symm
  · rintro ⟨hlength, hpositive, hprod⟩
    have hint : ∀ x ∈ xs, ((x.toNatClampNeg : Nat) : Int) = x.toInt := fun x hx =>
      natCast_toNatClampNeg (hpositive x hx)
    refine ⟨xs.map Int64.toNatClampNeg, by rwa [List.length_map], ?_, ?_⟩
    · have hcast : (((xs.map Int64.toNatClampNeg).prod : Nat) : Int) = product.toNatClampNeg := by
        rw [← hprod, ← List.map_congr_left hint, ← Nat.coe_castRingHom, map_list_prod, List.map_map]
        rfl
      exact Int.ofNat_inj.mp hcast
    · rw [List.map_map]
      refine ((List.map_congr_left fun x hx => ?_).trans (List.map_id' xs)).symm
      exact (Factor.toNat_bounds (hpositive x hx)).2.2

/-! ## Counting -/

theorem size_partitionFamily (powers : List (Int64 × Nat)) (slots : Nat) :
    (partitionFamily powers slots).size = (powers.map fun power => countCompositions power.2 slots).prod := by
  induction powers with
  | nil => rfl
  | cons power powers ih =>
      obtain ⟨p, k⟩ := power
      rw [partitionFamily_cons, List.map_cons, List.prod_cons, ← ih]
      rfl

/-- What is multiplied over the prime powers is multiplied over the primes of the number. -/
theorem IsPrimePowers.prod_map {low n : Nat} {powers : List (Nat × Nat)}
    (h : IsPrimePowers low n powers) (F : Nat → Nat) :
    (powers.map fun power => F power.2).prod = ∏ p ∈ n.primeFactors, F (n.factorization p) := by
  induction powers generalizing low n with
  | nil =>
      obtain rfl : n = 1 := h.prod_eq.symm
      simp
  | cons power powers ih =>
      obtain ⟨p, k⟩ := power
      have hp : p.Prime := h.prime _ List.mem_cons_self
      have hk : k ≠ 0 := Nat.ne_of_gt (h.positive _ List.mem_cons_self)
      obtain ⟨m, rfl, hndvd, hpowers⟩ := h.of_cons
      have hcoprime : (p ^ k).Coprime m := (hp.coprime_iff_not_dvd.mpr hndvd).pow_left k
      have hfirst : (p ^ k * m).factorization p = k := by
        rw [Nat.mul_comm, factorization_mul_pow hp hndvd]
      have hothers : ∀ q ∈ m.primeFactors, (p ^ k * m).factorization q = m.factorization q := by
        intro q hq
        have hne : p ≠ q := by
          rintro rfl
          exact hndvd (Nat.dvd_of_mem_primeFactors hq)
        rw [Nat.factorization_mul_apply_of_coprime hcoprime, hp.factorization_pow,
          Finsupp.single_eq_of_ne hne.symm, Nat.zero_add]
      rw [hcoprime.primeFactors_mul, Nat.primeFactors_prime_pow hk hp, Finset.singleton_union,
        Finset.prod_insert fun hmem => hndvd (Nat.dvd_of_mem_primeFactors hmem), hfirst,
        Finset.prod_congr rfl fun q hq => congrArg F (hothers q hq), List.map_cons, List.prod_cons,
        ih hpowers]

/-! ## Multiplications that do not wrap around -/

/-- The product of two machine integers, if it is a machine integer. -/
def mul? (a b : Int64) : Option Int64 :=
  if (a * b).toInt = a.toInt * b.toInt then some (a * b) else none

/-- A power by repeated multiplication, as long as no multiplication wraps around. -/
def powerFrom? (base : Int64) : (exponent : Nat) → (done : Int64) → Option Int64
  | 0, done => some done
  | exponent + 1, done => do powerFrom? base exponent (← mul? done base)

/-- Every slot times a power of a prime, as long as no multiplication wraps around. -/
def scale? (prime : Int64) (slots : List Int64) (exponents : List Nat) : Option (List Int64) :=
  (slots.zip exponents).mapM fun (x, e) => do mul? x (← powerFrom? prime e 1)

/-- All ways to multiply prime powers into slots, as long as no multiplication wraps around. -/
def spreadOver? (slots : List Int64) : List (Int64 × Nat) → Option (List (List Int64))
  | [] => some [slots]
  | (prime, multiplicity) :: rest => do
    let lists ← (compositions multiplicity slots.length).mapM fun exponents => do
      spreadOver? (← scale? prime slots exponents) rest
    return lists.flatten

theorem mul?_ofNat {a b : Nat} (ha : 0 < a) (hb : 0 < b) (h : a * b < 2 ^ 63) :
    mul? (.ofNat a) (.ofNat b) = some (.ofNat (a * b)) := by
  have ha' : a < 2 ^ 63 := Nat.lt_of_le_of_lt (Nat.le_mul_of_pos_right a hb) h
  have hb' : b < 2 ^ 63 := Nat.lt_of_le_of_lt (Nat.le_mul_of_pos_left b ha) h
  rw [mul?, ← Int64.ofNat_mul, if_pos]
  rw [Int64.toInt_ofNat_of_lt h, Int64.toInt_ofNat_of_lt ha', Int64.toInt_ofNat_of_lt hb']
  exact Int.natCast_mul a b

theorem powerFrom?_ofNat {p : Nat} (hp : 0 < p) (e : Nat) {done : Nat} (hdone : 0 < done)
    (h : done * p ^ e < 2 ^ 63) :
    powerFrom? (.ofNat p) e (.ofNat done) = some (.ofNat (done * p ^ e)) := by
  induction e generalizing done with
  | zero => rw [powerFrom?, Nat.pow_zero, Nat.mul_one]
  | succ e ih =>
      have hnext : done * p * p ^ e = done * p ^ (e + 1) := by
        rw [Nat.mul_assoc, ← Nat.pow_succ']
      have hle : done * p ≤ done * p * p ^ e := Nat.le_mul_of_pos_right _ (Nat.pow_pos hp)
      rw [powerFrom?, mul?_ofNat hdone hp (by omega), ← hnext]
      exact ih (Nat.mul_pos hdone hp) (by omega)

theorem mapM_eq_some_map {α β : Type} {f : α → Option β} {g : α → β} {xs : List α}
    (h : ∀ x ∈ xs, f x = some (g x)) : xs.mapM f = some (xs.map g) := by
  induction xs with
  | nil => rfl
  | cons x xs ih =>
      rw [List.mapM_cons, h x List.mem_cons_self, ih fun y hy => h y (List.mem_cons_of_mem x hy)]
      rfl

/-- Slots are scaled without wrapping around when their product with the power is a machine integer. -/
theorem scale?_ofNat {p : Nat} (hp : 0 < p) {xs : List Nat} {es : List Nat}
    (hlength : es.length = xs.length) (hxs : 0 < xs.prod) (h : xs.prod * p ^ es.sum < 2 ^ 63) :
    scale? (.ofNat p) (xs.map .ofNat) es = some ((scaleNat p xs es).map .ofNat) := by
  have hprod : (scaleNat p xs es).prod = xs.prod * p ^ es.sum := prod_scaleNat hlength.symm
  have hpositive : 0 < xs.prod * p ^ es.sum := Nat.mul_pos hxs (Nat.pow_pos hp)
  have hmul : ∀ xe ∈ xs.zip es, (do mul? (.ofNat xe.1) (← powerFrom? (.ofNat p) xe.2 1)) =
      some (Int64.ofNat (xe.1 * p ^ xe.2)) := by
    rintro ⟨x, e⟩ hxe
    dsimp only
    have hmem : x * p ^ e ∈ scaleNat p xs es := by
      rw [scaleNat, ← List.map_uncurry_zip_eq_zipWith]
      exact List.mem_map_of_mem hxe
    have hdvd : x * p ^ e ∣ xs.prod * p ^ es.sum := hprod ▸ List.dvd_prod hmem
    have hle : x * p ^ e ≤ xs.prod * p ^ es.sum := Nat.le_of_dvd hpositive hdvd
    have hx : 0 < x := Nat.pos_of_mul_pos_right (Nat.pos_of_dvd_of_pos hdvd hpositive)
    have hpower : p ^ e ≤ x * p ^ e := Nat.le_mul_of_pos_left _ hx
    have hone : powerFrom? (.ofNat p) e 1 = some (.ofNat (p ^ e)) := by
      simpa using powerFrom?_ofNat hp e Nat.one_pos (show 1 * p ^ e < 2 ^ 63 by omega)
    rw [hone]
    exact mul?_ofNat hx (Nat.pow_pos hp) (by omega)
  rw [scale?, List.zip_map_left, List.mapM_map]
  refine (mapM_eq_some_map hmul).trans ?_
  rw [scaleNat, ← List.map_uncurry_zip_eq_zipWith, List.map_map]
  rfl

/-- Prime powers are multiplied into slots without wrapping around when the whole product is a machine
integer. -/
theorem spreadOver?_ofNat {low m : Nat} {powers : List (Nat × Nat)} (h : IsPrimePowers low m powers)
    {xs : List Nat} (hxs : 0 < xs.prod) (hm : 0 < m) (hbound : xs.prod * m < 2 ^ 63) :
    spreadOver? (xs.map .ofNat) (powers.map fun power => (.ofNat power.1, power.2)) =
      some (spreadOver (xs.map .ofNat) (powers.map fun power => (.ofNat power.1, power.2))) := by
  induction powers generalizing low m xs with
  | nil => rfl
  | cons power powers ih =>
      obtain ⟨p, k⟩ := power
      have hp : p.Prime := h.prime _ List.mem_cons_self
      obtain ⟨m, rfl, -, hpowers⟩ := h.of_cons
      have hm' : 0 < m := Nat.pos_of_mul_pos_left hm
      rw [List.map_cons, spreadOver?, spreadOver]
      have hspread : ∀ es ∈ compositions k (xs.map Int64.ofNat).length,
          (do spreadOver? (← scale? (.ofNat p) (xs.map .ofNat) es)
                (powers.map fun power => (.ofNat power.1, power.2))) =
            some (spreadOver (scale (.ofNat p) (xs.map .ofNat) es)
              (powers.map fun power => (.ofNat power.1, power.2))) := by
        intro es hes
        obtain ⟨hlength, hsum⟩ := mem_compositions.mp hes
        rw [List.length_map] at hlength
        have hprod := prod_scaleNat (p := p) hlength.symm
        have hscaled : xs.prod * p ^ es.sum * m < 2 ^ 63 := by
          rw [hsum, Nat.mul_assoc]
          exact hbound
        have hle : xs.prod * p ^ es.sum ≤ xs.prod * p ^ es.sum * m := Nat.le_mul_of_pos_right _ hm'
        rw [scale?_ofNat hp.pos hlength hxs (by omega), scale_ofNat]
        refine ih hpowers ?_ hm' (hprod ▸ hscaled)
        rw [hprod]
        exact Nat.mul_pos hxs (Nat.pow_pos hp.pos)
      rw [mapM_eq_some_map hspread]
      rfl

/-- All lists of `slots` numbers that multiply to a product, as long as no multiplication wraps
around. -/
def partitions? (product : Int64) (slots : Nat) : Option (List (List Int64)) :=
  spreadOver? (List.replicate slots 1) (primePowers product)

theorem partitions?_eq_some {product : Int64} (h : 1 ≤ product) (slots : Nat) :
    partitions? product slots = some (partitions product slots) := by
  obtain ⟨hpos, hlt, hofNat⟩ := Factor.toNat_bounds h
  obtain ⟨powers, hpowers, heq⟩ := primePowers_ofNat hpos hlt
  have hones : List.replicate slots (1 : Int64) = (List.replicate slots 1).map Int64.ofNat := by
    rw [List.map_replicate]
    rfl
  rw [hofNat] at heq
  rw [partitions?, partitions, heq, hones]
  exact spreadOver?_ofNat hpowers (by simp) hpos (by simpa using hlt)

end Finite

namespace Factor

variable {product slots : Int64} {rate : Float} {f : Factor}

theorem domain_eq_of_make (h : make product slots rate = .ok f) :
    f.domain = Finite.partitionFamily (Finite.primePowers product) slots.toInt.toNat := by
  have hf := of_make h
  rw [domain, hf.powers_eq, hf.slots_eq]

/-- How many factorisations there are: every prime of the product is spread over the slots. -/
theorem card_eq_prod_choose (hslots : 1 ≤ slots) (h : make product slots rate = .ok f) :
    f.card = ∏ p ∈ product.toInt.toNat.primeFactors,
      (product.toInt.toNat.factorization p + slots.toInt.toNat - 1).choose (slots.toInt.toNat - 1) := by
  obtain ⟨powers, hpowers, heq⟩ := (of_make h).exists_powers
  have hcount : 1 ≤ slots.toInt := Int64.le_iff_toInt_le.mp hslots
  obtain ⟨k, hk⟩ : ∃ k, slots.toInt.toNat = k + 1 := ⟨slots.toInt.toNat - 1, by omega⟩
  rw [card, domain, Finite.size_partitionFamily, (of_make h).slots_eq, heq, List.map_map, hk]
  refine (hpowers.prod_map fun m => Finite.countCompositions m (k + 1)).trans ?_
  exact Finset.prod_congr rfl fun p _ => Finite.countCompositions_succ _ k

/-- The list of factorisations of a product holds every list of positive factors with this product
once, and nothing else. Making it takes no multiplication that wraps around, and it can be made by
writing over one list of factors. It is the domain of the parameter, whose size is a product of binomial
coefficients. -/
theorem partitions_complete (hproduct : 1 ≤ product) (hslots : 1 ≤ slots) :
    (Finite.partitions product slots.toInt.toNat).Nodup ∧
      (∀ xs : List Int64, xs ∈ Finite.partitions product slots.toInt.toNat ↔
        (xs.length : Int) = slots.toInt ∧ (∀ x ∈ xs, 1 ≤ x) ∧
          (xs.map Int64.toInt).prod = product.toInt) ∧
      Finite.partitions? product slots.toInt.toNat =
        some (Finite.partitions product slots.toInt.toNat) ∧
      Finite.spreadHere (Finite.primePowers product)
          { current := List.replicate slots.toInt.toNat 1 } =
        { current := List.replicate slots.toInt.toNat 1
          found := Finite.partitions product slots.toInt.toNat } ∧
      ∀ (rate : Float) (f : Factor), make product slots rate = .ok f →
        f.domain.toList = Finite.partitions product slots.toInt.toNat ∧
          f.card = ∏ p ∈ product.toInt.toNat.primeFactors,
            (product.toInt.toNat.factorization p + slots.toInt.toNat - 1).choose
              (slots.toInt.toNat - 1) := by
  obtain ⟨hpos, hlt, hofNat⟩ := toNat_bounds hproduct
  obtain ⟨powers, hpowers, heq⟩ := Finite.primePowers_ofNat hpos hlt
  have henum : (Finite.partitionFamily (Finite.primePowers product) slots.toInt.toNat).Enumerates
      (Finite.IsSplit product.toNatClampNeg slots.toInt.toNat) := by
    rw [← hofNat, heq, hofNat]
    exact Finite.enumerates_partitions hpowers hpos hlt
  have hcount : 1 ≤ slots.toInt := Int64.le_iff_toInt_le.mp hslots
  rw [← Finite.toList_partitionFamily]
  refine ⟨henum.nodup_toList, fun xs => ?_, ?_, ?_, fun rate f hf => ⟨?_, ?_⟩⟩
  · rw [henum.mem_toList, Finite.isSplit_iff hproduct]
    refine and_congr_left fun _ => ?_
    omega
  · rw [Finite.toList_partitionFamily]
    exact Finite.partitions?_eq_some hproduct _
  · rw [Finite.toList_partitionFamily]
    exact Finite.spreadHere_primePowers product _
  · rw [domain_eq_of_make hf]
  · exact card_eq_prod_choose hslots hf

/-- Three hundred and sixty in three slots. -/
theorem partitions_complete_circle :
    [12, 5, 6] ∈ Finite.partitions 360 3 ∧ [7, 5, 6] ∉ Finite.partitions 360 3 ∧
      ∃ f, make 360 3 0.5 = .ok f ∧
        f.card = ∏ p ∈ Nat.primeFactors 360, (Nat.factorization 360 p + 3 - 1).choose (3 - 1) := by
  obtain ⟨f, hf⟩ : ∃ f, make 360 3 0.5 = .ok f := ⟨_, rfl⟩
  obtain ⟨-, hmem, -, -, hcard⟩ := @partitions_complete 360 3 (by decide) (by decide)
  refine ⟨(hmem _).mpr ⟨rfl, by simp, rfl⟩, fun h => ?_, f, hf, (hcard _ f hf).2⟩
  have hprod : (210 : Int) = 360 := ((hmem _).mp h).2.2
  contradiction

end Factor

end Tuning
