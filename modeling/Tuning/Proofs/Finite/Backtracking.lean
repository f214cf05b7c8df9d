import Mathlib
import Tuning.Finite.Backtracking
import Tuning.Proofs.Finite.Listing
import Tuning.Proofs.Finite.Orderings

/-! # Backtracking lists the orderings

A search leaves its table and its choices as they were, and adds the arrangements of the numbers that
are not in use. Arrangements of all the first numbers are their orderings: each stands in the list once,
in lexicographic order, and they are the lists that pass the test for orderings. -/

namespace Tuning.Finite

/-! ## Arrangements -/

/-- The lists of `left` different members of a list, by first member in the order of the list. -/
def arrangements : (left : Nat) → (free : List Nat) → List (List Nat)
  | 0, _ => [[]]
  | left + 1, free => free.flatMap fun v => (arrangements left (free.erase v)).map (v :: ·)

theorem arrangements_map {f : Nat → Nat} (hf : Function.Injective f) (left : Nat) (free : List Nat) :
    arrangements left (free.map f) = (arrangements left free).map (List.map f) := by
  induction left generalizing free with
  | zero => rfl
  | succ left ih =>
      rw [arrangements, arrangements, List.flatMap_map, List.map_flatMap]
      refine List.flatMap_congr fun v _ => ?_
      rw [← List.map_erase hf, ih, List.map_map, List.map_map]
      rfl

/-- Arrangements of an increasing list are in lexicographic order. -/
theorem pairwise_lt_arrangements {free : List Nat} (hfree : free.Pairwise (· < ·)) (left : Nat) :
    (arrangements left free).Pairwise (· < ·) := by
  induction left generalizing free with
  | zero => exact List.pairwise_singleton ..
  | succ left ih =>
      rw [arrangements, List.pairwise_flatMap]
      constructor
      · -- the same first member, so the rests decide
        intro v _
        rw [List.pairwise_map]
        exact (ih (hfree.sublist List.erase_sublist)).imp fun h => List.Lex.cons h
      · apply hfree.imp
        intro v w hvw xs hxs ys hys
        obtain ⟨xs, -, rfl⟩ := List.mem_map.mp hxs
        obtain ⟨ys, -, rfl⟩ := List.mem_map.mp hys
        exact List.Lex.rel hvw

/-- The first arrangement of all members is the list itself. -/
theorem head?_arrangements (free : List Nat) :
    (arrangements free.length free).head? = some free := by
  induction free with
  | nil => rfl
  | cons v rest ih =>
      rw [List.length_cons, arrangements, List.flatMap_cons, List.erase_cons_head,
        List.head?_append, List.head?_map, ih]
      rfl

theorem raise_strictMono (k : Nat) : StrictMono (raise k) := by
  intro i j hij
  unfold raise
  split <;> split <;> omega

theorem erase_range {n v : Nat} (hv : v < n + 1) :
    (List.range (n + 1)).erase v = (List.range n).map (raise v) := by
  have herase : ((List.range (n + 1)).erase v).Pairwise (· ≤ ·) :=
    List.pairwise_le_range.sublist List.erase_sublist
  have hmap : ((List.range n).map (raise v)).Pairwise (· ≤ ·) := by
    rw [List.pairwise_map]
    exact List.pairwise_le_range.imp fun h => (raise_strictMono v).monotone h
  exact (map_raise_range hv).symm.eq_of_pairwise' herase hmap

/-- The family of orderings has the order of the arrangements. -/
theorem toList_orderings (n : Nat) : (orderings n).toList = arrangements n (List.range n) := by
  induction n with
  | zero => rfl
  | succ n ih =>
      rw [orderings, Indexed.toList_map, Indexed.toList_product, Indexed.toList_upTo,
        List.map_flatMap, arrangements]
      refine List.flatMap_congr fun v hv => ?_
      rw [erase_range (List.mem_range.mp hv), arrangements_map (raise_injective v), ← ih,
        List.map_map, List.map_map]
      rfl

theorem size_orderings (n : Nat) : (orderings n).size = n.factorial := by
  induction n with
  | zero => rfl
  | succ n ih => rw [Nat.factorial_succ, ← ih]; rfl

/-! ## The search -/

namespace Trail

/-- The numbers that are not in use. -/
def free (t : Trail) : List Nat :=
  (List.range t.used.length).filter fun v => !t.used.getD v false

/-- The same place of the search with more orderings found. -/
def gain (t : Trail) (more : List (List Int64)) : Trail :=
  { t with found := t.found ++ more.toArray }

@[simp] theorem gain_nil (t : Trail) : t.gain [] = t := by
  simp [gain]

@[simp] theorem gain_gain (t : Trail) (more further : List (List Int64)) :
    (t.gain more).gain further = t.gain (more ++ further) := by
  simp [gain]

/-- What is found from here: the choices so far go on with an arrangement of the numbers not in use. -/
def outcomes (left : Nat) (t : Trail) : List (List Int64) :=
  (arrangements left t.free).map fun rest => t.chosen ++ rest.map Int64.ofNat

variable {t : Trail} {v : Nat}

/-- Choosing a number and taking it back leads back to the same place. -/
theorem retract_gain_choose (h : t.used.getD v false = false) (more : List (List Int64)) :
    ((t.choose v).gain more).retract v = t.gain more := by
  have hused : t.used.set v false = t.used := by
    by_cases hv : v < t.used.length
    · have hget : t.used[v] = false := by
        simpa [List.getD_eq_getElem?_getD, hv] using h
      rw [← hget, List.set_getElem_self]
    · exact List.set_eq_of_length_le (by omega)
  simp [choose, gain, retract, hused]

theorem free_choose (t : Trail) (v : Nat) : (t.choose v).free = t.free.erase v := by
  have hnodup : t.free.Nodup := List.nodup_range.filter _
  rw [hnodup.erase_eq_filter, free, free, List.filter_filter]
  simp only [choose, List.length_set]
  apply List.filter_congr
  intro w hw
  have hlt : w < t.used.length := List.mem_range.mp hw
  by_cases hvw : v = w
  · subst hvw
    simp [List.getD_eq_getElem?_getD, hlt]
  · simp [List.getD_eq_getElem?_getD, List.getElem?_set_ne hvw, Ne.symm hvw]

/-- The next place goes to each number in turn that is not in use. -/
theorem outcomes_succ (left : Nat) (t : Trail) :
    t.outcomes (left + 1) = t.free.flatMap fun v => (t.choose v).outcomes left := by
  rw [outcomes, arrangements, List.map_flatMap]
  apply List.flatMap_congr
  intro v _
  rw [outcomes, free_choose, List.map_map]
  simp [choose, Function.comp_def]

/-- Trying numbers one after the other finds what can be found with those that are not in use. Each
attempt comes back to the same table and choices, so the next one starts where the last one did. -/
theorem foldl_attempt {left : Nat} (hwalk : ∀ t : Trail, walk left t = t.gain (t.outcomes left))
    (vs : List Nat) (t : Trail) :
    vs.foldl (attempt (walk left)) t =
      t.gain ((vs.filter fun v => !t.used.getD v false).flatMap fun v => (t.choose v).outcomes left) := by
  induction vs generalizing t with
  | nil => simp
  | cons v vs ih =>
      rw [List.foldl_cons, ih]
      by_cases hused : t.used.getD v false = true
      · have hskip : attempt (walk left) t v = t := if_pos hused
        rw [hskip, List.filter_cons_of_neg (by simpa using hused)]
      · have hfree : t.used.getD v false = false := by simpa using hused
        have hfound : attempt (walk left) t v = t.gain ((t.choose v).outcomes left) := by
          rw [attempt, if_neg hused, hwalk, retract_gain_choose hfree]
        rw [hfound, gain_gain, List.filter_cons_of_pos (by rw [hfree]; rfl), List.flatMap_cons]
        -- what the later attempts find depends on the table and the choices only
        rfl

/-- A search comes back to where it started and has found the arrangements of the numbers not in use. -/
theorem walk_eq_gain (left : Nat) (t : Trail) : walk left t = t.gain (t.outcomes left) := by
  induction left generalizing t with
  | zero => simp [walk, record, gain, outcomes, arrangements]
  | succ left ih =>
      rw [walk, foldl_attempt ih, outcomes_succ]
      rfl

theorem free_start (n : Nat) : (start n).free = List.range n := by
  simp [free, start, List.getD_eq_getElem?_getD]

/-- A search from the start finds the orderings. -/
theorem walk_start (n : Nat) :
    walk n (start n) =
      { start n with found := ((orderings n).toList.map (List.map Int64.ofNat)).toArray } := by
  rw [walk_eq_gain, outcomes, free_start, toList_orderings]
  simp [gain, start]

end Trail

/-! ## The test for orderings by a table -/

/-- A number below `n` that is not ticked off in a table. -/
def Fresh (n : Int) (seen : List Bool) (x : Int64) : Prop :=
  0 ≤ x.toInt ∧ x.toInt < n ∧ seen.getD x.toInt.toNat false = false

instance (n : Int) (seen : List Bool) (x : Int64) : Decidable (Fresh n seen x) :=
  inferInstanceAs (Decidable (_ ∧ _ ∧ _))

/-- Ticks numbers off in a table, until one is out of range or ticked off already. -/
def ticksOff (n : Int) : (seen : List Bool) → (xs : List Int64) → Bool
  | _, [] => true
  | seen, x :: xs => if Fresh n seen x then ticksOff n (seen.set x.toInt.toNat true) xs else false

variable {n : Nat} {seen : List Bool}

/-- After a number is ticked off, the others are fresh that were so before. -/
theorem fresh_set (hseen : seen.length = n) {x y : Int64} (hx : Fresh n seen x) :
    Fresh n (seen.set x.toInt.toNat true) y ↔ y ≠ x ∧ Fresh n seen y := by
  obtain ⟨hx₀, hxn, -⟩ := hx
  unfold Fresh
  by_cases hyx : y = x
  · subst hyx
    have hticked : (seen.set y.toInt.toNat true).getD y.toInt.toNat false = true := by
      rw [List.getD_eq_getElem?_getD, List.getElem?_set_self (by omega)]
      rfl
    rw [hticked]
    simp
  · have hne : y.toInt ≠ x.toInt := fun h => hyx (Int64.toInt_inj.mp h)
    have hother : 0 ≤ y.toInt →
        (seen.set x.toInt.toNat true).getD y.toInt.toNat false = seen.getD y.toInt.toNat false := by
      intro hy₀
      rw [List.getD_eq_getElem?_getD, List.getElem?_set_ne (by omega), List.getD_eq_getElem?_getD]
    constructor
    · rintro ⟨hy₀, hyn, hy⟩
      exact ⟨hyx, hy₀, hyn, hother hy₀ ▸ hy⟩
    · rintro ⟨-, hy₀, hyn, hy⟩
      exact ⟨hy₀, hyn, (hother hy₀).trans hy⟩

/-- Numbers can be ticked off one after the other if each is fresh and they are different. -/
theorem ticksOff_iff (hseen : seen.length = n) (xs : List Int64) :
    ticksOff n seen xs = true ↔ (∀ x ∈ xs, Fresh n seen x) ∧ xs.Nodup := by
  induction xs generalizing seen with
  | nil => simp [ticksOff]
  | cons x xs ih =>
      rw [ticksOff, List.forall_mem_cons, List.nodup_cons]
      by_cases hx : Fresh n seen x
      · have hset : (seen.set x.toInt.toNat true).length = n := by rwa [List.length_set]
        rw [if_pos hx, ih hset]
        simp only [fresh_set hseen hx]
        grind
      · simp [hx]

/-- The test for orderings ticks numbers off in a table without ticks. -/
theorem isOrdering_eq_ticksOff (xs : List Int64) (n : Nat) :
    isOrdering xs n = ((xs.length : Int) == n && ticksOff n (List.replicate n false) xs) := by
  have hfresh : ∀ x, Fresh n (List.replicate n false) x ↔ 0 ≤ x.toInt ∧ x.toInt < n := by
    intro x
    simp [Fresh, List.getD_eq_getElem?_getD]
  rw [Bool.eq_iff_iff, isOrdering_iff, Bool.and_eq_true, ticksOff_iff List.length_replicate, beq_iff_eq]
  simp only [hfresh]

/-! ## The list -/

theorem map_ofNat_lt_map_ofNat {xs ys : List Nat} (hxs : ∀ x ∈ xs, x < 2 ^ 63)
    (hys : ∀ y ∈ ys, y < 2 ^ 63) (h : xs < ys) : xs.map Int64.ofNat < ys.map Int64.ofNat := by
  induction h with
  | nil => exact List.Lex.nil
  | cons _ ih =>
      exact List.Lex.cons (ih (fun x hx => hxs x (List.mem_cons_of_mem _ hx))
        fun y hy => hys y (List.mem_cons_of_mem _ hy))
  | rel hlt =>
      exact List.Lex.rel ((Int64.ofNat_lt_iff_lt (hxs _ List.mem_cons_self)
        (hys _ List.mem_cons_self)).mpr hlt)

/-- The orderings as machine integers. -/
def machineOrderings (n : Nat) : List (List Int64) :=
  (orderings n).toList.map (List.map Int64.ofNat)

theorem mem_machineOrderings (hn : n ≤ 2 ^ 63) {xs : List Int64} :
    xs ∈ machineOrderings n ↔ isOrdering xs n = true := by
  constructor
  · intro h
    obtain ⟨order, horder, rfl⟩ := List.mem_map.mp h
    have hperm := (enumerates_orderings n).mem_toList.mp horder
    exact (isOrdering_iff_perm hn).mpr (hperm.map Int64.ofNat)
  · intro h
    rw [← map_ofNat_of_isOrdering h]
    exact List.mem_map_of_mem ((enumerates_orderings n).mem_toList.mpr (perm_of_isOrdering h))

theorem pairwise_lt_machineOrderings (hn : n ≤ 2 ^ 63) :
    (machineOrderings n).Pairwise (· < ·) := by
  have hsmall : ∀ order ∈ (orderings n).toList, ∀ k ∈ order, k < 2 ^ 63 := by
    intro order horder k hk
    have hperm := (enumerates_orderings n).mem_toList.mp horder
    have hlt := List.mem_range.mp (hperm.mem_iff.mp hk)
    omega
  have hsorted : (orderings n).toList.Pairwise (· < ·) := by
    rw [toList_orderings]
    exact pairwise_lt_arrangements List.pairwise_lt_range n
  rw [machineOrderings, List.pairwise_map]
  apply hsorted.imp_of_mem
  intro xs ys hxs hys h
  exact map_ofNat_lt_map_ofNat (hsmall xs hxs) (hsmall ys hys) h

theorem length_machineOrderings (n : Nat) : (machineOrderings n).length = n.factorial := by
  rw [machineOrderings, List.length_map, Indexed.length_toList, size_orderings]

theorem head?_machineOrderings (n : Nat) :
    (machineOrderings n).head? = some ((List.range n).map Int64.ofNat) := by
  have hhead := head?_arrangements (List.range n)
  rw [List.length_range] at hhead
  rw [machineOrderings, toList_orderings, List.head?_map, hhead]
  rfl

/-- The factorial in 64-bit arithmetic is the factorial up to wrapping around. -/
theorem factorial_eq_ofNat (n : Int64) : factorial n = Int64.ofNat n.toInt.toNat.factorial := by
  rw [factorial]
  induction n.toInt.toNat with
  | zero => rfl
  | succ k ih => rw [Nat.fold_succ, ih, ← Int64.ofNat_mul, Nat.factorial_succ, Nat.mul_comm]

/-- There is room for the orderings of at most fifteen numbers. -/
theorem hasRoom_factorial (k : Nat) : hasRoom k.factorial = true ↔ k ≤ 15 := by
  have hroom : hasRoom k.factorial = true ↔ 24 * k.factorial ≤ 281474976710656 := by
    rw [hasRoom, Bool.and_eq_true, decide_eq_true_eq, decide_eq_true_eq]
    omega
  rw [hroom]
  constructor
  · intro h
    by_contra hk
    have hle : Nat.factorial 16 ≤ k.factorial := Nat.factorial_le (by omega)
    exact absurd ((Nat.mul_le_mul_left 24 hle).trans h) (by decide)
  · intro h
    have hle : k.factorial ≤ Nat.factorial 15 := Nat.factorial_le h
    exact (Nat.mul_le_mul_left 24 hle).trans (by decide)

variable {m : Int64}

/-- The list of orderings can be made for at most fifteen numbers. -/
theorem listing_eq (hm : m.toInt = n) :
    listing m = if n ≤ 15 then some (machineOrderings n) else none := by
  have hpositive : 0 ≤ m := by
    apply Int64.le_iff_toInt_le.mpr
    rw [hm]
    exact Int.natCast_nonneg n
  have hfound : (Trail.walk n (.start n)).found = (machineOrderings n).toArray := by
    rw [Trail.walk_start]
    rfl
  rw [listing]
  simp only [hm, Int.toNat_natCast, hfound, List.size_toArray, length_machineOrderings, hpositive,
    true_and]
  by_cases hsize : n ≤ 15
  · have hroom := (hasRoom_factorial n).mpr hsize
    have hcapacity : (factorial m).toInt = n.factorial := by
      rw [factorial_eq_ofNat, hm, Int.toNat_natCast]
      apply Int64.toInt_ofNat_of_lt
      exact (Nat.factorial_le hsize).trans_lt (by decide)
    rw [hcapacity, if_pos hroom, if_pos hroom, if_pos hsize]
  · -- whatever capacity was asked for, there is no room for the orderings that are found
    have hroom := (hasRoom_factorial n).not.mpr hsize
    rw [if_neg hroom, if_neg hsize, ite_self]

example : listing 3 = some [[0, 1, 2], [0, 2, 1], [1, 0, 2], [1, 2, 0], [2, 0, 1], [2, 1, 0]] := by
  decide

/-- The test for orderings accepts the rearrangements of the first numbers, also when it ticks them off in
a table. Backtracking comes back to the table and the choices of its start, and has listed what the test
accepts: each once, in lexicographic order, from the identity on. It is the family that parameters draw
from. The list can be made for at most fifteen numbers. -/
theorem listing_complete (hm : m.toInt = n) :
    (∀ xs : List Int64, isOrdering xs n = true ↔ xs.Perm ((List.range n).map Int64.ofNat)) ∧
    (∀ xs : List Int64,
      isOrdering xs n = ((xs.length : Int) == n && ticksOff n (List.replicate n false) xs)) ∧
    ∃ lists : List (List Int64),
      Trail.walk n (.start n) = { Trail.start n with found := lists.toArray } ∧
      (∀ xs, xs ∈ lists ↔ isOrdering xs n = true) ∧
      lists.Nodup ∧
      lists.Pairwise (· < ·) ∧
      lists.length = n.factorial ∧
      lists.head? = some ((List.range n).map Int64.ofNat) ∧
      lists = (orderings n).toList.map (List.map Int64.ofNat) ∧
      listing m = if n ≤ 15 then some lists else none := by
  have hn : n ≤ 2 ^ 63 := by
    have hlt := m.toInt_lt
    omega
  have hsorted := pairwise_lt_machineOrderings hn
  have hnodup : (machineOrderings n).Nodup := hsorted.imp fun h => Std.ne_of_lt h
  exact ⟨fun xs => isOrdering_iff_perm hn, fun xs => isOrdering_eq_ticksOff xs n,
    machineOrderings n, Trail.walk_start n, fun xs => mem_machineOrderings hn, hnodup, hsorted,
    length_machineOrderings n, head?_machineOrderings n, rfl, listing_eq hm⟩

/-- The largest list that can be made. -/
theorem listing_complete_fifteen : (15 : Int64).toInt = (15 : Nat) ∧
    ∃ lists, listing 15 = some lists ∧ lists.length = 1307674368000 ∧
      lists.head? = some [0, 1, 2, 3, 4, 5, 6, 7, 8, 9, 10, 11, 12, 13, 14] ∧
      [14, 0, 13, 1, 12, 2, 11, 3, 10, 4, 9, 5, 8, 6, 7] ∈ lists ∧
      [14, 0, 13, 1, 12, 2, 11, 3, 10, 4, 9, 5, 8, 6, 15] ∉ lists := by
  have hm : (15 : Int64).toInt = (15 : Nat) := by decide
  obtain ⟨-, -, lists, -, hmem, -, -, hlength, hhead, -, hlisting⟩ := listing_complete hm
  exact ⟨hm, lists, hlisting, hlength, hhead, (hmem _).mpr (by decide),
    (hmem _).not.mpr (by decide)⟩

/-- For twenty-one numbers the factorial wraps around to a negative one, and no list is made. -/
theorem not_listed_twentyOne :
    factorial 21 = -4249290049419214848 ∧
    isOrdering ((List.range 21).map Int64.ofNat) 21 = true ∧
    ¬ ∃ lists, listing 21 = some lists ∧ ∀ xs, xs ∈ lists ↔ isOrdering xs 21 = true := by
  have hrefused : listing 21 = none := by
    rw [listing, if_neg (by decide)]
  refine ⟨by decide, by decide, ?_⟩
  rintro ⟨lists, hlists, -⟩
  rw [hrefused] at hlists
  cases hlists

end Tuning.Finite
