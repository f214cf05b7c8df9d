import Mathlib
import Tuning.Proofs.Decimal.Brevity
import Tuning.Proofs.Gene.Domain
import Tuning.Proofs.Value.Documents
import Tuning.Proofs.Value.Doubles

/-! # Which atoms are the same

Whole numbers are compared exactly, but with a double they are compared as doubles. So a double can be
the same as two different whole numbers, if it is the nearest double of both. Apart from this sameness
is an equivalence. Exactly if it happens among the atoms of a choice, the number of atoms that the choice
keeps depends on their order. -/

namespace Tuning

/-! ## Numbers -/

theorem float_beq_trans {x y z : Float} (h : (x == y) = true) (h' : (y == z) = true) :
    (x == z) = true := by
  rw [float_beq_iff_place] at h h' ⊢
  exact ⟨h.1, h'.2.1, h.2.2.trans h'.2.2⟩

theorem float_beq_self {x : Float} (h : x.isNaN = false) : (x == x) = true :=
  float_beq_iff_place.mpr ⟨h, h, rfl⟩

namespace Numeric

theorem same_self {a : Numeric} (h : ∀ x, a = .real x → x.isNaN = false) : a.same a = true := by
  cases a with
  | whole n => exact beq_self_eq_true n
  | real x => exact float_beq_self (h x rfl)

/-- Numbers that are the same have the same nearest double, if they are not both whole. -/
theorem toFloat_of_same {a b : Numeric} (h : a.same b = true) :
    (a.toFloat == b.toFloat) = true ∨ ∃ n, a = .whole n ∧ b = .whole n := by
  cases a with
  | whole m =>
      cases b with
      | whole n => exact .inr ⟨m, rfl, congrArg whole (eq_of_beq h).symm⟩
      | real y => exact .inl h
  | real x =>
      cases b with
      | whole n => exact .inl h
      | real y => exact .inl h

/-- Two numbers that are the same as a third are the same, unless they are whole and the third is not. -/
theorem same_trans {a b c : Numeric} (h : a.same b = true) (h' : b.same c = true) :
    a.same c = true ∨ ∃ m x n, a = .whole m ∧ b = .real x ∧ c = .whole n := by
  rcases toFloat_of_same h with hab | ⟨n, rfl, rfl⟩
  · rcases toFloat_of_same h' with hbc | ⟨n, rfl, rfl⟩
    · have hac := float_beq_trans hab hbc
      cases a with
      | real x => exact .inl hac
      | whole m =>
          cases c with
          | real z => exact .inl hac
          | whole n =>
              cases b with
              | real x => exact .inr ⟨m, x, n, rfl, rfl, rfl⟩
              | whole k => exact .inl (eq_of_beq h ▸ h')
    · exact .inl h
  · exact .inl h'

end Numeric

/-! ## Atoms -/

namespace Value

/-- An atom that is not a number which compares with nothing. -/
structure Ordinary (a : Value) : Prop where
  isAtom : a.isAtom = true
  isNumber : ∀ x, a.numeric? = some (.real x) → x.isNaN = false

/-- An integer of any width. -/
def Whole (a : Value) : Prop :=
  ∃ n, a.numeric? = some (.whole n)

/-- A floating-point number. -/
def Floating (a : Value) : Prop :=
  ∃ x, a.numeric? = some (.real x)

/-- A floating-point number that is the same as two different integers. -/
structure Blurs (b a c : Value) : Prop where
  floating : b.Floating
  left : a.Whole
  right : c.Whole
  same_left : b.same a = true
  same_right : b.same c = true
  differ : a.same c = false

theorem isPlain_of_isAtom {a : Value} (hatom : a.isAtom = true) (hnumeric : a.numeric? = none) :
    a.isPlain = true := by
  cases a <;> simp_all [numeric?, isAtom, isPlain]

theorem Ordinary.same_self {a : Value} (h : a.Ordinary) : a.same a = true := by
  rw [same_iff]
  cases hnumeric : a.numeric? with
  | some x =>
      refine .inl ⟨x, x, rfl, rfl, Numeric.same_self fun y hy => h.isNumber y ?_⟩
      rw [hnumeric, hy]
  | none => exact .inr ⟨rfl, isPlain_of_isAtom h.isAtom hnumeric⟩

/-- Two atoms that are the same as a third are the same, unless they are integers and the third is a
floating-point number. -/
theorem same_trans {a b c : Value} (h : a.same b = true) (h' : b.same c = true) :
    a.same c = true ∨ a.Whole ∧ b.Floating ∧ c.Whole := by
  rcases (same_iff a b).mp h with ⟨x, y, hx, hy, hxy⟩ | ⟨rfl, -⟩
  · rcases (same_iff b c).mp h' with ⟨y', z, hy', hz, hyz⟩ | ⟨rfl, -⟩
    · obtain rfl : y = y' := Option.some.inj (hy.symm.trans hy')
      rcases Numeric.same_trans hxy hyz with hxz | ⟨m, r, n, rfl, rfl, rfl⟩
      · exact .inl ((same_iff a c).mpr (.inl ⟨x, z, hx, hz, hxz⟩))
      · exact .inr ⟨⟨m, hx⟩, ⟨r, hy⟩, ⟨n, hz⟩⟩
    · exact .inl h
  · exact .inl h'

theorem Whole.not_floating {a : Value} (h : a.Whole) : ¬ a.Floating := by
  rintro ⟨x, hx⟩
  obtain ⟨n, hn⟩ := h
  cases hn.symm.trans hx

end Value

/-- Some atom is a floating-point number that is the same as two different integers among the atoms. -/
def Blurred (atoms : List Value) : Prop :=
  ∃ a ∈ atoms, ∃ b ∈ atoms, ∃ c ∈ atoms, b.Blurs a c

/-- Sameness is transitive among atoms exactly if none of them blurs two others. -/
theorem same_trans_iff_not_blurred (atoms : List Value) :
    (∀ a ∈ atoms, ∀ b ∈ atoms, ∀ c ∈ atoms, a.same b = true → b.same c = true → a.same c = true) ↔
      ¬ Blurred atoms := by
  constructor
  · rintro htrans ⟨a, ha, b, hb, c, hc, h⟩
    have hac := htrans a ha b hb c hc ((Value.same_comm a b).trans h.same_left) h.same_right
    rw [h.differ] at hac
    cases hac
  · intro hclear a ha b hb c hc hab hbc
    rcases Value.same_trans hab hbc with hac | ⟨hleft, hfloating, hright⟩
    · exact hac
    · by_contra hac
      exact hclear ⟨a, ha, b, hb, c, hc, hfloating, hleft, hright, (Value.same_comm b a).trans hab, hbc,
        Bool.eq_false_iff.mpr hac⟩

/-! ## Counting atoms -/

namespace Choice

variable {atoms order kept few many : List Value} {a b c : Value}

/-- Every atom is the same as one that is kept. -/
theorem exists_same_of_mem (hatoms : ∀ a ∈ atoms, a.same a = true) (ha : a ∈ atoms) :
    ∃ k ∈ atoms.foldl keep kept, k.same a = true := by
  induction atoms generalizing kept with
  | nil => cases ha
  | cons v atoms ih =>
      rcases List.mem_cons.mp ha with rfl | ha
      · have hkeep : ∃ k ∈ keep kept a, k.same a = true := by
          by_cases hany : kept.any (·.same a) = true
          · rw [keep_of_any hany]
            simpa using hany
          · rw [keep_of_not_any hany]
            exact ⟨a, by simp, hatoms a List.mem_cons_self⟩
        obtain ⟨k, hk, hsame⟩ := hkeep
        exact ⟨k, subset_foldl_keep atoms (keep kept a) hk, hsame⟩
      · exact ih (fun a ha => hatoms a (List.mem_cons_of_mem v ha)) ha

/-- As long as sameness is an equivalence, another order does not keep fewer atoms: a kept atom goes to
the same one among those that the other order keeps. -/
theorem length_distinct_le (hperm : atoms.Perm order) (hatoms : ∀ a ∈ order, a.same a = true)
    (hclear : ¬ Blurred order) : (distinct atoms).length ≤ (distinct order).length := by
  have hmem : ∀ i, (distinct atoms).get i ∈ order := fun i =>
    hperm.subset (distinct_subset atoms (List.get_mem _ i))
  have hmem' : ∀ j, (distinct order).get j ∈ order := fun j =>
    distinct_subset order (List.get_mem _ j)
  have htrans := (same_trans_iff_not_blurred order).mpr hclear
  have hpairwise := List.pairwise_iff_get.mp (pairwise_distinct atoms)
  have hcard := Finset.card_le_card_of_forall_subsingleton
    (s := Finset.univ) (t := Finset.univ)
    (fun i j => ((distinct order).get j).same ((distinct atoms).get i) = true) ?_ ?_
  · simpa using hcard
  · intro i _
    obtain ⟨k, hk, hsame⟩ : ∃ k ∈ distinct order, k.same ((distinct atoms).get i) = true :=
      exists_same_of_mem hatoms (hmem i)
    obtain ⟨j, rfl⟩ := List.mem_iff_get.mp hk
    exact ⟨j, Finset.mem_univ j, hsame⟩
  · rintro j - i ⟨-, hi⟩ i' ⟨-, hi'⟩
    have hii' : ∀ i i', ((distinct order).get j).same ((distinct atoms).get i) = true →
        ((distinct order).get j).same ((distinct atoms).get i') = true → ¬ i < i' := by
      intro i i' hi hi' hlt
      have hsame := htrans _ (hmem i) _ (hmem' j) _ (hmem i')
        ((Value.same_comm _ _).trans hi) hi'
      rw [hpairwise i i' hlt] at hsame
      cases hsame
    exact le_antisymm (not_lt.mp (hii' i' i hi' hi)) (not_lt.mp (hii' i i' hi hi'))

/-- Atoms kept behind an atom `b` against atoms kept without it: the latter are more. -/
structure Ahead (b : Value) (few many : List Value) : Prop where
  covered : ∀ v, many.any (·.same v) = true → few.any (·.same v) = true
  shared : ∀ k ∈ few, k = b ∨ k ∈ many
  longer : few.length < many.length

theorem Ahead.keep (hb : b.Floating) (h : Ahead b few many) (v : Value) :
    Ahead b (keep few v) (keep many v) := by
  by_cases hfew : few.any (·.same v) = true
  · rw [keep_of_any hfew]
    by_cases hmany : many.any (·.same v) = true
    · rwa [keep_of_any hmany]
    · -- only the many keep the atom; among the few it is the same as `b`, which is not an integer
      rw [keep_of_not_any hmany]
      refine ⟨fun w hw => ?_, fun k hk => ?_, ?_⟩
      · rw [List.any_append, Bool.or_eq_true] at hw
        rcases hw with hw | hw
        · exact h.covered w hw
        · have hvw : v.same w = true := by simpa using hw
          obtain ⟨k, hk, hkv⟩ := List.any_eq_true.mp hfew
          rcases h.shared k hk with rfl | hshared
          · rcases Value.same_trans hkv hvw with hkw | ⟨hwhole, -⟩
            · exact List.any_eq_true.mpr ⟨k, hk, hkw⟩
            · exact absurd hb hwhole.not_floating
          · exact absurd (List.any_eq_true.mpr ⟨k, hshared, hkv⟩) hmany
      · exact (h.shared k hk).imp_right (List.mem_append_left [v])
      · rw [List.length_append]
        exact Nat.lt_add_right _ h.longer
  · have hmany : ¬ many.any (·.same v) = true := fun hany => hfew (h.covered v hany)
    rw [keep_of_not_any hfew, keep_of_not_any hmany]
    refine ⟨fun w hw => ?_, fun k hk => ?_, ?_⟩
    · rw [List.any_append, Bool.or_eq_true] at hw ⊢
      exact hw.imp_left (h.covered w)
    · rcases List.mem_append.mp hk with hk | hk
      · exact (h.shared k hk).imp_right (List.mem_append_left [v])
      · exact .inr (List.mem_append_right many hk)
    · simpa using h.longer

theorem Ahead.foldl_keep (hb : b.Floating) (h : Ahead b few many) (rest : List Value) :
    Ahead b (rest.foldl Choice.keep few) (rest.foldl Choice.keep many) := by
  induction rest generalizing few many with
  | nil => exact h
  | cons v rest ih => exact ih (h.keep hb v)

/-- A floating-point number before the integers that it blurs leaves fewer atoms than behind them. -/
theorem length_distinct_lt_of_blurs (h : b.Blurs a c) (rest : List Value) :
    (distinct (b :: a :: c :: rest)).length < (distinct (a :: c :: b :: rest)).length := by
  have hab : a.same b = true := (Value.same_comm a b).trans h.same_left
  have hcb : c.same b = true := (Value.same_comm c b).trans h.same_right
  have hfew : distinct (b :: a :: c :: rest) = rest.foldl keep [b] := by
    simp [distinct_eq_foldl, keep, h.same_left, h.same_right]
  have hmany : distinct (a :: c :: b :: rest) = rest.foldl keep [a, c] := by
    simp [distinct_eq_foldl, keep, h.differ, hab]
  have hahead : Ahead b [b] [a, c] := by
    refine ⟨fun v hv => ?_, by simp, by simp⟩
    -- an integer in the middle does not blur
    have hsame : ∀ k, k.Whole → b.same k = true → k.same v = true → b.same v = true := by
      intro k hk hbk hkv
      rcases Value.same_trans hbk hkv with hbv | ⟨-, hfloating, -⟩
      · exact hbv
      · exact absurd hfloating hk.not_floating
    rcases (by simpa using hv : a.same v = true ∨ c.same v = true) with hv | hv
    · simpa using hsame a h.left h.same_left hv
    · simpa using hsame c h.right h.same_right hv
  rw [hfew, hmany]
  exact (hahead.foldl_keep h.floating rest).longer

/-- A choice among ordinary atoms is made. -/
theorem exists_make {rate : Float} (hrate : checkRate rate = .ok ()) (hne : atoms ≠ [])
    (hatoms : ∀ a ∈ atoms, a.isAtom = true) :
    ∃ c, make atoms rate = .ok c ∧ c.card = (distinct atoms).length := by
  cases atoms with
  | nil => exact absurd rfl hne
  | cons first rest =>
      have hfind : (first :: rest).find? (!·.isAtom) = none := by
        rw [List.find?_eq_none]
        intro a ha
        simp [hatoms a ha]
      refine ⟨{ atoms := distinct (first :: rest), value := first, rate }, ?_, rfl⟩
      rw [make, hrate, hfind]
      rfl

end Choice

theorem exists_perm_cons {α : Type} {l : List α} {a : α} (h : a ∈ l) : ∃ rest, (a :: rest).Perm l := by
  obtain ⟨front, back, rfl⟩ := List.append_of_mem h
  exact ⟨front ++ back, List.perm_middle.symm⟩

/-- Atoms that are blurred can be listed first. -/
theorem Blurred.exists_perm {atoms : List Value} (h : Blurred atoms)
    (hatoms : ∀ a ∈ atoms, a.same a = true) :
    ∃ a b c rest, b.Blurs a c ∧ (b :: a :: c :: rest).Perm atoms := by
  obtain ⟨a, ha, b, hb, c, hc, h⟩ := h
  have hab : a ≠ b := by
    rintro rfl
    exact h.left.not_floating h.floating
  have hcb : c ≠ b := by
    rintro rfl
    exact h.right.not_floating h.floating
  have hca : c ≠ a := by
    rintro rfl
    exact absurd (hatoms c hc) (by simp [h.differ])
  obtain ⟨rest, hrest⟩ := exists_perm_cons hb
  have ha' : a ∈ rest := List.mem_of_ne_of_mem hab (hrest.mem_iff.mpr ha)
  have hc' : c ∈ rest := List.mem_of_ne_of_mem hcb (hrest.mem_iff.mpr hc)
  obtain ⟨rest', hrest'⟩ := exists_perm_cons ha'
  have hc'' : c ∈ rest' := List.mem_of_ne_of_mem hca (hrest'.mem_iff.mpr hc')
  obtain ⟨rest'', hrest''⟩ := exists_perm_cons hc''
  exact ⟨a, b, c, rest'', h, ((hrest''.cons a).trans hrest').cons b |>.trans hrest⟩

/-! ## Integers that doubles tell apart -/

theorem eq_zero_of_unpack_ofInt {k : Int} {s : Float.Model.UnpackedFloat.Sign} (hk : k.natAbs ≤ 2 ^ 53)
    (h : (Float.ofInt k).toModel.unpack = .zero s) : k = 0 := by
  have hlt : k.natAbs < 2 ^ 64 := Nat.lt_of_le_of_lt hk (by decide)
  obtain ⟨m, e, narrow, hfinite, -, hround⟩ := exists_ofInt k (natAbs_lt_of_lt hlt)
  rw [Binary.ofFloat_eq, h, Binary.ofUnpacked, Binary.finite.injEq] at hfinite
  obtain ⟨-, rfl, rfl, rfl⟩ := hfinite
  have hone : (k.natAbs : ℚ) < 1 := calc
    (k.natAbs : ℚ) ≤ (4 * (0 : Nat) + 2) * 2 ^ (-1074 - 2 : Int) := hround.le_high
    _ ≤ (4 * (0 : Nat) + 2) * 2 ^ (-2 : Int) := by
      gcongr
      · norm_num
      · norm_num
    _ < 1 := by norm_num
  have : k.natAbs < 1 := by exact_mod_cast hone
  omega

/-- Doubles tell all integers of magnitude up to `2 ^ 53` apart. -/
theorem eq_of_ofInt_beq {m n : Int} (hm : m.natAbs ≤ 2 ^ 53) (hn : n.natAbs ≤ 2 ^ 53)
    (h : (Float.ofInt m == Float.ofInt n) = true) : m = n := by
  rcases (float_beq_iff _ _).mp h with ⟨heq, -⟩ | ⟨⟨s, hs⟩, ⟨t, ht⟩⟩
  · have htext : documentNumber (Float.ofInt m) = documentNumber (Float.ofInt n) := by
      rw [documentNumber, documentNumber, Binary.ofFloat_eq, Binary.ofFloat_eq, heq]
    rw [documentNumber_ofInt hm, documentNumber_ofInt hn] at htext
    exact toString_int_injective htext
  · rw [eq_zero_of_unpack_ofInt hm hs, eq_zero_of_unpack_ofInt hn ht]

/-- Integers of magnitude up to `2 ^ 53` are not blurred. -/
theorem not_blurred_of_natAbs_le {atoms : List Value}
    (h : ∀ a ∈ atoms, ∀ n, a.numeric? = some (.whole n) → n.natAbs ≤ 2 ^ 53) : ¬ Blurred atoms := by
  rintro ⟨a, ha, b, -, c, hc, hblurs⟩
  obtain ⟨x, hx⟩ := hblurs.floating
  obtain ⟨m, hm⟩ := hblurs.left
  obtain ⟨n, hn⟩ := hblurs.right
  have hxm : (x == Float.ofInt m) = true := by
    simpa [Value.same, hx, hm, Numeric.same, Numeric.toFloat] using hblurs.same_left
  have hxn : (x == Float.ofInt n) = true := by
    simpa [Value.same, hx, hn, Numeric.same, Numeric.toFloat] using hblurs.same_right
  have hmn : m = n := eq_of_ofInt_beq (h a ha m hm) (h c hc n hn)
    (float_beq_trans ((float_beq_comm _ _).trans hxm) hxn)
  have hdiffer : ¬ m = n := by
    simpa [Value.same, hm, hn, Numeric.same] using hblurs.differ
  exact hdiffer hmn

/-! ## Sameness and order -/

/-- Sameness of atoms is reflexive and symmetric. For every list of atoms, it is transitive among them
exactly if no floating-point number is the same as two different integers of the list. Exactly then the
number of atoms that a choice keeps does not depend on their order. It is always so if the integers are
of magnitude up to `2 ^ 53`. -/
theorem same_equivalence_iff {atoms : List Value} (hatoms : ∀ a ∈ atoms, a.Ordinary)
    (hne : atoms ≠ []) {rate : Float} (hrate : checkRate rate = .ok ()) :
    (∀ a ∈ atoms, a.same a = true) ∧
    (∀ a ∈ atoms, ∀ b ∈ atoms, a.same b = true → b.same a = true) ∧
    ((∀ a ∈ atoms, ∀ b ∈ atoms, ∀ c ∈ atoms,
        a.same b = true → b.same c = true → a.same c = true) ↔ ¬ Blurred atoms) ∧
    ((∃ n, ∀ order, order.Perm atoms → ∃ c, Choice.make order rate = .ok c ∧ c.card = n) ↔
      ¬ Blurred atoms) ∧
    ((∀ a ∈ atoms, ∀ n, a.numeric? = some (.whole n) → n.natAbs ≤ 2 ^ 53) → ¬ Blurred atoms) := by
  have hself : ∀ a ∈ atoms, a.same a = true := fun a ha => (hatoms a ha).same_self
  have hmake : ∀ order : List Value, order.Perm atoms →
      ∃ c, Choice.make order rate = .ok c ∧ c.card = (Choice.distinct order).length := by
    intro order hperm
    apply Choice.exists_make hrate
    · intro hnil
      exact hne (hnil ▸ hperm).nil_eq.symm
    · intro a ha
      exact (hatoms a (hperm.subset ha)).isAtom
  refine ⟨hself, fun a _ b _ h => (Value.same_comm b a).trans h, same_trans_iff_not_blurred atoms, ?_,
    not_blurred_of_natAbs_le⟩
  constructor
  · rintro ⟨n, hcount⟩ hblurred
    obtain ⟨a, b, c, rest, hblurs, hperm⟩ := hblurred.exists_perm hself
    have hperm' : (a :: c :: b :: rest).Perm atoms := by
      refine List.Perm.trans ?_ hperm
      exact ((List.Perm.swap b c rest).cons a).trans (List.Perm.swap b a (c :: rest))
    have hlength : ∀ order : List Value, order.Perm atoms → (Choice.distinct order).length = n := by
      intro order horder
      obtain ⟨c, hc, hn⟩ := hcount order horder
      obtain ⟨d, hd, hcard⟩ := hmake order horder
      obtain rfl := Except.ok.inj (hc.symm.trans hd)
      rw [← hcard, hn]
    have hlt := Choice.length_distinct_lt_of_blurs hblurs rest
    rw [hlength _ hperm, hlength _ hperm'] at hlt
    exact lt_irrefl n hlt
  · intro hclear
    refine ⟨(Choice.distinct atoms).length, fun order hperm => ?_⟩
    obtain ⟨c, hc, hcard⟩ := hmake order hperm
    have hclear' : ¬ Blurred order := by
      rintro ⟨a, ha, b, hb, c, hc, hblurs⟩
      exact hclear ⟨a, hperm.subset ha, b, hperm.subset hb, c, hperm.subset hc, hblurs⟩
    refine ⟨c, hc, hcard.trans (le_antisymm ?_ ?_)⟩
    · exact Choice.length_distinct_le hperm hself hclear
    · exact Choice.length_distinct_le hperm.symm (fun a ha => hself a (hperm.subset ha)) hclear'

/-- Atoms of several types, among them three spellings of one. -/
def spellings : List Value :=
  [.int 1, .unsigned 8 1, .float 1, .text "1", .bool true]

/-- Whatever their order, three of the five atoms are kept. -/
theorem same_equivalence_iff_spellings :
    (∀ a ∈ spellings, a.Ordinary) ∧ spellings ≠ [] ∧ checkRate 0.5 = .ok () ∧
    ∀ order, order.Perm spellings → ∃ c, Choice.make order 0.5 = .ok c ∧ c.card = 3 := by
  have hatoms : ∀ a ∈ spellings, a.Ordinary := by
    intro a ha
    simp only [spellings, List.mem_cons, List.not_mem_nil, or_false] at ha
    rcases ha with rfl | rfl | rfl | rfl | rfl <;> refine ⟨rfl, fun x hx => ?_⟩ <;> cases hx
    rfl
  have hsmall : ∀ a ∈ spellings, ∀ n, a.numeric? = some (.whole n) → n.natAbs ≤ 2 ^ 53 := by
    intro a ha n hn
    simp only [spellings, List.mem_cons, List.not_mem_nil, or_false] at ha
    rcases ha with rfl | rfl | rfl | rfl | rfl <;> cases hn <;> decide
  have hthree : (Choice.make spellings 0.5).toOption.map (·.card) = some 3 := by decide +kernel
  obtain ⟨-, -, -, hcount, hclear⟩ := same_equivalence_iff hatoms (by simp [spellings])
    (rfl : checkRate 0.5 = .ok ())
  obtain ⟨n, hn⟩ := hcount.mpr (hclear hsmall)
  obtain ⟨c, hc, rfl⟩ := hn spellings (List.Perm.refl spellings)
  rw [hc] at hthree
  rw [show c.card = 3 from Option.some.inj hthree] at hn
  exact ⟨hatoms, by simp [spellings], rfl, hn⟩

/-- Sameness is not transitive: a double is the same as two different integers, and it decides by its
place whether a choice keeps both. -/
theorem not_same_transitive :
    (Value.int 9007199254740993).same (.float 9007199254740992) = true ∧
    (Value.float 9007199254740992).same (.int 9007199254740992) = true ∧
    (Value.int 9007199254740993).same (.int 9007199254740992) = false ∧
    (Choice.make [.float 9007199254740992, .int 9007199254740993, .int 9007199254740992] 0.5).toOption.map
      (·.card) = some 1 ∧
    (Choice.make [.int 9007199254740993, .int 9007199254740992, .float 9007199254740992] 0.5).toOption.map
      (·.card) = some 2 := by
  decide +kernel

end Tuning
