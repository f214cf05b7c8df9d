import Mathlib
import Tuning.Finite.Indexed

/-! # Families without repetition

A family enumerates a property if its elements are exactly those with the property, each at one index
below the size. -/

namespace Tuning.Indexed

variable {α β : Type}

/-- The elements of a family are those with a property, each once. -/
structure Enumerates (x : Indexed α) (P : α → Prop) : Prop where
  sound : ∀ i < x.size, P (x.get i)
  injective : ∀ i < x.size, ∀ j < x.size, x.get i = x.get j → i = j
  complete : ∀ a, P a → ∃ i < x.size, x.get i = a

namespace Enumerates

variable {x : Indexed α} {y : Indexed β} {P : α → Prop} {Q : β → Prop}

theorem iff {P' : α → Prop} (h : x.Enumerates P) (hP : ∀ a, P a ↔ P' a) : x.Enumerates P' where
  sound i hi := (hP _).mp (h.sound i hi)
  injective := h.injective
  complete a ha := h.complete a ((hP a).mpr ha)

theorem size_pos (h : x.Enumerates P) {a : α} (ha : P a) : 0 < x.size := by
  obtain ⟨i, hi, -⟩ := h.complete a ha
  omega

/-- Indices that are moved into range give elements too. -/
theorem clamped (h : x.Enumerates P) {a : α} (ha : P a) (i : Int) : P (x.clamped i) := by
  have hsize := h.size_pos ha
  exact h.sound _ (by omega)

theorem clamped_of_lt {i : Nat} (hi : i < x.size) : x.clamped i = x.get i := by
  rw [Indexed.clamped, Int.toNat_natCast, Nat.min_eq_left (by omega)]

theorem clamped_inj (h : x.Enumerates P) {i j : Nat} (hi : i < x.size) (hj : j < x.size) :
    x.clamped i = x.clamped j ↔ i = j := by
  rw [clamped_of_lt hi, clamped_of_lt hj]
  exact ⟨h.injective i hi j hj, fun h => h ▸ rfl⟩

theorem exists_clamped (h : x.Enumerates P) {a : α} (ha : P a) :
    ∃ i : Nat, i < x.size ∧ x.clamped i = a := by
  obtain ⟨i, hi, hget⟩ := h.complete a ha
  exact ⟨i, hi, (clamped_of_lt hi).trans hget⟩

theorem nodup_toList (h : x.Enumerates P) : x.toList.Nodup := by
  refine List.Nodup.map_on ?_ List.nodup_range
  intro i hi j hj hij
  exact h.injective i (List.mem_range.mp hi) j (List.mem_range.mp hj) hij

theorem mem_toList (h : x.Enumerates P) {a : α} : a ∈ x.toList ↔ P a := by
  constructor
  · intro ha
    obtain ⟨i, hi, rfl⟩ := List.mem_map.mp ha
    exact h.sound i (List.mem_range.mp hi)
  · intro ha
    obtain ⟨i, hi, rfl⟩ := h.complete a ha
    exact List.mem_map.mpr ⟨i, List.mem_range.mpr hi, rfl⟩

/-! ## Families made of others -/

theorem single (a : α) : (Indexed.single a).Enumerates (· = a) where
  sound _ _ := rfl
  injective i hi j hj _ := by
    change i < 1 at hi
    change j < 1 at hj
    omega
  complete b hb := ⟨0, Nat.one_pos, hb.symm⟩

theorem upTo (n : Nat) : (Indexed.upTo n).Enumerates (· < n) where
  sound _ hi := hi
  injective _ _ _ _ h := h
  complete i hi := ⟨i, hi, rfl⟩

theorem product (hx : x.Enumerates P) (hy : y.Enumerates Q) :
    (Indexed.product x y).Enumerates fun ab => P ab.1 ∧ Q ab.2 where
  sound i hi := by
    have hpos : 0 < y.size := Nat.pos_of_mul_pos_left (Nat.zero_lt_of_lt hi)
    exact ⟨hx.sound _ ((Nat.div_lt_iff_lt_mul hpos).mpr hi), hy.sound _ (Nat.mod_lt i hpos)⟩
  injective i hi j hj h := by
    have hpos : 0 < y.size := Nat.pos_of_mul_pos_left (Nat.zero_lt_of_lt hi)
    obtain ⟨hfirst, hsecond⟩ := Prod.mk.inj h
    have hdiv := hx.injective _ ((Nat.div_lt_iff_lt_mul hpos).mpr hi) _
      ((Nat.div_lt_iff_lt_mul hpos).mpr hj) hfirst
    have hmod := hy.injective _ (Nat.mod_lt i hpos) _ (Nat.mod_lt j hpos) hsecond
    rw [← Nat.div_add_mod i y.size, hdiv, hmod, Nat.div_add_mod]
  complete ab hab := by
    obtain ⟨i, hi, hia⟩ := hx.complete ab.1 hab.1
    obtain ⟨j, hj, hjb⟩ := hy.complete ab.2 hab.2
    have hpos : 0 < y.size := by omega
    refine ⟨y.size * i + j, ?_, ?_⟩
    · calc y.size * i + j < y.size * i + y.size := Nat.add_lt_add_left hj _
        _ = y.size * (i + 1) := (Nat.mul_succ _ _).symm
        _ ≤ y.size * x.size := Nat.mul_le_mul_left _ hi
        _ = x.size * y.size := Nat.mul_comm _ _
    · change (x.get ((y.size * i + j) / y.size), y.get ((y.size * i + j) % y.size)) = ab
      rw [Nat.mul_add_div hpos, Nat.div_eq_of_lt hj, Nat.add_zero, Nat.mul_add_mod,
        Nat.mod_eq_of_lt hj, hia, hjb]

/-- A function that is injective on the elements carries them to its image. -/
theorem map (h : x.Enumerates P) {f : α → β} (hinj : ∀ a b, P a → P b → f a = f b → a = b)
    (himage : ∀ b, Q b ↔ ∃ a, P a ∧ f a = b) : (Indexed.map f x).Enumerates Q where
  sound i hi := (himage _).mpr ⟨x.get i, h.sound i hi, rfl⟩
  injective i hi j hj hij := h.injective i hi j hj (hinj _ _ (h.sound i hi) (h.sound j hj) hij)
  complete b hb := by
    obtain ⟨a, ha, rfl⟩ := (himage b).mp hb
    obtain ⟨i, hi, rfl⟩ := h.complete a ha
    exact ⟨i, hi, rfl⟩

end Enumerates

/-! ## Vectors of indices -/

/-- The vectors of indices below given bounds. -/
def vectors : (bounds : List Nat) → Indexed (List Nat)
  | [] => single []
  | bound :: bounds =>
    (product (upTo bound) (vectors bounds)).map fun (i, indices) => i :: indices

theorem size_vectors (bounds : List Nat) : (vectors bounds).size = bounds.prod := by
  induction bounds with
  | nil => rfl
  | cons bound bounds ih => rw [List.prod_cons, ← ih]; rfl

theorem enumerates_vectors (bounds : List Nat) :
    (vectors bounds).Enumerates (List.Forall₂ (· < ·) · bounds) := by
  induction bounds with
  | nil => exact (Enumerates.single []).iff fun v => by rw [List.forall₂_nil_right_iff]
  | cons bound bounds ih =>
      refine ((Enumerates.upTo bound).product ih).map ?_ ?_
      · rintro ⟨i, v⟩ ⟨j, w⟩ - - h
        obtain ⟨rfl, rfl⟩ := List.cons.inj h
        rfl
      · intro v
        rw [List.forall₂_cons_right_iff]
        constructor
        · rintro ⟨i, w, hi, hw, rfl⟩
          exact ⟨(i, w), ⟨hi, hw⟩, rfl⟩
        · rintro ⟨⟨i, w⟩, ⟨hi, hw⟩, rfl⟩
          exact ⟨i, w, hi, hw, rfl⟩

end Tuning.Indexed

namespace Tuning

/-! ## Searches that take their choices back -/

/-- A search that works on one list of choices, and what it has found so far. -/
structure Quest (α β : Type) where
  current : α
  found : List β := []

namespace Quest

variable {ι α β : Type} {t : Quest α β}

/-- The search with more found and the choices as they were. -/
def gain (t : Quest α β) (more : List β) : Quest α β :=
  { t with found := t.found ++ more }

/-- Keeps the choices that were made. -/
def keep (t : Quest α α) : Quest α α :=
  t.gain [t.current]

/-- Makes a choice at the end of a list. -/
def push (t : Quest (List α) β) (a : α) : Quest (List α) β :=
  { t with current := t.current ++ [a] }

/-- Takes the last choice of a list back. -/
def pop (t : Quest (List α) β) : Quest (List α) β :=
  { t with current := t.current.dropLast }

/-- When every option leaves the choices as they were, a search finds what each option finds. -/
theorem foldl_eq_gain (more : α → ι → List β) {attempt : Quest α β → ι → Quest α β}
    (h : ∀ (t : Quest α β) (i : ι), attempt t i = t.gain (more t.current i)) (options : List ι)
    (t : Quest α β) : options.foldl attempt t = t.gain (options.flatMap (more t.current)) := by
  induction options generalizing t with
  | nil => simp [gain]
  | cons i options ih => rw [List.foldl_cons, ih, h]; simp [gain]

end Quest

end Tuning
