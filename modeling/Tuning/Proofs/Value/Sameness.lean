import Mathlib
import Tuning.Individual

/-! # Sameness

Values, genes and individuals are compared by what they hold. The comparison does not depend on the
order of its two sides. -/

namespace Tuning

open Float.Model UnpackedFloat

/-! ## Doubles -/

theorem compare_sign_eq_iff (s t : Sign) : compare s t = .eq ↔ s = t := by
  cases s <;> cases t <;> simp [compare]

/-- Two unpacked numbers compare as equal if they are the same number or both are zero. -/
theorem compare_unpacked_eq_iff (a b : UnpackedFloat) :
    a.compare b = some .eq ↔
      a = b ∧ a ≠ .notANumber ∨ (∃ s, a = .zero s) ∧ ∃ s, b = .zero s := by
  rcases a with (_ | _) | _ | (_ | _) | ⟨_ | _, m, e, hm⟩ <;>
    rcases b with (_ | _) | _ | (_ | _) | ⟨_ | _, n, f, hn⟩ <;>
    simp [UnpackedFloat.compare, Ordering.then_eq_eq, and_comm, compare_sign_eq_iff]

theorem float_beq_iff (x y : Float) :
    (x == y) = true ↔
      x.toModel.unpack = y.toModel.unpack ∧ x.toModel.unpack ≠ .notANumber ∨
        (∃ s, x.toModel.unpack = .zero s) ∧ ∃ s, y.toModel.unpack = .zero s := by
  change (x.toModel.unpack.compare y.toModel.unpack == some .eq) = true ↔ _
  rw [beq_iff_eq, compare_unpacked_eq_iff]

theorem float_beq_comm (x y : Float) : (x == y) = (y == x) := by
  rw [Bool.eq_iff_iff, float_beq_iff, float_beq_iff]
  grind

/-! ## Values, genes and individuals -/

theorem Numeric.same_comm (a b : Numeric) : a.same b = b.same a := by
  cases a <;> cases b
  case whole.whole m n => exact BEq.comm
  all_goals exact float_beq_comm _ _

namespace Value

/-- The values that are compared as a whole: all but numbers, lists and mappings. -/
def isPlain : Value → Bool
  | null | bool _ | text _ | garbled _ | time .. => true
  | _ => false

/-- Two values are the same if they are the same number, or plain and equal. -/
theorem same_iff (a b : Value) :
    a.same b = true ↔
      (∃ x y, a.numeric? = some x ∧ b.numeric? = some y ∧ x.same y = true) ∨
        a = b ∧ a.isPlain = true := by
  cases a <;> cases b <;> simp [same, numeric?, isPlain]

theorem same_comm (a b : Value) : a.same b = b.same a := by
  rw [Bool.eq_iff_iff, same_iff, same_iff]
  constructor
  · rintro (⟨x, y, hx, hy, h⟩ | ⟨rfl, h⟩)
    · exact .inl ⟨y, x, hy, hx, (Numeric.same_comm y x).trans h⟩
    · exact .inr ⟨rfl, h⟩
  · rintro (⟨x, y, hx, hy, h⟩ | ⟨rfl, h⟩)
    · exact .inl ⟨y, x, hy, hx, (Numeric.same_comm y x).trans h⟩
    · exact .inr ⟨rfl, h⟩

end Value

theorem Gene.same_comm (g h : Gene) : g.same h = h.same g := by
  cases g <;> cases h <;> try rfl
  · exact Value.same_comm _ _
  all_goals exact BEq.comm

namespace Individual

theorem sameGenes_comm (xs ys : List (String × Gene)) : sameGenes xs ys = sameGenes ys xs := by
  induction xs generalizing ys with
  | nil => cases ys <;> rfl
  | cons x xs ih =>
      cases ys with
      | nil => rfl
      | cons y ys =>
          simp only [sameGenes]
          rw [ih ys, Gene.same_comm x.2, BEq.comm (a := x.1)]

theorem same_comm (x y : Individual) : x.same y = y.same x :=
  sameGenes_comm x.genes y.genes

end Individual

end Tuning
