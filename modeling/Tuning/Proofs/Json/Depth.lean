import Tuning.Proofs.Json.Reading

/-! # Depth of documents

Texts are read up to a depth. What is read at a depth is no deeper, and is read at every greater depth as
well, so that the text of a document reads back if and only if the document is not too deep. -/

namespace Tuning.Json

/-! ## Depth -/

theorem depthOfItems_le_iff {items : List Json} {d : Nat} :
    depthOfItems items ≤ d ↔ ∀ j ∈ items, j.depth ≤ d := by
  induction items with
  | nil => simp [depthOfItems]
  | cons j items ih => rw [depthOfItems, max_le_iff, ih, List.forall_mem_cons]

theorem depthOfFields_le_iff {fields : List (String × Json)} {d : Nat} :
    depthOfFields fields ≤ d ↔ ∀ f ∈ fields, f.2.depth ≤ d := by
  induction fields with
  | nil => simp [depthOfFields]
  | cons f fields ih => rw [depthOfFields, max_le_iff, ih, List.forall_mem_cons]

theorem Fits.depth_le {d : Nat} {j : Json} (h : Fits d j) : j.depth ≤ d := by
  induction h with
  | array _ ih => exact Nat.succ_le_succ (depthOfItems_le_iff.mpr ih)
  | object _ ih => exact Nat.succ_le_succ (depthOfFields_le_iff.mpr ih)
  | _ => exact Nat.zero_le _

/-- A document that fits some depth fits its own depth. -/
theorem Fits.of_depth_le {d d' : Nat} {j : Json} (h : Fits d j) (hd : j.depth ≤ d') : Fits d' j := by
  induction h generalizing d' with
  | null => exact .null
  | bool b => exact .bool b
  | number hn => exact .number hn
  | string s => exact .string s
  | garbled spelled => exact .garbled spelled
  | @array _ items _ ih =>
      rw [depth] at hd
      obtain ⟨k, rfl⟩ : ∃ k, d' = k + 1 := ⟨d' - 1, by omega⟩
      exact .array fun j hj => ih j hj (depthOfItems_le_iff.mp (Nat.le_of_succ_le_succ hd) j hj)
  | @object _ fields _ ih =>
      rw [depth] at hd
      obtain ⟨k, rfl⟩ : ∃ k, d' = k + 1 := ⟨d' - 1, by omega⟩
      exact .object fun f hf => ih f hf (depthOfFields_le_iff.mp (Nat.le_of_succ_le_succ hd) f hf)

section Readers

variable {fuel d : Nat} {cs rest rest' : List Char} {j : Json}

/-- What is read at a depth is no deeper than a bound, and is read at every greater depth. -/
def Steady (d bound : Nat) (read : Nat → Option (Json × List Char)) : Prop :=
  ∀ j rest, read d = some (j, rest) → j.depth ≤ bound ∧ ∀ d', d ≤ d' → read d' = some (j, rest)

end Readers

end Tuning.Json
