import Mathlib

/-! # Entries in lists

Entries are looked up by their names. Sorting leaves entries that are tied in the order in which they
were. -/

namespace Tuning

/-! ## Looking up -/

section Lookup

variable {α : Type}

theorem lookup_cons_eq (e : String × α) (es : List (String × α)) (name : String) :
    (e :: es).lookup name = if name = e.1 then some e.2 else es.lookup name := by
  rw [List.lookup_cons]
  by_cases h : name = e.1
  · rw [beq_iff_eq.mpr h, if_pos h]
  · rw [beq_false_of_ne h, if_neg h]

theorem lookup_filter_ne (es : List (String × α)) (name other : String) :
    (es.filter (·.1 ≠ name)).lookup other = if other = name then none else es.lookup other := by
  induction es with
  | nil => simp
  | cons e es ih =>
      by_cases hname : e.1 = name
      · rw [List.filter_cons_of_neg (by simpa using hname), ih, lookup_cons_eq, hname]
        split_ifs <;> rfl
      · rw [List.filter_cons_of_pos (by simpa using hname), lookup_cons_eq, ih, lookup_cons_eq]
        split_ifs with he hother
        · exact absurd (he.symm.trans hother) hname
        all_goals rfl

end Lookup

/-! ## Sorting -/

section Sorting

variable {α : Type} {le : α → α → Bool} {R : α → α → Prop}
  (trans : ∀ a b c : α, le a b → le b c → le a c) (total : ∀ a b : α, le a b || le b a)

include trans total

/-- Sorting leaves a class of entries that are tied in its order. -/
theorem filter_mergeSort {tied : α → Bool} (htied : ∀ a b, tied a → tied b → le a b) (l : List α) :
    (l.mergeSort le).filter tied = l.filter tied := by
  -- the entries of the class are in order as they stand, so they are a sublist of the sorted list
  have hclass : (l.filter tied).Pairwise (le · ·) := by
    refine List.pairwise_of_forall_mem_list fun a ha b hb => ?_
    exact htied a b (List.mem_filter.mp ha).2 (List.mem_filter.mp hb).2
  have hsub := (List.sublist_mergeSort trans total hclass List.filter_sublist).filter tied
  rw [List.filter_filter] at hsub
  simp only [Bool.and_self] at hsub
  exact (hsub.eq_of_length ((List.mergeSort_perm l le).filter _).length_eq.symm).symm

/-- A sorted list is in the order of the list before where there are ties. -/
theorem pairwise_mergeSort_tied {l : List α} (h : l.Pairwise R) :
    (l.mergeSort le).Pairwise fun a b => le a b ∧ (le b a → R a b) := by
  rw [List.pairwise_iff_forall_sublist]
  intro a b hab
  have hle : le a b := List.pairwise_iff_forall_sublist.mp (List.pairwise_mergeSort trans total l) hab
  refine ⟨hle, fun hle' => ?_⟩
  have hself : le a a := by simpa using total a a
  have htied := hab.filter fun b => le a b && le b a
  rw [filter_mergeSort trans total] at htied
  · simp only [List.filter_cons, hself, hle, hle', Bool.and_self, if_true, List.filter_nil] at htied
    exact List.pairwise_iff_forall_sublist.mp h (htied.trans List.filter_sublist)
  · intro b c hb hc
    rw [Bool.and_eq_true] at hb hc
    exact trans b a c hb.2 hc.1

end Sorting

end Tuning
