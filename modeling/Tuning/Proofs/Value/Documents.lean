import Tuning.Proofs.Decimal.Nearest
import Tuning.Proofs.Json.Reading
import Tuning.Proofs.Random.Draws
import Tuning.Value.Document

/-! # Values and their documents

The documents of values read back. An atom can be told from its document, unless it is a date, which has
the document of a text, a single-precision number, which may have the document of a double that it is
not equal to, or a text that is not Unicode, whose stray bytes all are written alike. -/

namespace Tuning

open Json (Fits)

/-- A numeral is a document. -/
theorem Denotes.fits {text : String} {negative : Bool} {v : ℚ} (h : Denotes text negative v)
    (depth : Nat) : Fits depth (.number text) := by
  obtain ⟨n, hn, htext, -, -⟩ := h
  rw [← String.ofList_toList (s := text), ← htext]
  exact .number hn

theorem fits_int (depth : Nat) (n : Int) : Fits depth (.int n) :=
  (denotes_int n).fits depth

theorem fits_float (depth : Nat) {x : Float}
    (hx : (x.isNaN || x.isInf) = false) : Fits depth (.float x) := by
  obtain ⟨negative, m, e, narrow, hfinite⟩ := Binary.exists_finite hx
  obtain ⟨q, hq, -⟩ := exists_denotes_documentNumber hfinite
  exact hq.fits depth

theorem fits_single (depth : Nat) {x : Float32} (hx : (x.isNaN || x.isInf) = false) :
    Fits depth (.number (documentSingle x)) := by
  obtain ⟨negative, q, hq⟩ := exists_denotes_documentSingle hx
  exact hq.fits depth

theorem toString_int_injective {k l : Int} (h : toString k = toString l) : k = l := by
  have hk := denotes_int k
  rw [h] at hk
  obtain ⟨hsign, habs⟩ := hk.unique (denotes_int l)
  have hsign : k < 0 ↔ l < 0 := decide_eq_decide.mp hsign
  have habs : k.natAbs = l.natAbs := by exact_mod_cast habs
  omega

/-- What the document of a double tells. -/
theorem encodeFloat_eq_ok {x : Float} {j : Json} (h : encodeFloat x = .ok j) :
    (x.isNaN || x.isInf) = false ∧ j = .float x := by
  unfold encodeFloat at h
  split at h
  · cases h
  · next hx => exact ⟨by simpa using hx, (Except.ok.inj h).symm⟩

theorem encodeFloat_of_finite {x : Float} (hx : (x.isNaN || x.isInf) = false) :
    encodeFloat x = .ok (.float x) :=
  if_neg (Bool.eq_false_iff.mp hx)

namespace Value

/-- The values whose documents may be those of other atoms: dates, single-precision numbers and texts
that are not Unicode. -/
def isAmbiguous : Value → Bool
  | time .. | single _ | garbled _ => true
  | _ => false

theorem encode_float_eq_ok {x : Float} {j : Json} (h : (float x).encode = .ok j) :
    (x.isNaN || x.isInf) = false ∧ j = .number (documentNumber x) :=
  encodeFloat_eq_ok h

/-- Whole numbers have documents that do not tell their width. -/
theorem encode_of_whole (v : Value) {k : Int} (h : v.numeric? = some (.whole k)) :
    v.encode = .ok (.int k) ∧ k.natAbs < 2 ^ 64 := by
  cases v with
  | int n | signed _ n =>
      obtain rfl := Numeric.whole.inj (Option.some.inj h)
      have := n.toInt_lt
      have := n.le_toInt
      exact ⟨rfl, by omega⟩
  | unsigned _ n =>
      obtain rfl := Numeric.whole.inj (Option.some.inj h)
      have := n.toNat_lt
      exact ⟨rfl, by omega⟩
  | _ => cases h

/-- What the document of an atom tells of the atom. -/
theorem encode_eq_ok {v : Value} {j : Json} (hv : v.isAtom = true) (hclear : v.isAmbiguous = false)
    (h : v.encode = .ok j) :
    (∃ b, v = bool b ∧ j = .bool b) ∨ (∃ s, v = text s ∧ j = .string s) ∨
      (∃ k, v.numeric? = some (.whole k) ∧ k.natAbs < 2 ^ 64 ∧ j = .number (toString k)) ∨
        ∃ x, v = float x ∧ (x.isNaN || x.isInf) = false ∧ j = .number (documentNumber x) := by
  cases v with
  | bool b => exact .inl ⟨b, rfl, (Except.ok.inj h).symm⟩
  | text s => exact .inr (.inl ⟨s, rfl, (Except.ok.inj h).symm⟩)
  | int n =>
      exact .inr (.inr (.inl ⟨_, rfl, (encode_of_whole (int n) rfl).2, (Except.ok.inj h).symm⟩))
  | signed width n =>
      exact .inr (.inr (.inl ⟨_, rfl, (encode_of_whole (signed width n) rfl).2, (Except.ok.inj h).symm⟩))
  | unsigned width n =>
      exact .inr (.inr (.inl ⟨_, rfl, (encode_of_whole (unsigned width n) rfl).2, (Except.ok.inj h).symm⟩))
  | float x =>
      obtain ⟨hx, hj⟩ := encode_float_eq_ok h
      exact .inr (.inr (.inr ⟨x, rfl, hx, hj⟩))
  | _ => simp [isAtom, isAmbiguous] at hv hclear

/-- Atoms with one document are the same. -/
theorem same_of_encode_eq {u v : Value} {j : Json} (hu : u.isAtom = true) (hv : v.isAtom = true)
    (hcu : u.isAmbiguous = false) (hcv : v.isAmbiguous = false) (h : u.encode = .ok j)
    (h' : v.encode = .ok j) : u.same v = true := by
  rcases encode_eq_ok hu hcu h with ⟨b, rfl, rfl⟩ | ⟨s, rfl, rfl⟩ | ⟨k, hk, hlt, rfl⟩ | ⟨x, rfl, hx, rfl⟩ <;>
    rcases encode_eq_ok hv hcv h' with
      ⟨c, rfl, heq⟩ | ⟨t, rfl, heq⟩ | ⟨l, hl, hlt', heq⟩ | ⟨y, rfl, hy, heq⟩ <;>
    try cases heq
  · simp [same, numeric?]
  · simp [same, numeric?]
  · have hkl := toString_int_injective (Json.number.inj heq)
    exact (same_iff _ _).mpr (.inl ⟨_, _, hk, hl, by simp [Numeric.same, hkl]⟩)
  · have hky := beq_of_documentNumber_eq_int hy hlt (Json.number.inj heq).symm
    exact (same_iff _ _).mpr (.inl ⟨_, _, hk, rfl, hky⟩)
  · have hlx := beq_of_documentNumber_eq_int hx hlt' (Json.number.inj heq)
    exact (same_iff _ _).mpr (.inl ⟨_, _, rfl, hl, (float_beq_comm _ _).trans hlx⟩)
  · have hxy := beq_of_documentNumber_eq hx hy (Json.number.inj heq)
    exact (same_iff _ _).mpr (.inl ⟨_, _, rfl, rfl, hxy⟩)

/-- The document of an atom or of a list of machine integers reads back. -/
theorem fits_encode {v : Value} {j : Json} (hv : v.isAtom = true ∨ ∃ xs, v = ints xs)
    (h : v.encode = .ok j) (depth : Nat) : Fits (depth + 1) j := by
  rcases hv with hv | ⟨xs, rfl⟩
  · by_cases hclear : v.isAmbiguous = true
    · cases v with
      | single x =>
          unfold encode at h
          split at h
          · cases h
          · next hx =>
              obtain rfl := Except.ok.inj h
              exact fits_single _ (by simpa using hx)
      | time t zone =>
          unfold encode encodeInstant at h
          split at h
          · obtain rfl := Except.ok.inj h
            exact .string _
          · cases h
      | garbled s =>
          obtain rfl := Except.ok.inj h
          exact .garbled _
      | _ => cases hclear
    · rcases encode_eq_ok hv (by simpa using hclear) h with
        ⟨b, rfl, rfl⟩ | ⟨s, rfl, rfl⟩ | ⟨k, -, -, rfl⟩ | ⟨x, rfl, hx, rfl⟩
      · exact .bool b
      · exact .string s
      · exact fits_int _ k
      · exact fits_float _ hx
  · obtain rfl := Except.ok.inj h
    refine .array fun j hj => ?_
    obtain ⟨n, -, rfl⟩ := List.mem_map.mp hj
    exact fits_int _ n.toInt

/-- The document of an atom that is told from it, or of a list of machine integers, has no stray bytes. -/
theorem legible_encode {v : Value} {j : Json} (hv : v.isAtom = true ∨ ∃ xs, v = ints xs)
    (hclear : v.isAmbiguous = false) (h : v.encode = .ok j) : j.legible = j := by
  rcases hv with hv | ⟨xs, rfl⟩
  · rcases encode_eq_ok hv hclear h with
      ⟨b, rfl, rfl⟩ | ⟨s, rfl, rfl⟩ | ⟨k, -, -, rfl⟩ | ⟨x, rfl, hx, rfl⟩ <;> rfl
  · obtain rfl := Except.ok.inj h
    rw [Json.legible, Json.legibleItems_eq, List.map_map]
    rfl

/-- Such documents can be told from their texts. -/
theorem encode_eq_of_compact_eq {u v : Value} {j k : Json}
    (hu : u.isAtom = true ∨ ∃ xs, u = ints xs) (hv : v.isAtom = true ∨ ∃ xs, v = ints xs)
    (hcu : u.isAmbiguous = false) (hcv : v.isAmbiguous = false) (huj : u.encode = .ok j)
    (hvk : v.encode = .ok k) (h : j.compact = k.compact) : j = k := by
  have hlegible := Json.compact_injective (fits_encode hu huj _) (fits_encode hv hvk _) h
  rwa [legible_encode hu hcu huj, legible_encode hv hcv hvk] at hlegible

theorem encodeFields_cons_eq_ok {name : String} {v : Value} {rest : List (String × Value)}
    {fields : List (String × Json)} (h : encodeFields ((name, v) :: rest) = .ok fields) :
    ∃ j js, v.encode = .ok j ∧ encodeFields rest = .ok js ∧ fields = (name, j) :: js := by
  rw [encodeFields] at h
  obtain ⟨j, hj, h⟩ := except_bind_eq_ok.mp h
  obtain ⟨js, hjs, h⟩ := except_bind_eq_ok.mp h
  exact ⟨j, js, hj, hjs, (Except.ok.inj h).symm⟩

/-- Induction along documents. What holds of each value that has no parts and its document, and of
lists and mappings if it holds of their parts, holds of every value and its document. -/
theorem encode_rec {P : Value → Json → Prop} {F : List (String × Value) → List (String × Json) → Prop}
    {I : List Value → List Json → Prop} (null : P .null .null) (bool : ∀ b, P (.bool b) (.bool b))
    (whole : ∀ v k, v.numeric? = some (.whole k) → P v (.int k))
    (float : ∀ x : Float, (x.isNaN || x.isInf) = false → P (.float x) (.float x))
    (single : ∀ x : Float32, (x.isNaN || x.isInf) = false →
      P (.single x) (.number (documentSingle x)))
    (text : ∀ s, P (.text s) (.string s))
    (garbled : ∀ s, P (.garbled s) (.garbled (Text.spelled s.bytes)))
    (time : ∀ t zone, P (.time t zone) (.string t.text))
    (ints : ∀ xs, P (.ints xs) (.array (xs.map fun n => .int n.toInt)))
    (list : ∀ items docs, I items docs → P (.list items) (.array docs))
    (map : ∀ fields docs, F fields docs → P (.map fields) (.object docs)) (noItems : I [] [])
    (item : ∀ v j items docs, P v j → I items docs → I (v :: items) (j :: docs))
    (noFields : F [] [])
    (field : ∀ name v j fields docs, P v j → F fields docs →
      F ((name, v) :: fields) ((name, j) :: docs)) :
    (∀ v j, v.encode = .ok j → P v j) ∧
      (∀ fields docs, encodeFields fields = .ok docs → F fields docs) ∧
      ∀ items docs, encodeItems items = .ok docs → I items docs := by
  apply encode.mutual_induct
  -- a value without parts, in the order of the constructors
  case case1 => exact fun j h => Except.ok.inj h ▸ null
  case case2 => exact fun b j h => Except.ok.inj h ▸ bool b
  case case3 | case4 | case5 =>
    intros
    next h => exact Except.ok.inj h ▸ whole _ _ rfl
  case case6 =>
    intro x j h
    obtain ⟨hx, rfl⟩ := encodeFloat_eq_ok h
    exact float x hx
  case case7 =>
    intro x hx j h
    rw [encode, if_pos hx] at h
    cases h
  case case8 =>
    intro x hx j h
    rw [encode, if_neg hx] at h
    exact Except.ok.inj h ▸ single x (by simpa using hx)
  case case9 => exact fun s j h => Except.ok.inj h ▸ text s
  case case10 => exact fun s j h => Except.ok.inj h ▸ garbled s
  case case11 =>
    intro t zone j h
    rw [encode, encodeInstant, Instant.document?] at h
    split_ifs at h
    exact Except.ok.inj h ▸ time t zone
  case case12 => exact fun xs j h => Except.ok.inj h ▸ ints xs
  -- lists, mappings and tables
  case case13 =>
    intro items ih j h
    rw [encode] at h
    obtain ⟨docs, hdocs, h⟩ := except_bind_eq_ok.mp h
    exact Except.ok.inj h ▸ list items docs (ih docs hdocs)
  case case14 =>
    intro fields ih j h
    rw [encode] at h
    obtain ⟨docs, hdocs, h⟩ := except_bind_eq_ok.mp h
    exact Except.ok.inj h ▸ map fields docs (ih docs hdocs)
  case case15 => exact fun entries j h => nomatch h
  -- items and fields
  case case16 => exact fun docs h => Except.ok.inj h ▸ noItems
  case case17 =>
    intro v items ih ihitems docs h
    rw [encodeItems] at h
    obtain ⟨j, hj, h⟩ := except_bind_eq_ok.mp h
    obtain ⟨js, hjs, h⟩ := except_bind_eq_ok.mp h
    exact Except.ok.inj h ▸ item v j items js (ih j hj) (ihitems js hjs)
  case case18 => exact fun docs h => Except.ok.inj h ▸ noFields
  case case19 =>
    intro name v fields ih ihfields docs h
    obtain ⟨j, js, hj, hjs, rfl⟩ := encodeFields_cons_eq_ok h
    exact field name v j fields js (ih j hj) (ihfields js hjs)

end Value

end Tuning
