import Tuning.Proofs.Decimal.Reading
import Tuning.Proofs.Individual.Key

/-! # Values that come back from documents

A document keeps of a value what documents can say: numbers of every width come back as doubles, dates
as texts, texts with stray bytes as the texts that show them, and lists of machine integers as lists. -/

namespace Tuning

open Json (Fits)

namespace Value

mutual

/-- The value that comes back from the document of a value. -/
def normal : Value → Value
  | int n => float (Float.ofInt n.toInt)
  | signed _ n => float (Float.ofInt n.toInt)
  | unsigned _ n => float (Float.ofInt n.toNat)
  | single x => float ((readFloat? (documentSingle x)).getD 0)
  | garbled s => text (Text.ofBytes s.bytes)
  | time t _ => text t.text
  | ints xs => list (xs.map fun n => float (Float.ofInt n.toInt))
  | list items => list (normalItems items)
  | map fields => map (mappingOf (normalFields fields))
  | v => v

/-- The values that come back from the documents of items. -/
def normalItems : List Value → List Value
  | [] => []
  | item :: rest => item.normal :: normalItems rest

/-- The fields that come back from the documents of fields. -/
def normalFields : List (String × Value) → List (String × Value)
  | [] => []
  | (name, value) :: rest => (name, value.normal) :: normalFields rest

end

/-- Documents of one whole number and of many. -/
theorem ofJson?_int {k : Int} (h : k.natAbs < 2 ^ 64) :
    ofJson? (.int k) = some (float (Float.ofInt k)) := by
  rw [Json.int, ofJson?, readFloat?_int h]
  rfl

theorem itemsOfJson?_ints (xs : List Int64) :
    itemsOfJson? (xs.map fun n => .int n.toInt) =
      some (xs.map fun n => float (Float.ofInt n.toInt)) := by
  induction xs with
  | nil => rfl
  | cons n xs ih =>
      have := n.toInt_lt
      have := n.le_toInt
      rw [List.map_cons, itemsOfJson?, ofJson?_int (by omega), ih]
      rfl

theorem normal_of_whole (v : Value) {k : Int} (h : v.numeric? = some (.whole k)) :
    v.normal = float (Float.ofInt k) := by
  cases v with
  | int | signed | unsigned =>
      obtain rfl := Numeric.whole.inj (Option.some.inj h)
      rfl
  | _ => cases h

/-- What the text of the document of a value reads as gives back the normal form of the value. -/
theorem ofJson?_encode_all :
    (∀ (v : Value) (j : Json), v.encode = .ok j → ofJson? j.legible = some v.normal) ∧
      (∀ (fields : List (String × Value)) (docs : List (String × Json)),
        encodeFields fields = .ok docs →
          fieldsOfJson? (Json.legibleFields docs) = some (normalFields fields)) ∧
      ∀ (items : List Value) (docs : List Json),
        encodeItems items = .ok docs →
          itemsOfJson? (Json.legibleItems docs) = some (normalItems items) := by
  apply encode_rec
  case null | bool | text | garbled | time | noItems | noFields => intros; rfl
  case whole =>
    intro v k hv
    rw [normal_of_whole v hv]
    exact ofJson?_int (encode_of_whole v hv).2
  case float =>
    intro x hx
    rw [Json.float, Json.legible, ofJson?, readFloat?_documentNumber hx]
    rfl
  case single =>
    intro x hx
    obtain ⟨negative, m, e, narrow, hfinite⟩ := Binary.exists_finite_single hx
    obtain ⟨y, -, -, -, hy, -⟩ := readFloat?_documentSingle hfinite
    rw [Json.legible, ofJson?, normal, hy]
    rfl
  case ints =>
    intro xs
    rw [legible_encode (.inr ⟨xs, rfl⟩) rfl rfl, ofJson?, itemsOfJson?_ints]
    rfl
  case list | map =>
    intro parts docs ih
    rw [Json.legible, ofJson?, ih]
    rfl
  case item =>
    intro v j items docs hv hitems
    rw [Json.legibleItems, itemsOfJson?, hv, hitems]
    rfl
  case field =>
    intro name v j fields docs hv hfields
    rw [Json.legibleFields, fieldsOfJson?, hv, hfields]
    rfl

/-! ## Depth -/

/-- Every document of a value reads back at some depth. -/
theorem exists_fits_all :
    (∀ (v : Value) (j : Json), v.encode = .ok j → ∃ depth, Fits depth j) ∧
      (∀ (fields : List (String × Value)) (docs : List (String × Json)),
        encodeFields fields = .ok docs → ∃ depth, ∀ doc ∈ docs, Fits depth doc.2) ∧
      ∀ (items : List Value) (docs : List Json),
        encodeItems items = .ok docs → ∃ depth, ∀ doc ∈ docs, Fits depth doc := by
  apply encode_rec
  case null => exact ⟨0, .null⟩
  case bool => exact fun b => ⟨0, .bool b⟩
  case whole => exact fun _ k _ => ⟨0, fits_int 0 k⟩
  case float => exact fun _ hx => ⟨0, fits_float 0 hx⟩
  case single => exact fun _ hx => ⟨0, fits_single 0 hx⟩
  case text => exact fun s => ⟨0, .string s⟩
  case garbled => exact fun s => ⟨0, .garbled _⟩
  case time => exact fun t _ => ⟨0, .string t.text⟩
  case ints => exact fun xs => ⟨1, fits_encode (.inr ⟨xs, rfl⟩) rfl 0⟩
  case list =>
    rintro items docs ⟨depth, hdepth⟩
    exact ⟨depth + 1, .array hdepth⟩
  case map =>
    rintro fields docs ⟨depth, hdepth⟩
    exact ⟨depth + 1, .object hdepth⟩
  case noItems | noFields => exact ⟨0, by simp⟩
  case item =>
    rintro v j items docs ⟨depth, hdepth⟩ ⟨depth', hdepth'⟩
    refine ⟨max depth depth', List.forall_mem_cons.mpr ⟨hdepth.mono (le_max_left _ _), ?_⟩⟩
    exact fun doc hdoc => (hdepth' doc hdoc).mono (le_max_right _ _)
  case field =>
    rintro name v j fields docs ⟨depth, hdepth⟩ ⟨depth', hdepth'⟩
    refine ⟨max depth depth', List.forall_mem_cons.mpr ⟨hdepth.mono (le_max_left _ _), ?_⟩⟩
    exact fun doc hdoc => (hdepth' doc hdoc).mono (le_max_right _ _)

end Value

end Tuning
