import Tuning.Proofs.Individual.Key
import Tuning.Proofs.Json.Quotation
import Tuning.Session.Runner

/-! # Scoped keys

A scoped key belongs to one objective and one candidate, whatever stands in the identity, as long as
the values of candidates can be told from their documents. -/

namespace Tuning

namespace Value

/-- The values that can be told from their documents. -/
def isExact : Value → Bool
  | int _ | text _ | bool _ | ints _ => true
  | _ => false

theorem exists_encode {v : Value} (hv : v.isExact = true) : ∃ j, v.encode = .ok j := by
  cases v with
  | int _ | text _ | bool _ | ints _ => exact ⟨_, rfl⟩
  | _ => cases hv

theorem isFlat_of_isExact {v : Value} (hv : v.isExact = true) :
    v.isAtom = true ∨ ∃ xs, v = ints xs := by
  cases v with
  | int _ | text _ | bool _ => exact .inl rfl
  | ints xs => exact .inr ⟨xs, rfl⟩
  | _ => cases hv

theorem isAmbiguous_of_isExact {v : Value} (hv : v.isExact = true) : v.isAmbiguous = false := by
  cases v with
  | int _ | text _ | bool _ | ints _ => rfl
  | _ => cases hv

theorem eq_of_encode_eq {u v : Value} {j : Json} (hu : u.isExact = true) (hv : v.isExact = true)
    (h : u.encode = .ok j) (h' : v.encode = .ok j) : u = v := by
  have hint : ∀ m n : Int64, Json.int m.toInt = Json.int n.toInt → m = n := fun m n hmn =>
    Int64.toInt_inj.mp (toString_int_injective (Json.number.inj hmn))
  have heq := h.trans h'.symm
  cases u with
  | int m => cases v with
    | int n => rw [hint m n (Except.ok.inj heq)]
    | text _ | bool _ | ints _ => cases heq
    | _ => cases hv
  | text s => cases v with
    | text t => rw [Json.string.inj (Except.ok.inj heq)]
    | int _ | bool _ | ints _ => cases heq
    | _ => cases hv
  | bool a => cases v with
    | bool b => rw [Json.bool.inj (Except.ok.inj heq)]
    | int _ | text _ | ints _ => cases heq
    | _ => cases hv
  | ints xs => cases v with
    | ints ys => rw [ints_injective h h']
    | int _ | text _ | bool _ => cases heq
    | _ => cases hv
  | _ => cases hu

end Value

namespace Candidate

/-- Every value can be told from its document. -/
def IsExact (c : Candidate) : Prop :=
  ∀ field ∈ c, field.2.isExact = true

variable {c d : Candidate}

theorem IsExact.isFlat (hc : c.IsExact) : c.IsFlat := fun field hfield =>
  Value.isFlat_of_isExact (hc field hfield)

theorem exists_encodeFields (hc : ∀ field ∈ c, ∃ j, field.2.encode = .ok j) :
    ∃ docs, Value.encodeFields c = .ok docs := by
  induction c with
  | nil => exact ⟨[], rfl⟩
  | cons field rest ih =>
      obtain ⟨j, hj⟩ := hc field List.mem_cons_self
      obtain ⟨docs, hdocs⟩ := ih fun other hother => hc other (List.mem_cons_of_mem field hother)
      refine ⟨(field.1, j) :: docs, ?_⟩
      rw [Value.encodeFields, hj, hdocs]
      rfl

/-- A candidate has a document when all its values have one. -/
theorem exists_encode (hc : ∀ field ∈ c, ∃ j, field.2.encode = .ok j) : ∃ j, c.encode = .ok j := by
  obtain ⟨docs, hdocs⟩ := exists_encodeFields hc
  refine ⟨.object docs, ?_⟩
  rw [encode, Value.encode, hdocs]
  rfl

theorem IsExact.eq_of_encodeFields_eq {docs : List (String × Json)} (hc : c.IsExact)
    (hd : d.IsExact) (h : Value.encodeFields c = .ok docs) (h' : Value.encodeFields d = .ok docs) :
    c = d := by
  induction c generalizing d docs with
  | nil =>
      obtain rfl := Except.ok.inj h
      cases d with
      | nil => rfl
      | cons field rest =>
          obtain ⟨j, js, -, -, hdocs⟩ := Value.encodeFields_cons_eq_ok h'
          cases hdocs
  | cons field rest ih =>
      obtain ⟨j, js, hj, hjs, rfl⟩ := Value.encodeFields_cons_eq_ok h
      cases d with
      | nil => cases h'
      | cons field' rest' =>
          obtain ⟨j', js', hj', hjs', hdocs⟩ := Value.encodeFields_cons_eq_ok h'
          obtain ⟨⟨hname, rfl⟩, rfl⟩ := List.cons_eq_cons.mp hdocs |>.imp Prod.mk.inj id
          have hvalue := Value.eq_of_encode_eq (hc field List.mem_cons_self)
            (hd field' List.mem_cons_self) hj hj'
          have hrest := ih (fun f hf => hc f (List.mem_cons_of_mem _ hf))
            (fun f hf => hd f (List.mem_cons_of_mem _ hf)) hjs hjs'
          rw [Prod.ext hname hvalue, hrest]

theorem IsExact.exists_encode (hc : c.IsExact) : ∃ j, c.encode = .ok j ∧ c.key = j.compact := by
  obtain ⟨j, hencode⟩ := Candidate.exists_encode fun field hfield =>
    Value.exists_encode (hc field hfield)
  exact ⟨j, hencode, by rw [key, hencode]⟩

theorem IsExact.legible {j : Json} (hc : c.IsExact) (h : c.encode = .ok j) : j.legible = j := by
  obtain ⟨docs, hdocs, rfl⟩ := encode_eq_ok h
  rw [Json.legible, Json.legibleFields_eq]
  refine congrArg Json.object ((List.map_congr_left fun doc hdoc => ?_).trans (List.map_id' docs))
  obtain ⟨field, hfield, hencode⟩ := Value.mem_encodeFields hdocs doc hdoc
  have hexact := hc field hfield
  rw [Value.legible_encode (Value.isFlat_of_isExact hexact) (Value.isAmbiguous_of_isExact hexact)
    hencode]

theorem IsExact.eq_of_encode_eq {j : Json} (hc : c.IsExact) (hd : d.IsExact) (h : c.encode = .ok j)
    (h' : d.encode = .ok j) : c = d := by
  obtain ⟨docs, hdocs, rfl⟩ := encode_eq_ok h
  obtain ⟨docs', hdocs', heq⟩ := encode_eq_ok h'
  obtain rfl := Json.object.inj heq
  exact hc.eq_of_encodeFields_eq hd hdocs hdocs'

end Candidate

/-- The identity and the candidate can be told from a scoped key. -/
theorem Runner.eq_of_scopedKey_eq {identity identity' : String} {c d : Candidate} (hc : c.IsExact)
    (hd : d.IsExact) (h : scopedKey identity c.key = scopedKey identity' d.key) :
    identity = identity' ∧ c = d := by
  obtain ⟨j, hj, hkey⟩ := hc.exists_encode
  obtain ⟨k, hk, hkey'⟩ := hd.exists_encode
  have hfits := hc.isFlat.fits hj 9998
  have hfits' := hd.isFlat.fits hk 9998
  have hchars : identity.toList ++ '|' :: j.chars = identity'.toList ++ '|' :: k.chars := by
    have htext := congrArg String.toList h
    rw [scopedKey, scopedKey, hkey, hkey'] at htext
    simpa [Json.chars] using htext
  obtain ⟨hfront, htext⟩ := Json.append_bar_injective hfits hfits' hchars
  have hlegible := Json.compact_injective hfits hfits' (String.toList_inj.mp htext)
  rw [hc.legible hj, hd.legible hk] at hlegible
  subst hlegible
  exact ⟨String.toList_inj.mp hfront, hc.eq_of_encode_eq hd hj hk⟩

/-! ## Candidates by name -/

/-- A mapping has the values of the fields that it is made of. -/
theorem lookup_mappingOf_eq {α : Type} {fields : List (String × α)}
    (hnodup : (fields.map (·.1)).Nodup) (name : String) :
    (mappingOf fields).lookup name = fields.lookup name := by
  cases hname : fields.lookup name with
  | none =>
      have habsent : name ∉ fields.map (·.1) := by
        intro hmem
        obtain ⟨field, hfield, rfl⟩ := List.mem_map.mp hmem
        exact absurd (List.lookup_eq_none_iff.mp hname field hfield) (by simp)
      exact lookup_foldl_insertField fields [] habsent
  | some value =>
      obtain ⟨front, back, rfl, -⟩ := List.lookup_eq_some_iff.mp hname
      exact lookup_mappingOf hnodup (List.mem_append_right front List.mem_cons_self)

/-- Whatever stands in the identities, two scoped keys are equal only if the identities are and the
candidates have the same value, or none, for every name. -/
theorem Runner.scopedKey_separates {identity identity' : String} {fields fields' : List (String × Value)}
    (hnames : (fields.map (·.1)).Nodup) (hnames' : (fields'.map (·.1)).Nodup)
    (hvalues : ∀ field ∈ fields, field.2.isExact = true)
    (hvalues' : ∀ field ∈ fields', field.2.isExact = true)
    (h : scopedKey identity (Candidate.key (mappingOf fields)) =
      scopedKey identity' (Candidate.key (mappingOf fields'))) :
    identity = identity' ∧ ∀ name, fields.lookup name = fields'.lookup name := by
  have hexact : Candidate.IsExact (mappingOf fields) := fun field hfield =>
    hvalues field (mem_mappingOf hfield)
  have hexact' : Candidate.IsExact (mappingOf fields') := fun field hfield =>
    hvalues' field (mem_mappingOf hfield)
  obtain ⟨hidentity, hmapping⟩ := eq_of_scopedKey_eq hexact hexact' h
  refine ⟨hidentity, fun name => ?_⟩
  rw [← lookup_mappingOf_eq hnames, hmapping, lookup_mappingOf_eq hnames']

/-- A text and a list whose names and values hold bars, quotes and brackets. -/
def barred : List (String × Value) :=
  [("y|", .text "|\x7b\"x\":[1,2]\x7d"), ("x", .ints [1, 2])]

/-- The order of the names does not matter to the key, and bars and quotes do not hide the identity. -/
theorem Runner.scopedKey_separates_barred :
    scopedKey "a|\x7b\"y|\":\"|" (Candidate.key (mappingOf barred)) =
        scopedKey "a|\x7b\"y|\":\"|" (Candidate.key (mappingOf barred.reverse)) ∧
      ∀ name, barred.lookup name = barred.reverse.lookup name := by
  have hkeys : scopedKey "a|\x7b\"y|\":\"|" (Candidate.key (mappingOf barred)) =
      scopedKey "a|\x7b\"y|\":\"|" (Candidate.key (mappingOf barred.reverse)) := by
    decide
  have hexact : ∀ field ∈ barred, field.2.isExact = true := by
    simp [barred, Value.isExact]
  exact ⟨hkeys, (scopedKey_separates (by decide) (by decide) hexact
    (fun field hfield => hexact field (List.mem_reverse.mp hfield)) hkeys).2⟩

/-! ## Candidates of spaces -/

/-- The atoms of every choice can be told from their documents. -/
def Space.IsExact (s : Space) : Prop :=
  ∀ p ∈ s.parameters, ∀ choices, p.domain = .choice choices → ∀ v ∈ choices, v.isExact = true

theorem Individual.Suits.isExact {s : Space} {x : Individual} (hs : s.IsExact) (hx : x.Suits s) :
    x.candidate.IsExact := by
  intro field hfield
  obtain ⟨p, hp, g, hg, hvalue⟩ := hx.exists_gene hfield
  have hchoice := hs p hp
  rw [hvalue]
  generalize p.domain = domain at hg hchoice
  cases hg with
  | @choice choices c hc => exact hchoice choices rfl _ hc.mem_choices
  | discrete => rfl
  | permutation => rfl
  | factor => rfl

end Tuning
