import Tuning.Proofs.Gene.Domain
import Tuning.Proofs.Population.Search
import Tuning.Proofs.Value.Documents

/-! # Keys of individuals

Individuals of a space are told apart in two ways: by comparing genes, and by the key, which is the
compact document of the candidate. Same individuals have one key. Individuals with one key are the same
if they have documents and no date and no single-precision number shares its document with another
atom. -/

namespace Tuning

/-! ## Mappings -/

section Mapping

variable {α : Type}

theorem lookup_insertField (name key : String) (value : α) (fields : List (String × α)) :
    (insertField name value fields).lookup key =
      if key = name then some value else fields.lookup key := by
  induction fields with
  | nil => grind [insertField]
  | cons field rest ih =>
      obtain ⟨other, x⟩ := field
      rw [insertField]
      split_ifs <;> grind

/-- Later names leave the value of a name as it is. -/
theorem lookup_foldl_insertField (fields done : List (String × α)) {name : String}
    (h : name ∉ fields.map (·.1)) :
    (fields.foldl (fun done (name, value) => insertField name value done) done).lookup name =
      done.lookup name := by
  induction fields generalizing done with
  | nil => rfl
  | cons field rest ih =>
      rw [List.map_cons, List.mem_cons, not_or] at h
      rw [List.foldl_cons, ih _ h.2, lookup_insertField, if_neg h.1]

/-- Every name of a mapping stands for its value. -/
theorem lookup_mappingOf {fields : List (String × α)} (hnodup : (fields.map (·.1)).Nodup)
    {name : String} {value : α} (h : (name, value) ∈ fields) :
    (mappingOf fields).lookup name = some value := by
  unfold mappingOf
  generalize [] = done
  induction fields generalizing done with
  | nil => cases h
  | cons field rest ih =>
      rw [List.map_cons, List.nodup_cons] at hnodup
      rw [List.foldl_cons]
      rcases List.mem_cons.mp h with rfl | h
      · rw [lookup_foldl_insertField rest _ hnodup.1, lookup_insertField, if_pos rfl]
      · exact ih hnodup.2 h _

theorem mem_insertField {name : String} {value : α} {fields : List (String × α)}
    {field : String × α} (h : field ∈ insertField name value fields) :
    field = (name, value) ∨ field ∈ fields := by
  induction fields with
  | nil => simpa [insertField] using h
  | cons other rest ih =>
      rw [insertField] at h
      split_ifs at h <;> grind

theorem mem_mappingOf {fields : List (String × α)} {field : String × α}
    (h : field ∈ mappingOf fields) : field ∈ fields := by
  have hfold : ∀ (fields done : List (String × α)),
      field ∈ fields.foldl (fun done (name, value) => insertField name value done) done →
        field ∈ done ∨ field ∈ fields := by
    intro fields
    induction fields with
    | nil => exact fun done h => .inl h
    | cons next rest ih =>
        intro done h
        rcases ih _ h with h | h
        · rcases mem_insertField h with rfl | h
          · exact .inr List.mem_cons_self
          · exact .inl h
        · exact .inr (List.mem_cons_of_mem _ h)
  simpa using hfold fields [] h

end Mapping

/-! ## Documents of candidates -/

namespace Value

/-- The document of a mapping has the documents of the values by name. -/
theorem lookup_encodeFields {fields : List (String × Value)} {docs : List (String × Json)}
    (h : encodeFields fields = .ok docs) {name : String} {v : Value}
    (hv : fields.lookup name = some v) : ∃ j, v.encode = .ok j ∧ docs.lookup name = some j := by
  induction fields generalizing docs with
  | nil => simp at hv
  | cons field rest ih =>
      obtain ⟨other, w⟩ := field
      obtain ⟨j, js, hj, hjs, rfl⟩ := encodeFields_cons_eq_ok h
      by_cases hname : name = other
      · subst hname
        obtain rfl : w = v := by simpa using hv
        exact ⟨j, hj, by simp⟩
      · have hne : (name == other) = false := by simpa using hname
        simp only [List.lookup_cons, hne] at hv ⊢
        exact ih hjs hv

theorem mem_encodeFields {fields : List (String × Value)} {docs : List (String × Json)}
    (h : encodeFields fields = .ok docs) :
    ∀ doc ∈ docs, ∃ field ∈ fields, field.2.encode = .ok doc.2 := by
  induction fields generalizing docs with
  | nil =>
      obtain rfl := Except.ok.inj h
      simp
  | cons field rest ih =>
      obtain ⟨j, js, hj, hjs, rfl⟩ := encodeFields_cons_eq_ok h
      intro doc hdoc
      rcases List.mem_cons.mp hdoc with rfl | hdoc
      · exact ⟨field, List.mem_cons_self, hj⟩
      · obtain ⟨field', hmem, hencode⟩ := ih hjs doc hdoc
        exact ⟨field', List.mem_cons_of_mem _ hmem, hencode⟩

end Value

namespace Candidate

theorem encode_eq_ok {c : Candidate} {j : Json} (h : c.encode = .ok j) :
    ∃ docs, Value.encodeFields c = .ok docs ∧ j = .object docs := by
  unfold encode Value.encode at h
  obtain ⟨docs, hdocs, h⟩ := except_bind_eq_ok.mp h
  exact ⟨docs, hdocs, (Except.ok.inj h).symm⟩

/-- The values of a candidate that genes can hold. -/
def IsFlat (c : Candidate) : Prop :=
  ∀ field ∈ c, field.2.isAtom = true ∨ ∃ xs, field.2 = .ints xs

theorem IsFlat.fits_fields {c : Candidate} (hc : c.IsFlat) {docs : List (String × Json)}
    (h : Value.encodeFields c = .ok docs) (depth : Nat) :
    ∀ doc ∈ docs, Json.Fits (depth + 1) doc.2 := by
  intro doc hdoc
  obtain ⟨field, hfield, hencode⟩ := Value.mem_encodeFields h doc hdoc
  exact Value.fits_encode (hc field hfield) hencode depth

theorem IsFlat.fits {c : Candidate} (hc : c.IsFlat) {j : Json} (h : c.encode = .ok j) (depth : Nat) :
    Json.Fits (depth + 2) j := by
  obtain ⟨docs, hdocs, rfl⟩ := encode_eq_ok h
  exact .object (hc.fits_fields hdocs depth)

/-- A key that is a document belongs to candidates only that have a document with this text. -/
theorem exists_encode_of_key_eq {c d : Candidate} (h : c.key = d.key) {j : Json}
    (hj : c.encode = .ok j) : ∃ k, d.encode = .ok k ∧ j.compact = k.compact := by
  have hkey : c.key = j.compact := by rw [key, hj]
  cases hk : d.encode with
  | ok k =>
      have hkey' : d.key = k.compact := by rw [key, hk]
      exact ⟨k, rfl, by rw [← hkey, h, hkey']⟩
  | error e =>
      -- the text that stands in for a document does not begin with a bracket
      have hkey' : d.key = (Value.map d).message := by rw [key, hk]
      obtain ⟨docs, -, rfl⟩ := encode_eq_ok hj
      rw [hkey, hkey', Json.compact, Value.message] at h
      have hfirst := congrArg (·.toList.head?) h
      simp at hfirst

/-- Candidates with one key have values with documents of one text, name by name. -/
theorem forall₂_of_key_eq {c d : Candidate} (hc : c.IsFlat) (hd : d.IsFlat) (h : c.key = d.key)
    {docs : List (String × Json)} (hdocs : Value.encodeFields c = .ok docs) :
    ∃ docs', Value.encodeFields d = .ok docs' ∧ List.Forall₂ Json.SameText docs docs' := by
  have hj : c.encode = .ok (.object docs) := by
    rw [encode, Value.encode, hdocs]
    rfl
  obtain ⟨k, hk, htext⟩ := exists_encode_of_key_eq h hj
  obtain ⟨docs', hdocs', rfl⟩ := encode_eq_ok hk
  exact ⟨docs', hdocs', Json.forall₂_of_compact_eq (hc.fits_fields hdocs 0)
    (hd.fits_fields hdocs' 0) htext⟩

end Candidate

/-! ## Genes -/

/-- The order of a permutation can be told from its machine integers. -/
theorem Permutation.Of.order_eq {n : Nat} {p : Permutation} (h : p.Of n) (hn : n ≤ 2 ^ 63) :
    p.value.map (·.toInt.toNat) = p.order := by
  rw [Permutation.value, List.map_map]
  refine (List.map_congr_left fun k hk => ?_).trans (List.map_id' _)
  have hlt : k < n := List.mem_range.mp (h.mem_iff.mp hk)
  have hcast : (Int64.ofNat k).toInt = k := Int64.toInt_ofNat_of_lt (by omega)
  rw [Function.comp_apply, hcast, Int.toNat_natCast]

theorem ints_injective {xs ys : List Int64} {j : Json} (hx : (Value.ints xs).encode = .ok j)
    (hy : (Value.ints ys).encode = .ok j) : xs = ys := by
  have harray := Except.ok.inj (hx.trans hy.symm)
  refine List.map_injective_iff.mpr (fun m n h => ?_) (Json.array.inj harray)
  exact Int64.toInt_inj.mp (toString_int_injective (Json.number.inj h))

namespace Domain

/-- No date, no single-precision atom and no text that is not Unicode is written like an atom that it is
not the same as. -/
def Unambiguous : Domain → Prop
  | .choice choices =>
    ∀ u ∈ Choice.distinct choices, ∀ v ∈ Choice.distinct choices, u.isAmbiguous = true →
      ∀ j k, u.encode = .ok j → v.encode = .ok k → j.compact = k.compact → u.same v = true
  | _ => True

variable {d : Domain} {g h : Gene}

theorem Suits.isFlat (hg : d.Suits g) : g.value.isAtom = true ∨ ∃ xs, g.value = .ints xs := by
  cases hg with
  | choice hc => exact .inl (hc.isAtom _ hc.mem_choices)
  | discrete => exact .inl rfl
  | permutation _ => exact .inr ⟨_, rfl⟩
  | factor => exact .inr ⟨_, rfl⟩

/-- Same genes hold one value. -/
theorem Suits.value_eq (hg : d.Suits g) (hh : d.Suits h) (hsame : g.same h = true) :
    g.value = h.value := by
  cases hg with
  | choice hc => cases hh with | choice hd => exact hc.value_eq hd hsame
  | discrete => cases hh with | discrete => exact congrArg Value.int (beq_iff_eq.mp hsame)
  | permutation _ =>
      cases hh with
      | permutation _ =>
          exact congrArg (fun order => Value.ints (order.map Int64.ofNat)) (beq_iff_eq.mp hsame)
  | factor => cases hh with | factor => exact congrArg Value.ints (beq_iff_eq.mp hsame)

/-- Values other than atoms of choices can be told from their documents. -/
theorem Suits.isAmbiguous_eq_false (hg : d.Suits g) (hd : ∀ choices, d ≠ .choice choices) :
    g.value.isAmbiguous = false := by
  cases hg with
  | @choice choices _ _ => exact absurd rfl (hd choices)
  | discrete | permutation | factor => rfl

/-- Genes whose values have one document are the same, unless they are of a choice. -/
theorem Suits.same_of_encode_eq (hd : ∀ choices, d ≠ .choice choices) (hg : d.Suits g)
    (hh : d.Suits h) {j : Json} (hgj : g.value.encode = .ok j) (hhj : h.value.encode = .ok j) :
    g.same h = true := by
  cases hg with
  | @choice choices _ _ => exact absurd rfl (hd choices)
  | @discrete _ m =>
      cases hh with
      | @discrete _ n =>
          have hjson := Except.ok.inj (hgj.trans hhj.symm)
          have hint := Int64.toInt_inj.mp (toString_int_injective (Json.number.inj hjson))
          exact beq_iff_eq.mpr hint
  | @permutation size p hp =>
      cases hh with
      | @permutation _ q hq =>
          have hsize : size.toInt.toNat ≤ 2 ^ 63 := by
            have := size.toInt_lt
            omega
          refine beq_iff_eq.mpr ?_
          rw [← hp.order_eq hsize, ← hq.order_eq hsize, ints_injective hgj hhj]
  | factor => cases hh with | factor => exact beq_iff_eq.mpr (ints_injective hgj hhj)

/-- Genes whose values have documents of one text are the same. -/
theorem Suits.same_of_compact_eq (hd : d.Unambiguous) (hg : d.Suits g) (hh : d.Suits h) {j k : Json}
    (hgj : g.value.encode = .ok j) (hhk : h.value.encode = .ok k) (htext : j.compact = k.compact) :
    g.same h = true := by
  by_cases hchoice : ∃ choices, d = .choice choices
  · obtain ⟨choices, rfl⟩ := hchoice
    cases hg with
    | @choice _ c hc =>
        cases hh with
        | @choice _ e he =>
            have hcmem : c.value ∈ Choice.distinct choices := hc.atoms_eq ▸ hc.value_mem
            have hemem : e.value ∈ Choice.distinct choices := he.atoms_eq ▸ he.value_mem
            have hcatom := hc.isAtom _ hc.mem_choices
            have heatom := he.isAtom _ he.mem_choices
            change c.value.same e.value = true
            by_cases hcamb : c.value.isAmbiguous = true
            · exact hd _ hcmem _ hemem hcamb j k hgj hhk htext
            by_cases heamb : e.value.isAmbiguous = true
            · rw [Value.same_comm]
              exact hd _ hemem _ hcmem heamb k j hhk hgj htext.symm
            have hcclear := Bool.eq_false_iff.mpr hcamb
            have heclear := Bool.eq_false_iff.mpr heamb
            obtain rfl := Value.encode_eq_of_compact_eq (.inl hcatom) (.inl heatom) hcclear heclear
              hgj hhk htext
            exact Value.same_of_encode_eq hcatom heatom hcclear heclear hgj hhk
  · have hother := not_exists.mp hchoice
    obtain rfl := Value.encode_eq_of_compact_eq hg.isFlat hh.isFlat (hg.isAmbiguous_eq_false hother)
      (hh.isAmbiguous_eq_false hother) hgj hhk htext
    exact hg.same_of_encode_eq hother hh hgj hhk

end Domain

/-! ## Individuals -/

/-- The names of an accepted space differ. -/
theorem Space.nodup_names {s : Space} (h : s.validate = .ok ()) : s.names.Nodup := by
  have hcheck : ∀ (ps : List Parameter) (index : Nat) (seen : List String),
      checkFrom index seen ps = .ok () → (ps.map (·.name)).Nodup ∧ ∀ p ∈ ps, p.name ∉ seen := by
    intro ps
    induction ps with
    | nil => exact fun _ _ _ => ⟨.nil, by simp⟩
    | cons p ps ih =>
        intro index seen h
        rw [checkFrom] at h
        split_ifs at h with hname hseen
        obtain ⟨hnodup, hnew⟩ := ih _ _ h
        refine ⟨List.nodup_cons.mpr ⟨fun hmem => ?_, hnodup⟩, fun q hq => ?_⟩
        · obtain ⟨q, hq, hqp⟩ := List.mem_map.mp hmem
          exact hnew q hq (by simp [hqp])
        · rcases List.mem_cons.mp hq with rfl | hq
          · exact hseen
          · exact fun hmem => hnew q hq (List.mem_cons_of_mem _ hmem)
  unfold validate at h
  split at h
  · cases h
  · exact (hcheck s.parameters 0 [] h).1

namespace Individual

/-- The candidate has a document. -/
def HasDocument (x : Individual) : Prop :=
  ∃ j, x.candidate.encode = .ok j

/-- The genes are of the kinds of the domains of a space. -/
abbrev Suits (s : Space) (x : Individual) : Prop :=
  x.Matches (fun p g => p.domain.Suits g) s

variable {s : Space} {x y : Individual}

/-- Every value of a candidate is that of a gene. -/
theorem Suits.exists_gene (hx : x.Suits s) {field : String × Value} (h : field ∈ x.candidate) :
    ∃ p ∈ s.parameters, ∃ g : Gene, p.domain.Suits g ∧ field.2 = g.value := by
  obtain ⟨⟨name, g⟩, hg, rfl⟩ := List.mem_map.mp (mem_mappingOf h)
  obtain ⟨i, hi⟩ := List.mem_iff_get.mp hg
  have hlt : i.val < s.parameters.length := by
    rw [hx.length_eq]
    exact i.isLt
  have hsuits := (hx.get hlt i.isLt).2
  rw [hi] at hsuits
  exact ⟨_, List.get_mem _ _, g, hsuits, rfl⟩

theorem Suits.isFlat (hx : x.Suits s) : x.candidate.IsFlat := by
  intro field hfield
  obtain ⟨p, -, g, hg, hvalue⟩ := hx.exists_gene hfield
  rw [hvalue]
  exact hg.isFlat

/-- Individuals are the same if the genes of each name are. -/
theorem same_of_genes (hx : x.Suits s) (hy : y.Suits s)
    (h : ∀ p ∈ s.parameters, ∀ (name : String) (g k : Gene), (name, g) ∈ x.genes →
      (name, k) ∈ y.genes → p.domain.Suits g → p.domain.Suits k → g.same k = true) :
    x.same y = true := by
  unfold same
  unfold Suits Matches at hx hy
  generalize x.genes = xs at hx h
  generalize y.genes = ys at hy h
  generalize s.parameters = ps at hx hy h
  induction hx generalizing ys with
  | nil =>
      cases hy
      rfl
  | @cons p named ps xs hg _ ih =>
      cases hy with
      | @cons _ named' _ ys hh hys =>
          have hname : named.1 = named'.1 := hg.1.trans hh.1.symm
          have hsame := h p (by simp) named.1 named.2 named'.2 (by simp) (by simp [hname]) hg.2 hh.2
          have hrest := ih ys hys fun q hq name g k hgx hky =>
            h q (by simp [hq]) name g k (by simp [hgx]) (by simp [hky])
          rw [sameGenes, hname, hsame, hrest]
          simp

/-- The genes of a name hold a value with the document of that name. -/
theorem Suits.lookup_encodeFields (hx : x.Suits s) (hnames : s.names.Nodup)
    {docs : List (String × Json)} (h : Value.encodeFields x.candidate = .ok docs) {name : String}
    {g : Gene} (hg : (name, g) ∈ x.genes) :
    ∃ j, g.value.encode = .ok j ∧ docs.lookup name = some j := by
  have hnodup : ((x.genes.map fun named => (named.1, named.2.value)).map (·.1)).Nodup := by
    have := hx.names_eq ▸ hnames
    simpa [names, Function.comp_def] using this
  refine Value.lookup_encodeFields h (lookup_mappingOf hnodup ?_)
  exact List.mem_map.mpr ⟨(name, g), hg, rfl⟩

theorem same_of_key_eq (hs : ∀ p ∈ s.parameters, p.domain.Unambiguous) (hnames : s.names.Nodup)
    (hx : x.Suits s) (hy : y.Suits s) (hdoc : x.HasDocument) (h : x.key = y.key) :
    x.same y = true := by
  obtain ⟨j, hj⟩ := hdoc
  obtain ⟨docs, hdocs, rfl⟩ := Candidate.encode_eq_ok hj
  obtain ⟨docs', hdocs', htexts⟩ := Candidate.forall₂_of_key_eq hx.isFlat hy.isFlat h hdocs
  refine same_of_genes hx hy fun p hp name g k hg hk hgs hks => ?_
  obtain ⟨j, hgj, hname⟩ := hx.lookup_encodeFields hnames hdocs hg
  obtain ⟨j', hkj, hname'⟩ := hy.lookup_encodeFields hnames hdocs' hk
  exact hgs.same_of_compact_eq (hs p hp) hks hgj hkj (Json.compact_eq_of_lookup htexts hname hname')

/-- What is not a number, and a number. -/
def undefinedOrOne : Space :=
  ⟨[{ name := "atom", domain := .choice [.float (0.0 / 0.0), .int 1] }]⟩

/-- Two texts of one byte each that spells no character, to start with. -/
def strayBytes : Space :=
  ⟨[{ name := "atom"
      domain := .choice [.garbled ⟨[0xFF], by decide⟩, .garbled ⟨[0xFE], by decide⟩]
      seeds := [.garbled ⟨[0xFF], by decide⟩, .garbled ⟨[0xFE], by decide⟩] }]⟩

end Individual

end Tuning
