import Tuning.Proofs.Json.Depth
import Tuning.Proofs.Time.Calendar
import Tuning.Proofs.Value.Normal
import Tuning.Report.Basic

/-! # Reports and their documents

The document of a report reads back as the report with its candidates in normal form, and so does its
text, which documents that are too deep do not have. -/

namespace Tuning

namespace Json

theorem word?_int (n : Int64) : word? (.int n.toInt) = some n := by
  have := n.toInt_lt
  have := n.le_toInt
  rw [int, word?, readInt?_toString, Option.bind_some, wordOfInt?, if_pos (by omega),
    Int64.ofInt_toInt]

theorem float?_float {x : Float} (hx : (x.isNaN || x.isInf) = false) : float? (.float x) = some x :=
  readFloat?_documentNumber hx

/-! ## Fields -/

section Records

variable {σ : Type} (name : String)

@[simp] theorem Field.of_name {α : Type} (read : Json → Option α) (set : α → σ → σ) :
    (Field.of name read set).name = name :=
  rfl

@[simp] theorem Field.of_read_string (set : String → σ → σ) (x : String) (s : σ) :
    (Field.of name string? set).read (.string x) s = some (set x s) :=
  rfl

@[simp] theorem Field.of_read_bool (set : Bool → σ → σ) (b : Bool) (s : σ) :
    (Field.of name bool? set).read (.bool b) s = some (set b s) :=
  rfl

@[simp] theorem Field.of_read_int (set : Int64 → σ → σ) (n : Int64) (s : σ) :
    (Field.of name word? set).read (.int n.toInt) s = some (set n s) := by
  change (word? (.int n.toInt)).map (set · s) = _
  rw [word?_int]
  rfl

theorem Field.of_read_float (set : Float → σ → σ) {x : Float} (hx : (x.isNaN || x.isInf) = false)
    (s : σ) : (Field.of name float? set).read (.float x) s = some (set x s) := by
  change (float? (.float x)).map (set · s) = _
  rw [float?_float hx]
  rfl

theorem Field.of_read_instant (set : Instant → σ → σ) {text : String} {t : Instant}
    (h : Instant.parse? text = some t) (s : σ) :
    (Field.of name instant? set).read (.string text) s = some (set t s) := by
  change ((string? (.string text)).bind Instant.parse?).map (set · s) = _
  rw [string?, Option.bind_some, h]
  rfl

@[simp] theorem Field.record_name {τ : Type} (known : List (Field τ)) (get : σ → τ)
    (set : τ → σ → σ) : (Field.record name known get set).name = name :=
  rfl

@[simp] theorem Field.record_read {τ : Type} (known : List (Field τ)) (get : σ → τ)
    (set : τ → σ → σ) (j : Json) (s : σ) :
    (Field.record name known get set).read j s = (readRecord known j (get s)).map (set · s) :=
  rfl

@[simp] theorem Field.within_read {τ : Type} (get : σ → τ) (set : τ → σ → σ) (f : Field τ) (j : Json)
    (s : σ) : (Field.within get set f).read j s = (f.read j (get s)).map (set · s) :=
  rfl

theorem readFields_append (known : List (Field σ)) (xs ys : List (String × Json)) (s : σ) :
    readFields known (xs ++ ys) s = (readFields known xs s).bind (readFields known ys) := by
  induction xs generalizing s with
  | nil => rfl
  | cons x xs ih =>
      rw [List.cons_append, readFields, readFields]
      cases findField? known x.1 with
      | none => exact ih s
      | some f =>
          rw [Option.bind_assoc]
          exact Option.bind_congr fun s' _ => ih s'

theorem findField?_map_within {τ : Type} (get : σ → τ) (set : τ → σ → σ) (fields : List (Field τ)) :
    findField? (fields.map (.within get set)) name =
      (findField? fields name).map (.within get set) := by
  have hname (f : Field τ) : (Field.within get set f).name = f.name := rfl
  simp only [findField?, List.find?_map, Function.comp_def, hname, Option.map_or]

/-- The items of a list that was not read before. -/
theorem readItems_of_forall₂ {τ : Type} {known : List (Field τ)} {fresh : τ} {docs : List Json}
    {items : List τ} (h : List.Forall₂ (fun j x => readRecord known j fresh = some x) docs items) :
    readItems known fresh docs [] = some (items, []) := by
  induction h with
  | nil => rfl
  | cons hj _ ih =>
      rw [readItems, List.headD_nil, hj, List.tail_nil, ih]
      rfl

end Records

end Json

theorem encodeInstant_eq_ok {t : Instant} {j : Json} (h : encodeInstant t = .ok j) :
    ∃ s, j = .string s ∧ t.document? = some s := by
  unfold encodeInstant at h
  split at h
  · next s hs => exact ⟨s, (Except.ok.inj h).symm, hs⟩
  · cases h

/-- Documents that are made one after another. -/
theorem forall₂_of_mapM {ε α β : Type} {f : α → Except ε β} {xs : List α} {ys : List β}
    (h : xs.mapM f = .ok ys) : List.Forall₂ (fun x y => f x = .ok y) xs ys := by
  induction xs generalizing ys with
  | nil =>
      obtain rfl := Except.ok.inj h
      exact .nil
  | cons x xs ih =>
      rw [List.mapM_cons] at h
      obtain ⟨y, hy, h⟩ := except_bind_eq_ok.mp h
      obtain ⟨ys', hys, h⟩ := except_bind_eq_ok.mp h
      obtain rfl := Except.ok.inj h
      exact .cons hy (ih hys)

theorem exists_mem_of_mapM {ε α β : Type} {f : α → Except ε β} {xs : List α} {ys : List β}
    (h : xs.mapM f = .ok ys) {y : β} (hy : y ∈ ys) : ∃ x ∈ xs, f x = .ok y := by
  have hforall := forall₂_of_mapM h
  clear h
  induction hforall with
  | nil => cases hy
  | @cons x z xs ys hx _ ih =>
      rcases List.mem_cons.mp hy with rfl | hy
      · exact ⟨x, List.mem_cons_self, hx⟩
      · obtain ⟨x', hx', hfx⟩ := ih hy
        exact ⟨x', List.mem_cons_of_mem x hx', hfx⟩

/-! ## Parts of reports -/

theorem RunConfig.readRecord_encode {c : RunConfig} {j : Json} (h : c.encode = .ok j) :
    Json.readRecord RunConfig.fields j.legible {} = some c := by
  obtain ⟨spacePath, objective, mode, rounds, parents, offspring, rate, seed, workers, patience⟩ := c
  obtain ⟨k, hk, h⟩ := except_bind_eq_ok.mp h
  obtain ⟨hrate, rfl⟩ := encodeFloat_eq_ok hk
  obtain rfl := Except.ok.inj h
  by_cases hpath : spacePath = "" <;> by_cases hpatience : patience = 0 <;>
    simp [Json.legible, Json.legibleFields, Json.readRecord, Json.readFields, Json.findField?,
      RunConfig.fields, Json.field?, hpath, hpatience, Json.Field.of_read_float _ _ hrate]

/-- The numbers of a summary that has a document are finite. -/
theorem Stats.encode_eq_ok {s : Stats} {j : Json} (h : s.encode = .ok j) :
    ((s.mean.isNaN || s.mean.isInf) = false ∧ (s.stdDev.isNaN || s.stdDev.isInf) = false ∧
      (s.min.isNaN || s.min.isInf) = false ∧ (s.max.isNaN || s.max.isInf) = false) ∧
      j = .object [("count", .int s.count.toInt), ("mean", .float s.mean), ("stdDev", .float s.stdDev),
        ("min", .float s.min), ("max", .float s.max)] := by
  obtain ⟨a, ha, h⟩ := except_bind_eq_ok.mp h
  obtain ⟨b, hb, h⟩ := except_bind_eq_ok.mp h
  obtain ⟨c, hc, h⟩ := except_bind_eq_ok.mp h
  obtain ⟨d, hd, h⟩ := except_bind_eq_ok.mp h
  obtain ⟨hmean, rfl⟩ := encodeFloat_eq_ok ha
  obtain ⟨hdev, rfl⟩ := encodeFloat_eq_ok hb
  obtain ⟨hleast, rfl⟩ := encodeFloat_eq_ok hc
  obtain ⟨hmost, rfl⟩ := encodeFloat_eq_ok hd
  exact ⟨⟨hmean, hdev, hleast, hmost⟩, (Except.ok.inj h).symm⟩

theorem Stats.readRecord_encode {s : Stats} {j : Json} (h : s.encode = .ok j) :
    Json.readRecord Stats.fields j.legible {} = some s := by
  obtain ⟨⟨hmean, hdev, hleast, hmost⟩, rfl⟩ := encode_eq_ok h
  simp [Json.legible, Json.legibleFields, Json.readRecord, Json.readFields, Json.findField?,
    Stats.fields, Json.Field.of_read_float _ _ hmean, Json.Field.of_read_float _ _ hdev,
    Json.Field.of_read_float _ _ hleast, Json.Field.of_read_float _ _ hmost]

/-- The candidate that comes back from the document of a candidate. -/
def Candidate.normal (c : Candidate) : Candidate :=
  mappingOf (Value.normalFields c)

/-- A mapping read over none gives back the normal form of the candidate that was written. -/
theorem Candidate.read?_of_encodeMapping {c : Option Candidate} {j : Json}
    (h : encodeMapping c = .ok j) : Candidate.read? j.legible none = some (c.map Candidate.normal) := by
  cases c with
  | none =>
      obtain rfl := Except.ok.inj h
      rfl
  | some c =>
      obtain ⟨docs, hdocs, rfl⟩ := Candidate.encode_eq_ok h
      rw [Json.legible, Candidate.read?, Value.ofJson?_encode_all.2.1 c docs hdocs]
      rfl

/-- The measured candidate that comes back from the document of one. -/
def Scored.normal (s : Scored) : Scored :=
  { s with values := s.values.map Candidate.normal }

theorem Scored.encode_eq_ok {s : Scored} {j : Json} (h : s.encode = .ok j) :
    ∃ values, encodeMapping s.values = .ok values ∧ (s.fitness.isNaN || s.fitness.isInf) = false ∧
      j = .object [("values", values), ("fitness", .float s.fitness)] := by
  obtain ⟨values, hvalues, h⟩ := except_bind_eq_ok.mp h
  obtain ⟨k, hk, h⟩ := except_bind_eq_ok.mp h
  obtain ⟨hfitness, rfl⟩ := encodeFloat_eq_ok hk
  exact ⟨values, hvalues, hfitness, (Except.ok.inj h).symm⟩

theorem Scored.readRecord_encode {s : Scored} {j : Json} (h : s.encode = .ok j) :
    Json.readRecord Scored.fields j.legible {} = some s.normal := by
  obtain ⟨values, hvalues, hfitness, rfl⟩ := encode_eq_ok h
  have hread := Candidate.read?_of_encodeMapping hvalues
  simp [Json.legible, Json.legibleFields, Json.readRecord, Json.readFields, Json.findField?,
    Scored.fields, Json.Field.mapping, hread, Json.Field.of_read_float _ _ hfitness, Scored.normal]

/-! ## Reports -/

/-- The report that comes back from the document of a report. -/
def Report.normal (r : Report) : Report :=
  { r with best := r.best.normal, top := r.top.map Scored.normal }

/-- The documents of the parts of a report. -/
theorem Report.encode_eq_ok {r : Report} {j : Json} (h : r.encode = .ok j) :
    ∃ config best top stats started finished, r.config.encode = .ok config ∧
      r.best.encode = .ok best ∧ r.top.mapM Scored.encode = .ok top ∧ r.stats.encode = .ok stats ∧
      encodeInstant r.startedAt = .ok started ∧ encodeInstant r.finishedAt = .ok finished ∧
      j = .object
        ([("sessionId", .string r.sessionId), ("config", config), ("volume", .string r.volume),
          ("best", best)]
        ++ Json.field? (!top.isEmpty) "top" (.array top)
        ++ [("stats", stats), ("rounds", .int r.rounds.toInt), ("converged", .bool r.converged),
          ("evaluations", .int r.evaluations.toInt), ("failures", .int r.failures.toInt),
          ("startedAt", started), ("finishedAt", finished)]) := by
  obtain ⟨config, hconfig, h⟩ := except_bind_eq_ok.mp h
  obtain ⟨best, hbest, h⟩ := except_bind_eq_ok.mp h
  obtain ⟨top, htop, h⟩ := except_bind_eq_ok.mp h
  obtain ⟨stats, hstats, h⟩ := except_bind_eq_ok.mp h
  obtain ⟨started, hstarted, h⟩ := except_bind_eq_ok.mp h
  obtain ⟨finished, hfinished, h⟩ := except_bind_eq_ok.mp h
  exact ⟨config, best, top, stats, started, finished, hconfig, hbest, htop, hstats, hstarted,
    hfinished, (Except.ok.inj h).symm⟩

/-- Fields apart from the best candidates go to the report that is being read. -/
theorem Report.readFields_draft {docs : List (String × Json)}
    (h : ∀ f ∈ docs, Json.sameName "top" f.1 = false) (d : Draft) :
    Json.readFields Draft.fields docs d =
      (Json.readFields Report.fields docs d.report).map fun r => { d with report := r } := by
  induction docs generalizing d with
  | nil => rfl
  | cons f docs ih =>
      have hsame := h f List.mem_cons_self
      have hne : ("top" == f.1) = false := by
        rw [beq_eq_false_iff_ne]
        intro heq
        rw [← heq] at hsame
        revert hsame
        decide
      have hfind : Json.findField? Draft.fields f.1 = (Json.findField? Report.fields f.1).map
          (.within (·.report) fun x d => { d with report := x }) := by
        rw [← Json.findField?_map_within]
        simp only [Json.findField?, Draft.fields, List.find?_cons, Json.Field.records, hne, hsame]
      rw [Json.readFields, Json.readFields, hfind]
      cases Json.findField? Report.fields f.1 with
      | none => exact ih (fun g hg => h g (List.mem_cons_of_mem f hg)) d
      | some known =>
          simp only [Option.map_some, Json.Field.within_read, Option.bind_map, Option.map_bind]
          exact Option.bind_congr fun r _ => ih (fun g hg => h g (List.mem_cons_of_mem f hg)) _

/-- The best candidates that a report has go to the list that is being read. -/
theorem Report.readFields_top {top : List Json} {items : List Scored}
    (h : Json.readItems Scored.fields {} top [] = some (items, [])) (d : Report) :
    Json.readFields Draft.fields (Json.field? (!top.isEmpty) "top" (.array top)) { report := d } =
      some { report := d, top := { items } } := by
  cases top with
  | nil =>
      obtain rfl := (Prod.mk.inj (Option.some.inj h)).1
      rfl
  | cons j top =>
      simp [Json.readFields, Json.field?, Json.findField?, Draft.fields, Json.Field.records, h]

/-- The document of a report reads back as the normal form of the report. -/
theorem Report.ofJson?_encode {r : Report} {j : Json} (hstart : r.startedAt.Exact)
    (hfinish : r.finishedAt.Exact) (h : r.encode = .ok j) :
    Report.ofJson? j.legible = some r.normal := by
  obtain ⟨config, best, top, stats, started, finished, hconfig, hbest, htop, hstats, hstarted,
    hfinished, rfl⟩ := encode_eq_ok h
  obtain ⟨startText, rfl, hstartText⟩ := encodeInstant_eq_ok hstarted
  obtain ⟨finishText, rfl, hfinishText⟩ := encodeInstant_eq_ok hfinished
  have hstart := Instant.parse?_of_document? hstart hstartText
  have hfinish := Instant.parse?_of_document? hfinish hfinishText
  have hconfig := RunConfig.readRecord_encode hconfig
  have hbest := Scored.readRecord_encode hbest
  have hstats := Stats.readRecord_encode hstats
  have hitems : Json.readItems Scored.fields {} (Json.legibleItems top) [] =
      some (r.top.map Scored.normal, []) := by
    rw [Json.legibleItems_eq]
    refine Json.readItems_of_forall₂ (List.forall₂_map_left_iff.mpr (List.forall₂_map_right_iff.mpr ?_))
    exact (forall₂_of_mapM htop).flip.imp fun _ _ hscored => Scored.readRecord_encode hscored
  have hempty : top.isEmpty = (Json.legibleItems top).isEmpty := by
    rw [Json.legibleItems_eq, List.isEmpty_map]
  obtain ⟨front, hfront⟩ : ∃ front : Report, front =
    { sessionId := r.sessionId, config := r.config, volume := r.volume, best := r.best.normal } :=
    ⟨_, rfl⟩
  have hfirst : Json.readFields Report.fields (Json.legibleFields
      [("sessionId", .string r.sessionId), ("config", config), ("volume", .string r.volume),
        ("best", best)]) {} = some front := by
    simp [Json.legible, Json.legibleFields, Json.readFields, Json.findField?, Report.fields, hconfig,
      hbest, hfront]
  have hlast : Json.readFields Report.fields (Json.legibleFields
      [("stats", stats), ("rounds", .int r.rounds.toInt), ("converged", .bool r.converged),
        ("evaluations", .int r.evaluations.toInt), ("failures", .int r.failures.toInt),
        ("startedAt", .string startText), ("finishedAt", .string finishText)]) front =
      some { r.normal with top := [] } := by
    simp [Json.legible, Json.legibleFields, Json.readFields, Json.findField?, Report.fields, hstats,
      hfront, Json.Field.of_read_instant _ _ hstart, Json.Field.of_read_instant _ _ hfinish, normal]
  rw [Json.legible, Json.legibleFields_append, Json.legibleFields_append,
    Json.legibleFields_field?, Json.legible, hempty, Report.ofJson?, Json.readRecord,
    Json.readFields_append, Json.readFields_append,
    readFields_draft (by simp only [Json.legibleFields, List.forall_mem_cons]; decide), hfirst,
    Option.map_some, Option.bind_some, readFields_top hitems, Option.bind_some,
    readFields_draft (by simp only [Json.legibleFields, List.forall_mem_cons]; decide), hlast]
  rfl

/-! ## Depth -/

section Depth

open Json (Fits)

variable {depth : Nat}

theorem fits_encodeInstant {t : Instant} {j : Json} (h : encodeInstant t = .ok j) : Fits depth j := by
  obtain ⟨s, rfl, -⟩ := encodeInstant_eq_ok h
  exact .string s

theorem RunConfig.fits_encode {c : RunConfig} {j : Json} (h : c.encode = .ok j) :
    Fits (depth + 1) j := by
  obtain ⟨k, hk, h⟩ := except_bind_eq_ok.mp h
  obtain ⟨hrate, rfl⟩ := encodeFloat_eq_ok hk
  obtain rfl := Except.ok.inj h
  refine .object ?_
  by_cases hpath : c.spacePath = "" <;> by_cases hpatience : c.patience = 0 <;>
    simp [Json.field?, hpath, hpatience, Fits.string, fits_int, fits_float _ hrate]

theorem Stats.fits_encode {s : Stats} {j : Json} (h : s.encode = .ok j) : Fits (depth + 1) j := by
  obtain ⟨⟨hmean, hdev, hleast, hmost⟩, rfl⟩ := encode_eq_ok h
  refine .object ?_
  simp [fits_int, fits_float _ hmean, fits_float _ hdev, fits_float _ hleast, fits_float _ hmost]

theorem Scored.fits_encode {s : Scored} {j : Json}
    (hvalues : ∀ k, encodeMapping s.values = .ok k → Fits depth k) (h : s.encode = .ok j) :
    Fits (depth + 1) j := by
  obtain ⟨values, hk, hfitness, rfl⟩ := encode_eq_ok h
  refine .object ?_
  simp [hvalues values hk, fits_float _ hfitness]

/-- The document of a report is three levels deeper than those of its candidates. -/
theorem Report.fits_encode {r : Report} {j : Json}
    (hvalues : ∀ s ∈ r.best :: r.top, ∀ k, encodeMapping s.values = .ok k → Fits depth k)
    (h : r.encode = .ok j) : Fits (depth + 3) j := by
  obtain ⟨config, best, top, stats, started, finished, hconfig, hbest, htop, hstats, hstarted,
    hfinished, rfl⟩ := encode_eq_ok h
  have hbest := Scored.fits_encode (hvalues _ List.mem_cons_self) hbest
  have hitems : ∀ k ∈ top, Fits (depth + 1) k := by
    intro k hk
    obtain ⟨s, hs, hscored⟩ := exists_mem_of_mapM htop hk
    exact Scored.fits_encode (hvalues s (List.mem_cons_of_mem _ hs)) hscored
  refine .object ?_
  by_cases hempty : top = [] <;>
    simp [Json.field?, hempty, Fits.string, fits_int, Fits.bool, RunConfig.fits_encode hconfig,
      Stats.fits_encode hstats, hbest.succ, fits_encodeInstant hstarted, fits_encodeInstant hfinished,
      Fits.array hitems]

theorem exists_fits_encodeMapping {c : Option Candidate} {j : Json} (h : encodeMapping c = .ok j) :
    ∃ depth, Fits depth j := by
  cases c with
  | none =>
      obtain rfl := Except.ok.inj h
      exact ⟨0, .null⟩
  | some c => exact Value.exists_fits_all.1 (.map c) j h

theorem Scored.exists_fits_values (items : List Scored) :
    ∃ depth, ∀ s ∈ items, ∀ k, encodeMapping s.values = .ok k → Fits depth k := by
  induction items with
  | nil => exact ⟨0, by simp⟩
  | cons s items ih =>
      obtain ⟨depth, hdepth⟩ := ih
      cases hvalues : encodeMapping s.values with
      | error e => exact ⟨depth, List.forall_mem_cons.mpr ⟨by simp [hvalues], hdepth⟩⟩
      | ok j =>
          obtain ⟨depth', hj⟩ := exists_fits_encodeMapping hvalues
          refine ⟨max depth depth', List.forall_mem_cons.mpr ⟨fun k hk => ?_, fun s hs k hk => ?_⟩⟩
          · obtain rfl := Except.ok.inj (hvalues.symm.trans hk)
            exact hj.mono (le_max_right _ _)
          · exact (hdepth s hs k hk).mono (le_max_left _ _)

end Depth

/-! ## Texts -/

namespace Report

open Json (Fits maxDepth)

variable {r : Report} {document : Json} {text : String}

theorem text_eq_ok (h : r.text = .ok text) :
    ∃ document, r.encode = .ok document ∧ Fits maxDepth document ∧ text = document.indented := by
  obtain ⟨document, hdocument, h⟩ := except_bind_eq_ok.mp h
  split_ifs at h with hdepth
  obtain ⟨depth, hvalues⟩ := Scored.exists_fits_values (r.best :: r.top)
  have hfits := fits_encode hvalues hdocument
  exact ⟨document, hdocument, hfits.of_depth_le (not_lt.mp hdepth), (Except.ok.inj h).symm⟩

/-- The text of a report reads back as the normal form of the report. -/
theorem read_text (hstart : r.startedAt.Exact) (hfinish : r.finishedAt.Exact)
    (h : r.text = .ok text) : (Json.parse? text).bind ofJson? = some r.normal := by
  obtain ⟨document, hdocument, hfits, rfl⟩ := text_eq_ok h
  rw [Json.parse?_indented hfits, Option.bind_some]
  exact ofJson?_encode hstart hfinish hdocument

/-- A report with flat candidates has a text if it has a document. -/
theorem encode_eq_error_of_text (hflat : ∀ x ∈ r.best :: r.top, ∀ c ∈ x.values, c.IsFlat)
    {error : EncodeError} (h : r.text = .error error) : r.encode = .error error := by
  cases hencode : r.encode with
  | error e =>
      have htext : r.text = .error e := by
        rw [text, hencode]
        rfl
      exact congrArg _ (Except.error.inj (htext.symm.trans h))
  | ok document =>
      have hfits : Fits (9997 + 3) document := by
        refine fits_encode (fun x hx k hk => ?_) hencode
        cases hvalues : x.values with
        | none =>
            rw [hvalues] at hk
            obtain rfl := Except.ok.inj hk
            exact .null
        | some c =>
            rw [hvalues] at hk
            exact (hflat x hx c hvalues).fits hk 9995
      have htext : r.text = if maxDepth < document.depth then .error .tooDeep
          else .ok document.indented := by
        rw [text, hencode]
        rfl
      have hdepth : document.depth ≤ maxDepth := hfits.depth_le
      rw [htext, if_neg (not_lt.mpr hdepth)] at h
      cases h

end Report

end Tuning
