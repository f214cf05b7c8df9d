import Tuning.Proofs.Report.Documents
import Tuning.Proofs.Store.Traces

/-! # Stored reports and traces, read back

A report that was stored is loaded in its normal form, and the lines of a trace are those of its
entries. -/

namespace Tuning

open FileTree

/-! ## What actions fail with -/

/-- The errors that an action ends with on any tree. -/
def Fails {ε α : Type} (x : ExceptT ε (StateM FileTree) α) (E : ε → Prop) : Prop :=
  ∀ t error t', x.run t = (.error error, t') → E error

namespace Fails

variable {ε ε' α β : Type} {x : ExceptT ε (StateM FileTree) α} {E : ε → Prop}

theorem pure (a : α) : Fails (pure a : ExceptT ε (StateM FileTree) α) E := by
  intro t error t' h
  cases h

theorem throw {e : ε} (h : E e) : Fails (throw e : ExceptT ε (StateM FileTree) α) E := by
  intro t error t' hrun
  obtain ⟨rfl, -⟩ : e = error ∧ t = t' := by simpa using (Prod.mk.inj hrun).imp Except.error.inj id
  exact h

theorem bind {f : α → ExceptT ε (StateM FileTree) β} (hx : Fails x E) (hf : ∀ a, Fails (f a) E) :
    Fails (x >>= f) E := by
  intro t error t' h
  rw [FileAction.run_bind] at h
  split at h
  · next a t₁ _ => exact hf a t₁ error t' h
  · next e t₁ hrun =>
      obtain ⟨he, -⟩ := Prod.mk.inj h
      exact Except.error.inj he ▸ hx t e t₁ hrun

theorem get_bind {f : FileTree → ExceptT ε (StateM FileTree) β} (hf : ∀ t, Fails (f t) E) :
    Fails (get >>= f) E :=
  fun t error t' h => hf t t error t' h

theorem handled {handle : ε → ExceptT ε (StateM FileTree) α} {R : ε → Prop} (hx : Fails x R)
    (hhandle : ∀ e, R e → Fails (handle e) E) : Fails (tryCatch x handle) E := by
  intro t error t' h
  have hrun : (tryCatch x handle).run t = (match (x.run t).1 with
    | .ok a => (Pure.pure (.ok a) : StateM FileTree (Except ε α))
    | .error e => (handle e).run) (x.run t).2 := rfl
  rw [hrun] at h
  rcases hresult : x.run t with ⟨e | a, t₁⟩
  · rw [hresult] at h
    exact hhandle e (hx t e t₁ hresult) t₁ error t' h
  · rw [hresult] at h
    cases h

theorem any (x : ExceptT ε (StateM FileTree) α) : Fails x fun _ => True :=
  fun _ _ _ _ => trivial

theorem adapt {f : ε → ε'} {R : ε' → Prop} (hx : Fails x E) (h : ∀ e, E e → R (f e)) :
    Fails (ExceptT.adapt f x) R := by
  intro t error t' hadapt
  have hrun : (ExceptT.adapt f x).run t = ((x.run t).1.mapError f, (x.run t).2) := rfl
  rw [hrun] at hadapt
  rcases hresult : x.run t with ⟨e | a, t₁⟩
  · rw [hresult] at hadapt
    exact Except.error.inj (Prod.mk.inj hadapt).1 ▸ h e (hx t e t₁ hresult)
  · rw [hresult] at hadapt
    cases hadapt

/-- A step of a store fails with the step. -/
theorem files (step : FileStep) (action : FileAction α) :
    Fails (StoreAction.files step action) (· = .file step) :=
  .adapt (.any action) fun _ _ => rfl

theorem weaken {R : ε → Prop} (hx : Fails x E) (h : ∀ e, E e → R e) : Fails x R :=
  fun t error t' hrun => h error (hx t error t' hrun)

end Fails

/-- Why a store fails to save a report: the files, or a report without text. -/
def Report.Unsaved (report : Report) (error : StoreError) : Prop :=
  (∃ step, error = .file step) ∨ ∃ e, report.text = .error e ∧ error = .unencodable e

namespace Store

variable {s : Store} {id text : String} {t : FileTree}

theorem fails_save (s : Store) (hid : id ≠ "") (report : Report) :
    Fails (s.save id report) report.Unsaved := by
  have hfiles {α : Type} (step : FileStep) (action : FileAction α) :
      Fails (StoreAction.files step action) report.Unsaved :=
    (Fails.files step action).weaken fun _ h => .inl ⟨step, h⟩
  refine .bind ?_ fun _ => .bind (hfiles _ _) fun _ => ?_
  · rw [checkId, if_neg hid]
    exact .pure ()
  cases htext : report.text with
  | error e => exact .throw (.inr ⟨e, htext, rfl⟩)
  | ok text =>
      refine .bind (hfiles _ _) fun _ => ?_
      refine .handled (R := report.Unsaved) (hfiles _ _) fun error herror => ?_
      exact .bind (hfiles _ _) fun _ => .throw herror

/-! ## Saving and loading -/

theorem run_checkId (hid : id ≠ "") (t : FileTree) : (checkId id).run t = (.ok (), t) := by
  rw [checkId, if_neg hid]
  rfl

theorem run_files {α : Type} {action : FileAction α} {a : α} {t' : FileTree} (step : FileStep)
    (h : action.run t = (.ok a, t')) : (StoreAction.files step action).run t = (.ok a, t') := by
  change ((action.run t).1.mapError _, (action.run t).2) = _
  rw [h]
  rfl

theorem run_read {p : Path} (h : t.stat p = .ok (.file text)) :
    (FileAction.read p).run t = (.ok text, t) := by
  rw [FileAction.read, FileAction.run_bind, FileAction.run_look, h]
  rfl

/-- The steps in which a report is saved: the directory, the draft, the report, and the draft away. -/
theorem run_save {report : Report} {t₁ t₂ t₃ t₄ : FileTree} (hid : id ≠ "")
    (htext : report.text = .ok text)
    (hmade : (FileAction.makeDirectory (s.directory id)).run t = (.ok (), t₁))
    (hdraft : t₁.write (s.draftPath id) text = .ok t₂)
    (hwrite : t₂.write (s.reportPath id) text = .ok t₃)
    (hremove : t₃.remove (s.draftPath id) = .ok t₄) :
    (s.save id report).run t = (.ok (), t₄) := by
  have hplain : Path.isPlain "report.json.tmp" = true := by decide
  have hends : Ends (s.save id report) t (· = t₄) fun _ => False := by
    refine .bind_run (run_checkId hid t) (.bind_run (run_files _ hmade) ?_)
    rw [htext]
    refine .bind (R := (· = t₂)) (.adapt _ (.change_eq hdraft rfl)) fun _ t' ht' => ?_
    subst ht'
    refine .handled (R := fun _ => False) (.adapt _ ?_) fun _ _ hfalse => hfalse.elim
    refine .bind_run (run_read (stat_write hplain hdraft)) ?_
    refine .bind (R := (· = t₃)) (.change_eq hwrite rfl) fun _ t' ht' => ?_
    subst ht'
    exact .change_eq hremove rfl
  obtain ⟨⟨⟩, t', hrun, rfl⟩ := hends.exists_run
  exact hrun

/-- A report without text leaves the directory of its session. -/
theorem run_save_of_error {report : Report} {e : EncodeError} {t₁ : FileTree} (hid : id ≠ "")
    (htext : report.text = .error e)
    (hmade : (FileAction.makeDirectory (s.directory id)).run t = (.ok (), t₁)) :
    (s.save id report).run t = (.error (.unencodable e), t₁) := by
  rw [save, FileAction.run_bind, run_checkId hid]
  dsimp only
  rw [FileAction.run_bind, run_files _ hmade, htext]
  rfl

/-- A report that was saved is the file of the session. -/
theorem ends_save_report (s : Store) (id : String) (report : Report) (t : FileTree) :
    Ends (s.save id report) t
      (fun t' => ∃ text, report.text = .ok text ∧ s.Has id "report.json" text t')
      fun _ => True := by
  have hplain : Path.isPlain "report.json" = true := by decide
  have hplain' : Path.isPlain "report.json.tmp" = true := by decide
  have hany {ε α : Type} (x : ExceptT ε (StateM FileTree) α) (t : FileTree) :
      Ends x t (fun _ => True) fun _ => True := by
    unfold Ends
    split <;> trivial
  refine .bind (hany _ t) fun _ t₁ _ => .bind (hany _ t₁) fun _ t₂ _ => ?_
  split
  · exact .throw _ trivial
  · next text htext =>
      refine .bind (R := s.Has id "report.json.tmp" text)
        (.adapt _ (.change (fun t₃ h₃ => stat_write hplain' h₃) trivial)) fun _ t₃ h₃ => ?_
      refine .handled (R := fun _ => True) (.adapt _ ?_) fun error t₄ _ =>
        .bind (hany _ t₄) fun _ _ _ => .throw _ trivial
      refine .bind_run (run_read h₃) ?_
      refine .bind (R := s.HasDraft id "report.json" text text)
        (.change (fun t₄ h₄ => ⟨stat_write hplain h₄, ?_⟩) trivial) fun _ t₄ h₄ => ?_
      · exact stat_write_sibling hplain' hplain (by decide) h₃ h₄
      · refine .change (fun t₅ h₅ => ⟨text, htext, ?_⟩) trivial
        exact stat_remove_sibling hplain hplain' (by decide) h₄.1 h₄.2 h₅

/-- A file with the document of a report is loaded as the report that it reads back as. -/
theorem run_load (hid : id ≠ "") {report : Report} (h : s.Has id "report.json" text t)
    (hread : (Json.parse? text).bind Report.ofJson? = some report) :
    (s.load id).run t = (.ok report, t) := by
  have hfile : (FileAction.read (s.reportPath id)).run t = (.ok text, t) := run_read h
  rw [load, FileAction.run_bind, run_checkId hid]
  simp only
  rw [FileAction.run_get_bind]
  simp only [hfile, hread]
  rfl

/-- A report that was saved is loaded in its normal form, by every name that leads to its directory. -/
theorem load_of_save_same {other : String} (hother : other ≠ "")
    (hsame : s.directory id = s.directory other) {report : Report} {t' : FileTree}
    (hstart : report.startedAt.Exact) (hfinish : report.finishedAt.Exact)
    (h : (s.save id report).run t = (.ok (), t')) :
    (s.load other).run t' = (.ok report.normal, t') := by
  obtain ⟨text, htext, hfile⟩ := (s.ends_save_report id report t).of_ok (by rw [h])
  rw [h, Has, hsame] at hfile
  exact run_load hother hfile (Report.read_text hstart hfinish htext)

theorem load_of_save (hid : id ≠ "") {report : Report} {t' : FileTree}
    (hstart : report.startedAt.Exact) (hfinish : report.finishedAt.Exact)
    (h : (s.save id report).run t = (.ok (), t')) :
    (s.load id).run t' = (.ok report.normal, t') :=
  load_of_save_same hid rfl hstart hfinish h

end Store

/-! ## Files in the way -/

/-- The files of a session. -/
def Store.fileNames : List String :=
  ["trace.jsonl", "report.json", "report.json.tmp"]

/-- Nothing is in the way of the files of a session: its directory can be made, and each of them can be
written there. -/
def Store.Clear (s : Store) (id : String) (t : FileTree) : Prop :=
  ∃ t₁, (FileAction.makeDirectory (s.directory id)).run t = (.ok (), t₁) ∧
    ∀ name ∈ Store.fileNames, ∀ text, ∃ t₂, t₁.write (s.directory id ++ [name]) text = .ok t₂

namespace Store.Clear

variable {s : Store} {id : String} {t : FileTree}

theorem start (h : s.Clear id t) : ((Trace.start s id false).run t).1 = .ok () := by
  obtain ⟨t₁, hdirectory, hwrite⟩ := h
  have hends : Ends (Trace.start s id false) t (fun _ => True) fun _ => False := by
    refine .adapt _ (.bind_run (run_files _ hdirectory) (.get_bind (.adapt _ ?_)))
    obtain ⟨t₂, ht₂⟩ := hwrite "trace.jsonl" (by decide) _
    exact .change_eq ht₂ trivial
  obtain ⟨⟨⟩, t', hrun, -⟩ := hends.exists_run
  rw [hrun]

/-- A report is saved unless it has no text. -/
theorem save (h : s.Clear id t) (hid : id ≠ "") {report : Report} {text : String}
    (htext : report.text = .ok text) : ((s.save id report).run t).1 = .ok () := by
  have hplain : Path.isPlain "report.json" = true := by decide
  have hplain' : Path.isPlain "report.json.tmp" = true := by decide
  obtain ⟨t₁, hdirectory, hwrite⟩ := h
  obtain ⟨t₂, ht₂⟩ := hwrite "report.json.tmp" (by decide) text
  obtain ⟨u, hu⟩ := hwrite "report.json" (by decide) text
  obtain ⟨t₃, ht₃⟩ := exists_write_sibling hplain hplain' (by decide) hu ht₂
  have hdraft := stat_write_sibling hplain' hplain (by decide) (stat_write hplain' ht₂) ht₃
  obtain ⟨t₄, ht₄⟩ := exists_remove hplain' hdraft
  rw [run_save hid htext hdirectory ht₂ ht₃ ht₄]

/-- Only a report without text is not saved then. -/
theorem unsaved (h : s.Clear id t) (hid : id ≠ "") {report : Report} {error : StoreError}
    (hsave : ((s.save id report).run t).1 = .error error) :
    ∃ e, report.text = .error e ∧ error = .unencodable e := by
  cases htext : report.text with
  | ok text => cases hsave.symm.trans (h.save hid htext)
  | error e =>
      obtain ⟨t₁, hdirectory, -⟩ := h
      rw [run_save_of_error hid htext hdirectory] at hsave
      exact ⟨e, rfl, (Except.error.inj hsave).symm⟩

end Store.Clear

/-! ## Lines -/

open Json (Fits)

namespace TraceEntry

/-- What the document of an entry tells. -/
theorem encode_eq_ok {e : TraceEntry} {j : Json} (h : e.encode = .ok j) :
    ∃ candidate timestamp, encodeMapping e.candidate = .ok candidate ∧
      (e.fitness.isNaN || e.fitness.isInf) = false ∧ (e.best.isNaN || e.best.isInf) = false ∧
      encodeInstant e.timestamp = .ok timestamp ∧
      j = .object ([("round", .int e.round.toInt), ("evaluation", .int e.evaluation.toInt),
        ("candidate", candidate), ("fitness", .float e.fitness)]
        ++ Json.field? (e.error != "") "error" (.string e.error)
        ++ [("best", .float e.best), ("timestamp", timestamp)]) := by
  obtain ⟨candidate, hcandidate, h⟩ := except_bind_eq_ok.mp h
  obtain ⟨k, hk, h⟩ := except_bind_eq_ok.mp h
  obtain ⟨l, hl, h⟩ := except_bind_eq_ok.mp h
  obtain ⟨timestamp, htimestamp, h⟩ := except_bind_eq_ok.mp h
  obtain ⟨hfitness, rfl⟩ := encodeFloat_eq_ok hk
  obtain ⟨hbest, rfl⟩ := encodeFloat_eq_ok hl
  exact ⟨candidate, timestamp, hcandidate, hfitness, hbest, htimestamp, (Except.ok.inj h).symm⟩

theorem exists_fits {e : TraceEntry} {j : Json} (h : e.encode = .ok j) : ∃ depth, Fits depth j := by
  obtain ⟨candidate, timestamp, hcandidate, hfitness, hbest, htimestamp, rfl⟩ := encode_eq_ok h
  obtain ⟨depth, hdepth⟩ := exists_fits_encodeMapping hcandidate
  refine ⟨depth + 1, .object ?_⟩
  by_cases herror : e.error = "" <;>
    simp [Json.field?, herror, hdepth, Fits.string, fits_int, fits_float _ hfitness,
      fits_float _ hbest, fits_encodeInstant htimestamp]

theorem line_eq_ok {e : TraceEntry} {line : String} (h : e.line = .ok line) :
    ∃ j, e.encode = .ok j ∧ line.toList = j.chars ++ ['\n'] := by
  obtain ⟨j, hj, h⟩ := except_bind_eq_ok.mp h
  obtain rfl := Except.ok.inj h
  exact ⟨j, hj, String.toList_append⟩

end TraceEntry

namespace Trace

/-- Only the files keep a trace from being started. -/
theorem fails_start (s : Store) (id : String) (append : Bool) :
    Fails (start s id append) fun error => ∃ step, error = .store (.file step) := by
  have hfiles {α : Type} (step : FileStep) (action : FileAction α) :
      Fails (StoreAction.files step action) fun error => ∃ step, error = .file step :=
    (Fails.files step action).weaken fun _ h => ⟨step, h⟩
  refine .adapt (.bind (hfiles _ _) fun _ => .get_bind fun _ => hfiles _ _) fun error herror => ?_
  obtain ⟨step, rfl⟩ := herror
  exact ⟨step, rfl⟩

theorem splitFrom_append {cs : List Char} (h : '\n' ∉ cs) (current rest : List Char) :
    splitFrom current (cs ++ '\n' :: rest) = (current.reverse ++ cs) :: splitFrom [] rest := by
  induction cs generalizing current with
  | nil => cases current <;> simp [splitFrom]
  | cons c cs ih =>
      rw [List.mem_cons, not_or] at h
      have hc : c ≠ '\n' := Ne.symm h.1
      rw [List.cons_append, splitFrom, ih h.2]
      · simp
      · exact hc

theorem splitFrom_flatMap {lines : List (List Char)} (h : ∀ cs ∈ lines, '\n' ∉ cs) :
    splitFrom [] (lines.flatMap (· ++ ['\n'])) = lines := by
  induction lines with
  | nil => rfl
  | cons cs lines ih =>
      obtain ⟨hcs, hlines⟩ := List.forall_mem_cons.mp h
      rw [List.flatMap_cons, List.append_assoc, List.singleton_append, splitFrom_append hcs, ih hlines]
      rfl

/-- The lines of entries are their compact documents. -/
theorem toList_encodeLines {entries : List TraceEntry}
    (h : ∀ e ∈ entries, ∃ line, e.line = .ok line) :
    ∃ documents : List Json, entries.map TraceEntry.encode = documents.map .ok ∧
      ∀ text : String, ((encodeLines entries).1.foldl (· ++ ·) text).toList =
        text.toList ++ (documents.map Json.chars).flatMap (· ++ ['\n']) := by
  induction entries with
  | nil => exact ⟨[], rfl, by simp [encodeLines]⟩
  | cons e entries ih =>
      obtain ⟨⟨line, hline⟩, hrest⟩ := List.forall_mem_cons.mp h
      obtain ⟨j, hj, hchars⟩ := TraceEntry.line_eq_ok hline
      obtain ⟨documents, hencode, htext⟩ := ih hrest
      refine ⟨j :: documents, by rw [List.map_cons, List.map_cons, hj, hencode], fun text => ?_⟩
      rw [encodeLines, hline]
      simp [htext, hchars]

theorem splitFrom_documents {entries : List TraceEntry} {documents : List Json}
    (h : entries.map TraceEntry.encode = documents.map .ok) :
    splitFrom [] ((documents.map Json.chars).flatMap (· ++ ['\n'])) = documents.map Json.chars := by
  refine splitFrom_flatMap fun cs hcs => ?_
  obtain ⟨j, hj, rfl⟩ := List.mem_map.mp hcs
  have hj' : .ok j ∈ entries.map TraceEntry.encode := h ▸ List.mem_map_of_mem hj
  obtain ⟨e, -, he⟩ := List.mem_map.mp hj'
  obtain ⟨depth, hfits⟩ := TraceEntry.exists_fits he
  exact Json.newline_notMem_chars hfits

end Trace

end Tuning
