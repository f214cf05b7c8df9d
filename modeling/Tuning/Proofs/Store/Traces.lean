import Tuning.Proofs.Store.Files
import Tuning.Store.Trace

/-! # The trace of a session in a store

The lines that are added to a trace are in its file, also after the report has been stored beside it. -/

namespace Tuning

open FileTree

/-! ## What actions end with -/

/-- What holds of the tree after an action that succeeds, and after one that fails. -/
def Ends {ε α : Type} (x : ExceptT ε (StateM FileTree) α) (t : FileTree) (P Q : FileTree → Prop) :
    Prop :=
  match x.run t with
  | (.ok _, t') => P t'
  | (.error _, t') => Q t'

namespace Ends

variable {ε ε' α β : Type} {x : ExceptT ε (StateM FileTree) α} {t : FileTree} {P Q : FileTree → Prop}

theorem after (h : Ends x t P P) : P (x.run t).2 := by
  unfold Ends at h
  split at h
  · next heq => rw [heq]; exact h
  · next heq => rw [heq]; exact h

theorem of_ok (h : Ends x t P Q) {a : α} (hok : (x.run t).1 = .ok a) : P (x.run t).2 := by
  unfold Ends at h
  split at h
  · next heq => rw [heq]; exact h
  · next heq => rw [heq] at hok; cases hok

theorem exists_run (h : Ends x t P fun _ => False) : ∃ a t', x.run t = (.ok a, t') ∧ P t' := by
  unfold Ends at h
  split at h
  · next a t' heq => exact ⟨a, t', heq, h⟩
  · exact h.elim

theorem pure (a : α) (h : P t) : Ends (pure a : ExceptT ε (StateM FileTree) α) t P Q := h

theorem throw (e : ε) (h : Q t) : Ends (throw e : ExceptT ε (StateM FileTree) α) t P Q := h

theorem bind {f : α → ExceptT ε (StateM FileTree) β} {R : FileTree → Prop} (hx : Ends x t R Q)
    (hf : ∀ a t', R t' → Ends (f a) t' P Q) : Ends (x >>= f) t P Q := by
  unfold Ends at hx ⊢
  rw [FileAction.run_bind]
  generalize x.run t = result at hx ⊢
  rcases result with ⟨_ | a, t'⟩
  · exact hx
  · exact hf a t' hx

theorem bind_run {f : α → ExceptT ε (StateM FileTree) β} {a : α} {t' : FileTree}
    (hx : x.run t = (.ok a, t')) (hf : Ends (f a) t' P Q) : Ends (x >>= f) t P Q := by
  unfold Ends at hf ⊢
  rwa [FileAction.run_bind, hx]

theorem get_bind {f : FileTree → ExceptT ε (StateM FileTree) β} (hf : Ends (f t) t P Q) :
    Ends (get >>= f) t P Q := hf

theorem handled {handle : ε → ExceptT ε (StateM FileTree) α} {R : FileTree → Prop} (hx : Ends x t P R)
    (hhandle : ∀ e t', R t' → Ends (handle e) t' P Q) : Ends (tryCatch x handle) t P Q := by
  have hrun : (tryCatch x handle).run t = (match (x.run t).1 with
    | .ok a => (Pure.pure (.ok a) : StateM FileTree (Except ε α))
    | .error e => (handle e).run) (x.run t).2 := rfl
  unfold Ends at hx ⊢
  rw [hrun]
  generalize x.run t = result at hx ⊢
  rcases result with ⟨e | _, t'⟩
  · exact hhandle e t' hx
  · exact hx

theorem adapt (f : ε → ε') (h : Ends x t P Q) : Ends (ExceptT.adapt f x) t P Q := by
  have hrun : (ExceptT.adapt f x).run t = ((x.run t).1.mapError f, (x.run t).2) := rfl
  unfold Ends at h ⊢
  rw [hrun]
  generalize x.run t = result at h ⊢
  rcases result with ⟨_ | _, t'⟩ <;> exact h

theorem change {next : FileTree → Except FileFault FileTree} (hok : ∀ t', next t = .ok t' → P t')
    (hfail : Q t) : Ends (FileAction.change next) t P Q := by
  unfold Ends
  rw [FileAction.run_change]
  cases hnext : next t with
  | ok t' => exact hok t' hnext
  | error fault => exact hfail

theorem change_eq {next : FileTree → Except FileFault FileTree} {t' : FileTree} (h : next t = .ok t')
    (hP : P t') : Ends (FileAction.change next) t P Q := by
  unfold Ends
  rwa [FileAction.run_change, h]

theorem look {view : FileTree → Except FileFault α} (hok : P t) (hfail : Q t) :
    Ends (FileAction.look view) t P Q := by
  refine get_bind ?_
  cases view t with
  | ok a => exact hok
  | error fault => exact hfail

theorem read (p : Path) (hok : P t) (hfail : Q t) : Ends (FileAction.read p) t P Q := by
  refine bind (look (P := fun t' => P t' ∧ Q t') ⟨hok, hfail⟩ hfail) fun u t' ht' => ?_
  cases u with
  | file text => exact ht'.1
  | directory es => exact ht'.2

end Ends

/-! ## Files of a session -/

variable {s : Store} {id : String} {t : FileTree} {text : String}

/-- A session has a file of a name and a text. -/
def Store.Has (s : Store) (id name text : String) (t : FileTree) : Prop :=
  t.stat (s.directory id ++ [name]) = .ok (.file text)

namespace Store

variable {name other text : String}

theorem ends_makeDirectory (hname : Path.isPlain name = true) (h : s.Has id name text t) (p : Path) :
    Ends (FileAction.makeDirectory p) t (s.Has id name text) (s.Has id name text) := by
  have hafter := FileAction.stat_makeDirectory hname h p
  unfold Ends
  split
  · next heq => rw [heq] at hafter; exact hafter
  · next heq => rw [heq] at hafter; exact hafter

/-- A session has a file and the draft of a report. -/
def HasDraft (s : Store) (id name text draft : String) (t : FileTree) : Prop :=
  s.Has id name text t ∧ s.Has id "report.json.tmp" draft t

/-- Storing a report leaves the other files of the session. -/
theorem ends_save (hname : Path.isPlain name = true) (hreport : "report.json" ≠ name)
    (hdraft : "report.json.tmp" ≠ name) (h : s.Has id name text t) (report : Report) :
    Ends (s.save id report) t (s.Has id name text) (s.Has id name text) := by
  have hplain : Path.isPlain "report.json" = true := by decide
  have hplain' : Path.isPlain "report.json.tmp" = true := by decide
  refine .bind (R := s.Has id name text) ?_ fun _ t₁ h₁ => ?_
  · unfold checkId
    split
    · exact .throw _ h
    · exact .pure _ h
  refine .bind (.adapt _ (ends_makeDirectory hname h₁ _)) fun _ t₂ h₂ => ?_
  split
  · exact .throw _ h₂
  · next draft _ =>
      -- from here on the draft is there as well
      refine .bind (R := s.HasDraft id name text draft)
        (.adapt _ (.change (fun t₃ h₃ => ⟨?_, stat_write hplain' h₃⟩) h₂)) fun _ t₃ h₃ => ?_
      · exact stat_write_sibling hname hplain' hdraft h₂ h₃
      have hremove : ∀ t₄, s.HasDraft id name text draft t₄ →
          ∀ t₅, t₄.remove (s.draftPath id) = .ok t₅ → s.Has id name text t₅ :=
        fun t₄ h₄ t₅ h₅ => stat_remove_sibling hname hplain' hdraft h₄.1 h₄.2 h₅
      refine .handled (R := s.HasDraft id name text draft) (.adapt _ ?_) fun error t₄ h₄ => ?_
      · refine .bind (R := s.HasDraft id name text draft) (.read _ h₃ h₃) fun _ t₄ h₄ => ?_
        refine .bind (R := s.HasDraft id name text draft)
          (.change (fun t₅ h₅ => ⟨?_, ?_⟩) h₄) fun _ t₅ h₅ => ?_
        · exact stat_write_sibling hname hplain hreport h₄.1 h₅
        · exact stat_write_sibling hplain' hplain (by decide) h₄.2 h₅
        · exact .change (hremove t₅ h₅) h₅
      · exact .bind (.adapt _ (.change (hremove t₄ h₄) h₄.1)) fun _ t₅ h₅ => .throw _ h₅

end Store

namespace Trace

theorem isPlain_trace : Path.isPlain "trace.jsonl" = true := by
  decide

/-- A trace that has begun is an empty file. -/
theorem ends_start (s : Store) (id : String) (t : FileTree) :
    Ends (start s id false) t (s.Has id "trace.jsonl" "") fun _ => True := by
  refine .adapt _ (.bind (R := fun _ => True) (.adapt _ ?_) fun _ t₁ _ => .get_bind ?_)
  · unfold Ends
    split <;> trivial
  · dsimp only
    split
    all_goals exact .adapt _ (.change (fun t₂ h₂ => stat_write isPlain_trace h₂) trivial)

theorem run_modify (f : FileTree → FileTree) (t : FileTree) :
    ((modify f : TraceAction Unit).run t).2 = f t :=
  rfl

/-- Added lines stand behind the others. -/
theorem has_add (h : s.Has id "trace.jsonl" text t) (lines : List String) :
    s.Has id "trace.jsonl" (lines.foldl (· ++ ·) text) ((add s id lines).run t).2 := by
  have hstat : t.stat (path s id) = .ok (.file text) := h
  have hadd : ((add s id lines).run t).2 =
      ((FileAction.write (path s id) (lines.foldl (· ++ ·) text)).run t).2 := by
    simp only [add, run_modify, hstat]
  obtain ⟨t', hwrite⟩ := exists_write isPlain_trace h (lines.foldl (· ++ ·) text)
  have hrun : ((FileAction.write (path s id) (lines.foldl (· ++ ·) text)).run t).2 = t' := by
    rw [FileAction.write, FileAction.run_change, path, hwrite]
  rw [hadd, hrun]
  exact stat_write isPlain_trace hwrite

end Trace

end Tuning
