import Tuning.Proofs.Store.Frames
import Tuning.Proofs.Store.Shelf

/-! # Sessions apart from each other

Saving changes the report of one directory, and taking away changes what is at and below one directory.
The reports of all other directories stay. Distinct names alone do not give this to sessions: a name may
lead through several directories, to the place of another name, or out of the directory of all sessions. -/

namespace Tuning

namespace Path

variable {part id : String} {texts parts done : List String}

/-- Where a name leads to from a directory. -/
def relative (id : String) : Path :=
  join [".", id]

/-- A name leads down from every directory. -/
def Inside (id : String) : Prop :=
  relative id ≠ [] ∧ ".." ∉ relative id

instance (id : String) : Decidable (Inside id) :=
  inferInstanceAs (Decidable (_ ∧ _))

theorem flatMap_split_filter (texts : List String) (done : List String) :
    ((texts.filter (· ≠ "")).flatMap split).foldl step done = (texts.flatMap split).foldl step done := by
  induction texts generalizing done with
  | nil => rfl
  | cons text texts ih =>
      by_cases h : text = ""
      · subst h
        rw [List.filter_cons_of_neg (by simp), ih]
        rfl
      · rw [List.filter_cons_of_pos (by simpa using h), List.flatMap_cons, List.flatMap_cons,
          List.foldl_append, List.foldl_append, ih]

theorem relative_eq (id : String) : relative id = ((split id).foldl step []).reverse := by
  have hjoin : relative id = ((([".", id].filter (· ≠ "")).flatMap split).foldl step []).reverse := rfl
  rw [hjoin, flatMap_split_filter, List.flatMap_cons, List.foldl_append, List.flatMap_singleton]
  rfl

/-- A double dot that leads out of where a path starts stays. -/
theorem mem_foldl_step (h : ".." ∈ done) (parts : List String) : ".." ∈ parts.foldl step done := by
  induction parts generalizing done with
  | nil => exact h
  | cons part parts ih =>
      refine ih ?_
      unfold step
      split_ifs with hstay hdots
      · exact h
      · split
        · cases h
        · next last rest =>
            split_ifs with hroot hup
            · exact h
            · exact List.mem_cons_self
            · exact (List.mem_cons.mp h).resolve_left fun heq => hup heq.symm
      · exact List.mem_cons_of_mem _ h

theorem step_append (h : part = ".." → done ≠ []) (start : List String) :
    step (done ++ start) part = step done part ++ start := by
  unfold step
  split_ifs with hstay hdots
  · rfl
  · obtain ⟨last, rest, rfl⟩ := List.exists_cons_of_ne_nil (h hdots)
    rw [List.cons_append]
    dsimp only
    split_ifs <;> rfl
  · rfl

/-- Parts that never lead out of where they start lead to the same place below any other start. -/
theorem foldl_step_append (h : ".." ∉ parts.foldl step done) (start : List String) :
    parts.foldl step (done ++ start) = parts.foldl step done ++ start := by
  induction parts generalizing done with
  | nil => rfl
  | cons part parts ih =>
      have hdown : part = ".." → done ≠ [] := by
        rintro rfl rfl
        exact h (mem_foldl_step (List.mem_singleton_self "..") parts)
      rw [List.foldl_cons, step_append hdown, List.foldl_cons]
      exact ih h

/-- A name that leads down is joined as it is. -/
theorem join_relative (htexts : texts.filter (· ≠ "") ≠ []) (hid : ".." ∉ relative id) :
    join (texts ++ [id]) = join texts ++ relative id := by
  have hstart : ((texts ++ [id]).filter (· ≠ "")).head? = (texts.filter (· ≠ "")).head? := by
    rw [List.filter_append, List.head?_append_of_ne_nil _ htexts]
  rw [relative_eq, List.mem_reverse] at hid
  unfold join
  dsimp only
  rw [hstart, flatMap_split_filter, flatMap_split_filter, List.flatMap_append, List.flatMap_singleton,
    List.foldl_append, relative_eq, ← List.reverse_append, ← foldl_step_append hid, List.nil_append]

theorem relative_of_component (h : IsComponent id) : relative id = [id] :=
  join_concat h ["."]

theorem IsComponent.inside (h : IsComponent id) : Inside id := by
  rw [Inside, relative_of_component h, List.mem_singleton]
  exact ⟨List.cons_ne_nil _ _, h.2.2.1.symm⟩

end Path

open FileTree

namespace Store

variable {s : Store} {a b : String} {t t' : FileTree} {report : Report}

/-! ## What saving and taking away change -/

theorem isJoined_file (s : Store) (id : String) {name : String} (hname : Path.isPlain name = true) :
    Path.IsJoined (s.directory id ++ [name]) := by
  simp only [Path.isPlain, Bool.and_eq_true, bne_iff_ne] at hname
  obtain ⟨⟨⟨⟨hempty, hdot⟩, hdots⟩, -⟩, -⟩ := hname
  exact (s.isJoined_directory id).concat (Path.followed_name hempty hdot hdots _)

theorem isJoined_reportPath (s : Store) (id : String) : (s.reportPath id).IsJoined :=
  s.isJoined_file id (by decide)

/-- The files that saving a report writes. -/
def written (s : Store) (id : String) : List Path :=
  [s.draftPath id, s.reportPath id]

/-- The changes so far are to what saving a report writes, and on the way to it. -/
abbrev Keeping (s : Store) (id : String) (t : FileTree) : FileTree → Prop :=
  Confined (s.directory id) (s.written id) t

/-- Beyond the changes so far there is a draft. -/
def Drafted (s : Store) (id : String) (t u : FileTree) : Prop :=
  s.Keeping id t u ∧ ∃ text, u.seen (s.draftPath id) = some (some text)

/-- The empty name is refused before anything is done. -/
theorem ends_checkId_bind {α : Type} {id : String} {x : StoreAction α} {P : FileTree → Prop}
    (ht : P t) (hx : Ends x t P P) : Ends (checkId id >>= fun _ => x) t P P := by
  by_cases hid : id = ""
  · rw [checkId, if_pos hid]
    exact ht
  · exact .bind_run (run_checkId hid t) hx

theorem ends_makeDirectory_keeping (s : Store) (id : String) (ht : t.isDirectory = true) :
    Ends (FileAction.makeDirectory (s.directory id)) t (s.Keeping id t) (s.Keeping id t) := by
  have hjoined : Path.IsJoined ([] ++ s.directory id) := s.isJoined_directory id
  have hstart : ∀ q, q <+: [] → t.seen q = some none := by
    intro q hq
    rw [List.prefix_nil.mp hq]
    cases t with
    | file text => cases ht
    | directory es => rfl
  have hmade := confined_makeFrom 0 hjoined hstart (s.written id)
  have hrun : (FileAction.makeDirectory (s.directory id)).run t =
      t.makeFrom 0 [] (s.directory id) := by
    rw [FileAction.makeDirectory, if_neg (s.isJoined_directory id).ne_empty]
    rfl
  unfold Ends
  rw [hrun]
  generalize t.makeFrom 0 [] (s.directory id) = result at hmade
  rcases result with ⟨_ | _, t'⟩ <;> exact hmade

theorem ends_draft_keeping {u : FileTree} (h : s.Keeping a t u) (text : String) :
    Ends (FileAction.write (s.draftPath a) text) u (s.Drafted a t) (s.Keeping a t) := by
  refine .change (fun u' hwrite => ?_) h
  have hmem : s.draftPath a ∈ s.written a := List.mem_cons_self
  obtain ⟨hconfined, hfile⟩ := confined_write (by decide) (s.isJoined_directory a) hmem hwrite
  exact ⟨h.trans hconfined, text, hfile⟩

/-- The draft is there as long as it has not taken the place of the report. -/
theorem ends_rename_keeping {u : FileTree} (h : s.Drafted a t u) :
    Ends (FileAction.rename (s.draftPath a) (s.reportPath a)) u (s.Keeping a t) (s.Drafted a t) := by
  refine .bind (.read _ h h) fun text u₁ h₁ => .bind (R := s.Drafted a t) ?_ fun _ u₂ h₂ => ?_
  · refine .change (fun u₂ hwrite => ?_) h₁
    obtain ⟨hkept, old, hdraft⟩ := h₁
    have hmem : s.reportPath a ∈ [s.reportPath a] := List.mem_cons_self
    have hmem' : s.reportPath a ∈ s.written a := List.mem_cons_of_mem _ List.mem_cons_self
    have hother : s.draftPath a ∉ [s.reportPath a] := by
      simp [draftPath, reportPath]
    have hone := (confined_write (by decide) (s.isJoined_directory a) hmem hwrite).1
    have hall := (confined_write (by decide) (s.isJoined_directory a) hmem' hwrite).1
    exact ⟨hkept.trans hall, old, (hone.files _ hother old).mpr hdraft⟩
  · obtain ⟨hkept, old, hdraft⟩ := h₂
    refine .change (fun u₃ hremove => hkept.trans ?_) ⟨hkept, old, hdraft⟩
    exact confined_remove (s.isJoined_file a (by decide)) List.mem_cons_self hdraft hremove

/-- Saving a report changes the file of the report only, whether it ends well or not. -/
theorem confined_save (s : Store) (id : String) (report : Report) (ht : t.isDirectory = true) :
    Confined (s.directory id) (s.written id) t ((s.save id report).run t).2 := by
  refine Ends.after (P := s.Keeping id t) (ends_checkId_bind (.refl _ _ _) ?_)
  refine .bind (.adapt _ (s.ends_makeDirectory_keeping id ht)) fun _ t₁ h₁ => ?_
  split
  · exact .throw _ h₁
  · next text _ =>
      refine .bind (.adapt _ (ends_draft_keeping h₁ text)) fun _ t₂ h₂ => ?_
      refine .handled (.adapt _ (ends_rename_keeping h₂)) fun error t₃ h₃ => ?_
      obtain ⟨hkept, old, hdraft⟩ := h₃
      refine .bind (.adapt _ (.change (fun t₄ hremove => hkept.trans ?_) hkept))
        fun _ t₄ h₄ => .throw _ h₄
      exact confined_remove (s.isJoined_file id (by decide)) List.mem_cons_self hdraft hremove

/-- Taking away a session changes nothing that is not at or below its directory. -/
theorem seen_delete {q : Path} (s : Store) (id : String) (t : FileTree)
    (hq : ¬s.directory id <+: q) : (((s.delete id).run t).2).seen q = t.seen q := by
  refine Ends.after (P := fun u => u.seen q = t.seen q) (ends_checkId_bind rfl (.get_bind ?_))
  split
  · exact .throw _ rfl
  · exact .throw _ rfl
  · refine .adapt _ (.change (fun u hremove => ?_) rfl)
    rw [(remove_joined (s.isJoined_directory id) hremove).2]
    exact seen_congr (text?_find?_erase t hq)

/-! ## What loading sees of it -/

theorem run_read_eq (p : Path) (t : FileTree) :
    (FileAction.read p).run t =
      (((t.stat p).map text?).bind fun text => text.elim (.error .isDirectory) .ok, t) := by
  rw [FileAction.read, FileAction.run_bind, FileAction.run_look]
  cases t.stat p with
  | error fault => rfl
  | ok u => cases u <;> rfl

/-- What is loaded is a matter of what is seen in the place of the report. -/
theorem load_congr
    (h : (t'.stat (s.reportPath b)).map text? = (t.stat (s.reportPath b)).map text?) :
    ((s.load b).run t').1 = ((s.load b).run t).1 := by
  by_cases hb : b = ""
  · rw [load, checkId, if_pos hb]
    rfl
  · rw [load, FileAction.run_bind, FileAction.run_bind, run_checkId hb, run_checkId hb]
    dsimp only
    rw [FileAction.run_get_bind, FileAction.run_get_bind, run_read_eq, run_read_eq, h]
    generalize ((t.stat (s.reportPath b)).map text?).bind
      (fun text => text.elim (.error .isDirectory) .ok) = file
    cases file with
    | error fault => cases fault <;> rfl
    | ok text =>
        dsimp only
        split <;> rfl

theorem load_of_fault (hb : b ≠ "") {fault : FileFault}
    (h : t.stat (s.reportPath b) = .error fault) (hfault : fault ≠ .missing) :
    ((s.load b).run t).1 = .error (.file .readReport) := by
  rw [load, FileAction.run_bind, run_checkId hb]
  dsimp only
  rw [FileAction.run_get_bind, run_read_eq, h]
  cases fault with
  | missing => exact absurd rfl hfault
  | _ => rfl

theorem loadable?_eq (s : Store) (t : FileTree) (id : String) :
    s.loadable? t id = ((s.load id).run t).1.toOption := by
  rw [loadable?]
  generalize (s.load id).run t = result
  rcases result with ⟨_ | _, t'⟩ <;> rfl

/-- A report is loaded from a file that has its text. -/
theorem loadable?_eq_some_iff : s.loadable? t b = some report ↔
    b ≠ "" ∧ ∃ text, s.Has b "report.json" text t ∧
      (Json.parse? text).bind Report.ofJson? = some report := by
  constructor
  · intro h
    have hb : b ≠ "" := by
      rintro rfl
      cases h
    refine ⟨hb, ?_⟩
    rw [loadable?_eq, load, FileAction.run_bind, run_checkId hb] at h
    dsimp only at h
    rw [FileAction.run_get_bind, run_read_eq] at h
    cases hstat : t.stat (s.reportPath b) with
    | error fault =>
        rw [hstat] at h
        cases fault <;> cases h
    | ok u =>
        rw [hstat] at h
        cases u with
        | file text =>
            simp only [Except.map, Except.bind, text?, Option.elim] at h
            refine ⟨text, hstat, ?_⟩
            split at h
            · next other hread => exact hread.trans h
            · cases h
        | directory es => cases h
  · rintro ⟨hb, text, hfile, hread⟩
    rw [loadable?_eq, run_load hb hfile hread]
    rfl

theorem names_of_stat {u : FileTree} (h : t.stat (s.reportPath b) = .ok u) :
    ∀ part ∈ s.reportPath b, Path.isName part = true := by
  have hjoined : Path.IsJoined ([] ++ s.reportPath b) := s.isJoined_reportPath b
  unfold stat at h
  split at h
  · cases h
  · next q hq => exact (passed_of_walk hjoined (resolve_eq_ok hq).2).1

/-! ## The report of another session -/

/-- Saving a report leaves those that are loaded from other directories, and makes no others. -/
theorem loadable?_save (ht : t.isDirectory = true) (hne : s.directory a ≠ s.directory b)
    (report : Report) : s.loadable? ((s.save a report).run t).2 b = s.loadable? t b := by
  have hother : s.reportPath b ∉ s.written a := by
    simp only [written, List.mem_cons, List.not_mem_nil, or_false, reportPath, draftPath]
    rintro (heq | heq)
    · exact absurd (List.append_inj' heq rfl).2 (by decide)
    · exact hne (List.append_inj' heq rfl).1.symm
  have hfile : ∀ text, s.Has b "report.json" text ((s.save a report).run t).2 ↔
      s.Has b "report.json" text t := by
    intro text
    have hiff (u : FileTree) : u.stat (s.reportPath b) = .ok (.file text) ↔ _ :=
      stat_eq_file_iff_seen (s.isJoined_reportPath b)
    refine (hiff _).trans (Iff.trans ?_ (hiff t).symm)
    rw [(s.confined_save a report ht).files _ hother text]
  refine Option.ext fun other => ?_
  simp only [loadable?_eq_some_iff, hfile]

/-- No file that saving the report of one session writes is on the way to the report of another, and
neither is this one on the way to the directory of the first. -/
def Beside (s : Store) (a b : String) : Prop :=
  (∀ p ∈ s.written a, ¬p <+: s.reportPath b) ∧ ¬s.reportPath b <+: s.directory a

instance (s : Store) (a b : String) : Decidable (s.Beside a b) :=
  inferInstanceAs (Decidable (_ ∧ _))

/-- What is loaded beside a report that is saved stays, errors too. Only of a session whose directory no
file system can have it is no longer told that there is none, but that it cannot be read. -/
theorem load_save (ht : t.isDirectory = true) (hbeside : s.Beside a b) (report : Report) :
    ((s.load b).run ((s.save a report).run t).2).1 = ((s.load b).run t).1 ∨
      (¬∀ part ∈ s.reportPath b, Path.isName part = true) ∧
      ((s.load b).run t).1 = .error (.notFound b) ∧
      ((s.load b).run ((s.save a report).run t).2).1 = .error (.file .readReport) := by
  have hjoined := s.isJoined_reportPath b
  have hconfined := s.confined_save a report ht
  generalize ((s.save a report).run t).2 = t' at hconfined ⊢
  have hplaces (q : Path) (hq : q <+: s.reportPath b) :=
    hconfined.places q fun p hp hpq => hbeside.1 p hp (hpq.trans hq)
  have hgrows : Grows (s.reportPath b) t t' := fun q hq => (hplaces q hq).imp_right And.right
  have hp : t'.seen (s.reportPath b) = t.seen (s.reportPath b) :=
    (hplaces _ (List.prefix_refl _)).resolve_right fun hmade => hbeside.2 hmade.1
  rcases text?_stat_of_grows hjoined hgrows hp with hsame | hmissing
  · exact .inl (load_congr hsame)
  have hstat : t.stat (s.reportPath b) = .error .missing := by
    cases hstat : t.stat (s.reportPath b) with
    | error fault =>
        rw [hstat] at hmissing
        exact congrArg Except.error (Except.error.inj hmissing)
    | ok u =>
        rw [hstat] at hmissing
        cases hmissing
  by_cases hnames : ∀ part ∈ s.reportPath b, Path.isName part = true
  · exact .inl (load_congr (by rw [hstat, stat_missing_of_grows hjoined hnames hgrows hp hstat]))
  · by_cases hb : b = ""
    · rw [load, checkId, if_pos hb]
      exact .inl rfl
    · have hload : ((s.load b).run t).1 = .error (.notFound b) := by
        rw [run_load_of_missing hb hstat]
      cases hstat' : t'.stat (s.reportPath b) with
      | ok u => exact absurd (names_of_stat hstat') hnames
      | error fault =>
          by_cases hfault : fault = .missing
          · exact .inl (load_congr (by rw [hstat, hstat', hfault]))
          · exact .inr ⟨hnames, hload, load_of_fault hb hstat' hfault⟩

theorem load_delete (hpath : ¬s.directory a <+: s.reportPath b) (t : FileTree) :
    ((s.load b).run ((s.delete a).run t).2).1 = ((s.load b).run t).1 :=
  load_congr (text?_stat_of_same (s.isJoined_reportPath b) fun _ hq =>
    s.seen_delete a t fun hd => hpath (hd.trans hq))

theorem erase_of_delete (ha : a ≠ "") (h : (s.delete a).run t = (.ok (), t')) :
    (s.directory a).isAbove = false ∧ t' = t.erase (s.directory a) := by
  have hends : Ends (s.delete a) t
      (fun u => (s.directory a).isAbove = false ∧ u = t.erase (s.directory a)) fun _ => True := by
    refine .bind_run (run_checkId ha t) (.get_bind ?_)
    split
    · exact .throw _ trivial
    · exact .throw _ trivial
    · exact .adapt _ (.change (fun _ hremove => remove_joined (s.isJoined_directory a) hremove) trivial)
  have hafter := hends.of_ok (a := ()) (by rw [h])
  rwa [h] at hafter

/-- With a directory the reports of all sessions go that it leads to. -/
theorem load_of_delete (ha : a ≠ "") (hpath : s.directory a <+: s.reportPath b)
    (hloaded : s.loadable? t b = some report) (h : (s.delete a).run t = (.ok (), t')) :
    (s.load b).run t' = (.error (.notFound b), t') := by
  have hjoined := s.isJoined_reportPath b
  obtain ⟨hb, text, hfile, -⟩ := loadable?_eq_some_iff.mp hloaded
  obtain ⟨habove, rfl⟩ := erase_of_delete ha h
  obtain ⟨husable, hnames, hseen⟩ := (stat_eq_file_iff_seen hjoined).mp hfile
  have hleads : (t.erase (s.directory a)).Leads (s.reportPath b) := by
    intro q hq hne other hother
    by_cases hd : s.directory a <+: q
    · rw [at?_erase_below habove hd] at hother
      cases hother
    · rw [← seen_eq_file_iff, seen_congr (text?_find?_erase t hd), seen_eq_file_iff] at hother
      exact leads_of_file hseen q hq hne other hother
  refine run_load_of_missing hb ?_
  rw [stat_of_leads hjoined husable hnames hleads, at?_erase_below habove hpath]
  rfl

/-! ## Names of sessions -/

/-- The directory of a name that leads down is below the directory of all sessions. -/
theorem directory_inside {id : String} (hid : Path.Inside id) :
    s.directory id = s.root ++ Path.relative id := by
  have hnamed : [s.base, "sessions"].filter (· ≠ "") ≠ [] := by
    by_cases hbase : s.base = "" <;> simp [hbase]
  exact Path.join_relative hnamed hid.2

/-- Whether two names share a directory, or the directory of one holds the report of the other, is a
matter of the names. -/
theorem directory_inside_iff (ha : Path.Inside a) (hb : Path.Inside b) :
    (s.directory a = s.directory b ↔ Path.relative a = Path.relative b) ∧
      (s.directory a <+: s.reportPath b ↔ Path.relative a <+: Path.relative b ++ ["report.json"]) := by
  rw [reportPath, directory_inside ha, directory_inside hb, List.append_assoc]
  exact ⟨List.append_right_inj _, List.prefix_append_right_inj _⟩

/-- The directories of distinct names of one part each are beside each other. -/
theorem beside_components (ha : Path.IsComponent a) (hb : Path.IsComponent b) (hne : a ≠ b) :
    ¬s.directory a <+: s.reportPath b ∧ s.Beside a b := by
  have hpath : ¬s.directory a <+: s.reportPath b := by
    rw [reportPath, directory_eq ha, directory_eq hb, List.append_assoc, List.prefix_append_right_inj]
    simp [hne]
  refine ⟨hpath, fun p hp hpb => hpath ?_, fun hba => ?_⟩
  · simp only [written, List.mem_cons, List.not_mem_nil, or_false] at hp
    rcases hp with rfl | rfl <;> exact (List.prefix_append _ _).trans hpb
  · rw [reportPath, directory_eq ha, directory_eq hb] at hba
    simpa using hba.length_le

/-- Sessions leave each other alone as far as their names lead to different places, and no further.
Taking away loses the reports below a directory and no others. Saving changes what is loaded from the
same directory only. Distinct names of one part are as far apart as that needs. -/
theorem sessions_apart (s : Store) (ht : t.isDirectory = true) (a b : String) :
    (Path.Inside a → s.root <+: s.directory a ∧ s.directory a ≠ s.root) ∧
    (Path.Inside a → Path.Inside b →
      (s.directory a = s.directory b ↔ Path.relative a = Path.relative b) ∧
      (s.directory a <+: s.reportPath b ↔ Path.relative a <+: Path.relative b ++ ["report.json"])) ∧
    (Path.IsComponent a → Path.IsComponent b → a ≠ b → Path.Inside a ∧
      s.directory a ≠ s.directory b ∧ ¬s.directory a <+: s.reportPath b ∧ s.Beside a b) ∧
    (¬s.directory a <+: s.reportPath b →
      ((s.load b).run ((s.delete a).run t).2).1 = ((s.load b).run t).1) ∧
    (a ≠ "" → s.directory a <+: s.reportPath b → ∀ report t', s.loadable? t b = some report →
      (s.delete a).run t = (.ok (), t') → (s.load b).run t' = (.error (.notFound b), t')) ∧
    (s.directory a ≠ s.directory b → ∀ report,
      s.loadable? ((s.save a report).run t).2 b = s.loadable? t b) ∧
    (s.Beside a b → ∀ report,
      ((s.load b).run ((s.save a report).run t).2).1 = ((s.load b).run t).1 ∨
        (¬∀ part ∈ s.reportPath b, Path.isName part = true) ∧
        ((s.load b).run t).1 = .error (.notFound b) ∧
        ((s.load b).run ((s.save a report).run t).2).1 = .error (.file .readReport)) ∧
    (b ≠ "" → s.directory a = s.directory b → ∀ (report : Report) (t' : FileTree),
      report.startedAt.Exact → report.finishedAt.Exact → (s.save a report).run t = (.ok (), t') →
      (s.load b).run t' = (.ok report.normal, t')) := by
  refine ⟨fun ha => ?_, directory_inside_iff, fun ha hb hne => ?_, fun hpath => load_delete hpath t,
    fun ha hpath _ _ hloaded hdelete => load_of_delete ha hpath hloaded hdelete,
    fun hne report => loadable?_save ht hne report, fun hbeside report => load_save ht hbeside report,
    fun hb hsame _ _ hstart hfinish hsave => load_of_save_same hb hsame hstart hfinish hsave⟩
  · rw [directory_inside ha]
    exact ⟨List.prefix_append _ _, by simpa using ha.1⟩
  · obtain ⟨hpath, hbeside⟩ := s.beside_components ha hb hne
    exact ⟨ha.inside, fun heq => hpath (heq ▸ List.prefix_append _ _), hpath, hbeside⟩

/-- A store with the report of a session whose name leads through two directories. -/
def otherReport : FileTree :=
  ((Store.save ⟨"data"⟩ "a/c" {}).run {}).2

/-- A store with the reports of two such sessions. -/
def nestedReports : FileTree :=
  ((Store.save ⟨"data"⟩ "a/b" {}).run otherReport).2

theorem isDirectory_otherReport : otherReport.isDirectory = true := by
  decide +kernel

theorem isDirectory_nestedReports : nestedReports.isDirectory = true := by
  decide +kernel

theorem save_nestedReports : ((Store.save ⟨"data"⟩ "a/b" {}).run otherReport).1 = .ok () := by
  decide +kernel

theorem load_nestedReports :
    (Store.load ⟨"data"⟩ "a/b").run nestedReports = (.ok ({} : Report).normal, nestedReports) := by
  have hzero : Instant.zero.Exact := ⟨by decide, by decide⟩
  exact load_of_save (by decide) hzero hzero (Prod.ext save_nestedReports rfl)

/-- Of two sessions in one directory each leaves the other one alone, and so does saving in the directory
itself, by which both go when it is taken away. Another spelling of a name leads to the same report. -/
theorem sessions_apart_nested :
    Path.Inside "a/c" ∧ Path.Inside "a/b" ∧ Path.IsComponent "a" ∧ Path.IsComponent "b" ∧
    nestedReports.isDirectory = true ∧
    (Store.load ⟨"data"⟩ "a/b").run nestedReports = (.ok ({} : Report).normal, nestedReports) ∧
    (Store.root ⟨"data"⟩ <+: Store.directory ⟨"data"⟩ "a/c" ∧
      Store.directory ⟨"data"⟩ "a/c" ≠ Store.root ⟨"data"⟩) ∧
    Store.Beside ⟨"data"⟩ "a" "b" ∧
    ((Store.load ⟨"data"⟩ "a/b").run ((Store.delete ⟨"data"⟩ "a/c").run nestedReports).2).1 =
      .ok ({} : Report).normal ∧
    (∀ report, ((Store.load ⟨"data"⟩ "a/b").run
      ((Store.save ⟨"data"⟩ "a/c" report).run nestedReports).2).1 = .ok ({} : Report).normal) ∧
    (∀ report, Store.loadable? ⟨"data"⟩ ((Store.save ⟨"data"⟩ "a" report).run nestedReports).2 "a/b" =
      some ({} : Report).normal) ∧
    ((Store.load ⟨"data"⟩ "a/b").run ((Store.delete ⟨"data"⟩ "a").run nestedReports).2).1 =
      .error (.notFound "a/b") ∧
    ((Store.load ⟨"data"⟩ "./a/b").run nestedReports).1 = .ok ({} : Report).normal := by
  have hinside : Path.Inside "a/c" := by decide
  have hinside' : Path.Inside "a/b" := by decide
  have ha : Path.IsComponent "a" := by decide
  have hb : Path.IsComponent "b" := by decide
  have hnames : ∀ part ∈ Store.reportPath ⟨"data"⟩ "a/b", Path.isName part = true := by decide
  have hload := load_nestedReports
  have hloaded : Store.loadable? ⟨"data"⟩ nestedReports "a/b" = some ({} : Report).normal := by
    rw [loadable?_eq, hload]
    rfl
  have hdeleted : (Store.delete ⟨"data"⟩ "a").run nestedReports =
      (.ok (), ((Store.delete ⟨"data"⟩ "a").run nestedReports).2) := Prod.ext (by decide +kernel) rfl
  have hzero : Instant.zero.Exact := ⟨by decide, by decide⟩
  have hsister := sessions_apart ⟨"data"⟩ isDirectory_nestedReports "a/c" "a/b"
  have hparent := sessions_apart ⟨"data"⟩ isDirectory_nestedReports "a" "a/b"
  have hcousin := sessions_apart ⟨"data"⟩ isDirectory_nestedReports "a" "b"
  have hspelled := sessions_apart ⟨"data"⟩ isDirectory_otherReport "a/b" "./a/b"
  obtain ⟨hbelow, hiff, -, hdelete, -, -, hsave, -⟩ := hsister
  obtain ⟨-, -, -, -, hlose, hkeep, -, -⟩ := hparent
  obtain ⟨-, -, hcomponents, -⟩ := hcousin
  obtain ⟨-, -, -, -, -, -, -, hsame⟩ := hspelled
  refine ⟨hinside, hinside', ha, hb, isDirectory_nestedReports, hload, hbelow hinside,
    (hcomponents ha hb (by decide)).2.2.2, ?_, fun report => ?_, fun report => ?_, ?_, ?_⟩
  · rw [hdelete (mt (hiff hinside hinside').2.mp (by decide)), hload]
  · rcases hsave (by decide) report with hkept | ⟨hbad, -⟩
    · rw [hkept, hload]
    · exact absurd hnames hbad
  · rw [hkeep (by decide) report, hloaded]
  · rw [hlose (by decide) (by decide) _ _ hloaded hdeleted]
  · rw [hsame (by decide) (by decide) {} nestedReports hzero hzero (Prod.ext save_nestedReports rfl)]

/-- Distinct names do not keep sessions apart: a name may lead out of the directory of all sessions, and
its directory may hold that of another name. -/
theorem not_apart_of_ne :
    (¬∀ (s : Store) (a : String), a ≠ "" → s.root <+: s.directory a ∧ s.directory a ≠ s.root) ∧
    ¬∀ (s : Store) (t : FileTree) (a b : String), t.isDirectory = true → a ≠ "" → b ≠ "" → a ≠ b →
      ((s.load b).run ((s.delete a).run t).2).1 = ((s.load b).run t).1 ∧
      ∀ report, ((s.load b).run ((s.save a report).run t).2).1 = ((s.load b).run t).1 := by
  constructor
  · intro h
    exact absurd (h ⟨"data"⟩ ".." (by decide)).1 (by decide)
  · intro h
    have hkept := (h ⟨"data"⟩ nestedReports "a" "a/b" isDirectory_nestedReports (by decide) (by decide)
      (by decide)).1
    have hgone : ((Store.load ⟨"data"⟩ "a/b").run
        ((Store.delete ⟨"data"⟩ "a").run nestedReports).2).1.toOption.isSome = false := by
      decide +kernel
    rw [hkept, load_nestedReports] at hgone
    cases hgone

end Store

end Tuning
