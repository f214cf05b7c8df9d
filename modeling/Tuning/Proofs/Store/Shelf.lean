import Tuning.Proofs.Store.Joined
import Tuning.Proofs.Store.Reports

/-! # The directory of all sessions

A store keeps one directory for every session below the directory of all sessions. What its actions do is
told by the entries there: saving a report puts an entry whose only file is the report, loading and
listing read the entries, and taking away drops one. -/

namespace Tuning

namespace FileTree

variable {name : String} {e x : String × FileTree} {es : List (String × FileTree)}

/-! ## Entries -/

/-- Names increase along entries. -/
def Increasing (es : List (String × FileTree)) : Prop :=
  es.Pairwise (·.1 < ·.1)

theorem mem_place : x ∈ place e es ↔ x = e ∨ x ∈ es := by
  induction es with
  | nil => simp [place]
  | cons other es ih =>
      rw [place]
      split
      · exact List.mem_cons
      · rw [List.mem_cons, ih, List.mem_cons]
        tauto

theorem mem_putEntry {put : Option FileTree → FileTree} (h : x ∈ putEntry name put es) :
    x.1 = name ∨ x ∈ es := by
  rw [putEntry, mem_place, List.mem_filter] at h
  rcases h with rfl | h
  · exact .inl rfl
  · exact .inr h.1

theorem Increasing.place (h : Increasing es) (hnew : ∀ x ∈ es, x.1 ≠ e.1) : Increasing (place e es) := by
  induction es with
  | nil => exact List.pairwise_singleton _ _
  | cons other es ih =>
      obtain ⟨hother, hes⟩ := List.pairwise_cons.mp h
      obtain ⟨hne, hnew⟩ := List.forall_mem_cons.mp hnew
      rw [FileTree.place]
      split
      · next hlt =>
          refine List.pairwise_cons.mpr ⟨List.forall_mem_cons.mpr ⟨hlt, fun x hx => ?_⟩, h⟩
          exact hlt.trans (hother x hx)
      · next hlt =>
          refine List.pairwise_cons.mpr ⟨fun x hx => ?_, ih hes hnew⟩
          rcases mem_place.mp hx with rfl | hx
          · exact lt_of_le_of_ne (not_lt.mp hlt) hne
          · exact hother x hx

theorem Increasing.putEntry (h : Increasing es) (put : Option FileTree → FileTree) :
    Increasing (putEntry name put es) :=
  Increasing.place (h.filter _) (by simp)

theorem Increasing.lookup (h : Increasing es) (hx : x ∈ es) : es.lookup x.1 = some x.2 := by
  induction es with
  | nil => cases hx
  | cons other es ih =>
      obtain ⟨hother, hes⟩ := List.pairwise_cons.mp h
      rw [lookup_cons_eq]
      rcases List.mem_cons.mp hx with rfl | hx
      · rw [if_pos rfl]
      · rw [if_neg (hother x hx).ne', ih hes hx]

end FileTree

open FileTree

namespace Store

variable {s : Store} {id text : String} {t : FileTree} {es : List (String × FileTree)}

/-! ## The directory of all sessions -/

theorem isJoined_root (s : Store) : s.root.IsJoined :=
  Path.isJoined_join _

theorem isJoined_directory (s : Store) (id : String) : (s.directory id).IsJoined :=
  Path.isJoined_join _

theorem directory_eq (h : Path.IsComponent id) : s.directory id = s.root ++ [id] :=
  Path.join_concat h [s.base, "sessions"]

theorem at?_root (s : Store) (t : FileTree) : t.at? s.root = t.find? s.root := by
  have hroot : s.root = Path.join [s.base] ++ ["sessions"] :=
    Path.join_concat (by decide) [s.base]
  rw [hroot]
  exact at?_append (by decide) _

/-- The files of a session can be made, if no others are in the way. -/
structure Fit (s : Store) (id : String) : Prop where
  component : Path.IsComponent id
  made : ∃ t t', (FileAction.makeDirectory (s.directory id)).run t = (.ok (), t')
  usable : (s.directory id).isUsable = true
  usable_report : (s.reportPath id).isUsable = true
  usable_draft : (s.draftPath id).isUsable = true

namespace Fit

theorem names (h : s.Fit id) : ∀ part ∈ s.directory id, Path.isName part = true := by
  obtain ⟨t, t', hmade⟩ := h.made
  rw [FileAction.makeDirectory, if_neg (s.isJoined_directory id).ne_empty] at hmade
  exact isName_of_makeFrom hmade

theorem isPlain (h : s.Fit id) : Path.isPlain id = true := by
  refine h.component.isPlain (h.names id ?_)
  rw [directory_eq h.component]
  simp

theorem at?_directory (h : s.Fit id) (t : FileTree) :
    t.at? (s.directory id) = t.find? (s.directory id) := by
  rw [directory_eq h.component]
  exact at?_append h.isPlain _

theorem ne_empty (h : s.Fit id) : id ≠ "" :=
  h.component.1

end Fit

/-- The entries of the directory of all sessions; there are none before there is the directory. -/
def Shows (s : Store) (es : List (String × FileTree)) (t : FileTree) : Prop :=
  ∃ place : Option FileTree, t.stat s.root = place.elim (.error .missing) .ok ∧
    place.getD {} = .directory es

namespace Shows

theorem find?_root (h : s.Shows es t) : (t.find? s.root).getD {} = .directory es := by
  obtain ⟨place, hstat, hplace⟩ := h
  rw [← at?_root, (at?_of_stat s.isJoined_root hstat).1, hplace]

theorem usable (h : s.Shows es t) : s.root.isUsable = true := by
  obtain ⟨place, hstat, -⟩ := h
  exact (at?_of_stat s.isJoined_root hstat).2.1

theorem leads (h : s.Shows es t) : t.Leads s.root := by
  obtain ⟨place, hstat, -⟩ := h
  exact (at?_of_stat s.isJoined_root hstat).2.2

theorem find?_directory (h : s.Shows es t) (hid : Path.IsComponent id) :
    t.find? (s.directory id) = es.lookup id := by
  have hroot := h.find?_root
  rw [directory_eq hid, find?_append]
  cases hfind : t.find? s.root with
  | none =>
      rw [hfind] at hroot
      obtain rfl : [] = es := FileTree.directory.inj hroot
      rfl
  | some u =>
      rw [hfind] at hroot
      obtain rfl : u = .directory es := hroot
      rw [Option.bind_some, find?_cons]
      exact Option.bind_fun_some _

theorem leads_directory (h : s.Shows es t) (hid : Path.IsComponent id) : t.Leads (s.directory id) := by
  rw [directory_eq hid]
  intro q hq hne text hfile
  have hq' := prefix_of_strict_prefix hq hne
  by_cases hroot : q = s.root
  · have hdirectory := h.find?_root
    rw [hroot, at?_root] at hfile
    rw [hfile] at hdirectory
    cases hdirectory
  · exact h.leads q hq' hroot text hfile

theorem at?_directory (h : s.Shows es t) (hfit : s.Fit id) : t.at? (s.directory id) = es.lookup id := by
  rw [hfit.at?_directory, h.find?_directory hfit.component]

theorem names (hfit : s.Fit id) : ∀ part ∈ s.root, Path.isName part = true := by
  intro part hpart
  refine hfit.names part ?_
  rw [directory_eq hfit.component]
  exact List.mem_append_left _ hpart

/-- A tree shows the entries that it has, if no file is on the way to them. -/
theorem of_find? (hfit : s.Fit id) (husable : s.root.isUsable = true) (hleads : t.Leads s.root)
    (hfind : t.find? s.root = some (.directory es)) : s.Shows es t := by
  refine ⟨some (.directory es), ?_, rfl⟩
  rw [stat_of_leads s.isJoined_root husable (names hfit) hleads, at?_root, hfind]

theorem insert (h : s.Shows es t) (hfit : s.Fit id) (new : FileTree) :
    s.Shows (putEntry id (fun _ => new) es) (t.insert (s.directory id) new) := by
  rw [directory_eq hfit.component]
  refine of_find? hfit h.usable (leads_insert _ _ (List.prefix_append _ _)) ?_
  rw [find?_insert_below, h.find?_root]
  rfl

theorem erase (h : s.Shows es t) (hfit : s.Fit id) (hid : (es.lookup id).isSome = true) :
    s.Shows (es.filter (·.1 ≠ id)) (t.erase (s.directory id)) := by
  have hroot := h.find?_root
  have hfind : t.find? s.root = some (.directory es) := by
    cases hfind : t.find? s.root with
    | none =>
        rw [hfind] at hroot
        obtain rfl : [] = es := FileTree.directory.inj hroot
        cases hid
    | some u =>
        rw [hfind] at hroot
        exact congrArg some hroot
  rw [directory_eq hfit.component]
  refine of_find? hfit h.usable (h.leads.erase (List.cons_ne_nil _ _)) ?_
  rw [find?_erase_below _ _ (List.cons_ne_nil _ _), hfind]
  rfl

end Shows

/-! ## Files of one session -/

/-- What stands in the place of a session for the report that is held under its name. A directory may
have no report. -/
inductive Place : Option Report → Option FileTree → Prop where
  | missing : Place none none
  | empty : Place none (some {})
  | stored {report : Report} {text : String} (htext : report.text = .ok text) :
      Place (some report) (some (.directory [("report.json", .file text)]))

theorem Place.exists_directory {report : Option Report} {u : FileTree} (h : Place report (some u)) :
    ∃ es, u = .directory es := by
  cases h with
  | empty => exact ⟨[], rfl⟩
  | stored htext => exact ⟨_, rfl⟩

theorem Place.not_file {report : Option Report} {place : Option FileTree} (h : Place report place) :
    place ≠ some (.file text) := by
  rintro rfl
  obtain ⟨es, hes⟩ := h.exists_directory
  cases hes

theorem Place.eq_none {report : Option Report} (h : Place report none) : report = none := by
  cases h
  rfl

variable {held : Option Report} {es' : List (String × FileTree)} {name : String}

theorem resolve_directory (hfit : s.Fit id) (hleads : t.Leads (s.directory id))
    (hfind : t.find? (s.directory id) = some (.directory es')) :
    t.resolve (s.directory id) = .ok (s.directory id) ∧ t.seen (s.directory id) = some none := by
  have hat : t.at? (s.directory id) = some (.directory es') := by rw [hfit.at?_directory, hfind]
  refine ⟨?_, seen_eq_none_iff.mpr ⟨es', hat⟩⟩
  rw [resolve_of_leads (s.isJoined_directory id) hfit.usable hfit.names hleads, hat]
  rfl

theorem find?_file (hfind : t.find? (s.directory id) = some (.directory es')) (name : String) :
    t.find? (s.directory id ++ [name]) = es'.lookup name := by
  rw [find?_append, hfind, Option.bind_some, find?_cons]
  exact Option.bind_fun_some _

/-- A file is written into the directory of a session. -/
theorem write_file (hfit : s.Fit id) (hleads : t.Leads (s.directory id))
    (hfind : t.find? (s.directory id) = some (.directory es')) (hname : Path.isPlain name = true)
    (husable : Path.isUsable (s.directory id ++ [name]) = true)
    (hplace : ∀ es'', es'.lookup name ≠ some (.directory es'')) (text : String) :
    t.write (s.directory id ++ [name]) text =
      .ok (t.insert (s.directory id) (.directory (putEntry name (fun _ => .file text) es'))) := by
  obtain ⟨hresolve, hseen⟩ := resolve_directory hfit hleads hfind
  have hfile : t.seen (s.directory id ++ [name]) ≠ some none := by
    rw [Ne, seen_eq_none_iff, at?_append hname, find?_file hfind]
    rintro ⟨es'', hes''⟩
    exact hplace es'' hes''
  rw [write_of_resolve hname hresolve hseen husable hfile, insert_append, hfind]
  rfl

/-- A file is taken away from the directory of a session. -/
theorem remove_file (hfit : s.Fit id) (hname : Path.isPlain name = true)
    (husable : Path.isUsable (s.directory id ++ [name]) = true)
    (hplace : (es'.lookup name).isSome = true) :
    (t.insert (s.directory id) (.directory es')).remove (s.directory id ++ [name]) =
      .ok (t.insert (s.directory id) (.directory (es'.filter (·.1 ≠ name)))) := by
  have hfind := find?_insert_self t (s.directory id) (.directory es')
  obtain ⟨hresolve, hseen⟩ := resolve_directory hfit (leads_insert t _ (List.prefix_refl _)) hfind
  rw [remove, resolve_append hname (resolve_eq_ok hresolve).2 hseen, if_pos husable, find?_file hfind,
    if_pos hplace]
  dsimp only
  rw [not_isAbove_append hname, if_neg (by simp), erase_insert _ _ (List.cons_ne_nil _ _)]
  rfl

theorem run_makeDirectory (hfit : s.Fit id) (h : s.Shows es t) (hplace : Place held (es.lookup id)) :
    (FileAction.makeDirectory (s.directory id)).run t =
      (.ok (), if (es.lookup id).isSome then t else t.insert (s.directory id) {}) := by
  obtain ⟨u, u', hmade⟩ := hfit.made
  rw [← h.at?_directory hfit]
  refine FileAction.run_makeDirectory (s.isJoined_directory id) hmade
    (h.leads_directory hfit.component) fun text => ?_
  rw [h.at?_directory hfit]
  exact hplace.not_file

/-- A session has at most a report in its directory. -/
def AtMostReport (es : List (String × FileTree)) : Prop :=
  es = [] ∨ ∃ old, es = [("report.json", .file old)]

theorem AtMostReport.not_directory (h : AtMostReport es') (name : String)
    (es'' : List (String × FileTree)) : es'.lookup name ≠ some (.directory es'') := by
  rcases h with rfl | ⟨old, rfl⟩
  · simp
  · rw [lookup_cons_eq]
    split <;> simp

/-- A new report takes the place of an old one, and its draft goes. -/
theorem AtMostReport.replaced (h : AtMostReport es') (text : String) :
    (putEntry "report.json" (fun _ => .file text)
      (putEntry "report.json.tmp" (fun _ => .file text) es')).filter (·.1 ≠ "report.json.tmp") =
        [("report.json", .file text)] := by
  have hlt : "report.json" < "report.json.tmp" := by decide
  rcases h with rfl | ⟨old, rfl⟩ <;> simp [putEntry, FileTree.place, hlt, hlt.not_gt]

/-- When the directory of a session has been made, it holds a report at most. -/
theorem exists_made (hfit : s.Fit id) (h : s.Shows es t) (hplace : Place held (es.lookup id)) :
    ∃ t₁ es₁, (FileAction.makeDirectory (s.directory id)).run t = (.ok (), t₁) ∧
      t₁.Leads (s.directory id) ∧ t₁.find? (s.directory id) = some (.directory es₁) ∧
      AtMostReport es₁ ∧ ∀ new, t₁.insert (s.directory id) new = t.insert (s.directory id) new := by
  have hmade := run_makeDirectory hfit h hplace
  have hleads := h.leads_directory hfit.component
  have hshown := h.find?_directory hfit.component
  generalize es.lookup id = place at hplace hmade hshown
  cases hplace with
  | missing =>
      exact ⟨_, [], hmade, leads_insert _ _ (List.prefix_refl _), find?_insert_self _ _ _, .inl rfl,
        fun new => insert_insert _ _ _ _⟩
  | empty => exact ⟨t, [], hmade, hleads, hshown, .inl rfl, fun new => rfl⟩
  | stored hold => exact ⟨t, _, hmade, hleads, hshown, .inr ⟨_, rfl⟩, fun new => rfl⟩

/-- A report that has a text is the only file of its session when it is saved. -/
theorem run_save_shown (hfit : s.Fit id) (h : s.Shows es t) (hplace : Place held (es.lookup id))
    {report : Report} (htext : report.text = .ok text) :
    (s.save id report).run t =
      (.ok (), t.insert (s.directory id) (.directory [("report.json", .file text)])) := by
  have hplain : Path.isPlain "report.json" = true := by decide
  have hplain' : Path.isPlain "report.json.tmp" = true := by decide
  obtain ⟨t₁, es₁, hmade, hleads, hfind, hes₁, hinsert⟩ := exists_made hfit h hplace
  have hdraft := write_file hfit hleads hfind hplain' hfit.usable_draft (hes₁.not_directory _) text
  have hwrite := write_file hfit (leads_insert t₁ _ (List.prefix_refl _))
    (find?_insert_self t₁ (s.directory id)
      (.directory (putEntry "report.json.tmp" (fun _ => .file text) es₁)))
    hplain hfit.usable_report (by rw [lookup_putEntry]; exact hes₁.not_directory _) text
  rw [insert_insert] at hwrite
  have hremove : (t₁.insert (s.directory id) (.directory (putEntry "report.json" (fun _ => .file text)
      (putEntry "report.json.tmp" (fun _ => .file text) es₁)))).remove (s.draftPath id) =
      .ok (t₁.insert (s.directory id) (.directory [("report.json", .file text)])) := by
    rw [← hes₁.replaced text]
    refine remove_file hfit hplain' hfit.usable_draft ?_
    rw [lookup_putEntry, lookup_putEntry]
    rfl
  rw [run_save hfit.ne_empty htext hmade hdraft hwrite hremove, hinsert]

theorem stat_report (hfit : s.Fit id) (h : s.Shows es t) (hplace : Place held (es.lookup id)) :
    t.stat (s.reportPath id) =
      ((es.lookup id).bind (·.find? ["report.json"])).elim (.error .missing) .ok := by
  have hjoined : (s.reportPath id).IsJoined :=
    (s.isJoined_directory id).concat (Path.followed_name (by decide) (by decide) (by decide) _)
  have hnames : ∀ part ∈ s.reportPath id, Path.isName part = true := by
    intro part hpart
    rcases List.mem_append.mp hpart with hpart | hpart
    · exact hfit.names part hpart
    · rw [List.mem_singleton.mp hpart]
      decide
  have hleads : t.Leads (s.reportPath id) := by
    intro q hq hne text hfile
    have hq' := prefix_of_strict_prefix hq hne
    by_cases hdirectory : q = s.directory id
    · rw [hdirectory, h.at?_directory hfit] at hfile
      exact hplace.not_file hfile
    · exact h.leads_directory hfit.component q hq' hdirectory text hfile
  rw [stat_of_leads hjoined hfit.usable_report hnames hleads, reportPath, at?_append (by decide),
    find?_append, h.find?_directory hfit.component]

/-- No report is loaded where there is no file. -/
theorem run_load_of_missing (hid : id ≠ "") (h : t.stat (s.reportPath id) = .error .missing) :
    (s.load id).run t = (.error (.notFound id), t) := by
  have hfile : (FileAction.read (s.reportPath id)).run t = (.error .missing, t) := by
    rw [FileAction.read, FileAction.run_bind, FileAction.run_look, h]
  rw [load, FileAction.run_bind, run_checkId hid]
  simp only
  rw [FileAction.run_get_bind]
  simp only [hfile]
  rfl

/-- The report that is held is loaded in its normal form. -/
theorem run_load_shown (hfit : s.Fit id) (h : s.Shows es t) (hplace : Place held (es.lookup id))
    (hexact : ∀ report, held = some report → report.startedAt.Exact ∧ report.finishedAt.Exact) :
    (s.load id).run t = (held.elim (.error (.notFound id)) fun report => .ok report.normal, t) := by
  have hstat := stat_report hfit h hplace
  generalize es.lookup id = place at hplace hstat
  cases hplace with
  | missing => exact run_load_of_missing hfit.ne_empty hstat
  | empty => exact run_load_of_missing hfit.ne_empty hstat
  | stored htext =>
      obtain ⟨hstart, hfinish⟩ := hexact _ rfl
      exact run_load hfit.ne_empty hstat (Report.read_text hstart hfinish htext)

theorem run_delete_shown (hfit : s.Fit id) (h : s.Shows es t) :
    (s.delete id).run t = if (es.lookup id).isSome then (.ok (), t.erase (s.directory id))
      else (.error (.notFound id), t) := by
  have hjoined := s.isJoined_directory id
  have hleads := h.leads_directory hfit.component
  have hstat := stat_of_leads hjoined hfit.usable hfit.names hleads
  have hresolve := resolve_of_leads hjoined hfit.usable hfit.names hleads
  have habove : (s.directory id).isAbove = false := by
    rw [directory_eq hfit.component]
    exact not_isAbove_append hfit.isPlain _
  rw [h.at?_directory hfit] at hstat hresolve
  rw [delete, FileAction.run_bind, run_checkId hfit.ne_empty]
  simp only
  rw [FileAction.run_get_bind]
  cases hplace : es.lookup id with
  | none =>
      rw [hplace] at hstat
      simp only [hstat]
      rfl
  | some u =>
      rw [hplace] at hstat hresolve
      have hremove : t.remove (s.directory id) = .ok (t.erase (s.directory id)) := by
        rw [remove, hresolve]
        exact if_neg (Bool.eq_false_iff.mp habove)
      simp only [hstat]
      refine run_files _ ?_
      rw [FileAction.remove, FileAction.run_change, hremove]

/-- A listing goes through the entries of the directory of all sessions. -/
theorem run_list_shown (h : s.Shows es t) :
    s.list.run t = (.ok ((es.filterMap fun x =>
      if x.2.isDirectory then (s.loadable? t x.1).map (·.info) else none).mergeSort
        fun a b => !a.timestamp.before b.timestamp), t) := by
  obtain ⟨place, hstat, hplace⟩ := h
  rw [list, FileAction.run_get_bind]
  cases place with
  | none =>
      obtain rfl : [] = es := FileTree.directory.inj hplace
      have hlist : (FileAction.list s.root).run t = (.error .missing, t) := by
        rw [FileAction.list, FileAction.run_bind, FileAction.run_look, hstat]
        rfl
      simp only [hlist, List.filterMap_nil, List.mergeSort_nil]
      rfl
  | some u =>
      obtain rfl : u = .directory es := hplace
      have hlist : (FileAction.list s.root).run t =
          (.ok (es.map fun x => (x.1, x.2.isDirectory)), t) := by
        rw [FileAction.list, FileAction.run_bind, FileAction.run_look, hstat]
        rfl
      simp only [hlist, List.filterMap_map]
      rfl

end Store

end Tuning
