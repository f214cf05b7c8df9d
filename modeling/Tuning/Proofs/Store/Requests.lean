import Tuning.Proofs.Store.Shelf

/-! # A store as a map from names to reports

Along any requests the entries of the directory of all sessions hold, name by name, the report that was
saved last and not taken away since. A name may also have an empty directory, which a report without text
leaves. So loading and listing are what they are for a map from names to reports. -/

namespace Tuning

open FileTree

/-! ## Requests -/

/-- What a store is asked to do with reports. -/
inductive ReportRequest where
  | save (id : String) (report : Report)
  | load (id : String)
  | delete (id : String)

namespace ReportRequest

/-- The session that a request is about. -/
def id : ReportRequest → String
  | save id _ => id
  | load id => id
  | delete id => id

/-- The texts of the times of a report that is to be saved tell them exactly. -/
def Exact : ReportRequest → Prop
  | save _ report => report.startedAt.Exact ∧ report.finishedAt.Exact
  | load _ => True
  | delete _ => True

/-- The reports that are held by name after a request. A report without text is not saved. -/
def next (held : String → Option Report) : ReportRequest → String → Option Report
  | save id report => if report.text.isOk then Function.update held id (some report) else held
  | load _ => held
  | delete id => Function.update held id none

/-- The reports that are held by name after requests: the last one that was saved and not taken away
since. -/
def held (requests : List ReportRequest) : String → Option Report :=
  requests.foldl next fun _ => none

end ReportRequest

namespace Store

/-- The files after a request. -/
def perform (s : Store) (t : FileTree) : ReportRequest → FileTree
  | .save id report => ((s.save id report).run t).2
  | .load id => ((s.load id).run t).2
  | .delete id => ((s.delete id).run t).2

/-- The files after requests. -/
def performAll (s : Store) (requests : List ReportRequest) (t : FileTree) : FileTree :=
  requests.foldl s.perform t

/-- A store holds reports by name in a tree with given entries in the directory of all sessions. -/
structure Holds (s : Store) (held : String → Option Report) (es : List (String × FileTree))
    (t : FileTree) : Prop where
  shows : s.Shows es t
  increasing : Increasing es
  fit : ∀ x ∈ es, s.Fit x.1
  place : ∀ id, Place (held id) (es.lookup id)
  exact : ∀ id report, held id = some report → report.startedAt.Exact ∧ report.finishedAt.Exact

namespace Holds

variable {s : Store} {held : String → Option Report} {es : List (String × FileTree)} {t : FileTree}
  {id : String} {report : Report}

theorem load (h : s.Holds held es t) (hfit : s.Fit id) :
    (s.load id).run t = ((held id).elim (.error (.notFound id)) fun report => .ok report.normal, t) :=
  run_load_shown hfit h.shows (h.place id) (h.exact id)

theorem save_fst (h : s.Holds held es t) (hfit : s.Fit id) (report : Report) :
    ((s.save id report).run t).1 = (report.text.mapError .unencodable).map fun _ => () := by
  cases htext : report.text with
  | ok text =>
      rw [run_save_shown hfit h.shows (h.place id) htext]
      rfl
  | error e =>
      rw [run_save_of_error hfit.ne_empty htext (run_makeDirectory hfit h.shows (h.place id))]
      rfl

/-- Something new in the place of a session. -/
theorem insert (h : s.Holds held es t) (hfit : s.Fit id) {new : FileTree} {report : Option Report}
    (hplace : Place report (some new))
    (hexact : ∀ r, report = some r → r.startedAt.Exact ∧ r.finishedAt.Exact) :
    s.Holds (Function.update held id report) (putEntry id (fun _ => new) es)
      (t.insert (s.directory id) new) where
  shows := h.shows.insert hfit new
  increasing := h.increasing.putEntry _
  fit x hx := by
    rcases mem_putEntry hx with hx | hx
    · exact hx ▸ hfit
    · exact h.fit x hx
  place other := by
    rw [lookup_putEntry]
    by_cases hother : other = id
    · rw [hother, Function.update_self, if_pos rfl]
      exact hplace
    · rw [Function.update_of_ne hother, if_neg hother]
      exact h.place other
  exact other r hr := by
    by_cases hother : other = id
    · rw [hother, Function.update_self] at hr
      exact hexact r hr
    · rw [Function.update_of_ne hother] at hr
      exact h.exact other r hr

theorem save (h : s.Holds held es t) (hfit : s.Fit id) {text : String}
    (htext : report.text = .ok text)
    (hexact : report.startedAt.Exact ∧ report.finishedAt.Exact) :
    ∃ es', s.Holds (Function.update held id (some report)) es' (s.perform t (.save id report)) := by
  rw [perform, run_save_shown hfit h.shows (h.place id) htext]
  exact ⟨_, h.insert hfit (.stored htext) fun r hr => Option.some.inj hr ▸ hexact⟩

/-- A report without text leaves a directory at most. -/
theorem save_of_error (h : s.Holds held es t) (hfit : s.Fit id) {e : EncodeError}
    (htext : report.text = .error e) : ∃ es', s.Holds held es' (s.perform t (.save id report)) := by
  have hmade := run_makeDirectory hfit h.shows (h.place id)
  rw [perform, run_save_of_error hfit.ne_empty htext hmade]
  cases hid : es.lookup id with
  | some u => exact ⟨es, h⟩
  | none =>
      have hheld : held id = none := (hid ▸ h.place id).eq_none
      have hinsert := h.insert hfit .empty fun r hr => by cases hr
      rw [← hheld, Function.update_eq_self] at hinsert
      exact ⟨_, hinsert⟩

theorem delete (h : s.Holds held es t) (hfit : s.Fit id) :
    ∃ es', s.Holds (Function.update held id none) es' (s.perform t (.delete id)) := by
  rw [perform, run_delete_shown hfit h.shows]
  cases hid : es.lookup id with
  | none =>
      have hheld : held id = none := (hid ▸ h.place id).eq_none
      rw [← hheld, Function.update_eq_self]
      exact ⟨es, h⟩
  | some u =>
      refine ⟨_, h.shows.erase hfit (by rw [hid]; rfl), h.increasing.filter _,
        fun x hx => h.fit x (List.mem_of_mem_filter hx), fun other => ?_, fun other r hr => ?_⟩
      · rw [lookup_filter_ne]
        by_cases hother : other = id
        · rw [hother, Function.update_self, if_pos rfl]
          exact .missing
        · rw [Function.update_of_ne hother, if_neg hother]
          exact h.place other
      · by_cases hother : other = id
        · rw [hother, Function.update_self] at hr
          cases hr
        · rw [Function.update_of_ne hother] at hr
          exact h.exact other r hr

/-- What a store holds follows its requests. -/
theorem next (h : s.Holds held es t) {request : ReportRequest} (hfit : s.Fit request.id)
    (hexact : request.Exact) : ∃ es', s.Holds (request.next held) es' (s.perform t request) := by
  cases request with
  | save id report =>
      rw [ReportRequest.next]
      cases htext : report.text with
      | ok text => exact h.save hfit htext hexact
      | error e => exact h.save_of_error hfit htext
  | load id =>
      have hrun : (s.load id).run t = _ := h.load hfit
      rw [perform, hrun]
      exact ⟨es, h⟩
  | delete id => exact h.delete hfit

theorem performAll (h : s.Holds held es t) {requests : List ReportRequest}
    (hrequests : ∀ request ∈ requests, s.Fit request.id ∧ request.Exact) :
    ∃ es', s.Holds (requests.foldl ReportRequest.next held) es' (s.performAll requests t) := by
  induction requests generalizing held es t with
  | nil => exact ⟨es, h⟩
  | cons request requests ih =>
      obtain ⟨⟨hfit, hexact⟩, hrest⟩ := List.forall_mem_cons.mp hrequests
      obtain ⟨es', hnext⟩ := h.next hfit hexact
      exact ih hnext hrest

end Holds

end Store

/-! ## Listings -/

/-- What stands before what in a listing: the later report, and of two at one time the one with the
lesser name. -/
def Report.Precedes (a b : String × Report) : Prop :=
  b.2.finishedAt.before a.2.finishedAt ∨
    a.2.finishedAt.total = b.2.finishedAt.total ∧ a.1 < b.1

/-- A listing of the reports that are held by name. -/
def Report.Listed (held : String → Option Report) (infos : List ReportInfo) : Prop :=
  ∃ shown : List (String × Report), infos = shown.map (·.2.normal.info) ∧
    (∀ id report, (id, report) ∈ shown ↔ held id = some report) ∧ shown.Pairwise Report.Precedes

theorem Report.Precedes.asymm {a b : String × Report} (h : Precedes a b) : ¬Precedes b a := by
  unfold Precedes Instant.before at *
  rw [decide_eq_true_eq] at *
  rintro (hba | ⟨heq, hlt⟩)
  · omega
  · rcases h with hab | ⟨-, hlt'⟩
    · omega
    · exact hlt.asymm hlt'

/-- There is one listing of the reports that are held. -/
theorem Report.Listed.unique {held : String → Option Report} {infos infos' : List ReportInfo}
    (h : Listed held infos) (h' : Listed held infos') : infos = infos' := by
  obtain ⟨shown, rfl, hmem, hpairwise⟩ := h
  obtain ⟨shown', rfl, hmem', hpairwise'⟩ := h'
  have hnodup {l : List (String × Report)} (hl : l.Pairwise Precedes) : l.Nodup := by
    refine hl.imp ?_
    rintro a b hab rfl
    exact hab.asymm hab
  have hperm : shown.Perm shown' :=
    (List.perm_ext_iff_of_nodup (hnodup hpairwise) (hnodup hpairwise')).mpr fun x =>
      (hmem x.1 x.2).trans (hmem' x.1 x.2).symm
  rw [hperm.eq_of_pairwise (fun a b _ _ hab hba => absurd hba hab.asymm) hpairwise hpairwise']

/-- Whether a report is no older than another one. -/
def Report.noOlder (a b : String × Report) : Bool :=
  !a.2.finishedAt.before b.2.finishedAt

theorem Report.noOlder_iff (a b : String × Report) :
    noOlder a b = true ↔ b.2.finishedAt.total ≤ a.2.finishedAt.total := by
  simp [noOlder, Instant.before]

/-- Reports by increasing names are in the order of a listing when they are sorted by time. -/
theorem Report.pairwise_mergeSort {shown : List (String × Report)} (h : shown.Pairwise (·.1 < ·.1)) :
    (shown.mergeSort noOlder).Pairwise Precedes := by
  have htrans : ∀ a b c : String × Report, noOlder a b → noOlder b c → noOlder a c := by
    intro a b c
    rw [noOlder_iff, noOlder_iff, noOlder_iff]
    omega
  have htotal : ∀ a b : String × Report, noOlder a b || noOlder b a := by
    intro a b
    rw [Bool.or_eq_true, noOlder_iff, noOlder_iff]
    omega
  refine (pairwise_mergeSort_tied htrans htotal h).imp fun {a b} hab => ?_
  rw [noOlder_iff, noOlder_iff] at hab
  rw [Precedes, Instant.before, decide_eq_true_eq]
  rcases hab.1.lt_or_eq with hlt | heq
  · exact .inl hlt
  · exact .inr ⟨heq.symm, hab.2 heq.ge⟩

namespace Store

variable {s : Store} {t : FileTree} {held : String → Option Report} {es : List (String × FileTree)}

/-- The reports that are held, by name and in the order of the entries. -/
def heldAlong (held : String → Option Report) (es : List (String × FileTree)) :
    List (String × Report) :=
  es.filterMap fun x => (held x.1).map (x.1, ·)

theorem Holds.mem_heldAlong (h : s.Holds held es t) (id : String) (report : Report) :
    (id, report) ∈ heldAlong held es ↔ held id = some report := by
  rw [heldAlong, List.mem_filterMap]
  constructor
  · rintro ⟨x, -, hx⟩
    obtain ⟨r, hr, heq⟩ := Option.map_eq_some_iff.mp hx
    obtain ⟨rfl, rfl⟩ := Prod.mk.inj heq
    exact hr
  · intro hheld
    have hplace := h.place id
    cases hid : es.lookup id with
    | none =>
        rw [hid] at hplace
        rw [hplace.eq_none] at hheld
        cases hheld
    | some u =>
        obtain ⟨before, after, rfl, -⟩ := List.lookup_eq_some_iff.mp hid
        exact ⟨(id, u), by simp, by rw [hheld]; rfl⟩

theorem Holds.pairwise_heldAlong (h : s.Holds held es t) :
    (heldAlong held es).Pairwise (·.1 < ·.1) := by
  refine h.increasing.filterMap _ fun a b hab x hx y hy => ?_
  obtain ⟨-, -, rfl⟩ := Option.map_eq_some_iff.mp hx
  obtain ⟨-, -, rfl⟩ := Option.map_eq_some_iff.mp hy
  exact hab

/-- A listing shows the reports that are held. -/
theorem Holds.list (h : s.Holds held es t) :
    ∃ infos, s.list.run t = (.ok infos, t) ∧ Report.Listed held infos := by
  have hshown : (es.filterMap fun x =>
      if x.2.isDirectory then (s.loadable? t x.1).map (·.info) else none) =
        (heldAlong held es).map (·.2.normal.info) := by
    rw [heldAlong, List.map_filterMap]
    refine List.filterMap_congr fun x hx => ?_
    obtain ⟨es', hes'⟩ := (h.increasing.lookup hx ▸ h.place x.1).exists_directory
    rw [hes', isDirectory, if_pos rfl, loadable?, h.load (h.fit x hx)]
    cases held x.1 <;> rfl
  refine ⟨_, by rw [run_list_shown h.shows, hshown], (heldAlong held es).mergeSort Report.noOlder, ?_,
    fun id report => List.mem_mergeSort.trans (h.mem_heldAlong id report),
    Report.pairwise_mergeSort h.pairwise_heldAlong⟩
  rw [List.map_mergeSort]
  exact fun a _ b _ => rfl

/-! ## New stores -/

/-- There is no session yet. -/
def New (s : Store) (t : FileTree) : Prop :=
  t.stat s.root = .error .missing ∨ t.stat s.root = .ok {}

theorem New.shows (h : s.New t) : s.Shows [] t := by
  rcases h with h | h
  · exact ⟨none, h, rfl⟩
  · exact ⟨some {}, h, rfl⟩

theorem New.holds (h : s.New t) : s.Holds (fun _ => none) [] t where
  shows := h.shows
  increasing := .nil
  fit x hx := by cases hx
  place _ := .missing
  exact id report hreport := by cases hreport

/-- In a new store the files of a session can be made if nothing is in their way. -/
theorem New.fit (h : s.New t) {id : String} (hid : Path.IsComponent id) (hclear : s.Clear id t) :
    s.Fit id := by
  have hjoined : Path.IsJoined ([] ++ s.directory id) := s.isJoined_directory id
  obtain ⟨t₁, hmade, hwrite⟩ := hclear
  have hmake : t.makeFrom 0 [] (s.directory id) = (.ok (), t₁) := by
    rwa [FileAction.makeDirectory, if_neg (s.isJoined_directory id).ne_empty] at hmade
  have hplain : Path.isPlain id = true :=
    hid.isPlain (isName_of_makeFrom hmake id (by rw [directory_eq hid]; simp))
  have hmissing : t.at? (s.directory id) = none := by
    have hfind := h.shows.find?_directory hid
    rw [directory_eq hid] at hfind ⊢
    exact (at?_append hplain _).trans hfind
  have ht₁ : t₁ = t.insert (s.directory id) {} := by
    rw [makeFrom_joined hjoined rfl hmake, List.nil_append, hmissing]
    rfl
  subst ht₁
  obtain ⟨u, hreport⟩ := hwrite "report.json" (by decide) ""
  obtain ⟨u', hdraft⟩ := hwrite "report.json.tmp" (by decide) ""
  have hnew : (t.insert (s.directory id) {}).find? (s.directory id ++ ["report.json"]) = none :=
    find?_insert_append t (s.directory id) ["report.json"] {}
  exact ⟨hid, ⟨t, _, hmade⟩, usable_of_write (s.isJoined_directory id) (by decide) hnew hreport,
    (write_eq_ok (by decide) hreport).1, (write_eq_ok (by decide) hdraft).1⟩

theorem held_of_error {report : Report} {e : EncodeError} (htext : report.text = .error e)
    (before later : List ReportRequest) (id : String) :
    ReportRequest.held (before ++ .save id report :: later) = ReportRequest.held (before ++ later) := by
  rw [ReportRequest.held, ReportRequest.held, List.foldl_append, List.foldl_append, List.foldl_cons,
    ReportRequest.next, htext]
  rfl

/-- A store is a map from names to reports. After any requests it loads what was saved last under a name
and not taken away since, in normal form, and it lists just the reports that it loads. Saving fails for a
report without text only, and such a report makes no difference to what is loaded and listed later. -/
theorem requests_refine_map (s : Store) (t : FileTree) (requests : List ReportRequest)
    (hnew : s.New t)
    (hrequests : ∀ request ∈ requests,
      Path.IsComponent request.id ∧ s.Clear request.id t ∧ request.Exact) :
    (∀ id, Path.IsComponent id → s.Clear id t →
      (s.load id).run (s.performAll requests t) =
        ((ReportRequest.held requests id).elim (.error (.notFound id)) fun report => .ok report.normal,
          s.performAll requests t)) ∧
    (∃ infos, s.list.run (s.performAll requests t) = (.ok infos, s.performAll requests t) ∧
      Report.Listed (ReportRequest.held requests) infos) ∧
    (∀ id report, Path.IsComponent id → s.Clear id t →
      ((s.save id report).run (s.performAll requests t)).1 =
        (report.text.mapError .unencodable).map fun _ => ()) ∧
    ∀ before later id report error, requests = before ++ .save id report :: later →
      report.text = .error error →
      (∀ other, Path.IsComponent other → s.Clear other t →
        ((s.load other).run (s.performAll requests t)).1 =
          ((s.load other).run (s.performAll (before ++ later) t)).1) ∧
      (s.list.run (s.performAll requests t)).1 = (s.list.run (s.performAll (before ++ later) t)).1 := by
  have hholds : ∀ kept ⊆ requests, ∃ es,
      s.Holds (ReportRequest.held kept) es (s.performAll kept t) := by
    intro kept hkept
    refine hnew.holds.performAll fun request hrequest => ?_
    obtain ⟨hid, hclear, hexact⟩ := hrequests request (hkept hrequest)
    exact ⟨hnew.fit hid hclear, hexact⟩
  obtain ⟨es, hall⟩ := hholds requests (List.Subset.refl _)
  refine ⟨fun id hid hclear => hall.load (hnew.fit hid hclear), hall.list,
    fun id report hid hclear => hall.save_fst (hnew.fit hid hclear) report, ?_⟩
  rintro before later id report error rfl htext
  obtain ⟨es', hkept⟩ := hholds (before ++ later) fun request hrequest => by
    rw [List.mem_append] at hrequest
    simp only [List.mem_append, List.mem_cons]
    tauto
  have hsame := held_of_error htext before later id
  obtain ⟨infos, hlist, hlisted⟩ := hall.list
  obtain ⟨infos', hlist', hlisted'⟩ := hkept.list
  constructor
  · intro other hother hclear
    rw [hall.load (hnew.fit hother hclear), hkept.load (hnew.fit hother hclear), hsame]
  · rw [hlist, hlist', hlisted.unique (hsame ▸ hlisted')]

/-- The report of a coin. -/
def coinReport : Report :=
  { sessionId := "coin", best := { values := some [("side", .text "heads")], fitness := 1 }
    finishedAt := ⟨63902919845, 0, 3600⟩ }

/-- A report that has no text. -/
def endlessReport : Report :=
  { sessionId := "die", best := { fitness := 1 / 0 } }

/-- A coin, and a die whose report has no text. -/
def coinAndDie : List ReportRequest :=
  [.save "coin" {}, .save "coin" coinReport, .save "die" endlessReport, .delete "cup"]

theorem clear_empty {id : String} (h : id ∈ ["coin", "die", "cup"]) : Clear ⟨"store"⟩ id {} := by
  fin_cases h <;> refine ⟨_, rfl, fun name hname text => ?_⟩ <;> fin_cases hname <;> exact ⟨_, rfl⟩

theorem requests_refine_map_coin :
    New ⟨"store"⟩ {} ∧ (∀ request ∈ coinAndDie,
      Path.IsComponent request.id ∧ Clear ⟨"store"⟩ request.id {} ∧ request.Exact) ∧
    (Store.load ⟨"store"⟩ "coin").run (performAll ⟨"store"⟩ coinAndDie {}) =
      (.ok coinReport.normal, performAll ⟨"store"⟩ coinAndDie {}) ∧
    (Store.load ⟨"store"⟩ "die").run (performAll ⟨"store"⟩ coinAndDie {}) =
      (.error (.notFound "die"), performAll ⟨"store"⟩ coinAndDie {}) ∧
    ∃ infos, (Store.list ⟨"store"⟩).run (performAll ⟨"store"⟩ coinAndDie {}) =
      (.ok infos, performAll ⟨"store"⟩ coinAndDie {}) ∧
      Report.Listed (ReportRequest.held coinAndDie) infos := by
  have hnew : New ⟨"store"⟩ {} := .inl rfl
  have hrequests : ∀ request ∈ coinAndDie,
      Path.IsComponent request.id ∧ Clear ⟨"store"⟩ request.id {} ∧ request.Exact := by
    intro request hrequest
    have hzero : Instant.zero.Exact := ⟨by decide, by decide⟩
    have hfinish : coinReport.finishedAt.Exact := ⟨by decide, by decide⟩
    simp only [coinAndDie, List.mem_cons, List.not_mem_nil, or_false] at hrequest
    rcases hrequest with rfl | rfl | rfl | rfl
    · exact ⟨by decide, clear_empty (by decide), hzero, hzero⟩
    · exact ⟨by decide, clear_empty (by decide), hzero, hfinish⟩
    · exact ⟨by decide, clear_empty (by decide), hzero, hzero⟩
    · exact ⟨by decide, clear_empty (by decide), trivial⟩
  have hfirstText : ({} : Report).text.isOk = true := by decide +kernel
  have hcoinText : coinReport.text.isOk = true := by decide +kernel
  have hdieText : endlessReport.text.isOk = false := by decide +kernel
  have hcoin : ReportRequest.held coinAndDie "coin" = some coinReport := by
    simp [ReportRequest.held, coinAndDie, ReportRequest.next, hcoinText, hdieText, Function.update]
  have hdie : ReportRequest.held coinAndDie "die" = none := by
    simp [ReportRequest.held, coinAndDie, ReportRequest.next, hfirstText, hcoinText, hdieText,
      Function.update]
  obtain ⟨hload, hlist, -, -⟩ := requests_refine_map ⟨"store"⟩ {} coinAndDie hnew hrequests
  refine ⟨hnew, hrequests, ?_, ?_, hlist⟩
  · rw [hload "coin" (by decide) (clear_empty (by decide)), hcoin]
    rfl
  · rw [hload "die" (by decide) (clear_empty (by decide)), hdie]
    rfl

end Store

end Tuning
