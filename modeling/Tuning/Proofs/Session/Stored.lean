import Tuning.Proofs.Session.Exhaustion
import Tuning.Proofs.Session.Progress
import Tuning.Proofs.Session.Writing

/-! # Sessions that are stored

A session with a store ends with a report that is loaded again and a trace with a line for every
evaluation, unless the files fail, an atom of the space has no document, or the statistics of the
fitness have none. -/

namespace Tuning

/-! ## Valid configurations and reports -/

open Float.Model in
theorem place_between_infinities {u : UnpackedFloat} (h : u.isInf = false) :
    place (.infinity .negative) < place u ∧ place u < place (.infinity .positive) := by
  rcases u with s | _ | s | ⟨_ | _, m, e, hm⟩
  · cases h
  all_goals simp [place, Prod.Lex.toLex_lt_toLex]

/-- A number between finite ones is finite. -/
theorem isFinite_of_between {x lower upper : Float} (hlower : lower.isInf = false)
    (hupper : upper.isInf = false) (h : lower ≤ x) (h' : x ≤ upper) : IsFinite x := by
  obtain ⟨-, hnan, hle⟩ := float_le_iff.mp h
  obtain ⟨-, -, hle'⟩ := float_le_iff.mp h'
  have hfinite : x.isInf = false := by
    change x.toModel.unpack.isInf = false
    unfold Double.place at hle hle'
    cases hu : x.toModel.unpack with
    | infinity s =>
        rw [hu] at hle hle'
        cases s with
        | negative => exact absurd (place_between_infinities hlower).1 (not_lt.mpr hle)
        | positive => exact absurd (place_between_infinities hupper).2 (not_lt.mpr hle')
    | _ => rfl
  rw [IsFinite, hnan, hfinite, Bool.or_self]

/-- A valid configuration is one that a report can record. -/
theorem Config.recordable {c : Config} (h : c.validate = .ok ()) :
    c.objective ≠ "" ∧ (c.mode = "maximize" ∨ c.mode = "minimize") ∧ IsFinite c.mutateRate := by
  have hfaults : c.faults = [] := by
    unfold validate at h
    split at h
    · next hempty => exact List.isEmpty_iff.mp hempty
    · cases h
  simp only [faults, List.append_eq_nil_iff, checkLeast_eq_nil, check_eq_nil] at hfaults
  obtain ⟨⟨⟨⟨⟨⟨⟨⟨⟨⟨hobjective, hmode⟩, -⟩, -⟩, -⟩, hrate⟩, -⟩, -⟩, -⟩, -⟩, -⟩ := hfaults
  have hbounds : 0 ≤ c.mutateRate ∧ c.mutateRate < 1 := by simpa using hrate
  refine ⟨by simpa using hobjective, by simpa using hmode, ?_⟩
  have hzero : (0 : Float).isInf = false := by decide +kernel
  have hone : (1 : Float).isInf = false := by decide +kernel
  exact isFinite_of_between hzero hone hbounds.1 (float_le_iff_lt_or_beq.mpr (.inl hbounds.2))

/-- What reports have to show. -/
theorem Report.validate_eq_ok {r : Report} : r.validate = .ok () ↔
    r.sessionId ≠ "" ∧ r.config.objective ≠ "" ∧
      (r.config.mode = "maximize" ∨ r.config.mode = "minimize") ∧ 0 ≤ r.evaluations.toInt ∧
      0 ≤ r.failures.toInt ∧ 0 ≤ r.rounds.toInt ∧ r.failures.toInt ≤ r.evaluations.toInt ∧
      (r.failures.toInt < r.evaluations.toInt → r.best.values.getD [] ≠ []) ∧
      r.best.fitness.isNaN = false ∧ r.finishedAt.isZero = false ∧
      r.startedAt.total ≤ r.finishedAt.total := by
  unfold validate
  simp only [Int64.lt_iff_toInt_lt, Int64.toInt_zero, Instant.before, decide_eq_true_eq,
    List.isEmpty_iff]
  split_ifs <;> grind

/-! ## Reports of sessions -/

theorem exists_of_mapM_error {ε α β : Type} {f : α → Except ε β} {xs : List α} {e : ε}
    (h : xs.mapM f = .error e) : ∃ x ∈ xs, f x = .error e := by
  induction xs with
  | nil => cases h
  | cons x xs ih =>
      rw [List.mapM_cons] at h
      rcases except_bind_eq_error.mp h with hx | ⟨y, -, h⟩
      · exact ⟨x, by simp, hx⟩
      · rcases except_bind_eq_error.mp h with hxs | ⟨_, _, h⟩
        · obtain ⟨x', hx', hfx⟩ := ih hxs
          exact ⟨x', List.mem_cons_of_mem x hx', hfx⟩
        · cases h

namespace Session

variable {ε : Type} {p : Probe ε} {id : String} {space : Space} {rate : Float} {mode : Mode}
  {size : Nat} {pool : List Individual} {log : Log} {s s' : Session}

section Reporting

variable {config : Config} {startedAt finishedAt : Instant}

/-- The report of a session whose accounts are in order passes every check. -/
theorem validate_report (hid : id ≠ "") (hconfig : config.validate = .ok ())
    (h : s.InOrder space rate mode size) (hsize : 1 ≤ size) (hfits : s.rounds * size < 2 ^ 63)
    (hfinite : s.population.IsFinite) (hpositive : 0 < finishedAt.total)
    (hle : startedAt.total ≤ finishedAt.total) :
    (s.report id config startedAt finishedAt).validate = .ok () := by
  obtain ⟨hobjective, hmode, -⟩ := Config.recordable hconfig
  obtain ⟨hrounds, hevaluations, hfailures, -⟩ := h.report hsize hfits id config startedAt finishedAt
  obtain ⟨⟨pool, hbalanced⟩, -⟩ := h
  have hrecorded := hbalanced.recorded
  have hbest : (s.report id config startedAt finishedAt).best =
      (s.population.ranked.map Scored.ofRanked).headD {} := rfl
  have hlength : s.population.ranked.length = s.population.size := by
    simp [Population.ranked, Population.size]
  refine Report.validate_eq_ok.mpr
    ⟨hid, hobjective, hmode, ?_, ?_, ?_, ?_, fun hsuccess => ?_, ?_, ?_, hle⟩
  · omega
  · omega
  · omega
  · omega
  · rw [hbest]
    cases hranked : s.population.ranked with
    | nil =>
        rw [hranked, List.length_nil] at hlength
        omega
    | cons y rest =>
        exact hbalanced.search.candidate_ne_nil (x := y) (by rw [hranked]; exact List.mem_cons_self)
  · rw [hbest]
    cases hranked : s.population.ranked with
    | nil => decide +kernel
    | cons y rest =>
        exact (Bool.or_eq_false_iff.mp (hfinite y (by rw [hranked]; exact List.mem_cons_self))).1
  · rw [Bool.eq_false_iff, Ne, Instant.isZero, Bool.and_eq_true, beq_iff_eq, beq_iff_eq]
    rintro ⟨hseconds, hnanoseconds⟩
    change finishedAt.seconds = 0 at hseconds
    change finishedAt.nanoseconds = 0 at hnanoseconds
    simp [Instant.total, hseconds, hnanoseconds] at hpositive

/-- What a report shows of the population: nothing, or what was recorded. -/
theorem eq_ofRanked_of_mem_report {x : Scored}
    (h : x ∈ (s.report id config startedAt finishedAt).best ::
      (s.report id config startedAt finishedAt).top) :
    x = {} ∨ ∃ y ∈ s.population.ranked, x = Scored.ofRanked y := by
  rcases List.mem_cons.mp h with rfl | h
  · have hbest : (s.report id config startedAt finishedAt).best =
        (s.population.ranked.map Scored.ofRanked).headD {} := rfl
    cases hranked : s.population.ranked with
    | nil => exact .inl (by rw [hbest, hranked]; rfl)
    | cons y rest => exact .inr ⟨y, List.mem_cons_self, by rw [hbest, hranked]; rfl⟩
  · obtain ⟨y, hy, rfl⟩ := List.mem_map.mp (List.mem_of_mem_take h)
    exact .inr ⟨y, hy, rfl⟩

theorem isFlat_report (h : s.Balanced space rate mode pool) :
    ∀ x ∈ (s.report id config startedAt finishedAt).best ::
      (s.report id config startedAt finishedAt).top, ∀ c ∈ x.values, c.IsFlat := by
  intro x hx c hc
  rcases eq_ofRanked_of_mem_report hx with rfl | ⟨y, hy, rfl⟩
  · cases hc
  · obtain rfl := Option.some.inj hc
    obtain ⟨scored, hscored, rfl⟩ := List.mem_map.mp hy
    have hsuits : scored.1.Suits space := (h.search.fitting space.law_suits).1.history scored hscored
    exact hsuits.isFlat

/-- Only its statistics keep the report of a session from having a document. -/
theorem Logged.encode_stats_of_report {P : Outcome → Prop}
    (h : s.Logged P space rate mode size pool log)
    (hrate : IsFinite config.mutateRate) (hstarted : startedAt.document?.isSome = true)
    (hfinished : finishedAt.document?.isSome = true) {error : EncodeError}
    (hreport : (s.report id config startedAt finishedAt).encode = .error error) :
    (Stats.of (s.population.ranked.map (·.2))).encode = .error error := by
  have hscored : ∀ x ∈ (s.report id config startedAt finishedAt).best ::
      (s.report id config startedAt finishedAt).top, ∀ e, x.encode ≠ .error e := by
    intro x hx e he
    rcases eq_ofRanked_of_mem_report hx with rfl | ⟨y, hy, rfl⟩
    · have hzero := encodeFloat_of_finite (by decide +kernel : IsFinite 0)
      unfold Scored.encode at he
      rw [hzero] at he
      cases he
    · obtain ⟨hfinite, j, hj⟩ := h.written hy
      have hvalues : encodeMapping (Scored.ofRanked y).values = .ok j := hj
      have hfitness : encodeFloat (Scored.ofRanked y).fitness = .ok (.float y.2) :=
        encodeFloat_of_finite hfinite
      rw [Scored.encode, hvalues, hfitness] at he
      cases he
  obtain ⟨started, hstarted'⟩ := exists_encodeInstant hstarted
  obtain ⟨finished, hfinished'⟩ := exists_encodeInstant hfinished
  rw [Report.encode] at hreport
  rcases except_bind_eq_error.mp hreport with hconfig | ⟨_, -, hreport⟩
  · have hrate' : encodeFloat (s.report id config startedAt finishedAt).config.mutateRate =
        .ok (.float config.mutateRate) := encodeFloat_of_finite hrate
    rw [RunConfig.encode, hrate'] at hconfig
    cases hconfig
  rcases except_bind_eq_error.mp hreport with hbest | ⟨_, -, hreport⟩
  · exact absurd hbest (hscored _ List.mem_cons_self _)
  rcases except_bind_eq_error.mp hreport with htop | ⟨_, -, hreport⟩
  · obtain ⟨x, hx, hencode⟩ := exists_of_mapM_error htop
    exact absurd hencode (hscored x (List.mem_cons_of_mem _ hx) _)
  rcases except_bind_eq_error.mp hreport with hstats | ⟨_, -, hreport⟩
  · exact hstats
  · have hends : encodeInstant (s.report id config startedAt finishedAt).startedAt = .ok started ∧
        encodeInstant (s.report id config startedAt finishedAt).finishedAt = .ok finished :=
      ⟨hstarted', hfinished'⟩
    rw [hends.1, hends.2] at hreport
    cases hreport

/-- The trace of a session has a line for every evaluation. -/
theorem Logged.length_lines {P : Outcome → Prop} (h : s.Logged P space rate mode size pool log) :
    (Trace.splitFrom [] ((Trace.encodeLines s.trace.reverse).1.foldl (· ++ ·) "").toList).length =
      s.evaluations := by
  obtain ⟨documents, hencode, htext⟩ := Trace.toList_encodeLines fun e he =>
    h.lines e (List.mem_reverse.mp he)
  have hlength := congrArg List.length hencode
  rw [List.length_map, List.length_map] at hlength
  rw [htext, String.toList_empty, List.nil_append, Trace.splitFrom_documents hencode, List.length_map,
    ← hlength, h.traced.length_eq, h.evaluations_eq]

end Reporting

/-- As long as machine integers can count the evaluations, the accounts are in order after the rounds. -/
theorem inOrder_of_start {config : Config} {i : Interrupt} {bench bench' : Runner × ε}
    (hstart : Session.start space config = .ok (s, mode))
    (hfits : config.rounds.toInt * config.offspring.toInt < 2 ^ 63)
    (hplay : play p config mode i config.rounds.toInt.toNat s bench = (.ok (), s', bench')) :
    s'.InOrder space config.mutateRate mode config.offspring.toInt.toNat ∧
      1 ≤ config.offspring.toInt.toNat ∧ s'.rounds * config.offspring.toInt.toNat < 2 ^ 63 := by
  obtain ⟨hvalid, -, population, source, hmake, rfl⟩ := start_eq_ok hstart
  obtain ⟨hrounds, -, hoffspring, -⟩ := Config.validate_eq_ok hvalid
  have hrounds' : 1 ≤ config.rounds.toInt := Int64.le_iff_toInt_le.mp hrounds
  have hoffspring' : 1 ≤ config.offspring.toInt := Int64.le_iff_toInt_le.mp hoffspring
  have horder := start_inOrder hmake config.offspring.toInt.toNat
  have hempty : population.size = 0 := Nat.le_zero.mp (horder.size_le.trans_eq (Nat.zero_mul _))
  have hfits' : (0 + config.rounds.toInt.toNat) * config.offspring.toInt.toNat < 2 ^ 63 := by
    rw [Nat.zero_add, ← Int.toNat_mul (by omega) (by omega)]
    omega
  obtain ⟨horder', hle, -⟩ := horder.room hoffspring (hempty.trans_le (Nat.zero_le _)) rfl hfits' hplay
  exact ⟨horder', by omega, Nat.lt_of_le_of_lt (Nat.mul_le_mul_right _ hle) hfits'⟩

end Session

/-! ## The files of a session -/

namespace Runner

variable {store : Store} {id : String} {r r' : Runner}

theorem startTrace_ready (hstore : r.store = some store) (hfinite : r.IsFinite)
    (h : r.startTrace id = (.ok (), r')) : r'.Ready store id "" r.now := by
  refine ⟨startTrace_traces hstore h, ?_, ?_⟩
  all_goals
    rw [startTrace, hstore] at h
    obtain ⟨-, rfl⟩ := Prod.mk.inj h
  · exact hfinite
  · exact .refl _

theorem startTrace_eq_error (hstore : r.store = some store) {error : TraceError}
    (h : r.startTrace id = (.error error, r')) :
    ∃ step, error = .store (.file step) ∧ ¬store.Clear id r.files := by
  rw [startTrace, hstore] at h
  have herror : ((Trace.start store id false).run r.files).1 = .error error := (Prod.mk.inj h).1
  obtain ⟨step, hstep⟩ := Trace.fails_start store id false r.files error _ (Prod.ext herror rfl)
  refine ⟨step, hstep, fun hclear => ?_⟩
  cases herror.symm.trans hclear.start

theorem now_writeTrace (r : Runner) (id : String) (entries : List TraceEntry) :
    (r.writeTrace id entries).now = r.now := by
  unfold writeTrace
  split <;> rfl

theorem saveReport_eq (hstore : r.store = some store) {report : Report}
    (hvalid : report.validate = .ok ()) :
    r.saveReport id report = (((store.save id report).run r.files).1.mapError .store,
      { r with files := ((store.save id report).run r.files).2 }) := by
  rcases hsaved : (store.save id report).run r.files with ⟨_ | _, files⟩ <;>
    simp only [saveReport, withFiles, hstore, hvalid, hsaved] <;> rfl

/-- A report that passes every check is not saved if something is in the way, or if it has no text. -/
theorem unsaved_of_saveReport (hstore : r.store = some store) (hid : id ≠ "") {report : Report}
    (hvalid : report.validate = .ok ()) {error : SessionError}
    (h : r.saveReport id report = (.error error, r')) :
    (∃ step, error = .store (.file step) ∧ ¬store.Clear id r.files) ∨
      ∃ e, error = .store (.unencodable e) ∧ report.text = .error e := by
  rw [saveReport_eq hstore hvalid] at h
  rcases hsaved : (store.save id report).run r.files with ⟨e | _, files⟩
  · rw [hsaved] at h
    obtain rfl : .store e = error := Except.error.inj (Prod.mk.inj h).1
    by_cases hclear : store.Clear id r.files
    · obtain ⟨e', htext, rfl⟩ := hclear.unsaved hid (congrArg Prod.fst hsaved)
      exact .inr ⟨e', rfl, htext⟩
    · rcases store.fails_save hid report r.files e files hsaved with ⟨step, rfl⟩ | ⟨e', htext, rfl⟩
      · exact .inl ⟨step, rfl, hclear⟩
      · exact .inr ⟨e', rfl, htext⟩
  · rw [hsaved] at h
    cases h

theorem save_of_saveReport (hstore : r.store = some store) {report : Report}
    (hvalid : report.validate = .ok ()) (h : r.saveReport id report = (.ok (), r')) :
    (store.save id report).run r.files = (.ok (), r'.files) := by
  rw [saveReport_eq hstore hvalid] at h
  rcases hsaved : (store.save id report).run r.files with ⟨_ | _, files⟩
  · rw [hsaved] at h
    cases h
  · rw [hsaved] at h
    rw [← (Prod.mk.inj h).2]

theorem now_saveReport (hstore : r.store = some store) (id : String) {report : Report}
    (hvalid : report.validate = .ok ()) : (r.saveReport id report).2.now = r.now := by
  rw [saveReport_eq hstore hvalid]

end Runner

/-- The trace of the session has a line for every evaluation, the report passes every check, and it is
what the store gives back, in the form that documents have. -/
structure SessionResult.IsStored (store : Store) (id : String) (files : FileTree)
    (result : SessionResult) : Prop where
  trace : ∃ text, store.Has id "trace.jsonl" text files ∧
    ((Trace.splitFrom [] text.toList).length : Int) = result.report.evaluations.toInt
  valid : result.report.validate = .ok ()
  loads : (store.load id).run files = (.ok result.report.normal, files)

namespace Probe

variable {ε : Type} {p : Probe ε} {space : Space} {config : Config} {id : String} {i : Interrupt}
  {bench bench' : Runner × ε} {progress : List Progress}
  {outcome : Except SessionError SessionResult} {s : Session} {mode : Mode}

/-- The ways in which a session that has started ends. -/
theorem run_stages {played : Except SessionError Unit} {s' : Session} {bench₁ : Runner × ε}
    (hstart : Session.start space config = .ok (s, mode))
    (hplay : Session.play p config mode i config.rounds.toInt.toNat s
      ((bench.1.tick.2.startTrace id).2, bench.2) = (played, s', bench₁))
    (h : p.run space config id i bench = (outcome, progress, bench')) :
    (∃ error r, bench.1.tick.2.startTrace id = (.error error, r) ∧ outcome = .error (.trace error)) ∨
    ∃ r, bench.1.tick.2.startTrace id = (.ok (), r) ∧
      ((∃ error, played = .error error ∧ outcome = .error error ∧
          bench'.1 = bench₁.1.writeTrace id s'.trace.reverse) ∨
        played = .ok () ∧ ∃ r₁ report, r₁ = bench₁.1.writeTrace id s'.trace.reverse ∧
          report = s'.report id config bench.1.tick.1 r₁.tick.1 ∧
          ((∃ error, r₁.tick.2.saveReport id report = (.error error, bench'.1) ∧
              outcome = .error error) ∨
            ∃ result : SessionResult, r₁.tick.2.saveReport id report = (.ok (), bench'.1) ∧
              result.report = report ∧ outcome = .ok result)) := by
  unfold run at h
  rw [hstart] at h
  dsimp only at h
  split at h
  · next error r hopened => exact .inl ⟨error, r, hopened, (Prod.mk.inj h).1.symm⟩
  · next r hopened =>
      rw [hopened] at hplay
      refine .inr ⟨r, hopened, ?_⟩
      dsimp only at hplay
      rw [hplay] at h
      cases played with
      | error error =>
          obtain ⟨houtcome, hrest⟩ := Prod.mk.inj h
          exact .inl ⟨error, rfl, houtcome.symm, by rw [← (Prod.mk.inj hrest).2]⟩
      | ok =>
          refine .inr ⟨rfl, _, _, rfl, rfl, ?_⟩
          dsimp only at h
          split at h
          · next error r₂ hsaved =>
              obtain ⟨houtcome, hrest⟩ := Prod.mk.inj h
              exact .inl ⟨error, by rw [hsaved, ← (Prod.mk.inj hrest).2], houtcome.symm⟩
          · next r₂ hsaved =>
              obtain ⟨houtcome, hrest⟩ := Prod.mk.inj h
              exact .inr ⟨_, by rw [hsaved, ← (Prod.mk.inj hrest).2], rfl, houtcome.symm⟩

/-- A session with a store whose batches all come and that nothing interrupts ends with a result that
is stored: unless something is in the way of its files, the space offers an atom without document, or
the statistics of what was measured have no document although every fitness is finite. -/
theorem run_stored {store : Store} {played : Except SessionError Unit} {s' : Session}
    {bench₁ : Runner × ε} (hstore : bench.1.store = some store) (hid : id ≠ "")
    (hp : p.Calm store id) (hfinite : bench.1.IsFinite) (hexact : bench.1.now.Exact)
    (hpast : 0 ≤ bench.1.now.total) (hshown : bench.1.now.document?.isSome = true)
    (hstart : Session.start space config = .ok (s, mode))
    (hfits : config.rounds.toInt * config.offspring.toInt < 2 ^ 63)
    (hbreeds : Session.Breeds p config mode config.rounds.toInt.toNat s
      ((bench.1.tick.2.startTrace id).2, bench.2))
    (hplay : Session.play p config mode .never config.rounds.toInt.toNat s
      ((bench.1.tick.2.startTrace id).2, bench.2) = (played, s', bench₁))
    (hrun : p.run space config id .never bench = (outcome, progress, bench'))
    (hend : bench'.1.now.document?.isSome = true) :
    (∃ result, outcome = .ok result ∧ result.IsStored store id bench'.1.files) ∨
      ∃ error, outcome = .error error ∧
        ((∃ step, error = .trace (.store (.file step)) ∧ ¬store.Clear id bench.1.files) ∨
          (∃ step, error = .store (.file step) ∧
            ¬store.Clear id (bench₁.1.writeTrace id s'.trace.reverse).files) ∨
          (∃ e, error = .trace (.unencodable e) ∧ space.Unwritable e) ∨
          ∃ e, error = .store (.unencodable e) ∧ s'.population.IsFinite ∧
            (Stats.of (s'.population.ranked.map (·.2))).encode = .error e) := by
  have hconfig := (Session.start_eq_ok hstart).1
  have hkept := (Session.start_kept hstart config.offspring.toInt.toNat fun _ => True).1
  have hflow : bench.1.now.Flows bench.1.tick.2.now := .later _ 1
  have hpast' : 0 < bench.1.tick.2.now.total := by
    have htotal := Instant.total_later bench.1.now 1
    change 0 < (bench.1.now.later 1).total
    omega
  rcases run_stages hstart hplay hrun with ⟨error, r, hopened, rfl⟩ | ⟨r, hopened, hplayed⟩
  · obtain ⟨step, rfl, hclear⟩ := Runner.startTrace_eq_error (r := bench.1.tick.2) hstore hopened
    exact .inr ⟨_, rfl, .inl ⟨step, rfl, hclear⟩⟩
  have hready : (r, bench.2).1.Ready store id "" bench.1.tick.2.now :=
    Runner.startTrace_ready (r := bench.1.tick.2) hstore hfinite hopened
  have hprecedes := Session.play_precedes hp config mode .never config.rounds.toInt.toNat s (r, bench.2)
  rw [hopened] at hbreeds hplay
  rw [hplay] at hprecedes
  have hready₁ := hready.after hprecedes
  rcases hplayed with ⟨error, rfl, rfl, hbench⟩ | ⟨rfl, r₁, report, hr₁, hreport, hsaved⟩
  · rw [hbench, Runner.now_writeTrace] at hend
    have hshown' := hflow.shown hready₁.clock hexact hshown hend
    obtain ⟨e, rfl, he⟩ := Session.unwritable_of_play hp hconfig hkept hready (hflow.exact hexact)
      hshown' hbreeds hplay hend
    exact .inr ⟨_, rfl, .inr (.inr (.inl ⟨e, rfl, he⟩))⟩
  · obtain ⟨⟨pool, log, hlogged, -⟩, htraces⟩ :=
      hkept.play hp.quiet (fun _ _ _ => trivial) hready.toTraces hplay
    obtain ⟨horder, hsize, hcount⟩ := Session.inOrder_of_start hstart hfits hplay
    have hfinished : r₁.tick.1 = bench₁.1.now := hr₁ ▸ Runner.now_writeTrace _ _ _
    have hwritten : r₁.tick.2.Traces store id
        ((Trace.encodeLines s'.trace.reverse).1.foldl (· ++ ·) "") := by
      rw [hr₁]
      exact ⟨(htraces.writeTrace _).store_eq, (htraces.writeTrace _).trace⟩
    have hvalid : report.validate = .ok () := by
      rw [hreport, hfinished]
      exact Session.validate_report hid hconfig horder hsize hcount
        (fun y hy => (hlogged.written hy).1) (hpast'.trans_le hready₁.clock.total_le)
        (hflow.trans hready₁.clock).total_le
    rcases hsaved with ⟨error, hsaved, rfl⟩ | ⟨result, hsaved, hresult, rfl⟩
    · obtain ⟨step, rfl, hclear⟩ | ⟨e, rfl, htext⟩ :=
        Runner.unsaved_of_saveReport hwritten.store_eq hid hvalid hsaved
      · exact .inr ⟨_, rfl, .inr (.inl ⟨step, rfl, hr₁ ▸ hclear⟩)⟩
      · have hnow := Runner.now_saveReport hwritten.store_eq id hvalid
        rw [hsaved] at hnow
        have hlast : bench₁.1.now.Flows bench'.1.now := by
          rw [hnow, ← hfinished]
          exact .later r₁.now 1
        have hshown' := (hflow.trans hready₁.clock).shown hlast hexact hshown hend
        rw [hreport, hfinished] at htext
        have hstats := hlogged.encode_stats_of_report (Config.recordable hconfig).2.2 hshown hshown'
          (Report.encode_eq_error_of_text (Session.isFlat_report hlogged.balanced) htext)
        exact .inr ⟨_, rfl, .inr (.inr (.inr ⟨e, rfl, fun y hy => (hlogged.written hy).1, hstats⟩))⟩
    · have hfinal := hwritten.saveReport report
      rw [hsaved] at hfinal
      refine .inl ⟨result, rfl, ⟨_, hfinal.trace, ?_⟩, hresult ▸ hvalid, ?_⟩
      · rw [hlogged.length_lines, hresult, hreport]
        exact (horder.report hsize hcount _ _ _ _).2.1.symm
      · have hsave := Runner.save_of_saveReport hwritten.store_eq hvalid hsaved
        rw [hresult]
        rw [hreport, hfinished] at hsave ⊢
        exact Store.load_of_save hid hexact ((hflow.trans hready₁.clock).exact hexact) hsave

theorem run_stored_onlyHeads : ∃ (result : SessionResult) (progress : List Progress)
    (bench' : Runner × Unit),
    (onlyHeads.probe : Probe Unit).run seededCoin oneRound "coin" .never (newStore, ()) =
      (.ok result, progress, bench') ∧
    result.report.evaluations = 2 ∧ result.IsStored ⟨"store"⟩ "coin" bench'.1.files := by
  obtain ⟨result, progress, bench', hrun, hevaluations, -⟩ := onlyHeads_ends
  obtain ⟨s, hstart, hbreeds⟩ : ∃ s, Session.start seededCoin oneRound = .ok (s, .maximize) ∧
      Session.Breeds (onlyHeads.probe : Probe Unit) oneRound .maximize 1 s
        ((newStore.tick.2.startTrace "coin").2, ()) := by
    refine ⟨_, rfl, ⟨_, _, rfl, nofun⟩, ?_⟩
    split <;> trivial
  have hend : ((onlyHeads.probe : Probe Unit).run seededCoin oneRound "coin" .never
      (newStore, ())).2.2.1.now.document?.isSome = true := by decide +kernel
  rw [hrun] at hend
  have hstore : (newStore, ()).1.store = some ⟨"store"⟩ := rfl
  have hnothing : newStore.IsFinite := fun key x hx => by simp [newStore] at hx
  rcases hplay : Session.play (onlyHeads.probe : Probe Unit) oneRound .maximize .never 1 s
    ((newStore.tick.2.startTrace "coin").2, ()) with ⟨played, s', bench₁⟩
  obtain ⟨result', hresult, hstored⟩ | ⟨error, herror, -⟩ :=
    run_stored hstore (by decide) (onlyHeads.calm ⟨"store"⟩ "coin") hnothing
      ⟨by decide, by decide⟩ (by decide) (by decide +kernel) hstart (by decide) hbreeds hplay
      hrun hend
  · obtain rfl := Except.ok.inj hresult
    exact ⟨result, progress, bench', hrun, hevaluations, hstored⟩
  · cases herror

/-- Every candidate has a fitness that is finite, but whose double is not. -/
def huge : Objective :=
  .checked "huge" "huge" fun _ => .ok 1e308

/-- The report of a session is lost to the mean of what was measured. -/
theorem run_unsaved_huge : oneRound.validate = .ok () ∧ ∃ (error : SessionError)
    (progress : List Progress) (bench' : Runner × Unit),
    (huge.probe : Probe Unit).run seededCoin oneRound "coin" .never (newStore, ()) =
      (.error error, progress, bench') ∧
    error.message = "failed to serialize report: json: unsupported value: +Inf" := by
  have hmessage : (((huge.probe : Probe Unit).run seededCoin oneRound "coin" .never (newStore, ())).1.map
      (·.report.evaluations)).mapError SessionError.message =
        .error "failed to serialize report: json: unsupported value: +Inf" := by
    decide +kernel
  rcases hrun : (huge.probe : Probe Unit).run seededCoin oneRound "coin" .never (newStore, ()) with
    ⟨error | result, progress, bench'⟩
  · rw [hrun] at hmessage
    exact ⟨rfl, error, progress, bench', rfl, Except.error.inj hmessage⟩
  · rw [hrun] at hmessage
    cases hmessage

end Probe

end Tuning
