import Tuning.Proofs.Session.Memory
import Tuning.Proofs.Session.Optimum
import Tuning.Proofs.Session.Traffic
import Tuning.Proofs.Store.Reports

/-! # What a session with a store writes

Every measurement becomes a line of the trace. All numbers that a session records are finite, and its
clock goes on; so the only thing that has no line is a candidate with an atom that has no document. -/

namespace Tuning

/-- A number with a document. -/
abbrev IsFinite (x : Float) : Prop :=
  (x.isNaN || x.isInf) = false

/-! ## Time goes on -/

/-- From one instant to another time does not go back, under the same offset. -/
structure Instant.Flows (t u : Instant) : Prop where
  total_le : t.total ≤ u.total
  offset_eq : u.offset = t.offset
  nanoseconds_lt : t.nanoseconds < 10 ^ 9 → u.nanoseconds < 10 ^ 9

namespace Instant.Flows

variable {t u v : Instant}

theorem refl (t : Instant) : t.Flows t :=
  ⟨le_rfl, rfl, id⟩

theorem trans (h : t.Flows u) (h' : u.Flows v) : t.Flows v :=
  ⟨h.total_le.trans h'.total_le, h'.offset_eq.trans h.offset_eq,
    fun ht => h'.nanoseconds_lt (h.nanoseconds_lt ht)⟩

theorem later (t : Instant) (n : Nat) : t.Flows (t.later n) := by
  refine ⟨?_, rfl, fun _ => Nat.mod_lt _ (by decide)⟩
  rw [total_later]
  omega

theorem exact (h : t.Flows u) (ht : t.Exact) : u.Exact :=
  ⟨h.nanoseconds_lt ht.nanoseconds_lt, h.offset_eq ▸ ht.minutes⟩

/-- What comes between two instants with a text in documents has one. -/
theorem shown (h : t.Flows u) (h' : u.Flows v) (ht : t.Exact) (hfirst : t.document?.isSome = true)
    (hlast : v.document?.isSome = true) : u.document?.isSome = true :=
  document?_between (h.nanoseconds_lt ht.nanoseconds_lt)
    ((h.trans h').nanoseconds_lt ht.nanoseconds_lt) h.offset_eq.symm h'.offset_eq.symm h.total_le
    h'.total_le hfirst hlast

end Instant.Flows

/-! ## What runners keep -/

/-- Every remembered fitness is a finite number. -/
def Runner.IsFinite (r : Runner) : Prop :=
  ∀ key x, r.memo.get? key = some x → Tuning.IsFinite x.value

/-- One runner comes after another: the store and the trace of a session are the same, time goes on, and
what is remembered stays finite. -/
structure Runner.Precedes (store : Store) (id : String) (r r' : Runner) : Prop where
  store_eq : r'.store = r.store
  trace : ∀ text, store.Has id "trace.jsonl" text r.files → store.Has id "trace.jsonl" text r'.files
  clock : r.now.Flows r'.now
  finite : r.IsFinite → r'.IsFinite

namespace Runner

variable {store : Store} {id : String} {r r' r'' : Runner}

theorem Precedes.refl (store : Store) (id : String) (r : Runner) : r.Precedes store id r :=
  ⟨rfl, fun _ h => h, .refl _, fun h => h⟩

theorem Precedes.trans (h : r.Precedes store id r') (h' : r'.Precedes store id r'') :
    r.Precedes store id r'' :=
  ⟨h'.store_eq.trans h.store_eq, fun text htext => h'.trace text (h.trace text htext),
    h.clock.trans h'.clock, fun hr => h'.finite (h.finite hr)⟩

theorem precedes_tick (store : Store) (id : String) (r : Runner) : r.Precedes store id r.tick.2 :=
  ⟨rfl, fun _ h => h, .later _ 1, fun h => h⟩

theorem isFinite_lookup (hr : r.IsFinite) {key : String} {fitness : Float}
    (h : r.lookup key = some fitness) : Tuning.IsFinite fitness := by
  obtain ⟨x, hx, hcurrent⟩ := Option.bind_eq_some_iff.mp h
  unfold Lasting.current? at hcurrent
  split at hcurrent
  · cases hcurrent
  · exact Option.some.inj hcurrent ▸ hr key x hx

theorem precedes_remember (r : Runner) (key : String) {fitness : Float} (h : Tuning.IsFinite fitness) :
    r.Precedes store id ((r.remember key fitness).release key) := by
  refine ⟨rfl, fun _ htext => htext, .refl _, fun hr other x hx => ?_⟩
  have hmemo : (r.remember key fitness).memo.get? other = some x := hx
  rw [memo_remember] at hmemo
  split at hmemo
  · exact Option.some.inj hmemo ▸ h
  · exact hr other x hmemo

/-- The runner has an open trace and remembers finite numbers, and its clock has gone on from an
instant. -/
structure Ready (store : Store) (id text : String) (start : Instant) (r : Runner) : Prop
    extends r.Traces store id text where
  finite : r.IsFinite
  clock : start.Flows r.now

theorem Ready.after {text : String} {start : Instant} (h : r.Ready store id text start)
    (h' : r.Precedes store id r') : r'.Ready store id text start where
  store_eq := h'.store_eq.trans h.store_eq
  trace := h'.trace text h.trace
  finite := h'.finite h.finite
  clock := h.clock.trans h'.clock

end Runner

namespace Probe

variable {ε : Type} {p : Probe ε} {store : Store} {id : String}

/-- Evaluations leave the store and the trace of a session alone, take time, and remember finite numbers
only. -/
def Calm (store : Store) (id : String) (p : Probe ε) : Prop :=
  ∀ (context : Context) (c : Candidate) (s : Runner × ε),
    s.1.Precedes store id (p.evaluate context c s).2.1

theorem Calm.quiet (hp : p.Calm store id) : p.Quiet store id :=
  ⟨fun context c s => (hp context c s).store_eq, fun context c s text h => (hp context c s).trace text h⟩

theorem Calm.measure (hp : p.Calm store id) (context : Context) (x : Individual) (s : Runner × ε) :
    s.1.Precedes store id (p.measure context x s).2.1 ∧
      (s.1.IsFinite → ∀ fitness, (p.measure context x s).1.fitness? = some fitness →
        IsFinite fitness) := by
  unfold Probe.measure
  dsimp only
  split
  · next fitness hlookup =>
      refine ⟨.refl _ _ _, fun hr fitness' h => ?_⟩
      exact Option.some.inj h ▸ Runner.isFinite_lookup hr hlookup
  · split
    · exact ⟨.refl _ _ _, fun _ _ h => by cases h⟩
    · next marked hmark =>
        obtain ⟨last, rfl⟩ := Runner.mark_eq_some hmark
        have hmarked : s.1.Precedes store id { s.1 with
            inFlight := (Runner.scopedKey p.identity x.key, last) ::
              (s.1.release (Runner.scopedKey p.identity x.key)).inFlight } :=
          ⟨rfl, fun _ h => h, .refl _, fun h => h⟩
        have hevaluated := hmarked.trans (hp context x.candidate (_, s.2))
        split
        · next fitness hjudge =>
            have hfinite := (judge_eq_ok hjudge).2
            refine ⟨hevaluated.trans (Runner.precedes_remember _ _ hfinite), fun _ fitness' h => ?_⟩
            exact Option.some.inj h ▸ hfinite
        · exact ⟨⟨hevaluated.store_eq, hevaluated.trace, hevaluated.clock, hevaluated.finite⟩,
            fun _ _ h => by cases h⟩

end Probe

theorem Objective.calm {ε : Type} (o : Objective) (store : Store) (id : String) :
    (o.probe : Probe ε).Calm store id :=
  fun _ _ s => .refl store id s.1

/-! ## What has no document -/

theorem exists_encodeInstant {t : Instant} (h : t.document?.isSome = true) :
    ∃ j, encodeInstant t = .ok j := by
  obtain ⟨text, htext⟩ := Option.isSome_iff_exists.mp h
  exact ⟨.string text, by rw [encodeInstant, htext]⟩

/-- Only its candidate keeps an entry with finite numbers and a time in range from having a line. -/
theorem TraceEntry.encode_candidate_of_line {e : TraceEntry} {error : EncodeError}
    (hfitness : IsFinite e.fitness) (hbest : IsFinite e.best)
    (htime : e.timestamp.document?.isSome = true) (h : e.line = .error error) :
    encodeMapping e.candidate = .error error := by
  obtain ⟨timestamp, htimestamp⟩ := exists_encodeInstant htime
  rcases except_bind_eq_error.mp h with h | ⟨_, _, h⟩
  · unfold TraceEntry.encode at h
    rw [encodeFloat_of_finite hfitness, encodeFloat_of_finite hbest, htimestamp] at h
    rcases except_bind_eq_error.mp h with h | ⟨_, _, h⟩
    · exact h
    · cases h
  · cases h

theorem Value.exists_of_encodeFields {fields : List (String × Value)} {error : EncodeError}
    (h : encodeFields fields = .error error) : ∃ field ∈ fields, field.2.encode = .error error := by
  induction fields with
  | nil => cases h
  | cons field rest ih =>
      obtain ⟨name, v⟩ := field
      rw [encodeFields] at h
      rcases except_bind_eq_error.mp h with hv | ⟨j, -, h⟩
      · exact ⟨(name, v), by simp, hv⟩
      · rcases except_bind_eq_error.mp h with hrest | ⟨_, _, h⟩
        · obtain ⟨field, hfield, hencode⟩ := ih hrest
          exact ⟨field, List.mem_cons_of_mem _ hfield, hencode⟩
        · cases h

/-- The space offers an atom that has no document. -/
def Space.Unwritable (space : Space) (error : EncodeError) : Prop :=
  ∃ p ∈ space.parameters, ∃ choices, p.domain = .choice choices ∧
    ∃ v ∈ choices, v.encode = .error error

/-- Only an atom keeps a candidate of a space from having a document. -/
theorem Individual.Suits.unwritable {space : Space} {x : Individual} (hx : x.Suits space)
    {error : EncodeError} (h : x.candidate.encode = .error error) : space.Unwritable error := by
  have hfields : Value.encodeFields x.candidate = .error error := by
    rw [Candidate.encode, Value.encode] at h
    rcases except_bind_eq_error.mp h with h | ⟨_, _, h⟩
    · exact h
    · cases h
  obtain ⟨field, hfield, hencode⟩ := Value.exists_of_encodeFields hfields
  obtain ⟨p, hp, g, hg, hvalue⟩ := hx.exists_gene hfield
  rw [hvalue] at hencode
  generalize hdomain : p.domain = d at hg
  cases hg with
  | choice hc => exact ⟨p, hp, _, hdomain, _, hc.mem_choices, hencode⟩
  | discrete => cases hencode
  | permutation _ => cases hencode
  | factor => cases hencode

/-! ## Finite fitness -/

/-- Every recorded fitness is a finite number. -/
def Population.IsFinite (p : Population) : Prop :=
  ∀ y ∈ p.ranked, Tuning.IsFinite y.2

namespace Population

variable {p p' : Population}

theorem IsFinite.append (h : p.IsFinite) {x : Individual} {fitness : Float}
    (hfitness : Tuning.IsFinite fitness) (happend : p.append x fitness = some p') : p'.IsFinite := by
  obtain ⟨-, rfl⟩ := append_eq_some happend
  have hnan : fitness.isNaN = false := (Bool.or_eq_false_iff.mp hfitness).1
  intro y hy
  obtain ⟨z, hz, rfl⟩ := List.mem_map.mp hy
  rcases List.mem_cons.mp ((Ranking.insert_perm _ _ _).mem_iff.mp hz) with rfl | hz
  · change Tuning.IsFinite (p.mode.orient (p.mode.orient fitness))
    rwa [orient_orient p.mode hnan]
  · exact h _ (List.mem_map.mpr ⟨z, hz, rfl⟩)

theorem IsFinite.best (h : p.IsFinite) : Tuning.IsFinite ((p.best?.map (·.2)).getD 0) := by
  cases hbest : p.best? with
  | none => decide +kernel
  | some y => exact h y (List.mem_of_head? hbest)

end Population

namespace Session

variable {ε : Type} {p : Probe ε} {store : Store} {id : String} {space : Space} {rate : Float}
  {mode : Mode} {size : Nat} {pool : List Individual} {log : Log} {s s' : Session}

theorem measureBatch_precedes (hp : p.Calm store id) (limit : Duration) (i : Interrupt) (task : Nat)
    (xs : List Individual) (bench : Runner × ε) :
    bench.1.Precedes store id (measureBatch p limit i task xs bench).2.1 ∧
      (bench.1.IsFinite → ∀ outcome fitness, some outcome ∈ (measureBatch p limit i task xs bench).1 →
        outcome.fitness? = some fitness → IsFinite fitness) := by
  induction xs generalizing task bench with
  | nil => exact ⟨.refl _ _ _, fun _ _ _ h => by cases h⟩
  | cons x xs ih =>
      rw [measureBatch]
      split
      · obtain ⟨hprecedes, hfinite⟩ := ih (task + 1) bench
        refine ⟨hprecedes, fun hr outcome fitness hmem => ?_⟩
        exact hfinite hr outcome fitness (by simpa using hmem)
      · obtain ⟨hmeasured, hfirst⟩ := hp.measure (.within (i.atMeasurement task) limit) x bench
        obtain ⟨hprecedes, hfinite⟩ := ih (task + 1)
          (p.measure (.within (i.atMeasurement task) limit) x bench).2
        refine ⟨hmeasured.trans hprecedes, fun hr outcome fitness hmem => ?_⟩
        rcases List.mem_cons.mp hmem with h | h
        · exact Option.some.inj h ▸ hfirst hr fitness
        · exact hfinite (hmeasured.finite hr) outcome fitness h

theorem recordBatch_precedes {stored : Bool} {measured : Log} {r r' : Runner} {last : Session}
    {result : Except EncodeError Session} (h : recordBatch stored measured s r = (result, last, r')) :
    r.Precedes store id r' := by
  induction measured generalizing s r with
  | nil =>
      obtain ⟨-, -, rfl⟩ : .ok s = result ∧ s = last ∧ r = r' := by simpa [recordBatch] using h
      exact .refl _ _ _
  | cons xo measured ih =>
      obtain ⟨x, outcome⟩ := xo
      rw [recordBatch] at h
      dsimp only at h
      split at h
      · obtain ⟨-, hrest⟩ := Prod.mk.inj h
        exact (Prod.mk.inj hrest).2 ▸ r.precedes_tick store id
      · exact (r.precedes_tick store id).trans (ih h)

theorem playRound_precedes (hp : p.Calm store id) (config : Config) (mode : Mode) (i : Interrupt)
    (s : Session) (bench : Runner × ε) :
    bench.1.Precedes store id (playRound p config mode i s bench).2.1 := by
  unfold playRound
  split
  · exact .refl _ _ _
  · exact .refl _ _ _
  · exact .refl _ _ _
  · next children population source _ =>
      have hmeasured := (measureBatch_precedes hp config.evalTimeout i s.evaluations children bench).1
      dsimp only
      split
      · exact hmeasured
      · split
        · next hrecord => exact hmeasured.trans (recordBatch_precedes hrecord)
        · next hrecord => exact hmeasured.trans (recordBatch_precedes hrecord)

theorem play_precedes (hp : p.Calm store id) (config : Config) (mode : Mode) (i : Interrupt)
    (rounds : Nat) (s : Session) (bench : Runner × ε) :
    bench.1.Precedes store id (play p config mode i rounds s bench).2.2.1 := by
  induction rounds generalizing s bench with
  | zero => exact .refl _ _ _
  | succ rounds ih =>
      have hround := playRound_precedes hp config mode i s bench
      rw [play_succ]
      split
      · next hgoOn =>
          rw [hgoOn] at hround
          exact hround.trans (ih _ _)
      · next hstop =>
          rw [hstop] at hround
          exact hround
      · next hfail =>
          rw [hfail] at hround
          exact hround

/-! ## Lines that cannot be written -/

theorem showBest_trace {e : TraceEntry} {rest : List TraceEntry} (h : s.trace = e :: rest) :
    s.showBest.trace = { e with best := (s.population.best?.map (·.2)).getD e.best } :: rest ∧
      s.showBest.population = s.population := by
  unfold showBest
  rw [h]
  cases s.population.best? with
  | none => exact ⟨h, rfl⟩
  | some y => exact ⟨rfl, rfl⟩

/-- The entry of a measurement. -/
theorem exists_entry (s : Session) (x : Individual) (outcome : Outcome) (time : Instant) :
    ∃ e, (s.record x outcome time).trace = e :: s.trace ∧ e.candidate = some x.candidate ∧
      e.timestamp = time ∧ e.fitness = outcome.fitness?.getD 0 ∧
      e.best = ((s.record x outcome time).population.best?.map (·.2)).getD 0 := by
  unfold record
  cases outcome with
  | scored fitness cached =>
      obtain ⟨htrace, hpopulation⟩ := showBest_trace (s := { s with
        evaluations := s.evaluations + 1, cached := if cached then s.cached + 1 else s.cached
        population := (s.population.append x fitness).getD s.population
        trace := _ :: s.trace }) rfl
      exact ⟨_, htrace, rfl, rfl, rfl, by rw [hpopulation]⟩
  | failed error =>
      obtain ⟨htrace, hpopulation⟩ := showBest_trace (s := { s with
        evaluations := s.evaluations + 1, failures := s.failures + 1, trace := _ :: s.trace }) rfl
      exact ⟨_, htrace, rfl, rfl, rfl, by rw [hpopulation]⟩

theorem isFinite_record (h : s.population.IsFinite) (x : Individual) {outcome : Outcome}
    (houtcome : ∀ fitness, outcome.fitness? = some fitness → IsFinite fitness) (time : Instant) :
    (s.record x outcome time).population.IsFinite := by
  cases outcome with
  | scored fitness cached =>
      obtain ⟨trace, hrecord⟩ := s.record_scored x fitness cached time
      rw [hrecord]
      cases happend : s.population.append x fitness with
      | none => simpa [happend] using h
      | some population => simpa [happend] using h.append (houtcome fitness rfl) happend
  | failed error =>
      obtain ⟨trace, hrecord⟩ := s.record_failed x error time
      rw [hrecord]
      exact h

/-- A batch whose recording stops has a candidate without document, if all numbers are finite and all
times are in range. -/
theorem exists_of_recordBatch {measured : Log} {error : EncodeError} {last : Session} {r r' : Runner}
    {start : Instant} (h : recordBatch true measured s r = (.error error, last, r'))
    (hpopulation : s.population.IsFinite)
    (hmeasured : ∀ y ∈ measured, ∀ fitness, y.2.fitness? = some fitness → IsFinite fitness)
    (hexact : start.Exact) (hshown : start.document?.isSome = true) (hclock : start.Flows r.now)
    (hend : r'.now.document?.isSome = true) :
    ∃ x ∈ measured.map (·.1), x.candidate.encode = .error error := by
  induction measured generalizing s r with
  | nil => simp [recordBatch] at h
  | cons xo measured ih =>
      obtain ⟨x, outcome⟩ := xo
      obtain ⟨houtcome, hrest⟩ := List.forall_mem_cons.mp hmeasured
      obtain ⟨e, htrace, hcandidate, htime, hfitness, hbest⟩ := s.exists_entry x outcome r.tick.1
      have hnext := isFinite_record hpopulation x houtcome r.tick.1
      have hticked : start.Flows r.tick.2.now := hclock.trans (.later r.now 1)
      rw [recordBatch] at h
      dsimp only at h
      rw [htrace] at h
      split at h
      · next error' hline =>
          obtain ⟨herror, hlast⟩ := Prod.mk.inj h
          have hfinite : IsFinite e.fitness := by
            rw [hfitness]
            cases hscore : outcome.fitness? with
            | none => decide +kernel
            | some fitness => exact houtcome fitness hscore
          have hnow : r.now.document?.isSome = true := by
            refine hclock.shown (.later r.now 1) hexact hshown ?_
            rwa [← (Prod.mk.inj hlast).2] at hend
          have hencode := TraceEntry.encode_candidate_of_line hfinite (hbest ▸ hnext.best)
            (htime ▸ hnow) hline
          rw [hcandidate, Except.error.inj herror] at hencode
          exact ⟨x, by simp, hencode⟩
      · obtain ⟨y, hy, hencode⟩ := ih h hnext hrest hticked
        exact ⟨y, List.mem_cons_of_mem x hy, hencode⟩

/-- What was recorded is in the trace, so it has a finite fitness and a document. -/
theorem Logged.written {P : Outcome → Prop} (h : s.Logged P space rate mode size pool log)
    {y : Individual × Float} (hy : y ∈ s.population.ranked) :
    IsFinite y.2 ∧ ∃ j, y.1.candidate.encode = .ok j := by
  have hlog := (h.holds.ranked_perm h.numbers).mem_iff.mp hy
  obtain ⟨⟨x, outcome⟩, hx, hsuccess⟩ := List.mem_filterMap.mp hlog
  obtain ⟨fitness, hfitness, rfl⟩ := Option.map_eq_some_iff.mp hsuccess
  obtain ⟨before, after, hsplit⟩ := List.append_of_mem hx
  obtain ⟨e, hentry, htells⟩ := h.traced.tells before x outcome after hsplit
  have he : e ∈ s.trace := List.mem_reverse.mp (List.mem_of_getElem? hentry)
  obtain ⟨line, hline⟩ := h.lines e he
  obtain ⟨j, hj, -⟩ := TraceEntry.line_eq_ok hline
  obtain ⟨candidate, -, hcandidate, hfinite, -⟩ := TraceEntry.encode_eq_ok hj
  rw [htells.candidate_eq] at hcandidate
  rw [htells.fitness_eq fitness hfitness] at hfinite
  exact ⟨hfinite, candidate, hcandidate⟩

/-! ## Sessions that cannot be written -/

section Failing

variable {config : Config} {text : String} {start : Instant} {error : SessionError}
  {bench bench' : Runner × ε}

/-- Without an interruption a round fails for an atom without document only. -/
theorem unwritable_of_playRound {P : Outcome → Prop} (hp : p.Calm store id)
    (hconfig : config.validate = .ok ()) (h : s.Kept P space rate mode config.offspring.toInt.toNat)
    (hready : bench.1.Ready store id text start) (hexact : start.Exact)
    (hshown : start.document?.isSome = true) (hreturns : s.Returns config)
    (hround : playRound p config mode .never s bench = (.fail error s', bench'))
    (hend : bench'.1.now.document?.isSome = true) :
    ∃ e, error = .trace (.unencodable e) ∧ space.Unwritable e := by
  obtain ⟨-, hparents, hoffspring, -⟩ := Config.validate_eq_ok hconfig
  obtain ⟨pool, log, hlogged, -⟩ := h
  obtain ⟨result, source, hbred, hfits⟩ := hreturns
  unfold playRound at hround
  rw [hbred] at hround
  cases result with
  | error e =>
      have herror := Population.offspring_eq_error hparents hoffspring
        (fun bound hbound => hlogged.balanced.search.make_ne_error hbound) hbred
      rcases herror with rfl | rfl
      · cases hround
      · exact absurd rfl (hfits _)
  | ok bred =>
      obtain ⟨batch, population⟩ := bred
      obtain ⟨hbalanced, -, -⟩ := hlogged.balanced.offspring hbred
      obtain ⟨n, rfl⟩ := Population.breed_population (Population.offspring_eq_ok hbred).2
      obtain ⟨outcomes, ⟨r, e⟩, hmeasure, hcount, -⟩ :=
        measureBatch_never hp.quiet.store_eq config.evalTimeout s.evaluations batch bench
      obtain ⟨hprecedes, hfinite⟩ :=
        measureBatch_precedes hp config.evalTimeout .never s.evaluations batch bench
      rw [hmeasure] at hprecedes hfinite
      have hready' : r.Ready store id text start := hready.after hprecedes
      have houtcomes : ∀ y ∈ batch.zip outcomes, ∀ fitness, y.2.fitness? = some fitness →
          IsFinite fitness := fun y hy fitness hfitness =>
        hfinite hready.finite y.2 fitness (List.mem_map_of_mem (List.of_mem_zip hy).2) hfitness
      simp only [hmeasure, interruption?, Interrupt.atMeasurement, measured_eq_zip,
        hready'.store_eq, Option.isSome_some] at hround
      split at hround
      · next e' last r' hrecord =>
          obtain ⟨hturn, rfl⟩ := Prod.mk.inj hround
          obtain ⟨rfl, -⟩ := Turn.fail.inj hturn
          obtain ⟨x, hx, hencode⟩ := exists_of_recordBatch hrecord
            (fun y hy => (hlogged.written hy).1) houtcomes hexact hshown hready'.clock hend
          rw [List.map_fst_zip (Nat.le_of_eq hcount.symm)] at hx
          have hsuits := (hbalanced.search.fitting space.law_suits).2 x (List.mem_append_left pool hx)
          exact ⟨e', rfl, Individual.Suits.unwritable hsuits hencode⟩
      · next s₁ last r' hrecord =>
          obtain ⟨s₂, hclose | ⟨hclose, -⟩, -⟩ := closeRound_eq (convergence config) mode s₁
          · cases hclose.symm.trans (Prod.mk.inj hround).1
          · cases hclose.symm.trans (Prod.mk.inj hround).1

/-- So does a whole session. -/
theorem unwritable_of_play (hp : p.Calm store id) (hconfig : config.validate = .ok ())
    (h : s.Kept (fun _ => True) space rate mode config.offspring.toInt.toNat)
    (hready : bench.1.Ready store id text start) (hexact : start.Exact)
    (hshown : start.document?.isSome = true) {rounds : Nat}
    (hbreeds : Breeds p config mode rounds s bench)
    (hplay : play p config mode .never rounds s bench = (.error error, s', bench'))
    (hend : bench'.1.now.document?.isSome = true) :
    ∃ e, error = .trace (.unencodable e) ∧ space.Unwritable e := by
  induction rounds generalizing s bench with
  | zero => cases hplay
  | succ rounds ih =>
      obtain ⟨hreturns, hrest⟩ := hbreeds
      have hprecedes := playRound_precedes hp config mode .never s bench
      rw [play_succ] at hplay
      split at hplay
      · next s₁ bench₁ hround =>
          rw [hround] at hrest hprecedes
          obtain ⟨hkept, -⟩ := h.playRound hp.quiet (fun _ _ _ => trivial) hready.toTraces (.inl hround)
          exact ih hkept (hready.after hprecedes) hrest hplay
      · cases hplay
      · next error' s₁ bench₁ hround =>
          obtain ⟨herror, hlast⟩ := Prod.mk.inj hplay
          obtain ⟨-, rfl⟩ := Prod.mk.inj hlast
          obtain rfl := Except.error.inj herror
          exact unwritable_of_playRound hp hconfig h hready hexact hshown hreturns hround hend

end Failing

end Session

end Tuning
