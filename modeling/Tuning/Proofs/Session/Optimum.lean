import Tuning.Proofs.Population.Ranking
import Tuning.Proofs.Session.Accounting
import Tuning.Proofs.Store.Traces

/-! # The optimum of a session

A session with a store leaves a trace of every measurement. Its entries are numbered, and each shows the
best fitness so far. The report shows the best of all, and the best candidates in order. -/

namespace Tuning

/-! ## Order of fitness -/

/-- Whether one fitness is no worse than another. -/
def Mode.NoWorse (mode : Mode) (x y : Float) : Prop :=
  match mode with
  | .maximize => y ≤ x
  | .minimize => x ≤ y

theorem Mode.noWorse_orient (mode : Mode) {x y : Float} (h : y ≤ x) :
    mode.NoWorse (mode.orient x) (mode.orient y) := by
  cases mode with
  | maximize => exact h
  | minimize => exact float_neg_le_neg_iff.mpr h

theorem Mode.NoWorse.refl (mode : Mode) {x : Float} (h : x.isNaN = false) : mode.NoWorse x x := by
  have hle : x ≤ x := float_le_iff.mpr ⟨h, h, le_refl _⟩
  cases mode <;> exact hle

/-- A list that begins with its extreme has it as its extreme. -/
theorem Stats.extreme_eq_head {before : Float → Float → Bool} {x : Float} {rest : List Float}
    (hx : x.isNaN = false) (h : ∀ y ∈ rest, before y x = false) : extreme before (x :: rest) = x := by
  rw [extreme]
  induction rest with
  | nil => rfl
  | cons y rest ih =>
      obtain ⟨hy, hrest⟩ := List.forall_mem_cons.mp h
      rw [List.foldl_cons]
      simp only [hx, hy, Bool.or_self, Bool.false_eq_true, ↓reduceIte, ite_self]
      exact ih hrest

theorem not_lt_of_float_le {x y : Float} (h : x ≤ y) : ¬y < x := by
  intro hlt
  exact absurd (float_le_iff.mp h).2.2 (not_le.mpr (float_lt_iff.mp hlt).2.2)

/-- The extreme that a mode looks for. -/
def Stats.optimum (mode : Mode) (s : Stats) : Float :=
  match mode with
  | .maximize => s.max
  | .minimize => s.min

theorem Stats.optimum_of {mode : Mode} {x : Float} {rest : List Float} (hx : x.isNaN = false)
    (h : ∀ y ∈ rest, mode.NoWorse x y) : (Stats.of (x :: rest)).optimum mode = x := by
  cases mode with
  | maximize =>
      exact extreme_eq_head hx fun y hy => decide_eq_false (not_lt_of_float_le (h y hy))
  | minimize =>
      exact extreme_eq_head hx fun y hy => decide_eq_false (not_lt_of_float_le (h y hy))

/-! ## Logs -/

/-- What was measured in a session and what came of it, in order. -/
abbrev Log := List (Individual × Outcome)

/-- What has a fitness. -/
def Log.successes (log : Log) : List (Individual × Float) :=
  log.filterMap fun (x, outcome) => outcome.fitness?.map (x, ·)

theorem Log.successes_append (log log' : Log) :
    successes (log ++ log') = log.successes ++ successes log' :=
  List.filterMap_append

/-- A fitness that was measured and that no other beats. -/
def Mode.IsBest (mode : Mode) (best : Float) (xs : List (Individual × Float)) : Prop :=
  (∃ x, (x, best) ∈ xs) ∧ ∀ y ∈ xs, mode.NoWorse best y.2

/-- The entry of a measurement that comes after others. It has no error if the measurement succeeded,
or if the objective failed and gave no words. -/
structure TraceEntry.Tells (mode : Mode) (size : Nat) (before : Log) (x : Individual)
    (outcome : Outcome) (e : TraceEntry) : Prop where
  evaluation_eq : e.evaluation = Int64.ofNat (before.length + 1)
  round_eq : e.round = Int64.ofNat (before.length / size)
  candidate_eq : e.candidate = some x.candidate
  fitness_eq : ∀ fitness, outcome.fitness? = some fitness → e.fitness = fitness
  error_iff : e.error = "" ↔
    outcome.fitness?.isSome = true ∨ outcome = .failed (.failed (.reason ""))
  best : Log.successes (before ++ [(x, outcome)]) ≠ [] →
    mode.IsBest e.best (Log.successes (before ++ [(x, outcome)]))

/-- An entry that has a line has a number for its fitness. -/
theorem TraceEntry.isNaN_fitness {e : TraceEntry} {line : String} (h : e.line = .ok line) :
    e.fitness.isNaN = false := by
  unfold TraceEntry.line at h
  obtain ⟨document, hdocument, -⟩ := except_bind_eq_ok.mp h
  unfold TraceEntry.encode at hdocument
  obtain ⟨values, -, hrest⟩ := except_bind_eq_ok.mp hdocument
  obtain ⟨number, hnumber, -⟩ := except_bind_eq_ok.mp hrest
  unfold encodeFloat at hnumber
  split at hnumber
  · cases hnumber
  · next hfinite => exact (Bool.or_eq_false_iff.mp (Bool.eq_false_iff.mpr hfinite)).1

/-- The entries of a log, one for each measurement. -/
structure Log.Traced (mode : Mode) (size : Nat) (log : Log) (entries : List TraceEntry) : Prop where
  length_eq : entries.length = log.length
  tells : ∀ before x outcome after, log = before ++ (x, outcome) :: after →
    ∃ e, entries[before.length]? = some e ∧ e.Tells mode size before x outcome

namespace Log.Traced

variable {mode : Mode} {size : Nat} {log : Log} {entries : List TraceEntry}

theorem nil (mode : Mode) (size : Nat) : Traced mode size [] [] where
  length_eq := rfl
  tells before x outcome after h := by simp at h

theorem snoc {x : Individual} {outcome : Outcome} {e : TraceEntry} (h : log.Traced mode size entries)
    (he : e.Tells mode size log x outcome) :
    Traced mode size (log ++ [(x, outcome)]) (entries ++ [e]) where
  length_eq := by simp [h.length_eq]
  tells before y other after hsplit := by
    -- the measurement is the last one, or one of those before
    rcases List.eq_nil_or_concat after with rfl | ⟨rest, last, rfl⟩
    · obtain ⟨rfl, hlast⟩ := List.append_inj' hsplit rfl
      obtain ⟨rfl, rfl⟩ := Prod.mk.inj (List.cons.inj hlast).1
      refine ⟨e, ?_, he⟩
      rw [← h.length_eq, List.getElem?_concat_length]
    · rw [List.concat_eq_append, ← List.cons_append, ← List.append_assoc] at hsplit
      obtain ⟨e', hentry, he'⟩ := h.tells before y other rest (List.append_inj' hsplit rfl).1
      have hlt := (List.getElem?_eq_some_iff.mp hentry).1
      exact ⟨e', (List.getElem?_append_left hlt).trans hentry, he'⟩

end Log.Traced

/-! ## Rankings -/

namespace Population

variable {mode : Mode} {p : Population} {kept : List (Individual × Float)}

/-- The ranking goes from better to worse. -/
theorem Holds.pairwise_ranked (h : p.Holds mode kept) (hnan : ∀ y ∈ kept, y.2.isNaN = false) :
    p.ranked.Pairwise fun a b => mode.NoWorse a.2 b.2 := by
  rw [ranked, h.mode_eq, List.pairwise_map]
  exact (h.descending hnan).imp fun hle => mode.noWorse_orient hle

/-- The first of the ranking is no worse than all that was kept. -/
theorem Holds.isBest (h : p.Holds mode kept) (hnan : ∀ y ∈ kept, y.2.isNaN = false)
    {x : Individual} {best : Float} (hbest : p.best? = some (x, best)) :
    (x, best) ∈ kept ∧ ∀ y ∈ kept, mode.NoWorse best y.2 := by
  have hperm := h.ranked_perm hnan
  obtain ⟨rest, hranked⟩ := List.head?_eq_some_iff.mp hbest
  have hmem : (x, best) ∈ kept := hperm.mem_iff.mp (by rw [hranked]; exact List.mem_cons_self)
  have hself : mode.NoWorse best best := Mode.NoWorse.refl mode (hnan (x, best) hmem)
  have hpairwise := h.pairwise_ranked hnan
  rw [hranked, List.pairwise_cons] at hpairwise
  refine ⟨hmem, fun y hy => ?_⟩
  have hmem' : y ∈ (x, best) :: rest := hranked ▸ hperm.mem_iff.mpr hy
  rcases List.mem_cons.mp hmem' with heq | hrest
  · rw [heq]
    exact hself
  · exact hpairwise.1 y hrest

theorem Holds.exists_best (h : p.Holds mode kept) (hnan : ∀ y ∈ kept, y.2.isNaN = false)
    (hne : kept ≠ []) : ∃ x best, p.best? = some (x, best) := by
  have hperm := h.ranked_perm hnan
  cases hranked : p.ranked with
  | nil =>
      rw [hranked] at hperm
      exact absurd hperm.nil_eq.symm hne
  | cons y rest => exact ⟨y.1, y.2, by rw [best?, hranked]; rfl⟩

end Population

/-! ## Words for failures -/

theorem append_ne_empty {front : String} (h : front ≠ "") (back : String) : front ++ back ≠ "" := by
  simp [h]

theorem Failure.message_eq_empty_iff (failure : Failure) :
    failure.message = "" ↔ failure = .reason "" := by
  cases failure with
  | missingParameter objective parameter =>
      have hwords := append_ne_empty (by decide : "objective " ≠ "") objective
      exact iff_of_false (append_ne_empty (append_ne_empty hwords _) parameter) nofun
  | notIntegers parameter type =>
      have hwords := append_ne_empty (by decide : "parameter " ≠ "") parameter
      exact iff_of_false (append_ne_empty (append_ne_empty hwords _) type) nofun
  | unencodable error => exact iff_of_false (append_ne_empty (by decide) _) nofun
  | ended ending =>
      refine iff_of_false ?_ nofun
      cases ending with
      | cancelled => exact (by decide : "context canceled" ≠ "")
      | expired => exact (by decide : "context deadline exceeded" ≠ "")
  | reason text => exact ⟨fun h => congrArg Failure.reason h, fun h => Failure.reason.inj h⟩

/-- Only an objective may fail without words. -/
theorem MeasureError.message_eq_empty_iff (error : MeasureError) :
    error.message = "" ↔ error = .failed (.reason "") := by
  cases error with
  | busy key => exact iff_of_false (append_ne_empty (by decide) key) nofun
  | failed failure =>
      refine failure.message_eq_empty_iff.trans ⟨?_, fun h => MeasureError.failed.inj h⟩
      rintro rfl
      rfl
  | notFinite objective text =>
      have hwords := append_ne_empty (by decide : "objective " ≠ "") objective
      exact iff_of_false (append_ne_empty (append_ne_empty hwords _) text) nofun

/-! ## Runners with an open trace -/

/-- The runner has a store in which the trace of a session has a text. -/
structure Runner.Traces (store : Store) (id text : String) (r : Runner) : Prop where
  store_eq : r.store = some store
  trace : store.Has id "trace.jsonl" text r.files

namespace Probe

variable {ε : Type} {p : Probe ε} {store : Store} {id text : String} {bench : Runner × ε}

/-- Evaluations leave the store and the trace of a session alone. -/
structure Quiet (store : Store) (id : String) (p : Probe ε) : Prop where
  store_eq : ∀ context c s, (p.evaluate context c s).2.1.store = s.1.store
  trace : ∀ context c s text, store.Has id "trace.jsonl" text s.1.files →
    store.Has id "trace.jsonl" text (p.evaluate context c s).2.1.files

theorem Quiet.traces (hp : p.Quiet store id) (h : bench.1.Traces store id text) (context : Context)
    (c : Candidate) : (p.evaluate context c bench).2.1.Traces store id text :=
  ⟨(hp.store_eq context c bench).trans h.store_eq, hp.trace context c bench text h.trace⟩

theorem Quiet.measure (hp : p.Quiet store id) (h : bench.1.Traces store id text) (context : Context)
    (x : Individual) : (p.measure context x bench).2.1.Traces store id text := by
  unfold Probe.measure
  dsimp only
  split
  · exact h
  · split
    · exact h
    · next marked hmark =>
        obtain ⟨last, heq⟩ := Runner.mark_eq_some hmark
        have hmarked : (marked, bench.2).1.Traces store id text := by
          rw [heq]
          exact ⟨h.store_eq, h.trace⟩
        have hevaluated := hp.traces hmarked context x.candidate
        split
        · exact ⟨hevaluated.store_eq, hevaluated.trace⟩
        · exact ⟨hevaluated.store_eq, hevaluated.trace⟩

end Probe

/-- Objectives leave everything alone. -/
theorem Objective.quiet {ε : Type} (o : Objective) (store : Store) (id : String) :
    (o.probe : Probe ε).Quiet store id :=
  ⟨fun _ _ _ => rfl, fun _ _ _ _ h => h⟩

/-! ## Batches that were not interrupted -/

namespace Session

variable {ε : Type} {p : Probe ε} {store : Store} {id text : String} {bench : Runner × ε}

/-- Work that has not ended at a task had not ended when an earlier one started. -/
theorem atStart_eq_none {i : Interrupt} {task last : Nat} (h : i.atMeasurement last = none)
    (hle : task ≤ last) : i.atStart task = none := by
  cases i with
  | never => rfl
  | before first =>
      have hlast : ¬first ≤ last := fun hfirst => by simp [Interrupt.atMeasurement, hfirst] at h
      exact if_neg fun hfirst => hlast (hfirst.trans hle)
  | during first =>
      have hlast : ¬first ≤ last := fun hfirst => by simp [Interrupt.atMeasurement, hfirst] at h
      exact if_neg fun hfirst => hlast (hfirst.le.trans hle)

theorem length_measureBatch (p : Probe ε) (limit : Duration) (i : Interrupt) (task : Nat)
    (xs : List Individual) (bench : Runner × ε) :
    (measureBatch p limit i task xs bench).1.length = xs.length := by
  induction xs generalizing task bench with
  | nil => rfl
  | cons x xs ih =>
      rw [measureBatch]
      split
      · exact congrArg (· + 1) (ih (task + 1) bench)
      · exact congrArg (· + 1) (ih (task + 1) _)

theorem measureBatch_traces (hp : p.Quiet store id) (h : bench.1.Traces store id text)
    (limit : Duration) (i : Interrupt) (task : Nat) (xs : List Individual) :
    (measureBatch p limit i task xs bench).2.1.Traces store id text := by
  induction xs generalizing task bench with
  | nil => exact h
  | cons x xs ih =>
      rw [measureBatch]
      split
      · exact ih h (task + 1)
      · exact ih (hp.measure h (.within (i.atMeasurement task) limit) x) (task + 1)

theorem measureBatch_all {i : Interrupt} {task : Nat} {xs : List Individual} (limit : Duration)
    (h : ∀ k < xs.length, i.atStart (task + k) = none) (bench : Runner × ε) :
    ∃ outcomes : List Outcome, (measureBatch p limit i task xs bench).1 = outcomes.map some := by
  induction xs generalizing task bench with
  | nil => exact ⟨[], rfl⟩
  | cons x xs ih =>
      have hstart : i.atStart task = none := h 0 (by simp)
      have hrest : ∀ k < xs.length, i.atStart (task + 1 + k) = none := fun k hk => by
        rw [Nat.add_assoc, Nat.add_comm 1 k]
        exact h (k + 1) (by simpa using hk)
      rw [measureBatch, hstart]
      obtain ⟨outcomes, houtcomes⟩ := ih hrest (p.measure (.within (i.atMeasurement task) limit) x bench).2
      exact ⟨_ :: outcomes, congrArg _ houtcomes⟩

/-- What holds for every outcome that a measurement can have holds for those of a batch. -/
theorem measureBatch_property {P : Outcome → Prop}
    (hP : ∀ context x bench, P (p.measure context x bench).1) (limit : Duration) (i : Interrupt)
    (task : Nat) (xs : List Individual) (bench : Runner × ε) :
    ∀ outcome, some outcome ∈ (measureBatch p limit i task xs bench).1 → P outcome := by
  induction xs generalizing task bench with
  | nil => exact fun outcome h => nomatch h
  | cons x xs ih =>
      intro outcome hmem
      rw [measureBatch] at hmem
      split at hmem
      · rcases List.mem_cons.mp hmem with h | hrest
        · cases h
        · exact ih (task + 1) bench outcome hrest
      · rcases List.mem_cons.mp hmem with h | hrest
        · rw [Option.some.inj h]
          exact hP _ x bench
        · exact ih (task + 1) _ outcome hrest

/-- A batch that was not interrupted was measured to its end. -/
theorem measureBatch_of_not_interrupted {i : Interrupt} {task : Nat} {xs : List Individual}
    {limit : Duration} (h : interruption? i task (measureBatch p limit i task xs bench).1 = none) :
    ∃ outcomes : List Outcome, (measureBatch p limit i task xs bench).1 = outcomes.map some := by
  refine measureBatch_all limit (fun k hk => ?_) bench
  have hlength := length_measureBatch p limit i task xs bench
  unfold interruption? at h
  rw [hlength] at h
  dsimp only at h
  split at h
  · next ending hending =>
      split at h
      · next hempty =>
          rw [List.isEmpty_iff.mp hempty] at hlength
          rw [← hlength] at hk
          simp at hk
      · cases h
  · next hnone => exact atStart_eq_none hnone (by omega)

/-! ## The log of a session -/

variable {s : Session}

/-- Showing the best fitness changes the latest entry only. -/
theorem trace_showBest {e : TraceEntry} {rest : List TraceEntry} (h : s.trace = e :: rest) :
    ∃ best, s.showBest.trace = { e with best } :: rest ∧
      ∀ y best', s.showBest.population.best? = some (y, best') → best = best' := by
  unfold showBest
  split
  · next y best entry rest' hbest htrace =>
      obtain ⟨rfl, rfl⟩ := List.cons.inj (h.symm.trans htrace)
      refine ⟨best, rfl, fun y' best' hbest' => ?_⟩
      exact (Prod.mk.inj (Option.some.inj (hbest.symm.trans hbest'))).2
  · next hnone =>
      refine ⟨e.best, h, fun y best' hbest' => ?_⟩
      exact absurd h (hnone y best' e rest hbest')

/-- The entry that a measurement adds to the trace. -/
theorem trace_record (s : Session) (x : Individual) (outcome : Outcome) (time : Instant) :
    ∃ e, (s.record x outcome time).trace = e :: s.trace ∧
      e.evaluation = Int64.ofNat (s.evaluations + 1) ∧ e.round = Int64.ofNat s.rounds ∧
      e.candidate = some x.candidate ∧
      (∀ fitness, outcome.fitness? = some fitness → e.fitness = fitness) ∧
      (e.error = "" ↔ outcome.fitness?.isSome = true ∨ outcome = .failed (.failed (.reason ""))) ∧
      ∀ y best, (s.record x outcome time).population.best? = some (y, best) → e.best = best := by
  cases outcome with
  | scored fitness cached =>
      obtain ⟨best, htrace, hbest⟩ := trace_showBest (s := { s with
        evaluations := s.evaluations + 1, cached := if cached then s.cached + 1 else s.cached
        population := (s.population.append x fitness).getD s.population
        trace := _ :: s.trace }) rfl
      exact ⟨_, htrace, rfl, rfl, rfl, fun fitness' h => Option.some.inj h,
        iff_of_true rfl (.inl rfl), hbest⟩
  | failed error =>
      obtain ⟨best, htrace, hbest⟩ := trace_showBest (s := { s with
        evaluations := s.evaluations + 1, failures := s.failures + 1
        trace := _ :: s.trace }) rfl
      refine ⟨_, htrace, rfl, rfl, rfl, nofun, ?_, hbest⟩
      refine error.message_eq_empty_iff.trans ⟨fun h => .inr (congrArg Outcome.failed h), ?_⟩
      rintro (h | h)
      · cases h
      · exact Outcome.failed.inj h

/-- The session has made the measurements of a log, recorded those with a fitness, and has an entry with
a line in the trace for each. The latest entry shows the best of the population. All outcomes have a
property. -/
structure Logged (P : Outcome → Prop) (space : Space) (rate : Float) (mode : Mode) (size : Nat)
    (pool : List Individual) (log : Log) (s : Session) : Prop where
  balanced : s.Balanced space rate mode pool
  holds : s.population.Holds mode log.successes
  numbers : ∀ y ∈ log.successes, y.2.isNaN = false
  outcomes : ∀ y ∈ log, P y.2
  evaluations_eq : s.evaluations = log.length
  traced : log.Traced mode size s.trace.reverse
  lines : ∀ e ∈ s.trace, ∃ line, e.line = .ok line
  latest : ∀ e ∈ s.trace.head?, ∀ y best, s.population.best? = some (y, best) → e.best = best

variable {P : Outcome → Prop} {space : Space} {rate : Float} {mode : Mode} {size : Nat}
  {pool : List Individual} {log : Log}

theorem Logged.record {Q : Individual → Prop} {x : Individual} {batch : List Individual}
    {outcome : Outcome} {time : Instant} (h : s.Logged P space rate mode size pool log)
    (hx : x ∈ pool) (hnew : s.population.NewBatch Q (x :: batch)) (houtcome : P outcome)
    (hround : s.rounds = log.length / size)
    (hline : ∀ e ∈ (s.record x outcome time).trace.head?, ∃ line, e.line = .ok line) :
    (s.record x outcome time).Logged P space rate mode size pool (log ++ [(x, outcome)]) := by
  obtain ⟨hbalanced, -, hevaluations, -, -⟩ := h.balanced.record hx hnew outcome time
  obtain ⟨e, htrace, hevaluation, hround', hcandidate, hfitness, herror, hbest⟩ :=
    s.trace_record x outcome time
  rw [htrace] at hline
  obtain ⟨line, hline⟩ := hline e rfl
  have hsuccesses : Log.successes (log ++ [(x, outcome)]) =
      log.successes ++ (outcome.fitness?.map (x, ·)).toList := by
    rw [Log.successes_append]
    cases outcome <;> rfl
  have hnumbers : ∀ y ∈ Log.successes (log ++ [(x, outcome)]), y.2.isNaN = false := by
    intro y hy
    rw [hsuccesses] at hy
    rcases List.mem_append.mp hy with hy | hy
    · exact h.numbers y hy
    · obtain ⟨fitness, hscore, rfl⟩ := Option.map_eq_some_iff.mp (Option.mem_toList.mp hy)
      rw [← hfitness fitness hscore]
      exact TraceEntry.isNaN_fitness hline
  have hholds : (s.record x outcome time).population.Holds mode
      (Log.successes (log ++ [(x, outcome)])) := by
    rw [hsuccesses]
    cases outcome with
    | scored fitness cached =>
        obtain ⟨trace, hrecord⟩ := s.record_scored x fitness cached time
        obtain ⟨p', happend⟩ := exists_append (hnew.unrecorded x (by simp)) fitness
        rw [hrecord, happend]
        exact h.holds.append happend
    | failed error =>
        obtain ⟨trace, hrecord⟩ := s.record_failed x error time
        have hnone : ((Outcome.failed error).fitness?.map (x, ·)).toList = [] := rfl
        rw [hrecord, hnone, List.append_nil]
        exact h.holds
  have houtcomes : ∀ y ∈ log ++ [(x, outcome)], P y.2 := by
    intro y hy
    rcases List.mem_append.mp hy with hy | hy
    · exact h.outcomes y hy
    · rw [List.mem_singleton.mp hy]
      exact houtcome
  refine ⟨hbalanced, hholds, hnumbers, houtcomes, ?_, ?_, ?_, ?_⟩
  · rw [hevaluations, h.evaluations_eq, List.length_append, List.length_singleton]
  · rw [htrace, List.reverse_cons]
    refine h.traced.snoc ⟨?_, ?_, hcandidate, hfitness, herror, fun hne => ?_⟩
    · rw [hevaluation, h.evaluations_eq]
    · rw [hround', hround]
    · obtain ⟨y, best, hy⟩ := hholds.exists_best hnumbers hne
      rw [hbest y best hy]
      obtain ⟨hmem, hnoWorse⟩ := hholds.isBest hnumbers hy
      exact ⟨⟨y, hmem⟩, hnoWorse⟩
  · rw [htrace]
    exact List.forall_mem_cons.mpr ⟨⟨line, hline⟩, h.lines⟩
  · rw [htrace]
    intro e' he'
    obtain rfl : e = e' := Option.some.inj he'
    exact hbest

/-- A batch that is recorded with a line for every entry goes to the end of the log. -/
theorem Logged.recordBatch {Q : Individual → Prop} {measured : Log} {s' last : Session}
    {r r' : Runner} (h : s.Logged P space rate mode size pool log)
    (hpool : ∀ x ∈ measured.map (·.1), x ∈ pool) (houtcomes : ∀ y ∈ measured, P y.2)
    (hnew : s.population.NewBatch Q (measured.map (·.1))) (hrounds : s.rounds * size ≤ log.length)
    (hsize : log.length + measured.length ≤ (s.rounds + 1) * size)
    (hrecord : recordBatch true measured s r = (.ok s', last, r')) :
    s'.Logged P space rate mode size pool (log ++ measured) ∧ s'.rounds = s.rounds ∧
      ∃ now, r' = { r with now } := by
  induction measured generalizing s log r with
  | nil =>
      obtain ⟨hs, -, rfl⟩ : s = s' ∧ s = last ∧ r = r' := by simpa [Session.recordBatch] using hrecord
      rw [List.append_nil]
      exact ⟨hs ▸ h, by rw [hs], r.now, rfl⟩
  | cons xo measured ih =>
      obtain ⟨x, outcome⟩ := xo
      simp only [List.map_cons, List.forall_mem_cons] at hpool hnew houtcomes
      rw [List.length_cons] at hsize
      have hround : s.rounds = log.length / size := by
        refine (Nat.div_eq_of_lt_le hrounds ?_).symm
        omega
      rw [Session.recordBatch] at hrecord
      dsimp only at hrecord
      split at hrecord
      · cases hrecord
      · next hline =>
          have hentry : ∀ e ∈ (s.record x outcome r.tick.1).trace.head?, ∃ line, e.line = .ok line := by
            intro e he
            obtain ⟨rest, htrace⟩ := List.head?_eq_some_iff.mp he
            rw [htrace] at hline
            cases hcase : e.line with
            | ok line => exact ⟨line, rfl⟩
            | error error => exact absurd hcase (hline error rfl)
          obtain ⟨-, hrest, -, hrounds', -⟩ := h.balanced.record hpool.1 hnew outcome r.tick.1
          have hnext := h.record hpool.1 hnew houtcomes.1 hround hentry
          obtain ⟨hlogged, hrounds'', now, hr⟩ := ih hnext hpool.2 houtcomes.2 hrest
            (by rw [hrounds', List.length_append]; omega)
            (by rw [hrounds', List.length_append, List.length_singleton]; omega) hrecord
          refine ⟨?_, hrounds''.trans hrounds', now, hr⟩
          rwa [List.append_assoc] at hlogged

/-- A session between two rounds that has logged every measurement. -/
def Kept (P : Outcome → Prop) (space : Space) (rate : Float) (mode : Mode) (size : Nat)
    (s : Session) : Prop :=
  ∃ pool log, s.Logged P space rate mode size pool log ∧ log.length = s.rounds * size

theorem Kept.closeRound {s' : Session} {c : Convergence Float}
    (h : s.Logged P space rate mode size pool log) (hlength : log.length = (s.rounds + 1) * size)
    (hturn : closeRound c mode s = .goOn s' ∨ closeRound c mode s = .stop s') :
    s'.Kept P space rate mode size := by
  obtain ⟨tracker, progress, converged, rfl⟩ := eq_of_closeRound hturn
  obtain ⟨hsearch, hrecorded, hcached_le⟩ := h.balanced
  exact ⟨pool, log, ⟨⟨hsearch, hrecorded, hcached_le⟩, h.holds, h.numbers, h.outcomes,
    h.evaluations_eq, h.traced, h.lines, h.latest⟩, hlength⟩

/-- What a round does that does not fail. The batch does not fit into the space, and the session stops;
or it is measured to its end and recorded. -/
theorem playRound_cases {config : Config} {i : Interrupt} {s' : Session} {bench' : Runner × ε}
    (h : playRound p config mode i s bench = (.goOn s', bench') ∨
      playRound p config mode i s bench = (.stop s', bench')) :
    (∃ recorded requested volume source,
      s.population.offspring config.parents config.offspring s.source =
        some (.error (.exhausted recorded requested volume), source) ∧
      playRound p config mode i s bench = (.stop s', bench') ∧
      s' = { s with exhausted := true, source } ∧ bench' = bench) ∨
    ∃ batch population source outcomes s₁ last r e r',
      s.population.offspring config.parents config.offspring s.source =
        some (.ok (batch, population), source) ∧
      measureBatch p config.evalTimeout i s.evaluations batch bench = (outcomes.map some, r, e) ∧
      outcomes.length = batch.length ∧
      recordBatch r.store.isSome (batch.zip outcomes) { s with population, source } r =
        (.ok s₁, last, r') ∧
      (closeRound (convergence config) mode s₁ = .goOn s' ∨
        closeRound (convergence config) mode s₁ = .stop s') ∧ bench' = (r', e) := by
  unfold playRound at h ⊢
  split at h
  · simp at h
  · next recorded requested volume source hbred =>
      obtain ⟨rfl, rfl⟩ : { s with exhausted := true, source } = s' ∧ bench = bench' := by
        simpa using h
      exact .inl ⟨recorded, requested, volume, source, hbred, rfl, rfl, rfl⟩
  · simp at h
  · next batch population source hbred =>
      have hcount := length_measureBatch p config.evalTimeout i s.evaluations batch bench
      dsimp only at h
      split at h
      · simp at h
      · next hcompleted =>
          obtain ⟨outcomes, houtcomes⟩ := measureBatch_of_not_interrupted hcompleted
          rw [houtcomes, List.length_map] at hcount
          rw [houtcomes, measured_eq_zip] at h
          split at h
          · simp at h
          · next s₁ last r' hrecord =>
              simp only [Prod.mk.injEq] at h
              exact .inr ⟨batch, population, source, outcomes, s₁, last, _, _, r', hbred,
                Prod.ext houtcomes rfl, hcount, hrecord, h.imp And.left And.left,
                (h.elim And.right And.right).symm⟩

/-- A round that does not fail logs its batch. -/
theorem Kept.playRound {config : Config} (hp : p.Quiet store id)
    (hP : ∀ context x bench, P (p.measure context x bench).1) (hbench : bench.1.Traces store id text)
    (h : s.Kept P space rate mode config.offspring.toInt.toNat) {i : Interrupt} {s' : Session}
    {bench' : Runner × ε}
    (hround : playRound p config mode i s bench = (.goOn s', bench') ∨
      playRound p config mode i s bench = (.stop s', bench')) :
    s'.Kept P space rate mode config.offspring.toInt.toNat ∧ bench'.1.Traces store id text := by
  obtain ⟨pool, log, hlogged, hlength⟩ := h
  rcases playRound_cases hround with ⟨-, -, -, source, -, -, rfl, rfl⟩ |
    ⟨batch, population, source, outcomes, s₁, last, r, e, r', hbred, hmeasure, hcount, hrecord, hclose,
      rfl⟩
  · exact ⟨⟨pool, log, ⟨⟨hlogged.balanced.search, hlogged.balanced.recorded,
      hlogged.balanced.cached_le⟩, hlogged.holds, hlogged.numbers, hlogged.outcomes,
      hlogged.evaluations_eq, hlogged.traced, hlogged.lines, hlogged.latest⟩, hlength⟩, hbench⟩
  · obtain ⟨hbalanced, hnew, hbatch⟩ := hlogged.balanced.offspring hbred
    obtain ⟨n, rfl⟩ := Population.breed_population (Population.offspring_eq_ok hbred).2
    have htraces := measureBatch_traces hp hbench config.evalTimeout i s.evaluations batch
    rw [hmeasure] at htraces
    rw [htraces.store_eq] at hrecord
    have hfirst : (batch.zip outcomes).map (·.1) = batch :=
      List.map_fst_zip (Nat.le_of_eq hcount.symm)
    have hbred : Logged P space rate mode config.offspring.toInt.toNat (batch ++ pool) log
        { s with population := { s.population with pending := s.population.pending.drop n }
                 source } :=
      ⟨hbalanced, ⟨hlogged.holds.mode_eq, hlogged.holds.perm, hlogged.holds.latest,
        hlogged.holds.descending⟩, hlogged.numbers, hlogged.outcomes, hlogged.evaluations_eq,
        hlogged.traced, hlogged.lines, hlogged.latest⟩
    have hzip : (batch.zip outcomes).length = config.offspring.toInt.toNat := by
      rw [List.length_zip, hcount, hbatch, Nat.min_self]
    have houtcomes : ∀ y ∈ batch.zip outcomes, P y.2 := by
      intro y hy
      refine measureBatch_property hP config.evalTimeout i s.evaluations batch bench y.2 ?_
      rw [hmeasure]
      exact List.mem_map_of_mem (List.of_mem_zip hy).2
    obtain ⟨hlogged', hrounds, now, rfl⟩ := hbred.recordBatch
      (fun x hx => List.mem_append_left pool (hfirst ▸ hx)) houtcomes (hfirst.symm ▸ hnew)
      (Nat.le_of_eq hlength.symm) (by rw [hlength, hzip, Nat.succ_mul]) hrecord
    have hlength' : (log ++ batch.zip outcomes).length =
        (s₁.rounds + 1) * config.offspring.toInt.toNat := by
      rw [List.length_append, hzip, hlength, hrounds, Nat.succ_mul]
    exact ⟨Kept.closeRound hlogged' hlength' hclose, htraces.store_eq, htraces.trace⟩

/-- So do all rounds of a session that does not fail. -/
theorem Kept.play {config : Config} (hp : p.Quiet store id)
    (hP : ∀ context x bench, P (p.measure context x bench).1) (hbench : bench.1.Traces store id text)
    (h : s.Kept P space rate mode config.offspring.toInt.toNat) {i : Interrupt} {rounds : Nat}
    {s' : Session} {bench' : Runner × ε}
    (hplay : play p config mode i rounds s bench = (.ok (), s', bench')) :
    s'.Kept P space rate mode config.offspring.toInt.toNat ∧ bench'.1.Traces store id text := by
  induction rounds generalizing s bench with
  | zero =>
      obtain ⟨-, rfl, rfl⟩ := eq_of_play_zero hplay
      exact ⟨h, hbench⟩
  | succ rounds ih =>
      rw [play_succ] at hplay
      split at hplay
      · next hround =>
          obtain ⟨hnext, hbench'⟩ := h.playRound hp hP hbench (.inl hround)
          exact ih hbench' hnext hplay
      · next hround =>
          obtain ⟨rfl, rfl⟩ := Prod.mk.inj (Prod.mk.inj hplay).2
          exact h.playRound hp hP hbench (.inr hround)
      · cases hplay

end Session

/-! ## Files of a session with a store -/

namespace Trace

theorem encodeLines_eq {entries : List TraceEntry} (h : ∀ e ∈ entries, ∃ line, e.line = .ok line) :
    entries.map TraceEntry.line = (encodeLines entries).1.map .ok := by
  induction entries with
  | nil => rfl
  | cons e entries ih =>
      obtain ⟨⟨line, hline⟩, hrest⟩ := List.forall_mem_cons.mp h
      rw [List.map_cons, ih hrest, encodeLines, hline]
      rfl

end Trace

namespace Runner

variable {r r' : Runner} {store : Store} {id text : String}

theorem startTrace_traces (hstore : r.store = some store)
    (h : r.startTrace id = (.ok (), r')) : r'.Traces store id "" := by
  rw [startTrace, hstore] at h
  obtain ⟨hok, rfl⟩ := Prod.mk.inj h
  exact ⟨hstore, (Trace.ends_start store id r.files).of_ok hok⟩

theorem Traces.writeTrace (h : r.Traces store id text) (entries : List TraceEntry) :
    (r.writeTrace id entries).Traces store id
      ((Trace.encodeLines entries).1.foldl (· ++ ·) text) := by
  rw [Runner.writeTrace, h.store_eq]
  exact ⟨h.store_eq, Trace.has_add h.trace _⟩

theorem Traces.saveReport (h : r.Traces store id text) (report : Report) :
    (r.saveReport id report).2.Traces store id text := by
  have hsaved := (Store.ends_save Trace.isPlain_trace (by decide) (by decide) h.trace report).after
  unfold Runner.saveReport
  rw [h.store_eq]
  dsimp only
  split
  · exact h
  · split
    · next heq => rw [← congrArg Prod.snd heq]; exact ⟨h.store_eq, hsaved⟩
    · next heq => rw [← congrArg Prod.snd heq]; exact ⟨h.store_eq, hsaved⟩

end Runner

/-! ## Whole sessions -/

/-- A candidate with its fitness as reports show it. -/
def Scored.ofRanked (y : Individual × Float) : Scored :=
  { values := some y.1.candidate, fitness := y.2 }

/-- The report of a session with a log: every measurement is counted, the best candidate is one that was
measured and that no other beats, and the best candidates stand in order. -/
structure Report.Sums (mode : Mode) (topK : Nat) (log : Log) (report : Report) : Prop where
  evaluations_eq : report.evaluations = Int64.ofNat log.length
  best : log.successes ≠ [] → mode.IsBest report.best.fitness log.successes ∧
    report.best ∈ log.successes.map Scored.ofRanked
  stats : log.successes ≠ [] → report.stats.optimum mode = report.best.fitness
  top : ∃ rest, (report.top ++ rest).Perm (log.successes.map Scored.ofRanked) ∧
    (report.top ++ rest).Pairwise fun a b => mode.NoWorse a.fitness b.fitness
  top_length : report.top.length = min topK log.successes.length
  top_head : log.successes ≠ [] → 1 ≤ topK → report.top.head? = some report.best

/-! ## What the entries tell -/

/-- The candidates of the entries without an error. -/
def TraceEntry.scored (entries : List TraceEntry) : List Scored :=
  (entries.filter fun e => e.error = "").map fun e => { values := e.candidate, fitness := e.fitness }

/-- The report of a session with a trace: every entry is counted and numbered, shows the best fitness
without an error so far, and the report has the best of all of them, the last one shown, and the best
candidates in order. -/
structure Report.Rests (mode : Mode) (size topK : Nat) (entries : List TraceEntry) (report : Report) :
    Prop where
  evaluations_eq : report.evaluations = Int64.ofNat entries.length
  numbered : ∀ (k : Nat) (e : TraceEntry), entries[k]? = some e →
    e.evaluation = Int64.ofNat (k + 1) ∧ e.round = Int64.ofNat (k / size)
  shown : ∀ (k : Nat) (e : TraceEntry), entries[k]? = some e →
    TraceEntry.scored (entries.take (k + 1)) ≠ [] →
      (∃ c ∈ TraceEntry.scored (entries.take (k + 1)), c.fitness = e.best) ∧
      ∀ c ∈ TraceEntry.scored (entries.take (k + 1)), mode.NoWorse e.best c.fitness
  best : TraceEntry.scored entries ≠ [] → report.best ∈ TraceEntry.scored entries ∧
    ∃ e ∈ entries.getLast?, report.best.fitness = e.best
  stats : TraceEntry.scored entries ≠ [] → report.stats.optimum mode = report.best.fitness
  top : ∃ rest, (report.top ++ rest).Perm (TraceEntry.scored entries) ∧
    (report.top ++ rest).Pairwise fun a b => mode.NoWorse a.fitness b.fitness
  top_length : report.top.length = min topK (TraceEntry.scored entries).length
  top_head : TraceEntry.scored entries ≠ [] → 1 ≤ topK → report.top.head? = some report.best

section Rests

variable {mode : Mode} {size : Nat} {log : Log} {entries : List TraceEntry}

/-- Every measurement has its entry at the same place. -/
theorem Log.Traced.tells_get (h : log.Traced mode size entries) {k : Nat} {e : TraceEntry}
    (he : entries[k]? = some e) : ∃ x outcome, log.take (k + 1) = log.take k ++ [(x, outcome)] ∧
      e.Tells mode size (log.take k) x outcome := by
  have hlt : k < log.length := h.length_eq ▸ (List.getElem?_eq_some_iff.mp he).1
  have hsplit : log = log.take k ++ log[k] :: log.drop (k + 1) := by
    rw [← List.drop_eq_getElem_cons hlt, List.take_append_drop]
  obtain ⟨e', he', htells⟩ := h.tells (log.take k) log[k].1 log[k].2 (log.drop (k + 1)) hsplit
  rw [List.length_take_of_le hlt.le, he] at he'
  obtain rfl := Option.some.inj he'
  exact ⟨_, _, List.take_succ_eq_append_getElem hlt, htells⟩

/-- When no measurement failed without words, the entries without an error are those with a fitness. -/
theorem Log.Traced.scored_take (h : log.Traced mode size entries)
    (hwords : ∀ y ∈ log, y.2 ≠ .failed (.failed (.reason ""))) (n : Nat) :
    TraceEntry.scored (entries.take n) = (Log.successes (log.take n)).map Scored.ofRanked := by
  induction n with
  | zero => rfl
  | succ n ih =>
      cases he : entries[n]? with
      | none =>
          -- both lists are at their ends
          have hlength := List.getElem?_eq_none_iff.mp he
          rw [List.take_of_length_le (by omega), List.take_of_length_le (by rw [← h.length_eq]; omega)]
          rwa [List.take_of_length_le hlength, List.take_of_length_le (h.length_eq ▸ hlength)] at ih
      | some e =>
          obtain ⟨x, outcome, htake, htells⟩ := h.tells_get he
          have hmem : (x, outcome) ∈ log :=
            List.mem_of_mem_take (htake ▸ List.mem_append_right _ List.mem_cons_self)
          have hentry : TraceEntry.scored [e] = (Log.successes [(x, outcome)]).map Scored.ofRanked := by
            have herror := htells.error_iff
            simp only [hwords _ hmem, or_false] at herror
            cases hfitness : outcome.fitness? with
            | none =>
                rw [hfitness] at herror
                have hne : e.error ≠ "" := fun hempty => by cases herror.mp hempty
                simp [TraceEntry.scored, Log.successes, hfitness, hne]
            | some fitness =>
                rw [hfitness] at herror
                have hempty : e.error = "" := herror.mpr rfl
                simp [TraceEntry.scored, Log.successes, hfitness, hempty, Scored.ofRanked,
                  htells.candidate_eq, htells.fitness_eq fitness hfitness]
          rw [List.take_add_one, he, Option.toList_some, htake, Log.successes_append, List.map_append,
            ← ih, ← hentry]
          simp [TraceEntry.scored]

theorem Report.Sums.rests {topK : Nat} {report : Report} (h : report.Sums mode topK log)
    (htraced : log.Traced mode size entries)
    (hwords : ∀ y ∈ log, y.2 ≠ .failed (.failed (.reason "")))
    (hlast : log.successes ≠ [] → ∃ e ∈ entries.getLast?, report.best.fitness = e.best) :
    report.Rests mode size topK entries := by
  have hscored : TraceEntry.scored entries = log.successes.map Scored.ofRanked := by
    have hall := htraced.scored_take hwords log.length
    rwa [← htraced.length_eq, List.take_length, htraced.length_eq, List.take_length] at hall
  have hne : TraceEntry.scored entries ≠ [] → log.successes ≠ [] := by
    rw [hscored]
    exact fun hne hempty => hne (by rw [hempty]; rfl)
  refine ⟨?_, fun k e he => ?_, fun k e he hsome => ?_, fun hsome => ?_, fun hsome => ?_, ?_, ?_,
    fun hsome hk => ?_⟩
  · rw [h.evaluations_eq, htraced.length_eq]
  · obtain ⟨x, outcome, -, htells⟩ := htraced.tells_get he
    have hlt : k < log.length := htraced.length_eq ▸ (List.getElem?_eq_some_iff.mp he).1
    have hlength : (log.take k).length = k := List.length_take_of_le hlt.le
    exact ⟨hlength ▸ htells.evaluation_eq, hlength ▸ htells.round_eq⟩
  · obtain ⟨x, outcome, htake, htells⟩ := htraced.tells_get he
    rw [htraced.scored_take hwords, htake] at hsome ⊢
    obtain ⟨⟨y, hy⟩, hnoWorse⟩ := htells.best fun hempty => hsome (by rw [hempty]; rfl)
    refine ⟨⟨_, List.mem_map_of_mem hy, rfl⟩, fun c hc => ?_⟩
    obtain ⟨z, hz, rfl⟩ := List.mem_map.mp hc
    exact hnoWorse z hz
  · rw [hscored]
    exact ⟨(h.best (hne hsome)).2, hlast (hne hsome)⟩
  · exact h.stats (hne hsome)
  · rw [hscored]
    exact h.top
  · rw [hscored, List.length_map]
    exact h.top_length
  · exact h.top_head (hne hsome) hk

end Rests

namespace Session

variable {P : Outcome → Prop} {space : Space} {rate : Float} {mode : Mode} {size : Nat}
  {pool : List Individual} {log : Log} {s : Session}

theorem Logged.sums (h : s.Logged P space rate mode size pool log) (id : String) (config : Config)
    (startedAt finishedAt : Instant) :
    (s.report id config startedAt finishedAt).Sums mode config.topK.toInt.toNat log := by
  have hperm := h.holds.ranked_perm h.numbers
  have hpairwise := h.holds.pairwise_ranked h.numbers
  have hbest : log.successes ≠ [] → ∃ y rest, s.population.ranked = y :: rest ∧
      y ∈ log.successes ∧ ∀ z ∈ log.successes, mode.NoWorse y.2 z.2 := by
    intro hne
    obtain ⟨x, best, hx⟩ := h.holds.exists_best h.numbers hne
    obtain ⟨rest, hranked⟩ := List.head?_eq_some_iff.mp hx
    exact ⟨(x, best), rest, hranked, h.holds.isBest h.numbers hx⟩
  have hfirst : (s.report id config startedAt finishedAt).best =
      (s.population.ranked.map Scored.ofRanked).headD {} := rfl
  have htop : (s.report id config startedAt finishedAt).top =
      (s.population.ranked.map Scored.ofRanked).take config.topK.toInt.toNat := rfl
  have hstats : (s.report id config startedAt finishedAt).stats =
      .of (s.population.ranked.map (·.2)) := rfl
  refine ⟨congrArg Int64.ofNat h.evaluations_eq, fun hne => ?_, fun hne => ?_, ?_, ?_, fun hne hk => ?_⟩
  · obtain ⟨y, rest, hranked, hmem, hnoWorse⟩ := hbest hne
    rw [hfirst, hranked]
    exact ⟨⟨⟨y.1, hmem⟩, hnoWorse⟩, List.mem_map_of_mem hmem⟩
  · obtain ⟨y, rest, hranked, hmem, hnoWorse⟩ := hbest hne
    rw [hfirst, hstats, hranked]
    refine Stats.optimum_of (h.numbers y hmem) fun fitness hfitness => ?_
    obtain ⟨z, hz, rfl⟩ := List.mem_map.mp hfitness
    exact hnoWorse z (hperm.mem_iff.mp (hranked ▸ List.mem_cons_of_mem y hz))
  · refine ⟨(s.population.ranked.map Scored.ofRanked).drop config.topK.toInt.toNat, ?_, ?_⟩
    · rw [htop, List.take_append_drop]
      exact hperm.map _
    · rw [htop, List.take_append_drop, List.pairwise_map]
      exact hpairwise
  · rw [htop, List.length_take, List.length_map, hperm.length_eq]
  · obtain ⟨y, rest, hranked, -, -⟩ := hbest hne
    obtain ⟨k, hk⟩ := Nat.exists_eq_add_of_le' hk
    rw [hfirst, htop, hranked, hk]
    rfl

/-- The latest entry shows the best fitness of the report. -/
theorem Logged.latest_best (h : s.Logged P space rate mode size pool log) (hne : log.successes ≠ [])
    (id : String) (config : Config) (startedAt finishedAt : Instant) :
    ∃ e ∈ s.trace.head?, (s.report id config startedAt finishedAt).best.fitness = e.best := by
  obtain ⟨x, best, hx⟩ := h.holds.exists_best h.numbers hne
  have hfirst : (s.report id config startedAt finishedAt).best =
      (s.population.ranked.map Scored.ofRanked).headD {} := rfl
  cases htrace : s.trace with
  | nil =>
      have hlength := h.traced.length_eq
      rw [htrace] at hlength
      rw [List.length_eq_zero_iff.mp hlength.symm] at hne
      exact absurd rfl hne
  | cons e rest =>
      refine ⟨e, rfl, ?_⟩
      obtain ⟨others, hranked⟩ := List.head?_eq_some_iff.mp hx
      rw [h.latest e (by rw [htrace]; rfl) x best hx, hfirst, hranked]
      rfl

theorem start_kept {config : Config} (h : Session.start space config = .ok (s, mode)) (size : Nat)
    (P : Outcome → Prop) :
    s.Kept P space config.mutateRate mode size ∧ Mode.ofName config.mode = .ok mode := by
  obtain ⟨-, hmode, population, source, hmake, rfl⟩ := start_eq_ok h
  obtain ⟨⟨pool, hbalanced⟩, -⟩ := start_inOrder hmake size
  obtain ⟨-, -, -, -, hp⟩ := Population.make_eq_ok hmake
  refine ⟨⟨pool, [], ⟨hbalanced, ?_, by simp [Log.successes], by simp, rfl, .nil _ _, by simp, by simp⟩,
    (Nat.zero_mul size).symm⟩, hmode⟩
  rw [hp]
  exact ⟨rfl, .nil, fun _ => rfl, fun _ => .nil⟩

end Session

namespace Probe

variable {ε : Type} {p : Probe ε} {space : Space} {config : Config} {id : String} {i : Interrupt}
  {bench bench' : Runner × ε} {result : SessionResult} {progress : List Progress}

/-- A session that ends well went through its parts. -/
theorem run_eq_result (h : p.run space config id i bench = (.ok result, progress, bench')) :
    ∃ s mode r s' bench₁,
      Session.start space config = .ok (s, mode) ∧
      bench.1.tick.2.startTrace id = (.ok (), r) ∧
      Session.play p config mode i config.rounds.toInt.toNat s (r, bench.2) = (.ok (), s', bench₁) ∧
      result =
        { report := s'.report id config bench.1.tick.1
            (bench₁.1.writeTrace id s'.trace.reverse).tick.1
          population := s'.population, cached := s'.cached, exhausted := s'.exhausted } ∧
      ((bench₁.1.writeTrace id s'.trace.reverse).tick.2.saveReport id result.report).2 = bench'.1 := by
  unfold run at h
  split at h
  · cases h
  · next s mode hstart =>
      dsimp only at h
      split at h
      · cases h
      · next r hopened =>
          rcases hplay : Session.play p config mode i config.rounds.toInt.toNat s (r, bench.2) with
            ⟨_ | _, s', r₁, e₁⟩
          · rw [hplay] at h
            cases h
          · rw [hplay] at h
            dsimp only at h
            split at h
            · cases h
            · next r₂ hsaved =>
                obtain ⟨hresult, -, hbench⟩ := Prod.mk.inj h |>.imp Except.ok.inj Prod.mk.inj
                refine ⟨s, mode, r, s', (r₁, e₁), hstart, hopened, hplay, hresult.symm, ?_⟩
                rw [← hresult, ← hbench, hsaved]

theorem run_eq_ok (h : p.run space config id i bench = (.ok result, progress, bench')) :
    ∃ s mode r s' bench₁,
      Session.start space config = .ok (s, mode) ∧
      bench.1.tick.2.startTrace id = (.ok (), r) ∧
      Session.play p config mode i config.rounds.toInt.toNat s (r, bench.2) = (.ok (), s', bench₁) ∧
      result.report = s'.report id config bench.1.tick.1
        (bench₁.1.writeTrace id s'.trace.reverse).tick.1 ∧
      ((bench₁.1.writeTrace id s'.trace.reverse).tick.2.saveReport id result.report).2 = bench'.1 := by
  obtain ⟨s, mode, r, s', bench₁, hstart, hopened, hplay, hresult, hsaved⟩ := run_eq_result h
  exact ⟨s, mode, r, s', bench₁, hstart, hopened, hplay, by rw [hresult], hsaved⟩

/-- A session with a store that ends well, whose evaluations leave its trace alone, has logged its
measurements when the rounds are over, and the file of the trace has the lines of its entries. -/
theorem run_logged {store : Store} {P : Outcome → Prop} (hstore : bench.1.store = some store)
    (hp : p.Quiet store id) (hP : ∀ context x bench, P (p.measure context x bench).1)
    (h : p.run space config id i bench = (.ok result, progress, bench')) :
    ∃ s mode r s' bench₁ pool log finishedAt,
      Session.start space config = .ok (s, mode) ∧
      bench.1.tick.2.startTrace id = (.ok (), r) ∧
      Session.play p config mode i config.rounds.toInt.toNat s (r, bench.2) = (.ok (), s', bench₁) ∧
      Mode.ofName config.mode = .ok mode ∧
      s'.Logged P space config.mutateRate mode config.offspring.toInt.toNat pool log ∧
      result.report = s'.report id config bench.1.tick.1 finishedAt ∧
      bench'.1.files.stat (Trace.path store id) =
        .ok (.file ((Trace.encodeLines s'.trace.reverse).1.foldl (· ++ ·) "")) := by
  obtain ⟨s, mode, r, s', bench₁, hstart, hopened, hplay, hreport, hsaved⟩ := run_eq_ok h
  obtain ⟨hkept, hmode⟩ := Session.start_kept hstart config.offspring.toInt.toNat P
  have hopen : (r, bench.2).1.Traces store id "" :=
    Runner.startTrace_traces (r := bench.1.tick.2) hstore hopened
  obtain ⟨⟨pool, log, hlogged, -⟩, htraces⟩ := hkept.play hp hP hopen hplay
  have hwritten := htraces.writeTrace s'.trace.reverse
  have hticked : (bench₁.1.writeTrace id s'.trace.reverse).tick.2.Traces store id
      ((Trace.encodeLines s'.trace.reverse).1.foldl (· ++ ·) "") :=
    ⟨hwritten.store_eq, hwritten.trace⟩
  have hfinal := hticked.saveReport result.report
  rw [hsaved] at hfinal
  exact ⟨s, mode, r, s', bench₁, pool, log, _, hstart, hopened, hplay, hmode, hlogged, hreport,
    hfinal.trace⟩

theorem eq_error_of_judge {name : String} {result : Except Failure Float} {failure : Failure}
    (h : judge name result = .error (.failed failure)) : result = .error failure := by
  cases result with
  | error other => rw [MeasureError.failed.inj (Except.error.inj h)]
  | ok fitness =>
      unfold judge at h
      dsimp only at h
      split at h <;> cases h

/-- No evaluation fails without words. -/
def Explains (p : Probe ε) : Prop :=
  ∀ context c bench, (p.evaluate context c bench).1 ≠ .error (.reason "")

theorem Explains.measure (hp : p.Explains) (context : Context) (x : Individual) (bench : Runner × ε) :
    (p.measure context x bench).1 ≠ .failed (.failed (.reason "")) := by
  intro h
  unfold Probe.measure at h
  dsimp only at h
  split at h
  · cases h
  · split at h
    · cases h
    · next marked _ =>
        split at h
        · cases h
        · next error hjudge =>
            rw [Outcome.failed.inj h] at hjudge
            exact hp context x.candidate (marked, bench.2) (eq_error_of_judge hjudge)

/-- For a session with a store that ends well, whose evaluations leave its trace alone: the file of the
trace has a line for every measurement, whose entries are numbered and show the best fitness so far; and
the report sums the measurements up, with the best fitness of the last entry. If no evaluation fails
without words, all this can be told from the entries: the measurements with a fitness are those without
an error. -/
theorem run_optimum {store : Store} (hstore : bench.1.store = some store) (hp : p.Quiet store id)
    (h : p.run space config id i bench = (.ok result, progress, bench')) :
    ∃ (mode : Mode) (log : Log) (entries : List TraceEntry) (lines : List String),
      Mode.ofName config.mode = .ok mode ∧
      entries.map TraceEntry.line = lines.map .ok ∧
      bench'.1.files.stat (Trace.path store id) = .ok (.file (lines.foldl (· ++ ·) "")) ∧
      log.Traced mode config.offspring.toInt.toNat entries ∧
      result.report.Sums mode config.topK.toInt.toNat log ∧
      (log.successes ≠ [] → ∃ e ∈ entries.getLast?, result.report.best.fitness = e.best) ∧
      (p.Explains →
        result.report.Rests mode config.offspring.toInt.toNat config.topK.toInt.toNat entries) := by
  have hmeasured : ∀ context x bench, p.Explains →
      (p.measure context x bench).1 ≠ .failed (.failed (.reason "")) :=
    fun context x bench hexplains => hexplains.measure context x bench
  obtain ⟨-, mode, -, s', -, pool, log, finishedAt, -, -, -, hmode, hlogged, hreport, hfile⟩ :=
    run_logged (P := fun outcome => p.Explains → outcome ≠ .failed (.failed (.reason ""))) hstore hp
      hmeasured h
  have hlines : ∀ e ∈ s'.trace.reverse, ∃ line, e.line = .ok line := fun e he =>
    hlogged.lines e (List.mem_reverse.mp he)
  have hsums := hlogged.sums id config bench.1.tick.1 finishedAt
  have hlast : log.successes ≠ [] → ∃ e ∈ s'.trace.reverse.getLast?,
      (s'.report id config bench.1.tick.1 finishedAt).best.fitness = e.best := by
    rw [List.getLast?_reverse]
    exact fun hne => hlogged.latest_best hne id config _ _
  rw [← hreport] at hsums hlast
  exact ⟨mode, log, s'.trace.reverse, (Trace.encodeLines s'.trace.reverse).1, hmode,
    Trace.encodeLines_eq hlines, hfile, hlogged.traced, hsums, hlast, fun hexplains =>
      hsums.rests hlogged.traced (fun y hy => hlogged.outcomes y hy hexplains) hlast⟩

/-- One side of the coin has a fitness, and the other one fails. -/
def onlyHeads : Objective :=
  .checked "heads" "heads" fun c => match c.find? "side" with
    | some (.text "heads") => .ok 2
    | _ => .error (.reason "tails")

/-- A store in which there is nothing yet. -/
def newStore : Runner :=
  { store := some ⟨"store"⟩ }

theorem onlyHeads_ends : ∃ result progress bench',
    (onlyHeads.probe : Probe Unit).run seededCoin oneRound "coin" .never (newStore, ()) =
      (.ok result, progress, bench') ∧
    result.report.evaluations = 2 ∧ result.report.failures = 1 ∧ result.report.best.fitness = 2 := by
  have hreport : ((onlyHeads.probe : Probe Unit).run seededCoin oneRound "coin" .never
      (newStore, ())).1.toOption.map (fun result => (result.report.evaluations,
        result.report.failures, result.report.best.fitness)) = some (2, 1, 2) := by
    decide +kernel
  rcases hrun : (onlyHeads.probe : Probe Unit).run seededCoin oneRound "coin" .never
    (newStore, ()) with ⟨_ | result, progress, bench'⟩
  · rw [hrun] at hreport
    cases hreport
  · rw [hrun] at hreport
    obtain ⟨hevaluations, hrest⟩ := Prod.mk.inj (Option.some.inj hreport)
    obtain ⟨hfailures, hbest⟩ := Prod.mk.inj hrest
    exact ⟨result, progress, bench', rfl, hevaluations, hfailures, hbest⟩

theorem onlyHeads_explains : (onlyHeads.probe : Probe Unit).Explains := by
  intro context c bench h
  simp only [Objective.probe, onlyHeads, Objective.checked] at h
  split at h
  · cases h
  · split at h
    · cases h
    · simp at h

theorem run_optimum_onlyHeads : ∃ (result : SessionResult) (progress : List Progress)
    (bench' : Runner × Unit) (mode : Mode) (log : Log) (entries : List TraceEntry)
    (lines : List String),
    (onlyHeads.probe : Probe Unit).run seededCoin oneRound "coin" .never (newStore, ()) =
      (.ok result, progress, bench') ∧
    result.report.evaluations = 2 ∧ result.report.failures = 1 ∧ result.report.best.fitness = 2 ∧
    entries.map TraceEntry.line = lines.map .ok ∧
    bench'.1.files.stat (Trace.path ⟨"store"⟩ "coin") = .ok (.file (lines.foldl (· ++ ·) "")) ∧
    Log.Traced mode 2 log entries ∧
    result.report.Sums mode oneRound.topK.toInt.toNat log ∧
    result.report.Rests mode 2 oneRound.topK.toInt.toNat entries := by
  obtain ⟨result, progress, bench', hrun, hevaluations, hfailures, hbest⟩ := onlyHeads_ends
  obtain ⟨mode, log, entries, lines, -, hlines, hfile, htraced, hsums, -, hrests⟩ :=
    run_optimum rfl (onlyHeads.quiet ⟨"store"⟩ "coin") hrun
  exact ⟨result, progress, bench', mode, log, entries, lines, hrun, hevaluations, hfailures, hbest,
    hlines, hfile, htraced, hsums, hrests onlyHeads_explains⟩

/-- One side of the coin has a low fitness, and the other one fails without words. -/
def wordlessTails : Objective :=
  .checked "heads" "heads" fun c => match c.find? "side" with
    | some (.text "heads") => .ok (-1)
    | _ => .error (.reason "")

/-- A failure without words leaves an entry like that of a fitness of zero, which may beat the best. -/
theorem not_best_of_entries : ∃ (result : SessionResult) (progress : List Progress)
    (bench' : Runner × Unit) (entries : List TraceEntry) (lines : List String),
    (wordlessTails.probe : Probe Unit).run seededCoin oneRound "coin" .never (newStore, ()) =
      (.ok result, progress, bench') ∧
    entries.map TraceEntry.line = lines.map .ok ∧
    bench'.1.files.stat (Trace.path ⟨"store"⟩ "coin") = .ok (.file (lines.foldl (· ++ ·) "")) ∧
    result.report.config.mode = "maximize" ∧
    ∃ e ∈ entries, e.error = "" ∧ result.report.best.fitness < e.fitness := by
  have hplayed : (Session.start seededCoin oneRound).toOption.map (fun started =>
      (Session.play (wordlessTails.probe : Probe Unit) oneRound started.2 .never
        oneRound.rounds.toInt.toNat started.1
        ((newStore.tick.2.startTrace "coin").2, ())).2.1.trace.map fun e => (e.error, e.fitness)) =
      some [("", 0), ("", -1)] := by
    decide +kernel
  have hreport : ((wordlessTails.probe : Probe Unit).run seededCoin oneRound "coin" .never
      (newStore, ())).1.toOption.map (fun result => (result.report.config.mode,
        result.report.best.fitness)) = some ("maximize", -1) := by
    decide +kernel
  rcases hrun : (wordlessTails.probe : Probe Unit).run seededCoin oneRound "coin" .never
    (newStore, ()) with ⟨_ | result, progress, bench'⟩
  · rw [hrun] at hreport
    cases hreport
  · rw [hrun] at hreport
    obtain ⟨hmode, hbest⟩ := Prod.mk.inj (Option.some.inj hreport)
    obtain ⟨s, mode, r, s', bench₁, pool, log, -, hstart, hopened, hplay, -, hlogged, -, hfile⟩ :=
      run_logged (P := fun _ => True) rfl (wordlessTails.quiet ⟨"store"⟩ "coin")
        (fun _ _ _ => trivial) hrun
    have hopened' : newStore.tick.2.startTrace "coin" = (.ok (), r) := hopened
    rw [hstart, hopened'] at hplayed
    have htrace : s'.trace.map (fun e => (e.error, e.fitness)) = [("", 0), ("", -1)] := by
      rw [← Option.some.inj hplayed]
      exact congrArg (fun played => played.2.1.trace.map fun e => (e.error, e.fitness)) hplay.symm
    obtain ⟨e, rest, heq, hentry, -⟩ := List.map_eq_cons_iff.mp htrace
    obtain ⟨herror, hfitness⟩ := Prod.mk.inj hentry
    have hlines : ∀ e ∈ s'.trace.reverse, ∃ line, e.line = .ok line := fun e he =>
      hlogged.lines e (List.mem_reverse.mp he)
    refine ⟨result, progress, bench', s'.trace.reverse, _, rfl, Trace.encodeLines_eq hlines, hfile,
      hmode, e, List.mem_reverse.mpr (heq ▸ List.mem_cons_self), herror, ?_⟩
    rw [hfitness]
    have hlt : (-1 : Float) < 0 := by decide +kernel
    rwa [← hbest] at hlt

end Probe

end Tuning
