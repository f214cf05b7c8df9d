import Mathlib
import Tuning.Proofs.Service.Delivery
import Tuning.Proofs.Session.Progress
import Tuning.Service.Http

/-! # The life of a job

The work on a job tells of its beginning, of every round and of its end, in this order. A job ends as
completed, failed or cancelled, with a time, and then nothing changes it any more. A session that breaks
down is the exception: of such a job the end is never told, and it stays as it was. -/

namespace Tuning

open Broadcaster Broadcaster.History

/-! ## Words for failures -/

theorem notFoundMessage_ne_empty (id : String) : notFoundMessage id ≠ "" := by
  unfold notFoundMessage
  by_cases h : id = ""
  · rw [if_pos h]
    decide
  · rw [if_neg h]
    exact append_ne_empty (by decide) id

theorem StoreError.message_ne_empty (error : StoreError) : error.message ≠ "" := by
  cases error with
  | notFound id => exact notFoundMessage_ne_empty id
  | file step =>
      have hstep : step.message ≠ "" := by cases step <;> decide
      exact append_ne_empty hstep ": ..."
  | unencodable error => exact append_ne_empty (by decide) _
  | emptyId | noReport | undecodable => decide

theorem TraceError.message_ne_empty (error : TraceError) : error.message ≠ "" := by
  cases error with
  | store error => exact error.message_ne_empty
  | unencodable error => exact append_ne_empty (by decide) _
  | malformed | tooLong | unreadable => decide

/-- A session never fails without words. -/
theorem SessionError.message_ne_empty (error : SessionError) : error.message ≠ "" := by
  cases error with
  | trace error => exact error.message_ne_empty
  | store error => exact error.message_ne_empty
  | stuck => decide
  | config error => exact append_ne_empty (by decide) _
  | mode error => exact append_ne_empty (by decide) _
  | population error => exact append_ne_empty (by decide) _
  | offspring error => exact append_ne_empty (by decide) _
  | interrupted ending tasks => exact append_ne_empty (by decide) _
  | report fault => exact append_ne_empty (by decide) _

/-! ## Rounds of a job -/

/-- The event of a job in a state after a round. -/
structure Event.Shows (state : JobState) (p : Progress) (e : Event) : Prop where
  state_eq : e.state = state
  round_eq : e.round = Int64.ofNat p.round
  evaluations_eq : e.evaluations = Int64.ofNat p.evaluations
  failures_eq : e.failures = Int64.ofNat p.failures

namespace Job

theorem id_advance (p : Progress) (j : Job) : (j.advance p).id = j.id := by
  unfold advance
  split <;> rfl

theorem state_advance (p : Progress) (j : Job) : (j.advance p).state = j.state := by
  unfold advance
  split <;> rfl

theorem shows_advance (p : Progress) (j : Job) (time : Instant) :
    ((j.advance p).event time).Shows j.state p := by
  unfold advance
  split <;> exact ⟨rfl, rfl, rfl, rfl⟩

theorem id_complete (r : SessionResult) (time : Instant) (j : Job) : (j.complete r time).id = j.id := by
  unfold complete
  dsimp only
  split <;> rfl

theorem bestFitness_advance {p : Progress} (h : p.best = none) (j : Job) :
    (j.advance p).bestFitness = j.bestFitness := by
  simp [advance, h]

end Job

namespace Service

/-! ## Telling of a job -/

variable {s s' : Service} {id : String} {job : Job} {history : History Event}

theorem find?_change (s : Service) (id : String) {f : Job → Job} (hf : ∀ j, (f j).id = j.id)
    (other : String) :
    (s.change id f).find? other = (s.find? other).map fun j => if j.id = id then f j else j := by
  have hkeep : ∀ j : Job, (if j.id = id then f j else j).id = j.id := fun j => by
    split <;> simp [hf]
  simp [find?, change, List.find?_map, hkeep]

theorem find?_id (h : s.find? id = some job) : job.id = id := by
  simpa using List.find?_some h

/-- A service that has a job, and whose broadcaster is what the actions of a history left. -/
structure Tells (s : Service) (id : String) (job : Job) (history : History Event) : Prop where
  find_eq : s.find? id = some job
  heard : ∃ u, history.run? = some u ∧ s.hub = u.hub

/-- What is broadcast is heard. -/
theorem Tells.broadcast (h : s.Tells id job history) (e : Event) :
    ∃ hub u, s.hub.broadcast? id e = some hub ∧ run? (history ++ [.broadcast id e]) = some u ∧
      u.hub = hub := by
  obtain ⟨u, hrun, hhub⟩ := h.heard
  obtain ⟨u', h'⟩ := Account.exists_of_history (history ++ [.broadcast id e])
  have hact := h'.run_eq
  rw [run?_concat, hrun, Option.bind_some, Usage.act?, Option.map_eq_some_iff] at hact
  obtain ⟨hub, hbroadcast, rfl⟩ := hact
  exact ⟨hub, _, hhub ▸ hbroadcast, h'.run_eq, rfl⟩

theorem Tells.report (h : s.Tells id job history) {f : Job → Job} (hf : ∀ j, (f j).id = j.id) :
    ∃ time, (s.report id f).Tells id (f job)
      (history ++ [.broadcast id ((f job).event time)]) := by
  have hfind : (s.change id f).find? id = some (f job) := by
    rw [find?_change s id hf, h.find_eq, Option.map_some, if_pos (find?_id h.find_eq)]
  obtain ⟨hub, u, hbroadcast, hrun, hhub⟩ := h.broadcast ((f job).event (s.change id f).tick.1)
  refine ⟨(s.change id f).tick.1, ?_, u, hrun, ?_⟩
  · rw [Service.report, announce, hfind]
    exact hfind
  · rw [hhub, Service.report, announce, hfind]
    simp only [tick, change] at hbroadcast ⊢
    rw [hbroadcast, Option.getD_some]

theorem Tells.tick (h : s.Tells id job history) : s.tick.2.Tells id job history :=
  ⟨h.find_eq, h.heard⟩

/-- Every round is told, with the job as it stands then. -/
theorem Tells.advance (h : s.Tells id job history) (progress : List Progress) :
    ∃ rounds, List.Forall₂ (Event.Shows job.state) progress rounds ∧
      (progress.foldl (fun s p => s.report id (Job.advance p)) s).Tells id
        (progress.foldl (fun j p => j.advance p) job) (history ++ rounds.map (.broadcast id)) := by
  induction progress generalizing s job history with
  | nil => exact ⟨[], .nil, by simpa using h⟩
  | cons p progress ih =>
      obtain ⟨time, hnext⟩ := h.report (Job.id_advance p)
      obtain ⟨rounds, hshows, htells⟩ := ih hnext
      rw [Job.state_advance] at hshows
      refine ⟨(job.advance p).event time :: rounds, .cons (job.shows_advance p time) hshows, ?_⟩
      simpa using htells

theorem Tells.abandon (h : s.Tells id job history) : ∃ ended time, (s.abandon id).Tells id
    (job.abandon ended) (history ++ [.broadcast id ((job.abandon ended).event time)]) :=
  ⟨_, h.tick.report fun _ => rfl⟩

theorem Tells.fail (h : s.Tells id job history) (error : String) : ∃ ended time,
    (s.fail id error).Tells id (job.fail error ended)
      (history ++ [.broadcast id ((job.fail error ended).event time)]) :=
  ⟨_, h.tick.report fun _ => rfl⟩

theorem Tells.complete (h : s.Tells id job history) (r : SessionResult) : ∃ ended time,
    (s.complete id r).Tells id (job.complete r ended)
      (history ++ [.broadcast id ((job.complete r ended).event time)]) :=
  ⟨_, h.tick.report (Job.id_complete r _)⟩

end Service

/-! ## The course of a job -/

/-- Nothing has been done for a job. -/
structure Job.Fresh (j : Job) : Prop where
  state_eq : j.state = .pending
  evaluations_eq : j.evaluations = 0
  bestFitness_eq : j.bestFitness = none

/-- What is heard of the rounds of a job, in the order of the rounds. The failures are compared as long as
64-bit counters can hold the evaluations. -/
structure Config.Rounds (config : Config) (rounds : List Event) : Prop where
  running : ∀ e ∈ rounds, e.state = .running
  round_eq : ∀ (r : Nat) (e : Event), rounds[r]? = some e → e.round = Int64.ofNat r
  evaluations_eq : ∀ (r : Nat) (e : Event), rounds[r]? = some e →
    e.evaluations = Int64.ofNat (r + 1) * config.offspring
  failures_le : config.rounds.toInt * config.offspring.toInt < 2 ^ 63 →
    rounds.Pairwise fun e e' => e.failures ≤ e'.failures

theorem ofNat_mul_toNat (a : Nat) {n : Int64} (h : 1 ≤ n) :
    Int64.ofNat (a * n.toInt.toNat) = Int64.ofNat a * n := by
  have hn : 1 ≤ n.toInt := Int64.le_iff_toInt_le.mp h
  have hcast : ((n.toInt.toNat : Nat) : Int) = n.toInt := Int.toNat_of_nonneg (by omega)
  rw [Int64.ofNat_mul, ← Int64.ofInt_eq_ofNat (n := n.toInt.toNat), hcast, Int64.ofInt_toInt]

/-- Counters that fit into machine integers keep their order there. -/
theorem ofNat_le_ofNat {m n : Nat} (h : m ≤ n) (hn : n < 2 ^ 63) : Int64.ofNat m ≤ Int64.ofNat n := by
  rw [Int64.le_iff_toInt_le, Int64.toInt_ofNat_of_lt (by omega), Int64.toInt_ofNat_of_lt hn]
  exact_mod_cast h

namespace Config.Rounds

variable {config : Config} {progress : List Progress} {rounds : List Event}

theorem exists_progress (hshows : List.Forall₂ (Event.Shows .running) progress rounds) {r : Nat}
    {e : Event} (hr : rounds[r]? = some e) : ∃ p, progress[r]? = some p ∧ e.Shows .running p := by
  obtain ⟨hlt, rfl⟩ := List.getElem?_eq_some_iff.mp hr
  have hlt' : r < progress.length := hshows.length_eq ▸ hlt
  exact ⟨_, List.getElem?_eq_getElem hlt', hshows.get hlt' hlt⟩

theorem map_failures (hshows : List.Forall₂ (Event.Shows .running) progress rounds) :
    rounds.map (·.failures) = progress.map fun p => Int64.ofNat p.failures := by
  induction hshows with
  | nil => rfl
  | cons hshow _ ih => rw [List.map_cons, List.map_cons, ih, hshow.failures_eq]

/-- The rounds of a session are heard of in turn. -/
theorem of_progress (hinTurn : Progress.InTurn config.offspring.toInt.toNat progress)
    (hoffspring : progress ≠ [] → 1 ≤ config.offspring)
    (hfits : config.rounds.toInt * config.offspring.toInt < 2 ^ 63 →
      progress.length * config.offspring.toInt.toNat < 2 ^ 63)
    (hshows : List.Forall₂ (Event.Shows .running) progress rounds) : config.Rounds rounds := by
  refine ⟨?_, ?_, ?_, ?_⟩
  · intro e he
    obtain ⟨r, hr⟩ := List.mem_iff_getElem?.mp he
    obtain ⟨p, -, hp⟩ := exists_progress hshows hr
    exact hp.state_eq
  · intro r e hr
    obtain ⟨p, hr', hp⟩ := exists_progress hshows hr
    rw [hp.round_eq, hinTurn.round_eq r p hr']
  · intro r e hr
    obtain ⟨p, hr', hp⟩ := exists_progress hshows hr
    have hne : progress ≠ [] := by
      rintro rfl
      simp at hr'
    rw [hp.evaluations_eq, hinTurn.evaluations_eq r p hr', ofNat_mul_toNat _ (hoffspring hne)]
  · intro hsize
    have hbound : ∀ p ∈ progress, p.failures < 2 ^ 63 := fun p hp =>
      (hinTurn.failures_le p hp).trans_lt ((hinTurn.evaluations_le p hp).trans_lt (hfits hsize))
    have hmap : (rounds.map (·.failures)).Pairwise (· ≤ ·) := by
      rw [map_failures hshows, List.pairwise_map]
      exact hinTurn.pairwise.imp_of_mem fun _ hq hle => ofNat_le_ofNat hle (hbound _ hq)
    exact List.pairwise_map.mp hmap

/-- No round shows more evaluations than all rounds together have. -/
theorem evaluations_le (hinTurn : Progress.InTurn config.offspring.toInt.toNat progress)
    (hfits : progress.length * config.offspring.toInt.toNat < 2 ^ 63)
    (hshows : List.Forall₂ (Event.Shows .running) progress rounds) :
    ∀ e ∈ rounds, e.evaluations ≤ Int64.ofNat (progress.length * config.offspring.toInt.toNat) := by
  intro e he
  obtain ⟨r, hr⟩ := List.mem_iff_getElem?.mp he
  obtain ⟨p, hr', hp⟩ := exists_progress hshows hr
  rw [hp.evaluations_eq]
  exact ofNat_le_ofNat (hinTurn.evaluations_le p (List.mem_of_getElem? hr')) hfits

end Config.Rounds

/-- The best fitness of a report that has a best candidate. -/
def Report.bestFitness? (r : Report) : Option Float :=
  if (r.best.values.getD []).isEmpty then none else some r.best.fitness

/-- How a job stands after a session that came to an outcome; `ended` tells whether the work had been told
to end when the session failed. -/
structure Job.Concludes (outcome : Except SessionError SessionResult) (ended : SessionError → Option Ending)
    (job : Job) : Prop where
  terminal : job.state.terminal = true
  endTime : job.endTime.isSome = true
  completed_iff : job.state = .completed ↔ ∃ r, outcome = .ok r
  cancelled_iff : job.state = .cancelled ↔ ∃ error, outcome = .error error ∧ (ended error).isSome = true
  error_ne : job.state = .failed → job.error ≠ ""
  result_eq : ∀ r, outcome = .ok r →
    job.evaluations = r.report.evaluations ∧ job.failures = r.report.failures ∧
      job.converged = r.report.converged ∧ job.exhausted = r.exhausted ∧
      job.bestFitness = r.report.bestFitness?

namespace Job

variable {outcome : Except SessionError SessionResult} {ended : SessionError → Option Ending}

theorem concludes_complete {r : SessionResult} (time : Instant) {j : Job}
    (hbest : r.report.best.values.getD [] = [] → j.bestFitness = none) :
    (j.complete r time).Concludes (.ok r) ended := by
  have hstate : (j.complete r time).state = .completed := by
    unfold complete
    dsimp only
    split <;> rfl
  refine ⟨by rw [hstate]; rfl, ?_, iff_of_true hstate ⟨r, rfl⟩, iff_of_false (by simp [hstate]) (by simp),
    by simp [hstate], fun r' hr => ?_⟩
  · unfold complete
    dsimp only
    split <;> rfl
  · obtain rfl := Except.ok.inj hr
    by_cases hempty : r.report.best.values.getD [] = []
    · simp [complete, Report.bestFitness?, hempty, hbest hempty]
    · simp [complete, Report.bestFitness?, hempty]

theorem concludes_abandon {error : SessionError} {ending : Ending} (h : ended error = some ending)
    (time : Instant) (j : Job) : (j.abandon time).Concludes (.error error) ended :=
  ⟨rfl, rfl, by simp [abandon], by simp [abandon, h], by simp [abandon],
    fun _ hr => by cases hr⟩

theorem concludes_fail {error : SessionError} (h : ended error = none) (time : Instant) (j : Job) :
    (j.fail error.message time).Concludes (.error error) ended :=
  ⟨rfl, rfl, by simp [fail], by simp [fail, h], fun _ => error.message_ne_empty,
    fun _ hr => by cases hr⟩

theorem state_advanceAll (progress : List Progress) (j : Job) :
    (progress.foldl (fun j p => j.advance p) j).state = j.state := by
  induction progress generalizing j with
  | nil => rfl
  | cons p progress ih => rw [List.foldl_cons, ih, state_advance]

theorem bestFitness_advanceAll {progress : List Progress} (h : ∀ p ∈ progress, p.best = none) (j : Job) :
    (progress.foldl (fun j p => j.advance p) j).bestFitness = j.bestFitness := by
  induction progress generalizing j with
  | nil => rfl
  | cons p progress ih =>
      obtain ⟨hp, hrest⟩ := List.forall_mem_cons.mp h
      rw [List.foldl_cons, ih hrest, bestFitness_advance hp]

end Job

namespace Service

variable {ε : Type} {s : Service} {id : String} {job : Job} {history : History Event}

/-- A session has no outcome. -/
def BrokeDown (outcome : Except SessionError SessionResult) : Prop :=
  ∃ error, outcome = .error error ∧ error.isBreakdown = true

/-- Ends the work on a job after its session. -/
def conclude (s : Service) (id : String) (ended : SessionError → Option Ending) :
    Except SessionError SessionResult → Service
  | .ok r => s.complete id r
  | .error error =>
    if error.isBreakdown then s
    else if (ended error).isSome then s.abandon id else s.fail id error.message

/-- Of a session that has an outcome the end is told, and the job stands as the outcome says. -/
theorem Tells.conclude (h : s.Tells id job history) {outcome : Except SessionError SessionResult}
    (ended : SessionError → Option Ending)
    (hbest : ∀ r, outcome = .ok r → r.report.best.values.getD [] = [] → job.bestFitness = none) :
    ∃ last job', (s.conclude id ended outcome).Tells id job' (history ++ last.map (Action.broadcast id)) ∧
      (BrokeDown outcome → last = [] ∧ job' = job) ∧
      (¬BrokeDown outcome →
        ∃ time, last = [job'.event time] ∧ job'.Concludes outcome ended) := by
  cases outcome with
  | ok r =>
      obtain ⟨time, time', hend⟩ := h.complete r
      refine ⟨[_], _, hend, by simp [BrokeDown], fun _ => ⟨time', rfl, ?_⟩⟩
      exact Job.concludes_complete time (hbest r rfl)
  | error error =>
      have hiff : BrokeDown (.error error) ↔ error.isBreakdown = true := by simp [BrokeDown]
      by_cases hbreakdown : error.isBreakdown = true
      · refine ⟨[], job, ?_, fun _ => ⟨rfl, rfl⟩, fun hnone => absurd (hiff.mpr hbreakdown) hnone⟩
        simpa [Service.conclude, hbreakdown] using h
      · rw [hiff]
        cases hended : ended error with
        | some ending =>
            obtain ⟨time, time', hend⟩ := h.abandon
            refine ⟨[_], _, ?_, fun hbroken => absurd hbroken hbreakdown,
              fun _ => ⟨time', rfl, Job.concludes_abandon hended time job⟩⟩
            simpa [Service.conclude, hbreakdown, hended] using hend
        | none =>
            obtain ⟨time, time', hend⟩ := h.fail error.message
            refine ⟨[_], _, ?_, fun hbroken => absurd hbroken hbreakdown,
              fun _ => ⟨time', rfl, Job.concludes_fail hended time job⟩⟩
            simpa [Service.conclude, hbreakdown, hended] using hend

/-- The work on a job that was not told to end before it began: it begins, plays its session, tells of the
rounds and concludes. -/
theorem attend_eq {p : Probe ε} {space : Space} {signal : Signal} {e e' : ε} {runner : Runner}
    {outcome : Except SessionError SessionResult} {progress : List Progress}
    (hfind : s.find? id = some job) (hearly : signal.early = none)
    (hrun : p.run space job.config id signal.session ((s.report id Job.begin).runner, e) =
      (outcome, progress, runner, e')) :
    (s.attend id space p signal e).2.1 =
      (progress.foldl (fun (s : Service) p => s.report id (Job.advance p))
        { s.report id Job.begin with runner }).conclude id (signal.late · progress) outcome := by
  simp only [attend, hfind, hearly, hrun]
  cases outcome with
  | ok r => rfl
  | error error =>
      by_cases hbreakdown : error.isBreakdown = true
      · simp [conclude, hbreakdown]
      · cases hlate : signal.late error progress <;> simp [conclude, hbreakdown, hlate]

/-- What is heard of a job whose session has an outcome, and how it stands then: the beginning, the rounds,
and the end, unless the session broke down. -/
structure Course (config : Config) (outcome : Except SessionError SessionResult) (progress : List Progress)
    (ended : SessionError → Option Ending) (first : Event) (rounds last : List Event) (job : Job) :
    Prop where
  first_running : first.state = .running
  length_eq : rounds.length = progress.length
  rounds_inTurn : config.Rounds rounds
  broken : BrokeDown outcome → last = [] ∧ job.state = .running
  concluded : ¬BrokeDown outcome → ∃ time, last = [job.event time] ∧ job.Concludes outcome ended
  rounds_eq : ∀ r, outcome = .ok r → r.report.rounds = Int64.ofNat rounds.length
  /-- No event shows more evaluations than the result, as long as 64-bit counters can hold them. -/
  evaluations_le : (∃ r, outcome = .ok r) → config.rounds.toInt * config.offspring.toInt < 2 ^ 63 →
    ∀ e ∈ first :: (rounds ++ last), e.evaluations ≤ job.evaluations

theorem length_mul_lt {config : Config} {progress : List Progress}
    (hlength : progress.length ≤ config.rounds.toInt.toNat)
    (hvalid : progress ≠ [] → config.validate = .ok ())
    (hsize : config.rounds.toInt * config.offspring.toInt < 2 ^ 63) :
    progress.length * config.offspring.toInt.toNat < 2 ^ 63 := by
  by_cases hne : progress = []
  · simp [hne]
  · obtain ⟨hrounds, -, hoffspring, -⟩ := Config.validate_eq_ok (hvalid hne)
    have hrounds' : 1 ≤ config.rounds.toInt := Int64.le_iff_toInt_le.mp hrounds
    have hoffspring' : 1 ≤ config.offspring.toInt := Int64.le_iff_toInt_le.mp hoffspring
    have hcast : ((config.rounds.toInt.toNat * config.offspring.toInt.toNat : Nat) : Int) < 2 ^ 63 := by
      rw [Nat.cast_mul, Int.toNat_of_nonneg (by omega), Int.toNat_of_nonneg (by omega)]
      exact hsize
    have hmul := Nat.mul_le_mul_right config.offspring.toInt.toNat hlength
    omega

theorem Tells.course (h : s.Tells id job history) (hfresh : job.Fresh) (p : Probe ε) (space : Space)
    {signal : Signal} (hearly : signal.early = none) (e : ε) :
    ∃ outcome progress bench first rounds last job',
      p.run space job.config id signal.session ((s.report id Job.begin).runner, e) =
        (outcome, progress, bench) ∧
      (s.attend id space p signal e).2.1.Tells id job'
        (history ++ (first :: (rounds ++ last)).map (Action.broadcast id)) ∧
      Course job.config outcome progress (signal.late · progress) first rounds last job' := by
  obtain ⟨time, hbegun⟩ := h.report (f := Job.begin) fun _ => rfl
  rcases hrun : p.run space job.config id signal.session ((s.report id Job.begin).runner, e) with
    ⟨outcome, progress, runner, e'⟩
  obtain ⟨hinTurn, hlength, hvalid⟩ := Probe.run_inTurn hrun
  have hfits := length_mul_lt hlength hvalid
  have hbegun' : { s.report id Job.begin with runner }.Tells id job.begin
      (history ++ [Action.broadcast id (job.begin.event time)]) := ⟨hbegun.find_eq, hbegun.heard⟩
  obtain ⟨rounds, hshows, htold⟩ := hbegun'.advance progress
  have hrounds : job.config.Rounds rounds :=
    .of_progress hinTurn (fun hne => (Config.validate_eq_ok (hvalid hne)).2.2.1) hfits hshows
  have hbest : ∀ r, outcome = .ok r → r.report.best.values.getD [] = [] →
      (progress.foldl (fun j p => j.advance p) job.begin).bestFitness = none := by
    rintro r rfl hempty
    rw [Job.bestFitness_advanceAll ((Probe.run_shows hrun).2.2 hempty)]
    exact hfresh.bestFitness_eq
  obtain ⟨last, job', htells, hbroken, hconcluded⟩ := htold.conclude (signal.late · progress) hbest
  refine ⟨outcome, progress, (runner, e'), job.begin.event time, rounds, last, job', rfl, ?_, rfl,
    hshows.length_eq.symm, hrounds, fun hbreakdown => ?_, hconcluded, ?_, ?_⟩
  · rw [attend_eq h.find_eq hearly hrun]
    simpa using htells
  · obtain ⟨hlast, rfl⟩ := hbroken hbreakdown
    exact ⟨hlast, Job.state_advanceAll progress job.begin⟩
  · rintro r rfl
    rw [(Probe.run_shows hrun).1, hshows.length_eq]
  · rintro ⟨r, rfl⟩ hsize
    obtain ⟨time', rfl, hconcludes⟩ := hconcluded (by simp [BrokeDown])
    have htotal := (hconcludes.result_eq r rfl).1.trans (Probe.run_shows hrun).2.1
    have hle := Config.Rounds.evaluations_le hinTurn (hfits hsize) hshows
    have hzero : (job.begin.event time).evaluations ≤
        Int64.ofNat (progress.length * job.config.offspring.toInt.toNat) := by
      rw [show (job.begin.event time).evaluations = Int64.ofNat 0 from hfresh.evaluations_eq]
      exact ofNat_le_ofNat (Nat.zero_le _) (hfits hsize)
    rw [← htotal] at hle hzero
    simp only [List.mem_cons, List.mem_append, List.not_mem_nil, or_false]
    rintro e (rfl | he | rfl)
    · exact hzero
    · exact hle e he
    · exact Int64.le_refl _

/-! ## After the end -/

theorem find?_change_of_ne {other : String} (hne : other ≠ id) (s : Service) {f : Job → Job}
    (hf : ∀ j, (f j).id = j.id) : (s.change other f).find? id = s.find? id := by
  rw [find?_change s other hf]
  cases hfind : s.find? id with
  | none => rfl
  | some job => rw [Option.map_some, if_neg (find?_id hfind ▸ hne.symm)]

theorem find?_announce (s : Service) (other : String) : (s.announce other).find? id = s.find? id := by
  unfold announce
  split <;> rfl

theorem find?_report_of_ne {other : String} (hne : other ≠ id) (s : Service) {f : Job → Job}
    (hf : ∀ j, (f j).id = j.id) : (s.report other f).find? id = s.find? id := by
  rw [report, find?_announce, find?_change_of_ne hne s hf]

theorem find?_conclude_of_ne {other : String} (hne : other ≠ id) (s : Service)
    (ended : SessionError → Option Ending) (outcome : Except SessionError SessionResult) :
    (s.conclude other ended outcome).find? id = s.find? id := by
  unfold conclude
  split
  · exact find?_report_of_ne hne s.tick.2 (Job.id_complete _ _)
  · split
    · rfl
    · split
      · exact find?_report_of_ne hne s.tick.2 fun _ => rfl
      · exact find?_report_of_ne hne s.tick.2 fun _ => rfl

/-- The work on a job leaves other jobs alone. -/
theorem find?_attend_of_ne {other : String} (hne : other ≠ id) (s : Service) (space : Space) (p : Probe ε)
    (signal : Signal) (e : ε) : (s.attend other space p signal e).2.1.find? id = s.find? id := by
  cases hfind : s.find? other with
  | none => simp [attend, hfind]
  | some job =>
      cases hearly : signal.early with
      | some ending =>
          simp only [attend, hfind, hearly]
          exact find?_report_of_ne hne s.tick.2 fun _ => rfl
      | none =>
          rcases hrun : p.run space job.config other signal.session
            ((s.report other Job.begin).runner, e) with ⟨outcome, progress, runner, e'⟩
          have hfold : ∀ (progress : List Progress) (t : Service),
              (progress.foldl (fun (s : Service) p => s.report other (Job.advance p)) t).find? id =
                t.find? id := by
            intro progress
            induction progress with
            | nil => exact fun t => rfl
            | cons q progress ih =>
                intro t
                rw [List.foldl_cons, ih, find?_report_of_ne hne t (Job.id_advance q)]
          rw [attend_eq hfind hearly hrun, find?_conclude_of_ne hne, hfold]
          exact find?_report_of_ne hne s fun _ => rfl

theorem find?_perform_of_ne {other : String} (hne : other ≠ id) (s : Service) (space : Space)
    (o : Objective) (i : Interrupt) : (s.perform other space o i).2.find? id = s.find? id :=
  find?_attend_of_ne hne s space (o.probe : Probe Unit) (.ofInterrupt i) ()

theorem find?_submit_of_ne {fresh : String} (hne : fresh ≠ id) (s : Service) (config : Config)
    (space : Space) (objective : Objective) :
    (s.submit fresh config space objective).2.find? id = s.find? id := by
  have hcreate : (s.create fresh config).2.find? id = s.find? id := by
    simp [create, find?, tick, List.find?_append, hne]
  have hchange := find?_change_of_ne hne (s.create fresh config).2
    (f := fun job => { job with cancellable := true }) fun _ => rfl
  exact hchange.trans hcreate

/-- A job that has ended cannot be told to end. -/
theorem find?_cancel (hfind : s.find? id = some job) (hterminal : job.state.terminal = true)
    (other : String) : (s.cancel other).2.find? id = some job := by
  by_cases hother : other = id
  · simp [cancel, hother, hfind, hterminal]
  · unfold cancel
    split
    · exact hfind
    · split
      · exact hfind
      · have hchange := find?_change_of_ne hother s
          (f := fun job => { job with cancelRequested := true }) fun _ => rfl
        exact hchange.trans hfind

theorem jobs_forward (s : Service) (st : Stream) (e : Event) : (s.forward st e).2.jobs = s.jobs := by
  unfold forward
  split
  · rfl
  · split <;> rfl

theorem jobs_pumpEvents (count : Nat) (s : Service) (st : Stream) :
    (s.pumpEvents count st).2.jobs = s.jobs := by
  induction count generalizing s st with
  | zero => rfl
  | succ count ih =>
      rw [pumpEvents]
      split
      · split
        · exact (ih _ _).trans (jobs_forward _ _ _)
        · split <;> rfl
      · rfl

theorem jobs_openStream (s : Service) (job : Job) (writes : Option Nat) :
    (s.openStream job writes).2.jobs = s.jobs :=
  (jobs_pumpEvents _ _ _).trans (jobs_forward _ _ _)

section Requests

variable (hfind : s.find? id = some job) (hterminal : job.state.terminal = true) (r : Request)
include hfind

theorem find?_handleCreate {fresh : String} (hne : fresh ≠ id) :
    (s.handleCreate fresh r).2.find? id = some job := by
  unfold handleCreate
  split
  · exact hfind
  · exact (find?_submit_of_ne hne s _ _ _).trans hfind

theorem find?_handleStream (other : String) : (s.handleStream other r).2.find? id = some job := by
  unfold handleStream
  split
  · exact hfind
  · split
    · rw [← hfind]
      exact congrArg (List.find? _) (jobs_openStream _ _ _)
    · exact hfind

include hterminal

theorem find?_handleCancel (other : String) : (s.handleCancel other).2.find? id = some job := by
  have hcancel := find?_cancel hfind hterminal other
  unfold handleCancel
  split
  · exact hfind
  · split
    · next s' h => rwa [h] at hcancel
    · next s' h => rwa [h] at hcancel

theorem find?_handleSession (names : List String) : (s.handleSession r names).2.find? id = some job := by
  unfold handleSession
  dsimp only
  split_ifs
  · exact hfind
  · exact find?_handleCancel hfind hterminal _
  · exact hfind
  · split
    · exact hfind
    · exact hfind
    · exact find?_handleStream hfind r _
    · exact hfind
    · exact hfind
    · exact hfind

theorem find?_route {fresh : String} (hne : fresh ≠ id) (path : String) :
    (s.route fresh path r).2.find? id = some job := by
  unfold route
  split
  · split
    · exact find?_handleCreate hfind r hne
    · exact hfind
    · exact hfind
  · split_ifs
    · exact hfind
    · exact hfind
  · exact find?_handleSession hfind hterminal r _
  · exact hfind

/-- No request changes a job that has ended. -/
theorem find?_handle {fresh : String} (hne : fresh ≠ id) : (s.handle fresh r).2.find? id = some job := by
  unfold handle
  dsimp only
  by_cases hoptions : r.method = "OPTIONS"
  · rw [if_pos hoptions]
    exact hfind
  · rw [if_neg hoptions]
    by_cases hclean : r.method ≠ "CONNECT" ∧ Request.cleaned (Percent.path r.split.1) ≠ Percent.path r.split.1
    · rw [if_pos hclean]
      exact hfind
    · rw [if_neg hclean]
      exact find?_route hfind hterminal r hne _

end Requests

/-- A service later on: it has answered requests, where new sessions got new ids, it has told work to
end, and it has worked on other jobs. -/
inductive Later (id : String) (s : Service) : Service → Prop where
  | refl : Later id s s
  | request {t : Service} (h : Later id s t) {fresh : String} (hne : fresh ≠ id) (r : Request) :
      Later id s (t.handle fresh r).2
  | cancel {t : Service} (h : Later id s t) (other : String) : Later id s (t.cancel other).2
  | attend {ε : Type} {t : Service} (h : Later id s t) {other : String} (hne : other ≠ id) (space : Space)
      (p : Probe ε) (signal : Signal) (e : ε) : Later id s (t.attend other space p signal e).2.1
  | settle {t : Service} (h : Later id s t) {other : String} (hne : other ≠ id) :
      Later id s (t.settle other)

/-- Nothing changes a job that has ended. -/
theorem Later.find?_eq {t : Service} (h : s.Later id t) (hfind : s.find? id = some job)
    (hterminal : job.state.terminal = true) : t.find? id = some job := by
  induction h with
  | refl => exact hfind
  | request _ hne r ih => exact find?_handle ih hterminal r hne
  | cancel _ other ih => exact find?_cancel ih hterminal other
  | attend _ hne space p signal e ih => exact (find?_attend_of_ne hne _ space p signal e).trans ih
  | settle _ hne ih =>
      unfold Service.settle
      split
      · exact ih
      · exact (find?_perform_of_ne hne _ _ _ _).trans ih

/-- The work on a new job is heard of in order, and nothing changes the job after its end. If the work was
told to end before it began, one event tells of it. Otherwise the beginning is told, then every round that
ended with its number, all evaluations up to its end and failures that never get fewer, and last the end:
the job is completed if its session came to a result, and shows its counters and best fitness; it is
cancelled if the session failed when the work had been told to end, and failed with words if not. A
session that breaks down is the only one whose end is not told. -/
theorem attend_lifecycle (p : Probe ε) (space : Space) (signal : Signal) (e : ε)
    (h : s.Tells id job history) (hfresh : job.Fresh) :
    ∃ events job', (s.attend id space p signal e).2.1.Tells id job'
        (history ++ events.map (Action.broadcast id)) ∧
      (job'.state.terminal = true → ∀ t, (s.attend id space p signal e).2.1.Later id t →
        t.find? id = some job') ∧
      (∀ ending, signal.early = some ending → ∃ last, events = [last] ∧ last.state = .cancelled ∧
        job'.state = .cancelled ∧ job'.endTime.isSome = true) ∧
      (signal.early = none → ∃ outcome progress bench first rounds last,
        p.run space job.config id signal.session ((s.report id Job.begin).runner, e) =
          (outcome, progress, bench) ∧
        events = first :: (rounds ++ last) ∧
        Course job.config outcome progress (signal.late · progress) first rounds last job') := by
  cases hearly : signal.early with
  | some ending =>
      obtain ⟨time, time', hend⟩ := h.abandon
      have hattend : (s.attend id space p signal e).2.1 = s.abandon id := by
        simp only [attend, h.find_eq, hearly]
      rw [hattend]
      exact ⟨[_], _, hend, fun hterminal t hlater => hlater.find?_eq hend.find_eq hterminal,
        fun _ _ => ⟨_, rfl, rfl, rfl, rfl⟩, nofun⟩
  | none =>
      obtain ⟨outcome, progress, bench, first, rounds, last, job', hrun, htells, hcourse⟩ :=
        h.course hfresh p space hearly e
      exact ⟨_, job', htells, fun hterminal t hlater => hlater.find?_eq htells.find_eq hterminal, nofun,
        fun _ => ⟨outcome, progress, bench, first, rounds, last, hrun, rfl, hcourse⟩⟩

/-- A service with a job about the sides of a coin. -/
def coinService : Service :=
  (create {} "coin" Probe.oneRound).2

/-- A session of one round: its job begins, shows the round and is completed. -/
theorem attend_lifecycle_coin : ∃ (events : List Event) (job' : Job),
    (coinService.attend "coin" Probe.seededCoin Probe.flat (.ofInterrupt .never) ()).2.1.Tells "coin" job'
      (events.map (Action.broadcast "coin")) ∧
    events.map Event.state = [.running, .running, .completed] ∧ job'.state = .completed ∧
    job'.endTime.isSome = true ∧
    ∀ t, (coinService.attend "coin" Probe.seededCoin Probe.flat (.ofInterrupt .never) ()).2.1.Later "coin" t →
      t.find? "coin" = some job' := by
  have htells : coinService.Tells "coin" (create {} "coin" Probe.oneRound).1 [] :=
    ⟨rfl, {}, rfl, rfl⟩
  obtain ⟨events, job', hend, hlater, -, hcourse⟩ :=
    attend_lifecycle Probe.flat Probe.seededCoin (.ofInterrupt .never) () htells ⟨rfl, rfl, rfl⟩
  obtain ⟨outcome, progress, bench, first, rounds, last, hrun, rfl, hcourse⟩ := hcourse rfl
  have hshape : (outcome.isOk, progress.length) = (true, 1) := by
    have hrun' := congrArg (fun out => (out.1.isOk, out.2.1.length)) hrun
    rw [← hrun']
    decide +kernel
  obtain ⟨hok, hlength⟩ := Prod.mk.inj hshape
  cases outcome with
  | error error => cases hok
  | ok r =>
      obtain ⟨time, rfl, hconcludes⟩ := hcourse.concluded (by simp [BrokeDown])
      have hcompleted := hconcludes.completed_iff.mpr ⟨r, rfl⟩
      obtain ⟨round, rfl⟩ := List.length_eq_one_iff.mp (hcourse.length_eq.trans hlength)
      have hround := hcourse.rounds_inTurn.running round (by simp)
      refine ⟨[first, round, job'.event time], job', by simpa using hend, ?_, hcompleted, hconcludes.endTime,
        hlater hconcludes.terminal⟩
      simp [hcourse.first_running, hround, Job.event, hcompleted]

/-- An order of ten things. -/
def tenInOrder (name : String) : Parameter :=
  { name, domain := .permutation 10, seeds := [.ints [0, 1, 2, 3, 4, 5, 6, 7, 8, 9]] }

/-- Three orders of ten things: there are more than a batch can have children. -/
def threeOrders : Space :=
  ⟨[tenInOrder "x", tenInOrder "y", tenInOrder "z"]⟩

/-- A configuration that asks for one more child than the largest batch has. -/
def oneTooMany : Config :=
  { Config.standard with rounds := 1, parents := 1, offspring := 35184372088833 }

/-- The end of a job whose session breaks down is never told: the only event is its beginning, and it is
running for ever. -/
theorem attend_untold :
    let s := ((create {} "job" oneTooMany).2.perform "job" threeOrders
      (.checked "flat" "flat" fun _ => .ok 1) .never).2
    s.hub.sent.map (fun sent => (sent.1, sent.2.state)) = [("job", .running)] ∧
      (s.find? "job").map (fun job => (job.state, job.endTime.isSome)) = some (.running, false) := by
  decide +kernel

end Service

end Tuning
