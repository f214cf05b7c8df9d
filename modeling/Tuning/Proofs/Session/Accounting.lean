import Tuning.Proofs.Population.Breeding
import Tuning.Session.Run

/-! # The accounts of a session

A session is a search: it breeds batches and records their children. A batch is new, so no child that
has a fitness is refused, and every evaluation is counted as a failure or recorded. -/

namespace Tuning

/-! ## Valid configurations -/

namespace Config

theorem check_eq_nil {field value : String} {rules : List (String × String × Bool)} :
    check field value rules = [] ↔ ∀ rule ∈ rules, rule.2.2 = true := by
  unfold check
  split
  · next rule bound holds hfind =>
      have hmem := List.mem_of_find?_eq_some hfind
      have hbroken := List.find?_some hfind
      simp only [List.cons_ne_self, false_iff, not_forall]
      exact ⟨(rule, bound, holds), hmem, by simpa using hbroken⟩
  · next hfind => simpa using hfind

theorem checkLeast_eq_nil {field rule : String} {least n : Int64} :
    checkLeast field rule least n = [] ↔ least ≤ n := by
  rw [checkLeast, check_eq_nil]
  simp

/-- What a valid configuration promises to a session. -/
theorem validate_eq_ok {c : Config} (h : c.validate = .ok ()) :
    1 ≤ c.rounds ∧ 1 ≤ c.parents ∧ 1 ≤ c.offspring ∧ ∃ mode, Mode.ofName c.mode = .ok mode := by
  have hfaults : c.faults = [] := by
    unfold validate at h
    split at h
    · next hempty => exact List.isEmpty_iff.mp hempty
    · cases h
  simp only [faults, List.append_eq_nil_iff, checkLeast_eq_nil, check_eq_nil] at hfaults
  obtain ⟨⟨⟨⟨⟨⟨⟨⟨⟨⟨-, hmode⟩, hrounds⟩, hparents⟩, hoffspring⟩, -⟩, -⟩, -⟩, -⟩, -⟩, -⟩ := hfaults
  refine ⟨hrounds, hparents, hoffspring, ?_⟩
  have hname : c.mode = "maximize" ∨ c.mode = "minimize" := by simpa using hmode
  rcases hname with hname | hname
  · exact ⟨.maximize, by rw [hname]; rfl⟩
  · exact ⟨.minimize, by rw [hname]; rfl⟩

end Config

/-! ## One measurement -/

/-- The fitness that was measured. -/
def Outcome.fitness? : Outcome → Option Float
  | scored fitness _ => some fitness
  | failed _ => none

theorem Runner.mark_eq_some {r marked : Runner} {key : String} (h : r.mark key = some marked) :
    ∃ last, marked = { r with inFlight := (key, last) :: (r.release key).inFlight } := by
  unfold mark at h
  split at h
  · cases h
  · exact ⟨_, (Option.some.inj h).symm⟩

namespace Probe

variable {ε : Type}

/-- Evaluations leave the store of the runner alone. -/
def KeepsStore (p : Probe ε) : Prop :=
  ∀ context c s, (p.evaluate context c s).2.1.store = s.1.store

theorem store_measure {p : Probe ε} (hp : p.KeepsStore) (context : Context) (x : Individual)
    (bench : Runner × ε) : (p.measure context x bench).2.1.store = bench.1.store := by
  unfold measure
  dsimp only
  split
  · rfl
  · split
    · rfl
    · next marked hmark =>
        obtain ⟨last, rfl⟩ := Runner.mark_eq_some hmark
        split
        · exact hp context x.candidate (_, bench.2)
        · exact hp context x.candidate (_, bench.2)

end Probe

namespace Session

variable {ε : Type}

/-! ## Recording -/

theorem showBest_eq (s : Session) : ∃ trace, s.showBest = { s with trace } := by
  unfold showBest
  split <;> exact ⟨_, rfl⟩

theorem record_scored (s : Session) (x : Individual) (fitness : Float) (cached : Bool)
    (time : Instant) : ∃ trace, s.record x (.scored fitness cached) time =
      { s with
        evaluations := s.evaluations + 1, cached := if cached then s.cached + 1 else s.cached
        population := (s.population.append x fitness).getD s.population, trace } :=
  showBest_eq _

theorem record_failed (s : Session) (x : Individual) (error : MeasureError) (time : Instant) :
    ∃ trace, s.record x (.failed error) time =
      { s with evaluations := s.evaluations + 1, failures := s.failures + 1, trace } :=
  showBest_eq _

/-- The accounts agree: the population is one that a search can have, every evaluation is a failure
or a recorded individual, and no more individuals were remembered than recorded. -/
structure Balanced (space : Space) (rate : Float) (mode : Mode) (pool : List Individual)
    (s : Session) : Prop where
  search : Population.Search space rate mode s.population pool
  recorded : s.failures + s.population.size = s.evaluations
  cached_le : s.cached ≤ s.population.size

variable {space : Space} {rate : Float} {mode : Mode} {pool : List Individual} {s : Session}

theorem size_append {p p' : Population} {x : Individual} {fitness : Float}
    (h : p.append x fitness = some p') : p'.size = p.size + 1 := by
  obtain ⟨-, rfl⟩ := Population.append_eq_some h
  exact (Ranking.insert_perm _ _ _).length_eq

theorem exists_append {p : Population} {x : Individual} (h : p.records x = false)
    (fitness : Float) : ∃ p', p.append x fitness = some p' :=
  ⟨_, if_neg (Bool.eq_false_iff.mp h)⟩

/-- Recording a new individual keeps the accounts, and the individuals after it stay new. -/
theorem Balanced.record {Q : Individual → Prop} {x : Individual} {batch : List Individual}
    (h : s.Balanced space rate mode pool) (hx : x ∈ pool)
    (hnew : s.population.NewBatch Q (x :: batch)) (outcome : Outcome) (time : Instant) :
    (s.record x outcome time).Balanced space rate mode pool ∧
      (s.record x outcome time).population.NewBatch Q batch ∧
      (s.record x outcome time).evaluations = s.evaluations + 1 ∧
      (s.record x outcome time).rounds = s.rounds ∧
      (s.record x outcome time).source = s.source := by
  cases outcome with
  | scored fitness cached =>
      obtain ⟨trace, hrecord⟩ := s.record_scored x fitness cached time
      obtain ⟨p', happend⟩ := exists_append (hnew.unrecorded x (by simp)) fitness
      have hsize := size_append happend
      have hrecorded := h.recorded
      have hcached := h.cached_le
      rw [happend, Option.getD_some] at hrecord
      rw [hrecord]
      refine ⟨⟨h.search.append hx happend, ?_, ?_⟩, hnew.append happend, rfl, rfl, rfl⟩
      · dsimp only
        omega
      · dsimp only
        split <;> omega
  | failed error =>
      obtain ⟨trace, hrecord⟩ := s.record_failed x error time
      have hrecorded := h.recorded
      rw [hrecord]
      refine ⟨⟨h.search, ?_, h.cached_le⟩, hnew.tail, rfl, rfl, rfl⟩
      dsimp only
      omega

/-- Recording a new batch without a store succeeds and counts every individual. -/
theorem Balanced.recordBatch {Q : Individual → Prop} {measured : List (Individual × Outcome)}
    (h : s.Balanced space rate mode pool) (hpool : ∀ x ∈ measured.map (·.1), x ∈ pool)
    (hnew : s.population.NewBatch Q (measured.map (·.1))) (r : Runner) :
    ∃ s' r', recordBatch false measured s r = (.ok s', s', r') ∧
      s'.Balanced space rate mode pool ∧ s'.evaluations = s.evaluations + measured.length ∧
      s'.rounds = s.rounds ∧ r'.store = r.store := by
  induction measured generalizing s r with
  | nil => exact ⟨s, r, rfl, h, rfl, rfl, rfl⟩
  | cons xo measured ih =>
      obtain ⟨x, outcome⟩ := xo
      obtain ⟨hbalanced, hrest, hevaluations, hrounds, -⟩ :=
        h.record (hpool x (by simp)) hnew outcome r.now
      obtain ⟨s', r', hrecord, hbalanced', hevaluations', hrounds', hstore⟩ :=
        ih hbalanced (fun y hy => hpool y (by simp [hy])) hrest r.tick.2
      refine ⟨s', r', hrecord, hbalanced', ?_, hrounds'.trans hrounds, hstore⟩
      rw [hevaluations', hevaluations, List.length_cons]
      omega

/-! ## Measuring -/

/-- Without an interruption every individual of a batch is measured. -/
theorem measureBatch_never {p : Probe ε} (hp : p.KeepsStore) (limit : Duration) (task : Nat)
    (xs : List Individual) (bench : Runner × ε) :
    ∃ (outcomes : List Outcome) (bench' : Runner × ε),
      measureBatch p limit .never task xs bench = (outcomes.map some, bench') ∧
      outcomes.length = xs.length ∧ bench'.1.store = bench.1.store := by
  induction xs generalizing task bench with
  | nil => exact ⟨[], bench, rfl, rfl, rfl⟩
  | cons x xs ih =>
      have hstore := Probe.store_measure hp (.within none limit) x bench
      obtain ⟨outcomes, bench', hmeasure, hlength, hstore'⟩ :=
        ih (task + 1) (p.measure (.within none limit) x bench).2
      refine ⟨(p.measure (.within none limit) x bench).1 :: outcomes, bench', ?_,
        congrArg (· + 1) hlength, hstore'.trans hstore⟩
      rw [measureBatch]
      dsimp only [Interrupt.atStart, Interrupt.atMeasurement]
      rw [hmeasure]
      rfl

theorem measured_eq_zip (xs : List Individual) (outcomes : List Outcome) :
    (xs.zip (outcomes.map some)).filterMap (fun (x, outcome) => outcome.map (x, ·)) =
      xs.zip outcomes := by
  induction xs generalizing outcomes with
  | nil => rfl
  | cons x xs ih =>
      cases outcomes with
      | nil => rfl
      | cons outcome outcomes => simpa using ih outcomes

/-! ## Rounds -/

/-- The accounts of a session with batches of a given size between two rounds. -/
structure InOrder (space : Space) (rate : Float) (mode : Mode) (size : Nat) (s : Session) : Prop where
  balanced : ∃ pool, s.Balanced space rate mode pool
  evaluations_eq : s.evaluations = s.rounds * size

/-- A call that breeds a batch returns: the source does not run dry, and a batch can be that large. -/
def Returns (config : Config) (s : Session) : Prop :=
  ∃ result source, s.population.offspring config.parents config.offspring s.source =
    some (result, source) ∧ ∀ n, result ≠ .error (.tooMany n)

/-- Closing a round counts it, shows progress and follows the convergence; the session ends here only if
it has converged. -/
theorem closeRound_turn (c : Convergence Float) (mode : Mode) (s : Session) :
    ∃ tracker progress converged,
      closeRound c mode s = .goOn { s with rounds := s.rounds + 1, tracker, progress, converged } ∨
      closeRound c mode s = .stop { s with rounds := s.rounds + 1, tracker, progress, converged } ∧
        converged = true := by
  unfold closeRound
  dsimp only
  split
  · exact ⟨_, _, _, .inl rfl⟩
  · split
    · next hconverged => exact ⟨_, _, _, .inr ⟨rfl, hconverged⟩⟩
    · exact ⟨_, _, _, .inl rfl⟩

/-- The accounts stay as they are. -/
theorem closeRound_eq (c : Convergence Float) (mode : Mode) (s : Session) :
    ∃ s', (closeRound c mode s = .goOn s' ∨ closeRound c mode s = .stop s' ∧ s'.converged = true) ∧
      s'.rounds = s.rounds + 1 ∧ s'.population = s.population ∧ s'.evaluations = s.evaluations ∧
      s'.failures = s.failures ∧ s'.cached = s.cached ∧ s'.trace = s.trace := by
  obtain ⟨tracker, progress, converged, hturn⟩ := closeRound_turn c mode s
  exact ⟨_, hturn, rfl, rfl, rfl, rfl, rfl, rfl⟩

theorem eq_of_closeRound {c : Convergence Float} {s' : Session}
    (h : closeRound c mode s = .goOn s' ∨ closeRound c mode s = .stop s') :
    ∃ tracker progress converged,
      s' = { s with rounds := s.rounds + 1, tracker, progress, converged } := by
  obtain ⟨tracker, progress, converged, hturn⟩ := closeRound_turn c mode s
  refine ⟨tracker, progress, converged, ?_⟩
  rcases hturn with hturn | ⟨hturn, -⟩ <;> rcases h with h | h
  · exact Turn.goOn.inj (h.symm.trans hturn)
  · cases h.symm.trans hturn
  · cases h.symm.trans hturn
  · exact Turn.stop.inj (h.symm.trans hturn)

/-- A batch that is bred comes to hand, and its children are new. -/
theorem Balanced.offspring (h : s.Balanced space rate mode pool) {parents children : Int64}
    {batch : List Individual} {population : Population} {source : Source}
    (hbred : s.population.offspring parents children s.source = some (.ok (batch, population), source)) :
    { s with population, source }.Balanced space rate mode (batch ++ pool) ∧
      population.NewBatch (Individual.Matches (fun _ _ => True) space) batch ∧
      batch.length = children.toInt.toNat := by
  obtain ⟨-, hbreed⟩ := Population.offspring_eq_ok hbred
  obtain ⟨hnew, hlength⟩ :=
    Population.breed_new space.law_true (h.search.fitting space.law_true).1 hbreed
  have hsearch := h.search.offspring hbred
  obtain ⟨n, rfl⟩ := Population.breed_population hbreed
  exact ⟨⟨hsearch, h.recorded, h.cached_le⟩, ⟨hnew.all, hnew.unrecorded, hnew.distinct⟩, hlength⟩

/-- What a round leads to when the accounts are in order: another round, or the end because the
session has converged or the space is exhausted. -/
theorem InOrder.playRound {p : Probe ε} (hp : p.KeepsStore) {config : Config}
    (hconfig : config.validate = .ok ()) {bench : Runner × ε} (hstore : bench.1.store = none)
    (h : s.InOrder space rate mode config.offspring.toInt.toNat) (hreturns : s.Returns config) :
    ∃ (s' : Session) (bench' : Runner × ε),
      s'.InOrder space rate mode config.offspring.toInt.toNat ∧ bench'.1.store = none ∧
      (playRound p config mode .never s bench = (.goOn s', bench') ∧ s'.rounds = s.rounds + 1 ∨
        playRound p config mode .never s bench = (.stop s', bench') ∧ s'.rounds ≤ s.rounds + 1 ∧
          (s'.converged = true ∨ s'.exhausted = true)) := by
  obtain ⟨-, hparents, hoffspring, -⟩ := Config.validate_eq_ok hconfig
  obtain ⟨⟨pool, hbalanced⟩, hevaluations⟩ := h
  obtain ⟨result, source, hbred, hfits⟩ := hreturns
  unfold Session.playRound
  rw [hbred]
  cases result with
  | error e =>
      have herror := Population.offspring_eq_error hparents hoffspring
        (fun bound hbound => hbalanced.search.make_ne_error hbound) hbred
      rcases herror with rfl | rfl
      · exact ⟨{ s with exhausted := true, source }, bench,
          ⟨⟨pool, hbalanced.search, hbalanced.recorded, hbalanced.cached_le⟩, hevaluations⟩,
          hstore, .inr ⟨rfl, Nat.le_succ _, .inr rfl⟩⟩
      · exact absurd rfl (hfits _)
  | ok bred =>
      obtain ⟨children, population⟩ := bred
      obtain ⟨hbalanced', hnew, hlength⟩ := hbalanced.offspring hbred
      obtain ⟨outcomes, ⟨r, e⟩, hmeasure, houtcomes, hstore'⟩ :=
        measureBatch_never hp config.evalTimeout s.evaluations children bench
      have hfirst : (children.zip outcomes).map (·.1) = children :=
        List.map_fst_zip (Nat.le_of_eq houtcomes.symm)
      obtain ⟨s₁, r', hrecord, hbalanced₁, hevaluations₁, hrounds₁, hstore₁⟩ :=
        hbalanced'.recordBatch (fun x hx => List.mem_append_left pool (hfirst ▸ hx))
          (hfirst.symm ▸ hnew) r
      obtain ⟨s', hclose, hrounds, hpopulation, hevaluations', hfailures, hcached, -⟩ :=
        closeRound_eq (convergence config) mode s₁
      have hstored : r.store.isSome = false := by rw [hstore', hstore]; rfl
      refine ⟨s', (r', e), ⟨⟨children ++ pool, ?_, ?_, ?_⟩, ?_⟩, ?_, ?_⟩
      · exact hpopulation ▸ hbalanced₁.search
      · rw [hfailures, hpopulation, hevaluations', hbalanced₁.recorded]
      · rw [hcached, hpopulation]
        exact hbalanced₁.cached_le
      · rw [hevaluations', hevaluations₁, hrounds, hrounds₁, List.length_zip, houtcomes, hlength]
        dsimp only
        rw [hevaluations, Nat.min_self, Nat.succ_mul]
      · rw [hstore₁, hstore', hstore]
      · simp only [hmeasure, interruption?, Interrupt.atMeasurement, measured_eq_zip, hstored, hrecord]
        have hround : s'.rounds = s.rounds + 1 := hrounds.trans (congrArg (· + 1) hrounds₁)
        rcases hclose with hclose | ⟨hclose, hconverged⟩
        · exact .inl ⟨by rw [hclose], hround⟩
        · exact .inr ⟨by rw [hclose], Nat.le_of_eq hround, .inl hconverged⟩

/-- Every batch that is asked for in so many rounds comes. -/
def Breeds (p : Probe ε) (config : Config) (mode : Mode) :
    (rounds : Nat) → Session → Runner × ε → Prop
  | 0, _, _ => True
  | rounds + 1, s, bench => s.Returns config ∧
    match playRound p config mode .never s bench with
    | (.goOn s, bench) => Breeds p config mode rounds s bench
    | _ => True

theorem eq_of_play_zero {p : Probe ε} {config : Config} {mode : Mode} {i : Interrupt} {s s' : Session}
    {bench bench' : Runner × ε} {outcome : Except SessionError Unit}
    (h : play p config mode i 0 s bench = (outcome, s', bench')) :
    .ok () = outcome ∧ s = s' ∧ bench = bench' := by
  obtain ⟨houtcome, hrest⟩ := Prod.mk.inj h
  exact ⟨houtcome, Prod.mk.inj hrest⟩

theorem play_succ (p : Probe ε) (config : Config) (mode : Mode) (i : Interrupt) (rounds : Nat)
    (s : Session) (bench : Runner × ε) :
    play p config mode i (rounds + 1) s bench =
      match playRound p config mode i s bench with
      | (.goOn s, bench) => play p config mode i rounds s bench
      | (.stop s, bench) => (.ok (), s, bench)
      | (.fail error s, bench) => (.error error, s, bench) := rfl

theorem start_inOrder {population : Population} {source src : Source}
    (h : Population.make space rate mode src = some (.ok population, source)) (size : Nat) :
    InOrder space rate mode size { population, source } := by
  have hsize : population.size = 0 := by
    obtain ⟨-, -, -, -, hp⟩ := Population.make_eq_ok h
    rw [hp]
    rfl
  exact ⟨⟨[], .start h, (Nat.zero_add _).trans hsize, Nat.zero_le _⟩, (Nat.zero_mul size).symm⟩

/-- The rounds of a session keep its accounts in order, and it ends before the last round only if it
has converged or the space is exhausted. -/
theorem InOrder.play {p : Probe ε} (hp : p.KeepsStore) {config : Config}
    (hconfig : config.validate = .ok ()) {rounds : Nat} {bench : Runner × ε}
    (hstore : bench.1.store = none)
    (h : s.InOrder space rate mode config.offspring.toInt.toNat)
    (hbreeds : Breeds p config mode rounds s bench) :
    ∃ (s' : Session) (bench' : Runner × ε), play p config mode .never rounds s bench = (.ok (), s', bench') ∧
      s'.InOrder space rate mode config.offspring.toInt.toNat ∧ bench'.1.store = none ∧
      s'.rounds ≤ s.rounds + rounds ∧
      (s'.rounds < s.rounds + rounds → s'.converged = true ∨ s'.exhausted = true) := by
  induction rounds generalizing s bench with
  | zero => exact ⟨s, bench, rfl, h, hstore, Nat.le_refl _, fun hlt => absurd hlt (Nat.lt_irrefl _)⟩
  | succ rounds ih =>
      obtain ⟨hreturns, hrest⟩ := hbreeds
      obtain ⟨s₁, bench₁, h₁, hstore₁, ⟨hround, hrounds⟩ | ⟨hround, hrounds, hended⟩⟩ :=
        h.playRound hp hconfig hstore hreturns
      · rw [hround] at hrest
        obtain ⟨s', bench', hplay, h', hstore', hle, hended⟩ := ih hstore₁ h₁ hrest
        refine ⟨s', bench', ?_, h', hstore', by omega, fun hlt => hended (by omega)⟩
        rw [play_succ, hround]
        exact hplay
      · refine ⟨s₁, bench₁, ?_, h₁, hstore₁, by omega, fun _ => hended⟩
        rw [play_succ, hround]

end Session

/-! ## Whole sessions -/

/-- A session that starts has a valid configuration and a new population. -/
theorem Session.start_eq_ok {space : Space} {config : Config} {s : Session} {mode : Mode}
    (h : Session.start space config = .ok (s, mode)) :
    config.validate = .ok () ∧ Mode.ofName config.mode = .ok mode ∧ ∃ population source,
      Population.make space config.mutateRate mode (.ofSeed config.seed) =
        some (.ok population, source) ∧
      s = { population, source } := by
  unfold Session.start at h
  split at h
  · cases h
  · cases h
  · next hvalid hmode =>
      split at h
      · cases h
      · cases h
      · next population source hmake =>
          obtain ⟨rfl, rfl⟩ := Prod.mk.inj (Except.ok.inj h)
          exact ⟨hvalid, hmode, population, source, hmake, rfl⟩

theorem Stats.count_of (xs : List Float) : (Stats.of xs).count = Int64.ofNat xs.length := by
  unfold Stats.of
  split
  · next hempty =>
      rw [List.isEmpty_iff.mp hempty]
      rfl
  · rfl

/-- The counters of a report are those of the session as long as they fit into machine integers. -/
theorem Session.InOrder.report {space : Space} {rate : Float} {mode : Mode} {size : Nat} {s : Session}
    (h : s.InOrder space rate mode size) (hsize : 1 ≤ size) (hfits : s.rounds * size < 2 ^ 63)
    (id : String) (config : Config) (startedAt finishedAt : Instant) :
    (s.report id config startedAt finishedAt).rounds.toInt = s.rounds ∧
      (s.report id config startedAt finishedAt).evaluations.toInt = s.evaluations ∧
      (s.report id config startedAt finishedAt).failures.toInt = s.failures ∧
      (s.report id config startedAt finishedAt).stats.count.toInt = s.population.size := by
  obtain ⟨⟨pool, hbalanced⟩, hevaluations⟩ := h
  have hrecorded := hbalanced.recorded
  have hrounds : s.rounds ≤ s.rounds * size := Nat.le_mul_of_pos_right _ hsize
  refine ⟨Int64.toInt_ofNat_of_lt (by omega), Int64.toInt_ofNat_of_lt (by omega),
    Int64.toInt_ofNat_of_lt (by omega), ?_⟩
  have hcount : (s.report id config startedAt finishedAt).stats.count =
      Int64.ofNat s.population.size := by
    rw [Session.report, Stats.count_of]
    simp [Population.ranked, Population.size]
  rw [hcount, Int64.toInt_ofNat_of_lt (by omega)]

namespace Probe

variable {ε : Type}

/-- A session of a valid configuration in a space that a population can be made of, without a store
and never interrupted, when every batch comes: it ends well. Every evaluation belongs to a round, and
is a failure or a recorded individual; remembered measurements are among the recorded ones. There are
no more rounds than wanted, and fewer only after convergence or exhaustion. -/
theorem run_accounts (p : Probe ε) (hp : p.KeepsStore) {space : Space} {config : Config} {mode : Mode}
    {population : Population} {source : Source} (id : String) (bench : Runner × ε)
    (hconfig : config.validate = .ok ()) (hmode : Mode.ofName config.mode = .ok mode)
    (hspace : Population.make space config.mutateRate mode (.ofSeed config.seed) =
      some (.ok population, source))
    (hstore : bench.1.store = none)
    (hsize : config.rounds.toInt * config.offspring.toInt < 2 ^ 63)
    (hbreeds : Session.Breeds p config mode config.rounds.toInt.toNat { population, source }
      (bench.1.tick.2, bench.2)) :
    ∃ result progress bench', p.run space config id .never bench = (.ok result, progress, bench') ∧
      result.report.evaluations.toInt = result.report.rounds.toInt * config.offspring.toInt ∧
      result.report.evaluations.toInt - result.report.failures.toInt = result.population.size ∧
      result.report.stats.count.toInt = result.population.size ∧
      (result.cached : Int) ≤ result.report.evaluations.toInt - result.report.failures.toInt ∧
      result.report.rounds ≤ config.rounds ∧
      (result.report.rounds < config.rounds →
        result.report.converged = true ∨ result.exhausted = true) := by
  obtain ⟨hrounds, -, hoffspring, -⟩ := Config.validate_eq_ok hconfig
  have hrounds' : 1 ≤ config.rounds.toInt := Int64.le_iff_toInt_le.mp hrounds
  have hoffspring' : 1 ≤ config.offspring.toInt := Int64.le_iff_toInt_le.mp hoffspring
  have hstart : Session.start space config = .ok ({ population, source }, mode) := by
    simp only [Session.start, hconfig, hmode, hspace]
  have hstore₀ : bench.1.tick.2.store = none := hstore
  have hbench : (bench.1.tick.2, bench.2).1.store = none := hstore
  obtain ⟨s, ⟨r, e⟩, hplay, h, hstore', hle, hended⟩ :=
    (Session.start_inOrder hspace _).play hp hconfig hbench hbreeds
  obtain ⟨pool, hbalanced⟩ := h.balanced
  refine ⟨{ report := s.report id config bench.1.tick.1 r.tick.1, population := s.population
            cached := s.cached, exhausted := s.exhausted }, s.progress.reverse, (r.tick.2, e), ?_, ?_⟩
  · have hstore₁ : r.store = none := hstore'
    have hstore₂ : r.tick.2.store = none := hstore'
    unfold Probe.run
    simp only [hstart, Runner.startTrace, hstore₀, hplay, Runner.writeTrace, hstore₁,
      Runner.saveReport, hstore₂]
  · have hoffspring'' : (config.offspring.toInt.toNat : Int) = config.offspring.toInt :=
      Int.toNat_of_nonneg (by omega)
    have hrounds'' : (config.rounds.toInt.toNat : Int) = config.rounds.toInt :=
      Int.toNat_of_nonneg (by omega)
    dsimp only at hle hended ⊢
    rw [Nat.zero_add] at hle hended
    have hfits : s.rounds * config.offspring.toInt.toNat < 2 ^ 63 := by
      refine Nat.lt_of_le_of_lt (Nat.mul_le_mul_right _ hle) ?_
      rw [← hrounds'', ← hoffspring''] at hsize
      exact_mod_cast hsize
    obtain ⟨hrounds₁, hevaluations₁, hfailures₁, hcount₁⟩ :=
      h.report (by omega) hfits id config bench.1.tick.1 r.tick.1
    have hrecorded := hbalanced.recorded
    have hcached := hbalanced.cached_le
    refine ⟨?_, ?_, hcount₁, ?_, ?_, ?_⟩
    · rw [hevaluations₁, hrounds₁, h.evaluations_eq, ← hoffspring'']
      exact Int.natCast_mul _ _
    · rw [hevaluations₁, hfailures₁]
      omega
    · rw [hevaluations₁, hfailures₁]
      omega
    · rw [Int64.le_iff_toInt_le, hrounds₁]
      omega
    · rw [Int64.lt_iff_toInt_lt, hrounds₁]
      intro hlt
      exact hended (by omega)

/-- Both sides of a coin, to start with. -/
def seededCoin : Space :=
  ⟨[{ name := "side", domain := .choice [.text "heads", .text "tails"],
      seeds := [.text "heads", .text "tails"] }]⟩

/-- One round with a batch of two. -/
def oneRound : Config :=
  { Config.standard with rounds := 1, parents := 1, offspring := 2 }

/-- A measurement that gives the same fitness to everything. -/
def flat : Probe Unit :=
  (Objective.checked "flat" "flat" fun _ => .ok 1).probe

theorem breeds_oneRound : ∃ population source,
    Population.make seededCoin oneRound.mutateRate .maximize (.ofSeed oneRound.seed) =
      some (.ok population, source) ∧
    Session.Breeds flat oneRound .maximize 1 { population, source } (({} : Runner).tick.2, ()) := by
  refine ⟨_, _, rfl, ⟨_, _, rfl, nofun⟩, ?_⟩
  split <;> trivial

theorem run_accounts_oneRound : oneRound.validate = .ok () ∧ ∃ result progress bench',
    flat.run seededCoin oneRound "" .never ({}, ()) = (.ok result, progress, bench') ∧
      result.report.evaluations.toInt = result.report.rounds.toInt * 2 ∧
      result.report.evaluations.toInt - result.report.failures.toInt = result.population.size ∧
      result.report.rounds ≤ 1 := by
  have hvalid : oneRound.validate = .ok () := rfl
  obtain ⟨population, source, hspace, hbreeds⟩ := breeds_oneRound
  obtain ⟨result, progress, bench', hrun, hevaluations, hrecorded, -, -, hrounds, -⟩ :=
    run_accounts flat (fun _ _ _ => rfl) "" ({}, ()) hvalid rfl hspace rfl (by decide) hbreeds
  exact ⟨hvalid, result, progress, bench', hrun, hevaluations, hrecorded, hrounds⟩

end Probe

end Tuning
