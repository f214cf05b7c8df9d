import Tuning.Proofs.Session.Accounting
import Tuning.Proofs.Session.ScopedKey

/-! # Remembered measurements

What a runner remembers is what a measurement would give, so a session on a runner with a past and a
session on a new one come to the same. -/

namespace Tuning

/-- The fitness of candidates under the identities of objectives, where there is one. -/
abbrev Scores := String → Candidate → Option Float

/-- Only finite numbers are measured. -/
def Scores.finite? (scores : Scores) (identity : String) (c : Candidate) : Option Float :=
  (scores identity c).filter fun fitness => !(fitness.isNaN || fitness.isInf)

theorem judge_toOption (name : String) (result : Except Failure Float) :
    (judge name result).toOption =
      result.toOption.filter fun fitness => !(fitness.isNaN || fitness.isInf) := by
  cases result with
  | error failure => rfl
  | ok fitness =>
      cases hodd : fitness.isNaN || fitness.isInf with
      | true => simp only [judge, Except.toOption, Option.filter, hodd, Bool.not_true, ↓reduceIte,
          Bool.false_eq_true]
      | false => simp only [judge, Except.toOption, Option.filter, hodd, Bool.not_false, ↓reduceIte,
          Bool.false_eq_true]

theorem judge_eq_ok {name : String} {result : Except Failure Float} {fitness : Float}
    (h : judge name result = .ok fitness) :
    result = .ok fitness ∧ (fitness.isNaN || fitness.isInf) = false := by
  cases result with
  | error failure => cases h
  | ok number =>
      unfold judge at h
      dsimp only at h
      split at h
      · cases h
      · next hfinite =>
          obtain rfl := Except.ok.inj h
          exact ⟨rfl, Bool.eq_false_iff.mpr hfinite⟩

namespace Runner

variable {scores : Scores} {r r' r'' : Runner}

/-- There is no store, and whatever is remembered was measured. -/
structure Faithful (scores : Scores) (r : Runner) : Prop where
  store_eq : r.store = none
  memo : ∀ key x, r.memo.get? key = some x → ∃ identity c, Candidate.IsExact c ∧
    key = scopedKey identity c.key ∧ scores.finite? identity c = some x.value

theorem faithful_new (now : Instant) : ({ now } : Runner).Faithful scores where
  store_eq := rfl
  memo key x h := by simp at h

/-- A use that leaves the runner faithful and marks nothing more. -/
def Keeps (scores : Scores) (r r' : Runner) : Prop :=
  r.Faithful scores → r'.Faithful scores ∧ r'.inFlight ⊆ r.inFlight

theorem Keeps.refl (r : Runner) : r.Keeps scores r := fun h =>
  ⟨h, List.Subset.refl _⟩

theorem Keeps.trans (h : r.Keeps scores r') (h' : r'.Keeps scores r'') : r.Keeps scores r'' := by
  intro hr
  obtain ⟨hr', hmarks⟩ := h hr
  obtain ⟨hr'', hmarks'⟩ := h' hr'
  exact ⟨hr'', List.Subset.trans hmarks' hmarks⟩

theorem keeps_wait (r : Runner) (now : Instant) : r.Keeps scores { r with now } := fun h =>
  ⟨⟨h.store_eq, h.memo⟩, List.Subset.refl _⟩

/-- A faithful runner on which nothing is being measured. -/
structure Idle (scores : Scores) (r : Runner) : Prop where
  faithful : r.Faithful scores
  free : r.inFlight = []

theorem Keeps.idle (h : r.Keeps scores r') (hr : r.Idle scores) : r'.Idle scores := by
  obtain ⟨hr', hmarks⟩ := h hr.faithful
  rw [hr.free, List.subset_nil] at hmarks
  exact ⟨hr', hmarks⟩

/-- The remembered fitness of a candidate is the measured one. -/
theorem Faithful.lookup_eq_some (hr : r.Faithful scores) {identity : String} {c : Candidate}
    (hc : c.IsExact) {fitness : Float} (h : r.lookup (scopedKey identity c.key) = some fitness) :
    scores.finite? identity c = some fitness := by
  obtain ⟨x, hx, hcurrent⟩ := Option.bind_eq_some_iff.mp h
  obtain ⟨identity', d, hd, hkey, hscore⟩ := hr.memo _ x hx
  obtain ⟨rfl, rfl⟩ := eq_of_scopedKey_eq hc hd hkey
  unfold Lasting.current? at hcurrent
  split at hcurrent
  · cases hcurrent
  · rw [hscore, hcurrent]

theorem memo_remember (r : Runner) (key other : String) (fitness : Float) :
    (r.remember key fitness).memo.get? other =
      if key = other then some ⟨fitness, r.now.later memoTime⟩ else r.memo.get? other := by
  simp [remember, Std.TreeMap.getElem?_insert]

theorem Faithful.remember (hr : r.Faithful scores) {identity : String} {c : Candidate}
    (hc : c.IsExact) {fitness : Float} (h : scores.finite? identity c = some fitness) :
    (r.remember (scopedKey identity c.key) fitness).Faithful scores where
  store_eq := hr.store_eq
  memo key x hx := by
    rw [memo_remember] at hx
    split at hx
    · next hkey =>
        obtain rfl := Option.some.inj hx
        exact ⟨identity, c, hc, hkey.symm, h⟩
    · exact hr.memo key x hx

/-- A key that is marked and released leaves no mark. -/
theorem release_subset {key : String} {last : Instant}
    (h : r'.inFlight ⊆ (key, last) :: (r.release key).inFlight) :
    (r'.release key).inFlight ⊆ r.inFlight := by
  intro mark hmark
  obtain ⟨hmem, hkey⟩ := List.mem_filter.mp hmark
  rcases List.mem_cons.mp (h hmem) with rfl | hmem
  · simp at hkey
  · exact (List.mem_filter.mp hmem).1

end Runner

/-! ## One measurement -/

namespace Probe

variable {ε : Type} {scores : Scores} {p : Probe ε} {x : Individual} {bench : Runner × ε}

/-- An evaluation gives no other fitness than that of the candidate; it may fail. -/
def Sound (scores : Scores) (p : Probe ε) : Prop :=
  ∀ context c s fitness, (p.evaluate context c s).1 = .ok fitness →
    scores p.identity c = some fitness

/-- Under a context an evaluation gives the fitness of the candidate, and fails only without one. -/
def Exact (scores : Scores) (context : Context) (p : Probe ε) : Prop :=
  ∀ c s, (p.evaluate context c s).1.toOption = scores p.identity c

/-- Evaluations leave runners faithful. -/
def Keeps (scores : Scores) (p : Probe ε) : Prop :=
  ∀ context c s, Runner.Keeps scores s.1 (p.evaluate context c s).2.1

theorem measure_keeps (hsound : p.Sound scores) (hp : p.Keeps scores)
    (hx : x.candidate.IsExact) (context : Context) (bench : Runner × ε) :
    bench.1.Keeps scores (p.measure context x bench).2.1 := by
  intro hr
  unfold measure
  dsimp only
  split
  · exact Runner.Keeps.refl _ hr
  · split
    · exact Runner.Keeps.refl _ hr
    · next marked hmark =>
        obtain ⟨last, hmarked⟩ := Runner.mark_eq_some hmark
        have hfaithful : marked.Faithful scores := by
          rw [hmarked]
          exact ⟨hr.store_eq, hr.memo⟩
        have hinFlight : marked.inFlight = _ := congrArg Runner.inFlight hmarked
        obtain ⟨hr', hmarks⟩ := hp context x.candidate (marked, bench.2) hfaithful
        have hreleased := Runner.release_subset (hinFlight ▸ hmarks)
        split
        · next fitness hjudge =>
            obtain ⟨hresult, hfinite⟩ := judge_eq_ok hjudge
            have hscore := hsound context x.candidate (marked, bench.2) fitness hresult
            have hremember := hr'.remember hx
              (Option.filter_eq_some_iff.mpr ⟨hscore, by rw [hfinite, Bool.not_false]⟩)
            exact ⟨⟨hremember.store_eq, hremember.memo⟩, hreleased⟩
        · exact ⟨⟨hr'.store_eq, hr'.memo⟩, hreleased⟩

/-- A measurement gives the fitness of the candidate, remembered or not. -/
theorem fitness?_measure {context : Context} (hexact : p.Exact scores context)
    (hx : x.candidate.IsExact) (hr : bench.1.Idle scores) :
    (p.measure context x bench).1.fitness? = scores.finite? p.identity x.candidate := by
  unfold measure
  dsimp only
  split
  · next fitness hlookup => exact (hr.faithful.lookup_eq_some hx hlookup).symm
  · split
    · next hmark => simp [Runner.mark, Runner.isMarked, hr.free] at hmark
    · next marked _ =>
        have hresult := judge_toOption p.name (p.evaluate context x.candidate (marked, bench.2)).1
        rw [hexact] at hresult
        rw [Scores.finite?, ← hresult]
        split
        · next hjudge => rw [hjudge]; rfl
        · next hjudge => rw [hjudge]; rfl

end Probe

/-! ## Rounds -/

namespace Session

variable {ε : Type} {scores : Scores} {p : Probe ε} {space : Space} {rate : Float} {mode : Mode}
  {s t : Session} {bench bench' : Runner × ε}

/-- Everything in the population is of the space. -/
abbrev Suits (space : Space) (rate : Float) (s : Session) : Prop :=
  s.population.Fitting (fun q g => q.domain.Suits g) space rate

theorem measureBatch_keeps (hsound : p.Sound scores) (hp : p.Keeps scores) (limit : Duration)
    (i : Interrupt) (task : Nat) {xs : List Individual} (hxs : ∀ x ∈ xs, x.candidate.IsExact)
    (bench : Runner × ε) :
    bench.1.Keeps scores (measureBatch p limit i task xs bench).2.1 := by
  induction xs generalizing task bench with
  | nil => exact .refl _
  | cons x xs ih =>
      have hrest := fun y hy => hxs y (List.mem_cons_of_mem x hy)
      rw [measureBatch]
      split
      · exact ih (task + 1) hrest bench
      · exact (p.measure_keeps hsound hp (hxs x List.mem_cons_self) _ bench).trans
          (ih (task + 1) hrest _)

theorem Suits.record {x : Individual} (h : s.Suits space rate) (hx : x.Suits space)
    (outcome : Outcome) (time : Instant) : (s.record x outcome time).Suits space rate := by
  cases outcome with
  | scored fitness cached =>
      obtain ⟨trace, hrecord⟩ := s.record_scored x fitness cached time
      rw [hrecord]
      cases happend : s.population.append x fitness with
      | none => exact h
      | some population => exact h.append hx happend
  | failed error =>
      obtain ⟨trace, hrecord⟩ := s.record_failed x error time
      rw [hrecord]
      exact h

/-- Recording takes time and nothing else from the runner. -/
theorem Suits.recordBatch {measured : List (Individual × Outcome)} (h : s.Suits space rate)
    (hmeasured : ∀ x ∈ measured.map (·.1), x.Suits space) (stored : Bool) (r : Runner) :
    (∀ s', (recordBatch stored measured s r).1 = .ok s' → s'.Suits space rate) ∧
      r.Keeps scores (recordBatch stored measured s r).2.2 := by
  induction measured generalizing s r with
  | nil =>
      refine ⟨fun s' hs' => ?_, .refl _⟩
      obtain rfl := Except.ok.inj hs'
      exact h
  | cons xo measured ih =>
      obtain ⟨x, outcome⟩ := xo
      have hnext := h.record (hmeasured x (by simp)) outcome r.now
      obtain ⟨hs', hr'⟩ := ih hnext (fun y hy => hmeasured y (by simp [hy])) r.tick.2
      have hwait : r.Keeps scores r.tick.2 := r.keeps_wait _
      unfold Session.recordBatch
      dsimp only
      split
      · exact ⟨nofun, hwait⟩
      · exact ⟨hs', hwait.trans hr'⟩

/-- A batch of a suiting population suits. -/
theorem Suits.offspring (h : s.Suits space rate) {parents children : Int64} {batch : List Individual}
    {population : Population} {source : Source}
    (hbred : s.population.offspring parents children s.source = some (.ok (batch, population), source)) :
    { s with population, source }.Suits space rate ∧ ∀ x ∈ batch, x.Suits space := by
  obtain ⟨-, hbreed⟩ := Population.offspring_eq_ok hbred
  exact ⟨h.breed hbreed, (Population.breed_new space.law_suits h hbreed).1.all⟩

theorem closeRound_suits (h : s.Suits space rate) {c : Convergence Float}
    (hturn : closeRound c mode s = .goOn t) : t.Suits space rate := by
  obtain ⟨s', hclose | ⟨hclose, -⟩, -, hpopulation, -⟩ := closeRound_eq c mode s
  · obtain rfl : s' = t := Turn.goOn.inj (hclose.symm.trans hturn)
    rw [Suits, hpopulation]
    exact h
  · cases hclose.symm.trans hturn

theorem Suits.playRound (hspace : space.IsExact) (hsound : p.Sound scores)
    (hp : p.Keeps scores) (h : s.Suits space rate) (config : Config) (mode : Mode) (i : Interrupt)
    (bench : Runner × ε) :
    bench.1.Keeps scores (playRound p config mode i s bench).2.1 ∧
      ∀ s', (playRound p config mode i s bench).1 = .goOn s' → s'.Suits space rate := by
  unfold Session.playRound
  split
  · exact ⟨.refl _, nofun⟩
  · exact ⟨.refl _, nofun⟩
  · exact ⟨.refl _, nofun⟩
  · next batch population source hbred =>
      obtain ⟨hsuits, hbatch⟩ := h.offspring hbred
      have hmeasure := measureBatch_keeps hsound hp config.evalTimeout i s.evaluations
        (fun x hx => (hbatch x hx).isExact hspace) bench
      dsimp only
      generalize measureBatch p config.evalTimeout i s.evaluations batch bench = result at hmeasure ⊢
      obtain ⟨outcomes, r, e⟩ := result
      dsimp only at hmeasure ⊢
      split
      · exact ⟨hmeasure, nofun⟩
      · have hmeasured : ∀ x ∈ ((batch.zip outcomes).filterMap fun tried =>
            tried.2.map (tried.1, ·)).map (·.1), x.Suits space := by
          intro x hx
          obtain ⟨⟨y, o⟩, hy, rfl⟩ := List.mem_map.mp hx
          obtain ⟨⟨z, outcome⟩, hz, hmap⟩ := List.mem_filterMap.mp hy
          obtain ⟨o', -, heq⟩ := Option.map_eq_some_iff.mp hmap
          obtain ⟨rfl, -⟩ := Prod.mk.inj heq
          exact hbatch z (List.of_mem_zip hz).1
        obtain ⟨hrecorded, hr⟩ := hsuits.recordBatch hmeasured r.store.isSome r
        split
        · next hrecord =>
            rw [hrecord] at hr
            exact ⟨hmeasure.trans hr, nofun⟩
        · next hrecord =>
            rw [hrecord] at hr hrecorded
            exact ⟨hmeasure.trans hr, fun s' => closeRound_suits (hrecorded _ rfl)⟩

theorem Suits.play (hspace : space.IsExact) (hsound : p.Sound scores) (hp : p.Keeps scores)
    (h : s.Suits space rate) (config : Config) (mode : Mode) (i : Interrupt) (rounds : Nat)
    (bench : Runner × ε) :
    bench.1.Keeps scores (play p config mode i rounds s bench).2.2.1 := by
  induction rounds generalizing s bench with
  | zero => exact .refl _
  | succ rounds ih =>
      obtain ⟨hkeeps, hnext⟩ := h.playRound hspace hsound hp config mode i bench
      rw [play_succ]
      split
      · next s' bench' hround =>
          rw [hround] at hkeeps hnext
          exact hkeeps.trans (ih (hnext s' rfl) bench')
      · next hround => rw [hround] at hkeeps; exact hkeeps
      · next hround => rw [hround] at hkeeps; exact hkeeps

/-! ## Two sessions side by side -/

/-- The sessions differ at most in their traces and in what was remembered. -/
def Alike (s t : Session) : Prop :=
  ∃ cached trace, t = { s with cached, trace }

/-- The turns lead the same way. -/
inductive TurnAlike : Turn → Turn → Prop
  | goOn {s t : Session} (h : s.Alike t) : TurnAlike (.goOn s) (.goOn t)
  | stop {s t : Session} (h : s.Alike t) : TurnAlike (.stop s) (.stop t)
  | fail (error : SessionError) {s t : Session} (h : s.Alike t) :
      TurnAlike (.fail error s) (.fail error t)

theorem Alike.record {outcome outcome' : Outcome} (h : s.Alike t)
    (houtcome : outcome.fitness? = outcome'.fitness?) (x : Individual) (time time' : Instant) :
    (s.record x outcome time).Alike (t.record x outcome' time') := by
  obtain ⟨cached, trace, rfl⟩ := h
  cases outcome with
  | scored fitness remembered =>
      cases outcome' with
      | scored fitness' remembered' =>
          obtain rfl : fitness = fitness' := Option.some.inj houtcome
          obtain ⟨trace₁, hs⟩ := s.record_scored x fitness remembered time
          obtain ⟨trace₂, ht⟩ := { s with cached, trace }.record_scored x fitness remembered' time'
          rw [hs, ht]
          exact ⟨_, _, rfl⟩
      | failed error => cases houtcome
  | failed error =>
      cases outcome' with
      | scored fitness remembered => cases houtcome
      | failed error' =>
          obtain ⟨trace₁, hs⟩ := s.record_failed x error time
          obtain ⟨trace₂, ht⟩ := { s with cached, trace }.record_failed x error' time'
          rw [hs, ht]
          exact ⟨_, _, rfl⟩

theorem Alike.recordBatch {measured measured' : List (Individual × Outcome)} (h : s.Alike t)
    (hmeasured : List.Forall₂ (fun a b => a.1 = b.1 ∧ a.2.fitness? = b.2.fitness?) measured measured')
    (r r' : Runner) : ∃ s' t' q q',
      Session.recordBatch false measured s r = (.ok s', s', q) ∧
      Session.recordBatch false measured' t r' = (.ok t', t', q') ∧ s'.Alike t' := by
  induction hmeasured generalizing s t r r' with
  | nil => exact ⟨s, t, r, r', rfl, rfl, h⟩
  | @cons a b _ _ hab _ ih =>
      obtain ⟨x, outcome⟩ := a
      obtain ⟨y, outcome'⟩ := b
      obtain ⟨rfl, houtcome⟩ : x = y ∧ _ := hab
      exact ih (h.record houtcome x r.now r'.now) r.tick.2 r'.tick.2

theorem Alike.closeRound (h : s.Alike t) (c : Convergence Float) (mode : Mode) :
    TurnAlike (closeRound c mode s) (closeRound c mode t) := by
  obtain ⟨cached, trace, rfl⟩ := h
  unfold Session.closeRound
  dsimp only
  split
  · exact .goOn ⟨cached, trace, rfl⟩
  · split
    · exact .stop ⟨cached, trace, rfl⟩
    · exact .goOn ⟨cached, trace, rfl⟩

/-- Measuring a batch gives the fitness of every candidate. -/
theorem measureBatch_fitness {limit : Duration} (hexact : p.Exact scores (.within none limit))
    (hsound : p.Sound scores) (hp : p.Keeps scores) (task : Nat) {xs : List Individual}
    (hxs : ∀ x ∈ xs, x.candidate.IsExact) (hbench : bench.1.Idle scores) :
    ∃ outcomes : List Outcome, (measureBatch p limit .never task xs bench).1 = outcomes.map some ∧
      outcomes.map Outcome.fitness? = xs.map fun x => scores.finite? p.identity x.candidate := by
  induction xs generalizing task bench with
  | nil => exact ⟨[], rfl, rfl⟩
  | cons x xs ih =>
      have hx := hxs x List.mem_cons_self
      have hkeeps := p.measure_keeps hsound hp hx (.within none limit) bench
      obtain ⟨outcomes, hmeasure, hfitness⟩ :=
        ih (task + 1) (fun y hy => hxs y (List.mem_cons_of_mem x hy)) (hkeeps.idle hbench)
      refine ⟨(p.measure (.within none limit) x bench).1 :: outcomes, congrArg _ hmeasure, ?_⟩
      rw [List.map_cons, List.map_cons, hfitness, p.fitness?_measure hexact hx hbench]

theorem forall₂_zip {xs : List Individual} {outcomes outcomes' : List Outcome}
    (h : outcomes.map Outcome.fitness? = outcomes'.map Outcome.fitness?) :
    List.Forall₂ (fun a b => a.1 = b.1 ∧ a.2.fitness? = b.2.fitness?) (xs.zip outcomes)
      (xs.zip outcomes') := by
  induction xs generalizing outcomes outcomes' with
  | nil => exact .nil
  | cons x xs ih =>
      cases outcomes with
      | nil =>
          obtain rfl : outcomes' = [] := by simpa using h.symm
          exact .nil
      | cons outcome outcomes =>
          cases outcomes' with
          | nil => cases h
          | cons outcome' outcomes' =>
              obtain ⟨hfirst, hrest⟩ := List.cons.inj h
              exact .cons ⟨rfl, hfirst⟩ (ih hrest)

/-- A round leads the same way on every idle runner. -/
theorem Alike.playRound {config : Config} (hspace : space.IsExact)
    (hexact : p.Exact scores (.within none config.evalTimeout)) (hsound : p.Sound scores)
    (hp : p.Keeps scores) (hs : s.Suits space rate) (h : s.Alike t) (hbench : bench.1.Idle scores)
    (hbench' : bench'.1.Idle scores) (mode : Mode) :
    TurnAlike (playRound p config mode .never s bench).1
      (playRound p config mode .never t bench').1 := by
  obtain ⟨cached, trace, rfl⟩ := h
  unfold Session.playRound
  dsimp only
  split
  · exact .fail _ ⟨cached, trace, rfl⟩
  · exact .stop ⟨cached, trace, rfl⟩
  · exact .fail _ ⟨cached, trace, rfl⟩
  · next batch population source hbred =>
      obtain ⟨-, hbatch⟩ := hs.offspring hbred
      have hcandidates : ∀ x ∈ batch, x.candidate.IsExact := fun x hx =>
        (hbatch x hx).isExact hspace
      obtain ⟨outcomes, hmeasure, hfitness⟩ :=
        measureBatch_fitness hexact hsound hp s.evaluations hcandidates hbench
      obtain ⟨outcomes', hmeasure', hfitness'⟩ :=
        measureBatch_fitness hexact hsound hp s.evaluations hcandidates hbench'
      have hkeeps := measureBatch_keeps hsound hp config.evalTimeout .never s.evaluations hcandidates
      have hstore := ((hkeeps bench).idle hbench).faithful.store_eq
      have hstore' := ((hkeeps bench').idle hbench').faithful.store_eq
      have halike : Alike { s with population, source } { s with population, source, cached, trace } :=
        ⟨cached, trace, rfl⟩
      obtain ⟨s', t', q, q', hrecord, hrecord', h'⟩ :=
        halike.recordBatch (forall₂_zip (hfitness.trans hfitness'.symm))
          (measureBatch p config.evalTimeout .never s.evaluations batch bench).2.1
          (measureBatch p config.evalTimeout .never s.evaluations batch bench').2.1
      simp only [hmeasure, hmeasure', interruption?, Interrupt.atMeasurement, measured_eq_zip, hstore,
        hstore', Option.isSome_none]
      rw [hrecord, hrecord']
      exact h'.closeRound _ _

/-- So do all rounds. -/
theorem Alike.play {config : Config} (hspace : space.IsExact)
    (hexact : p.Exact scores (.within none config.evalTimeout)) (hsound : p.Sound scores)
    (hp : p.Keeps scores) (hs : s.Suits space rate) (h : s.Alike t) (hbench : bench.1.Idle scores)
    (hbench' : bench'.1.Idle scores) (mode : Mode) (rounds : Nat) :
    (play p config mode .never rounds s bench).1 = (play p config mode .never rounds t bench').1 ∧
      (play p config mode .never rounds s bench).2.1.Alike
        (play p config mode .never rounds t bench').2.1 := by
  induction rounds generalizing s t bench bench' with
  | zero => exact ⟨rfl, h⟩
  | succ rounds ih =>
      have hround := h.playRound hspace hexact hsound hp hs hbench hbench' mode
      have ht : t.Suits space rate := by
        obtain ⟨cached, trace, rfl⟩ := h
        exact hs
      obtain ⟨hkeeps, hnext⟩ := hs.playRound hspace hsound hp config mode .never bench
      obtain ⟨hkeeps', -⟩ := ht.playRound hspace hsound hp config mode .never bench'
      rw [play_succ, play_succ]
      generalize Session.playRound p config mode .never s bench = left at hround hkeeps hnext ⊢
      generalize Session.playRound p config mode .never t bench' = right at hround hkeeps' ⊢
      obtain ⟨turn, bench₁⟩ := left
      obtain ⟨turn', bench₁'⟩ := right
      dsimp only at hround hkeeps hkeeps' hnext ⊢
      cases hround with
      | goOn h' => exact ih (hnext _ rfl) h' (hkeeps.idle hbench) (hkeeps'.idle hbench')
      | stop h' => exact ⟨rfl, h'⟩
      | fail error h' => exact ⟨rfl, h'⟩

end Session

/-! ## Whole sessions -/

theorem Session.start_suits {space : Space} {config : Config} {s : Session} {mode : Mode}
    (h : Session.start space config = .ok (s, mode)) : s.Suits space config.mutateRate := by
  obtain ⟨-, -, population, source, hmake, rfl⟩ := Session.start_eq_ok h
  exact Population.make_fitting space.law_suits hmake

namespace Runner

theorem startTrace_of_none {r : Runner} (h : r.store = none) (id : String) :
    r.startTrace id = (.ok (), r) := by
  rw [startTrace, h]

theorem writeTrace_of_none {r : Runner} (h : r.store = none) (id : String)
    (entries : List TraceEntry) : r.writeTrace id entries = r := by
  rw [writeTrace, h]

theorem saveReport_of_none {r : Runner} (h : r.store = none) (id : String) (report : Report) :
    r.saveReport id report = (.ok (), r) := by
  rw [saveReport, h]

end Runner

namespace Probe

variable {ε : Type} {scores : Scores} {p : Probe ε} {space : Space}

/-- A session without a store, from its rounds. -/
theorem run_of_start {config : Config} {s s' : Session} {mode : Mode} {i : Interrupt}
    {bench : Runner × ε} {r : Runner} {e : ε} {played : Except SessionError Unit}
    (hstart : Session.start space config = .ok (s, mode)) (hstore : bench.1.store = none)
    (hplay : Session.play p config mode i config.rounds.toInt.toNat s (bench.1.tick.2, bench.2) =
      (played, s', r, e)) (hstore' : r.store = none) (id : String) :
    p.run space config id i bench =
      match played with
      | .error error => (.error error, s'.progress.reverse, (r, e))
      | .ok () =>
        (.ok { report := s'.report id config bench.1.tick.1 r.tick.1, population := s'.population
               cached := s'.cached, exhausted := s'.exhausted },
          s'.progress.reverse, (r.tick.2, e)) := by
  have hticked : bench.1.tick.2.store = none := hstore
  have hticked' : r.tick.2.store = none := hstore'
  unfold run
  simp only [hstart, Runner.startTrace_of_none hticked, hplay, Runner.writeTrace_of_none hstore',
    Runner.saveReport_of_none hticked']
  cases played <;> rfl

/-- A session leaves its runner faithful. -/
theorem run_keeps (hspace : space.IsExact) (hsound : p.Sound scores) (hp : p.Keeps scores)
    (config : Config) (id : String) (i : Interrupt) (bench : Runner × ε) :
    bench.1.Keeps scores (p.run space config id i bench).2.2.1 := by
  intro hr
  cases hstart : Session.start space config with
  | error error =>
      rw [run, hstart]
      exact Runner.Keeps.refl _ hr
  | ok started =>
      obtain ⟨s, mode⟩ := started
      have hwait : bench.1.Keeps scores bench.1.tick.2 := bench.1.keeps_wait _
      have hkeeps := hwait.trans ((Session.start_suits hstart).play hspace hsound hp config mode i
        config.rounds.toInt.toNat (bench.1.tick.2, bench.2))
      rcases hplay : Session.play p config mode i config.rounds.toInt.toNat s
        (bench.1.tick.2, bench.2) with ⟨played, s', r, e⟩
      rw [hplay] at hkeeps
      rw [run_of_start hstart hr.store_eq hplay (hkeeps hr).1.store_eq id]
      cases played with
      | error error => exact hkeeps hr
      | ok _ => exact hkeeps.trans (r.keeps_wait _) hr

end Probe

/-- What may become of a runner: time passes, and sessions are run on it. Their objectives agree on the
fitness of candidates and may use the runner in the same ways while they evaluate. -/
inductive Runner.Leads (scores : Scores) : Runner → Runner → Prop
  | refl (r : Runner) : Leads scores r r
  | wait {r r' : Runner} (h : Leads scores r r') (now : Instant) : Leads scores r { r' with now }
  | run {ε : Type} {p : Probe ε} {space : Space} {r r' : Runner} (h : Leads scores r r')
      (hspace : space.IsExact) (hsound : p.Sound scores)
      (hleads : ∀ context c s, Leads scores s.1 (p.evaluate context c s).2.1)
      (config : Config) (id : String) (i : Interrupt) (e : ε) :
      Leads scores r (p.run space config id i (r', e)).2.2.1

theorem Runner.Leads.keeps {scores : Scores} {r r' : Runner} (h : Leads scores r r') :
    r.Keeps scores r' := by
  induction h with
  | refl r => exact .refl r
  | wait _ now ih => exact ih.trans (keeps_wait _ now)
  | run _ hspace hsound _ config id i e ih ihleads =>
      exact ih.trans (Probe.run_keeps hspace hsound ihleads config id i (_, e))

/-- Two sessions ended with the same ranking and reports that differ in their names and times only. -/
structure SessionResult.Agrees (a b : SessionResult) : Prop where
  ranked : a.population.ranked = b.population.ranked
  report : b.report =
    { a.report with
      sessionId := b.report.sessionId, startedAt := b.report.startedAt
      finishedAt := b.report.finishedAt }
  exhausted : a.exhausted = b.exhausted

namespace Probe

variable {ε : Type} {scores : Scores} {p : Probe ε} {space : Space}

/-- A session that is never interrupted comes to the same on a runner with a past as on a new one: it
shows the same progress, and fails alike or ends with the same ranking and report. -/
theorem run_agrees_on_new {config : Config} {r : Runner} {born : Instant}
    (hr : Runner.Leads scores { now := born } r) (hspace : space.IsExact)
    (hexact : p.Exact scores (.within none config.evalTimeout)) (hsound : p.Sound scores)
    (hleads : ∀ context c s, Runner.Leads scores s.1 (p.evaluate context c s).2.1)
    (id id' : String) (e e' : ε) (now : Instant) :
    (p.run space config id .never (r, e)).2.1 =
        (p.run space config id' .never ({ now }, e')).2.1 ∧
      ((∃ error, (p.run space config id .never (r, e)).1 = .error error ∧
          (p.run space config id' .never ({ now }, e')).1 = .error error) ∨
        ∃ a b, (p.run space config id .never (r, e)).1 = .ok a ∧
          (p.run space config id' .never ({ now }, e')).1 = .ok b ∧ a.Agrees b) := by
  have hp : p.Keeps scores := fun context c s => (hleads context c s).keeps
  have hidle : r.Idle scores := hr.keeps.idle ⟨Runner.faithful_new born, rfl⟩
  have hnew : ({ now } : Runner).Idle scores := ⟨Runner.faithful_new now, rfl⟩
  cases hstart : Session.start space config with
  | error error =>
      rw [run, run, hstart]
      exact ⟨rfl, .inl ⟨error, rfl, rfl⟩⟩
  | ok started =>
      obtain ⟨s, mode⟩ := started
      have hsuits := Session.start_suits hstart
      -- the rounds begin a moment later
      have hidle' : (r.tick.2, e).1.Idle scores := (r.keeps_wait _).idle hidle
      have hnew' : (({ now } : Runner).tick.2, e').1.Idle scores := (Runner.keeps_wait _ _).idle hnew
      have hplayed := hsuits.play hspace hsound hp config mode .never config.rounds.toInt.toNat
      have hrounds := Session.Alike.play hspace hexact hsound hp hsuits ⟨s.cached, s.trace, rfl⟩
        hidle' hnew' mode config.rounds.toInt.toNat
      have hstore := ((hplayed (r.tick.2, e)).idle hidle').faithful.store_eq
      have hstore' := ((hplayed (({ now } : Runner).tick.2, e')).idle hnew').faithful.store_eq
      rcases hplay : Session.play p config mode .never config.rounds.toInt.toNat s
        (r.tick.2, e) with ⟨played, s₁, r₁, e₁⟩
      rcases hplay' : Session.play p config mode .never config.rounds.toInt.toNat s
        (({ now } : Runner).tick.2, e') with ⟨played', s₂, r₂, e₂⟩
      rw [hplay] at hrounds hstore
      rw [hplay'] at hrounds hstore'
      obtain ⟨rfl, cached, trace, rfl⟩ := hrounds
      rw [run_of_start hstart hidle.faithful.store_eq hplay hstore id,
        run_of_start hstart hnew.faithful.store_eq hplay' hstore' id']
      cases played with
      | error error => exact ⟨rfl, .inl ⟨error, rfl, rfl⟩⟩
      | ok _ => exact ⟨rfl, .inr ⟨_, _, rfl, rfl, rfl, rfl, rfl⟩⟩

/-- The scores of the objective that gives the same fitness to everything. -/
def flatScores : Scores :=
  fun _ _ => some 1

theorem flat_sound : flat.Sound flatScores := by
  intro context c s fitness h
  simp only [flat, Objective.probe, Objective.checked] at h
  split at h
  · cases h
  · rw [← Except.ok.inj h]
    rfl

theorem flat_exact : flat.Exact flatScores (.within none oneRound.evalTimeout) :=
  fun _ _ => rfl

theorem seededCoin_isExact : seededCoin.IsExact := by
  intro q hq choices hchoices
  obtain rfl := List.mem_singleton.mp hq
  obtain rfl := Domain.choice.inj hchoices
  decide

/-- A runner on which a session was run. -/
def usedRunner : Runner :=
  (flat.run seededCoin oneRound "first" .never ({}, ())).2.2.1

theorem usedRunner_leads : Runner.Leads flatScores {} usedRunner :=
  (Runner.Leads.refl {}).run seededCoin_isExact flat_sound (fun _ _ s => .refl s.1) oneRound "first"
    .never ()

/-- The second session remembers everything, and agrees with the same session on a new runner. -/
theorem run_agrees_on_new_flat : Runner.Leads flatScores {} usedRunner ∧
    ∃ a b, (flat.run seededCoin oneRound "second" .never (usedRunner, ())).1 = .ok a ∧
      (flat.run seededCoin oneRound "only" .never ({}, ())).1 = .ok b ∧ a.Agrees b ∧
      a.cached = 2 := by
  have hcached : (flat.run seededCoin oneRound "second" .never (usedRunner, ())).1.toOption.map
      (·.cached) = some 2 := by
    decide +kernel
  refine ⟨usedRunner_leads, ?_⟩
  obtain ⟨-, ⟨error, herror, -⟩ | ⟨a, b, ha, hb, hagrees⟩⟩ :=
    run_agrees_on_new usedRunner_leads seededCoin_isExact flat_exact flat_sound
      (fun _ _ s => .refl s.1) "second" "only" () () .zero
  · rw [herror] at hcached
    cases hcached
  · rw [ha] at hcached
    exact ⟨a, b, ha, hb, hagrees, Option.some.inj hcached⟩

/-- A choice that begins with an atom. -/
def startingWith (atom : Value) : Space :=
  ⟨[{ name := "atom", domain := .choice [atom, .bool true], seeds := [atom, .bool true] }]⟩

/-- Goes by the bytes of a text and by the width of a whole number. -/
def discerning : Probe Unit :=
  (Objective.checked "discerning" "discerning" fun c => match c.find? "atom" with
    | some (.garbled s) => .ok (if s.bytes = [0xFF] then 1 else 2)
    | some (.int _) => .ok 1
    | some (.signed ..) => .ok 2
    | _ => .ok 0).probe

/-- A session that finds the second atom on a new runner to be worth 2 takes it to be worth 1 after a
session on the first atom, whose fitness the runner remembers. -/
def Confuses (p : Probe Unit) (first second : Value) : Prop :=
  ∃ a b,
    (p.run (startingWith second) oneRound "second" .never
      ((p.run (startingWith first) oneRound "first" .never ({}, ())).2.2.1, ())).1 = .ok a ∧
    (p.run (startingWith second) oneRound "only" .never ({}, ())).1 = .ok b ∧
    a.cached = 2 ∧ a.report.best.fitness = 1 ∧ b.report.best.fitness = 2

theorem Confuses.of_results {p : Probe Unit} {first second : Value}
    (hremembered : (p.run (startingWith second) oneRound "second" .never
      ((p.run (startingWith first) oneRound "first" .never ({}, ())).2.2.1, ())).1.toOption.map
        (fun a => (a.cached, a.report.best.fitness)) = some (2, 1))
    (hmeasured : (p.run (startingWith second) oneRound "only" .never ({}, ())).1.toOption.map
        (·.report.best.fitness) = some 2) : p.Confuses first second := by
  obtain ⟨a, ha, hresult⟩ := exists_ok_of_map_toOption hremembered
  obtain ⟨b, hb, hbest⟩ := exists_ok_of_map_toOption hmeasured
  exact ⟨a, b, ha, hb, (Prod.mk.inj hresult).1, (Prod.mk.inj hresult).2, hbest⟩

/-- Atoms with one document are confused: texts that are one stray byte, and whole numbers of one value
and different width. -/
theorem not_run_agrees_on_new :
    discerning.Confuses (.garbled ⟨[0xFF], by decide⟩) (.garbled ⟨[0xFE], by decide⟩) ∧
      discerning.Confuses (.int 4) (.signed 64 4) :=
  ⟨.of_results (by decide +kernel) (by decide +kernel),
    .of_results (by decide +kernel) (by decide +kernel)⟩

end Probe

end Tuning
