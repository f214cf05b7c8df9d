import Mathlib
import Tuning.Proofs.Session.Exhaustion

/-! # What a session shows

A session shows its counters after every round. Rounds are numbered, the evaluations of every round are
complete, and the failures never get fewer; this holds however the session ends. -/

namespace Tuning

/-- What was shown after the rounds of a session with batches of a size, the latest first. -/
inductive Progress.Steady (size : Nat) : List Progress → Prop where
  | nil : Steady size []
  | cons {p : Progress} {shown : List Progress} (round_eq : p.round = shown.length)
      (evaluations_eq : p.evaluations = (shown.length + 1) * size)
      (failures_le : p.failures ≤ p.evaluations) (failures_ge : ∀ q ∈ shown, q.failures ≤ p.failures)
      (earlier : Steady size shown) : Steady size (p :: shown)

/-- What was shown after the rounds of a session, in their order: the number of the round, all evaluations
up to its end, and failures that never get fewer. -/
structure Progress.InTurn (size : Nat) (progress : List Progress) : Prop where
  round_eq : ∀ (r : Nat) (p : Progress), progress[r]? = some p → p.round = r
  evaluations_eq : ∀ (r : Nat) (p : Progress), progress[r]? = some p → p.evaluations = (r + 1) * size
  failures_le : ∀ p ∈ progress, p.failures ≤ p.evaluations
  pairwise : progress.Pairwise fun p q => p.failures ≤ q.failures

theorem Progress.InTurn.evaluations_le {size : Nat} {progress : List Progress} (h : InTurn size progress) :
    ∀ p ∈ progress, p.evaluations ≤ progress.length * size := by
  intro p hp
  obtain ⟨r, hr⟩ := List.mem_iff_getElem?.mp hp
  rw [h.evaluations_eq r p hr]
  exact Nat.mul_le_mul_right size (List.getElem?_eq_some_iff.mp hr).1

theorem getElem?_concat_cases {α : Type} {xs : List α} {x y : α} {r : Nat}
    (h : (xs ++ [x])[r]? = some y) : xs[r]? = some y ∨ r = xs.length ∧ x = y := by
  by_cases hr : r < xs.length
  · rw [List.getElem?_append_left hr] at h
    exact .inl h
  · have hlt := (List.getElem?_eq_some_iff.mp h).1
    rw [List.length_append, List.length_singleton] at hlt
    obtain rfl : r = xs.length := by omega
    exact .inr ⟨rfl, by simpa using h⟩

theorem Progress.Steady.inTurn {size : Nat} {shown : List Progress} (h : Steady size shown) :
    InTurn size shown.reverse := by
  induction h with
  | nil => exact ⟨by simp, by simp, by simp, by simp⟩
  | @cons p shown hround hevaluations hle hge _ ih =>
      rw [List.reverse_cons]
      refine ⟨fun r q hq => ?_, fun r q hq => ?_, ?_, ?_⟩
      · rcases getElem?_concat_cases hq with hq | ⟨rfl, rfl⟩
        · exact ih.round_eq r q hq
        · rw [hround, List.length_reverse]
      · rcases getElem?_concat_cases hq with hq | ⟨rfl, rfl⟩
        · exact ih.evaluations_eq r q hq
        · rw [hevaluations, List.length_reverse]
      · intro q hq
        rcases List.mem_append.mp hq with hq | hq
        · exact ih.failures_le q hq
        · rwa [List.mem_singleton.mp hq]
      · rw [List.pairwise_append]
        exact ⟨ih.pairwise, by simp, by simpa using hge⟩

namespace Session

variable {ε : Type} {p : Probe ε} {space : Space} {rate : Float} {mode : Mode} {size : Nat}
  {s s' s'' : Session} {i : Interrupt} {bench bench' : Runner × ε}

/-! ## Recording -/

/-- Nothing is shown meanwhile, and nothing that is recorded gets lost. -/
structure Quietly (s s' : Session) : Prop where
  progress_eq : s'.progress = s.progress
  rounds_eq : s'.rounds = s.rounds
  failures_le : s.failures ≤ s'.failures
  size_le : s.population.size ≤ s'.population.size

theorem Quietly.refl (s : Session) : s.Quietly s := ⟨rfl, rfl, le_rfl, le_rfl⟩

theorem Quietly.trans (h : s.Quietly s') (h' : s'.Quietly s'') : s.Quietly s'' where
  progress_eq := h'.progress_eq.trans h.progress_eq
  rounds_eq := h'.rounds_eq.trans h.rounds_eq
  failures_le := h.failures_le.trans h'.failures_le
  size_le := h.size_le.trans h'.size_le

theorem quietly_record (s : Session) (x : Individual) (outcome : Outcome) (time : Instant) :
    s.Quietly (s.record x outcome time) := by
  cases outcome with
  | scored fitness cached =>
      obtain ⟨trace, hrecord⟩ := s.record_scored x fitness cached time
      rw [hrecord]
      refine ⟨rfl, rfl, le_rfl, ?_⟩
      cases happend : s.population.append x fitness with
      | none => simp
      | some population => simp [size_append happend]
  | failed error =>
      obtain ⟨trace, hrecord⟩ := s.record_failed x error time
      rw [hrecord]
      exact ⟨rfl, rfl, Nat.le_succ _, le_rfl⟩

theorem quietly_recordBatch (stored : Bool) (measured : List (Individual × Outcome)) (s : Session)
    (r : Runner) : s.Quietly (recordBatch stored measured s r).2.1 ∧
      ∀ t, (recordBatch stored measured s r).1 = .ok t → (recordBatch stored measured s r).2.1 = t := by
  induction measured generalizing s r with
  | nil => exact ⟨.refl s, fun t h => Except.ok.inj h⟩
  | cons xo measured ih =>
      obtain ⟨x, outcome⟩ := xo
      rw [recordBatch]
      dsimp only
      split
      · exact ⟨.refl s, fun t h => by cases h⟩
      · obtain ⟨hquietly, hlast⟩ := ih (s.record x outcome r.tick.1) r.tick.2
        exact ⟨(s.quietly_record x outcome r.tick.1).trans hquietly, hlast⟩

/-! ## Rounds -/

/-- What a session has shown between two rounds. -/
structure Showing (size : Nat) (s : Session) : Prop where
  steady : Progress.Steady size s.progress
  length_eq : s.progress.length = s.rounds
  failures_le : ∀ q ∈ s.progress, q.failures ≤ s.failures
  /-- Nothing is the best before something is recorded. -/
  best_eq : s.population.size = 0 → ∀ q ∈ s.progress, q.best = none

theorem progress_closeRound {c : Convergence Float}
    (h : closeRound c mode s = .goOn s' ∨ closeRound c mode s = .stop s') :
    s'.progress =
      { round := s.rounds, evaluations := s.evaluations, failures := s.failures
        best := s.population.best?.map fun (x, fitness) => (fitness, x.candidate) } :: s.progress := by
  unfold closeRound at h
  dsimp only at h
  split at h
  · rcases h with h | h
    · rw [← Turn.goOn.inj h]
    · cases h
  · split at h
    · rcases h with h | h
      · cases h
      · rw [← Turn.stop.inj h]
    · rcases h with h | h
      · rw [← Turn.goOn.inj h]
      · cases h

theorem best?_eq_none {population : Population} (h : population.size = 0) :
    population.best? = none := by
  have hempty : population.history = [] := List.length_eq_zero_iff.mp h
  simp [Population.best?, Population.ranked, hempty]

/-- Closing a round shows it. -/
theorem Showing.closeRound {c : Convergence Float} {s₁ : Session} (h : s.Showing size)
    (hquietly : s.Quietly s₁) (hevaluations : s₁.evaluations = (s.rounds + 1) * size)
    (hfailures : s₁.failures ≤ s₁.evaluations)
    (hclose : closeRound c mode s₁ = .goOn s' ∨ closeRound c mode s₁ = .stop s') :
    s'.Showing size := by
  have hprogress := progress_closeRound hclose
  rw [hquietly.progress_eq] at hprogress
  obtain ⟨tracker, progress, converged, rfl⟩ := eq_of_closeRound hclose
  dsimp only at hprogress
  subst hprogress
  have hearlier : ∀ q ∈ s.progress, q.failures ≤ s₁.failures := fun q hq =>
    (h.failures_le q hq).trans hquietly.failures_le
  refine ⟨.cons ?_ ?_ hfailures hearlier h.steady, ?_, ?_, ?_⟩
  · rw [h.length_eq, hquietly.rounds_eq]
  · rw [h.length_eq, hevaluations]
  · rw [List.length_cons, h.length_eq, hquietly.rounds_eq]
  · exact List.forall_mem_cons.mpr ⟨le_rfl, hearlier⟩
  · intro hempty
    have hempty' : s.population.size = 0 := Nat.le_zero.mp (hempty ▸ hquietly.size_le)
    exact List.forall_mem_cons.mpr ⟨by rw [best?_eq_none hempty]; rfl, h.best_eq hempty'⟩

/-- A round that does not fail is shown, unless the session stops before it. -/
theorem Showing.playRound {config : Config}
    (hinOrder : s.InOrder space rate mode config.offspring.toInt.toNat)
    (h : s.Showing config.offspring.toInt.toNat)
    (hround : playRound p config mode i s bench = (.goOn s', bench') ∨
      playRound p config mode i s bench = (.stop s', bench')) :
    s'.Showing config.offspring.toInt.toNat := by
  obtain ⟨⟨pool, hbalanced⟩, hevaluations⟩ := hinOrder
  rcases playRound_cases hround with ⟨_, _, _, source, -, -, rfl, rfl⟩ |
    ⟨batch, population, source, outcomes, s₁, last, r, e, r', hbred, -, hcount, hrecord, hclose, rfl⟩
  · exact ⟨h.steady, h.length_eq, h.failures_le, h.best_eq⟩
  · obtain ⟨hbalanced', hnew, hbatch⟩ := hbalanced.offspring hbred
    have hsize : population.size = s.population.size := by
      obtain ⟨n, rfl⟩ := Population.breed_population (Population.offspring_eq_ok hbred).2
      rfl
    have hfirst : (batch.zip outcomes).map (·.1) = batch :=
      List.map_fst_zip (Nat.le_of_eq hcount.symm)
    obtain ⟨hbalanced₁, htakes⟩ := hbalanced'.takesIn
      (fun x hx => List.mem_append_left pool (hfirst ▸ hx)) (hfirst.symm ▸ hnew)
      (congrArg Prod.fst hrecord)
    have hbred' : s.Quietly { s with population, source } := ⟨rfl, rfl, le_rfl, hsize.ge⟩
    have hrecorded := quietly_recordBatch r.store.isSome (batch.zip outcomes)
      { s with population, source } r
    rw [hrecord] at hrecorded
    obtain rfl : last = s₁ := hrecorded.2 s₁ rfl
    refine h.closeRound (hbred'.trans hrecorded.1) ?_ ?_ hclose
    · rw [htakes.evaluations_eq, List.length_zip, hcount, hbatch, Nat.min_self, Nat.succ_mul]
      exact congrArg (· + _) hevaluations
    · rw [← hbalanced₁.recorded]
      exact Nat.le_add_right _ _

/-- A round that fails shows nothing. -/
theorem progress_of_fail {config : Config} {error : SessionError}
    (h : playRound p config mode i s bench = (.fail error s', bench')) : s'.progress = s.progress := by
  unfold Session.playRound at h
  split at h
  · obtain ⟨-, rfl⟩ := Turn.fail.inj (Prod.mk.inj h).1
    rfl
  · cases h
  · obtain ⟨-, rfl⟩ := Turn.fail.inj (Prod.mk.inj h).1
    rfl
  · next batch population source hbred =>
      dsimp only at h
      split at h
      · obtain ⟨-, rfl⟩ := Turn.fail.inj (Prod.mk.inj h).1
        rfl
      · split at h
        · next t r hrecord =>
            obtain ⟨-, rfl⟩ := Turn.fail.inj (Prod.mk.inj h).1
            have hprogress := congrArg (fun out => out.2.1.progress) hrecord
            exact hprogress.symm.trans (quietly_recordBatch _ _ _ _).1.progress_eq
        · next t last r hrecord =>
            obtain ⟨tracker, progress, converged, hturn | ⟨hturn, -⟩⟩ :=
              closeRound_turn (convergence config) mode t
            · rw [hturn] at h
              cases h
            · rw [hturn] at h
              cases h

/-- However the rounds of a session end, they were shown; if they end well, all of them were. -/
theorem Showing.play {config : Config} {rounds : Nat} {outcome : Except SessionError Unit}
    (hinOrder : s.InOrder space rate mode config.offspring.toInt.toNat)
    (h : s.Showing config.offspring.toInt.toNat)
    (hplay : Session.play p config mode i rounds s bench = (outcome, s', bench')) :
    Progress.Steady config.offspring.toInt.toNat s'.progress ∧
      s'.progress.length ≤ s.rounds + rounds ∧
      (outcome = .ok () → s'.InOrder space rate mode config.offspring.toInt.toNat ∧
        s'.Showing config.offspring.toInt.toNat) := by
  induction rounds generalizing s bench with
  | zero =>
      obtain ⟨rfl, rfl, -⟩ := eq_of_play_zero hplay
      exact ⟨h.steady, h.length_eq.le, fun _ => ⟨hinOrder, h⟩⟩
  | succ rounds ih =>
      rw [play_succ] at hplay
      split at hplay
      · next t bench₁ hround =>
          have ht := h.playRound hinOrder (.inl hround)
          obtain ⟨hinOrder', ⟨-, -, -, hstop⟩ | ⟨-, hrounds, -⟩⟩ :=
            inOrder_of_playRound hinOrder (.inl hround)
          · cases hround.symm.trans hstop
          · obtain ⟨hsteady, hlength, hok⟩ := ih hinOrder' ht hplay
            exact ⟨hsteady, by omega, hok⟩
      · next t bench₁ hround =>
          obtain ⟨-, rfl, -⟩ := (Prod.mk.inj hplay).imp id Prod.mk.inj
          have ht := h.playRound hinOrder (.inr hround)
          obtain ⟨hinOrder', hcases⟩ := inOrder_of_playRound hinOrder (.inr hround)
          refine ⟨ht.steady, ?_, fun _ => ⟨hinOrder', ht⟩⟩
          rw [ht.length_eq]
          rcases hcases with ⟨-, -, hrounds, -⟩ | ⟨-, hrounds, -⟩ <;> omega
      · next error t bench₁ hround =>
          obtain ⟨rfl, rfl, -⟩ := (Prod.mk.inj hplay).imp id Prod.mk.inj
          have hprogress := progress_of_fail hround
          rw [hprogress]
          exact ⟨h.steady, by rw [h.length_eq]; omega, fun hok => by cases hok⟩

theorem start_showing {population : Population} {source : Source} (size : Nat) :
    Showing size { population, source } :=
  ⟨.nil, rfl, by simp, by simp⟩

end Session

/-! ## Whole sessions -/

theorem insertField_ne_nil {α : Type} (name : String) (value : α) (fields : List (String × α)) :
    insertField name value fields ≠ [] := by
  cases fields with
  | nil => simp [insertField]
  | cons field rest =>
      rw [insertField]
      split_ifs <;> simp

theorem mappingOf_eq_nil {α : Type} {fields : List (String × α)} (h : mappingOf fields = []) :
    fields = [] := by
  rcases List.eq_nil_or_concat fields with rfl | ⟨rest, last, rfl⟩
  · rfl
  · rw [mappingOf, List.concat_eq_append, List.foldl_append] at h
    exact absurd h (insertField_ne_nil _ _ _)

/-- A space has parameters, so no candidate is empty. -/
theorem Population.Search.candidate_ne_nil {space : Space} {rate : Float} {mode : Mode}
    {population : Population} {pool : List Individual} (h : Search space rate mode population pool)
    {x : Individual × Float} (hx : x ∈ population.ranked) : x.1.candidate ≠ [] := by
  obtain ⟨start, src, src', hmake⟩ := h.exists_make
  obtain ⟨scored, hscored, rfl⟩ := List.mem_map.mp hx
  have hmatches := (h.fitting space.law_true).1.history scored hscored
  have hvalid := (make_eq_ok hmake).1
  unfold Space.validate at hvalid
  split at hvalid
  · cases hvalid
  · next hparameters =>
      intro hempty
      have hgenes : scored.1.genes = [] := List.map_eq_nil_iff.mp (mappingOf_eq_nil hempty)
      have hlength := hmatches.length_eq
      rw [hgenes, List.length_nil, List.length_eq_zero_iff] at hlength
      exact hparameters (by rw [hlength]; rfl)

namespace Probe

variable {ε : Type} {p : Probe ε} {space : Space} {config : Config} {id : String} {i : Interrupt}
  {bench bench' : Runner × ε} {progress : List Progress}

theorem saveReport_eq_error {r r' : Runner} {report : Report} {error : SessionError}
    (h : r.saveReport id report = (.error error, r')) :
    (∃ fault, error = .report fault) ∨ ∃ refusal, error = .store refusal := by
  unfold Runner.saveReport at h
  split at h
  · cases h
  · split at h
    · exact .inl ⟨_, (Except.error.inj (Prod.mk.inj h).1).symm⟩
    · split at h
      · cases h
      · exact .inr ⟨_, (Except.error.inj (Prod.mk.inj h).1).symm⟩

/-- A session fails before its first round, or it plays rounds and shows them. It fails in a round, or its
report cannot be stored. -/
theorem run_cases {outcome : Except SessionError SessionResult}
    (h : p.run space config id i bench = (outcome, progress, bench')) :
    (progress = [] ∧ ∃ error, outcome = .error error) ∨
      ∃ s mode r played s' bench₁, Session.start space config = .ok (s, mode) ∧
        Session.play p config mode i config.rounds.toInt.toNat s (r, bench.2) = (played, s', bench₁) ∧
        progress = s'.progress.reverse ∧
        (∀ result, outcome = .ok result → played = .ok () ∧
          ∃ finishedAt, result.report = s'.report id config bench.1.tick.1 finishedAt) ∧
        ∀ error, outcome = .error error → played = .error error ∨
          (∃ fault, error = .report fault) ∨ ∃ refusal, error = .store refusal := by
  unfold run at h
  split at h
  · obtain ⟨houtcome, hrest⟩ := Prod.mk.inj h
    exact .inl ⟨(Prod.mk.inj hrest).1.symm, _, houtcome.symm⟩
  · next s mode hstart =>
      dsimp only at h
      split at h
      · obtain ⟨houtcome, hrest⟩ := Prod.mk.inj h
        exact .inl ⟨(Prod.mk.inj hrest).1.symm, _, houtcome.symm⟩
      · next r hopened =>
          right
          rcases hplay : Session.play p config mode i config.rounds.toInt.toNat s (r, bench.2) with
            ⟨played, s', bench₁⟩
          refine ⟨s, mode, r, played, s', bench₁, hstart, hplay, ?_⟩
          rw [hplay] at h
          cases played with
          | error error =>
              obtain ⟨rfl, hrest⟩ := Prod.mk.inj h
              exact ⟨(Prod.mk.inj hrest).1.symm, fun _ hresult => (by cases hresult),
                fun _ herror => .inl (congrArg _ (Except.error.inj herror))⟩
          | ok =>
              dsimp only at h
              split at h
              · next hsave =>
                  obtain ⟨rfl, hrest⟩ := Prod.mk.inj h
                  refine ⟨(Prod.mk.inj hrest).1.symm, fun _ hresult => (by cases hresult), ?_⟩
                  exact fun error herror => .inr (Except.error.inj herror ▸ saveReport_eq_error hsave)
              · obtain ⟨rfl, hrest⟩ := Prod.mk.inj h
                refine ⟨(Prod.mk.inj hrest).1.symm, fun result hresult =>
                  ⟨rfl, (bench₁.1.writeTrace id s'.trace.reverse).tick.1, ?_⟩,
                  fun _ herror => by cases herror⟩
                rw [← Except.ok.inj hresult]

/-- However a session ends, its rounds were shown in turn. -/
theorem run_inTurn {outcome : Except SessionError SessionResult}
    (h : p.run space config id i bench = (outcome, progress, bench')) :
    Progress.InTurn config.offspring.toInt.toNat progress ∧
      progress.length ≤ config.rounds.toInt.toNat ∧ (progress ≠ [] → config.validate = .ok ()) := by
  rcases run_cases h with ⟨rfl, -⟩ | ⟨s, mode, r, played, s', bench₁, hstart, hplay, rfl, -⟩
  · exact ⟨Progress.Steady.nil.inTurn, Nat.zero_le _, fun hne => absurd rfl hne⟩
  · obtain ⟨hvalid, -, population, source, hmake, rfl⟩ := Session.start_eq_ok hstart
    obtain ⟨hsteady, hlength, -⟩ :=
      (Session.start_showing _).play (Session.start_inOrder hmake _) hplay
    rw [List.length_reverse]
    exact ⟨hsteady.inTurn, by simpa using hlength, fun _ => hvalid⟩

/-- A session that ends well has shown all its rounds, and nothing as the best if it recorded nothing. -/
theorem run_shows {result : SessionResult}
    (h : p.run space config id i bench = (.ok result, progress, bench')) :
    result.report.rounds = Int64.ofNat progress.length ∧
      result.report.evaluations = Int64.ofNat (progress.length * config.offspring.toInt.toNat) ∧
      (result.report.best.values.getD [] = [] → ∀ q ∈ progress, q.best = none) := by
  rcases run_cases h with ⟨-, error, herror⟩ |
    ⟨s, mode, r, played, s', bench₁, hstart, hplay, rfl, hresult, -⟩
  · cases herror
  · obtain ⟨rfl, finishedAt, hreport⟩ := hresult result rfl
    obtain ⟨-, -, population, source, hmake, rfl⟩ := Session.start_eq_ok hstart
    obtain ⟨-, -, hok⟩ := (Session.start_showing _).play (Session.start_inOrder hmake _) hplay
    obtain ⟨⟨⟨pool, hbalanced⟩, hevaluations⟩, hshowing⟩ := hok rfl
    rw [hreport, List.length_reverse, hshowing.length_eq]
    refine ⟨rfl, by rw [← hevaluations]; rfl, fun hbest q hq => ?_⟩
    refine hshowing.best_eq ?_ q (List.mem_reverse.mp hq)
    cases hranked : s'.population.ranked with
    | nil => simpa [Population.ranked, Population.size] using hranked
    | cons x rest =>
        have hvalues := hbalanced.search.candidate_ne_nil (x := x) (by rw [hranked]; simp)
        simp [Session.report, hranked] at hbest
        exact absurd hbest hvalues

end Probe

end Tuning
