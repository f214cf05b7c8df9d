import Tuning.Proofs.Population.Capacity
import Tuning.Proofs.Session.Optimum

/-! # Exhausted sessions

A session stops as exhausted when the space has less room than a batch needs. Fewer candidates are left
then than a batch has children; none is left if batches have one child, or if they share out the space
evenly and no measurement failed. -/

namespace Tuning

namespace Population

variable {p : Population} {children : Int64}

/-- As long as 64-bit arithmetic can hold the sum, a space is exhausted by a batch that it has no room
for. -/
theorem exhaustedBy_iff (hchildren : 1 ≤ children)
    (hfits : p.size + children.toInt.toNat < 2 ^ 63) :
    p.exhaustedBy children = true ↔ p.volume < p.size + children.toInt.toNat := by
  have hpositive : 1 ≤ children.toInt := Int64.le_iff_toInt_le.mp hchildren
  rw [exhaustedBy_iff_lt (by omega) hchildren]
  omega

theorem exhaustedBy_of_offspring {space : Space} {rate : Float} {mode : Mode}
    {pool : List Individual} (hp : Search space rate mode p pool) {parents : Int64}
    {src src' : Source} {size volume : Nat} {asked : Int64}
    (h : p.offspring parents children src = some (.error (.exhausted size asked volume), src')) :
    p.exhaustedBy children = true := by
  rw [offspring_apply] at h
  split at h
  · cases h
  · split at h
    · assumption
    · split at h
      · cases h
      · exact absurd h (breed_ne_error (fun bound hbound => hp.make_ne_error hbound) _ _ _ _ _)

theorem not_exhaustedBy_of_offspring {p' : Population} {parents : Int64} {src src' : Source}
    {batch : List Individual}
    (h : p.offspring parents children src = some (.ok (batch, p'), src')) :
    p.exhaustedBy children = false := by
  rw [offspring_apply] at h
  split at h
  · cases h
  · split at h
    · cases h
    · next hroom => exact Bool.eq_false_iff.mpr hroom

end Population

namespace Session

variable {ε : Type} {p : Probe ε} {space : Space} {rate : Float} {mode : Mode}
  {pool : List Individual} {s s' s'' : Session} {i : Interrupt} {bench bench' : Runner × ε}

/-! ## Recording -/

/-- So many measurements were taken in. -/
structure TakesIn (s : Session) (count : Nat) (s' : Session) : Prop where
  evaluations_eq : s'.evaluations = s.evaluations + count
  failures_le : s.failures ≤ s'.failures
  rounds_eq : s'.rounds = s.rounds
  exhausted_eq : s'.exhausted = s.exhausted
  volume_eq : s'.population.volume = s.population.volume

theorem TakesIn.trans {m n : Nat} (h : s.TakesIn m s') (h' : s'.TakesIn n s'') :
    s.TakesIn (m + n) s'' where
  evaluations_eq := by rw [h'.evaluations_eq, h.evaluations_eq, Nat.add_assoc]
  failures_le := h.failures_le.trans h'.failures_le
  rounds_eq := h'.rounds_eq.trans h.rounds_eq
  exhausted_eq := h'.exhausted_eq.trans h.exhausted_eq
  volume_eq := h'.volume_eq.trans h.volume_eq

theorem takesIn_record (s : Session) (x : Individual) (outcome : Outcome) (time : Instant) :
    s.TakesIn 1 (s.record x outcome time) := by
  cases outcome with
  | scored fitness cached =>
      obtain ⟨trace, hrecord⟩ := s.record_scored x fitness cached time
      rw [hrecord]
      refine ⟨rfl, Nat.le_refl _, rfl, rfl, ?_⟩
      cases happend : s.population.append x fitness with
      | none => rfl
      | some population =>
          obtain ⟨-, rfl⟩ := Population.append_eq_some happend
          rfl
  | failed error =>
      obtain ⟨trace, hrecord⟩ := s.record_failed x error time
      rw [hrecord]
      exact ⟨rfl, Nat.le_succ _, rfl, rfl, rfl⟩

/-- A batch that is recorded to its end is taken in, and the accounts agree. -/
theorem Balanced.takesIn {Q : Individual → Prop} {measured : List (Individual × Outcome)}
    (h : s.Balanced space rate mode pool) (hpool : ∀ x ∈ measured.map (·.1), x ∈ pool)
    (hnew : s.population.NewBatch Q (measured.map (·.1))) {stored : Bool} {r : Runner}
    (hrecord : (Session.recordBatch stored measured s r).1 = .ok s') :
    s'.Balanced space rate mode pool ∧ s.TakesIn measured.length s' := by
  induction measured generalizing s r with
  | nil =>
      obtain rfl := Except.ok.inj hrecord
      exact ⟨h, rfl, Nat.le_refl _, rfl, rfl, rfl⟩
  | cons xo measured ih =>
      obtain ⟨x, outcome⟩ := xo
      obtain ⟨hbalanced, hrest, -⟩ := h.record (hpool x (by simp)) hnew outcome r.now
      have hrecord' :
          (Session.recordBatch stored measured (s.record x outcome r.now) r.tick.2).1 = .ok s' := by
        rw [Session.recordBatch] at hrecord
        dsimp only at hrecord
        split at hrecord
        · cases hrecord
        · exact hrecord
      obtain ⟨hbalanced', htakes⟩ := ih hbalanced (fun y hy => hpool y (by simp [hy])) hrest hrecord'
      refine ⟨hbalanced', ?_⟩
      rw [List.length_cons, Nat.add_comm]
      exact (s.takesIn_record x outcome r.now).trans htakes

/-! ## Rounds -/

/-- What a round leads to if it does not fail. There is less room than a batch needs, and the session
stops; or there is room, and a batch is taken in. -/
theorem inOrder_of_playRound {config : Config}
    (h : s.InOrder space rate mode config.offspring.toInt.toNat)
    (hround : playRound p config mode i s bench = (.goOn s', bench') ∨
      playRound p config mode i s bench = (.stop s', bench')) :
    s'.InOrder space rate mode config.offspring.toInt.toNat ∧
      (s.population.exhaustedBy config.offspring = true ∧ s'.population = s.population ∧
          s'.rounds = s.rounds ∧ playRound p config mode i s bench = (.stop s', bench') ∨
        s.population.exhaustedBy config.offspring = false ∧ s'.rounds = s.rounds + 1 ∧
          s'.exhausted = s.exhausted ∧ s'.population.volume = s.population.volume ∧
          s.failures ≤ s'.failures) := by
  obtain ⟨⟨pool, hbalanced⟩, hevaluations⟩ := h
  rcases playRound_cases hround with ⟨_, _, _, source, hbred, hstop, rfl, rfl⟩ |
    ⟨batch, population, source, outcomes, s₁, last, r, e, r', hbred, -, hcount, hrecord, hclose, rfl⟩
  · exact ⟨⟨⟨pool, hbalanced.search, hbalanced.recorded, hbalanced.cached_le⟩, hevaluations⟩,
      .inl ⟨Population.exhaustedBy_of_offspring hbalanced.search hbred, rfl, rfl, hstop⟩⟩
  · obtain ⟨hbalanced', hnew, hbatch⟩ := hbalanced.offspring hbred
    have hroom := Population.not_exhaustedBy_of_offspring hbred
    have hvolume : population.volume = s.population.volume := by
      obtain ⟨n, rfl⟩ := Population.breed_population (Population.offspring_eq_ok hbred).2
      rfl
    have hfirst : (batch.zip outcomes).map (·.1) = batch :=
      List.map_fst_zip (Nat.le_of_eq hcount.symm)
    have hlength : (batch.zip outcomes).length = config.offspring.toInt.toNat := by
      rw [List.length_zip, hcount, hbatch, Nat.min_self]
    obtain ⟨hbalanced₁, htakes⟩ := hbalanced'.takesIn
      (fun x hx => List.mem_append_left pool (hfirst ▸ hx)) (hfirst.symm ▸ hnew)
      (congrArg Prod.fst hrecord)
    obtain ⟨tracker, progress, converged, rfl⟩ := eq_of_closeRound hclose
    refine ⟨⟨⟨batch ++ pool, hbalanced₁.search, hbalanced₁.recorded, hbalanced₁.cached_le⟩, ?_⟩,
      .inr ⟨hroom, ?_, htakes.exhausted_eq, ?_, htakes.failures_le⟩⟩
    · dsimp only
      rw [htakes.evaluations_eq, htakes.rounds_eq, hlength, Nat.succ_mul]
      exact congrArg (· + _) hevaluations
    · exact congrArg (· + 1) htakes.rounds_eq
    · exact htakes.volume_eq.trans hvolume

theorem InOrder.size_le {size : Nat} (h : s.InOrder space rate mode size) :
    s.population.size ≤ s.rounds * size := by
  obtain ⟨⟨pool, hbalanced⟩, hevaluations⟩ := h
  have hrecorded := hbalanced.recorded
  omega

/-- A round records a batch at most. -/
theorem InOrder.size_le_add {size : Nat} (h : s.InOrder space rate mode size)
    (h' : s'.InOrder space rate mode size) (hrounds : s'.rounds = s.rounds + 1)
    (hfailures : s.failures ≤ s'.failures) : s'.population.size ≤ s.population.size + size := by
  obtain ⟨⟨pool, hbalanced⟩, hevaluations⟩ := h
  obtain ⟨⟨pool', hbalanced'⟩, hevaluations'⟩ := h'
  have hrecorded := hbalanced.recorded
  have hrecorded' := hbalanced'.recorded
  rw [hrounds, Nat.succ_mul] at hevaluations'
  omega

/-- As long as the counters fit, a session never records more than there are candidates; and when it
stops as exhausted, fewer are left than a batch needs. -/
theorem InOrder.room {config : Config} (hoffspring : 1 ≤ config.offspring) {rounds : Nat}
    (h : s.InOrder space rate mode config.offspring.toInt.toNat)
    (hroom : s.population.size ≤ s.population.volume) (hopen : s.exhausted = false)
    (hfits : (s.rounds + rounds) * config.offspring.toInt.toNat < 2 ^ 63)
    (hplay : Session.play p config mode i rounds s bench = (.ok (), s', bench')) :
    s'.InOrder space rate mode config.offspring.toInt.toNat ∧ s'.rounds ≤ s.rounds + rounds ∧
      s'.population.size ≤ s'.population.volume ∧
      (s'.exhausted = true →
        s'.population.volume < s'.population.size + config.offspring.toInt.toNat) := by
  induction rounds generalizing s bench with
  | zero =>
      obtain ⟨-, rfl, -⟩ := eq_of_play_zero hplay
      refine ⟨h, Nat.le_refl _, hroom, fun hexhausted => ?_⟩
      rw [hopen] at hexhausted
      cases hexhausted
  | succ rounds ih =>
      have hbatch : s.population.size + config.offspring.toInt.toNat < 2 ^ 63 := by
        have hsize := h.size_le
        rw [Nat.add_mul, Nat.succ_mul] at hfits
        omega
      have hguard := Population.exhaustedBy_iff hoffspring hbatch
      -- a batch that there is room for leaves room
      have hnext : ∀ t : Session, t.InOrder space rate mode config.offspring.toInt.toNat →
          s.population.exhaustedBy config.offspring = false → t.rounds = s.rounds + 1 →
          t.population.volume = s.population.volume → s.failures ≤ t.failures →
          t.population.size ≤ t.population.volume := by
        intro t ht hfree hrounds hvolume hfailures
        have hsize := h.size_le_add ht hrounds hfailures
        rw [← Bool.not_eq_true, hguard] at hfree
        omega
      rw [play_succ] at hplay
      split at hplay
      · next t bench₁ hround =>
          obtain ⟨ht, ⟨-, -, -, hstop⟩ | ⟨hfree, hrounds, hexhausted, hvolume, hfailures⟩⟩ :=
            inOrder_of_playRound h (.inl hround)
          · cases hround.symm.trans hstop
          · have hfits' : (t.rounds + rounds) * config.offspring.toInt.toNat < 2 ^ 63 := by
              rwa [hrounds, Nat.add_assoc, Nat.add_comm 1]
            obtain ⟨h', hle, hsize, hfull⟩ := ih ht (hnext t ht hfree hrounds hvolume hfailures)
              (hexhausted.trans hopen) hfits' hplay
            exact ⟨h', by omega, hsize, hfull⟩
      · next t bench₁ hround =>
          obtain ⟨rfl, -⟩ := Prod.mk.inj (Prod.mk.inj hplay).2
          obtain ⟨ht, ⟨hfull, hpopulation, hrounds, -⟩ |
            ⟨hfree, hrounds, hexhausted, hvolume, hfailures⟩⟩ := inOrder_of_playRound h (.inr hround)
          · rw [hguard] at hfull
            rw [hpopulation]
            exact ⟨ht, by omega, hroom, fun _ => hfull⟩
          · refine ⟨ht, by omega, hnext t ht hfree hrounds hvolume hfailures, fun hfull => ?_⟩
            rw [hexhausted, hopen] at hfull
            cases hfull
      · cases hplay

end Session

/-! ## Whole sessions -/

namespace Probe

variable {ε : Type} {p : Probe ε} {space : Space} {config : Config} {id : String} {i : Interrupt}
  {bench bench' : Runner × ε} {result : SessionResult} {progress : List Progress}

/-- A session stops as exhausted when fewer candidates are left than a batch needs, however many that
are. With batches of one child none is left. None is left either if no measurement failed and batches
share out the space evenly. -/
theorem run_exhausted (h : p.run space config id i bench = (.ok result, progress, bench'))
    (hfits : config.rounds.toInt * config.offspring.toInt < 2 ^ 63)
    (hexhausted : result.exhausted = true) :
    result.population.size ≤ result.population.volume ∧
      (result.population.volume : Int) < result.population.size + config.offspring.toInt ∧
      (config.offspring = 1 → result.population.size = result.population.volume) ∧
      (result.report.failures = 0 → config.offspring.toInt ∣ result.population.volume →
        result.population.size = result.population.volume) := by
  obtain ⟨s, mode, r, s', bench₁, hstart, -, hplay, rfl, -⟩ := run_eq_result h
  obtain ⟨hvalid, -, population, source, hmake, rfl⟩ := Session.start_eq_ok hstart
  obtain ⟨hrounds, -, hoffspring, -⟩ := Config.validate_eq_ok hvalid
  have hrounds' : 1 ≤ config.rounds.toInt := Int64.le_iff_toInt_le.mp hrounds
  have hoffspring' : 1 ≤ config.offspring.toInt := Int64.le_iff_toInt_le.mp hoffspring
  obtain ⟨n, hn⟩ := Int.eq_ofNat_of_zero_le (Int.le_trans (by decide) hoffspring')
  obtain ⟨m, hm⟩ := Int.eq_ofNat_of_zero_le (Int.le_trans (by decide) hrounds')
  have hstart := Session.start_inOrder hmake config.offspring.toInt.toNat
  have hempty : population.size = 0 := Nat.le_zero.mp (hstart.size_le.trans_eq (Nat.zero_mul _))
  have hfits' : (0 + config.rounds.toInt.toNat) * config.offspring.toInt.toNat < 2 ^ 63 := by
    rw [hm, hn] at hfits ⊢
    rw [Nat.zero_add]
    exact_mod_cast hfits
  obtain ⟨horder, hle, hsize, hfull⟩ := hstart.room hoffspring
    (hempty.trans_le (Nat.zero_le _)) rfl hfits' hplay
  have hleft := hfull hexhausted
  refine ⟨hsize, ?_, ?_, ?_⟩
  · dsimp only
    omega
  · intro hone
    have hchild : config.offspring.toInt.toNat = 1 := by
      rw [hone]
      rfl
    dsimp only at hsize hleft ⊢
    omega
  · intro hfailures hdvd
    have hcount : s'.rounds * config.offspring.toInt.toNat < 2 ^ 63 :=
      Nat.lt_of_le_of_lt (Nat.mul_le_mul_right _ hle) hfits'
    obtain ⟨-, -, hcounted, -⟩ := horder.report (by omega) hcount id config bench.1.tick.1
      (bench₁.1.writeTrace id s'.trace.reverse).tick.1
    have hnone : s'.failures = 0 := by
      rw [hfailures, Int64.toInt_zero] at hcounted
      exact_mod_cast hcounted.symm
    have hrecorded : s'.population.size = s'.rounds * config.offspring.toInt.toNat := by
      obtain ⟨⟨pool, hbalanced⟩, hevaluations⟩ := horder
      have hsum := hbalanced.recorded
      omega
    have hdvd' : config.offspring.toInt.toNat ∣ s'.population.volume := by
      rw [hn] at hdvd ⊢
      exact Int.natCast_dvd_natCast.mp hdvd
    have hrest : config.offspring.toInt.toNat ∣ s'.population.volume - s'.population.size :=
      Nat.dvd_sub hdvd' (hrecorded ▸ Nat.dvd_mul_left _ _)
    have hzero := Nat.eq_zero_of_dvd_of_lt hrest (by omega)
    dsimp only
    omega

/-- A die with three faces, two of which to start with. -/
def die : Space :=
  ⟨[{ name := "face", domain := .choice [.int 1, .int 2, .int 3], seeds := [.int 1, .int 2] }]⟩

/-- Three rounds with batches of two. -/
def pairs : Config :=
  { Config.standard with rounds := 3, parents := 1, offspring := 2 }

theorem die_ends : ∃ result progress bench',
    flat.run die pairs "" .never ({}, ()) = (.ok result, progress, bench') ∧
      result.exhausted = true ∧ result.population.size = 2 ∧ result.population.volume = 3 := by
  have hresult : (flat.run die pairs "" .never ({}, ())).1.toOption.map (fun result =>
      (result.exhausted, result.population.size, result.population.volume)) = some (true, 2, 3) := by
    decide +kernel
  rcases hrun : flat.run die pairs "" .never ({}, ()) with ⟨_ | result, progress, bench'⟩
  · rw [hrun] at hresult
    cases hresult
  · rw [hrun] at hresult
    obtain ⟨hexhausted, hrest⟩ := Prod.mk.inj (Option.some.inj hresult)
    obtain ⟨hsize, hvolume⟩ := Prod.mk.inj hrest
    exact ⟨result, progress, bench', rfl, hexhausted, hsize, hvolume⟩

/-- Two faces are recorded, and one is left: less than a batch needs. -/
theorem run_exhausted_die : ∃ result progress bench',
    flat.run die pairs "" .never ({}, ()) = (.ok result, progress, bench') ∧
      result.exhausted = true ∧ result.population.size ≤ result.population.volume ∧
      (result.population.volume : Int) < result.population.size + 2 := by
  obtain ⟨result, progress, bench', hrun, hexhausted, -⟩ := die_ends
  obtain ⟨hsize, hleft, -⟩ := run_exhausted hrun (by decide) hexhausted
  exact ⟨result, progress, bench', hrun, hexhausted, hsize, hleft⟩

/-- A session that stops as exhausted need not have recorded every candidate. -/
theorem not_exhausted_recorded : ¬∀ (p : Probe Unit) (space : Space) (config : Config) (id : String)
    (bench bench' : Runner × Unit) (result : SessionResult) (progress : List Progress),
    p.run space config id .never bench = (.ok result, progress, bench') → result.exhausted = true →
      result.population.size = result.population.volume := by
  intro h
  obtain ⟨result, progress, bench', hrun, hexhausted, hsize, hvolume⟩ := die_ends
  have heq := h flat die pairs "" ({}, ()) bench' result progress hrun hexhausted
  rw [hsize, hvolume] at heq
  cases heq

end Probe

end Tuning
