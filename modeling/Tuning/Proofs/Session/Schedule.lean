import Tuning.Proofs.Session.Memory
import Tuning.Proofs.Session.Traffic

/-! # Schedules of a batch

The children of a batch have keys of their own, so no measurement of a batch meets the mark or the
memory of another. In whatever order their steps are taken, each comes to what it would come to alone:
a batch ends as if its children were measured one after another. -/

namespace Tuning

/-! ## The keys of a batch -/

namespace Value

/-- Whole numbers, texts and truth values. -/
def isSimple : Value → Bool
  | int _ | signed .. | unsigned .. | text _ | bool _ => true
  | _ => false

theorem isAmbiguous_of_isSimple {v : Value} (hv : v.isSimple = true) : v.isAmbiguous = false := by
  cases v with
  | time | single | garbled => cases hv
  | _ => rfl

theorem exists_encode_of_isSimple {v : Value} (hv : v.isSimple = true) : ∃ j, v.encode = .ok j := by
  cases v with
  | int | signed | unsigned | text | bool => exact ⟨_, rfl⟩
  | _ => cases hv

end Value

/-- The atoms of every choice are whole numbers, texts or truth values. -/
def Space.IsSimple (s : Space) : Prop :=
  ∀ p ∈ s.parameters, ∀ choices, p.domain = .choice choices → ∀ v ∈ choices, v.isSimple = true

theorem Space.IsSimple.unambiguous {s : Space} (hs : s.IsSimple) :
    ∀ p ∈ s.parameters, p.domain.Unambiguous := by
  intro p hp
  have hchoice := hs p hp
  generalize p.domain = domain at hchoice
  cases domain with
  | choice choices =>
      intro u hu v _ hambiguous
      have hplain := hchoice choices rfl u (Choice.distinct_subset choices hu)
      rw [Value.isAmbiguous_of_isSimple hplain] at hambiguous
      cases hambiguous
  | _ => trivial

theorem Individual.Suits.hasDocument {s : Space} {x : Individual} (hs : s.IsSimple) (hx : x.Suits s) :
    x.HasDocument := by
  refine Candidate.exists_encode fun field hfield => ?_
  obtain ⟨p, hp, g, hg, hvalue⟩ := hx.exists_gene hfield
  have hchoice := hs p hp
  rw [hvalue]
  generalize p.domain = domain at hg hchoice
  cases hg with
  | @choice choices c hc => exact Value.exists_encode_of_isSimple (hchoice choices rfl _ hc.mem_choices)
  | discrete | permutation | factor => exact ⟨_, rfl⟩

/-- The children of a batch have keys of their own. -/
theorem Population.NewBatch.nodup_keys {p : Population} {s : Space} {batch : List Individual}
    (hs : s.IsSimple) (hnames : s.names.Nodup) (h : p.NewBatch (Individual.Suits s) batch) :
    (batch.map Individual.key).Nodup := by
  rw [List.Nodup, List.pairwise_map]
  refine h.distinct.imp_of_mem fun {x y} hx hy hdiffer hkey => ?_
  have hsame := Individual.same_of_key_eq hs.unambiguous hnames (h.all x hx) (h.all y hy)
    ((h.all x hx).hasDocument hs) hkey
  rw [hsame] at hdiffer
  cases hdiffer

theorem Runner.scopedKey_injective (identity : String) :
    Function.Injective (Runner.scopedKey identity) := by
  intro key key' h
  simpa [Runner.scopedKey] using h

/-! ## One measurement among others -/

/-- What comes of a measurement that meets no mark, by what is remembered when it looks. -/
def Outcome.of (name : String) (result : Except Failure Float) : Option Float → Outcome
  | some fitness => .scored fitness true
  | none =>
    match judge name result with
    | .ok fitness => .scored fitness false
    | .error error => .failed error

namespace Phase

/-- The fitness that a measurement has added to the memory. -/
def added? : Phase → Option Float
  | remembered fitness | done (.scored fitness false) => some fitness
  | _ => none

/-- The phases of a measurement that meets no mark. -/
inductive Foreseen (name : String) (result : Except Failure Float) (recalled : Option Float) :
    Phase → Prop
  | begun : Foreseen name result recalled .begun
  | missed (h : recalled = none) : Foreseen name result recalled .missed
  | evaluating (h : recalled = none) : Foreseen name result recalled .evaluating
  | evaluated (h : recalled = none) : Foreseen name result recalled (.evaluated result)
  | remembered {fitness : Float} (h : recalled = none) (hjudge : judge name result = .ok fitness) :
      Foreseen name result recalled (.remembered fitness)
  | done : Foreseen name result recalled (.done (.of name result recalled))

theorem Foreseen.of_eq {name : String} {result : Except Failure Float} {recalled : Option Float}
    {outcome : Outcome} (h : .of name result recalled = outcome) :
    Foreseen name result recalled (.done outcome) :=
  h ▸ .done

/-- An upper bound for the steps that are left. -/
def left : Phase → Nat
  | begun => 5
  | missed => 4
  | evaluating => 3
  | evaluated _ => 2
  | remembered _ => 1
  | done _ => 0

end Phase

namespace Call

variable {c : Call} {φ φ' : Phase} {r r' : Runner}

theorem Step.now_eq (h : c.Step φ r φ' r') : r'.now = r.now := by
  cases h with
  | mark hmark =>
      obtain ⟨last, rfl⟩ := Runner.mark_eq_some hmark
      rfl
  | _ => rfl

/-- A step leaves the memory of other keys alone, and marks none of them. -/
theorem Step.frame (h : c.Step φ r φ' r') {key : String} (hkey : key ≠ c.key) :
    r'.memo.get? key = r.memo.get? key ∧
      (key ∈ r'.inFlight.map (·.1) → key ∈ r.inFlight.map (·.1)) := by
  have hrelease : key ∈ (r.release c.key).inFlight.map (·.1) → key ∈ r.inFlight.map (·.1) := by
    rw [Runner.marks_release]
    intro hmem
    exact (List.mem_filter.mp hmem).1
  cases h with
  | mark hmark =>
      obtain ⟨last, rfl⟩ := Runner.mark_eq_some hmark
      refine ⟨rfl, fun hmem => ?_⟩
      rw [List.map_cons, List.mem_cons] at hmem
      exact hrelease (hmem.resolve_left hkey)
  | remember hjudge =>
      rw [Runner.memo_remember, if_neg hkey.symm]
      exact ⟨rfl, id⟩
  | release => exact ⟨rfl, hrelease⟩
  | drop hjudge => exact ⟨rfl, hrelease⟩
  | _ => exact ⟨rfl, id⟩

/-- A step marks no key but its own. -/
theorem Step.marks (h : c.Step φ r φ' r') {key : String} (hmem : key ∈ r'.inFlight.map (·.1)) :
    key = c.key ∨ key ∈ r.inFlight.map (·.1) := by
  by_cases hkey : key = c.key
  · exact .inl hkey
  · exact .inr ((h.frame hkey).2 hmem)

theorem Step.left_lt (h : c.Step φ r φ' r') : φ'.left < φ.left := by
  cases h <;> simp [Phase.left]

/-- A measurement that has not ended can take a step. -/
theorem exists_step (hc : ∃ result, c.results result) (hφ : φ.outcome? = none) (r : Runner) :
    ∃ φ' r', c.Step φ r φ' r' := by
  cases φ with
  | begun =>
      cases hlookup : r.lookup c.key with
      | none => exact ⟨_, _, .miss hlookup⟩
      | some fitness => exact ⟨_, _, .find hlookup⟩
  | missed =>
      cases hmark : r.mark c.key with
      | none => exact ⟨_, _, .refuse hmark⟩
      | some marked => exact ⟨_, _, .mark hmark⟩
  | evaluating =>
      obtain ⟨result, hresult⟩ := hc
      exact ⟨_, _, .evaluate hresult⟩
  | evaluated result =>
      cases hjudge : judge c.name result with
      | ok fitness => exact ⟨_, _, .remember hjudge⟩
      | error error => exact ⟨_, _, .drop hjudge⟩
  | remembered fitness => exact ⟨_, _, .release⟩
  | done outcome => cases hφ

variable {T : Instant → Prop} {r₀ : Runner} {score : Candidate → Except Failure Float}

/-- The result of the evaluation is settled by the candidate, and so is what is remembered at the
times in question by what is remembered at first. -/
structure Settled (T : Instant → Prop) (r₀ : Runner) (score : Candidate → Except Failure Float)
    (c : Call) : Prop where
  results : ∀ result, c.results result ↔ result = score c.individual.candidate
  lookup : ∀ t, T t → ({ r₀ with now := t } : Runner).lookup c.key = r₀.lookup c.key

/-- A measurement that has gone as it goes alone, from a runner on which its key was not marked. -/
structure OnCourse (T : Instant → Prop) (r₀ : Runner) (score : Candidate → Except Failure Float)
    (c : Call) (φ : Phase) (r : Runner) : Prop where
  phase : φ.Foreseen c.name (score c.individual.candidate) (r₀.lookup c.key)
  kept : φ.added? = none → r.memo.get? c.key = r₀.memo.get? c.key
  added : ∀ fitness, φ.added? = some fitness →
    ∃ t, T t ∧ r.memo.get? c.key = some ⟨fitness, t.later Runner.memoTime⟩
  free : φ.holds = false → c.key ∉ r.inFlight.map (·.1)

/-- The course of a measurement depends on the memory and the marks of its own key only. -/
theorem OnCourse.congr (h : c.OnCourse T r₀ score φ r)
    (hmemo : r'.memo.get? c.key = r.memo.get? c.key)
    (hmarks : c.key ∈ r'.inFlight.map (·.1) → c.key ∈ r.inFlight.map (·.1)) :
    c.OnCourse T r₀ score φ r' where
  phase := h.phase
  kept := by rw [hmemo]; exact h.kept
  added := by rw [hmemo]; exact h.added
  free hφ hmem := h.free hφ (hmarks hmem)

theorem key_not_mem_release : c.key ∉ (r.release c.key).inFlight.map (·.1) := by
  simp [Runner.marks_release]

theorem OnCourse.step (h : c.OnCourse T r₀ score φ r) (hc : c.Settled T r₀ score) (hnow : T r.now)
    (hstep : c.Step φ r φ' r') : c.OnCourse T r₀ score φ' r' := by
  obtain ⟨hphase, hkept, hadded, hfree⟩ := h
  -- when it looks, nothing was added under its key, so it sees what was remembered at first
  have hlookup : φ = .begun → r.lookup c.key = r₀.lookup c.key := by
    rintro rfl
    rw [← hc.lookup r.now hnow, Runner.lookup, hkept rfl, Runner.lookup]
  cases hstep with
  | find hfound =>
      rw [hlookup rfl] at hfound
      exact ⟨.of_eq (by rw [hfound]; rfl), fun _ => hkept rfl, nofun, fun _ => hfree rfl⟩
  | miss hmissed =>
      rw [hlookup rfl] at hmissed
      exact ⟨.missed hmissed, fun _ => hkept rfl, nofun, fun _ => hfree rfl⟩
  | refuse hmark =>
      have hmarked := Runner.mem_of_isMarked (Runner.mark_eq_none.mp hmark)
      exact absurd hmarked (hfree rfl)
  | mark hmark =>
      cases hphase with
      | missed hmissed =>
          obtain ⟨last, rfl⟩ := Runner.mark_eq_some hmark
          exact ⟨.evaluating hmissed, fun _ => hkept rfl, nofun, nofun⟩
  | evaluate hresult =>
      cases hphase with
      | evaluating hmissed =>
          obtain rfl := (hc.results _).mp hresult
          exact ⟨.evaluated hmissed, fun _ => hkept rfl, nofun, nofun⟩
  | @remember _ _ fitness hjudge =>
      cases hphase with
      | evaluated hmissed =>
          refine ⟨.remembered hmissed hjudge, nofun, ?_, nofun⟩
          intro fitness' heq
          obtain rfl := Option.some.inj heq
          exact ⟨r.now, hnow, by rw [Runner.memo_remember, if_pos rfl]⟩
  | release =>
      cases hphase with
      | remembered hmissed hjudge =>
          exact ⟨.of_eq (by rw [hmissed, Outcome.of, hjudge]), nofun, hadded,
            fun _ => key_not_mem_release⟩
  | drop hjudge =>
      cases hphase with
      | evaluated hmissed =>
          exact ⟨.of_eq (by rw [hmissed, Outcome.of, hjudge]), fun _ => hkept rfl, nofun,
            fun _ => key_not_mem_release⟩

end Call

/-! ## The measurements of a batch -/

namespace Traffic

/-- A measurement takes a step, or time moves to another of the times in question. -/
inductive Moves (T : Instant → Prop) : Traffic → Traffic → Prop
  | act {i : Nat} {σ τ : Traffic} (h : σ.Acts i τ) : Moves T σ τ
  | wait (σ : Traffic) (t : Instant) (h : T t) :
      Moves T σ { σ with runner := { σ.runner with now := t } }

/-- Measurements that were begun take steps in some order. -/
abbrev Schedule (T : Instant → Prop) : Traffic → Traffic → Prop :=
  Relation.ReflTransGen (Moves T)

/-- An upper bound for the steps that are left. -/
def left (σ : Traffic) : Nat :=
  (σ.calls.map (·.2.left)).sum

variable {T : Instant → Prop} {r₀ : Runner} {score : Candidate → Except Failure Float}
  {σ τ : Traffic} {i : Nat}

theorem Acts.calls_eq (h : σ.Acts i τ) : τ.calls.map (·.1) = σ.calls.map (·.1) := by
  obtain ⟨front, back, -⟩ := h
  simp

theorem Acts.left_lt (h : σ.Acts i τ) : τ.left < σ.left := by
  obtain ⟨front, back, hstep⟩ := h
  have hlt := hstep.left_lt
  simp only [left, List.map_append, List.map_cons, List.sum_append, List.sum_cons]
  omega

theorem Schedule.calls_eq (h : Schedule T σ τ) : τ.calls.map (·.1) = σ.calls.map (·.1) := by
  induction h with
  | refl => rfl
  | tail _ hmove ih =>
      cases hmove with
      | act hacts => exact hacts.calls_eq.trans ih
      | wait _ t _ => exact ih

/-- Measurements with keys of their own that have gone as they go alone. -/
structure OnCourse (T : Instant → Prop) (r₀ : Runner) (score : Candidate → Except Failure Float)
    (σ : Traffic) : Prop where
  now : T σ.runner.now
  settled : ∀ c ∈ σ.calls.map (·.1), c.Settled T r₀ score
  distinct : ((σ.calls.map (·.1)).map Call.key).Nodup
  course : ∀ call ∈ σ.calls, call.1.OnCourse T r₀ score call.2 σ.runner
  memo : ∀ key, key ∉ (σ.calls.map (·.1)).map Call.key →
    σ.runner.memo.get? key = r₀.memo.get? key
  marks : ∀ key ∈ σ.runner.inFlight.map (·.1), key ∈ (σ.calls.map (·.1)).map Call.key

theorem onCourse_start {calls : List Call} (hnow : T r₀.now) (hfree : r₀.inFlight = [])
    (hsettled : ∀ c ∈ calls, c.Settled T r₀ score) (hdistinct : (calls.map Call.key).Nodup) :
    OnCourse T r₀ score ⟨r₀, calls.map (·, .begun)⟩ := by
  have hcalls : (calls.map (·, Phase.begun)).map (·.1) = calls := by
    simp [Function.comp_def]
  refine ⟨hnow, ?_, ?_, ?_, fun _ _ => rfl, ?_⟩
  · rwa [hcalls]
  · rwa [hcalls]
  · intro call hcall
    obtain ⟨c, -, rfl⟩ := List.mem_map.mp hcall
    exact ⟨.begun, fun _ => rfl, nofun, by simp [hfree]⟩
  · simp [hfree]

theorem OnCourse.acts (h : σ.OnCourse T r₀ score) (hacts : σ.Acts i τ) : τ.OnCourse T r₀ score := by
  have hcalls := hacts.calls_eq
  obtain @⟨front, back, c, φ, φ', r, r', hstep⟩ := hacts
  have hc : c ∈ (front ++ (c, φ) :: back).map (·.1) := by simp
  have hnow : T r'.now := by
    rw [hstep.now_eq]
    exact h.now
  refine ⟨hnow, ?_, ?_, ?_, ?_, ?_⟩
  · rw [hcalls]
    exact h.settled
  · rw [hcalls]
    exact h.distinct
  · intro call hcall
    by_cases hown : call = (c, φ')
    · rw [hown]
      exact (h.course (c, φ) (by simp)).step (h.settled c hc) h.now hstep
    · -- another measurement has another key, so the step leaves its course alone
      have hother : call ∈ front ++ back := by
        simpa [hown] using hcall
      have hkey : call.1.key ≠ c.key := by
        have hdistinct := h.distinct
        rw [List.map_map, List.map_append, List.map_cons, List.nodup_middle, List.nodup_cons,
          ← List.map_append] at hdistinct
        exact ne_of_mem_of_not_mem (List.mem_map_of_mem (f := Call.key ∘ (·.1)) hother) hdistinct.1
      obtain ⟨hmemo, hmarks⟩ := hstep.frame hkey
      have hbefore : call ∈ front ++ (c, φ) :: back := by
        simp only [List.mem_append, List.mem_cons] at hother ⊢
        exact hother.imp_right .inr
      exact (h.course call hbefore).congr hmemo hmarks
  · rw [hcalls]
    intro key hkey
    have hne : key ≠ c.key := fun heq => hkey (heq ▸ List.mem_map_of_mem hc)
    exact ((hstep.frame hne).1).trans (h.memo key hkey)
  · rw [hcalls]
    intro key hkey
    rcases hstep.marks hkey with rfl | hkey
    · exact List.mem_map_of_mem hc
    · exact h.marks key hkey

theorem OnCourse.moves (h : σ.OnCourse T r₀ score) (hmove : Moves T σ τ) :
    τ.OnCourse T r₀ score := by
  cases hmove with
  | act hacts => exact h.acts hacts
  | wait _ t ht =>
      refine ⟨ht, h.settled, h.distinct, ?_, h.memo, h.marks⟩
      intro call hcall
      exact (h.course call hcall).congr rfl id

theorem OnCourse.schedule (h : σ.OnCourse T r₀ score) (hschedule : Schedule T σ τ) :
    τ.OnCourse T r₀ score := by
  induction hschedule with
  | refl => exact h
  | tail _ hmove ih => exact ih.moves hmove

/-- Whatever was done so far, all measurements can end. -/
theorem OnCourse.exists_ended (h : σ.OnCourse T r₀ score) : ∃ τ, Schedule T σ τ ∧ τ.Ended := by
  induction hleft : σ.left using Nat.strong_induction_on generalizing σ with
  | _ n ih =>
      by_cases hended : σ.Ended
      · exact ⟨σ, .refl, hended⟩
      · simp only [Ended, not_forall] at hended
        obtain ⟨⟨c, φ⟩, hcall, hopen⟩ := hended
        obtain ⟨r, calls⟩ := σ
        obtain ⟨front, back, rfl⟩ := List.append_of_mem hcall
        have hresults := (h.settled c (List.mem_map_of_mem hcall)).results
        obtain ⟨φ', r', hstep⟩ := Call.exists_step ⟨_, (hresults _).mpr rfl⟩ (by simpa using hopen) r
        have hacts := Acts.step front back hstep
        obtain ⟨τ, hτ, hended⟩ := ih _ (hleft ▸ hacts.left_lt) (h.acts hacts) rfl
        exact ⟨τ, .head (.act hacts) hτ, hended⟩

/-- The outcomes of measurements that have ended are settled by what was remembered at first. -/
theorem OnCourse.calls_eq (h : σ.OnCourse T r₀ score) (hended : σ.Ended) :
    σ.calls = (σ.calls.map (·.1)).map fun c =>
      (c, .done (.of c.name (score c.individual.candidate) (r₀.lookup c.key))) := by
  rw [List.map_map]
  refine (List.map_id _).symm.trans (List.map_congr_left fun call hcall => ?_)
  obtain ⟨c, φ⟩ := call
  have hended : φ.outcome?.isSome = true := hended (c, φ) hcall
  have hphase : φ.Foreseen c.name (score c.individual.candidate) (r₀.lookup c.key) :=
    (h.course (c, φ) hcall).phase
  cases hphase with
  | done => rfl
  | _ => cases hended

theorem OnCourse.free (h : σ.OnCourse T r₀ score) (hended : σ.Ended) : σ.runner.inFlight = [] := by
  rw [← List.map_eq_nil_iff, List.eq_nil_iff_forall_not_mem]
  intro key hkey
  have hcalls := h.marks key hkey
  rw [List.map_map] at hcalls
  obtain ⟨call, hcall, rfl⟩ := List.mem_map.mp hcalls
  exact (h.course call hcall).free (Phase.holds_eq_false (hended call hcall)) hkey

/-- What is remembered in the end is, key by key, what is remembered when nothing takes time. -/
theorem OnCourse.exists_memo_eq (h : σ.OnCourse T r₀ score) {ρ : Instant → Traffic}
    (hρ : ∀ t, T t → (ρ t).OnCourse (· = t) { r₀ with now := t } score)
    (hcalls : ∀ t, T t → (ρ t).calls = σ.calls) (key : String) :
    ∃ t, T t ∧ σ.runner.memo.get? key = (ρ t).runner.memo.get? key := by
  have hnow := h.now
  by_cases hkey : key ∈ (σ.calls.map (·.1)).map Call.key
  · rw [List.map_map] at hkey
    obtain ⟨call, hcall, rfl⟩ := List.mem_map.mp hkey
    have hcall' : ∀ t, T t → call ∈ (ρ t).calls := fun t ht => by rwa [hcalls t ht]
    cases hadded : call.2.added? with
    | none =>
        refine ⟨σ.runner.now, hnow, ?_⟩
        exact ((h.course call hcall).kept hadded).trans
          (((hρ _ hnow).course call (hcall' _ hnow)).kept hadded).symm
    | some fitness =>
        obtain ⟨t, ht, hmemo⟩ := (h.course call hcall).added fitness hadded
        obtain ⟨u, rfl, hmemo'⟩ := ((hρ t ht).course call (hcall' t ht)).added fitness hadded
        exact ⟨u, ht, hmemo.trans hmemo'.symm⟩
  · refine ⟨σ.runner.now, hnow, (h.memo key hkey).trans ?_⟩
    exact ((hρ _ hnow).memo key (by rwa [hcalls _ hnow])).symm

end Traffic

/-! ## One after another -/

theorem Call.Runs.schedule {T : Instant → Prop} {c : Call} {start stop : Phase × Runner}
    (h : c.Runs start stop) (front back : List (Call × Phase)) :
    Traffic.Schedule T ⟨start.2, front ++ (c, start.1) :: back⟩
      ⟨stop.2, front ++ (c, stop.1) :: back⟩ := by
  induction h with
  | refl => exact .refl
  | tail _ hstep ih => exact ih.tail (.act (.step front back hstep))

/-- Measuring one after another is a schedule. -/
theorem Session.measureBatch_schedule {ε : Type} {q : Probe ε} {limit : Duration}
    (hq : ∀ c bench, (q.evaluate (.within none limit) c bench).2.1 = bench.1)
    (T : Instant → Prop) (task : Nat) (front : List (Call × Phase)) (xs : List Individual)
    (bench : Runner × ε) :
    ∃ calls : List (Call × Phase),
      Traffic.Schedule T
        ⟨bench.1, front ++ (xs.map (q.call (.within none limit))).map (·, .begun)⟩
        ⟨(measureBatch q limit .never task xs bench).2.1, front ++ calls⟩ ∧
      calls.map (·.2.outcome?) = (measureBatch q limit .never task xs bench).1 ∧
      ∀ call ∈ calls, call.2.outcome?.isSome = true := by
  induction xs generalizing task front bench with
  | nil => exact ⟨[], .refl, rfl, nofun⟩
  | cons x xs ih =>
      have hfirst := (Probe.measure_runs hq x bench).schedule (T := T) front
        ((xs.map (q.call (.within none limit))).map (·, .begun))
      obtain ⟨calls, hrest, houtcomes, hended⟩ := ih (task + 1)
        (front ++ [(q.call (.within none limit) x,
          .done (q.measure (.within none limit) x bench).1)])
        (q.measure (.within none limit) x bench).2
      refine ⟨(q.call (.within none limit) x, .done (q.measure (.within none limit) x bench).1) ::
        calls, ?_, congrArg _ houtcomes, List.forall_mem_cons.mpr ⟨rfl, hended⟩⟩
      rw [List.append_assoc, List.append_assoc] at hrest
      exact hfirst.trans hrest

/-- Two measurements of one key look before either is marked. The second one is refused. -/
theorem Traffic.exists_overlap (T : Instant → Prop) {c d : Call} {r : Runner}
    {result : Except Failure Float} {fitness : Float} (hkey : d.key = c.key)
    (hlookup : r.lookup c.key = none) (hfree : r.inFlight = []) (hresult : c.results result)
    (hjudge : judge c.name result = .ok fitness) :
    ∃ r', Schedule T ⟨r, [(c, .begun), (d, .begun)]⟩
      ⟨r', [(c, .done (.scored fitness false)), (d, .done (.failed (.busy d.individual.key)))]⟩ := by
  have hmark : r.mark c.key =
      some { r with inFlight := [(c.key, r.now.later Runner.markTime)] } := by
    simp [Runner.mark, Runner.isMarked, Runner.release, hfree]
  have hrefuse : ({ r with inFlight := [(c.key, r.now.later Runner.markTime)] } : Runner).mark d.key =
      none := by
    simp [Runner.mark, Runner.isMarked, hkey, Instant.not_before_later]
  have hfirst : Schedule T ⟨r, [(c, .begun), (d, .begun)]⟩ ⟨r, [(c, .missed), (d, .begun)]⟩ :=
    .single (.act (.step [] _ (.miss hlookup)))
  have hsecond := hfirst.tail (.act (.step [(c, .missed)] [] (.miss (hkey ▸ hlookup))))
  have hmarked := hsecond.tail (.act (.step [] _ (.mark hmark)))
  have hrefused := hmarked.tail (.act (.step [(c, .evaluating)] [] (.refuse hrefuse)))
  have hevaluated := hrefused.tail (.act (.step [] _ (.evaluate hresult)))
  have hremembered := hevaluated.tail (.act (.step [] _ (.remember hjudge)))
  exact ⟨_, hremembered.tail (.act (.step [] _ .release))⟩

namespace Probe

variable {ε : Type} {q : Probe ε} {limit : Duration} {score : Candidate → Except Failure Float}
  {batch : List Individual} {r : Runner}

/-- Under a context the result of an evaluation depends on the candidate only, and the runner is left
alone. -/
def ScoresBy (q : Probe ε) (context : Context) (score : Candidate → Except Failure Float) : Prop :=
  ∀ c bench, (q.evaluate context c bench).1 = score c ∧ (q.evaluate context c bench).2.1 = bench.1

theorem ScoresBy.settled {context : Context} (hq : q.ScoresBy context score) (e : ε)
    {T : Instant → Prop} {x : Individual}
    (hmemo : ∀ t, T t → ({ r with now := t } : Runner).lookup (Runner.scopedKey q.identity x.key) =
      r.lookup (Runner.scopedKey q.identity x.key)) :
    (q.call context x).Settled T r score where
  results result := by
    constructor
    · rintro ⟨bench, rfl⟩
      exact (hq _ bench).1
    · rintro rfl
      exact ⟨(r, e), (hq _ _).1⟩
  lookup := hmemo

theorem nodup_keys_call (hkeys : (batch.map Individual.key).Nodup) (context : Context) :
    ((batch.map (q.call context)).map Call.key).Nodup := by
  have hscoped := hkeys.map (Runner.scopedKey_injective q.identity)
  rwa [List.map_map] at hscoped ⊢

/-- Measuring one after another, while no time passes, ends on course. -/
theorem ScoresBy.exists_sequential (hq : q.ScoresBy (.within none limit) score)
    (hfree : r.inFlight = []) (hkeys : (batch.map Individual.key).Nodup) (task : Nat) (e : ε) :
    ∃ ρ : Traffic, ρ.OnCourse (· = r.now) r score ∧ ρ.Ended ∧
      ρ.calls.map (·.1) = batch.map (q.call (.within none limit)) ∧
      ρ.calls.map (·.2.outcome?) = (Session.measureBatch q limit .never task batch (r, e)).1 ∧
      ρ.runner = (Session.measureBatch q limit .never task batch (r, e)).2.1 := by
  obtain ⟨calls, hschedule, houtcomes, hended⟩ := Session.measureBatch_schedule
    (fun c bench => (hq c bench).2) (· = r.now) task [] batch (r, e)
  have hstart : Traffic.OnCourse (· = r.now) r score
      ⟨r, (batch.map (q.call (.within none limit))).map (·, .begun)⟩ := by
    refine Traffic.onCourse_start rfl hfree ?_ (nodup_keys_call hkeys _)
    intro c hc
    obtain ⟨x, -, rfl⟩ := List.mem_map.mp hc
    refine hq.settled e ?_
    rintro t rfl
    rfl
  refine ⟨_, hstart.schedule hschedule, hended, ?_, houtcomes, rfl⟩
  rw [hschedule.calls_eq]
  simp [Function.comp_def]

/-- A batch of a search in a space of simple choices is measured with an objective that goes by the
candidate, on a runner on which nothing is marked, in any order of the steps of its measurements. What
the runner remembers of the children counts at all times in question, or at none. Then the measurements
can always be brought to an end. When they have ended, the outcomes are those of measuring one after
another, nothing is marked, and every key is remembered as if the batch had been measured so at one of
these times. -/
theorem measureBatch_of_schedule {space : Space} {rate : Float} {mode : Mode} {p p' : Population}
    {pool : List Individual} {parents children : Int64} {src src' : Source}
    (hp : Population.Search space rate mode p pool)
    (hbred : p.offspring parents children src = some (.ok (batch, p'), src'))
    (hspace : space.IsSimple) (hq : q.ScoresBy (.within none limit) score)
    (hfree : r.inFlight = []) {T : Instant → Prop} (hnow : T r.now)
    (hmemo : ∀ t, T t → ∀ x ∈ batch,
      ({ r with now := t } : Runner).lookup (Runner.scopedKey q.identity x.key) =
        r.lookup (Runner.scopedKey q.identity x.key))
    (task : Nat) (e : ε) {σ : Traffic}
    (hσ : Traffic.Schedule T ⟨r, (batch.map (q.call (.within none limit))).map (·, .begun)⟩ σ) :
    (∃ τ, Traffic.Schedule T σ τ ∧ τ.Ended) ∧
      (σ.Ended →
        σ.calls.map (·.2.outcome?) = (Session.measureBatch q limit .never task batch (r, e)).1 ∧
        σ.runner.inFlight = [] ∧
        ∀ key, ∃ t, T t ∧ σ.runner.memo.get? key =
          (Session.measureBatch q limit .never task batch
            ({ r with now := t }, e)).2.1.memo.get? key) := by
  have hnew := (Population.breed_new space.law_suits (hp.fitting space.law_suits).1
    (Population.offspring_eq_ok hbred).2).1
  obtain ⟨start, t, t', hmake⟩ := hp.exists_make
  have hkeys := hnew.nodup_keys hspace (Space.nodup_names (Population.make_eq_ok hmake).1)
  have hsettled : ∀ c ∈ batch.map (q.call (.within none limit)), c.Settled T r score := by
    intro c hc
    obtain ⟨x, hx, rfl⟩ := List.mem_map.mp hc
    exact hq.settled e fun t ht => hmemo t ht x hx
  have hcourse := (Traffic.onCourse_start hnow hfree hsettled (nodup_keys_call hkeys _)).schedule hσ
  refine ⟨hcourse.exists_ended, fun hended => ?_⟩
  choose ρ hρ hρended hρcalls hρoutcomes hρrunner using fun t : Instant =>
    hq.exists_sequential (r := { r with now := t }) hfree hkeys task e
  have hcalls : σ.calls.map (·.1) = batch.map (q.call (.within none limit)) := by
    rw [hσ.calls_eq]
    simp [Function.comp_def]
  have hsame : ∀ t, T t → (ρ t).calls = σ.calls := by
    intro t ht
    rw [(hρ t).calls_eq (hρended t), hcourse.calls_eq hended, hρcalls, hcalls]
    refine List.map_congr_left fun c hc => ?_
    rw [(hsettled c hc).lookup t ht]
  refine ⟨?_, hcourse.free hended, fun key => ?_⟩
  · rw [← hsame r.now hnow]
    exact hρoutcomes r.now
  · obtain ⟨t, ht, hkey⟩ := hcourse.exists_memo_eq (fun t _ => hρ t) hsame key
    exact ⟨t, ht, by rw [hkey, hρrunner]⟩

theorem seededCoin_isSimple : seededCoin.IsSimple := by
  intro q hq choices hchoices
  obtain rfl := List.mem_singleton.mp hq
  obtain rfl := Domain.choice.inj hchoices
  decide

theorem flat_scoresBy : flat.ScoresBy (.within none oneRound.evalTimeout) fun _ => .ok 1 :=
  fun _ _ => ⟨rfl, rfl⟩

/-- Both sides of a coin, the second of which looks first; the clock may show anything. -/
theorem measureBatch_of_schedule_flat : ∃ (batch : List Individual) (τ : Traffic),
    batch.length = 2 ∧
    Traffic.Schedule (fun _ => True)
      ⟨{}, (batch.map (flat.call (.within none oneRound.evalTimeout))).map (·, .begun)⟩ τ ∧
    τ.Ended ∧
    τ.calls.map (·.2.outcome?) =
      (Session.measureBatch flat oneRound.evalTimeout .never 0 batch ({}, ())).1 ∧
    τ.runner.inFlight = [] := by
  obtain ⟨p, source, batch, p', source', hmake, hbred⟩ :
      ∃ p source batch p' source',
        Population.make seededCoin 0.5 .maximize (.ofSeed 0) = some (.ok p, source) ∧
        p.offspring 1 2 source = some (.ok (batch, p'), source') :=
    ⟨_, _, _, _, _, rfl, rfl⟩
  have hp := Population.Search.start hmake
  have hlength : batch.length = 2 := (Population.breed_new seededCoin.law_true
    (hp.fitting seededCoin.law_true).1 (Population.offspring_eq_ok hbred).2).2
  obtain ⟨heads, tails, rfl⟩ := List.length_eq_two.mp hlength
  have hagrees := fun σ => measureBatch_of_schedule (σ := σ) hp hbred seededCoin_isSimple
    flat_scoresBy (r := {}) rfl (T := fun _ => True) trivial (fun _ _ _ _ => rfl) 0 ()
  have hlooked := Traffic.Moves.act (T := fun _ => True) (.step
    [(flat.call (.within none oneRound.evalTimeout) heads, .begun)] []
    (.miss (c := flat.call (.within none oneRound.evalTimeout) tails) (r := {}) rfl))
  obtain ⟨⟨τ, hrest, hended⟩, -⟩ := hagrees _ (.single hlooked)
  have hschedule := Relation.ReflTransGen.head hlooked hrest
  obtain ⟨houtcomes, hmarks, -⟩ := (hagrees τ hschedule).2 hended
  exact ⟨[heads, tails], τ, rfl, hschedule, hended, houtcomes, hmarks⟩

/-- An individual was measured an hour ago, so that its fitness counts for the last moment. -/
def anHourAfter (x : Individual) : Runner :=
  { ({} : Runner).remember (Runner.scopedKey flat.identity x.key) 1 with
    now := Instant.zero.later Runner.memoTime }

/-- Texts with stray bytes share a key. The second is refused if it looks before the first is marked,
and is remembered if it looks after the first has ended. And what a runner remembers may cease to count
before a measurement looks. -/
theorem schedules_differ :
    (∃ p source batch p' source' τ,
      Population.make Individual.strayBytes 0.5 .maximize (.ofSeed 0) = some (.ok p, source) ∧
      p.offspring 1 2 source = some (.ok (batch, p'), source') ∧
      Traffic.Schedule (fun _ => True)
        ⟨{}, (batch.map (flat.call (.within none oneRound.evalTimeout))).map (·, .begun)⟩ τ ∧
      τ.Ended ∧
      τ.calls.map (·.2.outcome?) ≠
        (Session.measureBatch flat oneRound.evalTimeout .never 0 batch ({}, ())).1) ∧
    ∃ p source x y p' source' τ,
      Population.make seededCoin 0.5 .maximize (.ofSeed 0) = some (.ok p, source) ∧
      p.offspring 1 2 source = some (.ok ([x, y], p'), source') ∧
      Traffic.Schedule (fun _ => True)
        ⟨anHourAfter x, ([x, y].map (flat.call (.within none oneRound.evalTimeout))).map (·, .begun)⟩ τ ∧
      τ.Ended ∧
      τ.calls.map (·.2.outcome?) ≠
        (Session.measureBatch flat oneRound.evalTimeout .never 0 [x, y] (anHourAfter x, ())).1 := by
  constructor
  · obtain ⟨p, source, x, y, p', source', hmake, hbred, hkey, hremembered⟩ :
        ∃ p source x y p' source',
          Population.make Individual.strayBytes 0.5 .maximize (.ofSeed 0) = some (.ok p, source) ∧
          p.offspring 1 2 source = some (.ok ([x, y], p'), source') ∧ y.key = x.key ∧
          (Session.measureBatch flat oneRound.evalTimeout .never 0 [x, y] ({}, ())).1 =
            [some (.scored 1 false), some (.scored 1 true)] :=
      ⟨_, _, _, _, _, _, rfl, rfl, rfl, rfl⟩
    have hresult : (flat.call (.within none oneRound.evalTimeout) x).results (.ok 1) :=
      ⟨({}, ()), rfl⟩
    obtain ⟨r, hschedule⟩ := Traffic.exists_overlap (fun _ => True) (r := {})
      (c := flat.call (.within none oneRound.evalTimeout) x)
      (d := flat.call (.within none oneRound.evalTimeout) y)
      (congrArg (Runner.scopedKey flat.identity) hkey) rfl rfl hresult rfl
    refine ⟨p, source, [x, y], p', source', _, hmake, hbred, hschedule, ?_, ?_⟩
    · simp [Traffic.Ended, Phase.outcome?]
    · rw [hremembered]
      simp [Phase.outcome?]
  · obtain ⟨p, source, x, y, p', source', hmake, hbred, hremembered, hmeasured⟩ :
        ∃ p source x y p' source',
          Population.make seededCoin 0.5 .maximize (.ofSeed 0) = some (.ok p, source) ∧
          p.offspring 1 2 source = some (.ok ([x, y], p'), source') ∧
          (Session.measureBatch flat oneRound.evalTimeout .never 0 [x, y] (anHourAfter x, ())).1 =
            [some (.scored 1 true), some (.scored 1 false)] ∧
          (Session.measureBatch flat oneRound.evalTimeout .never 0 [x, y]
            ((anHourAfter x).tick.2, ())).1 = [some (.scored 1 false), some (.scored 1 false)] :=
      ⟨_, _, _, _, _, _, rfl, rfl, rfl, rfl⟩
    obtain ⟨calls, hschedule, houtcomes, hended⟩ := Session.measureBatch_schedule
      (fun c bench => (flat_scoresBy c bench).2) (fun _ => True) 0 [] [x, y] ((anHourAfter x).tick.2, ())
    refine ⟨p, source, x, y, p', source', _, hmake, hbred,
      .head (.wait _ (anHourAfter x).tick.2.now trivial) hschedule, hended, ?_⟩
    rw [List.nil_append, houtcomes, hremembered, hmeasured]
    simp

end Probe

end Tuning
