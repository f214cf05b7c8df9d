import Mathlib
import Tuning.Proofs.Session.Accounting

/-! # Measurements that share a runner

Sessions measure side by side on one runner. A measurement looks its key up, marks it, evaluates,
remembers and releases, and between any two of these steps others may take theirs. A mark belongs to
the measurement that set it, from the mark to the release, whatever the evaluation came to. -/

namespace Tuning

theorem Instant.total_later (t : Instant) (n : Nat) : (t.later n).total = t.total + n := by
  simp only [total, later]
  omega

theorem Instant.not_before_later (t : Instant) (n : Nat) : (t.later n).before t = false := by
  simp [before, total_later]

/-! ## The steps of a measurement -/

/-- Where a measurement stands. -/
inductive Phase where
  | begun
  /-- Nothing was remembered. -/
  | missed
  /-- The key is marked, and the evaluation is in progress. -/
  | evaluating
  | evaluated (result : Except Failure Float)
  /-- The fitness is remembered, and the key is still marked. -/
  | remembered (fitness : Float)
  | done (outcome : Outcome)

namespace Phase

/-- Whether the mark of the key is the measurement's own. -/
def holds : Phase → Bool
  | evaluating | evaluated _ | remembered _ => true
  | _ => false

/-- What came of a measurement that has ended. -/
def outcome? : Phase → Option Outcome
  | done outcome => some outcome
  | _ => none

/-- Whether the measurement was refused because its key was marked, or can still be. -/
def yields : Phase → Bool
  | begun | missed | done (.failed (.busy _)) => true
  | _ => false

theorem holds_eq_false {φ : Phase} (h : φ.outcome?.isSome = true) : φ.holds = false := by
  cases φ with
  | done outcome => rfl
  | _ => cases h

end Phase

/-- A measurement that a session asks for, with the results that its evaluation can have. -/
structure Call where
  name : String
  identity : String
  individual : Individual
  results : Except Failure Float → Prop

namespace Call

def key (c : Call) : String :=
  Runner.scopedKey c.identity c.individual.key

/-- A measurement takes a step on the runner. -/
inductive Step (c : Call) : Phase → Runner → Phase → Runner → Prop
  | find {r : Runner} {fitness : Float} (h : r.lookup c.key = some fitness) :
      Step c .begun r (.done (.scored fitness true)) r
  | miss {r : Runner} (h : r.lookup c.key = none) : Step c .begun r .missed r
  | refuse {r : Runner} (h : r.mark c.key = none) :
      Step c .missed r (.done (.failed (.busy c.individual.key))) r
  | mark {r r' : Runner} (h : r.mark c.key = some r') : Step c .missed r .evaluating r'
  | evaluate {r : Runner} {result : Except Failure Float} (h : c.results result) :
      Step c .evaluating r (.evaluated result) r
  | remember {r : Runner} {result : Except Failure Float} {fitness : Float}
      (h : judge c.name result = .ok fitness) :
      Step c (.evaluated result) r (.remembered fitness) (r.remember c.key fitness)
  | release {r : Runner} {fitness : Float} :
      Step c (.remembered fitness) r (.done (.scored fitness false)) (r.release c.key)
  | drop {r : Runner} {result : Except Failure Float} {error : MeasureError}
      (h : judge c.name result = .error error) :
      Step c (.evaluated result) r (.done (.failed error)) (r.release c.key)

end Call

/-- The measurement of an individual, with every result that the evaluation can have. -/
def Probe.call {ε : Type} (p : Probe ε) (context : Context) (x : Individual) : Call where
  name := p.name
  identity := p.identity
  individual := x
  results result := ∃ bench, (p.evaluate context x.candidate bench).1 = result

/-- Steps of one measurement that nothing comes between. -/
abbrev Call.Runs (c : Call) : Phase × Runner → Phase × Runner → Prop :=
  Relation.ReflTransGen fun before after => c.Step before.1 before.2 after.1 after.2

/-- A measurement on its own takes these steps from first to last, when its evaluation leaves the runner
alone. -/
theorem Probe.measure_runs {ε : Type} {p : Probe ε} {context : Context}
    (hp : ∀ c bench, (p.evaluate context c bench).2.1 = bench.1) (x : Individual)
    (bench : Runner × ε) :
    (p.call context x).Runs (.begun, bench.1)
      (.done (p.measure context x bench).1, (p.measure context x bench).2.1) := by
  unfold measure
  dsimp only
  split
  · next fitness hlookup => exact .single (.find hlookup)
  · next hlookup =>
      have hmissed : (p.call context x).Runs (.begun, bench.1) (.missed, bench.1) :=
        .single (.miss hlookup)
      split
      · next hmark => exact hmissed.tail (.refuse hmark)
      · next marked hmark =>
          have hrunner := hp x.candidate (marked, bench.2)
          have hresult : (p.call context x).results
              (p.evaluate context x.candidate (marked, bench.2)).1 := ⟨_, rfl⟩
          have hmarked : (p.call context x).Runs (.begun, bench.1) (.evaluating, marked) :=
            hmissed.tail (.mark hmark)
          have hevaluated : (p.call context x).Runs (.begun, bench.1)
              (.evaluated (p.evaluate context x.candidate (marked, bench.2)).1, marked) :=
            hmarked.tail (.evaluate hresult)
          split
          · next fitness hjudge =>
              have hremembered : (p.call context x).Runs (.begun, bench.1)
                  (.remembered fitness, marked.remember (p.call context x).key fitness) :=
                hevaluated.tail (.remember hjudge)
              rw [hrunner]
              exact hremembered.tail .release
          · next error hjudge =>
              rw [hrunner]
              exact hevaluated.tail (.drop hjudge)

theorem judge_ne_busy {name key : String} {result : Except Failure Float} :
    judge name result ≠ .error (.busy key) := by
  cases result with
  | error failure => exact nofun
  | ok fitness =>
      intro h
      unfold judge at h
      dsimp only at h
      split at h <;> cases h

/-- A measurement that is refused in the end never changes the runner. -/
theorem Call.Step.of_yields {c : Call} {φ φ' : Phase} {r r' : Runner} (h : c.Step φ r φ' r')
    (hyields : φ'.yields = true) : φ.yields = true ∧ r' = r := by
  cases h with
  | miss _ => exact ⟨rfl, rfl⟩
  | refuse _ => exact ⟨rfl, rfl⟩
  | @drop _ _ error hjudge =>
      cases error with
      | busy key => exact absurd hjudge judge_ne_busy
      | failed _ => cases hyields
      | notFinite _ _ => cases hyields
  | _ => cases hyields

/-! ## Many measurements -/

/-- A runner with the measurements that were begun on it, in the order in which they were begun. -/
structure Traffic where
  runner : Runner
  calls : List (Call × Phase)

namespace Traffic

/-- The measurement of this number takes a step. -/
inductive Acts : Nat → Traffic → Traffic → Prop
  | step (front back : List (Call × Phase)) {c : Call} {φ φ' : Phase} {r r' : Runner}
      (h : c.Step φ r φ' r') :
      Acts front.length ⟨r, front ++ (c, φ) :: back⟩ ⟨r', front ++ (c, φ') :: back⟩

/-- What can happen: some session begins a measurement, a measurement takes a step, or time passes and
files change while all marks last. -/
inductive Step : Traffic → Traffic → Prop
  | begin (σ : Traffic) (c : Call) : Step σ { σ with calls := σ.calls ++ [(c, .begun)] }
  | act {i : Nat} {σ τ : Traffic} (h : σ.Acts i τ) : Step σ τ
  | pass (σ : Traffic) (r : Runner) (hmemo : r.memo = σ.runner.memo)
      (hmarks : r.inFlight = σ.runner.inFlight)
      (hlast : ∀ mark ∈ r.inFlight, mark.2.before r.now = false) : Step σ { σ with runner := r }

abbrev Reaches : Traffic → Traffic → Prop :=
  Relation.ReflTransGen Step

/-- All measurements have ended. -/
def Ended (σ : Traffic) : Prop :=
  ∀ call ∈ σ.calls, call.2.outcome?.isSome = true

/-- The measurement of this number was refused because its key was marked. -/
def Refused (σ : Traffic) (i : Nat) : Prop :=
  ∃ c key, σ.calls[i]? = some (c, .done (.failed (.busy key)))

end Traffic

/-- The keys of the measurements that hold a mark. -/
def heldBy (calls : List (Call × Phase)) : List String :=
  (calls.filter (·.2.holds)).map (·.1.key)

theorem heldBy_congr (front back : List (Call × Phase)) (c : Call) {φ φ' : Phase}
    (h : φ.holds = φ'.holds) :
    heldBy (front ++ (c, φ) :: back) = heldBy (front ++ (c, φ') :: back) := by
  simp only [heldBy, List.filter_append, List.filter_cons, h]
  split <;> simp

theorem heldBy_of_not_holds (front back : List (Call × Phase)) (c : Call) {φ : Phase}
    (h : φ.holds = false) : heldBy (front ++ (c, φ) :: back) = heldBy (front ++ back) := by
  simp [heldBy, h]

theorem heldBy_perm (front back : List (Call × Phase)) (c : Call) {φ : Phase}
    (h : φ.holds = true) :
    (heldBy (front ++ (c, φ) :: back)).Perm (c.key :: heldBy (front ++ back)) := by
  simp [heldBy, h]

namespace Traffic

variable {σ τ υ : Traffic} {i : Nat}

/-- Every mark is held by one measurement and counts. -/
structure Owned (σ : Traffic) : Prop where
  perm : (σ.runner.inFlight.map (·.1)).Perm (heldBy σ.calls)
  nodup : (heldBy σ.calls).Nodup
  current : ∀ mark ∈ σ.runner.inFlight, mark.2.before σ.runner.now = false

end Traffic

namespace Runner

variable {r r' : Runner} {key : String}

theorem mem_of_isMarked (h : r.isMarked key = true) : key ∈ r.inFlight.map (·.1) := by
  obtain ⟨mark, hmark, hkey⟩ := List.any_eq_true.mp h
  obtain ⟨hkey, -⟩ := Bool.and_eq_true_iff.mp hkey
  exact List.mem_map.mpr ⟨mark, hmark, beq_iff_eq.mp hkey⟩

theorem isMarked_iff (h : ∀ mark ∈ r.inFlight, mark.2.before r.now = false) :
    r.isMarked key = true ↔ key ∈ r.inFlight.map (·.1) := by
  refine ⟨mem_of_isMarked, fun hmem => ?_⟩
  obtain ⟨mark, hmark, rfl⟩ := List.mem_map.mp hmem
  exact List.any_eq_true.mpr ⟨mark, hmark, by simp [h mark hmark]⟩

theorem mark_eq_none : r.mark key = none ↔ r.isMarked key = true := by
  simp [mark]

theorem marks_release : (r.release key).inFlight.map (·.1) =
    (r.inFlight.map (·.1)).filter (· ≠ key) := by
  simp [release, List.filter_map, Function.comp_def]

/-- Where all marks count, a mark is set on a key that has none. -/
theorem marks_mark (h : ∀ mark ∈ r.inFlight, mark.2.before r.now = false)
    (hmark : r.mark key = some r') :
    key ∉ r.inFlight.map (·.1) ∧ r'.inFlight.map (·.1) = key :: r.inFlight.map (·.1) ∧
      ∀ mark ∈ r'.inFlight, mark.2.before r'.now = false := by
  unfold mark at hmark
  split at hmark
  · cases hmark
  · next hfree =>
      obtain rfl := Option.some.inj hmark
      rw [isMarked_iff h] at hfree
      refine ⟨hfree, ?_, ?_⟩
      · rw [List.map_cons, marks_release, List.filter_eq_self.mpr]
        intro other hother
        simpa using ne_of_mem_of_not_mem hother hfree
      · intro mark hmem
        rcases List.mem_cons.mp hmem with rfl | hmem
        · exact Instant.not_before_later _ _
        · exact h mark (List.mem_filter.mp hmem).1

end Runner

namespace Traffic

variable {σ τ υ : Traffic} {i : Nat}

theorem Owned.keep {r : Runner} {calls : List (Call × Phase)} (h : σ.Owned)
    (hheld : heldBy calls = heldBy σ.calls) (hmarks : r.inFlight = σ.runner.inFlight)
    (hcurrent : ∀ mark ∈ r.inFlight, mark.2.before r.now = false) : Owned ⟨r, calls⟩ where
  perm := by rw [hheld, hmarks]; exact h.perm
  nodup := by rw [hheld]; exact h.nodup
  current := hcurrent

/-- A new mark belongs to the measurement that sets it. -/
theorem Owned.mark {r r' : Runner} {front back : List (Call × Phase)} {c : Call}
    (h : Owned ⟨r, front ++ (c, .missed) :: back⟩) (hmark : r.mark c.key = some r') :
    Owned ⟨r', front ++ (c, .evaluating) :: back⟩ := by
  obtain ⟨hfree, hmarks, hcurrent⟩ := Runner.marks_mark h.current hmark
  have hbefore := heldBy_of_not_holds front back c (φ := .missed) rfl
  have hafter := heldBy_perm front back c (φ := .evaluating) rfl
  have hperm := hbefore ▸ h.perm
  refine ⟨?_, ?_, hcurrent⟩
  · rw [hmarks]
    exact (hperm.cons c.key).trans hafter.symm
  · rw [hafter.nodup_iff, List.nodup_cons]
    exact ⟨fun hmem => hfree (hperm.mem_iff.mpr hmem), hbefore ▸ h.nodup⟩

/-- A release takes away the mark that the measurement holds, and no other. -/
theorem Owned.release {r : Runner} {front back : List (Call × Phase)} {c : Call} {φ φ' : Phase}
    (h : Owned ⟨r, front ++ (c, φ) :: back⟩) (hφ : φ.holds = true) (hφ' : φ'.holds = false) :
    Owned ⟨r.release c.key, front ++ (c, φ') :: back⟩ := by
  have hbefore := heldBy_perm front back c hφ
  have hafter := heldBy_of_not_holds front back c hφ'
  obtain ⟨hown, hnodup⟩ := List.nodup_cons.mp (hbefore.nodup_iff.mp h.nodup)
  refine ⟨?_, ?_, fun mark hmark => h.current mark (List.mem_filter.mp hmark).1⟩
  · have hothers : (c.key :: heldBy (front ++ back)).filter (· ≠ c.key) = heldBy (front ++ back) := by
      rw [List.filter_cons_of_neg (by simp), List.filter_eq_self]
      intro key hkey
      simpa using ne_of_mem_of_not_mem hkey hown
    rw [Runner.marks_release, hafter, ← hothers]
    exact (h.perm.trans hbefore).filter _
  · rw [hafter]
    exact hnodup

theorem Owned.acts (h : σ.Owned) (hacts : σ.Acts i τ) : τ.Owned := by
  obtain ⟨front, back, hstep⟩ := hacts
  cases hstep with
  | mark hmark => exact h.mark hmark
  | release => exact h.release rfl rfl
  | drop _ => exact h.release rfl rfl
  | _ => exact h.keep (heldBy_congr front back _ rfl) rfl h.current

theorem Owned.step (h : σ.Owned) (hstep : σ.Step τ) : τ.Owned := by
  cases hstep with
  | begin _ c => exact h.keep (by simp [heldBy, Phase.holds]) rfl h.current
  | act hacts => exact h.acts hacts
  | pass _ r _ hmarks hlast => exact h.keep rfl hmarks hlast

theorem Owned.reaches (h : σ.Owned) (hreaches : σ.Reaches τ) : τ.Owned := by
  induction hreaches with
  | refl => exact h
  | tail _ hstep ih => exact ih.step hstep

theorem Owned.start {r : Runner} (hr : r.inFlight = []) : Owned ⟨r, []⟩ := by
  constructor <;> simp [heldBy, hr]

/-- Of two measurements that hold marks, each has a key of its own. -/
theorem Owned.key_ne (h : σ.Owned) {j : Nat} {c d : Call} {φ ψ : Phase} (hij : i ≠ j)
    (hc : σ.calls[i]? = some (c, φ)) (hd : σ.calls[j]? = some (d, ψ)) (hφ : φ.holds = true)
    (hψ : ψ.holds = true) : c.key ≠ d.key := by
  have hpairs : σ.calls.Pairwise fun a b =>
      a.2.holds = true → b.2.holds = true → a.1.key ≠ b.1.key := by
    have hnodup := h.nodup
    rwa [heldBy, List.Nodup, List.pairwise_map, List.pairwise_filter] at hnodup
  obtain ⟨hi, hci⟩ := List.getElem?_eq_some_iff.mp hc
  obtain ⟨hj, hdj⟩ := List.getElem?_eq_some_iff.mp hd
  rw [List.pairwise_iff_getElem] at hpairs
  rcases Nat.lt_or_gt_of_ne hij with hlt | hgt
  · simpa [hci, hdj, hφ, hψ] using hpairs i j hi hj hlt
  · simpa [hci, hdj, hφ, hψ, eq_comm] using hpairs j i hj hi hgt

/-- Measurements that have ended leave no mark. -/
theorem Owned.free (h : σ.Owned) (hended : σ.Ended) : σ.runner.inFlight = [] := by
  have hheld : heldBy σ.calls = [] := by
    rw [heldBy, List.map_eq_nil_iff, List.filter_eq_nil_iff]
    intro call hcall
    simp [Phase.holds_eq_false (hended call hcall)]
  have hperm := h.perm
  rw [hheld] at hperm
  exact List.map_eq_nil_iff.mp hperm.eq_nil

/-! ## Refused measurements -/

theorem getElem?_append_cons_ne {α : Type} (front back : List α) (a b : α) {i : Nat}
    (h : i ≠ front.length) : (front ++ a :: back)[i]? = (front ++ b :: back)[i]? := by
  grind

/-- Before a measurement is refused it could be refused. -/
theorem Step.yields {c : Call} {φ : Phase} (hstep : σ.Step τ) (hc : σ.calls[i]? = some (c, φ)) :
    ∃ φ', τ.calls[i]? = some (c, φ') ∧ (φ'.yields = true → φ.yields = true) := by
  cases hstep with
  | begin _ d =>
      refine ⟨φ, ?_, id⟩
      rw [List.getElem?_append_left (List.getElem?_eq_some_iff.mp hc).1, hc]
  | act hacts =>
      obtain ⟨front, back, h⟩ := hacts
      by_cases hi : i = front.length
      · subst hi
        obtain ⟨rfl, rfl⟩ : _ ∧ _ := by simpa using hc
        exact ⟨_, by simp, fun hyields => (h.of_yields hyields).1⟩
      · exact ⟨φ, by rw [← hc]; exact getElem?_append_cons_ne front back _ _ hi, id⟩
  | pass _ r _ _ _ => exact ⟨φ, hc, id⟩

theorem Reaches.yields {c : Call} {φ : Phase} (hreaches : σ.Reaches τ)
    (hc : σ.calls[i]? = some (c, φ)) :
    ∃ φ', τ.calls[i]? = some (c, φ') ∧ (φ'.yields = true → φ.yields = true) := by
  induction hreaches with
  | refl => exact ⟨φ, hc, id⟩
  | tail _ hstep ih =>
      obtain ⟨φ', hφ', hback⟩ := ih
      obtain ⟨φ'', hφ'', hback'⟩ := hstep.yields hφ'
      exact ⟨φ'', hφ'', hback ∘ hback'⟩

/-- No step of a measurement that is refused in the end changes the runner. -/
theorem Acts.runner_eq_of_refused (hacts : σ.Acts i τ) (hreaches : τ.Reaches υ)
    (hrefused : υ.Refused i) : τ.runner = σ.runner := by
  obtain @⟨front, back, d, φ, φ', r, r', h⟩ := hacts
  obtain ⟨c, key, hc⟩ := hrefused
  obtain ⟨ψ, hψ, hback⟩ := hreaches.yields (i := front.length) (c := d) (φ := φ') (by simp)
  obtain ⟨-, rfl⟩ := Prod.mk.inj (Option.some.inj (hψ.symm.trans hc))
  exact (h.of_yields (hback rfl)).2

/-- A measurement is refused while another one of its key holds the mark. -/
theorem Owned.exists_holder (h : σ.Owned) (hacts : σ.Acts i τ) {c : Call} {key : String}
    (hc : τ.calls[i]? = some (c, .done (.failed (.busy key)))) :
    ∃ j d φ, j ≠ i ∧ τ.calls[j]? = some (d, φ) ∧ φ.holds = true ∧ d.key = c.key ∧
      c.key ∈ τ.runner.inFlight.map (·.1) := by
  have howned := h.acts hacts
  have hmarked : c.key ∈ τ.runner.inFlight.map (·.1) := by
    obtain ⟨front, back, hstep⟩ := hacts
    obtain ⟨rfl, rfl⟩ : _ ∧ _ := by simpa using hc
    cases hstep with
    | refuse hmark => exact (Runner.isMarked_iff h.current).mp (Runner.mark_eq_none.mp hmark)
    | drop hjudge => exact absurd hjudge judge_ne_busy
  obtain ⟨⟨d, φ⟩, hd, hkey⟩ := List.mem_map.mp (howned.perm.mem_iff.mp hmarked)
  obtain ⟨hd, hφ⟩ := List.mem_filter.mp hd
  obtain ⟨j, hj⟩ := List.mem_iff_getElem?.mp hd
  refine ⟨j, d, φ, ?_, hj, hφ, hkey, hmarked⟩
  rintro rfl
  obtain ⟨-, rfl⟩ := Prod.mk.inj (Option.some.inj (hj.symm.trans hc))
  cases hφ

/-- Sessions measure on a runner on which nothing was marked, and no mark runs out. Then evaluations
that are in progress at once have different keys. No step of a measurement that is refused changes the
runner, and the mark for which it is refused is held by another measurement. Once all measurements have
ended, whatever came of them, nothing is marked. -/
theorem measurements_exclude {r : Runner} (hr : r.inFlight = []) (hσ : Reaches ⟨r, []⟩ σ) :
    (∀ (i j : Nat) (c d : Call), i ≠ j → σ.calls[i]? = some (c, .evaluating) →
      σ.calls[j]? = some (d, .evaluating) → c.key ≠ d.key) ∧
    (∀ i τ υ, σ.Acts i τ → τ.Reaches υ → υ.Refused i → τ.runner = σ.runner) ∧
    (∀ (i : Nat) (τ : Traffic) (c : Call) (key : String), σ.Acts i τ →
      τ.calls[i]? = some (c, .done (.failed (.busy key))) →
      ∃ j d φ, j ≠ i ∧ τ.calls[j]? = some (d, φ) ∧ φ.holds = true ∧ d.key = c.key ∧
        c.key ∈ τ.runner.inFlight.map (·.1)) ∧
    (σ.Ended → σ.runner.inFlight = []) := by
  have howned := (Owned.start hr).reaches hσ
  refine ⟨?_, ?_, ?_, ?_⟩
  · intro i j c d hij hc hd
    exact howned.key_ne hij hc hd rfl rfl
  · intro i τ υ hacts hreaches hrefused
    exact hacts.runner_eq_of_refused hreaches hrefused
  · intro i τ c key hacts hc
    exact howned.exists_holder hacts hc
  · intro hended
    exact howned.free hended

/-- A measurement whose evaluation can have any result. -/
def anyResult : Call where
  name := "any"
  identity := "any"
  individual := ⟨[]⟩
  results _ := True

/-- Two measurements of the same key, of which the first evaluates and the second has found nothing. -/
theorem exists_second : ∃ marked, ({} : Runner).mark anyResult.key = some marked ∧
    marked.mark anyResult.key = none ∧
    Reaches ⟨{}, []⟩ ⟨marked, [(anyResult, .evaluating), (anyResult, .missed)]⟩ := by
  have hlookup : ({} : Runner).lookup anyResult.key = none := rfl
  refine ⟨_, rfl, ?_, ?_⟩
  · simp [Runner.mark, Runner.isMarked, Instant.not_before_later]
  · have hbegun : Reaches ⟨{}, []⟩ ⟨{}, [(anyResult, .begun), (anyResult, .begun)]⟩ :=
      (Relation.ReflTransGen.single (.begin _ anyResult)).tail (.begin _ anyResult)
    have hmissed := (hbegun.tail (.act (.step [] _ (.miss hlookup)))).tail
      (.act (.step [(anyResult, .missed)] [] (.miss hlookup)))
    exact hmissed.tail (.act (.step [] _ (.mark rfl)))

theorem measurements_exclude_twice : ∃ σ τ, Reaches ⟨{}, []⟩ σ ∧ σ.Acts 1 τ ∧ τ.Refused 1 ∧
    τ.runner = σ.runner ∧ anyResult.key ∈ τ.runner.inFlight.map (·.1) := by
  obtain ⟨marked, -, hrefuse, hσ⟩ := exists_second
  have hacts := Acts.step [(anyResult, .evaluating)] [] (.refuse hrefuse)
  obtain ⟨-, hkeeps, hholder, -⟩ := measurements_exclude rfl hσ
  have hrefused : Refused ⟨marked, [(anyResult, .evaluating),
      (anyResult, .done (.failed (.busy anyResult.individual.key)))]⟩ 1 := ⟨anyResult, _, rfl⟩
  obtain ⟨j, d, φ, -, -, -, -, hmark⟩ := hholder 1 _ _ _ hacts rfl
  exact ⟨_, _, hσ, hacts, hrefused, hkeeps 1 _ _ hacts .refl hrefused, hmark⟩

end Traffic

end Tuning
