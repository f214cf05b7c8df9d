import Mathlib
import Tuning.Baseline.Basic
import Tuning.Proofs.Decimal.Arithmetic
import Tuning.Proofs.Random.Draws
import Tuning.Proofs.Value.Doubles

/-! # The budget of a baseline

Whatever positions an optimizer asks for, a baseline calls the objective once for each candidate, and at
most as often as its budget allows. What a candidate cost the first time is what it costs from then on,
and the finding is the first of the cheapest candidates. -/

namespace Tuning

/-! ## The greatest finite double -/

namespace Baseline

open Float.Model

theorem place_worst : Double.place worst = toLex (1, toLex (971, 2 ^ 53 - 1)) := by decide +kernel

theorem worst_lt_infinity : worst < 1.0 / 0.0 := by decide +kernel

/-- No double lies between the greatest finite one and infinity. -/
theorem lt_worst {x : Float} (h : x < 1.0 / 0.0) (hx : (x == worst) = false) : x < worst := by
  have hinfinity : (1.0 / 0.0 : Float).toModel.unpack = .infinity .positive := by rfl
  obtain ⟨hnan, -, hbelow⟩ := float_lt_iff.mp h
  have hworst : worst.isNaN = false := by decide +kernel
  have hne : Double.place x ≠ Double.place worst := by
    intro heq
    rw [float_beq_iff_place.mpr ⟨hnan, hworst, heq⟩] at hx
    cases hx
  refine float_lt_iff.mpr ⟨hnan, hworst, lt_of_le_of_ne ?_ hne⟩
  rw [place_worst]
  rw [Double.place, Double.place, hinfinity] at hbelow
  rw [Double.place]
  cases hu : x.toModel.unpack with
  | infinity s => cases s <;> simp [hu, place, Prod.Lex.toLex_le_toLex] at hbelow ⊢
  | notANumber => simp [place, Prod.Lex.toLex_le_toLex]
  | zero s => simp [place, Prod.Lex.toLex_le_toLex]
  | finite s m e hm =>
      obtain ⟨hcanonical, he⟩ := canonical_of_unpack hu
      have hlt := hcanonical.mantissa_lt
      cases s with
      | negative => simp [place, Prod.Lex.toLex_le_toLex]
      | positive =>
          simp only [place, Prod.Lex.toLex_le_toLex, true_and, lt_self_iff_false, false_or]
          omega

end Baseline

/-! ## Asking for positions -/

/-- The ledger with one more lookup. -/
def Ledger.look (l : Ledger) : Ledger :=
  { l with lookups := l.lookups + 1 }

/-- A call of the objective: the candidate and what came of measuring it. -/
abbrev Gauge.Call := Candidate × Except Failure Float

namespace Gauge

variable {τ : Type}

/-- An objective that keeps the list of its calls. -/
def recorded (g : Gauge τ) : Gauge (List Gauge.Call × τ) where
  evaluate := fun context c s =>
    ((g.evaluate context c s.2).1,
      (s.1 ++ [(c, (g.evaluate context c s.2).1)], (g.evaluate context c s.2).2))

variable (g : Gauge τ) (b : Baseline) (context : Context) (template : Individual)

/-- The state after asking for positions one after another. -/
def asked (xs : List Position) (s : Ledger × τ) : Ledger × τ :=
  xs.foldl (fun s x => (g.ask b context template x s).2) s

/-- The calls of the objective that asking for positions makes. -/
def calls (xs : List Position) (t : τ) : List Gauge.Call :=
  (g.recorded.asked b context template xs ({}, ([], t))).2.1

end Gauge

/-- How a baseline that was asked for positions answers for another one. -/
structure Gauge.Answers {τ : Type} (g : Gauge τ) (b : Baseline) (context : Context)
    (template : Individual) (xs : List Position) (t : τ) (x : Position) : Prop where
  /-- A candidate that was measured costs what it cost then. -/
  known : ∀ call ∈ g.calls b context template xs t,
    call.1.key = (Baseline.individualAt template x).key →
      g.ask b context template x (g.asked b context template xs ({}, t)) =
          (b.costOf call.2, (g.asked b context template xs ({}, t)).map Ledger.look id) ∧
        g.calls b context template (xs ++ [x]) t = g.calls b context template xs t
  /-- Past the budget no other candidate is measured. -/
  spent : (∀ call ∈ g.calls b context template xs t,
      call.1.key ≠ (Baseline.individualAt template x).key) →
    (g.asked b context template xs ({}, t)).1.evaluations = b.budget →
      g.ask b context template x (g.asked b context template xs ({}, t)) =
          (Baseline.worst, (g.asked b context template xs ({}, t)).map Ledger.look id) ∧
        g.calls b context template (xs ++ [x]) t = g.calls b context template xs t
  /-- Within the budget every other candidate is. -/
  new : (∀ call ∈ g.calls b context template xs t,
      call.1.key ≠ (Baseline.individualAt template x).key) →
    (g.asked b context template xs ({}, t)).1.evaluations < b.budget →
      ∃ result,
        (g.evaluate context (Baseline.individualAt template x).candidate
          (g.asked b context template xs ({}, t)).2).1 = result ∧
        (g.ask b context template x (g.asked b context template xs ({}, t))).1 = b.costOf result ∧
        g.calls b context template (xs ++ [x]) t =
          g.calls b context template xs t ++ [((Baseline.individualAt template x).candidate, result)]

/-- The optimizer comes to the state that asking for these positions comes to. -/
def Optimizer.Asks {σ : Type} (o : Optimizer) (ask : Position → σ → Float × σ) (box : Box) (s : σ)
    (xs : List Position) : Prop :=
  (o.run ask box s).2 = xs.foldl (fun s x => (ask x s).2) s

/-! ## Cheapest calls -/

/-- The first of those that cost least. Nothing before it costs as little, and nothing after it less. -/
def FirstLeast {α : Type} (cost : α → Float) (xs : List α) (a : α) : Prop :=
  ∃ before after, xs = before ++ a :: after ∧ (∀ x ∈ before, ¬ cost x ≤ cost a) ∧
    ∀ x ∈ after, ¬ cost x < cost a

namespace FirstLeast

variable {α : Type} {cost : α → Float} {xs : List α} {a b : α}

/-- What costs no less leaves the cheapest as it is. -/
theorem append (h : FirstLeast cost xs a) (hb : ¬ cost b < cost a) : FirstLeast cost (xs ++ [b]) a := by
  obtain ⟨before, after, rfl, hbefore, hafter⟩ := h
  refine ⟨before, after ++ [b], by simp, hbefore, fun x hx => ?_⟩
  obtain hx | rfl := (by simpa using hx : x ∈ after ∨ x = b)
  · exact hafter x hx
  · exact hb

/-- What costs less than a bound that all others reach is the cheapest. -/
theorem of_lt {bound : Float} (h : ∀ x ∈ xs, ¬ cost x < bound) (hb : cost b < bound) :
    FirstLeast cost (xs ++ [b]) b :=
  ⟨xs, [], rfl, fun x hx hle => h x hx (float_lt_of_le_of_lt hle hb), by simp⟩

theorem mem (h : FirstLeast cost xs a) : a ∈ xs := by
  obtain ⟨before, after, rfl, -⟩ := h
  simp

end FirstLeast

/-! ## Accounts -/

namespace Baseline

variable {b : Baseline} {l : Ledger} {log : List Gauge.Call}

theorem best_enter (x : Individual) (result : Except Failure Float) :
    (b.enter x result l).best =
      if b.costOf result < Ledger.leastCost l then some (x, b.costOf result) else l.best := rfl

theorem leastCost_enter (x : Individual) (result : Except Failure Float) :
    Ledger.leastCost (b.enter x result l) =
      if b.costOf result < Ledger.leastCost l then b.costOf result else Ledger.leastCost l := by
  rw [Ledger.leastCost, best_enter]
  by_cases hless : b.costOf result < Ledger.leastCost l
  · rw [if_pos hless, if_pos hless]
  · rw [if_neg hless, if_neg hless]
    rfl

theorem get?_costs_enter (x : Individual) (result : Except Failure Float) (key : String) :
    (b.enter x result l).costs.get? key =
      if x.key == key then some (b.costOf result) else l.costs.get? key :=
  Std.HashMap.get?_insert

/-- What costs less than the greatest finite double was measured, and its cost gives back its fitness. -/
theorem eq_ok_of_costOf_lt {result : Except Failure Float} (h : b.costOf result < worst) :
    result = .ok (match b.mode with
      | .minimize => b.costOf result
      | .maximize => -b.costOf result) := by
  cases result with
  | error failure => exact absurd h (float_lt_irrefl _)
  | ok fitness =>
      unfold costOf cost at h ⊢
      cases hmode : b.mode with
      | minimize => rfl
      | maximize =>
          rw [hmode] at h
          have hnan : fitness.isNaN = false := isNaN_neg fitness ▸ (float_lt_iff.mp h).1
          dsimp only
          rw [float_neg_neg hnan]

/-- The ledger holds what the calls of the objective came to. -/
structure Accounts (b : Baseline) (l : Ledger) (log : List Gauge.Call) : Prop where
  evaluations : l.evaluations = log.length
  within : (log.length : Int) ≤ b.budget
  /-- No candidate is measured twice. -/
  nodup : (log.map (·.1.key)).Nodup
  measured : ∀ call ∈ log, l.costs.get? call.1.key = some (b.costOf call.2)
  unmeasured : ∀ key, (∀ call ∈ log, call.1.key ≠ key) → l.costs.get? key = none
  /-- No call costs less than the best. -/
  least : ∀ call ∈ log, ¬ b.costOf call.2 < Ledger.leastCost l
  best : ∀ x cost, l.best = some (x, cost) → cost < 1.0 / 0.0 ∧
    ∃ result, cost = b.costOf result ∧ FirstLeast (b.costOf ·.2) log (x.candidate, result)

namespace Accounts

theorem empty (hb : 1 ≤ b.budget) : b.Accounts {} [] where
  evaluations := rfl
  within := by simp only [List.length_nil]; omega
  nodup := .nil
  measured := by simp
  unmeasured := by simp
  least := by simp
  best := by simp

/-- Another lookup changes no account. -/
theorem look (h : b.Accounts l log) : b.Accounts l.look log :=
  ⟨h.evaluations, h.within, h.nodup, h.measured, h.unmeasured, h.least, h.best⟩

theorem leastCost_lt_or_eq (h : b.Accounts l log) :
    Ledger.leastCost l < 1.0 / 0.0 ∨ Ledger.leastCost l = 1.0 / 0.0 := by
  unfold Ledger.leastCost
  cases hbest : l.best with
  | none => exact .inr rfl
  | some best => exact .inl (h.best best.1 best.2 hbest).1

/-- Entering a candidate that was not measured keeps the accounts. -/
theorem enter (h : b.Accounts l log) {x : Individual} (result : Except Failure Float)
    (hnew : ∀ call ∈ log, call.1.key ≠ x.key) (hlt : (l.evaluations : Int) < b.budget) :
    b.Accounts (b.enter x result l) (log ++ [(x.candidate, result)]) where
  evaluations := by simp [Baseline.enter, h.evaluations]
  within := by
    have := h.evaluations
    simp only [List.length_append, List.length_singleton]
    omega
  nodup := by
    rw [List.map_append, List.nodup_append]
    refine ⟨h.nodup, List.nodup_singleton _, ?_⟩
    intro key hkey key' hkey' heq
    obtain ⟨call, hcall, rfl⟩ := List.mem_map.mp hkey
    exact hnew call hcall (heq.trans (List.mem_singleton.mp hkey'))
  measured := by
    intro call hcall
    obtain hcall | rfl := (by simpa using hcall : call ∈ log ∨ call = (x.candidate, result))
    · have hne : (x.key == call.1.key) = false := beq_false_of_ne fun heq => hnew call hcall heq.symm
      rw [get?_costs_enter, hne]
      exact h.measured call hcall
    · rw [get?_costs_enter, Individual.key, beq_self_eq_true, if_pos rfl]
  unmeasured := by
    intro key hkey
    have hne : (x.key == key) = false := beq_false_of_ne (hkey (x.candidate, result) (by simp))
    rw [get?_costs_enter, hne]
    exact h.unmeasured key fun call hcall => hkey call (by simp [hcall])
  least := by
    intro call hcall
    rw [leastCost_enter]
    obtain hcall | rfl := (by simpa using hcall : call ∈ log ∨ call = (x.candidate, result))
    · split
      · next hless => exact fun hlt => h.least call hcall (float_lt_trans hlt hless)
      · exact h.least call hcall
    · split
      · exact float_lt_irrefl _
      · next hless => exact hless
  best := by
    intro y cost hbest
    rw [best_enter] at hbest
    split at hbest
    · next hless =>
        obtain ⟨rfl, rfl⟩ := Prod.mk.inj (Option.some.inj hbest)
        refine ⟨?_, result, rfl, .of_lt h.least hless⟩
        obtain hbound | hbound := h.leastCost_lt_or_eq
        · exact float_lt_trans hless hbound
        · rwa [hbound] at hless
    · next hless =>
        obtain ⟨hbound, old, rfl, hfirst⟩ := h.best y cost hbest
        refine ⟨hbound, old, rfl, hfirst.append ?_⟩
        simpa [Ledger.leastCost, hbest] using hless

/-- A ledger has a finding exactly if some call cost less than the greatest finite double, and then it
is the first of the cheapest calls. -/
theorem finding (h : b.Accounts l log) {context : Context} (hcontext : context.ended = none) :
    ((∃ f, b.finding context l = .ok f) ↔ ∃ call ∈ log, b.costOf call.2 < worst) ∧
      ∀ f, b.finding context l = .ok f → f.lookups = l.lookups ∧ f.evaluations = log.length ∧
        FirstLeast (b.costOf ·.2) log (f.best, .ok f.fitness) := by
  cases hbest : l.best with
  | none =>
      have hleast : ∀ call ∈ log, ¬ b.costOf call.2 < 1.0 / 0.0 := by
        simpa [Ledger.leastCost, hbest] using h.least
      simp only [Baseline.finding, hcontext, hbest, reduceCtorEq, exists_false, false_iff, not_exists,
        not_and, false_implies, implies_true, and_true]
      exact fun call hcall hlt => hleast call hcall (float_lt_trans hlt worst_lt_infinity)
  | some best =>
      obtain ⟨x, cost⟩ := best
      obtain ⟨hbound, result, rfl, hfirst⟩ := h.best x cost hbest
      have hleast : ∀ call ∈ log, ¬ b.costOf call.2 < b.costOf result := by
        simpa [Ledger.leastCost, hbest] using h.least
      simp only [Baseline.finding, hcontext, hbest]
      cases hworst : b.costOf result == worst with
      | true =>
          simp only [↓reduceIte, reduceCtorEq, exists_false, false_iff, not_exists, not_and,
            false_implies, implies_true, and_true]
          have hle : worst ≤ b.costOf result :=
            float_le_iff_lt_or_beq.mpr (.inr (float_beq_comm _ _ ▸ hworst))
          exact fun call hcall hlt => hleast call hcall (float_lt_of_lt_of_le hlt hle)
      | false =>
          have hlt := lt_worst hbound hworst
          refine ⟨⟨fun _ => ⟨_, hfirst.mem, hlt⟩, fun _ => ⟨_, rfl⟩⟩, ?_⟩
          rintro f ⟨⟩
          refine ⟨rfl, h.evaluations, ?_⟩
          rwa [eq_ok_of_costOf_lt hlt] at hfirst

end Accounts

end Baseline

/-! ## One question -/

namespace Gauge

variable {τ : Type} (g : Gauge τ) {b : Baseline} {context : Context} {template : Individual}
  {x : Position} {l : Ledger} {log : List Gauge.Call}

/-- What was measured before costs what it cost then. -/
theorem ask_of_known {cost : Float} (t : τ)
    (h : l.costs.get? (Baseline.individualAt template x).key = some cost) :
    g.ask b context template x (l, t) = (cost, (l.look, t)) := by
  simp only [ask, h, Ledger.look]

/-- Past the budget nothing else is measured. -/
theorem ask_of_spent (t : τ) (h : l.costs.get? (Baseline.individualAt template x).key = none)
    (hspent : b.budget ≤ l.evaluations) :
    g.ask b context template x (l, t) =
      (Baseline.worst, (l.look, t)) := by
  simp only [ask, h, Ledger.look]
  rw [if_pos (by simp [hspent])]

/-- Within the budget a new candidate is measured. -/
theorem ask_of_new (t : τ) (h : l.costs.get? (Baseline.individualAt template x).key = none)
    (hlt : (l.evaluations : Int) < b.budget) (hcontext : context.ended = none) :
    g.ask b context template x (l, t) =
      g.measure b context (Baseline.individualAt template x) (l.look, t) := by
  simp only [ask, h, Ledger.look]
  rw [if_neg (by simp [hcontext, hlt])]

/-- Keeping the list of calls changes no answer. -/
theorem recorded_ask (t : τ) :
    ∃ log', g.recorded.ask b context template x (l, (log, t)) =
      ((g.ask b context template x (l, t)).1,
        ((g.ask b context template x (l, t)).2.1, (log', (g.ask b context template x (l, t)).2.2))) := by
  unfold ask
  dsimp only
  split
  · exact ⟨log, rfl⟩
  · split
    · exact ⟨log, rfl⟩
    · exact ⟨_, rfl⟩

/-- So the calls that are listed are those that asking for the positions makes. -/
theorem recorded_asked (xs : List Position) (l : Ledger) (log : List Gauge.Call) (t : τ) :
    ∃ log', g.recorded.asked b context template xs (l, (log, t)) =
      ((g.asked b context template xs (l, t)).1, (log', (g.asked b context template xs (l, t)).2)) := by
  induction xs generalizing l log t with
  | nil => exact ⟨log, rfl⟩
  | cons x xs ih =>
      obtain ⟨log', hask⟩ : ∃ log', g.recorded.ask b context template x (l, (log, t)) = _ :=
        g.recorded_ask t
      obtain ⟨log'', hasked⟩ := ih (g.ask b context template x (l, t)).2.1 log'
        (g.ask b context template x (l, t)).2.2
      refine ⟨log'', ?_⟩
      rw [asked, List.foldl_cons, hask]
      exact hasked

theorem recorded_asked_start (xs : List Position) (t : τ) :
    g.recorded.asked b context template xs ({}, ([], t)) =
      ((g.asked b context template xs ({}, t)).1,
        (g.calls b context template xs t, (g.asked b context template xs ({}, t)).2)) := by
  obtain ⟨log, hasked⟩ : ∃ log, g.recorded.asked b context template xs ({}, ([], t)) = _ :=
    g.recorded_asked xs {} [] t
  rw [calls, hasked]

theorem asked_append (xs ys : List Position) (s : Ledger × τ) :
    g.asked b context template (xs ++ ys) s =
      g.asked b context template ys (g.asked b context template xs s) :=
  List.foldl_append

/-- One more position adds to the calls what asking for it adds. -/
theorem calls_append (xs : List Position) (x : Position) (t : τ) :
    g.calls b context template (xs ++ [x]) t =
      (g.recorded.ask b context template x
        ((g.asked b context template xs ({}, t)).1,
          (g.calls b context template xs t, (g.asked b context template xs ({}, t)).2))).2.2.1 := by
  rw [← recorded_asked_start, calls, asked_append]
  rfl

end Gauge

namespace Baseline.Accounts

variable {τ : Type} {b : Baseline} {context : Context} {l : Ledger} {log : List Gauge.Call}

/-- Asking for a position keeps the accounts. -/
theorem ask (h : b.Accounts l log) (hcontext : context.ended = none) (g : Gauge τ)
    (template : Individual) (x : Position) (t : τ) :
    ∃ l' log' t', (g.recorded.ask b context template x (l, (log, t))).2 = (l', (log', t')) ∧
      b.Accounts l' log' ∧ l'.lookups = l.lookups + 1 := by
  by_cases hknown : ∃ call ∈ log, call.1.key = (individualAt template x).key
  · obtain ⟨call, hcall, hkey⟩ := hknown
    rw [g.recorded.ask_of_known (log, t) (hkey ▸ h.measured call hcall)]
    exact ⟨_, _, _, rfl, h.look, rfl⟩
  · have hnew : ∀ call ∈ log, call.1.key ≠ (individualAt template x).key := by
      simpa using hknown
    have hnone := h.unmeasured _ hnew
    obtain hspent | hlt := le_or_gt b.budget l.evaluations
    · rw [g.recorded.ask_of_spent (log, t) hnone hspent]
      exact ⟨_, _, _, rfl, h.look, rfl⟩
    · rw [g.recorded.ask_of_new (log, t) hnone hlt hcontext]
      exact ⟨_, _, _, rfl, (h.look).enter _ hnew hlt, rfl⟩

/-- So does asking for any positions. -/
theorem asked (h : b.Accounts l log) (hcontext : context.ended = none) (g : Gauge τ)
    (template : Individual) (xs : List Position) (t : τ) :
    ∃ l' log' t', g.recorded.asked b context template xs (l, (log, t)) = (l', (log', t')) ∧
      b.Accounts l' log' ∧ l'.lookups = l.lookups + xs.length := by
  induction xs generalizing l log t with
  | nil => exact ⟨l, log, t, rfl, h, rfl⟩
  | cons x xs ih =>
      obtain ⟨l', log', t', hask, h', hlookups⟩ := h.ask hcontext g template x t
      obtain ⟨l'', log'', t'', hasked, h'', hlookups'⟩ := ih h' t'
      refine ⟨l'', log'', t'', ?_, h'', ?_⟩
      · rw [Gauge.asked, List.foldl_cons, hask]
        exact hasked
      · rw [hlookups', hlookups, List.length_cons]
        omega

theorem start (hb : 1 ≤ b.budget) (hcontext : context.ended = none) (g : Gauge τ)
    (template : Individual) (xs : List Position) (t : τ) :
    b.Accounts (g.asked b context template xs ({}, t)).1 (g.calls b context template xs t) ∧
      (g.asked b context template xs ({}, t)).1.lookups = xs.length := by
  obtain ⟨l, log, t', hasked, h, hlookups⟩ := (empty hb).asked hcontext g template xs t
  rw [g.recorded_asked_start] at hasked
  obtain ⟨rfl, hrest⟩ := Prod.mk.inj hasked
  obtain ⟨rfl, -⟩ := Prod.mk.inj hrest
  exact ⟨h, hlookups.trans (Nat.zero_add _)⟩

/-- After any positions the next one is answered from the accounts. -/
theorem answers {g : Gauge τ} {template : Individual} {xs : List Position} {t : τ}
    (h : b.Accounts (g.asked b context template xs ({}, t)).1 (g.calls b context template xs t))
    (hcontext : context.ended = none) (x : Position) : g.Answers b context template xs t x where
  known := by
    intro call hcall hkey
    have hcost := hkey ▸ h.measured call hcall
    refine ⟨g.ask_of_known _ hcost, ?_⟩
    rw [g.calls_append, g.recorded.ask_of_known _ hcost]
  spent := by
    intro hnew hspent
    have hnone := h.unmeasured _ hnew
    refine ⟨g.ask_of_spent _ hnone hspent.ge, ?_⟩
    rw [g.calls_append, g.recorded.ask_of_spent _ hnone hspent.ge]
  new := by
    intro hnew hlt
    have hnone := h.unmeasured _ hnew
    refine ⟨_, rfl, ?_, ?_⟩
    · rw [g.ask_of_new _ hnone hlt hcontext]
      rfl
    · rw [g.calls_append, g.recorded.ask_of_new _ hnone hlt hcontext]
      rfl

end Baseline.Accounts

/-! ## Optimizers -/

namespace Optimizer

variable {σ : Type} (ask : Position → σ → Float × σ)

theorem survey_asks (xs : List Position) (leader : Leader) (s : σ) :
    (survey ask xs leader s).2 = xs.foldl (fun s x => (ask x s).2) s := by
  induction xs generalizing leader s with
  | nil => rfl
  | cons x xs ih => exact ih _ _

theorem scripted_asks (xs : List Position) (box : Box) (s : σ) : (scripted xs).Asks ask box s xs :=
  survey_asks ask xs none s

end Optimizer

/-! ## Whole searches -/

namespace Baseline

variable {τ : Type}

theorem run_of_made (b : Baseline) (g : Gauge τ) {context : Context} {s : Space} {t : τ}
    {template : Individual} {src src' : Source} (hb : 1 ≤ b.budget)
    (h : (Individual.make s 0.0).run src = some (.ok template, src')) :
    g.run b context s t src = some (g.search b context template t, src') := by
  rw [Gauge.run, if_neg (by omega), Draw.bind_eq_some]
  exact ⟨_, _, h, rfl⟩

theorem run_of_error (b : Baseline) (g : Gauge τ) {context : Context} {s : Space} {t : τ}
    {error : ParameterError} {src src' : Source} (hb : 1 ≤ b.budget)
    (h : (Individual.make s 0.0).run src = some (.error error, src')) :
    g.run b context s t src = some ((.error (.template error), t), src') := by
  rw [Gauge.run, if_neg (by omega), Draw.bind_eq_some]
  exact ⟨_, _, h, rfl⟩

theorem search_of_asks (b : Baseline) (g : Gauge τ) {context : Context} {template : Individual} {t : τ}
    {xs : List Position} (haccepts : b.optimizer.accepts (box template) = true)
    (hasks : b.optimizer.Asks (g.ask b context template) (box template) ({}, t) xs) :
    g.search b context template t =
      (b.finding context (g.asked b context template xs ({}, t)).1,
        (g.asked b context template xs ({}, t)).2) := by
  rw [Gauge.search, if_pos haccepts, hasks]
  rfl

/-- Whatever an optimizer asks for, the objective is called once for each candidate and within the
budget, and the finding is the first of the cheapest calls. -/
theorem calls_within_budget (b : Baseline) (hb : 1 ≤ b.budget) (context : Context)
    (hcontext : context.ended = none) (g : Gauge τ) (t : τ) :
    (∀ (template : Individual) (xs : List Position),
      let s := g.asked b context template xs ({}, t)
      let calls := g.calls b context template xs t
      s.1.lookups = xs.length ∧ (s.1.evaluations : Int) ≤ b.budget ∧
        calls.length = s.1.evaluations ∧ (calls.map (·.1.key)).Nodup ∧
        ∀ x : Position, g.Answers b context template xs t x) ∧
    ∀ (s : Space) (src src' : Source),
      (∀ error, (Individual.make s 0.0).run src = some (.error error, src') →
        g.run b context s t src = some ((.error (.template error), t), src')) ∧
      ∀ template, (Individual.make s 0.0).run src = some (.ok template, src') →
        (b.optimizer.accepts (box template) = false →
          g.run b context s t src = some ((.error .unbounded, t), src')) ∧
        ∀ xs, b.optimizer.accepts (box template) = true →
          b.optimizer.Asks (g.ask b context template) (box template) ({}, t) xs →
          let calls := g.calls b context template xs t
          ∃ result, g.run b context s t src =
              some ((result, (g.asked b context template xs ({}, t)).2), src') ∧
            ((∃ f, result = .ok f) ↔ ∃ call ∈ calls, b.costOf call.2 < worst) ∧
            ∀ f, result = .ok f → f.lookups = xs.length ∧ f.evaluations = calls.length ∧
              FirstLeast (b.costOf ·.2) calls (f.best, .ok f.fitness) := by
  refine ⟨fun template xs => ?_, fun s src src' => ⟨fun error => run_of_error b g hb, ?_⟩⟩
  · obtain ⟨h, hlookups⟩ := Accounts.start hb hcontext g template xs t
    exact ⟨hlookups, h.evaluations ▸ h.within, h.evaluations.symm, h.nodup,
      h.answers hcontext⟩
  · intro template hmade
    refine ⟨fun hrefused => ?_, fun xs haccepts hasks => ?_⟩
    · rw [run_of_made b g hb hmade, Gauge.search, if_neg (by simp [hrefused])]
    · obtain ⟨h, hlookups⟩ := Accounts.start hb hcontext g template xs t
      refine ⟨_, ?_, (h.finding hcontext).1, fun f hf => ?_⟩
      · rw [run_of_made b g hb hmade, search_of_asks b g haccepts hasks]
      · obtain ⟨hf, hrest⟩ := (h.finding hcontext).2 f hf
        exact ⟨hf.trans hlookups, hrest⟩

/-- An objective that answers with the number of its calls. -/
def tally : Gauge Nat where
  evaluate := fun _ _ n => (.ok (Float.ofNat n), n + 1)

/-- A coin that may be looked at once. -/
def coin : Space :=
  ⟨[{ name := "side", domain := .choice [.text "heads", .text "tails"] }]⟩

/-- A search that asks twice for the same side and then for the other one. -/
def glances : Baseline where
  optimizer := .scripted [[0.0], [0.25], [1.0]]
  objective := .ofFunction "none" 0 fun _ _ => .ok 0.0
  mode := .maximize
  budget := 1

/-- The first side is measured once and the other one is not, since that would exceed the budget. -/
theorem calls_within_budget_glances : ∃ template src',
    (Individual.make coin 0.0).run (.ofScript [] 0) = some (.ok template, src') ∧
    glances.optimizer.Asks (tally.ask glances {} template) (box template) ({}, 0) [[0.0], [0.25], [1.0]] ∧
    tally.calls glances {} template [[0.0], [0.25], [1.0]] 0 =
      [((individualAt template [0.0]).candidate, .ok (Float.ofNat 0))] ∧
    ∃ f n, tally.run glances {} coin 0 (.ofScript [] 0) = some ((.ok f, n), src') ∧ f.lookups = 3 ∧
      f.evaluations = 1 ∧ f.best = (individualAt template [0.0]).candidate := by
  obtain ⟨template, src', hmade, hsame, hother⟩ : ∃ template src',
      (Individual.make coin 0.0).run (.ofScript [] 0) = some (.ok template, src') ∧
      (individualAt template [0.0]).key = (individualAt template [0.25]).key ∧
      (individualAt template [0.0]).key ≠ (individualAt template [1.0]).key :=
    ⟨_, _, rfl, by decide +kernel, by decide +kernel⟩
  have hasks : glances.optimizer.Asks (tally.ask glances {} template) (box template) ({}, 0)
      [[0.0], [0.25], [1.0]] := Optimizer.scripted_asks _ _ _ _
  obtain ⟨hasked, hrun⟩ := calls_within_budget glances (by decide) {} rfl tally 0
  -- The three questions in turn.
  have hfirst : tally.calls glances {} template [[0.0]] 0 =
      [((individualAt template [0.0]).candidate, .ok (Float.ofNat 0))] := by
    obtain ⟨result, rfl, -, hcalls⟩ :=
      ((hasked template []).2.2.2.2 [0.0]).new (by simp [Gauge.calls, Gauge.asked]) Int.one_pos
    exact hcalls
  have hsecond : tally.calls glances {} template [[0.0], [0.25]] 0 =
      [((individualAt template [0.0]).candidate, .ok (Float.ofNat 0))] := by
    have hmem := List.mem_singleton_self ((individualAt template [0.0]).candidate,
      (Except.ok (Float.ofNat 0) : Except Failure Float))
    rw [← hfirst] at hmem ⊢
    exact (((hasked template [[0.0]]).2.2.2.2 [0.25]).known _ hmem hsame).2
  have hthird : tally.calls glances {} template [[0.0], [0.25], [1.0]] 0 =
      [((individualAt template [0.0]).candidate, .ok (Float.ofNat 0))] := by
    obtain ⟨-, -, hcount, -, hanswers⟩ := hasked template [[0.0], [0.25]]
    have hnew : ∀ call ∈ tally.calls glances {} template [[0.0], [0.25]] 0,
        call.1.key ≠ (individualAt template [1.0]).key := by
      rw [hsecond]
      exact List.forall_mem_singleton.mpr hother
    have hcalls := ((hanswers [1.0]).spent hnew (by rw [← hcount, hsecond]; rfl)).2
    rwa [hsecond] at hcalls
  obtain ⟨result, hresult, hfound, hfinding⟩ :=
    ((hrun coin (.ofScript [] 0) src').2 template hmade).2 _ rfl hasks
  rw [hthird] at hfound hfinding
  have hcheap : glances.costOf (.ok (Float.ofNat 0)) < worst := by decide +kernel
  obtain ⟨f, rfl⟩ := hfound.mpr ⟨_, List.mem_singleton_self _, hcheap⟩
  obtain ⟨hlookups, hevaluations, hbest⟩ := hfinding f rfl
  refine ⟨template, src', hmade, hasks, hthird, f, _, hresult, hlookups, hevaluations, ?_⟩
  exact congrArg Prod.fst (List.mem_singleton.mp hbest.mem)

end Baseline

end Tuning
