import Tuning.Proofs.Session.Memory
import Tuning.Proofs.Session.Traffic

/-! # Repeated measurements

A measurement that finds its key remembered is not made again. But a measurement looks its key up
before it sets its mark, and in between another one of the same key can come to an end: its fitness is
remembered and its mark is released, so the mark can be set, and the key is evaluated a second time.
This is the only way to a second evaluation with a fitness. -/

namespace Tuning

namespace Phase

/-- Whether a fitness was evaluated and remembered. -/
def stored : Phase → Bool
  | remembered _ | done (.scored _ false) => true
  | _ => false

/-- Whether an evaluation was begun that has not failed. -/
def invested (φ : Phase) : Bool :=
  φ.holds || φ.stored

end Phase

/-- The measurements that have evaluated their key and got a fitness. -/
inductive Call.Succeeds (c : Call) : Phase → Prop
  | evaluated {result : Except Failure Float} {fitness : Float} (h : judge c.name result = .ok fitness) :
      Succeeds c (.evaluated result)
  | remembered (fitness : Float) : Succeeds c (.remembered fitness)
  | done (fitness : Float) : Succeeds c (.done (.scored fitness false))

theorem Call.Succeeds.invested {c : Call} {φ : Phase} (h : c.Succeeds φ) : φ.invested = true := by
  cases h <;> rfl

namespace Runner

/-- Whether a fitness of a key is in the memory. -/
def Remembers (r : Runner) (key : String) : Prop :=
  (r.memo.get? key).isSome = true

variable {r r' : Runner} {key other : String}

theorem remembers_remember (fitness : Float) : (r.remember key fitness).Remembers key := by
  rw [Remembers, memo_remember, if_pos rfl]
  rfl

theorem Remembers.remember (h : r.Remembers other) (fitness : Float) :
    (r.remember key fitness).Remembers other := by
  unfold Remembers at h ⊢
  rw [memo_remember]
  split
  · rfl
  · exact h

theorem memo_mark (h : r.mark key = some r') : r'.memo = r.memo := by
  unfold mark at h
  split at h
  · cases h
  · rw [← Option.some.inj h]

theorem now_mark (h : r.mark key = some r') : r'.now = r.now := by
  unfold mark at h
  split at h
  · cases h
  · rw [← Option.some.inj h]

/-- A key can be marked as soon as it is released. -/
theorem exists_mark_release (r : Runner) (key : String) :
    ∃ r', (r.release key).mark key = some r' := by
  refine Option.ne_none_iff_exists'.mp fun hnone => ?_
  have hmarked := mem_of_isMarked (mark_eq_none.mp hnone)
  simp [marks_release] at hmarked

end Runner

/-- No step makes a runner forget. -/
theorem Call.Step.remembers {c : Call} {φ φ' : Phase} {r r' : Runner} (h : c.Step φ r φ' r')
    {key : String} (hkey : r.Remembers key) : r'.Remembers key := by
  cases h with
  | mark hmark => rwa [Runner.Remembers, Runner.memo_mark hmark]
  | remember _ => exact hkey.remember _
  | _ => exact hkey

/-- A fitness is stored when it is remembered. -/
theorem Call.Step.stored {c : Call} {φ φ' : Phase} {r r' : Runner} (h : c.Step φ r φ' r')
    (hφ' : φ'.stored = true) : φ.stored = true ∨ r'.Remembers c.key := by
  cases h with
  | remember _ => exact .inr (Runner.remembers_remember _)
  | release => exact .inl rfl
  | _ => cases hφ'

/-- An evaluation begins when the mark is set. -/
theorem Call.Step.invested {c : Call} {φ φ' : Phase} {r r' : Runner} (h : c.Step φ r φ' r')
    (hφ' : φ'.invested = true) :
    φ.invested = true ∨ φ = .missed ∧ φ' = .evaluating ∧ r.mark c.key = some r' := by
  cases h with
  | mark hmark => exact .inr ⟨rfl, rfl, hmark⟩
  | evaluate _ => exact .inl rfl
  | remember _ => exact .inl rfl
  | release => exact .inl rfl
  | _ => cases hφ'

/-- A measurement finds what is remembered. -/
theorem Call.Step.of_begun {c : Call} {φ' : Phase} {r r' : Runner} (h : c.Step .begun r φ' r')
    {fitness : Float} (hlookup : r.lookup c.key = some fitness) :
    φ' = .done (.scored fitness true) := by
  cases h with
  | find hfound => rw [Option.some.inj (hfound.symm.trans hlookup)]
  | miss hmiss => cases hmiss.symm.trans hlookup

/-- A measurement that has ended takes no step. -/
theorem Call.Step.not_done {c : Call} {outcome : Outcome} {φ' : Phase} {r r' : Runner} :
    ¬c.Step (.done outcome) r φ' r' := by
  rintro ⟨⟩

namespace Traffic

variable {σ τ υ : Traffic} {i j : Nat} {c d : Call} {φ ψ : Phase}

/-- Nothing that is remembered has run out. -/
def Recalls (σ : Traffic) : Prop :=
  ∀ key x, σ.runner.memo.get? key = some x → x.last.before σ.runner.now = false

/-- Steps during which nothing that is remembered runs out. -/
abbrev Steadily : Traffic → Traffic → Prop :=
  Relation.ReflTransGen fun σ τ => σ.Step τ ∧ τ.Recalls

/-- The measurement of this number, which found nothing, sets its mark when its key is remembered. -/
structure Belated (i : Nat) (σ τ : Traffic) : Prop where
  step : σ.Step τ ∧ τ.Recalls
  missed : ∃ c, σ.calls[i]? = some (c, .missed) ∧ τ.calls[i]? = some (c, .evaluating) ∧
    σ.runner.Remembers c.key

theorem Steadily.reaches (h : σ.Steadily τ) : σ.Reaches τ := by
  induction h with
  | refl => exact .refl
  | tail _ hstep ih => exact ih.tail hstep.1

theorem Steadily.recalls (h : σ.Steadily τ) (hσ : σ.Recalls) : τ.Recalls := by
  cases h with
  | refl => exact hσ
  | tail _ hstep => exact hstep.2

theorem Recalls.lookup (hσ : σ.Recalls) {key : String} (h : σ.runner.Remembers key) :
    ∃ fitness, σ.runner.lookup key = some fitness := by
  obtain ⟨x, hx⟩ := Option.isSome_iff_exists.mp h
  refine ⟨x.value, ?_⟩
  rw [Runner.lookup, hx, Option.bind_some, Lasting.current?, hσ key x hx]
  rfl

/-- Steps take no time. -/
theorem Recalls.acts (hσ : σ.Recalls) (hacts : σ.Acts i τ) : τ.Recalls := by
  obtain ⟨front, back, h⟩ := hacts
  intro key x hx
  cases h with
  | mark hmark =>
      rw [Runner.now_mark hmark]
      exact hσ key x (by rwa [Runner.memo_mark hmark] at hx)
  | remember _ =>
      rw [Runner.memo_remember] at hx
      split at hx
      · rw [← Option.some.inj hx]
        exact Instant.not_before_later _ _
      · exact hσ key x hx
  | _ => exact hσ key x hx

theorem Steadily.act (h : σ.Steadily τ) (hσ : σ.Recalls) (hacts : τ.Acts i υ) : σ.Steadily υ :=
  h.tail ⟨.act hacts, (Steadily.recalls h hσ).acts hacts⟩

/-! ## What is stored is remembered -/

/-- Every fitness that was evaluated and remembered is still in the memory. -/
def Mindful (σ : Traffic) : Prop :=
  ∀ call ∈ σ.calls, call.2.stored = true → σ.runner.Remembers call.1.key

theorem Mindful.step (h : σ.Mindful) (hstep : σ.Step τ) : τ.Mindful := by
  cases hstep with
  | begin _ c =>
      refine List.forall_mem_append.mpr ⟨h, ?_⟩
      simp [Phase.stored]
  | pass _ r hmemo _ _ =>
      intro call hcall hstored
      rw [Runner.Remembers, hmemo]
      exact h call hcall hstored
  | act hacts =>
      obtain @⟨front, back, c, φ, φ', r, r', hc⟩ := hacts
      have hothers : ∀ call ∈ front ++ back, call.2.stored = true → r'.Remembers call.1.key :=
        fun call hcall hstored => hc.remembers (h call (by grind) hstored)
      have hown : φ'.stored = true → r'.Remembers c.key := by
        intro hstored
        rcases hc.stored hstored with hstored | hremembers
        · exact hc.remembers (h (c, φ) (by simp) hstored)
        · exact hremembers
      intro call hcall hstored
      rcases List.mem_append.mp hcall with hcall | hcall
      · exact hothers call (by simp [hcall]) hstored
      · rcases List.mem_cons.mp hcall with rfl | hcall
        · exact hown hstored
        · exact hothers call (by simp [hcall]) hstored

theorem Mindful.reaches (h : σ.Mindful) (hreaches : σ.Reaches τ) : τ.Mindful := by
  induction hreaches with
  | refl => exact h
  | tail _ hstep ih => exact ih.step hstep

/-! ## Belated marks -/

theorem Acts.exists_step (h : σ.Acts i τ) : ∃ c φ φ', σ.calls[i]? = some (c, φ) ∧
    τ.calls[i]? = some (c, φ') ∧ c.Step φ σ.runner φ' τ.runner := by
  obtain ⟨front, back, hc⟩ := h
  exact ⟨_, _, _, by simp, by simp, hc⟩

/-- A measurement that takes a step leaves the others where they are. -/
theorem Acts.calls_ne (h : σ.Acts i τ) (hij : j ≠ i) : τ.calls[j]? = σ.calls[j]? := by
  obtain ⟨front, back, -⟩ := h
  exact getElem?_append_cons_ne front back _ _ hij

/-- Where an evaluation has begun, it had begun before the step, or it begins with it. -/
theorem Step.invested (hstep : σ.Step τ) (hc : τ.calls[i]? = some (c, φ))
    (hφ : φ.invested = true) :
    (∃ φ', σ.calls[i]? = some (c, φ') ∧ φ'.invested = true) ∨
      φ = .evaluating ∧ σ.calls[i]? = some (c, .missed) ∧ σ.Acts i τ := by
  cases hstep with
  | begin _ d =>
      rcases Nat.lt_or_ge i σ.calls.length with hi | hi
      · exact .inl ⟨φ, by rw [← hc, List.getElem?_append_left hi], hφ⟩
      · rw [List.getElem?_append_right hi, List.getElem?_singleton] at hc
        split at hc
        · obtain ⟨-, rfl⟩ := Prod.mk.inj (Option.some.inj hc)
          cases hφ
        · cases hc
  | pass _ r _ _ _ => exact .inl ⟨φ, hc, hφ⟩
  | @act k _ _ hacts =>
      by_cases hik : i = k
      · subst hik
        obtain ⟨d, ψ, ψ', hd, hd', h⟩ := hacts.exists_step
        obtain ⟨rfl, rfl⟩ := Prod.mk.inj (Option.some.inj (hd'.symm.trans hc))
        rcases h.invested hφ with hψ | ⟨rfl, rfl, -⟩
        · exact .inl ⟨ψ, hd, hψ⟩
        · exact .inr ⟨rfl, hd, hacts⟩
      · exact .inl ⟨φ, by rw [← hc, hacts.calls_ne hik], hφ⟩

/-- While a key is evaluated for one measurement, another one of the key that is evaluated or stored
was stored before the first one set its mark, and so that mark is belated. -/
theorem Owned.belated (hσ : σ.Owned) (hmind : σ.Mindful) (hstep : σ.Step τ ∧ τ.Recalls)
    (hacts : σ.Acts i τ) (hij : i ≠ j) (hi : σ.calls[i]? = some (c, .missed))
    (hi' : τ.calls[i]? = some (c, .evaluating)) (hj : τ.calls[j]? = some (d, ψ))
    (hψ : ψ.invested = true) (hkey : c.key = d.key) : Belated i σ τ := by
  refine ⟨hstep, c, hi, hi', ?_⟩
  rcases Bool.or_eq_true_iff.mp hψ with hholds | hstored
  · exact absurd hkey ((hσ.acts hacts).key_ne hij hi' hj rfl hholds)
  · rw [hacts.calls_ne hij.symm] at hj
    rw [hkey]
    exact hmind _ (List.mem_of_getElem? hj) hstored

/-- A measurement set a belated mark on the way. -/
def Strays (i : Nat) (σ τ : Traffic) : Prop :=
  ∃ ρ ρ', σ.Steadily ρ ∧ Belated i ρ ρ' ∧ ρ'.Steadily τ

theorem Strays.step (h : Strays i σ τ) (hstep : τ.Step υ ∧ υ.Recalls) : Strays i σ υ := by
  obtain ⟨ρ, ρ', hbefore, hbelated, hafter⟩ := h
  exact ⟨ρ, ρ', hbefore, hbelated, hafter.tail hstep⟩

/-- Of two measurements of a key that are evaluated or stored, one set a belated mark. -/
theorem Steadily.strays (hσ : σ.Owned) (hmind : σ.Mindful) (hcalls : σ.calls = [])
    (h : σ.Steadily τ) (hij : i ≠ j) (hi : τ.calls[i]? = some (c, φ)) (hφ : φ.invested = true)
    (hj : τ.calls[j]? = some (d, ψ)) (hψ : ψ.invested = true) (hkey : c.key = d.key) :
    Strays i σ τ ∨ Strays j σ τ := by
  induction h generalizing φ ψ with
  | refl =>
      rw [hcalls] at hi
      cases hi
  | @tail ρ τ hρ hstep ih =>
      have howned := hσ.reaches (Steadily.reaches hρ)
      have hmindful := hmind.reaches (Steadily.reaches hρ)
      rcases hstep.1.invested hi hφ with ⟨φ', hi', hφ'⟩ | ⟨rfl, hi', hacts⟩
      · rcases hstep.1.invested hj hψ with ⟨ψ', hj', hψ'⟩ | ⟨rfl, hj', hacts⟩
        · exact (ih hi' hφ' hj' hψ').imp (·.step hstep) (·.step hstep)
        · exact .inr ⟨ρ, τ, hρ,
            howned.belated hmindful hstep hacts hij.symm hj' hj hi hφ hkey.symm, .refl⟩
      · exact .inl ⟨ρ, τ, hρ, howned.belated hmindful hstep hacts hij hi' hi hj hψ hkey, .refl⟩

/-! ## Measurements that come later -/

/-- The key of a measurement is remembered, and the measurement has not begun to look or has found what
is remembered. -/
structure Settled (i : Nat) (c : Call) (σ : Traffic) : Prop where
  remembers : σ.runner.Remembers c.key
  found : σ.calls[i]? = some (c, .begun) ∨
    ∃ fitness, σ.calls[i]? = some (c, .done (.scored fitness true))

theorem Settled.step (h : σ.Settled i c) (hσ : σ.Recalls) (hstep : σ.Step τ) : τ.Settled i c := by
  cases hstep with
  | begin _ d =>
      refine ⟨h.remembers, ?_⟩
      have hi : i < σ.calls.length := by
        rcases h.found with hi | ⟨fitness, hi⟩ <;> exact (List.getElem?_eq_some_iff.mp hi).1
      rw [List.getElem?_append_left hi]
      exact h.found
  | pass _ r hmemo _ _ => exact ⟨by rw [Runner.Remembers, hmemo]; exact h.remembers, h.found⟩
  | @act k _ _ hacts =>
      obtain ⟨d, ψ, ψ', hd, hd', hc⟩ := hacts.exists_step
      refine ⟨hc.remembers h.remembers, ?_⟩
      by_cases hik : i = k
      · subst hik
        rcases h.found with hi | ⟨fitness, hi⟩
        · obtain ⟨rfl, rfl⟩ := Prod.mk.inj (Option.some.inj (hd.symm.trans hi))
          obtain ⟨fitness, hlookup⟩ := hσ.lookup h.remembers
          rw [hc.of_begun hlookup] at hd'
          exact .inr ⟨fitness, hd'⟩
        · obtain ⟨rfl, rfl⟩ := Prod.mk.inj (Option.some.inj (hd.symm.trans hi))
          exact absurd hc Call.Step.not_done
      · rw [hacts.calls_ne hik]
        exact h.found

theorem Settled.steadily (h : σ.Settled i c) (hσ : σ.Recalls) (hrun : σ.Steadily τ) :
    τ.Settled i c := by
  induction hrun with
  | refl => exact h
  | tail hrun hstep ih => exact ih.step (Steadily.recalls hrun hσ) hstep.1

/-- Sessions measure on a runner on which nothing was marked, and nothing that is marked or remembered
runs out. Then of two measurements of a key that both evaluate it and get a fitness, one had looked the
key up before the other one's fitness was remembered, and set its mark after that. A measurement that
has not looked yet when its key is remembered is never evaluated: it finds what is remembered. -/
theorem repeats_are_belated {r : Runner} (hr : r.inFlight = []) (hrecalls : Recalls ⟨r, []⟩)
    (hσ : Steadily ⟨r, []⟩ σ) :
    (∀ (i j : Nat) (c d : Call) (φ ψ : Phase), i ≠ j → σ.calls[i]? = some (c, φ) →
      σ.calls[j]? = some (d, ψ) → c.Succeeds φ → d.Succeeds ψ → c.key = d.key →
      Strays i ⟨r, []⟩ σ ∨ Strays j ⟨r, []⟩ σ) ∧
    (∀ (i : Nat) (c : Call), σ.calls[i]? = some (c, .begun) → σ.runner.Remembers c.key →
      ∀ τ, σ.Steadily τ → τ.Settled i c) := by
  refine ⟨?_, ?_⟩
  · intro i j c d φ ψ hij hi hj hφ hψ hkey
    exact hσ.strays (.start hr) (by simp [Mindful]) rfl hij hi hφ.invested hj hψ.invested hkey
  · intro i c hi hremembers τ hτ
    exact Settled.steadily ⟨hremembers, .inl hi⟩ (hσ.recalls hrecalls) hτ

/-- One side of the coin is measured, and everything has the same fitness. -/
def headsCall : Call :=
  Probe.flat.call {} ⟨[("side", .choice
    { atoms := [.text "heads", .text "tails"], value := .text "heads", rate := 0.5 })]⟩

/-- Measured twice, the first time between the moments at which the other measurement finds nothing
and sets its mark. -/
theorem exists_race : ∃ r, Steadily ⟨{}, []⟩
    ⟨r, [(headsCall, .done (.scored 1 false)), (headsCall, .done (.scored 1 false))]⟩ := by
  have hrecalls : Recalls ⟨{}, []⟩ := by simp [Recalls]
  have hlookup : ({} : Runner).lookup headsCall.key = none := by simp [Runner.lookup]
  have hresult : headsCall.results (.ok 1) := ⟨({}, ()), rfl⟩
  have hjudge : judge headsCall.name (.ok 1) = .ok 1 := rfl
  have hbegun : Steadily ⟨{}, []⟩ ⟨{}, [(headsCall, .begun), (headsCall, .begun)]⟩ :=
    (Relation.ReflTransGen.single ⟨.begin _ headsCall, hrecalls⟩).tail ⟨.begin _ headsCall, hrecalls⟩
  have hmissed := (hbegun.act hrecalls (.step [] _ (.miss hlookup))).act hrecalls
    (.step [(headsCall, .missed)] [] (.miss hlookup))
  -- the first measurement goes through while the second one stands still
  have hmarked := hmissed.act hrecalls (.step [] _ (.mark rfl))
  have hevaluated := hmarked.act hrecalls (.step [] _ (.evaluate hresult))
  have hremembered := hevaluated.act hrecalls (.step [] _ (.remember hjudge))
  have hreleased := hremembered.act hrecalls (.step [] _ .release)
  obtain ⟨r, hmark⟩ := Runner.exists_mark_release _ headsCall.key
  have hmarked' := hreleased.act hrecalls (.step [_] [] (.mark hmark))
  have hevaluated' := hmarked'.act hrecalls (.step [_] [] (.evaluate hresult))
  have hremembered' := hevaluated'.act hrecalls (.step [_] [] (.remember hjudge))
  exact ⟨_, hremembered'.act hrecalls (.step [_] [] .release)⟩

theorem repeats_are_belated_heads : ∃ σ, Steadily ⟨{}, []⟩ σ ∧
    σ.calls.length = 2 ∧ (∀ call ∈ σ.calls, call.1.Succeeds call.2 ∧ call.1.key = headsCall.key) ∧
    (Strays 0 ⟨{}, []⟩ σ ∨ Strays 1 ⟨{}, []⟩ σ) := by
  obtain ⟨r, hσ⟩ := exists_race
  have hsucceeds : headsCall.Succeeds (.done (.scored 1 false)) := .done 1
  refine ⟨_, hσ, rfl, by simp [hsucceeds], ?_⟩
  exact (repeats_are_belated rfl (by simp [Recalls]) hσ).1 0 1 _ _ _ _ (by decide) rfl rfl hsucceeds
    hsucceeds rfl

/-- A key is evaluated twice with a fitness, although nothing runs out. -/
theorem measured_twice : ¬∀ σ, Steadily ⟨{}, []⟩ σ → ∀ (i j : Nat) (c d : Call) (φ ψ : Phase),
    σ.calls[i]? = some (c, φ) → σ.calls[j]? = some (d, ψ) → c.Succeeds φ → d.Succeeds ψ →
    c.key = d.key → i = j := by
  intro hunique
  obtain ⟨r, hσ⟩ := exists_race
  have h : 0 = 1 := hunique _ hσ 0 1 _ _ _ _ rfl rfl (.done 1) (.done 1) rfl
  exact absurd h (by decide)

end Traffic

end Tuning
