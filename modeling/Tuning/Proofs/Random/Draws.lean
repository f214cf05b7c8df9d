import Mathlib
import Tuning.Gene.Walk

/-! # What a draw can give

A draw is described by what holds of every value that it gives, whatever the source. -/

namespace Tuning

theorem except_bind_eq_ok {α β ε : Type} {x : Except ε α} {f : α → Except ε β} {b : β} :
    (x >>= f) = .ok b ↔ ∃ a, x = .ok a ∧ f a = .ok b := by
  cases x with
  | error e => exact ⟨nofun, nofun⟩
  | ok a => exact ⟨fun h => ⟨a, rfl, h⟩, fun ⟨_, h, hf⟩ => Except.ok.inj h ▸ hf⟩

theorem exists_ok_of_map_toOption {α β ε : Type} {x : Except ε α} {f : α → β} {b : β}
    (h : x.toOption.map f = some b) : ∃ a, x = .ok a ∧ f a = b := by
  cases x with
  | error e => cases h
  | ok a => exact ⟨a, rfl, Option.some.inj h⟩

theorem except_bind_eq_error {α β ε : Type} {x : Except ε α} {f : α → Except ε β} {e : ε} :
    (x >>= f) = .error e ↔ x = .error e ∨ ∃ a, x = .ok a ∧ f a = .error e := by
  cases x with
  | error e' =>
      have hbind : ((.error e' : Except ε α) >>= f) = .error e' := rfl
      simp [hbind]
  | ok a =>
      have hbind : ((.ok a : Except ε α) >>= f) = f a := rfl
      simp [hbind]

theorem except_map_eq_ok {α β ε : Type} {x : Except ε α} {f : α → β} {b : β} :
    x.map f = .ok b ↔ ∃ a, x = .ok a ∧ f a = b := by
  cases x with
  | error e => exact ⟨nofun, nofun⟩
  | ok a => exact ⟨fun h => ⟨a, rfl, Except.ok.inj h⟩, fun ⟨_, h, hf⟩ => Except.ok.inj h ▸ hf ▸ rfl⟩

namespace Draw

variable {α β ε : Type}

/-! ## Taking computations apart -/

@[simp] theorem pure_apply (a : α) (s : Source) : (pure a : Draw α) s = some (a, s) := rfl

@[simp] theorem get_apply (s : Source) : (get : Draw Source) s = some (s, s) := rfl

@[simp] theorem failure_apply (s : Source) : (failure : Draw α) s = none := rfl

theorem pure_eq_some {a b : α} {s s' : Source} :
    (pure a : Draw α) s = some (b, s') ↔ a = b ∧ s = s' := by
  simp

theorem guard_eq_some {c : Prop} [Decidable c] {u : Unit} {s s' : Source} :
    (guard c : Draw Unit) s = some (u, s') ↔ c ∧ s = s' := by
  unfold guard
  split <;> simp [*]

/-- A sequence gives a value if its parts do, the second from where the first left the source. -/
theorem bind_eq_some {d : Draw α} {f : α → Draw β} {s s'' : Source} {b : β} :
    (d >>= f) s = some (b, s'') ↔
      ∃ a s', d s = some (a, s') ∧ f a s' = some (b, s'') := by
  change (d s).bind (fun p => f p.1 p.2) = _ ↔ _
  cases d s with
  | none => simp
  | some p => simp [Prod.ext_iff]

theorem map_eq_some {d : Draw α} {f : α → β} {s s' : Source} {b : β} :
    (f <$> d) s = some (b, s') ↔ ∃ a, d s = some (a, s') ∧ f a = b := by
  rw [map_eq_pure_bind, bind_eq_some]
  constructor
  · rintro ⟨a, t, hd, hp⟩
    obtain ⟨rfl, rfl⟩ := pure_eq_some.mp hp
    exact ⟨a, hd, rfl⟩
  · rintro ⟨a, hd, rfl⟩
    exact ⟨a, s', hd, rfl⟩

@[simp] theorem ok_apply (a : α) (s : Source) :
    (pure a : ExceptT ε Draw α) s = some (.ok a, s) := rfl

theorem ok_pure_eq_some {a b : α} {s s' : Source} :
    (pure a : ExceptT ε Draw α) s = some (.ok b, s') ↔ a = b ∧ s = s' := by
  simp

@[simp] theorem throw_apply (e : ε) (s : Source) :
    (throw e : ExceptT ε Draw α) s = some (.error e, s) := rfl

theorem ok_lift_eq_some {d : Draw α} {s s' : Source} {a : α} :
    (liftM d : ExceptT ε Draw α) s = some (.ok a, s') ↔ d s = some (a, s') := by
  change (Except.ok <$> d) s = _ ↔ _
  rw [map_eq_some]
  simp

/-- A draw in itself never fails. -/
theorem error_lift_ne_some {d : Draw α} {s s' : Source} {e : ε} :
    (liftM d : ExceptT ε Draw α) s ≠ some (.error e, s') := by
  change (Except.ok <$> d) s ≠ _
  rw [Ne, map_eq_some]
  simp

/-- A sequence that may fail comes out well if both parts do. -/
theorem ok_bind_eq_some {d : ExceptT ε Draw α} {f : α → ExceptT ε Draw β} {s s'' : Source} {b : β} :
    (d >>= f) s = some (.ok b, s'') ↔
      ∃ a s', d s = some (.ok a, s') ∧ f a s' = some (.ok b, s'') := by
  change (d.run >>= ExceptT.bindCont f) s = _ ↔ _
  rw [bind_eq_some]
  constructor
  · rintro ⟨a | a, t, hd, hf⟩
    · cases hf
    · exact ⟨a, t, hd, hf⟩
  · rintro ⟨a, t, hd, hf⟩
    exact ⟨.ok a, t, hd, hf⟩

/-- A sequence fails if its first part does, or else its second part. -/
theorem error_bind_eq_some {d : ExceptT ε Draw α} {f : α → ExceptT ε Draw β} {s s'' : Source}
    {e : ε} :
    (d >>= f) s = some (.error e, s'') ↔
      d s = some (.error e, s'') ∨
        ∃ a s', d s = some (.ok a, s') ∧ f a s' = some (.error e, s'') := by
  change (d.run >>= ExceptT.bindCont f) s = _ ↔ _
  rw [bind_eq_some]
  constructor
  · rintro ⟨a | a, t, hd, hf⟩
    · obtain ⟨h, rfl⟩ := Prod.mk.inj (Option.some.inj hf)
      obtain rfl := Except.error.inj h
      exact .inl hd
    · exact .inr ⟨a, t, hd, hf⟩
  · rintro (hd | ⟨a, t, hd, hf⟩)
    · exact ⟨.error e, s'', hd, rfl⟩
    · exact ⟨.ok a, t, hd, hf⟩

theorem ok_adapt_eq_some {ε' : Type} {d : ExceptT ε Draw α} {f : ε → ε'} {s s' : Source} {a : α} :
    (ExceptT.adapt f d) s = some (.ok a, s') ↔ d s = some (.ok a, s') := by
  change (Except.mapError f <$> d.run) s = _ ↔ _
  rw [map_eq_some]
  constructor
  · rintro ⟨e | b, hd, h⟩
    · cases h
    · obtain rfl := Except.ok.inj h
      exact hd
  · intro hd
    exact ⟨.ok a, hd, rfl⟩

theorem error_adapt_eq_some {ε' : Type} {d : ExceptT ε Draw α} {f : ε → ε'} {s s' : Source}
    {e : ε'} :
    (ExceptT.adapt f d) s = some (.error e, s') ↔
      ∃ cause, d s = some (.error cause, s') ∧ f cause = e := by
  change (Except.mapError f <$> d.run) s = _ ↔ _
  rw [map_eq_some]
  constructor
  · rintro ⟨cause | a, hd, h⟩
    · exact ⟨cause, hd, Except.error.inj h⟩
    · cases h
  · rintro ⟨cause, hd, rfl⟩
    exact ⟨.error cause, hd, rfl⟩

/-! ## Properties of all values -/

/-- Whatever the source, the value of the draw has a property. -/
def Ensures (d : Draw α) (P : α → Prop) : Prop :=
  ∀ s a s', d s = some (a, s') → P a

namespace Ensures

variable {P : α → Prop} {Q : β → Prop}

theorem pure {a : α} (h : P a) : Ensures (pure a) P := by
  intro s b s' hb
  obtain ⟨rfl, rfl⟩ := pure_eq_some.mp hb
  exact h

theorem bind {d : Draw α} {f : α → Draw β} (hd : Ensures d P) (hf : ∀ a, P a → Ensures (f a) Q) :
    Ensures (d >>= f) Q := by
  intro s b s'' hb
  obtain ⟨a, s', ha, hb⟩ := bind_eq_some.mp hb
  exact hf a (hd s a s' ha) s' b s'' hb

theorem trivial (d : Draw α) : Ensures d fun _ => True :=
  fun _ _ _ _ => True.intro

/-- A property of a sequence that does not depend on the value of the first part. -/
theorem bind_any {d : Draw α} {f : α → Draw β} (hf : ∀ a, Ensures (f a) Q) : Ensures (d >>= f) Q :=
  bind (trivial d) fun a _ => hf a

theorem mono {P' : α → Prop} {d : Draw α} (h : Ensures d P) (hP : ∀ a, P a → P' a) :
    Ensures d P' :=
  fun s a s' ha => hP a (h s a s' ha)

end Ensures

/-- What holds of the values of the single draws holds of the list of them, position by position. -/
theorem mapM_ensures {f : α → Draw β} {R : α → β → Prop} (xs : List α)
    (h : ∀ x ∈ xs, Ensures (f x) (R x)) : Ensures (xs.mapM f) (List.Forall₂ R xs) := by
  induction xs with
  | nil =>
      rw [List.mapM_nil]
      exact .pure .nil
  | cons x xs ih =>
      rw [List.mapM_cons]
      refine .bind (h x (by simp)) fun y hy => ?_
      exact .bind (ih fun z hz => h z (by simp [hz])) fun ys hys => .pure (.cons hy hys)

/-- The same for draws that may fail, when none of them does. -/
theorem mapM_ok {f : α → ExceptT ε Draw β} {R : α → β → Prop} {xs : List α} {ys : List β}
    {s s' : Source} (hys : xs.mapM f s = some (.ok ys, s'))
    (h : ∀ x ∈ xs, ∀ t y t', f x t = some (.ok y, t') → R x y) : List.Forall₂ R xs ys := by
  induction xs generalizing s s' ys with
  | nil =>
      rw [List.mapM_nil] at hys
      obtain ⟨rfl, -⟩ := ok_pure_eq_some.mp hys
      exact .nil
  | cons x xs ih =>
      rw [List.mapM_cons] at hys
      obtain ⟨y, t, hy, hys⟩ := ok_bind_eq_some.mp hys
      obtain ⟨zs, t', hzs, hys⟩ := ok_bind_eq_some.mp hys
      obtain ⟨rfl, -⟩ := ok_pure_eq_some.mp hys
      exact .cons (h x (by simp) _ _ _ hy) (ih hzs fun z hz => h z (by simp [hz]))

/-- Draws that never fail do not fail one after another. -/
theorem mapM_ne_error {f : α → ExceptT ε Draw β} {xs : List α}
    (h : ∀ x ∈ xs, ∀ s e s', f x s ≠ some (.error e, s')) (s : Source) (e : ε) (s' : Source) :
    xs.mapM f s ≠ some (.error e, s') := by
  induction xs generalizing s with
  | nil =>
      rw [List.mapM_nil]
      simp
  | cons x xs ih =>
      rw [List.mapM_cons, Ne, error_bind_eq_some]
      rintro (hx | ⟨y, t, -, hxs⟩)
      · exact h x (by simp) s e s' hx
      · rcases error_bind_eq_some.mp hxs with hxs | ⟨ys, t', -, hxs⟩
        · exact ih (fun z hz => h z (by simp [hz])) t hxs
        · cases hxs

/-! ## The draws themselves -/

theorem uniformBelow_ensures (draw : Draw Nat) (bits : Nat) {n : Nat} (hn : 0 < n) :
    Ensures (uniformBelow draw bits n) (· < n) := by
  unfold uniformBelow
  split
  · refine .bind_any fun a => .pure ?_
    have hle : a &&& (n - 1) ≤ n - 1 := Nat.and_le_right
    omega
  · exact .bind_any fun a => .pure (Nat.mod_lt a hn)

/-- A number drawn below a positive bound is below it. -/
theorem below_ensures {n : Nat} (hn : 0 < n) : Ensures (below n) (· < n) := by
  unfold below
  split
  · exact uniformBelow_ensures half 31 hn
  · exact uniformBelow_ensures word 63 hn

/-- What every step keeps, a bounded walk keeps. -/
theorem walkFor_ensures {rate : Float} {step : α → Option (Draw α)} {P : α → Prop}
    (hstep : ∀ x next, P x → step x = some next → Ensures next P) (fuel : Nat) (x : α) (hx : P x) :
    Ensures (walkFor rate step fuel x) P := by
  induction fuel generalizing x with
  | zero => exact fun _ _ _ h => nomatch h
  | succ fuel ih =>
      refine .bind_any fun roll => ?_
      split
      · cases hs : step x with
        | none => exact .pure hx
        | some next => exact .bind (hstep x next hx hs) fun y hy => ih y hy
      · exact .pure hx

/-- What every step keeps, a walk keeps. -/
theorem walk_ensures {rate : Float} {step : α → Option (Draw α)} {P : α → Prop}
    (hstep : ∀ x next, P x → step x = some next → Ensures next P) (x : α) (hx : P x) :
    Ensures (walk rate step x) P :=
  .bind_any fun _ => walkFor_ensures hstep _ x hx

end Draw

end Tuning
