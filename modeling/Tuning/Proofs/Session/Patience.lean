import Mathlib
import Tuning.Proofs.Session.Progress
import Tuning.Proofs.Value.Doubles

/-! # Patience

A tracker counts the scores since the last significant one, and a session has converged as soon as that
are as many as its patience. Scores are numbered from 1. -/

namespace Tuning

/-! ## Significant scores -/

/-- The last number up to `n` that counts. -/
def IsLatest (counts : Nat → Prop) (n j : Nat) : Prop :=
  1 ≤ j ∧ j ≤ n ∧ counts j ∧ ∀ k, j < k → k ≤ n → ¬counts k

namespace IsLatest

variable {counts : Nat → Prop} {n j k : Nat}

theorem self (hn : 1 ≤ n) (h : counts n) : IsLatest counts n n :=
  ⟨hn, le_rfl, h, fun _ hlt hle => absurd hle (Nat.not_le.mpr hlt)⟩

theorem succ (h : IsLatest counts n j) (hnot : ¬counts (n + 1)) : IsLatest counts (n + 1) j := by
  obtain ⟨hpos, hle, hj, hlast⟩ := h
  refine ⟨hpos, Nat.le_succ_of_le hle, hj, fun k hlt hk => ?_⟩
  rcases Nat.le_succ_iff.mp hk with hk | rfl
  · exact hlast k hlt hk
  · exact hnot

theorem unique (h : IsLatest counts n j) (h' : IsLatest counts n k) : j = k := by
  rcases Nat.lt_trichotomy j k with hlt | heq | hlt
  · exact absurd h'.2.2.1 (h.2.2.2 k hlt h'.2.1)
  · exact heq
  · exact absurd h.2.2.1 (h'.2.2.2 j hlt h.2.1)

end IsLatest

/-- Which of the scores `s 1`, `s 2`, … are significant: the first one, and all that improve on the last
significant one before them. -/
structure Significance {α : Type} (improves : α → α → Prop) (s : Nat → α) (counts : Nat → Prop) :
    Prop where
  first : counts 1
  next : ∀ n j, IsLatest counts n j → (counts (n + 1) ↔ improves (s j) (s (n + 1)))

namespace Significance

variable {α : Type} {improves : α → α → Prop} {s : Nat → α} {counts other : Nat → Prop} {n : Nat}

theorem exists_latest (h : Significance improves s counts) (hn : 1 ≤ n) : ∃ j, IsLatest counts n j := by
  induction n, hn using Nat.le_induction with
  | base => exact ⟨1, .self le_rfl h.first⟩
  | succ n hn ih =>
      by_cases hcounts : counts (n + 1)
      · exact ⟨n + 1, .self (Nat.le_add_left 1 n) hcounts⟩
      · obtain ⟨j, hj⟩ := ih
        exact ⟨j, hj.succ hcounts⟩

/-- The scores leave no choice which of them are significant. -/
theorem unique (h : Significance improves s counts) (h' : Significance improves s other) (n : Nat) :
    ∀ i, 1 ≤ i → i ≤ n → (other i ↔ counts i) := by
  induction n with
  | zero =>
      intro i hpos hle
      omega
  | succ n ih =>
      intro i hpos hle
      rcases Nat.le_succ_iff.mp hle with hle | rfl
      · exact ih i hpos hle
      · cases n with
        | zero => exact iff_of_true h'.first h.first
        | succ n =>
            obtain ⟨j, hj⟩ := h.exists_latest (Nat.le_add_left 1 n)
            have hj' : IsLatest other (n + 1) j :=
              ⟨hj.1, hj.2.1, (ih j hj.1 hj.2.1).mpr hj.2.2.1, fun k hlt hle hk =>
                hj.2.2.2 k hlt hle ((ih k (by omega) hle).mp hk)⟩
            rw [h.next _ j hj, h'.next _ j hj']

/-- The number of the last significant score. -/
def latest (significant : α → α → Bool) (s : Nat → α) : Nat → Nat
  | 0 => 0
  | n + 1 =>
    if n = 0 ∨ significant (s (latest significant s n)) (s (n + 1)) = true then n + 1
    else latest significant s n

variable (significant : α → α → Bool) (s : Nat → α)

theorem latest_le (n : Nat) : latest significant s n ≤ n := by
  induction n with
  | zero => exact le_rfl
  | succ n ih =>
      rw [latest]
      split
      · exact le_rfl
      · exact Nat.le_succ_of_le ih

theorem latest_eq {n k : Nat} (hk : latest significant s n ≤ k) (hkn : k ≤ n) :
    latest significant s k = latest significant s n := by
  induction n with
  | zero => rw [Nat.le_zero.mp hkn]
  | succ n ih =>
      rcases Nat.le_succ_iff.mp hkn with hkn | rfl
      · rw [latest] at hk ⊢
        split at hk
        · omega
        · next hstale => rw [if_neg hstale, ih hk hkn]
      · rfl

theorem isLatest_latest {n : Nat} (hn : 1 ≤ n) :
    IsLatest (fun i => latest significant s i = i) n (latest significant s n) := by
  refine ⟨?_, latest_le significant s n, latest_eq significant s le_rfl (latest_le significant s n), ?_⟩
  · -- the first score is significant
    by_contra hzero
    have hone : latest significant s 1 = latest significant s n :=
      latest_eq significant s (by omega) hn
    rw [← hone] at hzero
    exact hzero le_rfl
  · intro k hlt hk (hself : latest significant s k = k)
    rw [latest_eq significant s hlt.le hk] at hself
    exact absurd hself hlt.ne

/-- In all scores there are significant ones. -/
theorem exists_counts (h : ∀ old new, significant old new = true ↔ improves old new) :
    ∃ counts, Significance improves s counts := by
  refine ⟨fun i => latest significant s i = i, rfl, fun n j hj => ?_⟩
  have hn : 1 ≤ n := hj.1.trans hj.2.1
  obtain rfl := hj.unique (isLatest_latest significant s hn)
  have hlt := Nat.lt_succ_of_le (latest_le significant s n)
  rw [latest, ← h]
  split
  · next hcond => exact iff_of_true rfl (hcond.resolve_left (by omega))
  · next hcond => exact iff_of_false hlt.ne (not_or.mp hcond).2

end Significance

namespace Convergence

/-- A score is greater than another one, by a gain that reaches a threshold. -/
def Improves (threshold old new : Float) : Prop :=
  old < new ∧ threshold ≤ relativeGain old new

theorem significant_ofThreshold {enabled : Bool} {patience : Int} {threshold old new : Float} :
    (ofThreshold enabled patience threshold).significant old new = true ↔
      Improves threshold old new := by
  simp only [ofThreshold, Bool.and_eq_true, decide_eq_true_eq, Improves, and_comm]

/-- Significant scores rise. -/
theorem rising_of_significance {threshold : Float} {s : Nat → Float} {counts : Nat → Prop}
    (h : Significance (Improves threshold) s counts) {i k : Nat} (hi : 1 ≤ i) (hik : i < k)
    (hcounts : counts i) (hcounts' : counts k) : s i < s k := by
  induction k using Nat.strong_induction_on with
  | h k ih =>
      obtain ⟨n, rfl⟩ : ∃ n, k = n + 1 := ⟨k - 1, by omega⟩
      obtain ⟨j, hj⟩ := h.exists_latest (n := n) (by omega)
      have hlast : s j < s (n + 1) := ((h.next n j hj).mp hcounts').1
      -- the last significant score before is this one, or a later one
      rcases Nat.lt_trichotomy i j with hlt | rfl | hlt
      · exact float_lt_trans (ih j (Nat.lt_succ_of_le hj.2.1) hlt hj.2.2.1) hlast
      · exact hlast
      · exact absurd hcounts (hj.2.2.2 i hlt (Nat.le_of_lt_succ hik))

end Convergence

namespace Tracker

variable {α : Type} [LT α] [DecidableRel (α := α) (· < ·)] {c : Convergence α} {t : Tracker α}

/-! ## Trackers and significance -/

/-- A tracker that has been fed scores one after another. -/
def fed (c : Convergence α) (t : Tracker α) (scores : List α) : Tracker α :=
  scores.foldl (fun t score => (t.update c score).2) t

/-- A tracker after the scores `s 1`, …, `s n`. -/
def after (c : Convergence α) (t : Tracker α) (s : Nat → α) (n : Nat) : Tracker α :=
  t.fed c ((List.range' 1 n).map s)

theorem fed_append (c : Convergence α) (t : Tracker α) (scores : List α) (score : α) :
    t.fed c (scores ++ [score]) = ((t.fed c scores).update c score).2 :=
  List.foldl_concat _ _ _ _

theorem after_succ (c : Convergence α) (t : Tracker α) (s : Nat → α) (n : Nat) :
    t.after c s (n + 1) = ((t.after c s n).update c (s (n + 1))).2 := by
  rw [after, List.range'_1_concat, List.map_append, List.map_singleton, fed_append, Nat.add_comm 1 n]
  rfl

theorem update_first (hc : c.enabled = true) (ht : t.history = []) (score : α) :
    t.update c score = (false, { t.remember score with reference := score }) := by
  rw [update, if_pos hc]
  dsimp only
  rw [ht]

theorem update_later (hc : c.enabled = true) (ht : t.history ≠ []) (score : α) :
    t.update c score =
      if c.significant t.reference score then (false, (t.remember score).progress score)
      else (c.patience ≤ t.stale + 1, { t.remember score with stale := t.stale + 1 }) := by
  obtain ⟨x, rest, hx⟩ := List.exists_cons_of_ne_nil ht
  rw [update, if_pos hc]
  dsimp only
  rw [hx]
  rfl

theorem history_update (hc : c.enabled = true) (t : Tracker α) (score : α) :
    (t.update c score).2.history = score :: t.history := by
  by_cases ht : t.history = []
  · rw [update_first hc ht]
    rfl
  · rw [update_later hc ht]
    split <;> rfl

theorem best_update (hc : c.enabled = true) (t : Tracker α) (score : α) :
    (t.update c score).2.best = if t.best < score then score else t.best := by
  by_cases ht : t.history = []
  · rw [update_first hc ht]
    rfl
  · rw [update_later hc ht]
    split <;> rfl

/-- A tracker that has seen nothing has no stale scores. -/
def Fresh (t : Tracker α) : Prop :=
  t.history = [] → t.stale = 0

theorem fresh_update (hc : c.enabled = true) (t : Tracker α) (score : α) : (t.update c score).2.Fresh := by
  intro hempty
  rw [history_update hc] at hempty
  cases hempty

theorem fresh_fed (hc : c.enabled = true) (ht : t.Fresh) (scores : List α) : (t.fed c scores).Fresh := by
  induction scores generalizing t with
  | nil => exact ht
  | cons score scores ih => exact ih (fresh_update hc t score)

/-- An update tells of convergence when there are as many stale scores as the patience. -/
theorem update_iff (hc : c.enabled = true) (hpatience : 1 ≤ c.patience) (ht : t.Fresh) (score : α) :
    (t.update c score).1 = true ↔ c.patience ≤ (t.update c score).2.stale := by
  by_cases hempty : t.history = []
  · have hstale : (t.remember score).stale = 0 := ht hempty
    rw [update_first hc hempty]
    simp only [Bool.false_eq_true, false_iff, hstale]
    omega
  · rw [update_later hc hempty]
    split
    · simp only [Bool.false_eq_true, false_iff, progress]
      omega
    · simp

/-- The reference is the last significant score, and the scores behind it are stale. -/
theorem after_of_isLatest {improves : α → α → Prop} {s : Nat → α} {counts : Nat → Prop}
    (hc : c.enabled = true) (himproves : ∀ old new, c.significant old new = true ↔ improves old new)
    (hempty : t.history = []) (hstale : t.stale = 0) (h : Significance improves s counts) {n j : Nat}
    (hj : IsLatest counts n j) :
    (t.after c s n).history ≠ [] ∧ (t.after c s n).reference = s j ∧ (t.after c s n).stale = n - j := by
  induction n generalizing j with
  | zero => exact absurd hj.2.1 (by have := hj.1; omega)
  | succ n ih =>
      rw [after_succ]
      refine ⟨by rw [history_update hc]; exact List.cons_ne_nil _ _, ?_⟩
      cases n with
      | zero =>
          obtain rfl : j = 1 := le_antisymm hj.2.1 hj.1
          have hstart : t.after c s 0 = t := rfl
          rw [hstart, update_first hc hempty]
          exact ⟨rfl, hstale⟩
      | succ n =>
          obtain ⟨k, hk⟩ := h.exists_latest (n := n + 1) (Nat.le_add_left 1 n)
          obtain ⟨hseen, href, hcount⟩ := ih hk
          rw [update_later hc hseen, href]
          by_cases hcounts : counts (n + 1 + 1)
          · obtain rfl : n + 1 + 1 = j := (IsLatest.self (by omega) hcounts).unique hj
            rw [if_pos ((himproves _ _).mpr ((h.next _ k hk).mp hcounts)), Nat.sub_self]
            exact ⟨rfl, rfl⟩
          · obtain rfl : k = j := (hk.succ hcounts).unique hj
            rw [if_neg fun hsig => hcounts ((h.next _ k hk).mpr ((himproves _ _).mp hsig))]
            refine ⟨href, ?_⟩
            have := hk.2.1
            change (t.after c s (n + 1)).stale + 1 = _
            omega

end Tracker

/-! ## The best score -/

/-- Only negative infinity is not above negative infinity. -/
theorem eq_bottom_of_not_lt {x : Float} (hx : x.isNaN = false) (h : ¬(-1.0 / 0.0 : Float) < x) :
    x = -1.0 / 0.0 := by
  have hbottom : (-1.0 / 0.0 : Float).toModel.unpack = .infinity .negative := by rfl
  have hplace : Double.place x ≤ Double.place (-1.0 / 0.0) :=
    (float_le_iff.mp (float_le_of_not_lt hx (by decide +kernel) h)).2.2
  have hunpack : x.toModel.unpack = .infinity .negative := by
    have hnumber := unpack_ne_notANumber_iff.mpr hx
    rw [Double.place, Double.place, hbottom] at hplace
    rcases hu : x.toModel.unpack with (_ | _) | _ | (_ | _) | ⟨_ | _, m, e, hm⟩ <;>
      simp_all [place, Prod.Lex.toLex_le_toLex]
  have hneg : -x = 1.0 / 0.0 := by
    change Float.ofModel (Float.Model.pack x.toModel.unpack.neg) = _
    rw [hunpack]
    rfl
  rw [← float_neg_neg hx, hneg]
  rfl

namespace Tracker

/-- The best score is the greatest one. -/
theorem best_after {c : Convergence Float} (hc : c.enabled = true) {t : Tracker Float}
    (ht : t.best = -1.0 / 0.0) {s : Nat → Float} {n : Nat} (hn : 1 ≤ n)
    (hnan : ∀ i, 1 ≤ i → i ≤ n → (s i).isNaN = false) :
    (∃ i, 1 ≤ i ∧ i ≤ n ∧ (t.after c s n).best = s i) ∧
      ∀ i, 1 ≤ i → i ≤ n → s i ≤ (t.after c s n).best := by
  induction n, hn using Nat.le_induction with
  | base =>
      have hone := hnan 1 le_rfl le_rfl
      have hbest : (t.after c s 1).best = s 1 := by
        rw [after_succ, best_update hc]
        change (if t.best < s 1 then s 1 else t.best) = s 1
        rw [ht]
        split
        · rfl
        · next hlt => exact (eq_bottom_of_not_lt hone hlt).symm
      refine ⟨⟨1, le_rfl, le_rfl, hbest⟩, fun i hpos hle => ?_⟩
      rw [le_antisymm hle hpos, hbest]
      exact float_le_of_not_lt hone hone (float_lt_irrefl _)
  | succ n hn ih =>
      obtain ⟨⟨i, hpos, hle, hbest⟩, hgreatest⟩ := ih fun i hpos hle => hnan i hpos (by omega)
      have hnew := hnan (n + 1) (by omega) le_rfl
      have hold := hnan i hpos (by omega)
      rw [after_succ, best_update hc]
      split
      · next hlt =>
          refine ⟨⟨n + 1, by omega, le_rfl, rfl⟩, fun k hk hkn => ?_⟩
          rcases Nat.le_succ_iff.mp hkn with hkn | rfl
          · exact float_le_trans (hgreatest k hk hkn) (float_le_of_lt hlt)
          · exact float_le_of_not_lt hnew hnew (float_lt_irrefl _)
      · next hlt =>
          refine ⟨⟨i, hpos, by omega, hbest⟩, fun k hk hkn => ?_⟩
          rcases Nat.le_succ_iff.mp hkn with hkn | rfl
          · exact hgreatest k hk hkn
          · rw [hbest] at hlt ⊢
            exact float_le_of_not_lt hnew hold hlt

end Tracker

/-! ## Sessions -/

/-- The scores that a session has shown: the best one after every round that has one. -/
def Progress.scores (mode : Mode) (progress : List Progress) : List Float :=
  progress.filterMap fun shown => shown.best.map fun best => mode.orient best.1

theorem Progress.scores_append (mode : Mode) (progress rest : List Progress) :
    scores mode (progress ++ rest) = scores mode progress ++ scores mode rest :=
  List.filterMap_append

namespace Session

variable {ε : Type} {p : Probe ε} {mode : Mode} {s s' s'' : Session} {i : Interrupt}
  {bench bench' : Runner × ε} {c : Convergence Float}

/-- The convergence is as it was. -/
structure Unmoved (s s' : Session) : Prop where
  tracker_eq : s'.tracker = s.tracker
  progress_eq : s'.progress = s.progress
  converged_eq : s'.converged = s.converged

theorem Unmoved.trans (h : s.Unmoved s') (h' : s'.Unmoved s'') : s.Unmoved s'' :=
  ⟨h'.tracker_eq.trans h.tracker_eq, h'.progress_eq.trans h.progress_eq,
    h'.converged_eq.trans h.converged_eq⟩

theorem unmoved_record (s : Session) (x : Individual) (outcome : Outcome) (time : Instant) :
    s.Unmoved (s.record x outcome time) := by
  cases outcome with
  | scored fitness cached =>
      obtain ⟨trace, hrecord⟩ := s.record_scored x fitness cached time
      rw [hrecord]
      exact ⟨rfl, rfl, rfl⟩
  | failed error =>
      obtain ⟨trace, hrecord⟩ := s.record_failed x error time
      rw [hrecord]
      exact ⟨rfl, rfl, rfl⟩

theorem unmoved_recordBatch {stored : Bool} {measured : List (Individual × Outcome)} {s last : Session}
    {r r' : Runner} (h : recordBatch stored measured s r = (.ok s', last, r')) : s.Unmoved s' := by
  induction measured generalizing s r with
  | nil =>
      obtain rfl : s = s' := Except.ok.inj (Prod.mk.inj h).1
      exact ⟨rfl, rfl, rfl⟩
  | cons xo measured ih =>
      obtain ⟨x, outcome⟩ := xo
      rw [recordBatch] at h
      dsimp only at h
      split at h
      · cases (Prod.mk.inj h).1
      · exact (s.unmoved_record x outcome r.tick.1).trans (ih h)

/-- The number of stale scores after some rounds. -/
def staleAfter (c : Convergence Float) (mode : Mode) (progress : List Progress) : Nat :=
  (Tracker.ofFloats.fed c (Progress.scores mode progress)).stale

/-- A session that goes on: its tracker has seen the scores that were shown, and there were never as many
stale ones as its patience. -/
structure Patient (c : Convergence Float) (mode : Mode) (s : Session) : Prop where
  tracker_eq : s.tracker = Tracker.ofFloats.fed c (Progress.scores mode s.progress.reverse)
  converged_eq : s.converged = false
  stale_lt : ∀ shown, shown <+: s.progress.reverse → staleAfter c mode shown < c.patience

/-- A session that has ended: it has converged if there are as many stale scores as its patience, and
before there were not. -/
structure Ended (c : Convergence Float) (mode : Mode) (s : Session) : Prop where
  stale_lt : ∀ shown, shown <+: s.progress.reverse → shown ≠ s.progress.reverse →
    staleAfter c mode shown < c.patience
  converged_iff : s.converged = true ↔ c.patience ≤ staleAfter c mode s.progress.reverse

theorem Patient.ended (h : s.Patient c mode) : s.Ended c mode := by
  refine ⟨fun shown hshown _ => h.stale_lt shown hshown, ?_⟩
  rw [h.converged_eq]
  exact iff_of_false (by simp) (not_le.mpr (h.stale_lt _ (List.prefix_refl _)))

theorem Patient.unmoved (h : s.Patient c mode) (hmoved : s.Unmoved s') : s'.Patient c mode := by
  refine ⟨?_, hmoved.converged_eq.trans h.converged_eq, ?_⟩
  · rw [hmoved.tracker_eq, hmoved.progress_eq, h.tracker_eq]
  · rw [hmoved.progress_eq]
    exact h.stale_lt

theorem fresh_ofFloats : Tracker.ofFloats.Fresh := fun _ => rfl

/-- A round without a best score leaves the stale scores as they are. -/
theorem staleAfter_silent {shown : List Progress} {last : Progress} (h : last.best = none) :
    staleAfter c mode (shown ++ [last]) = staleAfter c mode shown := by
  have hscores : Progress.scores mode [last] = [] := by simp [Progress.scores, h]
  rw [staleAfter, Progress.scores_append, hscores, List.append_nil, staleAfter]

theorem fed_scores_append {shown : List Progress} {last : Progress} {best : Float × Candidate}
    (h : last.best = some best) :
    Tracker.ofFloats.fed c (Progress.scores mode (shown ++ [last])) =
      ((Tracker.ofFloats.fed c (Progress.scores mode shown)).update c (mode.orient best.1)).2 := by
  have hscores : Progress.scores mode [last] = [mode.orient best.1] := by simp [Progress.scores, h]
  rw [Progress.scores_append, hscores, Tracker.fed_append]

/-- Closing a round shows it. Without a best score the session goes on; with one the tracker is fed, and
the session stops if it converges. -/
theorem closeRound_cases (h : closeRound c mode s = .goOn s' ∨ closeRound c mode s = .stop s') :
    ∃ last : Progress, s'.progress = last :: s.progress ∧
      (last.best = none ∧ s'.tracker = s.tracker ∧ s'.converged = s.converged ∨
        ∃ best, last.best = some best ∧ s'.tracker = (s.tracker.update c (mode.orient best.1)).2 ∧
          if (s.tracker.update c (mode.orient best.1)).1 then
            closeRound c mode s = .stop s' ∧ s'.converged = true
          else s'.converged = s.converged) := by
  refine ⟨_, progress_closeRound h, ?_⟩
  unfold closeRound at h ⊢
  dsimp only at h ⊢
  split at h
  · next hbest =>
      have hgo := Turn.goOn.inj (h.resolve_right Turn.noConfusion)
      exact .inl ⟨by rw [hbest]; rfl, by rw [← hgo], by rw [← hgo]⟩
  · next x fitness hbest =>
      refine .inr ⟨(fitness, x.candidate), by rw [hbest]; rfl, ?_⟩
      dsimp only
      split at h
      · next hconverged =>
          have hstop := Turn.stop.inj (h.resolve_left Turn.noConfusion)
          rw [if_pos hconverged, ← hstop]
          exact ⟨rfl, if_pos hconverged, hconverged⟩
      · next hconverged =>
          have hgo := Turn.goOn.inj (h.resolve_right Turn.noConfusion)
          rw [if_neg hconverged, ← hgo]
          exact ⟨rfl, rfl⟩

/-- A round that is closed ends the session if it makes as many stale scores as the patience. -/
theorem Patient.closeRound (hc : c.enabled = true) (hpatience : 1 ≤ c.patience) (h : s.Patient c mode)
    (hturn : closeRound c mode s = .goOn s' ∨ closeRound c mode s = .stop s') :
    s'.Ended c mode ∧ (closeRound c mode s = .goOn s' → s'.Patient c mode) := by
  obtain ⟨last, hprogress, hcases⟩ := closeRound_cases hturn
  have hshown : s'.progress.reverse = s.progress.reverse ++ [last] := by
    rw [hprogress, List.reverse_cons]
  have hearlier : ∀ shown, shown <+: s'.progress.reverse → shown ≠ s'.progress.reverse →
      staleAfter c mode shown < c.patience := by
    rw [hshown]
    exact fun shown hbegins hne => h.stale_lt shown ((List.prefix_concat_iff.mp hbegins).resolve_left hne)
  -- a session goes on when its last round makes too few stale scores
  have hgoes : s'.tracker = Tracker.ofFloats.fed c (Progress.scores mode s'.progress.reverse) →
      s'.converged = false → staleAfter c mode s'.progress.reverse < c.patience → s'.Patient c mode := by
    intro htracker hconverged hstale
    refine ⟨htracker, hconverged, fun shown hbegins => ?_⟩
    by_cases hall : shown = s'.progress.reverse
    · rw [hall]
      exact hstale
    · exact hearlier shown hbegins hall
  rcases hcases with ⟨hnone, htracker, hconverged⟩ | ⟨best, hbest, htracker, hverdict⟩
  · have hpatient : s'.Patient c mode := by
      refine hgoes ?_ (hconverged.trans h.converged_eq) ?_
      · rw [htracker, h.tracker_eq, hshown, Progress.scores_append]
        simp [Progress.scores, hnone]
      · rw [hshown, staleAfter_silent hnone]
        exact h.stale_lt _ (List.prefix_refl _)
    exact ⟨hpatient.ended, fun _ => hpatient⟩
  · have hfed : s'.tracker = Tracker.ofFloats.fed c (Progress.scores mode s'.progress.reverse) := by
      rw [htracker, h.tracker_eq, hshown, fed_scores_append hbest]
    have hiff : (s.tracker.update c (mode.orient best.1)).1 = true ↔
        c.patience ≤ staleAfter c mode s'.progress.reverse := by
      rw [staleAfter, ← hfed, htracker]
      refine Tracker.update_iff hc hpatience ?_ _
      rw [h.tracker_eq]
      exact Tracker.fresh_fed hc fresh_ofFloats _
    split at hverdict
    · next hconverges =>
        obtain ⟨hstop, hconverged⟩ := hverdict
        refine ⟨⟨hearlier, iff_of_true hconverged (hiff.mp hconverges)⟩, fun hgo => ?_⟩
        cases hgo.symm.trans hstop
    · next hconverges =>
        have hpatient := hgoes hfed (hverdict.trans h.converged_eq) (not_le.mp (mt hiff.mpr hconverges))
        exact ⟨hpatient.ended, fun _ => hpatient⟩

/-- A round fails, finds no room for its batch, or is closed after its batch has been recorded. -/
theorem playRound_turn (p : Probe ε) (config : Config) (mode : Mode) (i : Interrupt) (s : Session)
    (bench : Runner × ε) :
    (∃ error s', (playRound p config mode i s bench).1 = .fail error s') ∨
      (∃ s', s.Unmoved s' ∧ (playRound p config mode i s bench).1 = .stop s') ∨
      ∃ s₁, s.Unmoved s₁ ∧
        (playRound p config mode i s bench).1 = closeRound (convergence config) mode s₁ := by
  unfold playRound
  split
  · exact .inl ⟨_, _, rfl⟩
  · next source _ =>
      exact .inr (.inl ⟨{ s with exhausted := true, source }, ⟨rfl, rfl, rfl⟩, rfl⟩)
  · exact .inl ⟨_, _, rfl⟩
  · next batch population source _ =>
      dsimp only
      split
      · exact .inl ⟨_, _, rfl⟩
      · split
        · exact .inl ⟨_, _, rfl⟩
        · next s₁ last r hrecord =>
            have hbred : s.Unmoved { s with population, source } := ⟨rfl, rfl, rfl⟩
            exact .inr (.inr ⟨s₁, hbred.trans (unmoved_recordBatch hrecord), rfl⟩)

variable {config : Config}

/-- What a round makes of a session that has been patient. -/
theorem Patient.playRound (hpatience : 1 ≤ config.patience.toInt) (h : s.Patient (convergence config) mode)
    (hround : playRound p config mode i s bench = (.goOn s', bench') ∨
      playRound p config mode i s bench = (.stop s', bench')) :
    s'.Ended (convergence config) mode ∧
      (playRound p config mode i s bench = (.goOn s', bench') → s'.Patient (convergence config) mode) := by
  have hc : (convergence config).enabled = true :=
    decide_eq_true (Int64.lt_iff_toInt_lt.mpr (Int.lt_of_lt_of_le Int.zero_lt_one hpatience))
  have hturn : (Session.playRound p config mode i s bench).1 = .goOn s' ∨
      (Session.playRound p config mode i s bench).1 = .stop s' :=
    hround.imp (congrArg Prod.fst) (congrArg Prod.fst)
  rcases playRound_turn p config mode i s bench with ⟨error, s₁, hfail⟩ | ⟨s₁, hmoved, hstop⟩ |
    ⟨s₁, hmoved, hclose⟩
  · rw [hfail] at hturn
    simp at hturn
  · rw [hstop] at hturn
    obtain rfl := Turn.stop.inj (hturn.resolve_left Turn.noConfusion)
    have hpatient := h.unmoved hmoved
    exact ⟨hpatient.ended, fun _ => hpatient⟩
  · rw [hclose] at hturn
    obtain ⟨hended, hgoes⟩ := (h.unmoved hmoved).closeRound hc hpatience hturn
    exact ⟨hended, fun hgo => hgoes (hclose.symm.trans (congrArg Prod.fst hgo))⟩

/-- However the rounds of a session end, it was patient before the last one that it shows. If they end
well it has converged if there are as many stale scores as its patience; if not there are fewer. -/
theorem Patient.play (hpatience : 1 ≤ config.patience.toInt) (h : s.Patient (convergence config) mode)
    {rounds : Nat} {outcome : Except SessionError Unit}
    (hplay : Session.play p config mode i rounds s bench = (outcome, s', bench')) :
    (∀ shown, shown <+: s'.progress.reverse → shown ≠ s'.progress.reverse →
      staleAfter (convergence config) mode shown < config.patience.toInt) ∧
      (outcome = .ok () → s'.Ended (convergence config) mode) ∧
      ∀ error, outcome = .error error →
        staleAfter (convergence config) mode s'.progress.reverse < config.patience.toInt := by
  induction rounds generalizing s bench with
  | zero =>
      obtain ⟨rfl, rfl, -⟩ := eq_of_play_zero hplay
      exact ⟨h.ended.stale_lt, fun _ => h.ended, fun _ herror => by cases herror⟩
  | succ rounds ih =>
      rw [play_succ] at hplay
      split at hplay
      · next t bench₁ hround => exact ih ((h.playRound hpatience (.inl hround)).2 hround) hplay
      · next t bench₁ hround =>
          obtain ⟨rfl, rfl, -⟩ := (Prod.mk.inj hplay).imp id Prod.mk.inj
          have hended := (h.playRound hpatience (.inr hround)).1
          exact ⟨hended.stale_lt, fun _ => hended, fun _ herror => by cases herror⟩
      · next error t bench₁ hround =>
          obtain ⟨rfl, rfl, -⟩ := (Prod.mk.inj hplay).imp id Prod.mk.inj
          rw [progress_of_fail hround]
          exact ⟨h.ended.stale_lt, fun hok => (by cases hok), fun _ _ => h.stale_lt _ (List.prefix_refl _)⟩

theorem start_patient {population : Population} {source : Source} (hpatience : 1 ≤ c.patience) :
    Patient c mode { population, source } := by
  refine ⟨rfl, rfl, fun shown hshown => ?_⟩
  obtain rfl : shown = [] := List.prefix_nil.mp hshown
  exact Int.lt_of_lt_of_le Int.zero_lt_one hpatience

end Session

/-! ## Patience as significance -/

/-- None of the last scores up to the `n`-th is significant, and they are as many as the patience. -/
def Stalled (counts : Nat → Prop) (patience : Int) (n : Nat) : Prop :=
  patience ≤ n ∧ ∀ i : Nat, n - patience < i → i ≤ n → ¬counts i

theorem IsLatest.stalled_iff {counts : Nat → Prop} {n j : Nat} (h : IsLatest counts n j)
    (patience : Int) : Stalled counts patience n ↔ patience ≤ (n - j : Nat) := by
  obtain ⟨hpos, hle, hj, hlast⟩ := h
  constructor
  · rintro ⟨-, hnone⟩
    by_contra hlt
    exact hnone j (by omega) hle hj
  · intro hstale
    exact ⟨by omega, fun i hi hin => hlast i (by omega) hin⟩

namespace Tracker

variable {patience : Int} {threshold : Float} {t : Tracker Float} {s : Nat → Float}
  {counts : Nat → Prop} {n j : Nat}

/-- A tracker that is new or has just been reset. -/
def IsNew (t : Tracker Float) : Prop :=
  t = .ofFloats ∨ ∃ used : Tracker Float, t = used.reset (-1.0 / 0.0)

theorem IsNew.eq (h : t.IsNew) : t = .ofFloats := by
  rcases h with rfl | ⟨used, rfl⟩ <;> rfl

theorem stale_after (h : Significance (Convergence.Improves threshold) s counts) (ht : t.IsNew)
    (hj : IsLatest counts n j) : (t.after (.ofThreshold true patience threshold) s n).stale = n - j := by
  obtain rfl := ht.eq
  exact (after_of_isLatest rfl (fun _ _ => Convergence.significant_ofThreshold) rfl rfl h hj).2.2

theorem converges_iff (hpatience : 1 ≤ patience)
    (h : Significance (Convergence.Improves threshold) s counts) (ht : t.IsNew)
    (hj : IsLatest counts n j) :
    ((t.after (.ofThreshold true patience threshold) s (n - 1)).update
      (.ofThreshold true patience threshold) (s n)).1 = true ↔ patience ≤ (n - j : Nat) := by
  obtain ⟨m, rfl⟩ : ∃ m, n = m + 1 := ⟨n - 1, by have := hj.1; have := hj.2.1; omega⟩
  have hfresh : (t.after (.ofThreshold true patience threshold) s m).Fresh := by
    rw [ht.eq]
    exact fresh_fed rfl Session.fresh_ofFloats _
  have hstale : (t.after (.ofThreshold true patience threshold) s (m + 1)).stale = m + 1 - j :=
    stale_after h ht hj
  rw [← hstale, after_succ]
  exact update_iff rfl hpatience hfresh _

end Tracker

namespace Progress

variable {mode : Mode} {progress : List Progress}

/-- The scores that a session has shown, from 1 on. -/
def score (mode : Mode) (progress : List Progress) (n : Nat) : Float :=
  (scores mode progress).getD (n - 1) 0

/-- The first scores are those of the first rounds. -/
theorem map_score {shown : List Progress} (h : shown <+: progress) :
    (List.range' 1 (scores mode shown).length).map (score mode progress) = scores mode shown := by
  obtain ⟨rest, rfl⟩ := h
  refine List.ext_getElem (by simp) fun k hk hk' => ?_
  rw [List.getElem_map, List.getElem_range', score, scores_append]
  simp only [Nat.one_mul, Nat.add_sub_cancel_left]
  rw [List.getD_append _ _ _ _ hk', List.getD_eq_getElem _ _ hk']

/-- There are as many stale scores as the patience just if the last scores are not significant. -/
theorem stalled_iff {patience : Int} {threshold : Float} {counts : Nat → Prop} (hpatience : 1 ≤ patience)
    (h : Significance (Convergence.Improves threshold) (score mode progress) counts)
    {shown : List Progress} (hshown : shown <+: progress) :
    Stalled counts patience (scores mode shown).length ↔
      patience ≤ Session.staleAfter (.ofThreshold true patience threshold) mode shown := by
  have hafter : Session.staleAfter (.ofThreshold true patience threshold) mode shown =
      (Tracker.ofFloats.after (.ofThreshold true patience threshold) (score mode progress)
        (scores mode shown).length).stale := by
    rw [Tracker.after, map_score hshown, Session.staleAfter]
  rw [hafter]
  rcases Nat.eq_zero_or_pos (scores mode shown).length with hzero | hpos
  · rw [hzero]
    refine iff_of_false (fun hstalled => ?_) (not_le.mpr (Int.lt_of_lt_of_le Int.zero_lt_one hpatience))
    have := hstalled.1
    omega
  · obtain ⟨j, hj⟩ := h.exists_latest hpos
    rw [hj.stalled_iff, Tracker.stale_after h (.inl rfl) hj]

end Progress

namespace Probe

/-- Patience is the number of scores since the last significant one that a tracker waits for. It counts
these scores, tells when they are as many as its patience, and knows the greatest score; significant
scores rise. So a session converges in the first round after which so many scores were not significant
in a row, and in no earlier one: it goes on before, and it makes no round after. -/
theorem run_patient {patience : Int} (hpatience : 1 ≤ patience) (threshold : Float) :
    (∀ (t : Tracker Float) (s : Nat → Float), t.IsNew →
      ∃ counts, Significance (Convergence.Improves threshold) s counts ∧
        (∀ other, Significance (Convergence.Improves threshold) s other →
          ∀ i, 1 ≤ i → (other i ↔ counts i)) ∧
        (∀ i k, 1 ≤ i → i < k → counts i → counts k → s i < s k) ∧
        ∀ n, 1 ≤ n → ∃ j, IsLatest counts n j ∧
          (t.after (.ofThreshold true patience threshold) s n).stale = n - j ∧
          (((t.after (.ofThreshold true patience threshold) s (n - 1)).update
            (.ofThreshold true patience threshold) (s n)).1 = true ↔ patience ≤ (n - j : Nat)) ∧
          ((∀ i, 1 ≤ i → i ≤ n → (s i).isNaN = false) →
            (∃ i, 1 ≤ i ∧ i ≤ n ∧ (t.after (.ofThreshold true patience threshold) s n).best = s i) ∧
            ∀ i, 1 ≤ i → i ≤ n → s i ≤ (t.after (.ofThreshold true patience threshold) s n).best)) ∧
    ∀ {ε : Type} (p : Probe ε) (space : Space) (config : Config) (mode : Mode) (id : String)
      (i : Interrupt) (bench bench' : Runner × ε) (outcome : Except SessionError SessionResult)
      (progress : List Progress), config.patience.toInt = patience → config.threshold = threshold →
      Mode.ofName config.mode = .ok mode → p.run space config id i bench = (outcome, progress, bench') →
      ∀ counts, Significance (Convergence.Improves threshold) (Progress.score mode progress) counts →
        (∀ k < progress.length,
          ¬Stalled counts patience (Progress.scores mode (progress.take k)).length) ∧
        (∀ result, outcome = .ok result → result.report.rounds = Int64.ofNat progress.length ∧
          (result.report.converged = true ↔
            Stalled counts patience (Progress.scores mode progress).length)) ∧
        ∀ error, outcome = .error error → (∀ fault, error ≠ .report fault) →
          (∀ refusal, error ≠ .store refusal) →
            ¬Stalled counts patience (Progress.scores mode progress).length := by
  constructor
  · intro t s ht
    obtain ⟨counts, hcounts⟩ := Significance.exists_counts
      (Convergence.ofThreshold true patience threshold).significant s
      fun _ _ => Convergence.significant_ofThreshold
    refine ⟨counts, hcounts, fun other hother i hi => hcounts.unique hother i i hi le_rfl,
      fun i k => Convergence.rising_of_significance hcounts, fun n hn => ?_⟩
    obtain ⟨j, hj⟩ := hcounts.exists_latest hn
    refine ⟨j, hj, Tracker.stale_after hcounts ht hj, Tracker.converges_iff hpatience hcounts ht hj,
      fun hnan => Tracker.best_after rfl ?_ hn hnan⟩
    rw [ht.eq]
    rfl
  · intro ε p space config mode id i bench bench' outcome progress hconfig hthreshold hmode hrun counts
      hcounts
    subst hconfig hthreshold
    have hc : Session.convergence config =
        .ofThreshold true config.patience.toInt config.threshold := by
      have henabled : decide (0 < config.patience) = true :=
        decide_eq_true (Int64.lt_iff_toInt_lt.mpr (Int.lt_of_lt_of_le Int.zero_lt_one hpatience))
      rw [Session.convergence, henabled]
    have hiff := fun {shown : List Progress} (hshown : shown <+: progress) =>
      Progress.stalled_iff hpatience hcounts hshown
    rcases run_cases hrun with ⟨rfl, error, rfl⟩ |
      ⟨s, mode', r, played, s', bench₁, hstart, hplay, rfl, hresult, herror⟩
    · refine ⟨fun k hk => absurd hk (Nat.not_lt_zero k), fun result hresult => (by cases hresult),
        fun error _ _ _ hstalled => ?_⟩
      have hzero : (1 : Int) ≤ 0 := hpatience.trans hstalled.1
      exact absurd hzero (by decide)
    · obtain ⟨-, hmode', population, source, -, rfl⟩ := Session.start_eq_ok hstart
      obtain rfl : mode = mode' := Except.ok.inj (hmode.symm.trans hmode')
      obtain ⟨hearlier, hended, hfailed⟩ := Session.Patient.play hpatience
        (Session.start_patient (by rw [hc]; exact hpatience)) hplay
      rw [hc] at hearlier hended hfailed
      refine ⟨fun k hk => ?_, fun result hok => ?_, fun error hfail hreport hstore => ?_⟩
      · rw [hiff (List.take_prefix k _), not_le]
        refine hearlier _ (List.take_prefix k _) fun hall => ?_
        have hlength := congrArg List.length hall
        rw [List.length_take] at hlength
        omega
      · subst hok
        obtain ⟨rfl, finishedAt, hreport⟩ := hresult result rfl
        refine ⟨(run_shows hrun).1, ?_⟩
        rw [hiff (List.prefix_refl _), hreport]
        exact (hended rfl).converged_iff
      · rw [hiff (List.prefix_refl _), not_le]
        rcases herror error hfail with hplayed | ⟨fault, hfault⟩ | ⟨refusal, hrefusal⟩
        · exact hfailed error hplayed
        · exact absurd hfault (hreport fault)
        · exact absurd hrefusal (hstore refusal)

/-- Three rounds with one child each, and a patience of one round. -/
def hasty : Config :=
  { Config.standard with rounds := 3, parents := 2, offspring := 1, patience := 1, threshold := 0.5 }

/-- The second face is no better than the first one. -/
theorem run_patient_hasty :
    ((Tracker.ofFloats.after (.ofThreshold true 1 0.5) (fun n => if n = 2 then 20 else 10) 2).update
      (.ofThreshold true 1 0.5) 10).1 = true ∧
    ∃ result progress bench' counts,
      flat.run die hasty "" .never ({}, ()) = (.ok result, progress, bench') ∧ progress.length = 2 ∧
        Significance (Convergence.Improves 0.5) (Progress.score .maximize progress) counts ∧
        ¬Stalled counts 1 (Progress.scores .maximize (progress.take 1)).length ∧
        Stalled counts 1 (Progress.scores .maximize progress).length := by
  have hpatience : (1 : Int) ≤ 1 := le_rfl
  obtain ⟨htracker, hsession⟩ := run_patient hpatience 0.5
  constructor
  · obtain ⟨counts, -, -, -, hcounts⟩ := htracker .ofFloats (fun n => if n = 2 then 20 else 10) (.inl rfl)
    obtain ⟨j, -, hstale, hiff, -⟩ := hcounts 3 (by decide)
    have hone : (Tracker.ofFloats.after (.ofThreshold true 1 0.5)
        (fun n => if n = 2 then 20 else 10) 3).stale = 1 := by decide +kernel
    refine hiff.mpr ?_
    rw [← hstale, hone]
    exact le_rfl
  · have hresult : ((flat.run die hasty "" .never ({}, ())).1.toOption.map (fun result =>
        result.report.converged), (flat.run die hasty "" .never ({}, ())).2.1.length) = (some true, 2) := by
      decide +kernel
    rcases hrun : flat.run die hasty "" .never ({}, ()) with ⟨_ | result, progress, bench'⟩
    · rw [hrun] at hresult
      cases (Prod.mk.inj hresult).1
    · rw [hrun] at hresult
      obtain ⟨hconverged, hlength⟩ := Prod.mk.inj hresult
      obtain ⟨counts, hcounts, -⟩ := htracker .ofFloats (Progress.score .maximize progress) (.inl rfl)
      obtain ⟨hearlier, hended, -⟩ := hsession flat die hasty .maximize "" .never ({}, ()) bench'
        (.ok result) progress rfl rfl rfl hrun counts hcounts
      exact ⟨result, progress, bench', counts, rfl, hlength, hcounts, hearlier 1 (hlength ▸ by decide),
        (hended result rfl).2.mp (Option.some.inj hconverged)⟩

end Probe

end Tuning
