/-! # Convergence

A tracker follows the best score of a session. An update is significant when it improves on the last
significant score by enough; a session that has been patient for long enough has converged. -/

namespace Tuning

/-- When a session counts as converged. -/
structure Convergence (α : Type) where
  enabled : Bool
  /-- The number of updates without significant improvement that end a session. -/
  patience : Int
  /-- Whether a score improves on a reference by enough. -/
  significant : (reference score : α) → Bool

/-- The scores seen so far, the latest first. -/
structure Tracker (α : Type) where
  history : List α
  best : α
  /-- The last significant score. -/
  reference : α
  /-- The number of updates since the last significant one. -/
  stale : Nat

namespace Tracker

variable {α : Type}

/-- A tracker that has seen nothing; `bottom` lies below all scores. -/
def start (bottom : α) : Tracker α :=
  { history := [], best := bottom, reference := bottom, stale := 0 }

/-- Forgets what a tracker has seen. -/
def reset (t : Tracker α) (bottom : α) : Tracker α :=
  { t with history := [], best := bottom, reference := bottom, stale := 0 }

/-- Takes in a score that is significant. -/
def progress (t : Tracker α) (score : α) : Tracker α :=
  { t with reference := score, stale := 0 }

variable [LT α] [DecidableRel (α := α) (· < ·)]

/-- Remembers a score. -/
def remember (t : Tracker α) (score : α) : Tracker α :=
  { t with history := score :: t.history, best := if t.best < score then score else t.best }

/-- Takes in the best score so far and tells whether the session has converged. The first score is
significant whatever it is. -/
def update (c : Convergence α) (t : Tracker α) (score : α) : Bool × Tracker α :=
  if c.enabled then
    let seen := t.remember score
    match t.history with
    | [] => (false, { seen with reference := score })
    | _ :: _ =>
      if c.significant t.reference score then (false, seen.progress score)
      else (c.patience ≤ seen.stale + 1, { seen with stale := seen.stale + 1 })
  else (false, t)

end Tracker

namespace Convergence

/-- The gain of a score over a reference, relative to its size. Any gain over zero is infinite. -/
def relativeGain (reference score : Float) : Float :=
  if reference == 0.0 then
    if 0.0 < score then 1.0 / 0.0 else 0.0
  else (score - reference) / reference.abs

/-- Convergence by a threshold for the relative gain. -/
def ofThreshold (enabled : Bool) (patience : Int) (threshold : Float) : Convergence Float :=
  { enabled, patience
    significant := fun reference score =>
      threshold ≤ relativeGain reference score && reference < score }

/-- Three rounds of patience and a gain of one in a thousand. -/
def standard : Convergence Float :=
  ofThreshold true 3 0.001

end Convergence

/-- A tracker of doubles that has seen nothing. -/
def Tracker.ofFloats : Tracker Float :=
  .start (-1.0 / 0.0)

end Tuning
