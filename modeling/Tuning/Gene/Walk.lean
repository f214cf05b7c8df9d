import Tuning.Random.Source

/-! # Random walks

A walk goes on for as long as a roll against its rate succeeds. -/

namespace Tuning.Draw

variable {α : Type}

/-- Takes steps, `fuel` at most, while rolls succeed; where there is no step the walk ends. -/
def walkFor (rate : Float) (step : α → Option (Draw α)) : (fuel : Nat) → α → Draw α
  | 0, _ => failure
  | fuel + 1, x => do
    if (← fraction) < rate then
      match step x with
      | none => return x
      | some next => walkFor rate step fuel (← next)
    else return x

/-- Takes steps while rolls succeed. Every roll draws a word, so the allowance bounds the steps. -/
def walk (rate : Float) (step : α → Option (Draw α)) (x : α) : Draw α := do
  walkFor rate step ((← get).allowance + 1) x

end Tuning.Draw
