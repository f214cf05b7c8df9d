import Tuning.Decimal.Basic
import Tuning.Decimal.Binary
import Tuning.Powers

/-! # The fewest digits that read back

Every real in an interval around a binary number rounds to it. Of the decimals in that interval the
shortest is taken, and of the shortest the nearest; of two that are equally near, the even one. -/

namespace Tuning.Decimal

open scoped Powers

/-- A positive binary number, its rounding interval and its decimal size as exact fractions over a
common denominator. -/
structure Interval where
  low : Nat
  value : Nat
  high : Nat
  denominator : Nat
  /-- Whether the ends themselves round to the number. -/
  closed : Bool

namespace Interval

/-- The interval of reals that round to `mantissa * 2 ^ exponent`; ties go to even mantissas. -/
def around (mantissa : Nat) (exponent : Int) (narrow : Bool) : Interval :=
  let scale := 2 ^ (exponent - 2).toNat
  { low := (4 * mantissa - if narrow then 1 else 2) * scale
    value := 4 * mantissa * scale
    high := (4 * mantissa + 2) * scale
    denominator := 2 ^ (2 - exponent).toNat
    closed := mantissa % 2 = 0 }

/-- The power of ten of the first digit of the value. -/
def exponent (i : Interval) : Int :=
  if i.denominator ≤ i.value then
    width (i.value / i.denominator) - 1
  else
    -(width (i.denominator / i.value))

/-- The interval in units of `10 ^ power`. -/
def inUnits (i : Interval) (power : Int) : Interval :=
  let up := 10 ^ (-power).toNat
  { i with
    low := i.low * up
    value := i.value * up
    high := i.high * up
    denominator := i.denominator * 10 ^ power.toNat }

/-- Whether a whole number lies in the interval. -/
def holds (i : Interval) (n : Nat) : Bool :=
  let x := n * i.denominator
  if i.closed then i.low ≤ x && x ≤ i.high else i.low < x && x < i.high

/-- The whole number in the interval that is nearest to the value, if there is one. -/
def nearest? (i : Interval) : Option Nat :=
  let below := i.value / i.denominator
  let rest := 2 * (i.value % i.denominator)
  match i.holds below, i.holds (below + 1) with
  | false, false => none
  | true, false => some below
  | false, true => some (below + 1)
  | true, true =>
    if rest < i.denominator then some below
    else if i.denominator < rest then some (below + 1)
    else some (below + below % 2)

/-- The first decimal in the interval among those of `count` digits, `count + 1` digits and so on. -/
def search (i : Interval) : (fuel : Nat) → (count : Nat) → Decimal
  | 0, _ => ⟨i.value / i.denominator, 0⟩
  | fuel + 1, count =>
    let power := i.exponent - count + 1
    match (i.inUnits power).nearest? with
    | some n => normal ⟨n, power⟩
    | none => search i fuel (count + 1)

end Interval

/-- The shortest decimal that reads back as `mantissa * 2 ^ exponent`; seventeen digits always do. -/
def shortest (mantissa : Nat) (exponent : Int) (narrow : Bool) : Decimal :=
  if mantissa = 0 then ⟨0, 0⟩
  else (Interval.around mantissa exponent narrow).search 20 1

end Tuning.Decimal
