import Tuning.Decimal.Basic
import Tuning.Decimal.Binary
import Tuning.Powers

/-! # Rounding to a number of digits -/

namespace Tuning.Decimal

open scoped Powers

/-- The whole number nearest to `n / d`; a half goes to the even neighbour. -/
def roundDiv (n d : Nat) : Nat :=
  let below := n / d
  let rest := 2 * (n % d)
  if rest < d then below
  else if d < rest then below + 1
  else below + below % 2

/-- The number `mantissa * 2 ^ exponent` in whole units of `10 ^ power`, rounded. -/
def roundTo (mantissa : Nat) (exponent power : Int) : Nat :=
  roundDiv (mantissa * 2 ^ exponent.toNat * 10 ^ (-power).toNat)
    (2 ^ (-exponent).toNat * 10 ^ power.toNat)

/-- The power of ten of the first digit of a positive `mantissa * 2 ^ exponent`. -/
def magnitude (mantissa : Nat) (exponent : Int) : Int :=
  let n := mantissa * 2 ^ exponent.toNat
  let d := 2 ^ (-exponent).toNat
  if d ≤ n then width (n / d) - 1 else
    let size : Int := width (d / n)
    if n * 10 ^ (size - 1).toNat = d then 1 - size else -size

/-- `mantissa * 2 ^ exponent` rounded to `count` significant digits, without trailing zeros. -/
def significant (mantissa : Nat) (exponent : Int) (count : Nat) : Decimal :=
  if mantissa = 0 then ⟨0, 0⟩
  else
    let power := magnitude mantissa exponent - count + 1
    normal ⟨roundTo mantissa exponent power, power⟩

/-- `mantissa * 2 ^ exponent` rounded to `places` digits behind the point, all of them kept. -/
def fixed (mantissa : Nat) (exponent : Int) (places : Nat) : Decimal :=
  ⟨roundTo mantissa exponent (-places), -places⟩

end Tuning.Decimal
