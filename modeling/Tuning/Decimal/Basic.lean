/-! # Decimal numbers

A decimal is a coefficient and a power of ten. Two texts are made of it: positional notation and
scientific notation. -/

namespace Tuning

/-- The number `coefficient * 10 ^ scale`. -/
structure Decimal where
  coefficient : Nat
  scale : Int
  deriving DecidableEq, Repr

namespace Decimal

/-- The decimal digits of a number, most significant first; zero has one digit. -/
def digits (n : Nat) : List Char :=
  Nat.toDigits 10 n

/-- How many decimal digits a number has. -/
def width (n : Nat) : Nat :=
  (digits n).length

/-- Moves factors of ten of the coefficient to the scale, `fuel` of them at most. -/
def strip : (fuel : Nat) → Decimal → Decimal
  | 0, d => d
  | fuel + 1, d =>
    if d.coefficient % 10 = 0 then
      strip fuel ⟨d.coefficient / 10, d.scale + 1⟩
    else d

/-- The same number with a coefficient that is not a multiple of ten, or zero with scale zero. -/
def normal (d : Decimal) : Decimal :=
  if d.coefficient = 0 then ⟨0, 0⟩ else d.strip (width d.coefficient)

/-- The power of ten of the first digit. -/
def exponent (d : Decimal) : Int :=
  d.scale + width d.coefficient - 1

/-- Positional notation: zeros are filled in up to the point, and a point appears only before digits. -/
def positional (d : Decimal) : String :=
  let ds := digits d.coefficient
  if 0 ≤ d.scale then
    String.ofList (ds ++ List.replicate d.scale.toNat '0')
  else
    let places := d.scale.natAbs
    if places < ds.length then
      String.ofList (ds.take (ds.length - places) ++ '.' :: ds.drop (ds.length - places))
    else
      String.ofList ('0' :: '.' :: List.replicate (places - ds.length) '0' ++ ds)

/-- Scientific notation: one digit, the others behind a point, and a signed exponent of at least
`least` digits. -/
def scientific (d : Decimal) (least : Nat) : String :=
  let mantissa := match digits d.coefficient with
    | [] => "0"
    | [first] => String.ofList [first]
    | first :: rest => String.ofList (first :: '.' :: rest)
  let power := digits d.exponent.natAbs
  let sign := if d.exponent < 0 then "-" else "+"
  mantissa ++ "e" ++ sign ++ String.ofList (List.replicate (least - power.length) '0' ++ power)

/-- The nearest double. Numbers beyond the range of doubles become zero or infinity at once. -/
def toFloat (d : Decimal) : Float :=
  if d.coefficient = 0 ∨ d.exponent < -400 then 0.0
  else if 400 < d.exponent then 1.0 / 0.0
  else if 0 ≤ d.scale then Float.ofScientific d.coefficient false d.scale.natAbs
  else Float.ofScientific d.coefficient true d.scale.natAbs

/-- The nearest single-precision number. -/
def toSingle (d : Decimal) : Float32 :=
  if d.coefficient = 0 ∨ d.exponent < -400 then 0.0
  else if 400 < d.exponent then 1.0 / 0.0
  else if 0 ≤ d.scale then Float32.ofScientific d.coefficient false d.scale.natAbs
  else Float32.ofScientific d.coefficient true d.scale.natAbs

end Decimal

end Tuning
