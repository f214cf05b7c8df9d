import Tuning.Powers

/-! # Binary floating-point numbers as exact numbers -/

namespace Tuning

open scoped Powers

/-- What a floating-point datum stands for. -/
inductive Binary where
  | nan
  | infinite (negative : Bool)
  /-- The number `mantissa * 2 ^ exponent`. The gap to the next smaller number is half the gap to the
  next larger one when `narrow` is set. -/
  | finite (negative : Bool) (mantissa : Nat) (exponent : Int) (narrow : Bool)
  deriving DecidableEq, Repr

namespace Binary

/-- Reads a word with one sign bit, `exponentBits` exponent bits and `fractionBits` fraction bits. -/
def ofWord (exponentBits fractionBits word : Nat) : Binary :=
  let negative := word.testBit (exponentBits + fractionBits)
  let field := (word >>> fractionBits) % 2 ^ exponentBits
  let fraction := word % 2 ^ fractionBits
  let least : Int := 2 - 2 ^ (exponentBits - 1) - fractionBits
  if field = 2 ^ exponentBits - 1 then
    if fraction = 0 then infinite negative else nan
  else if field = 0 then
    finite negative fraction least false
  else
    finite negative (2 ^ fractionBits + fraction) (least + field - 1) (fraction = 0 && 1 < field)

/-- The exact meaning of a double. -/
def ofFloat (x : Float) : Binary :=
  ofWord 11 52 x.toBits.toNat

/-- The exact meaning of a single-precision number. -/
def ofSingle (x : Float32) : Binary :=
  ofWord 8 23 x.toBits.toNat

/-- The greatest whole number that is not above a finite number. -/
def floor? : Binary → Option Int
  | finite negative mantissa exponent _ =>
    let signed : Int := if negative then -mantissa else mantissa
    some (if 0 ≤ exponent then signed * 2 ^ exponent.natAbs else signed / 2 ^ exponent.natAbs)
  | _ => none

/-- A finite number without its fraction. -/
def truncate? : Binary → Option Int
  | finite negative mantissa exponent _ =>
    let size := if 0 ≤ exponent then mantissa * 2 ^ exponent.natAbs else mantissa / 2 ^ exponent.natAbs
    some (if negative then -(size : Int) else size)
  | _ => none

end Binary

end Tuning
