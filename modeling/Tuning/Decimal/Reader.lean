import Tuning.Decimal.Basic

/-! # Reading numbers -/

namespace Tuning

/-- The number that decimal digits make. -/
def natOfDigits (ds : List Char) : Nat :=
  ds.foldl (fun n c => 10 * n + (c.toNat - '0'.toNat)) 0

/-- Splits a sign off the front; `true` stands for minus. -/
def splitSign : List Char → Bool × List Char
  | '-' :: cs => (true, cs)
  | '+' :: cs => (false, cs)
  | cs => (false, cs)

/-- A whole number that fits into a signed 64-bit word. -/
def wordOfInt? (n : Int) : Option Int64 :=
  if -9223372036854775808 ≤ n ∧ n ≤ 9223372036854775807 then some (Int64.ofInt n) else none

/-- Reads an optional sign and decimal digits. -/
def readInt? (text : String) : Option Int :=
  let (negative, ds) := splitSign text.toList
  if ds.isEmpty || !ds.all Char.isDigit then none
  else if negative then some (-(natOfDigits ds : Int))
  else some (natOfDigits ds)

/-- Reads a signed exponent after its mark; without mark it is zero. -/
def readPower? : List Char → Option Int
  | [] => some 0
  | mark :: cs =>
    let (negative, ds) := splitSign cs
    if (mark != 'e' && mark != 'E') || ds.isEmpty || !ds.all Char.isDigit then none
    else if negative then some (-(natOfDigits ds : Int))
    else some (natOfDigits ds)

/-- Reads digits with an optional point and exponent; at least one digit stands around the point. -/
def readDecimal? (cs : List Char) : Option Decimal := do
  let (whole, rest) := cs.span Char.isDigit
  let (fraction, rest) := match rest with
    | '.' :: rest => rest.span Char.isDigit
    | rest => ([], rest)
  if whole.isEmpty && fraction.isEmpty then none
  let power ← readPower? rest
  return ⟨natOfDigits (whole ++ fraction), power - fraction.length⟩

/-- Reads a signed decimal as the nearest double; numbers beyond the finite doubles are refused. -/
def readFloat? (text : String) : Option Float := do
  let (negative, cs) := splitSign text.toList
  let x := (← readDecimal? cs).toFloat
  if x.isInf then none
  return if negative then -x else x

/-- Reads a signed decimal as the nearest single-precision number. -/
def readSingle? (text : String) : Option Float32 := do
  let (negative, cs) := splitSign text.toList
  let x := (← readDecimal? cs).toSingle
  return if negative then -x else x

end Tuning
