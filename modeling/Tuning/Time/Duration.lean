import Tuning.Decimal.Reader
import Tuning.Powers

/-! # Durations

A duration is a signed 64-bit number of nanoseconds. -/

namespace Tuning

open scoped Powers

/-- A span of time in nanoseconds. -/
structure Duration where
  nanoseconds : Int64
  deriving DecidableEq, Repr

/-- Why a text is no duration. -/
inductive DurationFault where
  | malformed
  | noUnit
  | unknownUnit (name : String)
  deriving DecidableEq, Repr

namespace Duration

/-- The duration of a number of nanoseconds, cut off at the ends of the range. -/
def ofInt (n : Int) : Duration :=
  ⟨if n < -9223372036854775808 then Int64.minValue
    else if 9223372036854775807 < n then Int64.maxValue
    else Int64.ofInt n⟩

/-- The duration in seconds: whole seconds and the fraction of a second, added as doubles. -/
def seconds (d : Duration) : Float :=
  let n := d.nanoseconds.toInt
  Float.ofInt (n.tdiv 1000000000) + Float.ofInt (n.tmod 1000000000) / 1e9

/-- Two texts around a point: whole units and a fraction without trailing zeros. -/
def fractional (n unit : Nat) : String :=
  (Decimal.normal ⟨n, -(Decimal.width unit - 1 : Nat)⟩).positional

/-- The text of a number of nanoseconds: the largest unit below a second, else hours, minutes and
seconds from the first one that is not zero. -/
def natText (n : Nat) : String :=
  if n = 0 then "0s"
  else if n < 1000 then toString n ++ "ns"
  else if n < 1000000 then fractional n 1000 ++ "µs"
  else if n < 1000000000 then fractional n 1000000 ++ "ms"
  else
    let minutes := n / 60000000000
    let seconds := fractional (n % 60000000000) 1000000000 ++ "s"
    if minutes = 0 then seconds
    else if minutes < 60 then toString minutes ++ "m" ++ seconds
    else toString (minutes / 60) ++ "h" ++ toString (minutes % 60) ++ "m" ++ seconds

/-- The text of a duration. -/
def toText (d : Duration) : String :=
  let n := d.nanoseconds.toInt
  if n < 0 then "-" ++ natText n.natAbs else natText n.natAbs

/-- The nearest multiple of a positive unit, halves away from zero; beyond the range the ends of it. -/
def round (d : Duration) (unit : Nat) : Duration :=
  let n := d.nanoseconds.toInt
  let size := (n.natAbs + unit / 2) / unit * unit
  ofInt (if n < 0 then -size else size)

/-- Nanoseconds in a unit of time. -/
def unitSize? (name : List Char) : Option Nat :=
  match String.ofList name with
  | "ns" => some 1
  | "us" | "µs" | "μs" => some 1000
  | "ms" => some 1000000
  | "s" => some 1000000000
  | "m" => some 60000000000
  | "h" => some 3600000000000
  | _ => none

/-- The digits of a fraction as a number with its scale; digits that would exceed 63 bits do not count. -/
def fractionDigits : (value scale : Nat) → List Char → Nat × Nat
  | value, scale, [] => (value, scale)
  | value, scale, c :: rest =>
    let next := 10 * value + (c.toNat - '0'.toNat)
    if 922337203685477580 < value ∨ 9223372036854775808 < next then (value, scale)
    else fractionDigits next (10 * scale) rest

/-- A number of units in nanoseconds: the fraction is scaled as a double, and what is less than a
nanosecond is dropped. -/
def scaled (whole fraction : List Char) (unit : Nat) : Nat :=
  let (value, scale) := fractionDigits 0 1 fraction
  natOfDigits whole * unit + (Float.ofNat value * (Float.ofNat unit / Float.ofNat scale)).toUInt64.toNat

/-- Reads numbers with units up to the end of a text and adds them up in nanoseconds, in words of 64
bits. -/
def readUnits : (fuel : Nat) → (total : Nat) → List Char → Except DurationFault Nat
  | _, total, [] => .ok total
  | 0, _, _ => .error .malformed
  | fuel + 1, total, cs =>
    let (whole, rest) := cs.span Char.isDigit
    let (fraction, rest) := match rest with
      | '.' :: rest => rest.span Char.isDigit
      | rest => ([], rest)
    let (name, rest) := rest.span fun c => !(c.isDigit || c == '.')
    if (whole.isEmpty && fraction.isEmpty) || 9223372036854775808 < natOfDigits whole then .error .malformed
    else if name.isEmpty then .error .noUnit
    else match unitSize? name with
      | none => .error (.unknownUnit (String.ofList name))
      | some unit =>
        let part := scaled whole fraction unit
        let total := (total + part) % 2 ^ (64 : Nat)
        if 9223372036854775808 < part ∨ 9223372036854775808 < total then .error .malformed
        else readUnits fuel total rest

/-- Reads a duration: an optional sign, and zero or numbers with units. -/
def parse (text : String) : Except DurationFault Duration :=
  let (negative, cs) := splitSign text.toList
  if cs == ['0'] then .ok ⟨0⟩
  else if cs.isEmpty then .error .malformed
  else match readUnits cs.length 0 cs with
    | .error fault => .error fault
    | .ok total =>
      if negative then .ok (ofInt (-total))
      else if 9223372036854775807 < total then .error .malformed
      else .ok (ofInt total)

end Duration

end Tuning
