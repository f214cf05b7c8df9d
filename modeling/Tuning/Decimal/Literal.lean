import Tuning.Decimal.Reader
import Tuning.Powers

/-! # Number literals

Literals as people type them: integers may carry a mark for their base (`0x`, `0o`, `0b`, or a leading
zero for octal), digits may be grouped by underscores, and doubles may be hexadecimal. -/

namespace Tuning

open scoped Powers

/-- Why a text is not a number of the wanted range. -/
inductive LiteralFault where
  | malformed
  | outOfRange
  deriving DecidableEq, Repr

/-- The words for a text that is not a number. -/
def LiteralFault.message : LiteralFault → String
  | malformed => "invalid syntax"
  | outOfRange => "value out of range"

namespace Literal

/-- The value of a digit in bases up to 16. -/
def digit? (c : Char) : Option Nat :=
  if c.isDigit then some (c.toNat - '0'.toNat)
  else if 'a' ≤ c ∧ c ≤ 'f' then some (c.toNat - 'a'.toNat + 10)
  else if 'A' ≤ c ∧ c ≤ 'F' then some (c.toNat - 'A'.toNat + 10)
  else none

/-- Whether underscores stand between digits only, where `afterDigit` tells what came before. -/
def groupedFrom (isDigit : Char → Bool) : (afterDigit afterMark : Bool) → List Char → Bool
  | _, afterMark, [] => !afterMark
  | afterDigit, afterMark, c :: cs =>
    if isDigit c then groupedFrom isDigit true false cs
    else if c == '_' then afterDigit && groupedFrom isDigit false true cs
    else !afterMark && groupedFrom isDigit false false cs

/-- Whether the underscores of an unsigned literal stand between digits, or between the mark of its
base and a digit. -/
def grouped : List Char → Bool
  | '0' :: mark :: cs =>
    if mark == 'x' || mark == 'X' then groupedFrom (fun c => (digit? c).isSome) true false cs
    else if mark == 'b' || mark == 'B' || mark == 'o' || mark == 'O' then
      groupedFrom Char.isDigit true false cs
    else groupedFrom Char.isDigit false false ('0' :: mark :: cs)
  | cs => groupedFrom Char.isDigit false false cs

/-- Splits an unsigned literal into its base and its digits. -/
def splitBase : List Char → Nat × List Char
  | '0' :: mark :: c :: cs =>
    if mark == 'x' || mark == 'X' then (16, c :: cs)
    else if mark == 'o' || mark == 'O' then (8, c :: cs)
    else if mark == 'b' || mark == 'B' then (2, c :: cs)
    else (8, mark :: c :: cs)
  | '0' :: cs => (8, cs)
  | cs => (10, cs)

/-- Reads digits of a base from the left, up to the first character that is none or that makes the
number exceed 64 bits. -/
def readDigits (base : Nat) : (value : Nat) → List Char → Except LiteralFault Nat
  | value, [] => .ok value
  | value, '_' :: cs => readDigits base value cs
  | value, c :: cs =>
    match digit? c with
    | none => .error .malformed
    | some d =>
      if base ≤ d then .error .malformed
      else if 2 ^ (64 : Nat) ≤ value * base + d then .error .outOfRange
      else readDigits base (value * base + d) cs

/-- Reads an unsigned literal of at most 64 bits. -/
def unsigned (cs : List Char) : Except LiteralFault Nat :=
  if cs.isEmpty then .error .malformed
  else
    let (base, digits) := splitBase cs
    match readDigits base 0 digits with
    | .ok n => if cs.contains '_' && !grouped cs then .error .malformed else .ok n
    | .error fault => .error fault

/-- Reads a literal as a signed 64-bit word. -/
def word (text : String) : Except LiteralFault Int64 :=
  let (negative, cs) := splitSign text.toList
  match unsigned cs with
  | .error fault => .error fault
  | .ok n =>
    match wordOfInt? (if negative then -(n : Int) else n) with
    | some w => .ok w
    | none => .error .outOfRange

/-- Splits a mantissa into its digits without the point, and the number of them behind it. -/
def splitMantissa (isDigit : Char → Bool) (cs : List Char) : List Char × Nat × List Char :=
  let (whole, rest) := cs.span isDigit
  match rest with
  | '.' :: rest =>
    let (fraction, rest) := rest.span isDigit
    (whole ++ fraction, fraction.length, rest)
  | rest => (whole, 0, rest)

/-- Reads a hexadecimal mantissa with a binary exponent. -/
def hexadecimal? (cs : List Char) : Option Decimal := do
  let (digits, behind, rest) := splitMantissa (fun c => (digit? c).isSome) cs
  if digits.isEmpty then none
  let mantissa := digits.foldl (fun n c => 16 * n + (digit? c).getD 0) 0
  match rest with
  | [] => none
  | mark :: rest =>
    if mark != 'p' && mark != 'P' then none
    let (negative, ds) := splitSign rest
    if ds.isEmpty || !ds.all Char.isDigit then none
    let size := min (natOfDigits ds) 10000
    let power : Int := (if negative then -(size : Int) else size) - 4 * behind
    return if power < 0 then ⟨mantissa * 5 ^ power.natAbs, power⟩ else ⟨mantissa * 2 ^ power.natAbs, 0⟩

/-- The numbers that are written as words. -/
def named? (text : String) : Option Float :=
  let (negative, cs) := splitSign text.toList
  let word := String.ofList (cs.map Char.toLower)
  if word == "inf" || word == "infinity" then some (if negative then -1.0 / 0.0 else 1.0 / 0.0)
  else if text.toLower == "nan" then some (0.0 / 0.0)
  else none

/-- Reads an unsigned decimal or hexadecimal number. -/
def magnitude? (cs : List Char) : Option Decimal :=
  if cs.contains '_' && !grouped cs then none
  else
    match cs.filter (· != '_') with
    | '0' :: mark :: rest =>
      if (mark == 'x' || mark == 'X') && !rest.isEmpty then hexadecimal? rest
      else readDecimal? ('0' :: mark :: rest)
    | cs => readDecimal? cs

/-- Reads a literal as the nearest double. -/
def float (text : String) : Except LiteralFault Float :=
  match named? text with
  | some x => .ok x
  | none =>
    let (negative, cs) := splitSign text.toList
    match magnitude? cs with
    | none => .error .malformed
    | some d =>
      let x := d.toFloat
      if x.isInf then .error .outOfRange else .ok (if negative then -x else x)

end Literal

end Tuning
