import Tuning.Value.Basic
import Tuning.Decimal.Literal
import Tuning.Text.Base64
import Tuning.Text.Bytes

/-! # The values of scalars

The value that a scalar without tag stands for: a truth value, nothing, a date, a number, or else the
text itself. A tag of the language says which of them it has to be. -/

namespace Tuning.Yaml

/-- The words with a fixed meaning. -/
def reserved? : String → Option Value
  | "true" | "True" | "TRUE" => some (.bool true)
  | "false" | "False" | "FALSE" => some (.bool false)
  | "" | "~" | "null" | "Null" | "NULL" => some .null
  | ".nan" | ".NaN" | ".NAN" => some (.float (0.0 / 0.0))
  | ".inf" | ".Inf" | ".INF" | "+.inf" | "+.Inf" | "+.INF" => some (.float (1.0 / 0.0))
  | "-.inf" | "-.Inf" | "-.INF" => some (.float (-1.0 / 0.0))
  | _ => none

/-- Splits a clock time off the front. -/
def clock? (cs : List Char) : Option (Nat × Nat × List Char) := do
  let (hour, cs) ← Instant.twoDigits? true cs
  let cs ← Instant.expect? ':' cs
  let (minute, cs) ← Instant.twoDigits? true cs
  let cs ← Instant.expect? ':' cs
  let (second, cs) ← Instant.twoDigits? true cs
  let (nanoseconds, cs) := Instant.readFraction cs
  if 23 < hour || 59 < minute || 59 < second then none
  return (hour * 3600 + minute * 60 + second, nanoseconds, cs)

/-- A day that exists, or a moment of it; months, days and clock times may have one digit, and any number
of blanks may stand between a day and a clock time. -/
def date? (text : String) : Option Instant := do
  let (year, cs) := text.toList.span Char.isDigit
  if year.length != 4 then none
  let cs ← Instant.expect? '-' cs
  let (month, cs) ← Instant.twoDigits? true cs
  let cs ← Instant.expect? '-' cs
  let (day, cs) ← Instant.twoDigits? true cs
  let year := natOfDigits year
  if month < 1 || 12 < month || day < 1 || Date.monthLength year month < day then none
  let midnight := Instant.ofDate ⟨year, month, day⟩
  match cs with
  | [] => return midnight
  | mark :: cs =>
    let (second, nanoseconds, cs) ← clock? (if mark == ' ' then cs.dropWhile (· == ' ') else cs)
    let moment : Instant := ⟨midnight.seconds + second, nanoseconds, 0⟩
    if mark == ' ' then
      if cs.isEmpty then return moment else none
    else if mark == 'T' || mark == 't' then
      let offset ← Instant.readOffset? cs
      return { moment with seconds := moment.seconds - offset, offset }
    else none

/-- Whether a text has the form of a decimal number: digits and a point, then perhaps an exponent. -/
def isDecimal (cs : List Char) : Bool :=
  (readDecimal? (splitSign cs).2).isSome

/-- The integer in binary or octal digits whose sign stands behind the mark of its base. -/
def signedBehindMark? : List Char → Option Int64
  | '0' :: mark :: cs => do
    let base ← if mark == 'b' then some 2 else if mark == 'o' then some 8 else none
    let (negative, digits) := splitSign cs
    if digits.isEmpty then none
    let n ← (Literal.readDigits base 0 digits).toOption
    wordOfInt? (if negative then -(n : Int) else n)
  | _ => none

/-- The number that a text beginning with a digit or a sign stands for. -/
def number? (text : String) : Option Value :=
  let cs := text.toList.filter (· != '_')
  let plain := String.ofList cs
  match Literal.word plain with
  | .ok n => some (.int n)
  | .error _ =>
    match Literal.unsigned cs with
    | .ok n => some (.unsigned 64 n.toUInt64)
    | .error _ =>
      if isDecimal cs then
        match readFloat? plain with
        | some x => some (.float x)
        | none => none
      else (signedBehindMark? cs).map .int

/-- The value of a plain scalar. -/
def plainValue (text : String) : Value :=
  match reserved? text with
  | some v => v
  | none =>
    match text.toList with
    | '.' :: _ =>
      match Literal.float text with
      | .ok x => .float x
      | .error _ => .text text
    | c :: _ =>
      if c.isDigit || c == '+' || c == '-' then
        match date? text with
        | some t => .time t none
        | none => (number? text).getD (.text text)
      else .text text
    | [] => .null

/-- The tag of the type of a scalar. -/
def tagOf : Value → String
  | .null => "!!null"
  | .bool _ => "!!bool"
  | .int _ | .unsigned .. => "!!int"
  | .float _ => "!!float"
  | .time .. => "!!timestamp"
  | _ => "!!str"

/-- The value of a scalar whose tag demands a type; integers serve as doubles. -/
def typedValue? (tag text : String) : Option Value :=
  let v := plainValue text
  if tagOf v == tag then some v
  else
    match v with
    | .int n => if tag == "!!float" then some (.float (Float.ofInt n.toInt)) else none
    | _ => none

/-- The value of a scalar with a tag. Tags that are not known make texts. -/
def scalarValue? (tag text : String) : Option Value :=
  match tag with
  | "" => some (plainValue text)
  | "!!null" | "!!bool" | "!!int" | "!!float" | "!!timestamp" => typedValue? tag text
  | "!!binary" => (Base64.decode? text).map .ofBytes
  | _ => some (.text text)

end Tuning.Yaml
