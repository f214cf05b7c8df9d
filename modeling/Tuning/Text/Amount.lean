import Tuning.Decimal.Text
import Tuning.Time.Instant

/-! # Amounts for people

Counts with commas, sizes with decimal units, and times seen from now. -/

namespace Tuning.Amount

/-- Puts a comma in front of every third digit, counted from the end; digits come in reverse. -/
def commaFrom : List Char → List Char
  | a :: b :: c :: d :: rest => a :: b :: c :: ',' :: commaFrom (d :: rest)
  | digits => digits

/-- A count with commas. -/
def comma (n : Int) : String :=
  let digits := String.ofList (commaFrom (toString n.natAbs).toList.reverse).reverse
  if n < 0 then "-" ++ digits else digits

/-- The units of size; each is a thousand of the one before. -/
def units : List String :=
  ["B", "kB", "MB", "GB", "TB", "PB", "EB"]

/-- The unit of a size, and how many bytes it has. -/
def unitOf (n : Nat) : (size : Nat) → List String → String × Nat
  | size, unit :: next :: rest =>
    if n < 1000 * size then (unit, size) else unitOf n (1000 * size) (next :: rest)
  | size, rest => (rest.headD "", size)

/-- A number of bytes in a unit, with one digit behind the point if it is less than ten. -/
def bytes (n : Nat) : String :=
  if n < 10 then toString n ++ " B"
  else
    let (unit, size) := unitOf n 1 units
    let value := (Float.ofNat n / Float.ofNat size * 10.0 + 0.5).floor / 10.0
    fixedNumber (if value < 10.0 then 1 else 0) value ++ " " ++ unit

/-- Spans of time by their size in seconds: up to where a span is told, the unit to count in if it is
counted, and the words. -/
def spans : List (Nat × Option Nat × String) :=
  let minute := 60
  let hour := 60 * minute
  let day := 24 * hour
  let week := 7 * day
  let month := 30 * day
  let year := 12 * month
  [(2, none, "1 second"), (minute, some 1, "seconds"), (2 * minute, none, "1 minute"),
    (hour, some minute, "minutes"), (2 * hour, none, "1 hour"), (day, some hour, "hours"),
    (2 * day, none, "1 day"), (week, some day, "days"), (2 * week, none, "1 week"),
    (month, some week, "weeks"), (2 * month, none, "1 month"), (year, some month, "months"),
    (18 * month, none, "1 year"), (2 * year, none, "2 years"), (37 * year, some year, "years")]

/-- A span of nanoseconds in words. -/
def spanText (n : Nat) : String :=
  let second := 1000000000
  match spans.find? fun (limit, _, _) => n < limit * second with
  | some (_, some unit, words) => toString (n / (unit * second)) ++ " " ++ words
  | some (_, none, words) => words
  | none => "a long while"

/-- A time seen from now. -/
def time (t now : Instant) : String :=
  let after := now.before t
  let n := (if after then t.since now else now.since t).nanoseconds.toInt.natAbs
  if n < 1000000000 then "now" else spanText n ++ (if after then " from now" else " ago")

end Tuning.Amount
