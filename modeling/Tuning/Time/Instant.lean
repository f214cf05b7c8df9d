import Tuning.Powers
import Tuning.Time.Calendar
import Tuning.Time.Duration

/-! # Points in time

An instant keeps the offset from universal time under which it was written. -/

namespace Tuning

open scoped Powers

/-- A point in time: seconds since the beginning of year 1 and nanoseconds, shown with an offset. -/
structure Instant where
  seconds : Int
  nanoseconds : Nat
  /-- Seconds east of universal time. -/
  offset : Int
  deriving DecidableEq, Repr, Inhabited

namespace Instant

/-- The beginning of year 1, which stands for "no time". -/
def zero : Instant := ⟨0, 0, 0⟩

/-- Whether an instant stands for "no time". -/
def isZero (t : Instant) : Bool :=
  t.seconds == 0 && t.nanoseconds == 0

/-- Nanoseconds since the beginning of year 1. -/
def total (t : Instant) : Int :=
  t.seconds * 1000000000 + t.nanoseconds

/-- Whether one instant comes before another. -/
def before (t u : Instant) : Bool :=
  t.total < u.total

/-- The time from `u` to `t`, cut off at the ends of the range of durations. -/
def since (t u : Instant) : Duration :=
  .ofInt (t.total - u.total)

/-- The instant a number of days earlier, at the same time of day in a place that keeps its offset.
Seconds are counted in 64-bit words, so that beyond their ends an instant comes out at the other end of
time. -/
def daysEarlier (t : Instant) (days : Int) : Instant :=
  { t with seconds := (Int64.ofInt (t.seconds - 86400 * days)).toInt }

/-- The instant a number of nanoseconds later. -/
def later (t : Instant) (nanoseconds : Nat) : Instant :=
  let total := t.nanoseconds + nanoseconds
  { t with seconds := t.seconds + total / 1000000000, nanoseconds := total % 1000000000 }

/-- The nanoseconds from one look at the clock to the next. -/
def moment : Nat := 1

/-- The beginning of a day of universal time. -/
def ofDate (d : Date) : Instant :=
  ⟨86400 * d.toDays, 0, 0⟩

/-- The instant so many seconds after the start of 1970. -/
def ofUnix (seconds : Int) (nanoseconds : Nat) : Instant :=
  ⟨(ofDate ⟨1970, 1, 1⟩).seconds + seconds, nanoseconds, 0⟩

/-- The day that is shown. -/
def date (t : Instant) : Date :=
  .ofDays ((t.seconds + t.offset) / 86400)

/-- The second of the day that is shown. -/
def secondOfDay (t : Instant) : Nat :=
  ((t.seconds + t.offset) % 86400).toNat

/-- A number with at least `width` digits. -/
def padded (width n : Nat) : String :=
  let ds := Decimal.digits n
  String.ofList (List.replicate (width - ds.length) '0' ++ ds)

/-- The year that is shown, with four digits at least. -/
def yearText (year : Int) : String :=
  if year < 0 then "-" ++ padded 4 year.natAbs else padded 4 year.natAbs

/-- The shown day as `2006-01-02`. -/
def dateText (t : Instant) : String :=
  let d := t.date
  yearText d.year ++ "-" ++ padded 2 d.month ++ "-" ++ padded 2 d.day

/-- The shown time of day as `15:04:05`. -/
def clockText (t : Instant) : String :=
  let s := t.secondOfDay
  padded 2 (s / 3600) ++ ":" ++ padded 2 (s / 60 % 60) ++ ":" ++ padded 2 (s % 60)

/-- The fraction of a second behind a point, without trailing zeros. -/
def fractionText (t : Instant) : String :=
  if t.nanoseconds = 0 then ""
  else String.ofList ((Decimal.normal ⟨t.nanoseconds, -9⟩).positional.toList.drop 1)

/-- The offset as `+07:00`, where universal time is `Z`. -/
def offsetText (offset : Int) : String :=
  if offset = 0 then "Z"
  else
    let minutes := offset.natAbs / 60
    (if offset < 0 then "-" else "+") ++ padded 2 (minutes / 60) ++ ":" ++ padded 2 (minutes % 60)

/-- The text of an instant with its offset. -/
def text (t : Instant) : String :=
  t.dateText ++ "T" ++ t.clockText ++ t.fractionText ++ offsetText t.offset

/-- The text in documents. Years outside four digits and offsets of a day or more have none. -/
def document? (t : Instant) : Option String :=
  let year := t.date.year
  if year < 0 ∨ 9999 < year ∨ 24 ≤ t.offset.natAbs / 3600 then none else some t.text

/-- The offset as `+0700`. -/
def plainOffset (offset : Int) : String :=
  let minutes := offset.natAbs / 60
  (if offset < 0 then "-" else "+") ++ padded 2 (minutes / 60) ++ padded 2 (minutes % 60)

/-- The text in messages. Only universal time has a name; elsewhere the offset stands in its place. -/
def message (t : Instant) : String :=
  t.dateText ++ " " ++ t.clockText ++ t.fractionText ++ " " ++ plainOffset t.offset ++ " " ++
    (if t.offset = 0 then "UTC" else plainOffset t.offset)

/-- Whether the time zone of an instant is one of those that all instants share: universal time and
the whole hours around it that are in use. -/
def sharesZone (t : Instant) : Bool :=
  t.offset % 3600 == 0 && -12 ≤ t.offset / 3600 && t.offset / 3600 ≤ 14

/-- Splits a number of two digits off the front; with `short` one digit will do. -/
def twoDigits? (short : Bool) : List Char → Option (Nat × List Char)
  | a :: b :: rest =>
    if a.isDigit && b.isDigit then some (natOfDigits [a, b], rest)
    else if short && a.isDigit then some (natOfDigits [a], b :: rest)
    else none
  | [a] => if short && a.isDigit then some (natOfDigits [a], []) else none
  | [] => none

/-- Takes one given character off the front. -/
def expect? (c : Char) : List Char → Option (List Char)
  | d :: rest => if c == d then some rest else none
  | [] => none

/-- Splits a fraction of a second off the front, in nanoseconds; further digits are dropped. -/
def readFraction : List Char → Nat × List Char
  | mark :: cs =>
    if mark == '.' || mark == ',' then
      let (ds, rest) := cs.span Char.isDigit
      if ds.isEmpty then (0, mark :: cs)
      else (natOfDigits (ds.take 9) * 10 ^ (9 - ds.length), rest)
    else (0, mark :: cs)
  | [] => (0, [])

/-- Reads an offset up to the end of a text. -/
def readOffset? : List Char → Option Int
  | ['Z'] => some 0
  | sign :: cs => do
    let (hours, cs) ← twoDigits? false cs
    let cs ← expect? ':' cs
    let (minutes, cs) ← twoDigits? false cs
    if !cs.isEmpty || 24 < hours || 60 < minutes then none
    let size : Int := hours * 3600 + minutes * 60
    if sign == '+' then some size else if sign == '-' then some (-size) else none
  | [] => none

/-- Reads the text of an instant as documents hold it. -/
def parse? (text : String) : Option Instant := do
  let cs := text.toList
  let year := cs.take 4
  if year.length != 4 || !year.all Char.isDigit then none
  let year := natOfDigits year
  let cs ← expect? '-' (cs.drop 4)
  let (month, cs) ← twoDigits? false cs
  let cs ← expect? '-' cs
  let (day, cs) ← twoDigits? false cs
  let cs ← expect? 'T' cs
  let (hour, cs) ← twoDigits? true cs
  let cs ← expect? ':' cs
  let (minute, cs) ← twoDigits? false cs
  let cs ← expect? ':' cs
  let (second, cs) ← twoDigits? false cs
  let (nanoseconds, cs) := readFraction cs
  let offset ← readOffset? cs
  if month < 1 || 12 < month || day < 1 || Date.monthLength year month < day then none
  if 23 < hour || 59 < minute || 59 < second then none
  let local' := 86400 * Date.toDays ⟨year, month, day⟩ + (hour * 3600 + minute * 60 + second : Nat)
  return ⟨local' - offset, nanoseconds, offset⟩

end Instant

end Tuning
