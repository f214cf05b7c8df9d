/-! # The calendar

Days are counted from the first of January of year 1; years before it are counted down through 0. -/

namespace Tuning

/-- A day of the calendar. -/
structure Date where
  year : Int
  month : Nat
  day : Nat
  deriving DecidableEq, Repr

namespace Date

/-- Whether a year has a 29th of February. -/
def isLeap (year : Int) : Bool :=
  year % 4 == 0 && (year % 100 != 0 || year % 400 == 0)

/-- How many days a month has. -/
def monthLength (year : Int) (month : Nat) : Nat :=
  if month == 2 then (if isLeap year then 29 else 28)
  else if month == 4 || month == 6 || month == 9 || month == 11 then 30
  else 31

/-- Days from the beginning of year 1 to the beginning of a year. -/
def daysBeforeYear (year : Int) : Int :=
  let past := year - 1
  365 * past + past / 4 - past / 100 + past / 400

/-- Days from the beginning of a year to the beginning of a month. -/
def daysBeforeMonth (year : Int) (month : Nat) : Nat :=
  (List.range (month - 1)).foldl (fun days m => days + monthLength year (m + 1)) 0

/-- The number of a day. -/
def toDays (d : Date) : Int :=
  daysBeforeYear d.year + daysBeforeMonth d.year d.month + (d.day - 1 : Int)

/-- The year, within the first four hundred, that a day falls into. -/
def yearOfDays (days : Int) : Int :=
  let guess := days / 365 + 1
  if daysBeforeYear guess ≤ days then guess else guess - 1

/-- The month and day for a day of a year, counted from zero, searching from a month on. -/
def monthDay (year : Int) : (fuel : Nat) → (month rest : Nat) → Nat × Nat
  | 0, month, rest => (month, rest + 1)
  | fuel + 1, month, rest =>
    let length := monthLength year month
    if rest < length then (month, rest + 1) else monthDay year fuel (month + 1) (rest - length)

/-- The day of a number. -/
def ofDays (days : Int) : Date :=
  let cycles := days / 146097
  let inCycle := days % 146097
  let year := yearOfDays inCycle
  let (month, day) := monthDay year 11 1 (inCycle - daysBeforeYear year).toNat
  { year := year + 400 * cycles, month, day }

end Date

end Tuning
