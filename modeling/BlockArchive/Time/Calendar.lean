/-!
# The Gregorian calendar

Dates of the Gregorian calendar, carried on backwards without end, and days counted from
0001-01-01. The year before year 1 is year 0.

## Main definitions

- `Date`: a year, a month and a day
- `Date.Exists`: the calendar has the date
- `Date.dayNumber`: days from 0001-01-01 to a date
- `Date.ofDayNumber`: the date that is a number of days after 0001-01-01

## Design notes

A year of the calendar takes 146097 / 400 days in the long run. Dividing by that gives the year of a
day up to one, and comparing with the first days of the neighbouring years settles which it is.
-/

namespace BlockArchive

/-- A year, a month from 1 and a day from 1, as they are written. -/
structure Date where
  /-- The year; the one before year 1 is year 0. -/
  year : Int
  /-- The month, January being 1. -/
  month : Nat
  /-- The day of the month, the first being 1. -/
  day : Nat
deriving DecidableEq, Repr

namespace Date

/-- Whether the year has a 29th of February: every fourth year but for three centuries of four. -/
def isLeapYear (year : Int) : Bool :=
  year % 4 == 0 && (year % 100 != 0 || year % 400 == 0)

/-- The lengths of the year's months in days, from January. -/
def monthLengths (year : Int) : List Nat :=
  [31, if isLeapYear year then 29 else 28, 31, 30, 31, 30, 31, 31, 30, 31, 30, 31]

/-- The calendar has the date: its month is one of the twelve and has that day. -/
def Exists (date : Date) : Prop :=
  1 ≤ date.month ∧ 1 ≤ date.day ∧ date.day ≤ (monthLengths date.year)[date.month - 1]?.getD 0

instance (date : Date) : Decidable date.Exists :=
  inferInstanceAs (Decidable (_ ∧ _ ∧ _))

/-- Days from 0001-01-01 to the first day of the year. -/
def daysBeforeYear (year : Int) : Int :=
  365 * (year - 1) + (year - 1) / 4 - (year - 1) / 100 + (year - 1) / 400

/-- Days from the first day of the year to the first day of the month. -/
def daysBeforeMonth (year : Int) (month : Nat) : Nat :=
  ((monthLengths year).take (month - 1)).foldl (· + ·) 0

/-- Days from 0001-01-01 to the date. -/
def dayNumber (date : Date) : Int :=
  daysBeforeYear date.year + daysBeforeMonth date.year date.month + (date.day - 1)

/-- The year that the day lies in. -/
def yearOfDay (day : Int) : Int :=
  let year := day * 400 / 146097 + 1
  if day < daysBeforeYear year then year - 1
  else if daysBeforeYear (year + 1) ≤ day then year + 1
  else year

/-- Finds the month of a day that is `rest` days into the months of the given lengths, the first of
which has the number `month`: its number, and the day of the month from 1. -/
def monthOfDay (month : Nat) : List Nat → Nat → Nat × Nat
  | [], rest => (month, rest + 1)
  | length :: later, rest =>
    if rest < length then (month, rest + 1) else monthOfDay (month + 1) later (rest - length)

/-- The date that is `day` days after 0001-01-01. -/
def ofDayNumber (day : Int) : Date :=
  let year := yearOfDay day
  let found := monthOfDay 1 (monthLengths year) (day - daysBeforeYear year).toNat
  { year, month := found.1, day := found.2 }

example : dayNumber { year := 1970, month := 1, day := 1 } = 719162 := by decide

example : ofDayNumber 719162 = { year := 1970, month := 1, day := 1 } := by decide

example : ofDayNumber (-1) = { year := 0, month := 12, day := 31 } := by decide

end Date

end BlockArchive
