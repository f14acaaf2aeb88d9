/-!
The Gregorian calendar, reckoned in both directions without end.

Days are counted from the first day of the year 1. The days before a year follow from the rule for
leap years: one in four, but not one in a hundred, but one in four hundred. Years before the year 1
go on as 0, -1 and so on. To find the year of a day, a year of average length gives a guess that is
off by at most one; the month is then looked up in the table of the year.
-/

namespace ResourcePki.Calendar

/-- Whether a year has a day more. -/
def isLeap (year : Int) : Bool :=
  year % 4 = 0 && (year % 100 ≠ 0 || year % 400 = 0)

/-- The days of a year before a month, which is counted from 1. -/
def daysBeforeMonth (leap : Bool) (month : Nat) : Nat :=
  let common := [0, 31, 59, 90, 120, 151, 181, 212, 243, 273, 304, 334, 365].getD (month - 1) 365
  if leap && 2 < month then common + 1 else common

/-- The length of a month. -/
def daysInMonth (year : Int) (month : Nat) : Nat :=
  daysBeforeMonth (isLeap year) (month + 1) - daysBeforeMonth (isLeap year) month

/-- The days from the first day of the year 1 to the first day of a year. -/
def daysBeforeYear (year : Int) : Int :=
  365 * (year - 1) + (year - 1) / 4 - (year - 1) / 100 + (year - 1) / 400

/-- The year in which a day falls. -/
def yearOfDay (day : Int) : Int :=
  let guess := day * 400 / 146097 + 1
  if day < daysBeforeYear guess then guess - 1
  else if daysBeforeYear (guess + 1) ≤ day then guess + 1
  else guess

/-- The month in which a day of the year falls, both counted from the beginning, the day from 0. -/
def monthOfDay (leap : Bool) (dayOfYear : Nat) : Nat :=
  ((List.range 12).filter fun m => daysBeforeMonth leap (m + 1) ≤ dayOfYear).length

/-- A day by year, month and day of the month. -/
structure Date where
  year : Int
  month : Nat
  day : Nat
  deriving DecidableEq, Repr

namespace Date

/-- Whether the calendar has the day. -/
def isValid (d : Date) : Bool :=
  1 ≤ d.month && d.month ≤ 12 && 1 ≤ d.day && d.day ≤ daysInMonth d.year d.month

/-- The number of a day. -/
def toDay (d : Date) : Int :=
  daysBeforeYear d.year + daysBeforeMonth (isLeap d.year) d.month + d.day - 1

/-- The day with a number. -/
def ofDay (n : Int) : Date :=
  let year := yearOfDay n
  let dayOfYear := (n - daysBeforeYear year).toNat
  let month := monthOfDay (isLeap year) dayOfYear
  ⟨year, month, dayOfYear - daysBeforeMonth (isLeap year) month + 1⟩

end Date

/-- The number of the first day of the year 1970. -/
def epochDay : Int := 719162

end ResourcePki.Calendar
