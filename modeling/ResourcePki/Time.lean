import ResourcePki.Calendar
import ResourcePki.Text.Decimal

/-!
Moments in universal time, counted in seconds from the beginning of the year 1970 and parts of a
second. The years from -262143 to 262142 can be represented.

A leap second is the second before it with a whole further second in its parts. Its text then shows
60 seconds.
-/

namespace ResourcePki

/-- A date and a time of day. -/
structure Clock where
  year : Int
  month : Nat
  day : Nat
  hour : Nat
  minute : Nat
  second : Nat
  deriving DecidableEq, Repr

namespace Clock

/-- Whether the date and the time of day exist; leap seconds do not. -/
def isValid (c : Clock) : Bool :=
  (Calendar.Date.mk c.year c.month c.day).isValid && c.hour < 24 && c.minute < 60 && c.second < 60

/-- The seconds from the beginning of 1970. -/
def toSeconds (c : Clock) : Int :=
  ((Calendar.Date.mk c.year c.month c.day).toDay - Calendar.epochDay) * 86400
    + (c.hour * 3600 + c.minute * 60 + c.second : Nat)

/-- The date and time of day a number of seconds from the beginning of 1970. -/
def ofSeconds (s : Int) : Clock :=
  let date := Calendar.Date.ofDay (s / 86400 + Calendar.epochDay)
  let rest := (s % 86400).toNat
  ⟨date.year, date.month, date.day, rest / 3600, rest / 60 % 60, rest % 60⟩

end Clock

/-- A moment in universal time. -/
structure Time where
  /-- Seconds from the beginning of 1970. -/
  seconds : Int
  /-- Billionths of a second; a thousand million or more during a leap second. -/
  nanos : Nat
  inRange : -8334601228800 ≤ seconds ∧ seconds ≤ 8210266876799
  deriving DecidableEq, Repr

namespace Time

/-- The moment a number of seconds and parts of a second from the beginning of 1970. -/
def ofSecondsAndNanos? (seconds : Int) (nanos : Nat) : Option Time :=
  if h : -8334601228800 ≤ seconds ∧ seconds ≤ 8210266876799 then some ⟨seconds, nanos, h⟩ else none

/-- The moment a number of seconds from the beginning of 1970. -/
def ofSeconds? (seconds : Int) : Option Time :=
  ofSecondsAndNanos? seconds 0

/-- The moment with a date and time of day. -/
def ofClock? (c : Clock) : Option Time :=
  if c.isValid then ofSeconds? c.toSeconds else none

/-- The wording for a date and time of day that do not exist. -/
def invalidMessage : String :=
  "invalid date and time"

/-- The date and time of day of a moment, with 60 seconds during a leap second. -/
def clock (t : Time) : Clock :=
  let c := Clock.ofSeconds t.seconds
  { c with second := c.second + t.nanos / 1000000000 }

/-- Whether one moment comes before another. -/
def before (a b : Time) : Bool :=
  a.seconds < b.seconds || (a.seconds == b.seconds && a.nanos < b.nanos)

/-- A year with four digits, or with a sign and at least four digits if it needs them. -/
def yearText (year : Int) : List Char :=
  if 0 ≤ year ∧ year ≤ 9999 then Decimal.padded 4 year.toNat
  else (if year < 0 then '-' else '+') :: Decimal.padded 4 year.natAbs

/-- The text of a moment up to the seconds. -/
def secondsText (t : Time) : List Char :=
  let c := t.clock
  yearText c.year ++ '-' :: Decimal.padded 2 c.month ++ '-' :: Decimal.padded 2 c.day
    ++ 'T' :: Decimal.padded 2 c.hour ++ ':' :: Decimal.padded 2 c.minute
    ++ ':' :: Decimal.padded 2 c.second

/-- The text of a moment in whole seconds. -/
def text (t : Time) : String :=
  String.ofList (t.secondsText ++ ['Z'])

end Time

end ResourcePki
