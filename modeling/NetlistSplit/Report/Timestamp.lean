/-!
# Points in time

A point in time counts seconds from the beginning of 1970.  It is written as the
date and the time of day in UTC, as in `2024-06-07T09:30:00Z`.

## Strategy

The calendar repeats itself every 400 years, which are 146097 days.  Within such
a period, years are taken to begin with March, so that a leap day is the last day
of its year, and the months before it follow a pattern of five months with 153
days.
-/

namespace NetlistSplit

/-- A point in time.  A leap second is the second before it with `10^9`
nanoseconds or more. -/
structure Timestamp where
  /-- Seconds since the beginning of 1970. -/
  seconds : Int
  nanos : Nat
  deriving DecidableEq, Repr

/-- A day of the civil calendar, which is extended to all years. -/
structure CalendarDay where
  year : Int
  month : Nat
  day : Nat
  deriving DecidableEq, Repr

namespace CalendarDay

/-- The days of a period of 400 years. -/
def daysPerPeriod : Nat := 146097

/-- The days from the beginning of March of the year 0 to the beginning of 1970. -/
def daysToEpoch : Int := 719468

/-- The day that comes `days` days after the first of 1970. -/
def ofDays (days : Int) : CalendarDay :=
  let shifted := days + daysToEpoch
  let period := shifted.fdiv daysPerPeriod
  let dayOfPeriod := (shifted.fmod daysPerPeriod).toNat
  -- Less the leap days before it, every day belongs to a year of 365 days: a leap
  -- day ends every 4 years, but not the years of a full century, except the last.
  let yearOfPeriod :=
    (dayOfPeriod - dayOfPeriod / 1460 + dayOfPeriod / 36524 - dayOfPeriod / 146096) / 365
  let dayOfYear := dayOfPeriod - (365 * yearOfPeriod + yearOfPeriod / 4 - yearOfPeriod / 100)
  let monthFromMarch := (5 * dayOfYear + 2) / 153
  let month := if monthFromMarch < 10 then monthFromMarch + 3 else monthFromMarch - 9
  { year := period * 400 + yearOfPeriod + (if month ≤ 2 then 1 else 0)
    month := month
    day := dayOfYear - (153 * monthFromMarch + 2) / 5 + 1 }

end CalendarDay

namespace Timestamp

/-- A number in decimal, with zeros in front up to `width` digits. -/
def padded (width n : Nat) : String :=
  let digits := Nat.toDigits 10 n
  String.ofList (List.replicate (width - digits.length) '0' ++ digits)

/-- A year of four digits, or one with a sign and at least four. -/
def yearText (year : Int) : String :=
  if year < 0 then "-" ++ padded 4 year.natAbs
  else if year ≤ 9999 then padded 4 year.natAbs
  else "+" ++ padded 4 year.natAbs

/-- The fraction of a second in the fewest of 0, 3, 6 and 9 digits that give it
exactly. -/
def fractionText (nanos : Nat) : String :=
  if nanos = 0 then ""
  else if nanos % 1000000 = 0 then "." ++ padded 3 (nanos / 1000000)
  else if nanos % 1000 = 0 then "." ++ padded 6 (nanos / 1000)
  else "." ++ padded 9 nanos

/-- The point in time as it is written. -/
def text (t : Timestamp) : String :=
  let date := CalendarDay.ofDays (t.seconds.fdiv 86400)
  let second := (t.seconds.fmod 86400).toNat
  let day := s!"{yearText date.year}-{padded 2 date.month}-{padded 2 date.day}"
  let time := s!"{padded 2 (second / 3600)}:{padded 2 (second / 60 % 60)}"
  let rest := padded 2 (second % 60 + t.nanos / 1000000000) ++ fractionText (t.nanos % 1000000000)
  s!"{day}T{time}:{rest}Z"

end Timestamp

end NetlistSplit
