/-!
# Calendar dates

Day numbers count from the first day of 1970, and dates follow the Gregorian
calendar in both directions. The calendar repeats every 400 years, an era.
Years are taken to begin in March, so that a leap day is the last day of its
year and months follow a pattern of five.
-/

namespace TernarySynth.CalendarDate

/-- A day of the calendar. -/
structure Date where
  /-- The year; 0 is the one before 1. -/
  year : Int
  /-- The month, from 1. -/
  month : Nat
  /-- The day of the month, from 1. -/
  day : Nat
  deriving DecidableEq

/-- Number of days in an era. -/
def daysPerEra : Nat := 146097

/-- Number of days from 1 March of the year 0 to day 0. -/
def epochOffset : Nat := 719468

/-- The year within an era, counted from March, of a day of the era. -/
def yearOfEra (dayOfEra : Nat) : Nat :=
  (dayOfEra - dayOfEra / 1460 + dayOfEra / 36524 - dayOfEra / 146096) / 365

/-- The first day of a year within an era, counted from March. -/
def yearStart (yearOfEra : Nat) : Nat := 365 * yearOfEra + yearOfEra / 4 - yearOfEra / 100

/-- The month, from 0 for March, of a day of a year that begins in March. -/
def monthOfYear (dayOfYear : Nat) : Nat := (5 * dayOfYear + 2) / 153

/-- The first day of a month, counted from March. -/
def monthStart (month : Nat) : Nat := (153 * month + 2) / 5

/-- The date of a day number. -/
def Date.ofDays (days : Int) : Date :=
  let shifted := days + epochOffset
  let era := shifted / daysPerEra
  let dayOfEra := (shifted % daysPerEra).toNat
  let year := yearOfEra dayOfEra
  let dayOfYear := dayOfEra - yearStart year
  let month := monthOfYear dayOfYear
  let january := era * 400 + year
  if month < 10 then ⟨january, month + 3, dayOfYear - monthStart month + 1⟩
  else ⟨january + 1, month - 9, dayOfYear - monthStart month + 1⟩

/-- Number of values of a 64-bit number. -/
def wordRange : Nat := 18446744073709551616

/-- Largest signed 64-bit number. -/
def signedMax : Int := 9223372036854775807

/-- Number of values of a year in a stamp. -/
def yearRange : Nat := 4294967296

/-- A date whose year is reduced to 32 bits. -/
structure StampDate where
  /-- The year modulo `yearRange`. -/
  year : Nat
  /-- The month, from 1. -/
  month : Nat
  /-- The day of the month, from 1. -/
  day : Nat
  deriving DecidableEq

/-- Reduce the year of a date. -/
def StampDate.ofDate (date : Date) : StampDate :=
  ⟨(date.year % yearRange).toNat, date.month, date.day⟩

/-- The date of a 64-bit day number, which is read as a signed one; none if
counting its days from the year 0 leaves the signed range. -/
def StampDate.ofDayNumber (days : Nat) : Option StampDate :=
  let signed := Int.bmod days wordRange
  if signedMax < signed + epochOffset then none else some (.ofDate (.ofDays signed))

end TernarySynth.CalendarDate
