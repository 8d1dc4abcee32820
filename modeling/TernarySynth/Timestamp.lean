import TernarySynth.CalendarDate
import TernarySynth.TextLayout

/-!
# Time stamps

The time of a log line, in universal time and down to the millisecond: the
date, then hours, minutes, seconds and thousandths, every field filled up with
zeros.
-/

namespace TernarySynth.Timestamp

open CalendarDate TextLayout

/-- A point in time after the start of 1970. -/
structure Timestamp where
  /-- Whole seconds. -/
  seconds : Nat
  /-- Thousandths of a second beyond them. -/
  millis : Nat
  deriving DecidableEq

/-- Number of seconds in a day. -/
def secondsPerDay : Nat := 86400

/-- Number of nanoseconds in a second. -/
def nanosPerSecond : Nat := 1000000000

namespace Timestamp

/-- The point in time after some seconds and nanoseconds; none if its seconds
do not fit into 64 bits. -/
def ofParts (seconds nanos : Nat) : Option Timestamp :=
  let whole := seconds + nanos / nanosPerSecond
  if whole < wordRange then some ⟨whole, nanos % nanosPerSecond / 1000000⟩ else none

/-- The day of a point in time. -/
def date (time : Timestamp) : StampDate := .ofDate (.ofDays (time.seconds / secondsPerDay : Nat))

/-- The written form of a date. -/
def dateText (date : StampDate) : String :=
  padded 4 date.year ++ "-" ++ padded 2 date.month ++ "-" ++ padded 2 date.day

/-- The written form of a time of day. -/
def clockText (seconds millis : Nat) : String :=
  padded 2 (seconds / 3600 % 24) ++ ":" ++ padded 2 (seconds / 60 % 60) ++ ":" ++
    padded 2 (seconds % 60) ++ "." ++ padded 3 millis

/-- The written form of a point in time. -/
def display (time : Timestamp) : String :=
  dateText time.date ++ " " ++ clockText time.seconds time.millis

end Timestamp

end TernarySynth.Timestamp
