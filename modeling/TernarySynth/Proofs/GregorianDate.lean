import Mathlib.Tactic.IntervalCases
import TernarySynth.CalendarDate
import TernarySynth.Proofs.FixedRange

/-!
# The Gregorian calendar

The calendar is said here by its rules: how long the months are, which years have a leap
day, and which day was a first of January. They settle the date of every day, before and
after that one, and it is the date that the day number is turned into. No number on the
way leaves the size that it is computed in.
-/

namespace TernarySynth.Proofs.GregorianDate

open CalendarDate FixedRange

section Calendar

/-- Every fourth year is a leap year, but of the centuries only every fourth. -/
def IsLeap (year : Int) : Prop := year % 4 = 0 ∧ (year % 100 ≠ 0 ∨ year % 400 = 0)

instance (year : Int) : Decidable (IsLeap year) := inferInstanceAs (Decidable (_ ∧ _))

/-- Number of days of a month. -/
def monthLength (year : Int) : Nat → Nat
  | 2 => if IsLeap year then 29 else 28
  | 4 | 6 | 9 | 11 => 30
  | _ => 31

/-- A date that stands in the calendar. -/
structure OnCalendar (date : Date) : Prop where
  /-- It is in one of the twelve months. -/
  month : 1 ≤ date.month ∧ date.month ≤ 12
  /-- It is one of the days of its month. -/
  day : 1 ≤ date.day ∧ date.day ≤ monthLength date.year date.month

/-- The day after a date: the next of its month, or the first of the next month, or the
first of the next year. -/
def dayAfter (date : Date) : Date :=
  if date.day < monthLength date.year date.month then ⟨date.year, date.month, date.day + 1⟩
  else if date.month < 12 then ⟨date.year, date.month + 1, 1⟩
  else ⟨date.year + 1, 1, 1⟩

/-- The date of a day, counted from the first of January 1970 in both directions. -/
inductive FallsOn : Int → Date → Prop where
  /-- Counting begins here. -/
  | epoch : FallsOn 0 ⟨1970, 1, 1⟩
  /-- One day on is the day after. -/
  | after {days : Int} {date : Date} (earlier : FallsOn days date) :
      FallsOn (days + 1) (dayAfter date)
  /-- One day back is the date that this one is the day after. -/
  | before {days : Int} {date : Date} (stands : OnCalendar date)
      (later : FallsOn (days + 1) (dayAfter date)) : FallsOn days date

end Calendar

section Years

/-- A year that begins in March ends with the leap day of the next year, if it has one. -/
def yearLength (year : Nat) : Nat := if IsLeap (year + 1) then 366 else 365

/-- All years have 365 days, and those with a leap day at their end have one more. -/
theorem lt_yearLength {year day : Nat} :
    day < yearLength year ↔ day < 365 ∨ day = 365 ∧ IsLeap (year + 1) := by
  unfold yearLength
  by_cases hleap : IsLeap (year + 1)
  · rw [if_pos hleap]
    simp only [hleap, and_true]
    omega
  · rw [if_neg hleap]
    simp only [hleap, and_false, or_false]

/-- Years follow each other without a gap. -/
theorem yearStart_succ {year : Nat} (h : year < 399) :
    yearStart (year + 1) = yearStart year + yearLength year := by
  unfold yearStart yearLength
  by_cases hleap : IsLeap (year + 1)
  · rw [if_pos hleap]
    unfold IsLeap at hleap
    omega
  · rw [if_neg hleap]
    unfold IsLeap at hleap
    omega

/-- The year of a day of the era is the one that the day is in. -/
theorem yearOfEra_of_lt {year day : Nat} (hyear : year < 400) (hday : day < yearLength year) :
    yearOfEra (yearStart year + day) = year := by
  obtain ⟨century, four, rest, hcentury, hfour, hrest, rfl⟩ : ∃ century four rest,
      century < 4 ∧ four < 25 ∧ rest < 4 ∧ year = 100 * century + 4 * four + rest :=
    ⟨year / 100, year % 100 / 4, year % 4, by omega, by omega, by omega, by omega⟩
  have hstart : yearStart (100 * century + 4 * four + rest) =
      36524 * century + 1461 * four + 365 * rest := by
    unfold yearStart
    omega
  have hleap : day < 365 ∨ day = 365 ∧ rest = 3 ∧ (four = 24 → century = 3) := by
    rcases lt_yearLength.mp hday with hday | ⟨hday, hleap⟩
    · exact .inl hday
    · unfold IsLeap at hleap
      exact .inr ⟨hday, by omega, by omega⟩
  rw [hstart]
  by_cases hlast : century = 3 ∧ four = 24 ∧ rest = 3 ∧ day = 365
  · obtain ⟨rfl, rfl, rfl, rfl⟩ := hlast
    rfl
  · -- Every day but the last of the era lies in its century.
    have hc : (36524 * century + 1461 * four + 365 * rest + day) / 36524 = century := by omega
    have he : (36524 * century + 1461 * four + 365 * rest + day) / 146096 = 0 := by omega
    have hf : (36524 * century + 1461 * four + 365 * rest + day) / 1460 =
        25 * century + four + (24 * century + four + 365 * rest + day) / 1460 := by omega
    have hlate : (24 * century + four + 365 * rest + day) / 1460 ≤ day ∧
        day ≤ 364 + (24 * century + four + 365 * rest + day) / 1460 := by omega
    unfold yearOfEra
    rw [hc, he, hf]
    generalize (24 * century + four + 365 * rest + day) / 1460 = late at hlate ⊢
    omega

end Years

section Months

/-- A day of the calendar by era, year of the era, month and day, all of them counted
from 0. Years begin in March. -/
structure MarchDay where
  /-- The era. -/
  era : Int
  /-- The year of the era. -/
  year : Nat
  /-- The month, from 0 for March. -/
  month : Nat
  /-- The day of the month. -/
  day : Nat

namespace MarchDay

/-- Number of days of a month. The last one takes what is left of the year. -/
def monthDays (year month : Nat) : Nat :=
  (if month < 11 then monthStart (month + 1) else yearLength year) - monthStart month

/-- A day that there is. -/
structure Sound (march : MarchDay) : Prop where
  /-- The era has 400 years. -/
  year : march.year < 400
  /-- The year has twelve months. -/
  month : march.month < 12
  /-- The month is long enough. -/
  day : march.day < monthDays march.year march.month

/-- The day of the era. -/
def dayOfEra (march : MarchDay) : Nat :=
  yearStart march.year + (monthStart march.month + march.day)

/-- The day number. -/
def days (march : MarchDay) : Int := march.era * 146097 + march.dayOfEra - 719468

/-- The date, with years that begin in January. -/
def date (march : MarchDay) : Date :=
  if march.month < 10 then ⟨march.era * 400 + march.year, march.month + 3, march.day + 1⟩
  else ⟨march.era * 400 + march.year + 1, march.month - 9, march.day + 1⟩

/-- The day after a day: in the same month, in the next one, at the start of the next year
or of the next era. -/
inductive Follows (march : MarchDay) : MarchDay → Prop where
  /-- The month goes on. -/
  | day (room : march.day + 1 < monthDays march.year march.month) :
      Follows march ⟨march.era, march.year, march.month, march.day + 1⟩
  /-- The month is over. -/
  | month (ends : march.day + 1 = monthDays march.year march.month) (room : march.month < 11) :
      Follows march ⟨march.era, march.year, march.month + 1, 0⟩
  /-- The year is over. -/
  | year (ends : march.day + 1 = monthDays march.year march.month) (last : march.month = 11)
      (room : march.year < 399) : Follows march ⟨march.era, march.year + 1, 0, 0⟩
  /-- The era is over. -/
  | era (ends : march.day + 1 = monthDays march.year march.month) (last : march.month = 11)
      (final : march.year = 399) : Follows march ⟨march.era + 1, 0, 0, 0⟩

variable {march next : MarchDay}

/-- A sound day lies in its year. -/
theorem Sound.day_lt (h : march.Sound) :
    monthStart march.month + march.day < yearLength march.year := by
  have hday := h.day
  have hmonth := h.month
  have hlength : 364 < yearLength march.year := lt_yearLength.mpr (.inl (by omega))
  unfold monthDays monthStart at hday
  unfold monthStart
  split at hday <;> omega

/-- A sound day lies in its era. -/
theorem Sound.dayOfEra_lt (h : march.Sound) : march.dayOfEra < 146097 := by
  have hday := h.day_lt
  have hyear := h.year
  unfold dayOfEra
  generalize monthStart march.month + march.day = day at hday ⊢
  unfold yearStart
  rcases lt_yearLength.mp hday with hday | ⟨hday, hleap⟩
  · omega
  · unfold IsLeap at hleap
    omega

/-- The month of a day of the year is the one that the day is in. -/
theorem Sound.monthOfYear_eq (h : march.Sound) :
    monthOfYear (monthStart march.month + march.day) = march.month := by
  have hday := h.day
  have hmonth := h.month
  have hlast : monthStart march.month + march.day < 366 := by
    have hlt := lt_yearLength.mp h.day_lt
    omega
  unfold monthDays at hday
  unfold monthOfYear
  by_cases hm : march.month < 11
  · rw [if_pos hm] at hday
    unfold monthStart at *
    omega
  · unfold monthStart at *
    omega

/-- The date of a day number is that of the day. -/
theorem Sound.ofDays_eq (h : march.Sound) : Date.ofDays march.days = march.date := by
  have hlt := h.dayOfEra_lt
  have hera : (march.days + epochOffset) / daysPerEra = march.era := by
    unfold days epochOffset daysPerEra
    omega
  have hday : ((march.days + epochOffset) % daysPerEra).toNat = march.dayOfEra := by
    unfold days epochOffset daysPerEra
    omega
  have hyear : yearOfEra march.dayOfEra = march.year := yearOfEra_of_lt h.year h.day_lt
  have hrest : march.dayOfEra - yearStart march.year = monthStart march.month + march.day := by
    unfold dayOfEra
    omega
  have hplace : monthStart march.month + march.day - monthStart march.month = march.day := by omega
  unfold Date.ofDays date
  dsimp only
  rw [hera, hday, hyear, hrest, h.monthOfYear_eq, hplace]

/-- Every sound day is followed by another. -/
theorem Sound.exists_follows (h : march.Sound) : ∃ next, Follows march next := by
  have hyear := h.year
  have hmonth := h.month
  have hday := h.day
  by_cases hroom : march.day + 1 < monthDays march.year march.month
  · exact ⟨_, .day hroom⟩
  · have hover : march.day + 1 = monthDays march.year march.month := by omega
    by_cases hm : march.month < 11
    · exact ⟨_, .month hover hm⟩
    · by_cases hy : march.year < 399
      · exact ⟨_, .year hover (by omega) hy⟩
      · exact ⟨_, .era hover (by omega) (by omega)⟩

/-- No month is empty. -/
theorem monthDays_pos (year : Nat) {month : Nat} (h : month < 12) : 0 < monthDays year month := by
  have hlength : 364 < yearLength year := lt_yearLength.mpr (.inl (by omega))
  unfold monthDays monthStart
  split <;> omega

/-- The day after a sound one is sound. -/
theorem Follows.sound (hf : Follows march next) (h : march.Sound) : next.Sound := by
  have hmonth := h.month
  have hfirst : 0 < 12 := Nat.zero_lt_succ 11
  cases hf with
  | day room => exact ⟨h.year, h.month, room⟩
  | month ends room =>
    have hlt : march.month + 1 < 12 := by omega
    exact ⟨h.year, hlt, monthDays_pos _ hlt⟩
  | year ends last room =>
    have hlt : march.year + 1 < 400 := by omega
    exact ⟨hlt, hfirst, monthDays_pos _ hfirst⟩
  | era ends last final => exact ⟨Nat.zero_lt_succ 399, hfirst, monthDays_pos _ hfirst⟩

/-- Its number is the next one. -/
theorem Follows.days_eq (hf : Follows march next) (h : march.Sound) :
    next.days = march.days + 1 := by
  have hlast := h.day_lt
  unfold days dayOfEra
  cases hf with
  | day room =>
    dsimp only
    omega
  | month ends room =>
    rw [monthDays, if_pos room] at ends
    dsimp only
    unfold monthStart at *
    omega
  | year ends last room =>
    rw [monthDays, if_neg (by omega)] at ends
    have hfirst : monthStart 0 = 0 := rfl
    have hstart := yearStart_succ room
    dsimp only
    omega
  | era ends last final =>
    rw [monthDays, if_neg (by omega)] at ends
    rw [final] at ends hlast ⊢
    have hlength : yearLength 399 = 366 := by decide
    have hstart : yearStart 399 = 145731 := rfl
    have hfirst : yearStart 0 = 0 ∧ monthStart 0 = 0 := ⟨rfl, rfl⟩
    dsimp only
    omega

/-- Leap years come again after an era. -/
theorem isLeap_era (era : Int) (year : Nat) :
    IsLeap (era * 400 + year + 1) ↔ IsLeap (year + 1) := by
  unfold IsLeap
  omega

/-- Months are as long as the calendar says. -/
theorem Sound.monthLength_eq (h : march.Sound) :
    monthLength march.date.year march.date.month = monthDays march.year march.month := by
  obtain ⟨era, year, month, day⟩ := march
  have hmonth : month < 12 := h.month
  unfold date monthDays
  dsimp only
  by_cases hlast : month = 11
  · subst hlast
    have hstart : monthStart 11 = 337 := rfl
    change (if IsLeap (era * 400 + year + 1) then 29 else 28) = yearLength year - monthStart 11
    rw [hstart]
    unfold yearLength
    by_cases hleap : IsLeap (year + 1)
    · rw [if_pos ((isLeap_era era year).mpr hleap), if_pos hleap]
    · rw [if_neg (mt (isLeap_era era year).mp hleap), if_neg hleap]
  · have hmonth' : month < 11 := by omega
    rw [if_pos hmonth']
    interval_cases month <;> rfl

/-- The date of a sound day stands in the calendar. -/
theorem Sound.onCalendar (h : march.Sound) : OnCalendar march.date := by
  have hlength := h.monthLength_eq
  have hmonth := h.month
  have hday := h.day
  rw [← hlength] at hday
  unfold date at hday ⊢
  split
  next hm =>
    rw [if_pos hm] at hday
    exact ⟨⟨by dsimp only; omega, by dsimp only; omega⟩, Nat.succ_pos _, hday⟩
  next hm =>
    rw [if_neg hm] at hday
    exact ⟨⟨by dsimp only; omega, by dsimp only; omega⟩, Nat.succ_pos _, hday⟩

/-- The date of the next day is the day after. -/
theorem Follows.date_eq (hf : Follows march next) (h : march.Sound) :
    next.date = dayAfter march.date := by
  have hlength := h.monthLength_eq
  have hday : march.date.day = march.day + 1 := by
    unfold date
    split <;> rfl
  unfold dayAfter
  rw [hlength, hday]
  cases hf with
  | day room =>
    rw [if_pos room]
    unfold date
    dsimp only
    split <;> rfl
  | month ends room =>
    rw [ends, if_neg (Nat.lt_irrefl _)]
    obtain hm | hm | hm : march.month < 9 ∨ march.month = 9 ∨ march.month = 10 := by omega
    · have hlt : march.month < 10 ∧ march.month + 1 < 10 ∧ march.month + 3 < 12 := by omega
      simp only [date, if_pos hlt.1, if_pos hlt.2.1, if_pos hlt.2.2]
    · simp only [date, hm]
      rfl
    · simp only [date, hm]
      rfl
  | year ends last room =>
    rw [ends, if_neg (Nat.lt_irrefl _)]
    have hyear : march.era * 400 + (march.year + 1 : Nat) = march.era * 400 + march.year + 1 := by
      omega
    simp only [date, last, hyear]
    rfl
  | era ends last final =>
    rw [ends, if_neg (Nat.lt_irrefl _)]
    have hyear : (march.era + 1) * 400 + (0 : Nat) = march.era * 400 + (399 : Nat) + 1 := by
      omega
    simp only [date, last, final, hyear]
    rfl

end MarchDay

end Months

section Dates

open MarchDay

/-- Every day number is that of a sound day: of one that many days after the first day of
an era. -/
theorem exists_sound (days : Int) : ∃ march : MarchDay, march.Sound ∧ march.days = days := by
  have hreach : ∀ (era : Int) (n : Nat), ∃ march : MarchDay,
      march.Sound ∧ march.days = era * 146097 - 719468 + n := by
    intro era n
    induction n with
    | zero =>
      have hfirst : 0 < 12 := Nat.zero_lt_succ 11
      have hzero : yearStart 0 = 0 ∧ monthStart 0 = 0 := ⟨rfl, rfl⟩
      refine ⟨⟨era, 0, 0, 0⟩, ⟨Nat.zero_lt_succ 399, hfirst, monthDays_pos 0 hfirst⟩, ?_⟩
      unfold MarchDay.days dayOfEra
      dsimp only
      omega
    | succ n ih =>
      obtain ⟨march, hsound, hdays⟩ := ih
      obtain ⟨next, hnext⟩ := hsound.exists_follows
      refine ⟨next, hnext.sound hsound, ?_⟩
      rw [hnext.days_eq hsound, hdays]
      omega
  obtain ⟨march, hsound, hdays⟩ :=
    hreach ((days + 719468) / 146097) ((days + 719468) % 146097).toNat
  exact ⟨march, hsound, by omega⟩

/-- The date of a day number stands in the calendar. -/
theorem ofDays_onCalendar (days : Int) : OnCalendar (.ofDays days) := by
  obtain ⟨march, hsound, rfl⟩ := exists_sound days
  rw [hsound.ofDays_eq]
  exact hsound.onCalendar

/-- The date of the next day number is the day after. -/
theorem ofDays_succ (days : Int) : Date.ofDays (days + 1) = dayAfter (.ofDays days) := by
  obtain ⟨march, hsound, rfl⟩ := exists_sound days
  obtain ⟨next, hnext⟩ := hsound.exists_follows
  rw [← hnext.days_eq hsound, hsound.ofDays_eq, (hnext.sound hsound).ofDays_eq,
    hnext.date_eq hsound]

/-- A day is the last one of its month or not. -/
theorem dayAfter_cases {date : Date} (h : OnCalendar date) :
    (date.day < monthLength date.year date.month ∧
      dayAfter date = ⟨date.year, date.month, date.day + 1⟩) ∨
    (date.day = monthLength date.year date.month ∧ date.month < 12 ∧
      dayAfter date = ⟨date.year, date.month + 1, 1⟩) ∨
    (date.day = monthLength date.year date.month ∧ date.month = 12 ∧
      dayAfter date = ⟨date.year + 1, 1, 1⟩) := by
  have hday := h.day
  have hmonth := h.month
  unfold dayAfter
  by_cases hroom : date.day < monthLength date.year date.month
  · rw [if_pos hroom]
    exact .inl ⟨hroom, rfl⟩
  · rw [if_neg hroom]
    have hover : date.day = monthLength date.year date.month := by omega
    by_cases hm : date.month < 12
    · rw [if_pos hm]
      exact .inr (.inl ⟨hover, hm, rfl⟩)
    · rw [if_neg hm]
      exact .inr (.inr ⟨hover, by omega, rfl⟩)

/-- Dates of the calendar that have the same day after them are the same. -/
theorem dayAfter_injective {one two : Date} (h₁ : OnCalendar one) (h₂ : OnCalendar two)
    (h : dayAfter one = dayAfter two) : one = two := by
  have hday := h₁.day.1
  have hday' := h₂.day.1
  have hmonth := h₁.month.1
  have hmonth' := h₂.month.1
  obtain ⟨year, month, day⟩ := one
  obtain ⟨year', month', day'⟩ := two
  rw [Date.mk.injEq]
  -- A first of January comes after December only, and any other first after another month.
  rcases dayAfter_cases h₁ with ⟨hd, he⟩ | ⟨hd, hm, he⟩ | ⟨hd, hm, he⟩ <;>
    rcases dayAfter_cases h₂ with ⟨hd', he'⟩ | ⟨hd', hm', he'⟩ | ⟨hd', hm', he'⟩ <;>
    rw [he, he', Date.mk.injEq] at h <;> grind

/-- The calendar gives every day the date that its number is turned into, and no other. -/
theorem fallsOn_iff {days : Int} {date : Date} : FallsOn days date ↔ date = .ofDays days := by
  constructor
  · intro h
    induction h with
    | epoch => decide
    | after earlier ih => rw [ih, ofDays_succ]
    | before stands later ih =>
      rw [ofDays_succ] at ih
      exact dayAfter_injective stands (ofDays_onCalendar _) ih
  · rintro rfl
    induction days with
    | zero => exact .epoch
    | succ n ih =>
      rw [ofDays_succ]
      exact .after ih
    | pred n ih =>
      refine .before (ofDays_onCalendar _) ?_
      rw [← ofDays_succ, Int.sub_add_cancel]
      exact ih

end Dates

section Computing

/-- The year of a day of the era, every step of it in 32 bits. -/
def checkedYear (dayOfEra : Int) : Option Int := do
  let shorter ← unsigned32.fit (dayOfEra - dayOfEra / 1460)
  let longer ← unsigned32.fit (shorter + dayOfEra / 36524)
  let days ← unsigned32.fit (longer - dayOfEra / 146096)
  return days / 365

/-- The first day of a year of the era, every step of it in 32 bits. -/
def checkedStart (year : Int) : Option Int := do
  let whole ← unsigned32.fit (365 * year)
  let longer ← unsigned32.fit (whole + year / 4)
  unsigned32.fit (longer - year / 100)

/-- The month of a day of the year, every step of it in 32 bits. -/
def checkedMonth (dayOfYear : Int) : Option Int := do
  let scaled ← unsigned32.fit (5 * dayOfYear)
  let shifted ← unsigned32.fit (scaled + 2)
  return shifted / 153

/-- The first day of a month of the year, every step of it in 32 bits. -/
def checkedMonthStart (month : Int) : Option Int := do
  let scaled ← unsigned32.fit (153 * month)
  let shifted ← unsigned32.fit (scaled + 2)
  return shifted / 5

/-- The date of a day of an era, every step of it in the size that it is computed in: what
counts within the era in 32 bits, years of the calendar in 64 bits with a sign. -/
def checkedEraDay (era dayOfEra : Int) : Option StampDate := do
  let yearOfEra ← checkedYear dayOfEra
  let firstYear ← signed64.fit (era * 400)
  let marchYear ← signed64.fit (yearOfEra + firstYear)
  let yearStart ← checkedStart yearOfEra
  let dayOfYear ← unsigned32.fit (dayOfEra - yearStart)
  let marchMonth ← checkedMonth dayOfYear
  let monthStart ← checkedMonthStart marchMonth
  let dayOfMonth ← unsigned32.fit (dayOfYear - monthStart)
  let day ← unsigned32.fit (dayOfMonth + 1)
  let month ← unsigned32.fit (if marchMonth < 10 then marchMonth + 3 else marchMonth - 9)
  let year ← signed64.fit (if month ≤ 2 then marchYear + 1 else marchYear)
  return ⟨(year % 4294967296).toNat, month.toNat, day.toNat⟩

/-- The date of a 64-bit day number, which is read as a signed one, every step of it in the
size that it is computed in. -/
def checkedDate (days : Nat) : Option StampDate := do
  let shifted ← signed64.fit (Int.bmod days 18446744073709551616 + 719468)
  checkedEraDay (shifted / 146097) (shifted % 146097 % 4294967296)

/-- The year is found without leaving the range. -/
theorem checkedYear_eq {dayOfEra : Nat} (h : dayOfEra < 146097) :
    checkedYear dayOfEra = some (yearOfEra dayOfEra : Int) := by
  unfold checkedYear
  rw [bind_unsigned32 (by omega) (by omega), bind_unsigned32 (by omega) (by omega),
    bind_unsigned32 (by omega) (by omega)]
  unfold yearOfEra
  refine congrArg some ?_
  omega

/-- So is its first day. -/
theorem checkedStart_eq {year : Nat} (h : year < 400) :
    checkedStart year = some (yearStart year : Int) := by
  have hstart : (365 * year + year / 4 - year / 100 : Int) = yearStart year := by
    unfold yearStart
    omega
  unfold checkedStart
  rw [bind_unsigned32 (by omega) (by omega), bind_unsigned32 (by omega) (by omega), hstart]
  exact fit_unsigned32 (by omega) (by omega)

/-- So is the month. -/
theorem checkedMonth_eq {dayOfYear : Nat} (h : dayOfYear < 366) :
    checkedMonth dayOfYear = some (monthOfYear dayOfYear : Int) := by
  unfold checkedMonth
  rw [bind_unsigned32 (by omega) (by omega), bind_unsigned32 (by omega) (by omega)]
  rfl

/-- So is its first day. -/
theorem checkedMonthStart_eq {month : Nat} (h : month < 12) :
    checkedMonthStart month = some (monthStart month : Int) := by
  unfold checkedMonthStart
  rw [bind_unsigned32 (by omega) (by omega), bind_unsigned32 (by omega) (by omega)]
  rfl

/-- The date of a day of an era is that of the day, where its year is not too far away. -/
theorem checkedEraDay_eq {march : MarchDay} (h : march.Sound)
    (near : -9223372036854775 ≤ march.era ∧ march.era ≤ 9223372036854775) :
    checkedEraDay march.era march.dayOfEra = some (.ofDate march.date) := by
  have hday := h.dayOfEra_lt
  have hyear : yearOfEra march.dayOfEra = march.year := yearOfEra_of_lt h.year h.day_lt
  have hsound := h.year
  have hmonth := h.month
  have hlength : monthStart march.month + march.day < 366 := by
    have hlt := lt_yearLength.mp h.day_lt
    omega
  have hrest : (march.dayOfEra : Int) - yearStart march.year =
      (monthStart march.month + march.day : Nat) := by
    unfold MarchDay.dayOfEra
    omega
  have hplace : ((monthStart march.month + march.day : Nat) : Int) - monthStart march.month =
      march.day := by omega
  unfold checkedEraDay
  rw [bind_of_eq_some (checkedYear_eq hday), hyear, bind_signed64 (by omega) (by omega),
    bind_signed64 (by omega) (by omega), bind_of_eq_some (checkedStart_eq h.year), hrest,
    bind_unsigned32 (by omega) (by omega), bind_of_eq_some (checkedMonth_eq hlength),
    h.monthOfYear_eq, bind_of_eq_some (checkedMonthStart_eq h.month), hplace,
    bind_unsigned32 (by omega) (by omega), bind_unsigned32 (by omega) (by omega)]
  unfold MarchDay.date StampDate.ofDate
  by_cases hm : march.month < 10
  · have hm' : (march.month : Int) < 10 := by omega
    have hlate : ¬ (march.month : Int) + 3 ≤ 2 := by omega
    rw [if_pos hm', if_pos hm, bind_unsigned32 (by omega) (by omega), if_neg hlate,
      bind_signed64 (by omega) (by omega)]
    refine congrArg some ?_
    rw [StampDate.mk.injEq]
    unfold yearRange
    dsimp only
    omega
  · have hm' : ¬ (march.month : Int) < 10 := by omega
    have hearly : (march.month : Int) - 9 ≤ 2 := by omega
    rw [if_neg hm', if_neg hm, bind_unsigned32 (by omega) (by omega), if_pos hearly,
      bind_signed64 (by omega) (by omega)]
    refine congrArg some ?_
    rw [StampDate.mk.injEq]
    unfold yearRange
    dsimp only
    omega

/-- Only counting the days from the year 0 can leave the range, and the date is none exactly
where it does. -/
theorem checkedDate_eq (days : Nat) : checkedDate days = StampDate.ofDayNumber days := by
  have hlow : -9223372036854775808 ≤ Int.bmod days wordRange :=
    Int.le_bmod (Nat.succ_pos 18446744073709551615)
  unfold StampDate.ofDayNumber checkedDate
  dsimp only
  rw [wordRange] at *
  generalize Int.bmod days 18446744073709551616 = signed at hlow ⊢
  by_cases hfits : signedMax < signed + epochOffset
  · have hnone : signed64.fit (signed + 719468) = none := fit_of_lt hfits
    rw [if_pos hfits, hnone]
    rfl
  · rw [if_neg hfits]
    obtain ⟨march, hsound, rfl⟩ := exists_sound signed
    have hday := hsound.dayOfEra_lt
    have hshifted : march.days + 719468 = march.era * 146097 + march.dayOfEra := by
      unfold MarchDay.days
      omega
    have hera : (march.era * 146097 + march.dayOfEra) / 146097 = march.era := by omega
    have hwithin : (march.era * 146097 + march.dayOfEra) % 146097 % 4294967296 =
        (march.dayOfEra : Int) := by omega
    have hhigh : march.days + 719468 ≤ 9223372036854775807 := Int.not_lt.mp hfits
    rw [bind_signed64 (by omega) hhigh, hshifted, hera, hwithin, hsound.ofDays_eq,
      checkedEraDay_eq hsound (by omega)]

end Computing

/-- A 64-bit day number, read as a signed one, is turned into the date that the calendar
gives to this day, with its year modulo `2^32`, and the day after it comes next. Counting
from the year 0 must not leave the signed numbers, and then nothing else on the way leaves
the size that it is computed in. -/
theorem day_number_names_calendar_date {days : Nat}
    (fits : Int.bmod days 18446744073709551616 + 719468 ≤ 9223372036854775807) :
    ∃ date, OnCalendar date ∧
      (∀ other, FallsOn (Int.bmod days 18446744073709551616) other ↔ other = date) ∧
      (∀ other, FallsOn (Int.bmod days 18446744073709551616 + 1) other ↔ other = dayAfter date) ∧
      checkedDate days = some ⟨(date.year % 4294967296).toNat, date.month, date.day⟩ ∧
      StampDate.ofDayNumber days =
        some ⟨(date.year % 4294967296).toNat, date.month, date.day⟩ := by
  have hnumber : StampDate.ofDayNumber days =
      some (.ofDate (.ofDays (Int.bmod days 18446744073709551616))) := by
    unfold StampDate.ofDayNumber
    exact if_neg (Int.not_lt.mpr fits)
  refine ⟨_, ofDays_onCalendar _, fun _ => fallsOn_iff, fun other => ?_, ?_, hnumber⟩
  · rw [fallsOn_iff, ofDays_succ]
  · rw [checkedDate_eq]
    exact hnumber

/-- The number of the last day before the year 0, which is below the first day of 1970. -/
theorem day_number_names_calendar_date_of_negative :
    Int.bmod (18446744073708832087 : Nat) 18446744073709551616 + 719468 ≤ 9223372036854775807 ∧
      FallsOn (-719529) ⟨-1, 12, 31⟩ ∧
      checkedDate 18446744073708832087 = some ⟨4294967295, 12, 31⟩ ∧
      StampDate.ofDayNumber 18446744073708832087 = some ⟨4294967295, 12, 31⟩ := by
  have hsigned : Int.bmod (18446744073708832087 : Nat) 18446744073709551616 = -719529 := by decide
  have fits : Int.bmod (18446744073708832087 : Nat) 18446744073709551616 + 719468 ≤
      9223372036854775807 := by decide
  obtain ⟨date, -, hdate, -, hchecked, hnumber⟩ := day_number_names_calendar_date fits
  have hfalls : FallsOn (-719529) ⟨-1, 12, 31⟩ := fallsOn_iff.mpr (by decide)
  rw [hsigned] at hdate
  obtain rfl := (hdate _).mp hfalls
  exact ⟨fits, hfalls, hchecked, hnumber⟩

end TernarySynth.Proofs.GregorianDate
