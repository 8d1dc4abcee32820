import TernarySynth.Timestamp
import TernarySynth.Proofs.DecidedText
import TernarySynth.Proofs.GregorianDate

/-!
# The order of time stamps

A stamp is a row of fields of fixed widths, the larger units first and every field filled
up with zeros. So stamps are in the order of their texts as the fields are in the order of
their values, and these are in the order of time: the calendar goes from one day to the
next upwards, and the clock counts through each day.
-/

namespace TernarySynth.Proofs.StampOrder

open CalendarDate TextLayout Timestamp DecidedText GregorianDate

section Digits

/-- The last decimal digits of a number, as many as the width says. -/
def digitsOf : Nat → Nat → List Char
  | 0, _ => []
  | width + 1, n => digitsOf width (n / 10) ++ [Nat.digitChar (n % 10)]

/-- They fill the width. -/
theorem length_digitsOf (width n : Nat) : (digitsOf width n).length = width := by
  induction width generalizing n with
  | zero => rfl
  | succ width ih => rw [digitsOf, List.length_append, ih, List.length_singleton]

/-- Digits are in the order of their values. -/
theorem digitChar_lt : ∀ n < 10, ∀ m < n, Nat.digitChar m < Nat.digitChar n := by decide

/-- Digits are ASCII characters. -/
theorem digitChar_ascii : ∀ n < 10, (Nat.digitChar n).toNat < 128 := by decide

/-- So are the last digits of a number. -/
theorem ascii_digitsOf (width n : Nat) : ∀ c ∈ digitsOf width n, c.toNat < 128 := by
  induction width generalizing n with
  | zero => nofun
  | succ width ih =>
    intro c hc
    rw [digitsOf, List.mem_append, List.mem_singleton] at hc
    rcases hc with hc | rfl
    · exact ih _ c hc
    · exact digitChar_ascii _ (Nat.mod_lt n (by decide))

/-- Without its last digit a number takes one place less. -/
theorem div_ten_lt {width n : Nat} (h : n < 10 ^ (width + 1)) : n / 10 < 10 ^ width := by
  rw [Nat.div_lt_iff_lt_mul (by decide), ← Nat.pow_succ]
  exact h

/-- Zeros before the digits of a number that is small enough make up its last digits. -/
theorem replicate_append_toDigits {width n : Nat} (h : n < 10 ^ (width + 1)) :
    List.replicate (width + 1 - (Nat.toDigits 10 n).length) '0' ++ Nat.toDigits 10 n =
      digitsOf (width + 1) n := by
  induction width generalizing n with
  | zero =>
    have hn : n < 10 := by omega
    rw [Nat.toDigits_of_lt_base hn, digitsOf, Nat.mod_eq_of_lt hn]
    rfl
  | succ width ih =>
    rw [digitsOf, ← ih (div_ten_lt h)]
    by_cases hn : n < 10
    · have hzero : n / 10 = 0 := by omega
      rw [hzero, Nat.toDigits_of_lt_base hn, Nat.toDigits_zero, Nat.mod_eq_of_lt hn]
      simp only [List.length_singleton, Nat.add_sub_cancel]
      rw [← List.replicate_succ']
    · rw [Nat.toDigits_of_base_le (by decide) (by omega), List.length_append,
        List.length_singleton, Nat.add_sub_add_right, List.append_assoc]

/-- A number that its width has room for is written with its last digits. -/
theorem toList_padded {width n : Nat} (h : n < 10 ^ (width + 1)) :
    (padded (width + 1) n).toList = digitsOf (width + 1) n := by
  rw [← replicate_append_toDigits h]
  unfold padded
  rw [Nat.toString_eq_ofList_toDigits, String.toList_append, String.toList_ofList,
    String.toList_ofList, String.length_ofList]

/-- What comes behind lists of the same length does not matter for their order. -/
theorem append_lt_append {xs ys : List Char} (hlength : xs.length = ys.length) (h : xs < ys)
    (xs' ys' : List Char) : xs ++ xs' < ys ++ ys' := by
  induction xs generalizing ys with
  | nil =>
    rw [List.eq_nil_of_length_eq_zero hlength.symm] at h
    exact absurd h (List.lt_irrefl _)
  | cons x xs ih =>
    cases ys with
    | nil => cases hlength
    | cons y ys =>
      rw [List.cons_lt_cons_iff] at h
      rw [List.cons_append, List.cons_append, List.cons_lt_cons_iff]
      exact h.imp id fun hrest => ⟨hrest.1, ih (Nat.succ.inj hlength) hrest.2⟩

/-- Numbers that the width has room for are in the order of their digits. -/
theorem digitsOf_lt {width m n : Nat} (h : m < n) (hn : n < 10 ^ width) :
    digitsOf width m < digitsOf width n := by
  induction width generalizing m n with
  | zero => omega
  | succ width ih =>
    have hlength : (digitsOf width (m / 10)).length = (digitsOf width (n / 10)).length := by
      rw [length_digitsOf, length_digitsOf]
    rw [digitsOf, digitsOf]
    by_cases hfirst : m / 10 < n / 10
    · exact append_lt_append hlength (ih hfirst (div_ten_lt hn)) _ _
    · have hsame : m / 10 = n / 10 := by omega
      rw [hsame]
      refine List.append_left_lt (List.cons_lt_cons_iff.mpr (.inl ?_))
      exact digitChar_lt _ (Nat.mod_lt n (by decide)) _ (by omega)

/-- The number that decimal digits stand for. -/
def valueOf (digits : List Char) : Nat :=
  digits.foldl (fun n c => n * 10 + (c.toNat - 48)) 0

/-- A digit stands for its value. -/
theorem digitChar_value : ∀ n < 10, (Nat.digitChar n).toNat - 48 = n := by decide

/-- The last digits of a number are enough to read it where the width has room for it. -/
theorem valueOf_digitsOf {width n : Nat} (h : n < 10 ^ width) : valueOf (digitsOf width n) = n := by
  induction width generalizing n with
  | zero =>
    have hzero : n = 0 := by omega
    rw [hzero]
    rfl
  | succ width ih =>
    have hlast := digitChar_value (n % 10) (Nat.mod_lt n (by decide))
    have hread := ih (div_ten_lt h)
    unfold valueOf at hread ⊢
    rw [digitsOf, List.foldl_append, hread, List.foldl_cons, List.foldl_nil, hlast]
    omega

end Digits

section Fields

/-- The text of some fields: before each of them stand its marks, and its width is filled. -/
def fieldsText : List (List Char × Nat) → List Nat → List Char
  | (marks, width) :: form, n :: values => marks ++ (digitsOf width n ++ fieldsText form values)
  | _, _ => []

/-- Values that the widths of their fields have room for. -/
def Fits (form : List (List Char × Nat)) (values : List Nat) : Prop :=
  List.Forall₂ (fun field n => n < 10 ^ field.2) form values

variable {form : List (List Char × Nat)} {values values' : List Nat}

/-- Texts of fields are in the order of the values. -/
theorem fieldsText_lt (h : Fits form values) (h' : Fits form values') (hlt : values < values') :
    fieldsText form values < fieldsText form values' := by
  induction h generalizing values' with
  | nil =>
    cases h'
    exact absurd hlt (List.lt_irrefl _)
  | @cons field n form values hn hrest ih =>
    cases h' with
    | @cons _ n' _ values' hn' hrest' =>
      rw [List.cons_lt_cons_iff] at hlt
      refine List.append_left_lt ?_
      rcases hlt with hlt | ⟨rfl, hlt⟩
      · have hlength : (digitsOf field.2 n).length = (digitsOf field.2 n').length := by
          rw [length_digitsOf, length_digitsOf]
        exact append_lt_append hlength (digitsOf_lt hlt hn') _ _
      · exact List.append_left_lt (ih hrest' hlt)

/-- They are as long as the marks and the widths together. -/
theorem length_fieldsText (h : Fits form values) :
    (fieldsText form values).length = (form.map fun field => field.1.length + field.2).sum := by
  induction h with
  | nil => rfl
  | cons hn hrest ih =>
    rw [fieldsText, List.length_append, List.length_append, length_digitsOf, ih, List.map_cons,
      List.sum_cons, Nat.add_assoc]

/-- Digits are ASCII characters, and so is a text with such marks. -/
theorem ascii_fieldsText (hmarks : ∀ field ∈ form, ∀ c ∈ field.1, c.toNat < 128)
    (h : Fits form values) : ∀ c ∈ fieldsText form values, c.toNat < 128 := by
  induction h with
  | nil => nofun
  | @cons field n form values hn hrest ih =>
    intro c hc
    rw [fieldsText, List.mem_append, List.mem_append] at hc
    rcases hc with hc | hc | hc
    · exact hmarks field List.mem_cons_self c hc
    · exact ascii_digitsOf field.2 n c hc
    · exact ih (fun other hm => hmarks other (List.mem_cons_of_mem _ hm)) c hc

/-- The values that are read from a text of fields. -/
def readFields : List (List Char × Nat) → List Char → List Nat
  | [], _ => []
  | (marks, width) :: form, text =>
    valueOf ((text.drop marks.length).take width) ::
      readFields form ((text.drop marks.length).drop width)

/-- They are the values that were written. -/
theorem readFields_fieldsText (h : Fits form values) :
    readFields form (fieldsText form values) = values := by
  induction h with
  | nil => rfl
  | @cons field n form values hn hrest ih =>
    rw [fieldsText, readFields, List.drop_left,
      List.take_left' (length_digitsOf field.2 n), List.drop_left' (length_digitsOf field.2 n),
      valueOf_digitsOf hn, ih]

end Fields

section Bytes

/-- The bytes of an ASCII text. -/
theorem bytes_ofList {chars : List Char} (h : ∀ c ∈ chars, c.toNat < 128) :
    (String.ofList chars).toUTF8.toList = chars.map fun c => UInt8.ofNat c.toNat := by
  rw [toList_eq, String.toUTF8_eq_toByteArray, String.toByteArray_ofList]
  induction chars with
  | nil => rfl
  | cons c chars ih =>
    have hsize : c.utf8Size = 1 := by
      rw [Char.utf8Size_eq_one_iff, UInt32.le_iff_toNat_le]
      exact Nat.le_of_lt_succ (h c List.mem_cons_self)
    rw [List.utf8Encode_cons, ByteArray.toList_data_append, List.utf8Encode_singleton,
      List.toList_data_toByteArray, String.utf8EncodeChar_eq_singleton hsize,
      ih fun other hm => h other (List.mem_cons_of_mem _ hm)]
    rfl

/-- Bytes of ASCII characters are in the order of the characters. -/
theorem map_byte_lt {xs ys : List Char} (hxs : ∀ c ∈ xs, c.toNat < 128)
    (hys : ∀ c ∈ ys, c.toNat < 128) (h : xs < ys) :
    (xs.map fun c => UInt8.ofNat c.toNat) < ys.map fun c => UInt8.ofNat c.toNat := by
  induction xs generalizing ys with
  | nil =>
    cases ys with
    | nil => exact absurd h (List.lt_irrefl _)
    | cons y ys => exact List.nil_lt_cons _ _
  | cons x xs ih =>
    cases ys with
    | nil => exact absurd h (List.not_lt_nil _)
    | cons y ys =>
      have hx := hxs x List.mem_cons_self
      have hy := hys y List.mem_cons_self
      rw [List.cons_lt_cons_iff] at h
      rw [List.map_cons, List.map_cons, List.cons_lt_cons_iff]
      rcases h with h | ⟨rfl, h⟩
      · refine .inl ?_
        have hlt : x.toNat < y.toNat := h
        rw [UInt8.lt_iff_toNat_lt, UInt8.toNat_ofNat', UInt8.toNat_ofNat']
        omega
      · exact .inr ⟨rfl, ih (fun c hc => hxs c (List.mem_cons_of_mem _ hc))
          (fun c hc => hys c (List.mem_cons_of_mem _ hc)) h⟩

end Bytes

section Dates

/-- One date comes before another: the year decides, then the month, then the day. -/
def Earlier (one two : Date) : Prop :=
  one.year < two.year ∨ one.year = two.year ∧
    (one.month < two.month ∨ one.month = two.month ∧ one.day < two.day)

/-- A date comes before the day after. -/
theorem earlier_dayAfter {date : Date} (h : OnCalendar date) : Earlier date (dayAfter date) := by
  unfold Earlier
  rcases dayAfter_cases h with ⟨-, he⟩ | ⟨-, -, he⟩ | ⟨-, -, he⟩
  · rw [he]
    exact .inr ⟨rfl, .inr ⟨rfl, Nat.lt_succ_self _⟩⟩
  · rw [he]
    exact .inr ⟨rfl, .inl (Nat.lt_succ_self _)⟩
  · rw [he]
    exact .inl (Int.lt_succ _)

/-- Dates come before each other in order. -/
theorem Earlier.trans {one two three : Date} (h : Earlier one two) (h' : Earlier two three) :
    Earlier one three := by
  unfold Earlier at *
  omega

/-- Dates are in the order of their day numbers. -/
theorem ofDays_earlier (days : Int) (n : Nat) :
    Earlier (.ofDays days) (.ofDays (days + (n + 1 : Nat))) := by
  have hnext : ∀ days : Int, Earlier (.ofDays days) (.ofDays (days + 1)) := by
    intro days
    rw [ofDays_succ]
    exact earlier_dayAfter (ofDays_onCalendar days)
  induction n with
  | zero => exact hnext days
  | succ n ih =>
    have hlast := hnext (days + (n + 1 : Nat))
    rw [Int.add_assoc, ← Int.natCast_succ] at hlast
    exact ih.trans hlast

/-- Years go up with the days. -/
theorem year_mono {m n : Nat} (h : m ≤ n) : (Date.ofDays m).year ≤ (Date.ofDays n).year := by
  rcases Nat.lt_or_eq_of_le h with hlt | rfl
  · obtain ⟨k, rfl⟩ := Nat.exists_eq_add_of_lt hlt
    have hdate := ofDays_earlier m k
    rw [← Int.natCast_add, ← Nat.add_assoc] at hdate
    rcases hdate with hyear | ⟨hyear, -⟩
    · exact Int.le_of_lt hyear
    · exact Int.le_of_eq hyear
  · exact Int.le_refl _

/-- No day after the first of January 1970 is in an earlier year. -/
theorem year_ofDays (n : Nat) : 1970 ≤ (Date.ofDays n).year := by
  have hfirst : (Date.ofDays (0 : Nat)).year = 1970 := by decide
  rw [← hfirst]
  exact year_mono (Nat.zero_le n)

/-- The day of a date, with a year that begins in March. -/
def marchOf (date : Date) : MarchDay :=
  if 2 < date.month then
    ⟨date.year / 400, (date.year % 400).toNat, date.month - 3, date.day - 1⟩
  else ⟨(date.year - 1) / 400, ((date.year - 1) % 400).toNat, date.month + 9, date.day - 1⟩

/-- The date of a sound day is that of no other. -/
theorem marchOf_date {march : MarchDay} (h : march.Sound) : marchOf march.date = march := by
  obtain ⟨era, year, month, day⟩ := march
  have hyear : year < 400 := h.year
  have hmonth : month < 12 := h.month
  unfold MarchDay.date
  dsimp only
  by_cases hm : month < 10
  · rw [if_pos hm]
    unfold marchOf
    rw [if_pos (by dsimp only; omega), MarchDay.mk.injEq]
    dsimp only
    omega
  · rw [if_neg hm]
    unfold marchOf
    rw [if_neg (by dsimp only; omega), MarchDay.mk.injEq]
    dsimp only
    omega

/-- So the number of a day is found from its date. -/
theorem days_marchOf (days : Int) : (marchOf (.ofDays days)).days = days := by
  obtain ⟨march, hsound, rfl⟩ := exists_sound days
  rw [hsound.ofDays_eq, marchOf_date hsound]

end Dates

section Times

/-- The fields of a stamp, with the marks before them. -/
def stampForm : List (List Char × Nat) :=
  [([], 4), (['-'], 2), (['-'], 2), ([' '], 2), ([':'], 2), ([':'], 2), (['.'], 3)]

/-- The marks are ASCII characters. -/
theorem ascii_stampForm : ∀ field ∈ stampForm, ∀ c ∈ field.1, c.toNat < 128 := by
  unfold stampForm
  simp

/-- The values of the fields, in the order in which they are written. -/
def fieldsOf (stamp : StampDate) (seconds millis : Nat) : List Nat :=
  [stamp.year, stamp.month, stamp.day, seconds / 3600 % 24, seconds / 60 % 60, seconds % 60,
    millis]

/-- Values with room in their fields are written field by field. -/
theorem toList_written {stamp : StampDate} {seconds millis : Nat}
    (h : Fits stampForm (fieldsOf stamp seconds millis)) :
    (Timestamp.dateText stamp ++ " " ++ Timestamp.clockText seconds millis).toList =
      fieldsText stampForm (fieldsOf stamp seconds millis) := by
  unfold Fits stampForm fieldsOf at h
  simp only [List.forall₂_cons, List.forall₂_nil_left_iff, and_true] at h
  obtain ⟨hyear, hmonth, hday, hhour, hminute, hsecond, hmillis⟩ := h
  unfold Timestamp.dateText Timestamp.clockText stampForm fieldsOf
  simp only [String.toList_append, toList_padded hyear, toList_padded hmonth, toList_padded hday,
    toList_padded hhour, toList_padded hminute, toList_padded hsecond, toList_padded hmillis,
    fieldsText, List.append_assoc, List.append_nil]
  rfl

/-- No month has more than 31 days. -/
theorem monthLength_le (year : Int) (month : Nat) : monthLength year month ≤ 31 := by
  unfold monthLength
  split
  · split <;> decide
  all_goals decide

/-- A date that is written as it is: with its own year of four digits, and two digits for
month and day. -/
structure Written (date : Date) (stamp : StampDate) : Prop where
  /-- The year is kept. -/
  year : (stamp.year : Int) = date.year
  /-- So is the month. -/
  month : stamp.month = date.month
  /-- So is the day. -/
  day : stamp.day = date.day
  /-- The year has four digits. -/
  year_lt : stamp.year < 10000
  /-- The month has two digits. -/
  month_lt : stamp.month < 100
  /-- The day has two digits. -/
  day_lt : stamp.day < 100

/-- This is so where the year has four digits. -/
theorem written_ofDate {date : Date} (h : OnCalendar date) (low : 0 ≤ date.year)
    (high : date.year < 10000) : Written date (.ofDate date) := by
  have hmonth : date.month ≤ 12 := h.month.2
  have hday : date.day ≤ 31 := Nat.le_trans h.day.2 (monthLength_le _ _)
  have hyear : ((date.year % yearRange).toNat : Int) = date.year := by
    unfold yearRange
    omega
  have hlt : (date.year % yearRange).toNat < 10000 := by omega
  exact ⟨hyear, rfl, rfl, hlt, Nat.lt_of_le_of_lt hmonth (by decide),
    Nat.lt_of_le_of_lt hday (by decide)⟩

variable {one two : Date} {stamp stamp' : StampDate} {seconds seconds' millis millis' : Nat}

/-- The date is that of its stamp. -/
theorem Written.date_eq (h : Written one stamp) :
    (⟨stamp.year, stamp.month, stamp.day⟩ : Date) = one := by
  rw [h.year, h.month, h.day]

/-- The values of the fields are small enough for them. -/
theorem Written.fits (h : Written one stamp) (hmillis : millis < 1000) :
    Fits stampForm (fieldsOf stamp seconds millis) := by
  obtain ⟨-, -, -, hyear, hmonth, hday⟩ := h
  unfold Fits stampForm fieldsOf
  simp only [List.forall₂_cons, List.forall₂_nil_left_iff, and_true]
  omega

/-- On an earlier day the fields of the date are less. -/
theorem Written.fieldsOf_lt (h : Written one stamp) (h' : Written two stamp')
    (hlt : Earlier one two) :
    fieldsOf stamp seconds millis < fieldsOf stamp' seconds' millis' := by
  obtain ⟨hyear, hmonth, hday, -⟩ := h
  obtain ⟨hyear', hmonth', hday', -⟩ := h'
  unfold Earlier at hlt
  simp only [fieldsOf, List.cons_lt_cons_iff]
  omega

/-- On the same day the fields of the clock decide. -/
theorem fieldsOf_lt_of_day_eq (hday : seconds / 86400 = seconds' / 86400)
    (hmillis : millis < 1000) (hmillis' : millis' < 1000)
    (hlt : seconds * 1000 + millis < seconds' * 1000 + millis') :
    fieldsOf stamp seconds millis < fieldsOf stamp seconds' millis' := by
  simp only [fieldsOf, List.cons_lt_cons_iff, List.lt_irrefl, Nat.lt_irrefl, and_false, or_false,
    false_or, true_and]
  omega

/-- The number of thousandths that the values of the fields stand for. -/
def millisOf : List Nat → Nat
  | [year, month, day, hour, minute, second, millis] =>
    ((((marchOf ⟨year, month, day⟩).days.toNat * 24 + hour) * 60 + minute) * 60 + second) * 1000 +
      millis
  | _ => 0

/-- The values of the fields are enough to find it. -/
theorem Written.millisOf_fieldsOf (h : Written (.ofDays (seconds / 86400 : Nat)) stamp) :
    millisOf (fieldsOf stamp seconds millis) = seconds * 1000 + millis := by
  have hdays := days_marchOf (seconds / 86400 : Nat)
  rw [← h.date_eq] at hdays
  unfold fieldsOf millisOf
  dsimp only
  rw [hdays, Int.toNat_natCast]
  omega

end Times

section Stamps

/-- A time whose day is before the year 10000. -/
structure Early (time : Timestamp) : Prop where
  /-- There are less than a thousand thousandths. -/
  millis : time.millis < 1000
  /-- The year of the day has four digits. -/
  year : (Date.ofDays (time.seconds / secondsPerDay : Nat)).year < 10000

/-- The number of whole thousandths of a second. -/
def totalMillis (time : Timestamp) : Nat := time.seconds * 1000 + time.millis

variable {time time' : Timestamp}

/-- The fields of the stamp of a time. -/
def stampFields (time : Timestamp) : List Nat := fieldsOf time.date time.seconds time.millis

/-- The date of such a time is written as it is. -/
theorem Early.written (h : Early time) :
    Written (.ofDays (time.seconds / secondsPerDay : Nat)) time.date := by
  have hlow := year_ofDays (time.seconds / secondsPerDay)
  unfold Timestamp.date
  exact written_ofDate (ofDays_onCalendar _) (by omega) h.year

/-- The values of its fields have room in them. -/
theorem Early.fits (h : Early time) : Fits stampForm (stampFields time) := h.written.fits h.millis

/-- The stamp is written field by field. -/
theorem Early.toList_display (h : Early time) :
    time.display.toList = fieldsText stampForm (stampFields time) :=
  toList_written h.fits

/-- It has 23 characters. -/
theorem Early.length_display (h : Early time) : time.display.length = 23 := by
  rw [← String.length_toList, h.toList_display, length_fieldsText h.fits]
  rfl

/-- A stamp has ASCII characters only. -/
theorem Early.ascii_fields (h : Early time) :
    ∀ c ∈ fieldsText stampForm (stampFields time), c.toNat < 128 :=
  ascii_fieldsText ascii_stampForm h.fits

/-- The bytes of a stamp. -/
theorem Early.bytes_display (h : Early time) :
    time.display.toUTF8.toList =
      (fieldsText stampForm (stampFields time)).map fun c => UInt8.ofNat c.toNat := by
  rw [← bytes_ofList h.ascii_fields, ← h.toList_display, String.ofList_toList]

/-- The fields of an earlier time are less: those of its date on an earlier day, and those
of the clock on the same day. -/
theorem Early.stampFields_lt (h : Early time) (h' : Early time')
    (hlt : totalMillis time < totalMillis time') : stampFields time < stampFields time' := by
  have hmillis := h.millis
  have hmillis' := h'.millis
  unfold totalMillis at hlt
  have hdays : time.seconds / secondsPerDay ≤ time'.seconds / secondsPerDay :=
    Nat.div_le_div_right (by omega)
  rcases Nat.lt_or_eq_of_le hdays with hday | hday
  · obtain ⟨n, hn⟩ := Nat.exists_eq_add_of_lt hday
    refine h.written.fieldsOf_lt h'.written ?_
    rw [hn, Nat.add_assoc, Int.natCast_add]
    exact ofDays_earlier _ n
  · have hdate : time.date = time'.date := by
      unfold Timestamp.date
      rw [hday]
    unfold stampFields
    rw [hdate]
    exact fieldsOf_lt_of_day_eq hday hmillis hmillis' hlt

/-- Times are in the order of the bytes of their stamps. -/
theorem Early.bytes_lt (h : Early time) (h' : Early time')
    (hlt : totalMillis time < totalMillis time') :
    time.display.toUTF8.toList < time'.display.toUTF8.toList := by
  rw [h.bytes_display, h'.bytes_display]
  exact map_byte_lt h.ascii_fields h'.ascii_fields
    (fieldsText_lt h.fits h'.fits (h.stampFields_lt h' hlt))

/-- Times with the same thousandths have the same stamp. -/
theorem Early.display_eq (h : Early time) (h' : Early time')
    (heq : totalMillis time = totalMillis time') : time.display = time'.display := by
  have hmillis := h.millis
  have hmillis' := h'.millis
  unfold totalMillis at heq
  obtain ⟨seconds, millis⟩ := time
  obtain ⟨seconds', millis'⟩ := time'
  dsimp only at heq hmillis hmillis'
  have hseconds : seconds = seconds' := by omega
  have hrest : millis = millis' := by omega
  rw [hseconds, hrest]

/-- The number of thousandths that is read from a stamp. -/
def readMillis (text : String) : Nat := millisOf (readFields stampForm text.toList)

/-- A stamp is read back. -/
theorem Early.readMillis_display (h : Early time) : readMillis time.display = totalMillis time := by
  unfold readMillis
  rw [h.toList_display, readFields_fieldsText h.fits]
  exact h.written.millisOf_fieldsOf

example : readMillis "2024-02-29 23:59:59.999" = 1709251199999 := by decide

end Stamps

section Spans

/-- A span of time after the start of 1970 ends on a day of an earlier year than that. -/
def EndsBefore (year : Int) (seconds nanos : Nat) : Prop :=
  ∃ date, FallsOn ((seconds + nanos / 1000000000) / 86400 : Nat) date ∧ date.year < year

/-- The whole thousandths of a second in a span of time. -/
def wholeMillis (seconds nanos : Nat) : Nat := (seconds * 1000000000 + nanos) / 1000000

variable {seconds nanos seconds' nanos' : Nat}

/-- Before the year 10000 the clock has room for the seconds. -/
theorem exists_early (h : EndsBefore 10000 seconds nanos) :
    ∃ time, Timestamp.ofParts seconds nanos = some time ∧ Early time ∧
      totalMillis time = wholeMillis seconds nanos := by
  obtain ⟨date, hfalls, hyear⟩ := h
  obtain rfl := fallsOn_iff.mp hfalls
  have hlast : (Date.ofDays (2932897 : Nat)).year = 10000 := by decide
  have hdays : (seconds + nanos / 1000000000) / 86400 < 2932897 := by
    by_contra hlate
    have hle := year_mono (Nat.le_of_not_lt hlate)
    rw [hlast] at hle
    omega
  have hfits : seconds + nanos / nanosPerSecond < wordRange := by
    unfold nanosPerSecond wordRange
    omega
  refine ⟨⟨seconds + nanos / nanosPerSecond, nanos % nanosPerSecond / 1000000⟩, if_pos hfits,
    ⟨?_, hyear⟩, ?_⟩
  · unfold nanosPerSecond
    dsimp only
    omega
  · unfold totalMillis wholeMillis nanosPerSecond
    dsimp only
    omega

/-- Two spans of time that end before the year 10000 are turned into stamps of 23 characters.
The bytes of the stamps are in the order of the whole thousandths of a second in the spans,
the stamps are the same where these are, and they are read back from a stamp. -/
theorem stamps_sort_as_time (early : EndsBefore 10000 seconds nanos)
    (early' : EndsBefore 10000 seconds' nanos') :
    ∃ time time', Timestamp.ofParts seconds nanos = some time ∧
      Timestamp.ofParts seconds' nanos' = some time' ∧
      time.display.length = 23 ∧ time'.display.length = 23 ∧
      (time.display.toUTF8.toList < time'.display.toUTF8.toList ↔
        wholeMillis seconds nanos < wholeMillis seconds' nanos') ∧
      (time.display = time'.display ↔ wholeMillis seconds nanos = wholeMillis seconds' nanos') ∧
      readMillis time.display = wholeMillis seconds nanos ∧
      readMillis time'.display = wholeMillis seconds' nanos' := by
  obtain ⟨time, hmade, hearly, hmillis⟩ := exists_early early
  obtain ⟨time', hmade', hearly', hmillis'⟩ := exists_early early'
  have hread := hearly.readMillis_display
  have hread' := hearly'.readMillis_display
  rw [← hmillis, ← hmillis']
  refine ⟨time, time', hmade, hmade', hearly.length_display, hearly'.length_display, ?_, ?_,
    hread, hread'⟩
  · refine ⟨fun hlt => ?_, hearly.bytes_lt hearly'⟩
    rcases Nat.lt_trichotomy (totalMillis time) (totalMillis time') with h | h | h
    · exact h
    · rw [hearly.display_eq hearly' h] at hlt
      exact absurd hlt (List.lt_irrefl _)
    · exact absurd (hearly'.bytes_lt hearly h) (List.lt_asymm hlt)
  · refine ⟨fun he => ?_, hearly.display_eq hearly'⟩
    rw [← hread, ← hread', he]

/-- The last thousandth of a leap day and the start of the next day. -/
theorem stamps_sort_as_time_of_leap_day :
    EndsBefore 10000 1709251199 999999999 ∧ EndsBefore 10000 1709251200 0 ∧
      ∃ time time', Timestamp.ofParts 1709251199 999999999 = some time ∧
        Timestamp.ofParts 1709251200 0 = some time' ∧
        time.display.toUTF8.toList < time'.display.toUTF8.toList ∧
        readMillis time.display = 1709251199999 := by
  have early : EndsBefore 10000 1709251199 999999999 :=
    ⟨⟨2024, 2, 29⟩, fallsOn_iff.mpr (by decide), by decide⟩
  have early' : EndsBefore 10000 1709251200 0 :=
    ⟨⟨2024, 3, 1⟩, fallsOn_iff.mpr (by decide), by decide⟩
  obtain ⟨time, time', hmade, hmade', -, -, hlt, -, hread, -⟩ := stamps_sort_as_time early early'
  exact ⟨early, early', time, time', hmade, hmade', hlt.mpr (by decide), hread⟩

end Spans

end TernarySynth.Proofs.StampOrder
