import IssunDB.Lib.Decimals
import IssunDB.Lib.Slices

/-!
# Dates and times of day

Dates of the proleptic Gregorian calendar and times of day, as the calendar library has them, and
its functions that the temporal values are built with. The library is a parameter: `Chrono` lists
what is called of it and what its documentation promises.
-/

namespace IssunDB.Temporal

open Texts

/-- How a call can end without a value: with an error, or by aborting. Arithmetic that leaves its
type and slices off a character boundary abort. -/
inductive Fault where
  | error (message : String)
  | abort
  deriving DecidableEq

/-- A call that may end with a fault. -/
abbrev Run (α : Type) := Except Fault α

/-- An `i64` result. -/
def checkedI64 (i : ℤ) : Run ℤ := if -2 ^ 63 ≤ i ∧ i < 2 ^ 63 then .ok i else .error .abort

def orAbort {α : Type} : Option α → Run α
  | some a => .ok a
  | none => .error .abort

/-! ## Dates -/

/-- `is_leap_civil`. -/
def isLeapCivil (year : ℤ) : Bool := (year % 4 = 0 && year % 100 ≠ 0) || year % 400 = 0

/-- `days_in_month_civil`. -/
def daysInMonthCivil (year : ℤ) (month : ℕ) : ℕ :=
  match month with
  | 1 | 3 | 5 | 7 | 8 | 10 | 12 => 31
  | 4 | 6 | 9 | 11 => 30
  | 2 => if isLeapCivil year then 29 else 28
  | _ => 30

lemma daysInMonthCivil_le (year : ℤ) (month : ℕ) : daysInMonthCivil year month ≤ 31 := by
  unfold daysInMonthCivil
  split
  case h_12 => split <;> decide
  all_goals decide

/-- A date of any year. -/
@[ext]
structure CivilDate where
  year : ℤ
  month : ℕ
  day : ℕ
  month_bounds : 1 ≤ month ∧ month ≤ 12
  day_bounds : 1 ≤ day ∧ day ≤ daysInMonthCivil year month
  deriving DecidableEq

def CivilDate.cmp (d d' : CivilDate) : Ordering :=
  (compare d.year d'.year).then ((compare d.month d'.month).then (compare d.day d'.day))

/-- A date in the range of `NaiveDate`. -/
@[ext]
structure NaiveDate extends CivilDate where
  range : -262143 ≤ year ∧ year ≤ 262142
  deriving DecidableEq

/-- A time of day. A nanosecond from `10 ^ 9` on stands for a leap second, which only follows a
second 59. -/
@[ext]
structure NaiveTime where
  hour : ℕ
  minute : ℕ
  second : ℕ
  nanosecond : ℕ
  hour_lt : hour < 24
  minute_lt : minute < 60
  second_lt : second < 60
  nanosecond_lt : nanosecond < 10 ^ 9 ∨ (second = 59 ∧ nanosecond < 2 * 10 ^ 9)
  deriving DecidableEq

def NaiveTime.cmp (t t' : NaiveTime) : Ordering :=
  (compare t.hour t'.hour).then ((compare t.minute t'.minute).then
    ((compare t.second t'.second).then (compare t.nanosecond t'.nanosecond)))

def NaiveTime.midnight : NaiveTime := ⟨0, 0, 0, 0, by decide, by decide, by decide, by decide⟩

/-- A date and a time of day. -/
@[ext]
structure NaiveDateTime where
  date : NaiveDate
  time : NaiveTime
  deriving DecidableEq

/-- `NaiveDate::from_ymd_opt`. -/
def fromYmd (year : ℤ) (month day : ℕ) : Option NaiveDate :=
  if h : ((1 ≤ month ∧ month ≤ 12) ∧ 1 ≤ day ∧ day ≤ daysInMonthCivil year month) ∧
      -262143 ≤ year ∧ year ≤ 262142 then
    some ⟨⟨year, month, day, h.1.1, h.1.2⟩, h.2⟩
  else none

lemma fromYmd_eq_some {year : ℤ} {month day : ℕ} {d : NaiveDate} :
    fromYmd year month day = some d ↔ d.year = year ∧ d.month = month ∧ d.day = day := by
  unfold fromYmd
  split
  next h =>
    rw [Option.some.injEq]
    constructor
    · rintro rfl
      exact ⟨rfl, rfl, rfl⟩
    · rintro ⟨rfl, rfl, rfl⟩
      rfl
  next h =>
    refine iff_of_false (fun h => nomatch h) ?_
    rintro ⟨rfl, rfl, rfl⟩
    exact h ⟨⟨d.month_bounds, d.day_bounds⟩, d.range⟩

/-- The first day of 1970. -/
def epoch : NaiveDate := ⟨⟨1970, 1, 1, by decide, by decide⟩, by decide⟩

/-! ## Texts -/

def two (n : ℕ) : List Char := zeroPadded 2 n

/-- A year with at least four digits, and a sign outside `0..=9999`. -/
def yearText (year : ℤ) : List Char :=
  if 0 ≤ year ∧ year ≤ 9999 then zeroPadded 4 year.natAbs
  else (if year < 0 then '-' else '+') :: zeroPadded 4 year.natAbs

def NaiveTime.shownSecond (t : NaiveTime) : ℕ := t.second + t.nanosecond / 10 ^ 9

def NaiveTime.shownNanosecond (t : NaiveTime) : ℕ := t.nanosecond % 10 ^ 9

/-- What is called of the calendar library. -/
structure Chrono where
  /-- `weekday().num_days_from_monday()`. -/
  weekday : NaiveDate → ℕ
  /-- `ordinal()`. -/
  ordinal : NaiveDate → ℕ
  /-- `iso_week()`: the year and the week. -/
  isoWeek : NaiveDate → ℤ × ℕ
  /-- `signed_duration_since(..).num_days()`. -/
  daysSince : NaiveDate → NaiveDate → ℤ
  /-- `signed_duration_since(..).num_seconds()`. -/
  secondsSince : NaiveDateTime → NaiveDateTime → ℤ
  /-- `signed_duration_since(..).num_milliseconds()`. -/
  millisSince : NaiveDateTime → NaiveDateTime → ℤ
  /-- Subtract a number of seconds; nothing where the duration or the result has no representation,
  where the library panics. -/
  subSeconds : NaiveDateTime → ℤ → Option NaiveDateTime
  /-- Add a number of seconds to a time of day, around midnight; nothing where the duration has no
  representation, where the library panics. -/
  addTimeSeconds : NaiveTime → ℤ → Option NaiveTime
  /-- Add a number of days; nothing where the library panics. -/
  addDays : NaiveDate → ℤ → Option NaiveDate
  /-- `NaiveDate::from_yo_opt`. -/
  fromYo : ℤ → ℕ → Option NaiveDate
  /-- `NaiveDate::from_isoywd_opt`, with Monday as weekday one. -/
  fromIsoywd : ℤ → ℕ → ℕ → Option NaiveDate
  /-- `NaiveDate::parse_from_str`, format and text. -/
  parseDate : String → List Char → Option NaiveDate
  /-- `NaiveTime::parse_from_str`, format and text. -/
  parseTime : String → List Char → Option NaiveTime
  /-- A named zone: the offset of a wall clock, nothing where the clock skips the time. -/
  zone : List Char → Option (NaiveDateTime → Option ℤ)
  /-- `format("%Y-%m-%d")`. -/
  formatDate : NaiveDate → List Char
  /-- `format("%H:%M")`. -/
  formatMinute : NaiveTime → List Char
  /-- `format("%H:%M:%S")`. -/
  formatSecond : NaiveTime → List Char
  /-- `format("%H:%M:%S%.9f")`. -/
  formatNano : NaiveTime → List Char
  addDays_spec : ∀ d n d', addDays d n = some d' → daysSince d' d = n
  fromYo_spec : ∀ y o d, fromYo y o = some d → d.year = y ∧ ordinal d = o
  fromIsoywd_spec : ∀ y w n d, fromIsoywd y w n = some d → isoWeek d = (y, w) ∧ weekday d + 1 = n
  formatDate_eq : ∀ d, formatDate d = yearText d.year ++ '-' :: (two d.month ++ '-' :: two d.day)
  formatMinute_eq : ∀ t, formatMinute t = two t.hour ++ ':' :: two t.minute
  formatSecond_eq : ∀ t, formatSecond t = formatMinute t ++ ':' :: two t.shownSecond
  formatNano_eq : ∀ t, formatNano t = formatSecond t ++ '.' :: zeroPadded 9 t.shownNanosecond

end IssunDB.Temporal
