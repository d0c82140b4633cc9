import IssunDB.Temporal.Chrono

/-!
# A calendar

The functions of the calendar library over day numbers of the proleptic Gregorian calendar, as an
instance of `Chrono` that can be run. It knows no named zones and parses no texts.
-/

namespace IssunDB.Temporal

open Texts

def dayNumber (year : ℤ) (month day : ℕ) : ℤ :=
  let y := if month ≤ 2 then year - 1 else year
  let yoe := y % 400
  let doy : ℤ := (153 * ((month + 9) % 12 : ℕ) + 2) / 5 + day - 1
  y / 400 * 146097 + (yoe * 365 + yoe / 4 - yoe / 100 + doy) - 719468

def NaiveDate.number (d : NaiveDate) : ℤ := dayNumber d.year d.month d.day

def dateOfDays (days : ℤ) : Option NaiveDate :=
  let z := days + 719468
  let doe := z % 146097
  let yoe := (doe - doe / 1460 + doe / 36524 - doe / 146096) / 365
  let doy := doe - (365 * yoe + yoe / 4 - yoe / 100)
  let mp := (5 * doy + 2) / 153
  let day := doy - (153 * mp + 2) / 5 + 1
  let month := if mp < 10 then mp + 3 else mp - 9
  fromYmd (yoe + z / 146097 * 400 + if month ≤ 2 then 1 else 0) month.toNat day.toNat

/-- Monday is zero. -/
def NaiveDate.weekdayNumber (d : NaiveDate) : ℕ := ((d.number + 3) % 7).toNat

/-- The first of January is one. -/
def NaiveDate.dayOfYear (d : NaiveDate) : ℕ := (d.number - dayNumber d.year 1 1 + 1).toNat

def NaiveDate.weekOfYear (d : NaiveDate) : ℤ × ℕ :=
  let thursday := d.number - d.weekdayNumber + 3
  let year :=
    if thursday < dayNumber d.year 1 1 then d.year - 1
    else if dayNumber (d.year + 1) 1 1 ≤ thursday then d.year + 1
    else d.year
  (year, ((thursday - dayNumber year 1 1) / 7 + 1).toNat)

/-- The nanoseconds since the first of January 1970. -/
def NaiveDateTime.nanos (dt : NaiveDateTime) : ℤ :=
  (((dt.date.number * 24 + dt.time.hour) * 60 + dt.time.minute) * 60 + dt.time.second) * 10 ^ 9 +
    dt.time.nanosecond

def timeOfSeconds (seconds nanosecond : ℕ) : NaiveTime where
  hour := seconds / 3600 % 24
  minute := seconds / 60 % 60
  second := seconds % 60
  nanosecond := nanosecond % 10 ^ 9
  hour_lt := Nat.mod_lt _ (by decide)
  minute_lt := Nat.mod_lt _ (by decide)
  second_lt := Nat.mod_lt _ (by decide)
  nanosecond_lt := .inl (Nat.mod_lt _ (by decide))

def NaiveDateTime.subtract (dt : NaiveDateTime) (secs : ℤ) : Option NaiveDateTime :=
  let total := dt.nanos / 10 ^ 9 - secs
  if secs = 0 then some dt
  else (dateOfDays (total / 86400)).map fun date =>
    ⟨date, timeOfSeconds (total % 86400).toNat dt.time.nanosecond⟩

def gregorian : Chrono where
  weekday := NaiveDate.weekdayNumber
  ordinal := NaiveDate.dayOfYear
  isoWeek := NaiveDate.weekOfYear
  daysSince d d' := d.number - d'.number
  secondsSince a b := (a.nanos - b.nanos).tdiv (10 ^ 9)
  millisSince a b := (a.nanos - b.nanos).tdiv (10 ^ 6)
  subSeconds := NaiveDateTime.subtract
  addTimeSeconds t secs :=
    if |secs| ≤ 2 ^ 63 / 1000 then
      some (timeOfSeconds (((t.hour * 3600 + t.minute * 60 + t.second : ℕ) + secs) % 86400).toNat
        t.nanosecond)
    else none
  addDays d n := (dateOfDays (d.number + n)).filter fun d' => d'.number - d.number = n
  fromYo y o := (dateOfDays (dayNumber y 1 1 + o - 1)).filter fun d => d.year = y ∧ d.dayOfYear = o
  fromIsoywd y w n :=
    let monday := dayNumber y 1 4 - (dayNumber y 1 4 + 3) % 7
    (dateOfDays (monday + (w - 1) * 7 + (n - 1))).filter fun d =>
      d.weekOfYear = (y, w) ∧ d.weekdayNumber + 1 = n
  parseDate _ _ := none
  parseTime _ _ := none
  zone _ := none
  formatDate d := yearText d.year ++ '-' :: (two d.month ++ '-' :: two d.day)
  formatMinute t := two t.hour ++ ':' :: two t.minute
  formatSecond t := two t.hour ++ ':' :: two t.minute ++ ':' :: two t.shownSecond
  formatNano t := two t.hour ++ ':' :: two t.minute ++ ':' :: two t.shownSecond ++
    '.' :: zeroPadded 9 t.shownNanosecond
  addDays_spec _ _ _ h := of_decide_eq_true (Option.filter_eq_some_iff.mp h).2
  fromYo_spec _ _ _ h := of_decide_eq_true (Option.filter_eq_some_iff.mp h).2
  fromIsoywd_spec _ _ _ _ h := of_decide_eq_true (Option.filter_eq_some_iff.mp h).2
  formatDate_eq _ := rfl
  formatMinute_eq _ := rfl
  formatSecond_eq _ := rfl
  formatNano_eq _ := rfl

/-- The second of January 2024 is a Tuesday in the first week, and a day of February 2024 is the
sixtieth of the year. -/
example :
    (dateOfDays 19724).map (fun d => (d.year, d.month, d.day, d.weekdayNumber, d.weekOfYear)) =
      some (2024, 1, 2, 1, 2024, 1) ∧
    (gregorian.fromYo 2024 60).map (fun d => (d.month, d.day)) = some (2, 29) := by
  decide +kernel

end IssunDB.Temporal
