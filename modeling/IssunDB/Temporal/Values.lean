import IssunDB.Columns
import IssunDB.Cypher.Values
import IssunDB.Temporal.Zones

/-!
# Temporal values

A temporal value is an object with its type, its text, a sort key and its components. Dates outside
the range of the calendar library are built from their components (`dateObjFromCivil`,
`localdatetimeObjFromCivil`).
-/

namespace IssunDB.Temporal

open Texts

/-- `x as i64` of an integer of any width. -/
def toI64 (i : ℤ) : I64 := ⟨i.bmod (2 ^ 64), by
  have hlow : -((2 ^ 64 : ℕ) : ℤ) / 2 ≤ i.bmod (2 ^ 64) := Int.le_bmod (by decide)
  have hhigh : i.bmod (2 ^ 64) < ((2 ^ 64 : ℕ) + 1 : ℤ) / 2 := Int.bmod_lt (by decide)
  norm_num at hlow hhigh ⊢
  omega⟩

/-- An integer component. -/
def int (i : ℤ) : Json := .ofI64 (toI64 i)

/-- A text component. -/
def str (s : List Char) : Json := .string (String.ofList s)

/-- `temporal_obj`. The components are given in the order of their keys, which begin with a lower
case letter. -/
def temporalObj (typeName : String) (fields : List (String × Json)) (strRepr sortKey : List Char) :
    Json :=
  .object (("__sort_key__", str sortKey) :: ("__str__", str strRepr) ::
    ("__type__", .string typeName) :: fields)

section

variable (chrono : Chrono)

/-! ## Dates -/

/-- `day_of_quarter`. -/
def dayOfQuarter (d : NaiveDate) : ℤ :=
  let start : NaiveDate :=
    ⟨⟨d.year, (d.month - 1) / 3 * 3 + 1, 1, by have := d.month_bounds; omega, by
      unfold daysInMonthCivil
      split
      case h_12 => split <;> decide
      all_goals decide⟩, d.range⟩
  chrono.daysSince d start + 1

/-- `date_to_obj`. -/
def dateToObj (d : NaiveDate) : Json :=
  let weekDay : ℤ := chrono.weekday d + 1
  let strRepr := chrono.formatDate d
  temporalObj "Date"
    [("day", int d.day), ("dayOfQuarter", int (dayOfQuarter chrono d)), ("dayOfWeek", int weekDay),
      ("dayOfYear", int (chrono.ordinal d)), ("epochDays", int (chrono.daysSince d epoch)),
      ("month", int d.month), ("ordinalDay", int (chrono.ordinal d)),
      ("quarter", int ((d.month - 1 : ℕ) / 3 + 1 : ℕ)), ("week", int (chrono.isoWeek d).2),
      ("weekDay", int weekDay), ("weekYear", int (chrono.isoWeek d).1), ("year", int d.year)]
    strRepr strRepr

/-- `days_from_civil`. -/
def daysFromCivil (y : ℤ) (m d : ℕ) : Run ℤ := do
  let y ← if m ≤ 2 then checkedI64 (y - 1) else .ok y
  let era := (← if 0 ≤ y then .ok y else checkedI64 (y - 399)).tdiv 400
  let yoe := y - era * 400
  let mp : ℤ := (m + 9) % 12
  let doy := (153 * mp + 2) / 5 + d - 1
  let doe := yoe * 365 + yoe / 4 - yoe / 100 + doy
  let start ← checkedI64 (era * 146097)
  let days ← checkedI64 (start + doe)
  checkedI64 (days - 719468)

/-- `date_obj_from_civil`. -/
def dateObjFromCivil (d : CivilDate) : Run Json := do
  let epochDays ← daysFromCivil d.year d.month d.day
  let dow := (epochDays.tmod 7 + 7 + 3).tmod 7 + 1
  let dayOfYear := epochDays - (← daysFromCivil d.year 1 1) + 1
  let quarterStart := (d.month - 1) / 3 * 3 + 1
  let dayOfQuarter := epochDays - (← daysFromCivil d.year quarterStart 1) + 1
  let strRepr := yearText d.year ++ '-' :: (two d.month ++ '-' :: two d.day)
  .ok (temporalObj "Date"
    [("day", int d.day), ("dayOfQuarter", int dayOfQuarter), ("dayOfWeek", int dow),
      ("dayOfYear", int dayOfYear), ("epochDays", int epochDays), ("month", int d.month),
      ("ordinalDay", int dayOfYear), ("quarter", int ((d.month - 1) / 3 + 1 : ℕ)),
      ("week", int ((dayOfYear + 6).tdiv 7)), ("weekDay", int dow), ("weekYear", int d.year),
      ("year", int d.year)]
    strRepr strRepr)

/-! ## Times of day -/

/-- The digits of a fraction of a second without zeros at the end. -/
def fraction (nanosecond : ℕ) : List Char :=
  ((zeroPadded 9 nanosecond).reverse.dropWhile (· = '0')).reverse

/-- How the time of day is written: without seconds that are zero, without a fraction that is. -/
def timeRepr (t : NaiveTime) : List Char :=
  if t.nanosecond = 0 ∧ t.second = 0 then chrono.formatMinute t
  else if t.nanosecond = 0 then chrono.formatSecond t
  else chrono.formatSecond t ++ '.' :: fraction t.nanosecond

def timeFields (t : NaiveTime) : List (String × Json) :=
  [("hour", int t.hour), ("microsecond", int (t.nanosecond / 1000 : ℕ)),
    ("millisecond", int (t.nanosecond / 1000000 : ℕ)), ("minute", int t.minute)]

/-- The nanoseconds since midnight. -/
def localNanos (t : NaiveTime) : ℤ :=
  t.hour * 3600000000000 + t.minute * 60000000000 + t.second * 1000000000 + t.nanosecond

/-- `time_to_obj`. -/
def timeToObj (t : NaiveTime) (tz : Option (List Char)) (typeName : String) : Run Json := do
  let raw := if typeName = "Time" then some (tz.getD ['Z']) else tz
  let tz ← raw.mapM fun z => do
    match ← parseOffsetSeconds (beforeBracket z) with
    | some secs => formatOffset secs
    | none => .ok z
  let offsetSecs := (← tz.mapM tzOffsetSeconds).getD 0
  let strRepr := timeRepr chrono t ++ tz.getD []
  let key ←
    match tz with
    | some _ => do
      let offsetNs ← checkedI64 (offsetSecs * 1000000000)
      let utc ← checkedI64 (localNanos t - offsetNs)
      .ok (zeroPadded 20 (utc % 86400000000000).toNat)
    | none => .ok (zeroPadded 20 (localNanos t).toNat)
  let zoneFields := tz.elim [] fun z =>
    [("offset", str z), ("offsetMinutes", int (offsetSecs.tdiv 60)),
        ("offsetSeconds", int offsetSecs)]
  let zoneName := tz.elim [] fun z => [("timezone", str z)]
  .ok (temporalObj typeName
    (timeFields t ++ [("nanosecond", int t.nanosecond)] ++ zoneFields ++
        [("second", int t.second)] ++
      zoneName)
    strRepr key)

/-! ## Dates with a time -/

/-- `datetime_to_obj`. -/
def datetimeToObj (dt : NaiveDateTime) (tz : Option (List Char)) (typeName : String) :
    Run Json := do
  let tz := if typeName = "DateTime" then some (tz.getD ['Z']) else tz
  let d := dt.date
  let t := dt.time
  let weekDay : ℤ := chrono.weekday d + 1
  let resolved ← tz.mapM (resolveZone chrono dt)
  let offsetSecs := resolved.elim 0 fun r => r.2.1
  let start : NaiveDateTime := ⟨epoch, .midnight⟩
  let utc ← orAbort (chrono.subSeconds dt offsetSecs)
  let dateRepr := chrono.formatDate d ++ 'T' :: timeRepr chrono t
  let strRepr := match resolved with
    | some (offset, _, some name) => dateRepr ++ offset ++ '[' :: name ++ [']']
    | some (offset, _, none) => dateRepr ++ offset
    | none => dateRepr
  let moment := if resolved.isSome then utc else dt
  let sortKey := chrono.formatDate moment.date ++ 'T' :: chrono.formatNano moment.time
  let zoneFields := resolved.elim [] fun r =>
    [("offset", str r.1), ("offsetMinutes", int (r.2.1.tdiv 60)), ("offsetSeconds", int r.2.1)]
  let zoneName := resolved.elim [] fun r => [("timezone", str (r.2.2.getD r.1))]
  .ok (temporalObj typeName
    ([("day", int d.day), ("dayOfQuarter", int (dayOfQuarter chrono d)), ("dayOfWeek", int weekDay),
        ("dayOfYear", int (chrono.ordinal d)), ("epochMillis", int (chrono.millisSince utc start)),
        ("epochSeconds", int (chrono.secondsSince utc start))] ++ timeFields t ++
      [("month", int d.month), ("nanosecond", int t.nanosecond)] ++ zoneFields ++
      [("ordinalDay", int (chrono.ordinal d)), ("quarter", int ((d.month - 1 : ℕ) / 3 + 1 : ℕ)),
        ("second", int t.second)] ++ zoneName ++
      [("week", int (chrono.isoWeek d).2), ("weekDay", int weekDay),
        ("weekYear", int (chrono.isoWeek d).1), ("year", int d.year)])
    strRepr sortKey)

/-- `localdatetime_obj_from_civil`. -/
def localdatetimeObjFromCivil (d : CivilDate) (t : NaiveTime) : Run Json := do
  let epochDays ← daysFromCivil d.year d.month d.day
  let timeStr := if t.nanosecond = 0 then chrono.formatSecond t else chrono.formatNano t
  let strRepr := yearText d.year ++ '-' :: (two d.month ++ '-' :: (two d.day ++ 'T' :: timeStr))
  .ok (temporalObj "LocalDateTime"
    [("day", int d.day), ("epochDays", int epochDays), ("hour", int t.hour),
        ("minute", int t.minute),
      ("month", int d.month), ("nanosecond", int t.nanosecond), ("second", int t.second),
      ("year", int d.year)]
    strRepr strRepr)

end

/-! ## Durations -/

/-- `i64::abs`, which keeps the least integer. -/
def absI64 (i : I64) : I64 := toI64 |i.1|

/-- An integer filled up with zeros, a sign included. -/
def zeroPaddedInt (w : ℕ) (i : ℤ) : List Char :=
  if i < 0 then '-' :: zeroPadded (w - 1) i.natAbs else zeroPadded w i.natAbs

/-- An integer in the range of `i64`. -/
def saturated (i : ℤ) : ℤ := max (-2 ^ 63) (min (2 ^ 63 - 1) i)

/-- `format_duration`. -/
def formatDuration (years months days hours minutes secs ns : ℤ) : List Char :=
  let part (i : ℤ) (unit : Char) : List Char := if i = 0 then [] else intText i ++ [unit]
  let seconds : List Char :=
    if secs = 0 ∧ ns = 0 then []
    else if ns = 0 then intText secs ++ ['S']
    else
      let sign := if secs < 0 ∨ (secs = 0 ∧ ns < 0) then ['-'] else []
      sign ++ natText secs.natAbs ++ '.' :: fraction ns.natAbs ++ ['S']
  let time := part hours 'H' ++ part minutes 'M' ++ seconds
  let date := part years 'Y' ++ part months 'M' ++ part days 'D'
  let s := date ++ if time = [] then [] else 'T' :: time
  'P' :: if s = [] then ['T', '0', 'S'] else s

/-- The magnitude of the time part in seconds, as an `i64`. -/
def magSecs (seconds nanos : I64) : ℤ :=
  (toI64 ((seconds.1 * 1000000000 + nanos.1).natAbs / 1000000000 : ℕ)).1

/-- What is left of the magnitude, in nanoseconds. -/
def fracNs (seconds nanos : I64) : ℕ := (seconds.1 * 1000000000 + nanos.1).natAbs % 1000000000

def durationKey (months days seconds nanos : I64) : List Char :=
  let secs := magSecs seconds nanos
  'P' :: (zeroPaddedInt 20 |months.1.tdiv 12| ++ 'Y' :: (zeroPaddedInt 2 |months.1.tmod 12| ++
    'M' :: (zeroPaddedInt 20 (absI64 days).1 ++ 'D' :: 'T' :: (zeroPaddedInt 20 (secs.tdiv 3600) ++
    'H' :: (zeroPaddedInt 2 ((secs.tmod 3600).tdiv 60) ++ 'M' :: (zeroPaddedInt 2 (secs.tmod 60) ++
    '.' :: (zeroPadded 9 (fracNs seconds nanos) ++ ['S'])))))))

/-- `duration_obj`. -/
def durationObj (months days seconds nanos : I64) : Json :=
  let totalSubNs := seconds.1 * 1000000000 + nanos.1
  let totalSeconds := (toI64 (totalSubNs / 1000000000)).1
  let subNs := totalSubNs % 1000000000
  let years := months.1.tdiv 12
  let remMonths := months.1.tmod 12
  let cumulative (unit part : ℤ) : ℤ := saturated (saturated (totalSeconds * unit) + part)
  let sgn : ℤ := if totalSubNs < 0 then -1 else 1
  let secs := magSecs seconds nanos
  temporalObj "Duration"
    [("days", int days.1), ("daysOfWeek", int (days.1.tmod 7)),
        ("hours", int (totalSeconds.tdiv 3600)),
      ("hoursOfDay", int ((totalSeconds.tdiv 3600).tmod 24)),
      ("microseconds", int (cumulative 1000000 (subNs / 1000))),
      ("microsecondsOfSecond", int (subNs / 1000)),
      ("milliseconds", int (cumulative 1000 (subNs / 1000000))),
      ("millisecondsOfSecond", int (subNs / 1000000)), ("minutes", int (totalSeconds.tdiv 60)),
      ("minutesOfHour", int ((totalSeconds.tmod 3600).tdiv 60)), ("months", int months.1),
      ("monthsOfQuarter", int (remMonths.tmod 3)), ("monthsOfYear", int remMonths),
      ("nanoseconds", int (cumulative 1000000000 subNs)), ("nanosecondsOfSecond", int subNs),
      ("quarters", int (months.1.tdiv 3)), ("quartersOfYear", int (remMonths.tdiv 3)),
      ("seconds", int totalSeconds), ("secondsOfMinute", int (totalSeconds.tmod 60)),
      ("weeks", int (days.1.tdiv 7)), ("years", int years)]
    (formatDuration years remMonths days.1 (sgn * secs.tdiv 3600) (sgn * (secs.tmod 3600).tdiv 60)
      (sgn * secs.tmod 60) (sgn * fracNs seconds nanos))
    (durationKey months days seconds nanos)

end IssunDB.Temporal
