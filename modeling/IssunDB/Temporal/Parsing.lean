import IssunDB.Temporal.Calendar
import IssunDB.Temporal.Values

/-!
# Parsing temporal texts

`date`, `time`, `localtime`, `datetime`, `localdatetime` and `duration` of a text. The text is
sliced at byte indices that its length suggests, and numbers in it are multiplied by their units.
-/

namespace IssunDB.Temporal

open Texts

/-- A parser's verdict: a value or a refusal that ends the call, or none yet. -/
abbrev Verdict (α : Type) := Option (Option α)

section

variable (chrono : Chrono)

/-- Whether the text has a letter that marks a week. -/
def hasWeek (s : List Char) : Bool := s.any fun c => c = 'W' || c = 'w'

/-- Whether the character at a byte index is a given one. -/
def byteIs (n : ℕ) (c : Char) (s : List Char) : Bool :=
  (cut n s).any fun p => p.2.head? = some c

/-- The Monday of a week, if both texts are numbers. -/
def weekVerdict (year week : List Char) : Verdict NaiveDate :=
  (parseI32 year).bind fun y => (parseU32 week).map fun w => chrono.fromIsoywd y w 1

/-- The first of a month, if both texts are numbers. -/
def monthVerdict (year month : List Char) : Verdict NaiveDate :=
  (parseI32 year).bind fun y => (parseU32 month).map fun m => fromYmd y m 1

/-- The cases of `naive_date_from_str` by the length of the text. -/
def dateByLength (s : List Char) : Run (Verdict NaiveDate) :=
  match byteLen s with
  | 4 => .ok ((parseI32 s).map fun y => fromYmd y 1 1)
  | 6 => do
    let (year, month) ← sliceAt 4 s
    .ok (monthVerdict year month)
  | 7 =>
    if hasWeek s then
      .ok ((splitOnce (fun c => c = 'W' || c = 'w') s).elim (some none) fun p =>
        weekVerdict chrono p.1 p.2)
    else .ok ((splitOnce (· = '-') s).bind fun p => monthVerdict p.1 p.2)
  | 8 =>
    if hasWeek s && byteIs 4 '-' s then do
      let (year, _) ← sliceAt 4 s
      let (_, week) ← sliceAt 6 s
      .ok (weekVerdict chrono year week)
    else if hasWeek s then .ok ((chrono.parseDate "%GW%V%u" s).map some)
    else if byteIs 4 '-' s then .ok ((chrono.parseDate "%Y-%j" s).map some)
    else .ok ((chrono.parseDate "%Y%m%d" s).map some)
  | _ => .ok none

/-- `YYYY-Www`, by the characters. -/
def weekByCharacters (s : List Char) : Run (Verdict NaiveDate) :=
  if byteLen s = 8 ∧ s[5]? = some 'W' ∧ s[4]? = some '-' then do
    let (year, _) ← sliceAt 4 s
    let (_, week) ← sliceAt 6 s
    .ok (weekVerdict chrono year week)
  else .ok none

def weekOfNine (s : List Char) : Run (Verdict NaiveDate) :=
  if byteLen s = 9 ∧ (s.head?.any Char.isDigit) = true then
    match (splitOnce (· = 'W') s).or (splitOnce (· = 'w') s) with
    | some (before, week) => do
      let (year, _) ← sliceAt (byteLen before - 1) s
      .ok (weekVerdict chrono year week)
    | none => .ok none
  else .ok none

/-- An error with its message. -/
def fail {α : Type} (message : String) : Run α := .error (.error message)

/-- `naive_date_from_str`. -/
def naiveDateFromStr (s : List Char) : Run NaiveDate := do
  let s := trim s
  let refused : Run NaiveDate := fail s!"cannot parse date: '{String.ofList s}'"
  match ← dateByLength chrono s with
  | some verdict => verdict.elim refused .ok
  | none =>
    match (chrono.parseDate "%Y-%m-%d" s).or (chrono.parseDate "%G-W%V-%u" s) with
    | some d => .ok d
    | none =>
      match ← weekByCharacters chrono s with
      | some verdict => verdict.elim refused .ok
      | none =>
        match ← weekOfNine chrono s with
        | some verdict => verdict.elim refused .ok
        | none =>
          if byteLen s = 7 ∧ '-' ∉ s ∧ hasWeek s = false then
            (chrono.parseDate "%Y%j" s).elim refused .ok
          else refused

def timeFormats : List String :=
  ["%H:%M:%S%.f", "%H:%M:%S", "%H:%M", "%H%M%S%.f", "%H%M%S", "%H%M"]

/-- `NaiveTime::from_hms_nano_opt`. -/
def fromHmsNano (hour minute second nanosecond : ℕ) : Option NaiveTime :=
  if h : hour < 24 ∧ minute < 60 ∧ second < 60 ∧
      (nanosecond < 10 ^ 9 ∨ (second = 59 ∧ nanosecond < 2 * 10 ^ 9)) then
    some ⟨hour, minute, second, nanosecond, h.1, h.2.1, h.2.2.1, h.2.2.2⟩
  else none

/-- `parse_time_str`, its message left to the callers. -/
def parseTimeStr (s : List Char) : Option NaiveTime :=
  (timeFormats.findSome? fun format => chrono.parseTime format s).or
    (if byteLen s = 2 then (parseU32 s).bind fun h => fromHmsNano h 0 0 0 else none)

/-- `naive_time_from_str`. -/
def naiveTimeFromStr (s : List Char) : Run NaiveTime := do
  let (time, _) ← splitTz s
  (parseTimeStr chrono time).elim (fail s!"cannot parse time: '{String.ofList s}'") .ok

/-- `naive_datetime_from_str`. -/
def naiveDatetimeFromStr (s : List Char) : Run (NaiveDateTime × Option (List Char)) := do
  let refused {α : Type} : Run α := fail s!"cannot parse datetime: '{String.ofList s}'"
  -- An error of the date parser is replaced; an abort is not.
  let date (s : List Char) : Run NaiveDate :=
    match naiveDateFromStr chrono s with
    | .error (.error _) => refused
    | r => r
  match splitOnce (· = 'T') s with
  | some (dateStr, rest) => do
    let (time, tz) ← splitTz rest
    let d ← date dateStr
    let t ← if time = [] then .ok .midnight else (parseTimeStr chrono time).elim refused .ok
    .ok (⟨d, t⟩, tz)
  | none => do
    let d ← date s
    .ok (⟨d, .midnight⟩, none)

/-- `parse_civil_datetime`. -/
def parseCivilDatetime (s : List Char) : Option (CivilDate × NaiveTime) := do
  let s := trim s
  let (dateStr, timeStr) := match splitOnce (· = 'T') s with
    | some (d, t) => (d, some t)
    | none => (s, none)
  let neg := dateStr.head? = some '-'
  let body := if dateStr.head? = some '+' ∨ neg then dateStr.tail else dateStr
  match splitChar '-' body with
  | [year, month, day] => do
    let year ← parseI64 year
    let year := if neg then -year else year
    let month ← parseU32 month
    let day ← parseU32 day
    if h : (1 ≤ month ∧ month ≤ 12) ∧ 1 ≤ day ∧ day ≤ daysInMonthCivil year month then
      let time ← timeStr.elim (some .midnight) (parseTimeStr chrono)
      some (⟨year, month, day, h.1, h.2⟩, time)
    else none
  | _ => none

/-! ## Constructors -/

/-- `date` of a text. -/
def makeDate (s : List Char) : Run Json :=
  match naiveDateFromStr chrono s with
  | .ok d => .ok (dateToObj chrono d)
  | .error .abort => .error .abort
  | .error (.error e) =>
    match parseCivilDatetime chrono s with
    | some (d, _) => dateObjFromCivil d
    | none => fail e

/-- `time` of a text. -/
def makeTime (s : List Char) : Run Json := do
  let (time, tz) ← splitTz s
  let t ← naiveTimeFromStr chrono time
  timeToObj chrono t tz "Time"

/-- `localtime` of a text. -/
def makeLocaltime (s : List Char) : Run Json := do
  let t ← naiveTimeFromStr chrono s
  timeToObj chrono t none "LocalTime"

/-- `datetime` of a text. -/
def makeDatetime (s : List Char) : Run Json := do
  let (dt, tz) ← naiveDatetimeFromStr chrono s
  datetimeToObj chrono dt tz "DateTime"

/-- `localdatetime` of a text. -/
def makeLocaldatetime (s : List Char) : Run Json :=
  match naiveDatetimeFromStr chrono s with
  | .ok (dt, _) => datetimeToObj chrono dt none "LocalDateTime"
  | .error .abort => .error .abort
  | .error (.error e) =>
    match parseCivilDatetime chrono s with
    | some (d, t) => localdatetimeObjFromCivil chrono d t
    | none => fail e

end

/-! ## Durations -/

/-- Double-precision numbers, as far as durations are parsed with them. -/
structure Doubles where
  Double : Type
  /-- `str::parse`. -/
  parse : List Char → Option Double
  ofNat : ℕ → Double
  add : Double → Double → Double
  sub : Double → Double → Double
  mul : Double → Double → Double
  trunc : Double → Double
  fract : Double → Double
  round : Double → Double
  /-- `x as i64`, which saturates. -/
  toI64 : Double → I64
  /-- The average number of days of a month. -/
  daysPerMonth : Double

namespace Doubles

variable (doubles : Doubles)

/-- The sums of the components so far. -/
structure Sums where
  months : doubles.Double
  days : doubles.Double
  seconds : doubles.Double

def Sums.add (isTime : Bool) (unit : Char) (v : doubles.Double) (sums : doubles.Sums) :
    doubles.Sums :=
  if isTime then
    match unit with
    | 'H' => { sums with seconds := doubles.add sums.seconds (doubles.mul v (doubles.ofNat 3600)) }
    | 'M' => { sums with seconds := doubles.add sums.seconds (doubles.mul v (doubles.ofNat 60)) }
    | 'S' => { sums with seconds := doubles.add sums.seconds v }
    | _ => sums
  else
    match unit with
    | 'Y' => { sums with months := doubles.add sums.months (doubles.mul v (doubles.ofNat 12)) }
    | 'M' => { sums with months := doubles.add sums.months v }
    | 'W' => { sums with days := doubles.add sums.days (doubles.mul v (doubles.ofNat 7)) }
    | 'D' => { sums with days := doubles.add sums.days v }
    | _ => sums

/-- The components of one segment: the digits collected so far and the rest. -/
def components (isTime : Bool) : List Char → List Char → doubles.Sums → doubles.Sums
  | _, [], sums => sums
  | buf, c :: part, sums =>
    if c.isDigit || c = '.' || c = '-' then components isTime (buf ++ [c]) part sums
    else
      components isTime [] part
        (Sums.add doubles isTime c ((doubles.parse buf).getD (doubles.ofNat 0)) sums)

end Doubles

/-- Months, days, seconds and nanoseconds. -/
abbrev Parts := I64 × I64 × I64 × I64

section

variable (doubles : Doubles)

def durationField (s : List Char) : Run ℤ :=
  (parseI64 s).elim (fail s!"invalid duration field: '{String.ofList s}'") .ok

/-- The months and days of an extended duration. -/
def extendedDate (date : List Char) : Run (ℤ × ℤ) :=
  if date = [] then .ok (0, 0)
  else
    match splitN 3 (· = '-') date with
    | [y, m, d] => do
      let years ← checkedI64 ((← durationField y) * 12)
      let months ← checkedI64 (years + (← durationField m))
      .ok (months, ← durationField d)
    | _ => fail s!"invalid duration date segment: '{String.ofList date}'"

/-- The seconds and nanoseconds of an extended duration. -/
def extendedTime : Option (List Char) → Run (ℤ × I64)
  | none => .ok (0, toI64 0)
  | some time =>
    match splitN 3 (· = ':') time with
    | [h, m, s] => do
      let hours ← durationField h
      let minutes ← durationField m
      let secs ← (doubles.parse s).elim
        (fail s!"invalid duration seconds field: '{String.ofList s}'") .ok
      let hours ← checkedI64 (hours * 3600)
      let minutes ← checkedI64 (minutes * 60)
      let sum ← checkedI64 (hours + minutes)
      let seconds ← checkedI64 (sum + (doubles.toI64 (doubles.trunc secs)).1)
      .ok (seconds, doubles.toI64 (doubles.round (doubles.mul (doubles.fract secs)
        (doubles.ofNat 1000000000))))
    | _ => fail s!"invalid duration time segment: '{String.ofList time}'"

/-- `parse_iso_duration_extended`. -/
def parseIsoDurationExtended (date : List Char) (time : Option (List Char)) : Run Parts := do
  let (months, days) ← extendedDate date
  let (seconds, nanos) ← extendedTime doubles time
  .ok (toI64 months, toI64 days, toI64 seconds, nanos)

/-- `parse_iso_duration`. -/
def parseIsoDuration (s : List Char) : Run Parts :=
  let s := trim s
  if s.head? ≠ some 'P' then fail s!"invalid duration string: '{String.ofList s}'"
  else
    let (date, time) := match splitOnce (· = 'T') s with
      | some (d, t) => (d.tail, some t)
      | none => (s.tail, none)
    if (date ≠ [] ∧ (date.any Char.isAlpha) = false) ∨ (time.any fun t => ':' ∈ t) = true then
      parseIsoDurationExtended doubles date time
    else
      let zero := doubles.ofNat 0
      let sums := doubles.components false [] date ⟨zero, zero, zero⟩
      let sums := time.elim sums fun t => doubles.components true [] t sums
      let months := doubles.trunc sums.months
      let days := doubles.add sums.days
        (doubles.mul (doubles.sub sums.months months) doubles.daysPerMonth)
      let seconds :=
        doubles.add sums.seconds (doubles.mul (doubles.fract days) (doubles.ofNat 86400))
      .ok (doubles.toI64 months, doubles.toI64 (doubles.trunc days),
        doubles.toI64 (doubles.trunc seconds),
        doubles.toI64
        (doubles.round (doubles.mul (doubles.fract seconds) (doubles.ofNat 1000000000))))

/-- `duration` of a text. The magnitude of the days is taken as an `i64`. -/
def makeDuration (s : List Char) : Run Json := do
  let (months, days, seconds, nanos) ← parseIsoDuration doubles s
  let _ ← checkedI64 |days.1|
  .ok (durationObj months days seconds nanos)

end

end IssunDB.Temporal
