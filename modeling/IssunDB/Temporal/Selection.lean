import IssunDB.Temporal.Parsing

/-!
# Temporal values from components

`date`, `time`, `localtime`, `datetime` and `localdatetime` of a map take its components, alone or
on top of a date and a time that the map selects. Components are integers of 64 bits, which are
narrowed to the types of the calendar library. At last the zone of the map is attached, or the clock
is moved to it.
-/

namespace IssunDB.Temporal

/-- The components of a map. One that is absent or no integer is `none`. -/
structure Components where
  year : Option I64
  month : Option I64
  day : Option I64
  week : Option I64
  dayOfWeek : Option I64
  quarter : Option I64
  dayOfQuarter : Option I64
  ordinalDay : Option I64
  dayOfYear : Option I64
  hour : Option I64
  minute : Option I64
  second : Option I64
  millisecond : Option I64
  microsecond : Option I64
  nanosecond : Option I64

/-- `x as i32`. -/
def asI32 (i : ℤ) : ℤ := i.bmod (2 ^ 32)

/-- `x as u32`. -/
def asU32 (i : ℤ) : ℕ := (i % 2 ^ 32).toNat

/-- A `u32` result. -/
def checkedU32 (n : ℕ) : Run ℕ := if n < 2 ^ 32 then .ok n else .error .abort

/-- A value, or an error with its message where there is none. -/
def okOr {α : Type} (o : Option α) (message : String) : Run α := o.elim (fail message) .ok

/-! ## Dates -/

section Dates

variable (chrono : Chrono)

def weekDate (year : ℤ) (week dayOfWeek : ℤ) (message : String) : Run NaiveDate :=
  let n := asU32 dayOfWeek
  if 1 ≤ n ∧ n ≤ 7 then okOr (chrono.fromIsoywd (asI32 year) (asU32 week) n) message
  else fail s!"invalid dayOfWeek: {dayOfWeek}"

def quarterDate (year quarter dayOfQuarter : ℤ) (message : String) : Run NaiveDate := do
  let before ← checkedI64 (quarter - 1)
  let months ← checkedI64 (before * 3)
  let startMonth ← checkedI64 (months + 1)
  let start ← okOr (fromYmd (asI32 year) (asU32 startMonth) 1) message
  let days ← checkedI64 (dayOfQuarter - 1)
  orAbort (chrono.addDays start days)

/-- `naive_date_from_map`. -/
def naiveDateFromMap (c : Components) : Run NaiveDate :=
  match c.year with
  | none => fail "date() map must include at least 'year'"
  | some year =>
    match c.month, c.day with
    | some month, some day =>
      okOr (fromYmd (asI32 year.1) (asU32 month.1) (asU32 day.1))
        s!"invalid calendar date: {year.1}-{month.1}-{day.1}"
    | _, _ =>
      match c.ordinalDay.or c.dayOfYear with
      | some ord =>
        okOr (chrono.fromYo (asI32 year.1) (asU32 ord.1)) s!"invalid ordinal date: {year.1}-{ord.1}"
      | none =>
        match c.week with
        | some week =>
          let dayOfWeek := (c.dayOfWeek.map Subtype.val).getD 1
          weekDate chrono year.1 week.1 dayOfWeek
            s!"invalid ISO week date: {year.1}-W{String.ofList (zeroPaddedInt 2 week.1)}-{dayOfWeek}"
        | none =>
          match c.quarter with
          | some quarter =>
            quarterDate chrono year.1 quarter.1 ((c.dayOfQuarter.map Subtype.val).getD 1)
              s!"invalid quarter: {quarter.1}"
          | none =>
            let month := asU32 ((c.month.map Subtype.val).getD 1)
            let day := asU32 ((c.day.map Subtype.val).getD 1)
            okOr
              (fromYmd (asI32 year.1) month day) s!"invalid date from year: {year.1}-{month}-{day}"

/-- `apply_date_overrides`. -/
def applyDateOverrides (base : NaiveDate) (c : Components) : Run NaiveDate :=
  match c.week with
  | some week =>
    let year := (c.year.map Subtype.val).getD (chrono.isoWeek base).1
    weekDate chrono year week.1 ((c.dayOfWeek.map Subtype.val).getD (chrono.weekday base + 1))
      s!"invalid ISO week override: {asI32 year}-W{week.1}"
  | none =>
    let year := (c.year.map Subtype.val).getD base.year
    match c.quarter with
    | some quarter =>
      quarterDate chrono year quarter.1
        ((c.dayOfQuarter.map Subtype.val).getD (dayOfQuarter chrono base))
        s!"invalid quarter override: {quarter.1}"
    | none =>
      match c.ordinalDay with
      | some ord =>
        okOr (chrono.fromYo (asI32 year) (asU32 ord.1)) s!"invalid ordinalDay override: {ord.1}"
      | none =>
        let year := asI32 year
        let month := asU32 ((c.month.map Subtype.val).getD base.month)
        let day := asU32 ((c.day.map Subtype.val).getD base.day)
        okOr (fromYmd year month day) s!"invalid date override: {year}-{month}-{day}"

/-- `obj_to_naive_date`. -/
def objToNaiveDate (c : Components) : Run NaiveDate :=
  let year := asI32 ((c.year.map Subtype.val).getD 0)
  let month := asU32 ((c.month.map Subtype.val).getD 0)
  let day := asU32 ((c.day.map Subtype.val).getD 0)
  okOr (fromYmd year (max month 1) (max day 1)) s!"invalid date fields: {year}-{month}-{day}"

/-- The date of a map, on top of the selected one if there is one. -/
def takeDate (base : Option NaiveDate) (c : Components) : Run NaiveDate :=
  match base with
  | some d => applyDateOverrides chrono d c
  | none => naiveDateFromMap chrono c

end Dates

/-! ## Times of day -/

/-- `obj_to_naive_time_checked`. -/
def objToNaiveTimeChecked (c : Components) : Run NaiveTime := do
  let get (o : Option I64) : ℤ := (o.map Subtype.val).getD 0
  let h := get c.hour
  let m := get c.minute
  let s := get c.second
  let us ← checkedI64 (get c.microsecond * 1000)
  let sum ← checkedI64 (get c.nanosecond + us)
  let ms ← checkedI64 (get c.millisecond * 1000000)
  let total ← checkedI64 (sum + ms)
  if ¬(0 ≤ h ∧ h < 24) ∨ ¬(0 ≤ m ∧ m < 60) ∨ ¬(0 ≤ s ∧ s < 60) ∨
    ¬(0 ≤ total ∧ total < 1000000000) then
    fail s!"InvalidArgumentValue: time component out of range: hour {h}, minute {m}, second {s}, nanosecond {total}"
  else
    okOr (fromHmsNano (asU32 h) (asU32 m) (asU32 s) (asU32 total))
      "InvalidArgumentValue: invalid time components"

/-- `obj_to_naive_time`, of a temporal object or of another map. -/
def objToNaiveTime (typed : Bool) (c : Components) : Run NaiveTime := do
  let get (o : Option I64) : ℕ := asU32 ((o.map Subtype.val).getD 0)
  let total ←
    if typed then .ok (get c.nanosecond)
    else do
      let us ← checkedU32 (get c.microsecond * 1000)
      let sum ← checkedU32 (get c.nanosecond + us)
      let ms ← checkedU32 (get c.millisecond * 1000000)
      checkedU32 (sum + ms)
  .ok ((fromHmsNano (get c.hour) (get c.minute) (get c.second) total).getD .midnight)

/-- A component of `validate_time_override_ranges`. -/
def checkRange (name : String) (o : Option I64) (bound : ℤ) : Run Unit :=
  match o with
  | some v =>
    if 0 ≤ v.1 ∧ v.1 < bound then .ok ()
    else fail s!"InvalidArgumentValue: {name} component out of range: {v.1}"
  | none => .ok ()

/-- `validate_time_override_ranges`. -/
def validateTimeOverrideRanges (c : Components) : Run Unit := do
  checkRange "hour" c.hour 24
  checkRange "minute" c.minute 60
  checkRange "second" c.second 60
  checkRange "millisecond" c.millisecond 1000
  checkRange "microsecond" c.microsecond 1000000
  checkRange "nanosecond" c.nanosecond 1000000000

/-- `apply_time_field_overrides`. -/
def applyTimeFieldOverrides (t : NaiveTime) (c : Components) : Run NaiveTime := do
  let get (o : Option I64) (base : ℕ) : ℤ := (o.map Subtype.val).getD base
  let sub ←
    if c.millisecond.isSome ∨ c.microsecond.isSome ∨ c.nanosecond.isSome then do
      let ms ← checkedI64 (get c.millisecond (t.nanosecond / 1000000) * 1000000)
      let us ← checkedI64 (get c.microsecond (t.nanosecond / 1000 % 1000) * 1000)
      let sum ← checkedI64 (ms + us)
      let total ← checkedI64 (sum + get c.nanosecond (t.nanosecond % 1000))
      .ok (asU32 total)
    else .ok t.nanosecond
  .ok ((fromHmsNano (asU32 (get c.hour t.hour)) (asU32 (get c.minute t.minute))
    (asU32 (get c.second t.second)) sub).getD t)

/-- The time of a map in `select_time_from_map`, on top of the selected one if there is one. Without
a selected one the components are applied to the time that they make. -/
def takeTime (base : Option NaiveTime) (c : Components) : Run NaiveTime := do
  let t ← match base with
    | some t => .ok t
    | none => objToNaiveTimeChecked c
  applyTimeFieldOverrides t c

/-- The time of a map in `select_datetime_from_map`. -/
def takeDatetimeTime (base : Option NaiveTime) (c : Components) : Run NaiveTime :=
  match base with
  | some t => do
    validateTimeOverrideRanges c
    applyTimeFieldOverrides t c
  | none => objToNaiveTimeChecked c

/-- The date and the time of a map in `select_datetime_from_map`. -/
def takeDatetime (chrono : Chrono) (baseDate : Option NaiveDate) (baseTime : Option NaiveTime)
    (c : Components) : Run NaiveDateTime := do
  let d ← takeDate chrono baseDate c
  let t ← takeDatetimeTime baseTime c
  .ok ⟨d, t⟩

/-! ## Zones of maps -/

/-- The end of `select_time_from_map`: the zone of the map replaces that of a selected time, and the
clock is moved where both have one. -/
def selectTimeZone (chrono : Chrono) (selected : Bool) (t : NaiveTime)
    (override base : Option (List Char)) :
    Run (NaiveTime × Option (List Char)) :=
  if selected then
    match override, base with
    | some new, some old => do
      let shift ← checkedI64 ((← tzOffsetSeconds new) - (← tzOffsetSeconds old))
      .ok (← orAbort (chrono.addTimeSeconds t shift), some new)
    | some new, none => .ok (t, some new)
    | none, base => .ok (t, base)
  else .ok (t, base)

/-- The end of `select_datetime_from_map`. -/
def selectDatetimeZone (chrono : Chrono) (dt : NaiveDateTime) (override base : Option (List Char)) :
    Run (NaiveDateTime × Option (List Char)) :=
  match override, base with
  | some new, some old => do
    let (_, oldOffset, _) ← resolveZone chrono dt old
    let (_, newOffset, _) ← resolveZone chrono dt new
    let shift ← checkedI64 (newOffset - oldOffset)
    -- The library adds a number of seconds as it subtracts the opposite number.
    .ok (← orAbort (chrono.subSeconds dt (-shift)), some new)
  | some new, none => .ok (dt, some new)
  | none, base => .ok (dt, base)

end IssunDB.Temporal
