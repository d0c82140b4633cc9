import IssunDB.Temporal.Selection
import IssunDB.Temporal.ZoneTexts

/-!
# Where parsing temporal texts aborts

A parser returns a value or an error unless it slices a text inside a character or a number leaves
its type. For every parser `…Fits` says when neither happens, by the bytes of the text and the
numbers in it, and `temporalTexts_return_iff` puts the parsers together.
-/

namespace IssunDB.Temporal

open List Option Texts

/-! ## Civil dates -/

def marchYear (year : ℤ) (month : ℕ) : ℤ := if month ≤ 2 then year - 1 else year

/-- The day number of a civil date and what leads to it fit. -/
@[mk_iff daysFit_def]
structure DaysFit (year : ℤ) (month day : ℕ) : Prop where
  march : month ≤ 2 → Fits (year - 1)
  era : marchYear year month < 0 → Fits (marchYear year month - 399)
  start : Fits (marchYear year month / 400 * 146097)
  sum : Fits (dayNumber year month day + 719468)
  days : Fits (dayNumber year month day)

lemma tdiv_sub_eq_div {y : ℤ} (h : y < 0) : (y - 399).tdiv 400 = y / 400 := by
  have hneg : (y - 399).tdiv 400 = -((399 - y).tdiv 400) := by
    rw [← Int.neg_tdiv]
    congr 1
    ring
  rw [hneg, Int.tdiv_eq_ediv_of_nonneg (by omega)]
  omega

/-- The steps of `daysFromCivil` one after the other. -/
theorem daysFromCivil_eq (year : ℤ) (month day : ℕ) :
    daysFromCivil year month day =
      ((if month ≤ 2 then checkedI64 (year - 1) else .ok year) >>= fun y =>
        (if 0 ≤ y then .ok y else checkedI64 (y - 399)) >>= fun shifted => do
          let era := shifted.tdiv 400
          let yoe := y - era * 400
          let start ← checkedI64 (era * 146097)
          let days ← checkedI64 (start + (yoe * 365 + yoe / 4 - yoe / 100 +
            ((153 * (((month : ℤ) + 9) % 12) + 2) / 5 + day - 1)))
          checkedI64 (days - 719468)) := by
  unfold daysFromCivil
  split
  · refine congrArg (Bind.bind _) (funext fun y => ?_)
    show (if 0 ≤ y then _ else _) = ((if 0 ≤ y then _ else _) >>= _)
    split
    · rfl
    · rfl
  · show (if 0 ≤ year then _ else _) = ((if 0 ≤ year then _ else _) >>= _)
    split
    · rfl
    · rfl

lemma daysFromCivil_yields (year : ℤ) (month day : ℕ) :
    Yields (daysFromCivil year month day) (DaysFit year month day) (dayNumber year month day) := by
  have hyear : Yields (if month ≤ 2 then checkedI64 (year - 1) else .ok year)
      (month ≤ 2 → Fits (year - 1)) (marchYear year month) := by
    unfold marchYear
    split
    next h => exact (Yields.checkedI64 _).congr ⟨fun hfits _ => hfits, fun hall => hall h⟩
    next h => exact (Yields.ok year).congr (iff_of_true trivial fun hle => absurd hle h)
  have hshift : ∀ y : ℤ, Yields (if 0 ≤ y then .ok y else checkedI64 (y - 399))
      (y < 0 → Fits (y - 399)) (if 0 ≤ y then y else y - 399) := by
    intro y
    split
    next h => exact (Yields.ok y).congr (iff_of_true trivial fun hlt => absurd h (not_le.mpr hlt))
    next h => exact (Yields.checkedI64 _).congr ⟨fun hfits _ => hfits, fun hall => hall (by omega)⟩
  have hera : ∀ y : ℤ, (if 0 ≤ y then y else y - 399).tdiv 400 = y / 400 := by
    intro y
    split
    next h => exact Int.tdiv_eq_ediv_of_nonneg h
    next h => exact tdiv_sub_eq_div (by omega)
  refine Yields.congr ?_ (daysFit_def ..).symm
  rw [daysFromCivil_eq]
  refine .bind hyear fun _ => .bind (hshift _) fun _ => ?_
  simp only [hera]
  have hsum : marchYear year month / 400 * 146097 +
      ((marchYear year month - marchYear year month / 400 * 400) * 365 +
        (marchYear year month - marchYear year month / 400 * 400) / 4 -
        (marchYear year month - marchYear year month / 400 * 400) / 100 +
        ((153 * (((month : ℤ) + 9) % 12) + 2) / 5 + day - 1)) =
        dayNumber year month day + 719468 := by
    have hmod : marchYear year month - marchYear year month / 400 * 400 =
        marchYear year month % 400 := by
      omega
    rw [hmod, dayNumber]
    push_cast
    unfold marchYear
    ring
  refine .bind (.checkedI64 _) fun _ => ?_
  rw [hsum]
  refine .bind (.checkedI64 _) fun _ => ?_
  rw [Int.add_sub_cancel]
  exact .checkedI64 _

/-- The day numbers of a date, of the start of its year and of its quarter fit. -/
def CivilFits (d : CivilDate) : Prop :=
  DaysFit d.year d.month d.day ∧ DaysFit d.year 1 1 ∧ DaysFit d.year ((d.month - 1) / 3 * 3 + 1) 1

lemma returns_dateObjFromCivil (d : CivilDate) : Returns (dateObjFromCivil d) ↔ CivilFits d := by
  unfold dateObjFromCivil
  rw [(daysFromCivil_yields _ _ _).returns_bind, (daysFromCivil_yields _ _ _).returns_bind,
    (daysFromCivil_yields _ _ _).returns_bind]
  exact and_congr_right fun _ => and_congr_right fun _ => and_iff_left (returns_ok _)

lemma returns_localdatetimeObjFromCivil (chrono : Chrono) (d : CivilDate) (t : NaiveTime) :
    Returns (localdatetimeObjFromCivil chrono d t) ↔ DaysFit d.year d.month d.day := by
  unfold localdatetimeObjFromCivil
  rw [(daysFromCivil_yields _ _ _).returns_bind]
  exact and_iff_left (returns_ok _)

/-! ## Values with a zone -/

section Values

variable (chrono : Chrono)

/-- The zone that a time of day shows: a numeric offset in its canonical form. -/
def shownZone (z : List Char) : List Char := (offsetSeconds (beforeBracket z)).elim z offsetText

/-- The zone of a time of day is taken apart between characters, and the numbers fit. -/
@[mk_iff]
structure ClockFits (t : NaiveTime) (z : List Char) : Prop where
  offset : OffsetFits (beforeBracket z)
  magnitude : ∀ secs ∈ offsetSeconds (beforeBracket z), Fits |secs|
  numbers : ZoneNumbersFit (shownZone z)
  nanos : Fits (zoneSeconds (shownZone z) * 1000000000)
  utc : Fits (localNanos t - zoneSeconds (shownZone z) * 1000000000)

lemma shownZone_yields (z : List Char) :
    Yields (do match ← parseOffsetSeconds (beforeBracket z) with
        | some secs => formatOffset secs
        | none => .ok z)
      (OffsetFits (beforeBracket z) ∧ ∀ secs ∈ offsetSeconds (beforeBracket z), Fits |secs|)
      (shownZone z) := by
  unfold shownZone
  refine .bind (parseOffsetSeconds_yields _) fun _ => ?_
  rcases offsetSeconds (beforeBracket z) with _ | secs
  · exact (Yields.ok z).congr (iff_of_true trivial fun secs h => nomatch h)
  · refine (formatOffset_yields secs).congr ⟨fun h a ha => ?_, fun hall => hall secs rfl⟩
    obtain rfl := some.inj ha
    exact h

lemma returns_timeToObj_time (t : NaiveTime) (tz : Option (List Char)) :
    Returns (timeToObj chrono t tz "Time") ↔ ClockFits t (tz.getD ['Z']) := by
  rw [clockFits_iff, ← and_assoc]
  unfold timeToObj
  simp only [if_true]
  -- The zone is written first, then its seconds are read back and the key is built.
  refine ((shownZone_yields (tz.getD ['Z'])).map some).returns_bind.trans ?_
  rw [mapM_some, ((tzOffsetSeconds_yields _).map some).returns_bind]
  simp only [getD_some, returns_checkedI64_bind, ok_bind, returns_ok, and_true]

lemma returns_timeToObj_local (t : NaiveTime) : Returns (timeToObj chrono t none "LocalTime") :=
  returns_ok _

/-- The zone of an instant is taken apart between characters, its numbers fit, and the instant has a
representation in UTC. -/
@[mk_iff]
structure InstantFits (dt : NaiveDateTime) (z : List Char) : Prop where
  zone : ZoneFits chrono dt z
  utc : (chrono.subSeconds dt (resolvedSeconds chrono dt z)).isSome

lemma returns_datetimeToObj_zoned (dt : NaiveDateTime) (tz : Option (List Char)) :
    Returns (datetimeToObj chrono dt tz "DateTime") ↔ InstantFits chrono dt (tz.getD ['Z']) := by
  rw [instantFits_iff]
  unfold datetimeToObj
  simp only [if_true]
  rw [mapM_some, ((resolveZone_yields chrono dt (tz.getD ['Z'])).map some).returns_bind]
  simp only [returns_bind, returns_orAbort, returns_ok, implies_true, and_true]
  rfl

lemma returns_datetimeToObj_local (dt : NaiveDateTime) :
    Returns (datetimeToObj chrono dt none "LocalDateTime") ↔ (chrono.subSeconds dt 0).isSome := by
  show Returns (orAbort (chrono.subSeconds dt 0) >>= _) ↔ _
  simp only [returns_bind, returns_orAbort, returns_ok, implies_true, and_true]

end Values

/-! ## Dates -/

section Dates

variable (chrono : Chrono)

/-- The slices of a date's text fall between characters. -/
structure DateFits (s : List Char) : Prop where
  six : byteLen s = 6 → (cut 4 s).isSome
  week : byteLen s = 8 → hasWeek s = true → byteIs 4 '-' s = true → (cut 6 s).isSome
  characters : byteLen s = 8 → s[5]? = some 'W' → s[4]? = some '-' → byteIs 4 '-' s = false →
    (∀ format ∈ ["%GW%V%u", "%Y-%m-%d", "%G-W%V-%u"], chrono.parseDate format s = none) →
    (cut 4 s).isSome ∧ (cut 6 s).isSome
  nine : byteLen s = 9 → s.head?.any Char.isDigit = true →
    (∀ format ∈ ["%Y-%m-%d", "%G-W%V-%u"], chrono.parseDate format s = none) →
    ∀ p ∈ (splitOnce (· = 'W') s).or (splitOnce (· = 'w') s), (cut (byteLen p.1 - 1) s).isSome

variable {s : List Char}

lemma cut_isSome_of_byteIs {n : ℕ} {c : Char} (h : byteIs n c s = true) :
    (cut n s).isSome := by
  unfold byteIs at h
  rcases hcut : cut n s with _ | p
  · rw [hcut] at h
    cases h
  · rfl

lemma hasWeek_of_getElem? {i : ℕ} (h : s[i]? = some 'W') : hasWeek s = true :=
  List.any_eq_true.mpr ⟨'W', mem_of_getElem? h, by decide⟩

lemma returns_slices {α : Type} (m n : ℕ) (s : List Char) (g : List Char → List Char → α) :
    Returns (do
      let (a, _) ← sliceAt m s
      let (_, b) ← sliceAt n s
      .ok (g a b)) ↔ (cut m s).isSome ∧ (cut n s).isSome := by
  unfold sliceAt
  rcases cut m s with _ | p
  · exact iff_of_false not_returns_abort fun h => Bool.false_ne_true h.1
  rcases cut n s with _ | q
  · exact iff_of_false not_returns_abort fun h => Bool.false_ne_true h.2
  · exact iff_of_true (returns_ok _) ⟨rfl, rfl⟩

lemma returns_dateByLength (s : List Char) :
    Returns (dateByLength chrono s) ↔ (byteLen s = 6 → (cut 4 s).isSome) ∧
      (byteLen s = 8 → hasWeek s = true → byteIs 4 '-' s = true → (cut 6 s).isSome) := by
  unfold dateByLength
  split
  next h => simp [h]
  next h => simp [h]
  next h =>
    split
    · simp [h]
    · simp [h]
  next h =>
    split
    next hweek =>
      rw [Bool.and_eq_true] at hweek
      refine (returns_slices 4 6 s (weekVerdict chrono)).trans ?_
      simp [h, hweek, cut_isSome_of_byteIs hweek.2]
    next hweek =>
      rw [Bool.and_eq_true, not_and] at hweek
      split
      next hw => simp [h, hw, hweek hw]
      next hw =>
        split
        · simp [h, hw]
        · simp [h, hw]
  next h4 h6 h7 h8 =>
    exact iff_of_true (returns_ok none) ⟨fun h => (h6 h).elim, fun h => (h8 h).elim⟩

/-- What follows the cases by length. -/
def dateByFormat (s : List Char) : Run NaiveDate :=
  let refused : Run NaiveDate := fail s!"cannot parse date: '{String.ofList s}'"
  match (chrono.parseDate "%Y-%m-%d" s).or (chrono.parseDate "%G-W%V-%u" s) with
  | some d => .ok d
  | none => do
    match ← weekByCharacters chrono s with
    | some verdict => verdict.elim refused .ok
    | none =>
      match ← weekOfNine chrono s with
      | some verdict => verdict.elim refused .ok
      | none =>
        if byteLen s = 7 ∧ '-' ∉ s ∧ hasWeek s = false then
          (chrono.parseDate "%Y%j" s).elim refused .ok
        else refused

lemma naiveDateFromStr_eq (s : List Char) :
    naiveDateFromStr chrono s = (dateByLength chrono (trim s) >>= fun verdict =>
      match verdict with
      | some verdict => verdict.elim (fail s!"cannot parse date: '{String.ofList (trim s)}'") .ok
      | none => dateByFormat chrono (trim s)) := rfl

lemma returns_weekByCharacters (s : List Char) :
    Returns (weekByCharacters chrono s) ↔ (byteLen s = 8 → s[5]? = some 'W' → s[4]? = some '-' →
      (cut 4 s).isSome ∧ (cut 6 s).isSome) := by
  unfold weekByCharacters
  split
  next h =>
    refine (returns_slices 4 6 s (weekVerdict chrono)).trans ?_
    exact ⟨fun hcut _ _ _ => hcut, fun hall => hall h.1 h.2.1 h.2.2⟩
  next h =>
    exact iff_of_true (returns_ok none) fun h8 hw hdash => absurd ⟨h8, hw, hdash⟩ h

lemma returns_weekOfNine (s : List Char) :
    Returns (weekOfNine chrono s) ↔ (byteLen s = 9 → s.head?.any Char.isDigit = true →
      ∀ p ∈
      (splitOnce (· = 'W') s).or (splitOnce (· = 'w') s), (cut (byteLen p.1 - 1) s).isSome) := by
  unfold weekOfNine
  split
  next h =>
    rcases (splitOnce (· = 'W') s).or (splitOnce (· = 'w') s) with _ | p
    · exact iff_of_true (returns_ok none) fun _ _ p hp => nomatch hp
    · have hcut : Returns (do
          let (year, _) ← sliceAt (byteLen p.1 - 1) s
          .ok (weekVerdict chrono year p.2)) ↔ (cut (byteLen p.1 - 1) s).isSome := by
        unfold sliceAt
        rcases cut (byteLen p.1 - 1) s with _ | q
        · exact iff_of_false not_returns_abort Bool.false_ne_true
        · exact iff_of_true (returns_ok _) rfl
      refine hcut.trans ⟨fun hsome _ _ q hq => ?_, fun hall => hall h.1 h.2 p rfl⟩
      obtain rfl := some.inj hq
      exact hsome
  next h =>
    exact iff_of_true (returns_ok none) fun h9 hdigit => absurd ⟨h9, hdigit⟩ h

lemma or_eq_none_iff (s : List Char) :
    (chrono.parseDate "%Y-%m-%d" s).or (chrono.parseDate "%G-W%V-%u" s) = none ↔
      ∀ format ∈ ["%Y-%m-%d", "%G-W%V-%u"], chrono.parseDate format s = none := by
  simp

lemma returns_dateByFormat (s : List Char) :
    Returns (dateByFormat chrono s) ↔
      ((∀ format ∈ ["%Y-%m-%d", "%G-W%V-%u"], chrono.parseDate format s = none) →
        (byteLen s = 8 → s[5]? = some 'W' → s[4]? = some '-' →
          (cut 4 s).isSome ∧ (cut 6 s).isSome) ∧
        (byteLen s = 9 → s.head?.any Char.isDigit = true →
          ∀ p ∈ (splitOnce (· = 'W') s).or (splitOnce (· = 'w') s),
            (cut (byteLen p.1 - 1) s).isSome)) := by
  rw [← or_eq_none_iff, ← returns_weekByCharacters chrono, ← returns_weekOfNine chrono]
  unfold dateByFormat
  rcases (chrono.parseDate "%Y-%m-%d" s).or (chrono.parseDate "%G-W%V-%u" s) with _ | d
  · simp only [true_imp_iff]
    by_cases h8 : byteLen s = 8
    · -- Eight bytes: the last case does not apply.
      have hnine : weekOfNine chrono s = .ok none := by
        rw [weekOfNine, if_neg (by omega)]
      rw [hnine, returns_bind]
      refine and_congr_right fun _ => iff_of_true (fun verdict _ => ?_) (returns_ok none)
      cases verdict with
      | some verdict => exact returns_elim_fail
      | none =>
        show Returns (if byteLen s = 7 ∧ _ then _ else _)
        rw [if_neg (by omega)]
        exact returns_fail _
    · have hchars : weekByCharacters chrono s = .ok none := by
        rw [weekByCharacters, if_neg (by omega)]
      rw [hchars, ok_bind]
      simp only [returns_ok, true_and]
      rw [returns_bind]
      refine and_iff_left fun verdict _ => ?_
      cases verdict with
      | some verdict => exact returns_elim_fail
      | none =>
        simp only
        split
        · exact returns_elim_fail
        · exact returns_fail _
  · exact iff_of_true (returns_ok d) fun h => absurd h (by simp)

/-- Eight bytes with a week and no dash after four. -/
theorem dateByLength_compactWeek (h8 : byteLen s = 8) (hweek : hasWeek s = true)
    (hdash : byteIs 4 '-' s = false) :
    dateByLength chrono s = .ok ((chrono.parseDate "%GW%V%u" s).map some) := by
  simp [dateByLength, h8, hweek, hdash]

lemma dateByLength_nine (h9 : byteLen s = 9) :
    dateByLength chrono s = .ok none := by
  simp [dateByLength, h9]

lemma dateFits_iff (s : List Char) :
    DateFits chrono s ↔ Returns (dateByLength chrono s) ∧
      (dateByLength chrono s = .ok none → Returns (dateByFormat chrono s)) := by
  rw [returns_dateByLength, returns_dateByFormat]
  constructor
  · intro h
    refine ⟨⟨h.six, h.week⟩, fun hnone hformats => ⟨fun h8 hw hd => ?_, fun h9 hdigit => ?_⟩⟩
    · have hweek := hasWeek_of_getElem? hw
      rcases hbyte : byteIs 4 '-' s with _ | _
      · -- The text was not read as a week with a day either.
        rw [dateByLength_compactWeek chrono h8 hweek hbyte] at hnone
        have hparse := map_eq_none_iff.mp (Except.ok.inj hnone)
        exact h.characters h8 hw hd hbyte (forall_mem_cons.mpr ⟨hparse, hformats⟩)
      · exact ⟨cut_isSome_of_byteIs hbyte, h.week h8 hweek hbyte⟩
    · exact h.nine h9 hdigit hformats
  · rintro ⟨⟨hsix, hweek⟩, hrest⟩
    refine ⟨hsix, hweek, fun h8 hw hd hbyte hformats => ?_, fun h9 hdigit hformats => ?_⟩
    · obtain ⟨hparse, hformats⟩ := forall_mem_cons.mp hformats
      have hnone := dateByLength_compactWeek chrono h8 (hasWeek_of_getElem? hw) hbyte
      rw [hparse] at hnone
      exact (hrest hnone hformats).1 h8 hw hd
    · exact (hrest (dateByLength_nine chrono h9) hformats).2 h9 hdigit

lemma returns_naiveDateFromStr (s : List Char) :
    Returns (naiveDateFromStr chrono s) ↔ DateFits chrono (trim s) := by
  rw [naiveDateFromStr_eq, returns_bind, dateFits_iff]
  refine and_congr_right fun _ => ⟨fun hall => hall none, fun h verdict hv => ?_⟩
  cases verdict with
  | some verdict => exact returns_elim_fail
  | none => exact h hv

end Dates
/-! ## Dates and times of a text -/

section Parsers

variable (chrono : Chrono)

@[simp] lemma returns_naiveTimeFromStr (s : List Char) :
    Returns (naiveTimeFromStr chrono s) ↔ SplitFits s := by
  refine (splitTz_yields s).returns_bind.trans (and_iff_left ?_)
  exact returns_elim_fail

lemma naiveTimeFromStr_of_fits {s : List Char} (h : SplitFits s) :
    naiveTimeFromStr chrono s = (parseTimeStr chrono (zoneSplit s).1).elim
      (fail s!"cannot parse time: '{String.ofList s}'") .ok := by
  rw [naiveTimeFromStr, (splitTz_yields s).value h]
  rfl

lemma naiveTimeFromStr_eq_ok {s : List Char} {t : NaiveTime} :
    naiveTimeFromStr chrono s = .ok t ↔ SplitFits s ∧ parseTimeStr chrono (zoneSplit s).1 =
    some t := by
  by_cases hfits : SplitFits s
  · rw [naiveTimeFromStr_of_fits chrono hfits]
    rcases parseTimeStr chrono (zoneSplit s).1 with _ | t'
    · exact iff_of_false (fun h => nomatch h) fun h => nomatch h.2
    · exact ⟨fun h => ⟨hfits, congrArg some (Except.ok.inj h)⟩, fun h => congrArg _ (some.inj h.2)⟩
  · refine iff_of_false (fun h => hfits ?_) fun h => hfits h.1
    rw [← returns_naiveTimeFromStr chrono, h]
    exact returns_ok t

/-- The texts of the date and of the time fit. -/
def DatetimeFits (s : List Char) : Prop :=
  match splitOnce (· = 'T') s with
  | some (date, rest) => SplitFits rest ∧ DateFits chrono (trim date)
  | none => DateFits chrono (trim s)

def datePart (message : String) (s : List Char) : Run NaiveDate :=
  match naiveDateFromStr chrono s with
  | .error (.error _) => fail message
  | r => r

lemma returns_datePart (message : String) (s : List Char) :
    Returns (datePart chrono message s) ↔ DateFits chrono (trim s) := by
  rw [← returns_naiveDateFromStr]
  unfold datePart
  rcases naiveDateFromStr chrono s with (_ | _) | d
  · exact iff_of_true (returns_fail _) (returns_error _)
  · exact Iff.rfl
  · exact Iff.rfl

lemma returns_naiveDatetimeFromStr (s : List Char) :
    Returns (naiveDatetimeFromStr chrono s) ↔ DatetimeFits chrono s := by
  unfold naiveDatetimeFromStr DatetimeFits
  rcases splitOnce (· = 'T') s with _ | ⟨date, rest⟩
  · simp only
    refine returns_bind.trans ((and_iff_left fun d _ => returns_ok _).trans
      (returns_datePart chrono _ s))
  · simp only
    refine (splitTz_yields rest).returns_bind.trans (and_congr_right fun _ => ?_)
    refine returns_bind.trans ((and_iff_left fun d _ => ?_).trans
      (returns_datePart chrono _ date))
    split
    · exact returns_ok _
    · exact returns_bind.mpr ⟨returns_elim_fail, fun t _ => returns_ok _⟩

/-! ### The functions of a text -/

/-- A civil date that is tried for a text that the calendar library does not read. -/
def CivilDateFits (s : List Char) : Prop :=
  (∀ d, naiveDateFromStr chrono s ≠ .ok d) → ∀ r ∈ parseCivilDatetime chrono s, CivilFits r.1

/-- `date` of a text returns. -/
theorem returns_makeDate (s : List Char) :
    Returns (makeDate chrono s) ↔ DateFits chrono (trim s) ∧ CivilDateFits chrono s := by
  rw [← returns_naiveDateFromStr]
  unfold makeDate CivilDateFits
  rcases naiveDateFromStr chrono s with (e | _) | d
  · simp only [returns_error, true_and]
    have hne : ∀ d, (.error (.error e) : Run NaiveDate) ≠ .ok d := by simp
    rcases parseCivilDatetime chrono s with _ | r
    · exact iff_of_true (returns_fail e) fun _ r hr => absurd hr (by simp)
    · refine (returns_dateObjFromCivil r.1).trans ⟨fun h _ q hq => ?_, fun hall => hall hne r rfl⟩
      obtain rfl := some.inj hq
      exact h
  · exact iff_of_false not_returns_abort fun h => not_returns_abort h.1
  · exact iff_of_true (returns_ok _) ⟨returns_ok d, fun hne => absurd rfl (hne d)⟩

def ClockTextFits (s : List Char) : Prop :=
  ∀ t ∈ parseTimeStr chrono (zoneSplit (zoneSplit s).1).1, ClockFits t ((zoneSplit s).2.getD ['Z'])

/-- `time` of a text returns. -/
theorem returns_makeTime (s : List Char) :
    Returns (makeTime chrono s) ↔
      SplitFits s ∧ SplitFits (zoneSplit s).1 ∧ ClockTextFits chrono s := by
  refine (splitTz_yields s).returns_bind.trans (and_congr_right fun _ => ?_)
  refine returns_bind.trans (and_congr (returns_naiveTimeFromStr chrono _) Iff.rfl) |>.trans ?_
  refine and_congr_right fun hfits => forall_congr' fun t => imp_congr ?_ ?_
  · exact (naiveTimeFromStr_eq_ok chrono).trans (and_iff_right hfits)
  · exact returns_timeToObj_time chrono t _

/-- `localtime` of a text returns. -/
theorem returns_makeLocaltime (s : List Char) : Returns (makeLocaltime chrono s) ↔ SplitFits s := by
  refine returns_bind.trans ((and_iff_left fun t _ => ?_).trans (returns_naiveTimeFromStr chrono s))
  exact returns_timeToObj_local chrono t

/-- `datetime` of a text returns. -/
theorem returns_makeDatetime (s : List Char) :
    Returns (makeDatetime chrono s) ↔ DatetimeFits chrono s ∧
      ∀ r, naiveDatetimeFromStr chrono s = .ok r → InstantFits chrono r.1 (r.2.getD ['Z']) := by
  rw [← returns_naiveDatetimeFromStr]
  refine returns_bind.trans (and_congr_right fun _ => forall_congr' fun r =>
    imp_congr_right fun _ => ?_)
  exact returns_datetimeToObj_zoned chrono r.1 r.2

/-- A civil date and time that are tried for a text that is not read otherwise. -/
def CivilDatetimeFits (s : List Char) : Prop :=
  (∀ r, naiveDatetimeFromStr chrono s ≠ .ok r) →
    ∀ r ∈ parseCivilDatetime chrono s, DaysFit r.1.year r.1.month r.1.day

/-- `localdatetime` of a text returns. -/
theorem returns_makeLocaldatetime (s : List Char) :
    Returns (makeLocaldatetime chrono s) ↔ DatetimeFits chrono s ∧
      (∀ r, naiveDatetimeFromStr chrono s = .ok r → (chrono.subSeconds r.1 0).isSome) ∧
      CivilDatetimeFits chrono s := by
  rw [← returns_naiveDatetimeFromStr]
  unfold makeLocaldatetime CivilDatetimeFits
  rcases naiveDatetimeFromStr chrono s with (e | _) | r
  · simp only [returns_error, true_and]
    have hne : ∀ r, (.error (.error e) : Run (NaiveDateTime × Option (List Char))) ≠ .ok r := by
      simp
    refine Iff.trans ?_ (and_iff_right fun r hr => absurd hr (hne r)).symm
    rcases parseCivilDatetime chrono s with _ | r
    · exact iff_of_true (returns_fail e) fun _ r hr => absurd hr (by simp)
    · refine (returns_localdatetimeObjFromCivil chrono r.1 r.2).trans
        ⟨fun h _ q hq => ?_, fun hall => hall hne r rfl⟩
      obtain rfl := some.inj hq
      exact h
  · exact iff_of_false not_returns_abort fun h => not_returns_abort h.1
  · simp only [returns_ok, true_and]
    refine (returns_datetimeToObj_local chrono r.1).trans
      ⟨fun h => ⟨fun q hq => ?_, fun hne => absurd rfl (hne r)⟩, fun h => h.1 r rfl⟩
    obtain rfl := Except.ok.inj hq
    exact h

end Parsers

/-! ## Durations -/

section Durations

variable (doubles : Doubles)

def DateSegmentFits (date : List Char) : Prop :=
  date ≠ [] → ∀ y m d, splitN 3 (· = '-') date = [y, m, d] →
    ∀ years ∈ parseI64 y, Fits (years * 12) ∧ ∀ months ∈ parseI64 m, Fits (years * 12 + months)

def DateSegmentReads (date : List Char) : Prop :=
  date = [] ∨ ∃ y m d, splitN 3 (· = '-') date = [y, m, d] ∧
    (parseI64 y).isSome ∧ (parseI64 m).isSome ∧ (parseI64 d).isSome

/-- The products and sums of a time segment fit. -/
@[mk_iff]
structure TimeSumFits (h m s : ℤ) : Prop where
  hours : Fits (h * 3600)
  minutes : Fits (m * 60)
  whole : Fits (h * 3600 + m * 60)
  sum : Fits (h * 3600 + m * 60 + s)

def TimeSegmentFits (time : List Char) : Prop :=
  ∀ h m s, splitN 3 (· = ':') time = [h, m, s] → ∀ hours ∈ parseI64 h, ∀ minutes ∈ parseI64 m,
    ∀ secs ∈ doubles.parse s, TimeSumFits hours minutes (doubles.toI64 (doubles.trunc secs)).1

lemma returns_elim_bind {α β : Type} {o : Option α} {message : String} {f : α → Run β} :
    Returns (o.elim (fail message) .ok >>= f) ↔ ∀ a ∈ o, Returns (f a) := by
  cases o with
  | none => exact iff_of_true (returns_fail _) fun a ha => nomatch ha
  | some a =>
    refine ⟨fun h b hb => ?_, fun hall => hall a rfl⟩
    obtain rfl := some.inj hb
    exact h

lemma returns_durationField_bind {α : Type} {s : List Char} {f : ℤ → Run α} :
    Returns (durationField s >>= f) ↔ ∀ i ∈ parseI64 s, Returns (f i) :=
  returns_elim_bind

lemma returns_extendedDate (date : List Char) :
    Returns (extendedDate date) ↔ DateSegmentFits date := by
  unfold extendedDate DateSegmentFits
  split
  next h => exact iff_of_true (returns_ok _) fun hne => absurd h hne
  next h =>
    split
    next y m d hsplit =>
      simp only [returns_durationField_bind, returns_checkedI64_bind, returns_ok,
        implies_true, and_true]
      refine ⟨fun hall _ y' m' d' heq => ?_, fun hall => hall h y m d hsplit⟩
      rw [hsplit] at heq
      simp only [List.cons.injEq, and_true] at heq
      obtain ⟨rfl, rfl, rfl⟩ := heq
      exact hall
    next hsplit => exact iff_of_true (returns_fail _) fun _ y m d heq => (hsplit y m d heq).elim

lemma returns_extendedTime (time : Option (List Char)) :
    Returns (extendedTime doubles time) ↔ ∀ t ∈ time, TimeSegmentFits doubles t := by
  cases time with
  | none => exact iff_of_true (returns_ok _) fun t ht => nomatch ht
  | some time =>
    simp only [mem_def, some.injEq, forall_eq', TimeSegmentFits,
      timeSumFits_iff]
    rw [extendedTime]
    split
    next h m s hsplit =>
      simp only [returns_durationField_bind, returns_elim_bind, returns_checkedI64_bind, returns_ok,
        and_true]
      refine ⟨fun hall h' m' s' heq => ?_, fun hall => hall h m s hsplit⟩
      rw [hsplit] at heq
      simp only [List.cons.injEq, and_true] at heq
      obtain ⟨rfl, rfl, rfl⟩ := heq
      exact hall
    next hsplit => exact iff_of_true (returns_fail _) fun h m s heq => (hsplit h m s heq).elim

lemma dateSegmentReads_of_eq_ok {date : List Char} {p : ℤ × ℤ} (h : extendedDate date = .ok p) :
    DateSegmentReads date := by
  unfold extendedDate at h
  split at h
  next hnil => exact .inl hnil
  next hne =>
    split at h
    next y m d hsplit =>
      -- A field that is no number ends the call with an error.
      have hread : ∀ {α : Type} {s : List Char} {f : ℤ → Run α} {a : α},
          durationField s >>= f = .ok a → ∃ i, parseI64 s = some i ∧ f i = .ok a := by
        intro α s f a heq
        unfold durationField at heq
        rcases hi : parseI64 s with _ | i
        · rw [hi] at heq
          cases heq
        · rw [hi] at heq
          exact ⟨i, rfl, heq⟩
      have hchecked : ∀ {α : Type} {i : ℤ} {f : ℤ → Run α} {a : α},
          checkedI64 i >>= f = .ok a → f i = .ok a := by
        intro α i f a heq
        rcases hi : checkedI64 i with e | j
        · rw [hi] at heq
          cases heq
        · obtain ⟨-, rfl⟩ := checkedI64_eq_ok.mp hi
          rw [hi] at heq
          exact heq
      obtain ⟨years, hy, h⟩ := hread h
      obtain ⟨months, hm, h⟩ := hread (hchecked h)
      obtain ⟨days, hd, -⟩ := hread (hchecked h)
      exact .inr ⟨y, m, d, hsplit, by rw [hy]; rfl, by rw [hm]; rfl, by rw [hd]; rfl⟩
    next hsplit => cases h

lemma exists_extendedDate {date : List Char} (hfits : DateSegmentFits date)
    (hreads : DateSegmentReads date) : ∃ p, extendedDate date = .ok p := by
  unfold extendedDate
  rcases hreads with rfl | ⟨y, m, d, hsplit, hy, hm, hd⟩
  · exact ⟨_, rfl⟩
  · have hne : date ≠ [] := by
      rintro rfl
      cases hsplit
    obtain ⟨years, hy⟩ := isSome_iff_exists.mp hy
    obtain ⟨months, hm⟩ := isSome_iff_exists.mp hm
    obtain ⟨days, hd⟩ := isSome_iff_exists.mp hd
    obtain ⟨hyears, hall⟩ := hfits hne y m d hsplit years hy
    rw [if_neg hne, hsplit]
    simp only [durationField, hy, hm, hd, elim_some, ok_bind, checkedI64_of_fits hyears,
      checkedI64_of_fits (hall months hm)]
    exact ⟨_, rfl⟩

lemma returns_parseIsoDurationExtended (date : List Char) (time : Option (List Char)) :
    Returns (parseIsoDurationExtended doubles date time) ↔ DateSegmentFits date ∧
      (DateSegmentReads date → ∀ t ∈ time, TimeSegmentFits doubles t) := by
  have hrest : ∀ p : ℤ × ℤ, Returns (extendedTime doubles time >>= fun q =>
      (.ok (toI64 p.1, toI64 p.2, toI64 q.1, q.2) : Run Parts)) ↔
        ∀ t ∈ time, TimeSegmentFits doubles t := fun p =>
    (returns_bind.trans (and_iff_left fun q _ => returns_ok _)).trans
      (returns_extendedTime doubles time)
  refine returns_bind.trans ((and_congr_left fun _ => returns_extendedDate date).trans ?_)
  refine and_congr_right fun hfits => ⟨fun hall hreads => ?_, fun h p hp => ?_⟩
  · obtain ⟨p, hp⟩ := exists_extendedDate hfits hreads
    exact (hrest p).mp (hall p hp)
  · exact (hrest p).mpr (h (dateSegmentReads_of_eq_ok hp))

/-- A text of a duration without its first letter, as a date segment and a time segment. -/
def segments (s : List Char) : List Char × Option (List Char) :=
  match splitOnce (· = 'T') s with
  | some (d, t) => (d.tail, some t)
  | none => (s.tail, none)

/-- The segments are fields with separators rather than numbers with units. -/
abbrev IsExtended (s : List Char) : Prop :=
  ((segments s).1 ≠ [] ∧ ((segments s).1.any Char.isAlpha) = false) ∨
    ((segments s).2.any fun t => ':' ∈ t) = true

def DurationFits (s : List Char) : Prop :=
  s.head? = some 'P' → IsExtended s → DateSegmentFits (segments s).1 ∧
    (DateSegmentReads (segments s).1 → ∀ t ∈ (segments s).2, TimeSegmentFits doubles t)

lemma returns_parseIsoDuration (s : List Char) :
    Returns (parseIsoDuration doubles s) ↔ DurationFits doubles (trim s) := by
  unfold DurationFits
  by_cases hhead : (trim s).head? = some 'P'
  · rw [imp_iff_right hhead]
    show Returns (if (trim s).head? ≠ some 'P' then _ else
      if IsExtended (trim s) then
        parseIsoDurationExtended doubles (segments (trim s)).1 (segments (trim s)).2 else _) ↔ _
    rw [if_neg (not_not.mpr hhead)]
    split
    next hext => rw [imp_iff_right hext, returns_parseIsoDurationExtended]
    next hext => exact iff_of_true (returns_ok _) fun h => absurd h hext
  · refine iff_of_true ?_ fun h => absurd h hhead
    rw [parseIsoDuration, if_pos hhead]
    exact returns_fail _

/-- `duration` of a text returns. -/
theorem returns_makeDuration (s : List Char) :
    Returns (makeDuration doubles s) ↔ DurationFits doubles (trim s) ∧
      ∀ p, parseIsoDuration doubles s = .ok p → p.2.1.1 ≠ -2 ^ 63 := by
  rw [← returns_parseIsoDuration]
  refine returns_bind.trans (and_congr_right fun _ => forall_congr' fun p =>
    imp_congr_right fun _ => ?_)
  show Returns (checkedI64 |p.2.1.1| >>= _) ↔ _
  rw [returns_checkedI64_bind]
  refine (and_iff_left (returns_ok _)).trans ?_
  obtain ⟨hlow, hhigh⟩ := p.2.1.2
  refine ⟨fun h heq => ?_, fun hne => ⟨?_, abs_lt.mpr ⟨lt_of_le_of_ne hlow (Ne.symm hne), hhigh⟩⟩⟩
  · rw [Fits, heq] at h
    norm_num at h
  · exact le_trans (by norm_num) (abs_nonneg _)

end Durations

/-! ## Zones of maps -/

section Selected

variable (chrono : Chrono)

/-- Both zones of a time that is moved fit, and so does the shift between them. -/
@[mk_iff]
structure TimeShiftFits (t : NaiveTime) (new old : List Char) : Prop where
  newZone : ZoneNumbersFit new
  oldZone : ZoneNumbersFit old
  shift : Fits (zoneSeconds new - zoneSeconds old)
  time : (chrono.addTimeSeconds t (zoneSeconds new - zoneSeconds old)).isSome

lemma returns_selectTimeZone (selected : Bool) (t : NaiveTime)
    (override base : Option (List Char)) :
    Returns (selectTimeZone chrono selected t override base) ↔
      (selected = true → ∀ new ∈ override, ∀ old ∈ base, TimeShiftFits chrono t new old) := by
  cases selected with
  | false => exact iff_of_true (returns_ok _) fun h => (Bool.false_ne_true h).elim
  | true =>
    rw [imp_iff_right rfl]
    rcases override with _ | new
    · exact iff_of_true (returns_ok _) fun new hnew => nomatch hnew
    rcases base with _ | old
    · exact iff_of_true (returns_ok _) fun new _ old hold => nomatch hold
    simp only [mem_def, some.injEq, forall_eq', timeShiftFits_iff]
    refine (tzOffsetSeconds_yields new).returns_bind.trans (and_congr_right fun _ => ?_)
    refine (tzOffsetSeconds_yields old).returns_bind.trans (and_congr_right fun _ => ?_)
    refine returns_checkedI64_bind.trans (and_congr_right fun _ => ?_)
    exact returns_bind.trans ((and_iff_left fun t' _ => returns_ok _).trans returns_orAbort)

/-- Both zones of an instant that is moved fit, and so does the shift between them. -/
@[mk_iff]
structure InstantShiftFits (dt : NaiveDateTime) (new old : List Char) : Prop where
  oldZone : ZoneFits chrono dt old
  newZone : ZoneFits chrono dt new
  shift : Fits (resolvedSeconds chrono dt new - resolvedSeconds chrono dt old)
  instant : (chrono.subSeconds dt
    (-(resolvedSeconds chrono dt new - resolvedSeconds chrono dt old))).isSome

/-- The zone of a map is attached to an instant, or the clock is moved. -/
theorem returns_selectDatetimeZone (dt : NaiveDateTime) (override base : Option (List Char)) :
    Returns (selectDatetimeZone chrono dt override base) ↔
      ∀ new ∈ override, ∀ old ∈ base, InstantShiftFits chrono dt new old := by
  rcases override with _ | new
  · exact iff_of_true (returns_ok _) fun new hnew => nomatch hnew
  rcases base with _ | old
  · exact iff_of_true (returns_ok _) fun new _ old hold => nomatch hold
  simp only [mem_def, some.injEq, forall_eq', instantShiftFits_iff]
  refine (resolveZone_yields chrono dt old).returns_bind.trans (and_congr_right fun _ => ?_)
  refine (resolveZone_yields chrono dt new).returns_bind.trans (and_congr_right fun _ => ?_)
  refine returns_checkedI64_bind.trans (and_congr_right fun _ => ?_)
  exact returns_bind.trans ((and_iff_left fun t' _ => returns_ok _).trans returns_orAbort)

end Selected

/-! ## All of them -/

/-- For every text, each function of a text returns just when its slices fall between characters and
its numbers fit; and so it is with the zones of every map. -/
theorem temporalTexts_return_iff (chrono : Chrono) (doubles : Doubles) :
    (∀ s, Returns (makeDate chrono s) ↔ DateFits chrono (trim s) ∧ CivilDateFits chrono s) ∧
    (∀ s, Returns (makeTime chrono s) ↔
      SplitFits s ∧ SplitFits (zoneSplit s).1 ∧ ClockTextFits chrono s) ∧
    (∀ s, Returns (makeLocaltime chrono s) ↔ SplitFits s) ∧
    (∀ s, Returns (makeDatetime chrono s) ↔ DatetimeFits chrono s ∧
      ∀ r, naiveDatetimeFromStr chrono s = .ok r → InstantFits chrono r.1 (r.2.getD ['Z'])) ∧
    (∀ s, Returns (makeLocaldatetime chrono s) ↔ DatetimeFits chrono s ∧
      (∀ r, naiveDatetimeFromStr chrono s = .ok r → (chrono.subSeconds r.1 0).isSome) ∧
      CivilDatetimeFits chrono s) ∧
    (∀ s, Returns (makeDuration doubles s) ↔ DurationFits doubles (trim s) ∧
      ∀ p, parseIsoDuration doubles s = .ok p → p.2.1.1 ≠ -2 ^ 63) ∧
    (∀ selected t override base, Returns (selectTimeZone chrono selected t override base) ↔
      (selected = true → ∀ new ∈ override, ∀ old ∈ base, TimeShiftFits chrono t new old)) ∧
    (∀ t tz, Returns (timeToObj chrono t tz "Time") ↔ ClockFits t (tz.getD ['Z'])) ∧
    (∀ dt override base, Returns (selectDatetimeZone chrono dt override base) ↔
      ∀ new ∈ override, ∀ old ∈ base, InstantShiftFits chrono dt new old) ∧
    (∀ dt tz, Returns (datetimeToObj chrono dt tz "DateTime") ↔
      InstantFits chrono dt (tz.getD ['Z'])) :=
  ⟨returns_makeDate chrono, returns_makeTime chrono, returns_makeLocaltime chrono,
    returns_makeDatetime chrono, returns_makeLocaldatetime chrono, returns_makeDuration doubles,
    returns_selectTimeZone chrono, returns_timeToObj_time chrono, returns_selectDatetimeZone chrono,
    returns_datetimeToObj_zoned chrono⟩

/-- Six bytes with the fifth inside a character are no date, and slicing them aborts. -/
theorem date_aborts : ¬ ∀ s, Returns (makeDate gregorian s) := by
  intro hall
  have habort : makeDate gregorian ['1', '2', '3', 'é', '5'] = .error .abort := by decide +kernel
  exact hall _ habort

end IssunDB.Temporal
