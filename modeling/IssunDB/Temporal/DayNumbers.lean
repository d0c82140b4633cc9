import Mathlib.Algebra.BigOperators.Intervals
import IssunDB.Temporal.Quarters
import IssunDB.Temporal.Totality

/-!
# Day numbers of civil dates

The calendar counted out day by day, and what `daysFromCivil` and `dateObjFromCivil` make of it.

* `CivilDate.next` — the calendar date after a date;
* `CivilDate.number_next`, `CivilDate.number_lt_iff` — the formula counts days;
* `CivilDate.daysFromCivil_ok` — how far the 64-bit computation of the formula goes;
* `civilDates_counted_iff` — the numbers, weekdays and ordinals of the dates in between are right.
-/

namespace IssunDB.Temporal

/-! ## The calendar -/

def daysBefore (year : ℤ) (month : ℕ) : ℕ := ∑ m ∈ Finset.Ico 1 month, daysInMonthCivil year m

def yearLength (year : ℤ) : ℕ := if isLeapCivil year then 366 else 365

lemma daysInMonthCivil_pos (year : ℤ) (month : ℕ) : 1 ≤ daysInMonthCivil year month := by
  unfold daysInMonthCivil
  split
  case h_12 => split <;> decide
  all_goals decide

lemma daysBefore_succ (year : ℤ) {month : ℕ} (h : 1 ≤ month) :
    daysBefore year (month + 1) = daysBefore year month + daysInMonthCivil year month :=
  Finset.sum_Ico_succ_top h _

lemma daysBefore_mono (year : ℤ) {m m' : ℕ} (h : m ≤ m') : daysBefore year m ≤ daysBefore year m' :=
  Finset.sum_le_sum_of_subset (Finset.Ico_subset_Ico_right h)

lemma daysBefore_end (year : ℤ) : daysBefore year 13 = yearLength year := by
  unfold daysBefore yearLength
  simp only [Finset.sum_Ico_eq_sum_range, Finset.sum_range_succ, Finset.sum_range_zero,
    daysInMonthCivil]
  split <;> rfl

lemma first_month_bounds : 1 ≤ 1 ∧ 1 ≤ 12 := by decide

namespace CivilDate

lemma next_day_bounds (d : CivilDate) (h : d.day < daysInMonthCivil d.year d.month) :
    1 ≤ d.day + 1 ∧ d.day + 1 ≤ daysInMonthCivil d.year d.month := ⟨by omega, h⟩

lemma next_month_bounds (d : CivilDate) (h : d.month < 12) :
    1 ≤ d.month + 1 ∧ d.month + 1 ≤ 12 := by
  omega

lemma next_month_day_bounds (d : CivilDate) : 1 ≤ 1 ∧ 1 ≤ daysInMonthCivil d.year (d.month + 1) :=
  ⟨le_refl 1, daysInMonthCivil_pos _ _⟩

lemma next_year_day_bounds (d : CivilDate) : 1 ≤ 1 ∧ 1 ≤ daysInMonthCivil (d.year + 1) 1 :=
  ⟨le_refl 1, daysInMonthCivil_pos _ _⟩

/-- The calendar date after a date. -/
def next (d : CivilDate) : CivilDate :=
  if hday : d.day < daysInMonthCivil d.year d.month then
    ⟨d.year, d.month, d.day + 1, d.month_bounds, d.next_day_bounds hday⟩
  else if hmonth : d.month < 12 then
    ⟨d.year, d.month + 1, 1, d.next_month_bounds hmonth, d.next_month_day_bounds⟩
  else ⟨d.year + 1, 1, 1, first_month_bounds, d.next_year_day_bounds⟩

def dayOfYear (d : CivilDate) : ℕ := daysBefore d.year d.month + d.day

def quarterStart (d : CivilDate) : ℕ := (d.month - 1) / 3 * 3 + 1

def dayOfQuarter (d : CivilDate) : ℕ :=
  ∑ m ∈ Finset.Ico d.quarterStart d.month, daysInMonthCivil d.year m + d.day

def dayCount (d : CivilDate) : ℤ :=
  -- of the two sums the one on the other side of 1970 is empty
  ∑ i ∈ Finset.range (d.year - 1970).toNat, (yearLength (1970 + i) : ℤ) -
    ∑ i ∈ Finset.range (1970 - d.year).toNat, (yearLength (1969 - i) : ℤ) + d.dayOfYear - 1

/-- The day of the week, Monday being one. The first of January 1970 was a Thursday. -/
def dayOfWeek (d : CivilDate) : ℤ := (d.dayCount + 3) % 7 + 1

end CivilDate

/-! ## The formula -/

lemma dayNumber_eq_add (year : ℤ) {month : ℕ} (h : 1 ≤ month ∧ month ≤ 12) (day : ℕ) :
    dayNumber year month day = dayNumber year 1 1 + daysBefore year month + day - 1 := by
  obtain ⟨hlow, hhigh⟩ := h
  rw [dayNumber_eq, dayNumber_eq]
  have hyear := yearDays_sub_one year
  -- Months from March on are counted in the March year of `year`, the others in the one before.
  rcases hl : isLeapCivil year with _ | _
  all_goals
    rw [hl] at hyear
    interval_cases month
  all_goals
    simp only [daysBefore, Finset.sum_Ico_eq_sum_range, Finset.sum_range_succ,
      Finset.sum_range_zero,
      daysInMonthCivil, monthDays, hl, if_true, Bool.false_eq_true, if_false] at hyear ⊢
    norm_num at hyear ⊢
    omega

/-- A year begins where the one before ends. -/
theorem dayNumber_newYear (year : ℤ) :
    dayNumber (year + 1) 1 1 = dayNumber year 1 1 + yearLength year := by
  rw [dayNumber_eq, dayNumber_eq]
  have hyear := yearDays_sub_one year
  simp only [monthDays, yearLength, Nat.reduceLeDiff, if_true, Int.add_sub_cancel]
  split at hyear
  next hleap => simp only [hleap, if_true]; omega
  next hleap => simp only [hleap, Bool.false_eq_true, if_false]; omega

lemma dayNumber_newYear_mono {y y' : ℤ} (h : y ≤ y') : dayNumber y 1 1 ≤ dayNumber y' 1 1 := by
  rw [dayNumber_eq, dayNumber_eq]
  have hmono := @yearDays_mono (y - 1) (y' - 1) (by omega)
  simp only [Nat.reduceLeDiff, if_true]
  omega

namespace CivilDate

def number (d : CivilDate) : ℤ := dayNumber d.year d.month d.day

lemma number_eq (d : CivilDate) : d.number = dayNumber d.year 1 1 + d.dayOfYear - 1 := by
  rw [number, dayNumber_eq_add d.year d.month_bounds, dayOfYear]
  push_cast
  ring

lemma dayOfYear_bounds (d : CivilDate) : 1 ≤ d.dayOfYear ∧ d.dayOfYear ≤ yearLength d.year := by
  obtain ⟨-, hday⟩ := d.day_bounds
  have hsucc := daysBefore_succ d.year d.month_bounds.1
  have hmono := daysBefore_mono d.year (show d.month + 1 ≤ 13 by have := d.month_bounds.2; omega)
  rw [daysBefore_end] at hmono
  unfold dayOfYear
  have := d.day_bounds.1
  omega

/-- **The next date has the next number.** -/
theorem number_next (d : CivilDate) : d.next.number = d.number + 1 := by
  have hday := d.day_bounds.2
  rw [number_eq, number_eq, next]
  split
  next => simp only [dayOfYear]; omega
  next hlast =>
    split
    next =>
      -- The last day of a month.
      have hsucc := daysBefore_succ d.year d.month_bounds.1
      simp only [dayOfYear]
      omega
    next hmonth =>
      -- The last day of a year.
      have hdec : d.month = 12 := by have := d.month_bounds.2; omega
      have hend := daysBefore_end d.year
      rw [show (13 : ℕ) = 12 + 1 from rfl, daysBefore_succ d.year (by decide)] at hend
      have hfirst : daysBefore (d.year + 1) 1 = 0 := rfl
      simp only [dayOfYear, dayNumber_newYear, hfirst, hdec] at hlast hday ⊢
      omega

variable {d d' : CivilDate}

/-- Dates are compared by year, month and day. -/
theorem cmp_eq_lt_iff :
    d.cmp d' = .lt ↔ d.year < d'.year ∨ d.year = d'.year ∧ (d.month < d'.month ∨
      d.month = d'.month ∧ d.day < d'.day) := by
  unfold cmp
  rw [Ordering.then_eq_lt, Ordering.then_eq_lt, compare_lt_iff_lt, compare_lt_iff_lt,
    compare_lt_iff_lt, compare_eq_iff_eq, compare_eq_iff_eq]

/-- A date in front of another has a smaller number. -/
theorem number_lt_of_cmp (h : d.cmp d' = .lt) : d.number < d'.number := by
  have hd := d.dayOfYear_bounds
  have hd' := d'.dayOfYear_bounds
  rw [number_eq, number_eq]
  rcases cmp_eq_lt_iff.mp h with hyear | ⟨hyear, hrest⟩
  · -- The year ends first.
    have hnew := dayNumber_newYear d.year
    have hmono := dayNumber_newYear_mono (show d.year + 1 ≤ d'.year by omega)
    omega
  · have hsum : d.dayOfYear < d'.dayOfYear := by
      have hday := d.day_bounds
      have hday' := d'.day_bounds
      unfold dayOfYear
      rw [← hyear]
      rcases hrest with hmonth | ⟨hmonth, hlt⟩
      · have hsucc := daysBefore_succ d.year d.month_bounds.1
        have hmono := daysBefore_mono d.year (show d.month + 1 ≤ d'.month from hmonth)
        omega
      · rw [hmonth]
        omega
    rw [hyear]
    omega

/-- **The numbers of dates are ordered as the dates.** -/
theorem number_lt_iff : d.number < d'.number ↔ d.cmp d' = .lt := by
  refine ⟨fun h => ?_, number_lt_of_cmp⟩
  by_contra hcmp
  rw [cmp_eq_lt_iff] at hcmp
  by_cases heq : d = d'
  · exact absurd h (heq ▸ lt_irrefl _)
  · -- Of two different dates one is in front.
    have hne : ¬(d.year = d'.year ∧ d.month = d'.month ∧ d.day = d'.day) :=
      fun ⟨hy, hm, hd⟩ => heq (CivilDate.ext hy hm hd)
    have hswap : d'.number < d.number := number_lt_of_cmp (cmp_eq_lt_iff.mpr (by omega))
    omega

lemma number_injective : Function.Injective number := by
  intro d d' h
  by_contra hne
  have hne' : ¬(d.year = d'.year ∧ d.month = d'.month ∧ d.day = d'.day) :=
    fun ⟨hy, hm, hd⟩ => hne (CivilDate.ext hy hm hd)
  rcases (show d.cmp d' = .lt ∨ d'.cmp d = .lt by rw [cmp_eq_lt_iff, cmp_eq_lt_iff]; omega) with
    hlt | hlt
  · have := number_lt_of_cmp hlt
    omega
  · have := number_lt_of_cmp hlt
    omega

lemma number_eq_dayCount (d : CivilDate) : d.number = d.dayCount := by
  have hepoch : dayNumber 1970 1 1 = 0 := by decide
  have hforward : ∀ n : ℕ, dayNumber (1970 + n) 1 1 =
      ∑ i ∈ Finset.range n, (yearLength (1970 + i) : ℤ) := by
    intro n
    induction n with
    | zero => exact hepoch
    | succ n ih => rw [Finset.sum_range_succ, Nat.cast_succ, ← add_assoc, dayNumber_newYear, ih]
  have hbackward : ∀ n : ℕ, dayNumber (1970 - n) 1 1 =
      -∑ i ∈ Finset.range n, (yearLength (1969 - i) : ℤ) := by
    intro n
    induction n with
    | zero => exact hepoch
    | succ n ih =>
      have hnew := dayNumber_newYear (1969 - n)
      rw [show (1969 - n : ℤ) + 1 = 1970 - n by ring, ih] at hnew
      rw [Finset.sum_range_succ, show (1970 - (n + 1 : ℕ) : ℤ) = 1969 - n by push_cast; ring]
      omega
  rw [number_eq, dayCount]
  rcases le_total 1970 d.year with hle | hle
  · obtain ⟨n, hn⟩ := Int.le.dest hle
    rw [← hn, hforward, add_sub_cancel_left, Int.toNat_natCast,
      Int.toNat_of_nonpos (show (1970 - (1970 + n) : ℤ) ≤ 0 by omega),
      Finset.sum_range_zero, sub_zero]
  · obtain ⟨n, hn⟩ := Int.le.dest hle
    have hyear : d.year = 1970 - n := by omega
    rw [hyear, hbackward, sub_sub_cancel, Int.toNat_natCast,
      Int.toNat_of_nonpos (show (1970 - n - 1970 : ℤ) ≤ 0 by omega),
      Finset.sum_range_zero, zero_sub]

end CivilDate

/-! ## The computation -/

lemma daysFit_iff {year : ℤ} {month day : ℕ} (hday : 1 ≤ day ∧ day ≤ 31) :
    DaysFit year month day ↔
      -2 ^ 63 ≤ dayNumber year month day ∧ dayNumber year month day + 719468 < 2 ^ 63 := by
  refine ⟨fun h => ⟨h.days.1, h.sum.2⟩, fun ⟨hlow, hhigh⟩ => ?_⟩
  obtain ⟨hfirst, hlast⟩ := hday
  -- A day is less than 400 years after the start of its era.
  have hdoy : 0 ≤ monthDays month day ∧ monthDays month day ≤ 370 := by
    unfold monthDays
    omega
  have hera : dayNumber year month day = marchYear year month / 400 * 146097 +
      (marchYear year month % 400 * 365 + marchYear year month % 400 / 4 -
        marchYear year month % 400 / 100 + monthDays month day) - 719468 := rfl
  have hmarch : marchYear year month = year ∨ marchYear year month = year - 1 := by
    unfold marchYear
    split
    · exact .inr rfl
    · exact .inl rfl
  constructor
  all_goals
    simp only [Fits]
    omega

namespace CivilDate

lemma day_le (d : CivilDate) : 1 ≤ d.day ∧ d.day ≤ 31 := by
  refine ⟨d.day_bounds.1, d.day_bounds.2.trans ?_⟩
  unfold daysInMonthCivil
  split
  case h_12 => split <;> decide
  all_goals decide

/-- The number of a date is computed iff it fits. -/
theorem daysFromCivil_ok (d : CivilDate) {n : ℤ} :
    daysFromCivil d.year d.month d.day = .ok n ↔
      n = d.number ∧ -2 ^ 63 ≤ d.number ∧ d.number + 719468 < 2 ^ 63 := by
  have hyields := daysFromCivil_yields d.year d.month d.day
  rw [show (-2 ^ 63 ≤ d.number ∧ d.number + 719468 < 2 ^ 63) = DaysFit d.year d.month d.day from
    propext (daysFit_iff d.day_le).symm]
  refine ⟨fun h => ?_, fun ⟨hn, hfit⟩ => hn ▸ hyields.value hfit⟩
  by_cases hfit : DaysFit d.year d.month d.day
  · exact ⟨(Except.ok.inj ((hyields.value hfit).symm.trans h)).symm, hfit⟩
  · exact nomatch (hyields.abort hfit).symm.trans h

def monthStart (year : ℤ) (month : ℕ) (h : 1 ≤ month ∧ month ≤ 12) : CivilDate :=
  ⟨year, month, 1, h, le_refl _, daysInMonthCivil_pos _ _⟩

lemma number_monthStart (year : ℤ) (month : ℕ) (h : 1 ≤ month ∧ month ≤ 12) :
    (monthStart year month h).number = dayNumber year 1 1 + daysBefore year month := by
  rw [number_eq, dayOfYear]
  simp only [monthStart]
  omega

lemma quarterStart_le (d : CivilDate) :
    (1 ≤ d.quarterStart ∧ d.quarterStart ≤ 12) ∧ d.quarterStart ≤ d.month := by
  have h := d.month_bounds
  unfold quarterStart
  omega

lemma dayOfYear_eq_dayOfQuarter (d : CivilDate) :
    d.dayOfYear = daysBefore d.year d.quarterStart + d.dayOfQuarter := by
  obtain ⟨⟨hfirst, -⟩, hle⟩ := d.quarterStart_le
  have hsplit : daysBefore d.year d.month = daysBefore d.year d.quarterStart +
      ∑ m ∈ Finset.Ico d.quarterStart d.month, daysInMonthCivil d.year m :=
    (Finset.sum_Ico_consecutive _ hfirst hle).symm
  rw [dayOfYear, dayOfQuarter, hsplit]
  omega

/-- Of the three numbers that a date needs, the first of the year is the smallest. -/
theorem civilFits_iff (d : CivilDate) :
    CivilFits d ↔ -2 ^ 63 ≤ dayNumber d.year 1 1 ∧ d.number + 719468 < 2 ^ 63 := by
  have hquarter := number_monthStart d.year d.quarterStart d.quarterStart_le.1
  have hday := d.number_eq
  have hsum := d.dayOfYear_eq_dayOfQuarter
  have hpos : 1 ≤ d.dayOfQuarter := by
    have := d.day_bounds.1
    unfold dayOfQuarter
    omega
  unfold CivilFits
  rw [daysFit_iff d.day_le, daysFit_iff ⟨le_refl 1, by decide⟩, daysFit_iff ⟨le_refl 1, by decide⟩]
  change (-2 ^ 63 ≤ d.number ∧ d.number + 719468 < 2 ^ 63) ∧
    (-2 ^ 63 ≤ dayNumber d.year 1 1 ∧ dayNumber d.year 1 1 + 719468 < 2 ^ 63) ∧
      (-2 ^ 63 ≤ (monthStart d.year d.quarterStart d.quarterStart_le.1).number ∧
        (monthStart d.year d.quarterStart d.quarterStart_le.1).number + 719468 < 2 ^ 63) ↔ _
  rw [hquarter]
  omega

lemma dateObjFromCivil_of_fits {d : CivilDate} (h : CivilFits d) :
    ∃ v, dateObjFromCivil d = .ok v ∧
      v.fields.lookup "dayOfWeek" = some (int d.dayOfWeek) ∧
      v.fields.lookup "dayOfYear" = some (int d.dayOfYear) ∧
      v.fields.lookup "dayOfQuarter" = some (int d.dayOfQuarter) := by
  obtain ⟨hdays, hyear, hstart⟩ := h
  unfold dateObjFromCivil
  simp only [(daysFromCivil_yields _ _ _).value hdays, (daysFromCivil_yields _ _ _).value hyear,
    (daysFromCivil_yields _ _ _).value hstart]
  have hquarter := number_monthStart d.year d.quarterStart d.quarterStart_le.1
  have hday := d.number_eq
  have hsum := d.dayOfYear_eq_dayOfQuarter
  refine ⟨_, rfl, ?_, ?_, ?_⟩
  · -- The remainder of the division is made positive before the weekday of 1970 is added.
    have hrotate : ((dayNumber d.year d.month d.day).tmod 7 + 7 + 3).tmod 7 + 1 = d.dayOfWeek := by
      rw [dayOfWeek, ← number_eq_dayCount, number, Int.tmod_eq_emod_of_nonneg (by
        have := Int.lt_tmod_of_pos (dayNumber d.year d.month d.day) (show (0 : ℤ) < 7 by decide)
        omega), Int.tmod_eq_emod]
      split
      · omega
      · omega
    exact congrArg (fun i => some (int i)) hrotate
  · refine congrArg (fun i => some (int i)) ?_
    show d.number - dayNumber d.year 1 1 + 1 = d.dayOfYear
    omega
  · refine congrArg (fun i => some (int i)) ?_
    show d.number - (monthStart d.year d.quarterStart d.quarterStart_le.1).number + 1 =
        d.dayOfQuarter
    omega

/-- What is computed for a date counts days: the next date has the next number, and weekday, day of
the year and day of the quarter are the ones of the calendar. -/
structure Counted (d : CivilDate) : Prop where
  next : ∃ n, daysFromCivil d.year d.month d.day = .ok n ∧
    daysFromCivil d.next.year d.next.month d.next.day = .ok (n + 1)
  components : ∃ v, dateObjFromCivil d = .ok v ∧
    v.fields.lookup "dayOfWeek" = some (int d.dayOfWeek) ∧
    v.fields.lookup "dayOfYear" = some (int d.dayOfYear) ∧
    v.fields.lookup "dayOfQuarter" = some (int d.dayOfQuarter)

lemma lastDay_bounds : 1 ≤ 25 ∧ 25 ≤ daysInMonthCivil 25252734927766554 9 := by
  decide

lemma lastMonth_bounds : 1 ≤ 9 ∧ 9 ≤ 12 := by
  decide

/-- The date whose number is the last one that 64 bits hold before it is shifted. -/
def last : CivilDate := ⟨25252734927766554, 9, 25, lastMonth_bounds, lastDay_bounds⟩

lemma number_last : last.number + 719468 = 2 ^ 63 - 1 := by
  decide

/-- The dates from the first year on whose first day has a 64-bit number, up to the last date. -/
def InReach (d : CivilDate) : Prop := -25252734927764584 ≤ d.year ∧ d.cmp last = .lt

instance (d : CivilDate) : Decidable d.InReach := inferInstanceAs (Decidable (_ ∧ _))

lemma yearStart_fits_iff (year : ℤ) : -2 ^ 63 ≤ dayNumber year 1 1 ↔ -25252734927764584 ≤ year := by
  have hfirst : -2 ^ 63 ≤ dayNumber (-25252734927764584) 1 1 := by decide
  have hbefore : dayNumber (-25252734927764585) 1 1 < -2 ^ 63 := by decide
  refine ⟨fun h => ?_, fun h => hfirst.trans (dayNumber_newYear_mono h)⟩
  by_contra hlt
  have := dayNumber_newYear_mono (show year ≤ -25252734927764585 by omega)
  omega

lemma counted_iff (d : CivilDate) : d.Counted ↔ d.InReach := by
  have hyear := d.number_eq
  have hpos := d.dayOfYear_bounds.1
  have hlast := number_last
  unfold InReach
  rw [← yearStart_fits_iff, ← number_lt_iff]
  constructor
  · rintro ⟨⟨n, hn, hnext⟩, v, hv, -⟩
    -- The first of the year is counted for the ordinals, and the next day has its number.
    have hfits := (d.civilFits_iff).mp ((returns_dateObjFromCivil d).mp
      fun habort => nomatch hv.symm.trans habort)
    have hfit := (d.next.daysFromCivil_ok.mp hnext).2.2
    rw [number_next] at hfit
    exact ⟨hfits.1, by omega⟩
  · rintro ⟨hfirst, hlt⟩
    have hnext := d.number_next
    refine ⟨⟨d.number, d.daysFromCivil_ok.mpr ⟨rfl, by omega, by omega⟩,
      d.next.daysFromCivil_ok.mpr ⟨hnext.symm, by omega, by omega⟩⟩, ?_⟩
    exact dateObjFromCivil_of_fits (d.civilFits_iff.mpr ⟨hfirst, by omega⟩)

end CivilDate

/-- **Day numbers count days where they fit.** The first of January 1970 is day zero. A date has a
number, the next date the next number, and its object the ordinals of the calendar, iff the date is
in reach. Whatever numbers are computed are ordered as their dates. -/
theorem civilDates_counted_iff (d : CivilDate) :
    daysFromCivil 1970 1 1 = .ok 0 ∧
      (d.Counted ↔ d.InReach) ∧
      ∀ (d' : CivilDate) (n n' : ℤ), daysFromCivil d.year d.month d.day = .ok n →
        daysFromCivil d'.year d'.month d'.day = .ok n' →
          (n < n' ↔ d.cmp d' = .lt) ∧ (n = n' ↔ d = d') := by
  refine ⟨by decide, d.counted_iff, fun d' n n' hn hn' => ?_⟩
  obtain ⟨rfl, -⟩ := d.daysFromCivil_ok.mp hn
  obtain ⟨rfl, -⟩ := d'.daysFromCivil_ok.mp hn'
  exact ⟨CivilDate.number_lt_iff, CivilDate.number_injective.eq_iff⟩

lemma newYear_bounds : 1 ≤ 1 ∧ 1 ≤ daysInMonthCivil 30000000000000000 1 := by
  decide

/-- The first of January of a year of seventeen digits. -/
def farNewYear : CivilDate :=
  ⟨30000000000000000, 1, 1, first_month_bounds, newYear_bounds⟩

/-- The number of a date far away leaves 64 bits. -/
theorem farNewYear_not_counted :
    daysFromCivil farNewYear.year farNewYear.month farNewYear.day = .error .abort ∧
      dateObjFromCivil farNewYear = .error .abort ∧ ¬farNewYear.Counted := by
  have habort : daysFromCivil farNewYear.year farNewYear.month farNewYear.day = .error .abort := by
    decide
  refine ⟨habort, ?_, fun h => ?_⟩
  · unfold dateObjFromCivil
    rw [habort]
    rfl
  · obtain ⟨n, hn, -⟩ := h.next
    exact nomatch habort.symm.trans hn

lemma leapDay_bounds : (1 ≤ 2 ∧ 2 ≤ 12) ∧ (1 ≤ 28 ∧ 28 ≤ daysInMonthCivil 2024 2) ∧
    1 ≤ 29 ∧ 29 ≤ daysInMonthCivil 2024 2 := by
  decide

/-- A leap day is the day after the one before it. -/
theorem civilDates_counted_iff_leapDay :
    let eve : CivilDate := ⟨2024, 2, 28, leapDay_bounds.1, leapDay_bounds.2.1⟩
    let leap : CivilDate := ⟨2024, 2, 29, leapDay_bounds.1, leapDay_bounds.2.2⟩
    eve.Counted ∧ eve.next = leap ∧ ((19781 : ℤ) < 19782 ↔ eve.cmp leap = .lt) := by
  refine ⟨(civilDates_counted_iff _).2.1.mpr ⟨by decide, by decide⟩, rfl, ?_⟩
  exact ((civilDates_counted_iff _).2.2 _ 19781 19782 (by decide) (by decide)).1

end IssunDB.Temporal
