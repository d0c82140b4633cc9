import Mathlib.Tactic.IntervalCases
import IssunDB.Temporal.Calendar

/-!
# Quarters of the calendar

The quarters of all years follow each other without gaps, so that a date lies in the quarter whose
days its number falls into (`quarter_of_number`).
-/

namespace IssunDB.Temporal

/-- The day number of the first day of a quarter, counted from zero. -/
def quarterNumber (year : ℤ) (q : ℕ) : ℤ := dayNumber year (3 * q + 1) 1

def quarterLength (year : ℤ) (q : ℕ) : ℤ :=
  match q with
  | 0 => if isLeapCivil year then 91 else 90
  | 1 => 91
  | _ => 92

def NaiveDate.quarterIndex (d : NaiveDate) : ℕ := (d.month - 1) / 3

lemma NaiveDate.quarterIndex_lt (d : NaiveDate) : d.quarterIndex < 4 := by
  have h := d.month_bounds
  unfold quarterIndex
  omega

lemma quarterLength_bounds (year : ℤ) (q : ℕ) :
    90 ≤ quarterLength year q ∧ quarterLength year q ≤ 92 := by
  unfold quarterLength
  split
  · split <;> omega
  · omega
  · omega

lemma isLeapCivil_iff (year : ℤ) :
    isLeapCivil year = true ↔ (year % 4 = 0 ∧ year % 100 ≠ 0) ∨ year % 400 = 0 := by
  simp [isLeapCivil]

def yearDays (year : ℤ) : ℤ := 365 * year + year / 4 - year / 100 + year / 400

def monthDays (month day : ℕ) : ℤ := (153 * ((month + 9) % 12 : ℕ) + 2) / 5 + day - 1

lemma dayNumber_eq (year : ℤ) (month day : ℕ) :
    dayNumber year month day =
      yearDays (if month ≤ 2 then year - 1 else year) + monthDays month day - 719468 := by
  have hdays : ∀ y : ℤ, y / 400 * 146097 + (y % 400 * 365 + y % 400 / 4 - y % 400 / 100) =
      yearDays y := by
    intro y
    unfold yearDays
    omega
  rw [← hdays]
  unfold dayNumber monthDays
  ring

lemma yearDays_sub_one (year : ℤ) :
    yearDays year = yearDays (year - 1) + if isLeapCivil year then 366 else 365 := by
  have hleap := isLeapCivil_iff year
  unfold yearDays
  rcases hl : isLeapCivil year with _ | _
  · rw [hl] at hleap
    have hyear := mt hleap.mpr Bool.false_ne_true
    simp only [Bool.false_eq_true, if_false]
    omega
  · have hyear := hleap.mp hl
    simp only [if_true]
    omega

lemma yearDays_mono {y y' : ℤ} (h : y ≤ y') : yearDays y ≤ yearDays y' := by
  unfold yearDays
  omega

/-- A quarter of a year ends where the next one begins. -/
theorem quarterNumber_succ {year : ℤ} {q : ℕ} (h : q < 3) :
    quarterNumber year (q + 1) = quarterNumber year q + quarterLength year q := by
  unfold quarterNumber
  rw [dayNumber_eq, dayNumber_eq]
  rcases q with _ | _ | _ | q
  · -- The first quarter lies before March.
    show yearDays year + 31 - 719468 = yearDays (year - 1) + 306 - 719468 + quarterLength year 0
    rw [yearDays_sub_one, quarterLength]
    split
    · omega
    · omega
  · show yearDays year + 122 - 719468 = yearDays year + 31 - 719468 + 91
    omega
  · show yearDays year + 214 - 719468 = yearDays year + 122 - 719468 + 92
    omega
  · omega

lemma quarterNumber_newYear (year : ℤ) :
    quarterNumber (year + 1) 0 = quarterNumber year 3 + quarterLength year 3 := by
  unfold quarterNumber
  rw [dayNumber_eq, dayNumber_eq]
  show yearDays (year + 1 - 1) + 306 - 719468 = yearDays year + 214 - 719468 + 92
  rw [Int.add_sub_cancel]
  omega

lemma quarterNumber_mono {year : ℤ} {q q' : ℕ} (h : q ≤ q') (hq' : q' < 4) :
    quarterNumber year q ≤ quarterNumber year q' := by
  induction q', h using Nat.le_induction with
  | base => exact le_refl _
  | succ r hr ih =>
    have hlen := quarterLength_bounds year r
    rw [quarterNumber_succ (by omega)]
    have hle := ih (by omega)
    omega

/-- A quarter ends before a later one begins. -/
theorem quarterNumber_add_length_le {y y' : ℤ} {q q' : ℕ} (hq : q < 4) (hq' : q' < 4)
    (h : y < y' ∨ (y = y' ∧ q < q')) : quarterNumber y q + quarterLength y q ≤
      quarterNumber y' q' := by
  rcases h with hlt | ⟨rfl, hlt⟩
  · -- The year ends first, then the years between pass.
    have hyear : quarterNumber y q + quarterLength y q ≤ quarterNumber (y + 1) 0 := by
      rw [quarterNumber_newYear]
      rcases Nat.lt_or_ge q 3 with hq3 | hq3
      · rw [← quarterNumber_succ hq3]
        have hmono := @quarterNumber_mono y (q + 1) 3 (by omega) (by omega)
        have hlen := quarterLength_bounds y 3
        omega
      · obtain rfl : q = 3 := by omega
        exact le_refl _
    have hyears : quarterNumber (y + 1) 0 ≤ quarterNumber y' 0 := by
      unfold quarterNumber
      rw [dayNumber_eq, dayNumber_eq]
      have hmono := @yearDays_mono (y + 1 - 1) (y' - 1) (by omega)
      show yearDays (y + 1 - 1) + 306 - 719468 ≤ yearDays (y' - 1) + 306 - 719468
      omega
    exact (hyear.trans hyears).trans (quarterNumber_mono (Nat.zero_le q') hq')
  · rw [← quarterNumber_succ (by omega)]
    exact quarterNumber_mono hlt hq'

lemma number_in_quarter (d : NaiveDate) :
    quarterNumber d.year d.quarterIndex ≤ d.number ∧
      d.number < quarterNumber d.year d.quarterIndex + quarterLength d.year d.quarterIndex := by
  obtain ⟨⟨year, month, day, ⟨hmlow, hmhigh⟩, hdlow, hdhigh⟩, hrange⟩ := d
  show quarterNumber year ((month - 1) / 3) ≤ dayNumber year month day ∧ dayNumber year month day <
    quarterNumber year ((month - 1) / 3) + quarterLength year ((month - 1) / 3)
  unfold quarterNumber
  rw [dayNumber_eq, dayNumber_eq]
  have hyear := yearDays_sub_one year
  -- The days of each month lie between the ends of its quarter.
  rcases hl : isLeapCivil year with _ | _
  all_goals
    rw [hl] at hyear
    interval_cases month
  all_goals
    simp only [daysInMonthCivil, quarterLength, monthDays, hl, if_true, Bool.false_eq_true,
      if_false] at hdhigh hyear ⊢
    norm_num at hdhigh ⊢
    omega

theorem quarter_of_number {d : NaiveDate} {year : ℤ} {q : ℕ} (hq : q < 4)
    (hlow : quarterNumber year q ≤ d.number)
    (hhigh : d.number < quarterNumber year q + quarterLength year q) :
    d.year = year ∧ d.quarterIndex = q := by
  obtain ⟨hdlow, hdhigh⟩ := number_in_quarter d
  have hlt := d.quarterIndex_lt
  rcases lt_trichotomy d.year year with hyear | hyear | hyear
  · have hle := quarterNumber_add_length_le hlt hq (.inl hyear)
    omega
  · refine ⟨hyear, ?_⟩
    rcases lt_trichotomy d.quarterIndex q with hindex | hindex | hindex
    · have hle := quarterNumber_add_length_le hlt hq (.inr ⟨hyear, hindex⟩)
      omega
    · exact hindex
    · have hle := quarterNumber_add_length_le hq hlt (.inr ⟨hyear.symm, hindex⟩)
      omega
  · have hle := quarterNumber_add_length_le hq hlt (.inl hyear)
    omega

lemma quarterIndex_ne_of_after {d : NaiveDate} {year : ℤ} {q : ℕ} (hq : q < 4)
    (hlow : quarterNumber year q + quarterLength year q ≤ d.number)
    (hhigh : d.number < quarterNumber year q + 92) : d.quarterIndex ≠ q := by
  have hlen := quarterLength_bounds year q
  rcases Nat.lt_or_ge q 3 with hq3 | hq3
  · have hnext := @quarterNumber_succ year q hq3
    have hnextLen := quarterLength_bounds year (q + 1)
    have h := (@quarter_of_number d year (q + 1) (by omega) (by omega) (by omega)).2
    omega
  · obtain rfl : q = 3 := by omega
    have hnext := quarterNumber_newYear year
    have hnextLen := quarterLength_bounds (year + 1) 0
    have h := (@quarter_of_number d (year + 1) 0 (by omega) (by omega) (by omega)).2
    omega

end IssunDB.Temporal
