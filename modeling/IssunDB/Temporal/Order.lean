import IssunDB.Cypher.Ordering
import IssunDB.Temporal.Calendar
import IssunDB.Temporal.Values

/-!
# How temporal values compare

Temporal values of one type are equal and ordered by their sort keys, which are texts.

* The key of a duration shows the magnitudes of its parts, so that durations that differ only in
  signs are equal (`cypherEq_durations`).
* The key of a date begins with its year. A sign is below the digits and `+` below `-`, and years
  beyond four digits are not zeroPadded (`compare_yearText`). The two builders of a local date and
  time write a fraction that is zero differently (`compare_clockText_iff`).

`compare_iff_denotes` says of every pair of values when they compare like what they denote.
-/

namespace IssunDB.Temporal

open List Option Texts Cypher

section Objects

variable {typeName : String} {fields fields' : List (String × Json)} {s s' k k' : List Char}

lemma jsonCmp_temporalObj :
    jsonCmp (temporalObj typeName fields s k) (temporalObj typeName fields' s' k') =
      some (compare k k') := by
  rw [temporalObj, temporalObj, jsonCmp, objectCmp_eq_some]
  exact ⟨typeName, _, _, rfl, rfl, rfl, rfl, compare_ofList k k'⟩

lemma cypherEq_temporalObj (h : typeName ≠ "__NaN__") :
    cypherEq (temporalObj typeName fields s k) (temporalObj typeName fields' s' k') =
      some (decide (k = k')) := by
  have hnan : ∀ {f s k}, isNan (temporalObj typeName f s k) = false := by
    intro f s k
    rw [Bool.eq_false_iff, Ne, temporalObj, isNan_object]
    exact fun htag => h (some.inj htag)
  rw [temporalObj, temporalObj, cypherEq_objects hnan hnan, if_pos (.inl rfl)]
  show some (if some typeName = some typeName then decide (String.ofList k = String.ofList k')
      else _) = _
  rw [if_pos rfl]
  simp only [String.ofList_inj]

end Objects

/-! ## Years -/

def yearWidth (year : ℤ) : ℕ := max 4 (width year.natAbs)

/-- The text of a year is below that of a later one. -/
def YearsSort (y y' : ℤ) : Prop :=
  (y ≤ 9999 ∧ 0 ≤ y' ∧ y' ≤ 9999) ∨
    (9999 < y ∧ y.natAbs * 10 ^ (yearWidth y' - yearWidth y) ≤ y'.natAbs) ∨
    (y' < 0 ∧ y.natAbs < y'.natAbs * 10 ^ (yearWidth y - yearWidth y'))

lemma zeroPadded_eq_digits_yearWidth (y : ℤ) :
    zeroPadded 4 y.natAbs = digits (yearWidth y) y.natAbs :=
  zeroPadded_eq_digits 4 y.natAbs

lemma natAbs_lt_pow_yearWidth (y : ℤ) : y.natAbs < 10 ^ yearWidth y :=
  lt_of_lt_of_le (lt_pow_width y.natAbs) (Nat.pow_le_pow_right (by decide) (le_max_right 4 _))

variable {y y' : ℤ} {d d' : CivilDate} {typeName : String}

lemma yearWidth_mono (h : y.natAbs ≤ y'.natAbs) : yearWidth y ≤ yearWidth y' := by
  have hpow : y.natAbs < 10 ^ yearWidth y' := lt_of_le_of_lt h (natAbs_lt_pow_yearWidth y')
  have hpos : 0 < yearWidth y' := by
    unfold yearWidth
    omega
  have hle : width y.natAbs ≤ yearWidth y' := (width_le_iff hpos).mpr hpow
  exact max_le (le_max_left 4 _) hle

/-- Digits of two magnitudes, with a dash after them. -/
theorem compare_magnitudes (h : y.natAbs < y'.natAbs) (r r' : List Char) :
    compare (zeroPadded 4 y.natAbs ++ '-' :: r) (zeroPadded 4 y'.natAbs ++ '-' :: r') =
      if y.natAbs * 10 ^ (yearWidth y' - yearWidth y) ≤ y'.natAbs then .lt else .gt := by
  rw [zeroPadded_eq_digits_yearWidth, zeroPadded_eq_digits_yearWidth]
  rcases Nat.lt_or_eq_of_le (yearWidth_mono h.le) with hlt | heq
  · exact compare_digits_of_lt hlt (natAbs_lt_pow_yearWidth y) (natAbs_lt_pow_yearWidth y')
      (by decide) r _
  · have hpow : y.natAbs < 10 ^ yearWidth y' := heq ▸ natAbs_lt_pow_yearWidth y
    rw [heq, compare_append (by rw [length_digits, length_digits]),
      compare_digits hpow (natAbs_lt_pow_yearWidth y'), Nat.compare_eq_lt.mpr h, Nat.sub_self,
      Nat.pow_zero, Nat.mul_one, if_pos h.le]
    rfl

lemma compare_digit_sign {y : ℤ} (h : 0 ≤ y ∧ y ≤ 9999) {sign : Char}
    (hsign : sign = '+' ∨ sign = '-') (r r' : List Char) :
    compare (yearText y ++ r) (sign :: r') = .gt := by
  have hlt : y.natAbs < 10 ^ 4 := by norm_num; omega
  have htext : yearText y = digits 4 y.natAbs := by
    rw [yearText, if_pos h, zeroPadded_of_lt (by decide) hlt]
  have hdigit : compare (y.natAbs / 10 ^ 3 % 10).digitChar sign = .gt := by
    have hplus : ∀ d < 10, compare (Nat.digitChar d) '+' = .gt := by decide
    have hminus : ∀ d < 10, compare (Nat.digitChar d) '-' = .gt := by decide
    have hlast : y.natAbs / 10 ^ 3 % 10 < 10 := Nat.mod_lt _ (by decide)
    rcases hsign with rfl | rfl
    · exact hplus _ hlast
    · exact hminus _ hlast
  rw [htext, digits, cons_append, compare_cons, hdigit]
  rfl

lemma yearText_of_neg {y : ℤ} (h : y < 0) : yearText y = '-' :: zeroPadded 4 y.natAbs := by
  rw [yearText, if_neg (by omega), if_pos h]

lemma yearText_of_gt {y : ℤ} (h : 9999 < y) : yearText y = '+' :: zeroPadded 4 y.natAbs := by
  rw [yearText, if_neg (by omega), if_neg (by omega)]

theorem compare_yearText (h : y < y') (r r' : List Char) [Decidable (YearsSort y y')] :
    compare (yearText y ++ '-' :: r) (yearText y' ++ '-' :: r') =
      if YearsSort y y' then .lt else .gt := by
  by_cases hsmall' : 0 ≤ y' ∧ y' ≤ 9999
  · by_cases hsmall : 0 ≤ y ∧ y ≤ 9999
    · -- four digits each
      have hn : y.natAbs < 10 ^ 4 := by norm_num; omega
      have hn' : y'.natAbs < 10 ^ 4 := by norm_num; omega
      rw [if_pos (.inl ⟨hsmall.2, hsmall'⟩), yearText, if_pos hsmall, yearText, if_pos hsmall',
        zeroPadded_of_lt (by decide) hn, zeroPadded_of_lt (by decide) hn',
        compare_append (by rw [length_digits, length_digits]), compare_digits hn hn',
        Nat.compare_eq_lt.mpr (by omega)]
      rfl
    · -- a sign below the digits
      have hneg : y < 0 := by omega
      have hcmp :=
        compare_digit_sign hsmall' (.inr rfl) ('-' :: r') (zeroPadded 4 y.natAbs ++ '-' :: r)
      rw [if_pos (.inl ⟨by omega, hsmall'⟩), yearText_of_neg hneg, Std.OrientedOrd.eq_swap,
        cons_append, hcmp]
      rfl
  by_cases hneg' : y' < 0
  · -- two years before zero: the magnitudes are the other way round
    have hneg : y < 0 := h.trans hneg'
    have hmag : y'.natAbs < y.natAbs := by omega
    rw [yearText_of_neg hneg, yearText_of_neg hneg', cons_append, cons_append, compare_cons,
      Std.ReflOrd.compare_self, Ordering.eq_then, Std.OrientedOrd.eq_swap, compare_magnitudes hmag]
    have hiff : YearsSort y y' ↔ ¬ y'.natAbs * 10 ^ (yearWidth y - yearWidth y') ≤ y.natAbs := by
      unfold YearsSort
      omega
    by_cases hsort : YearsSort y y'
    · rw [if_pos hsort, if_neg (hiff.mp hsort)]
      rfl
    · rw [if_neg hsort, if_pos (not_not.mp (fun hle => hsort (hiff.mpr hle)))]
      rfl
  have hbig' : 9999 < y' := by omega
  by_cases hbig : 9999 < y
  · have hmag : y.natAbs < y'.natAbs := by omega
    rw [yearText_of_gt hbig, yearText_of_gt hbig', cons_append, cons_append, compare_cons,
      Std.ReflOrd.compare_self, Ordering.eq_then, compare_magnitudes hmag]
    have hiff : YearsSort y y' ↔ y.natAbs * 10 ^ (yearWidth y' - yearWidth y) ≤ y'.natAbs := by
      unfold YearsSort
      omega
    simp only [hiff]
  · -- `+` is below the digits and below `-`
    have hnot : ¬ YearsSort y y' := by
      unfold YearsSort
      omega
    rw [if_neg hnot, yearText_of_gt hbig', cons_append]
    by_cases hneg : y < 0
    · rw [yearText_of_neg hneg, cons_append, compare_cons]
      rfl
    · exact compare_digit_sign ⟨by omega, by omega⟩ (.inl rfl) _ _

/-! ## Dates -/

def dateText (d : CivilDate) : List Char :=
  yearText d.year ++ '-' :: (two d.month ++ '-' :: two d.day)

lemma compare_two {m n : ℕ} (hm : m < 100) (hn : n < 100) (r r' : List Char) :
    compare (two m ++ r) (two n ++ r') = (compare m n).then (compare r r') := by
  have hm' : m < 10 ^ 2 := hm
  have hn' : n < 10 ^ 2 := hn
  rw [two, two, zeroPadded_of_lt (by decide) hm', zeroPadded_of_lt (by decide) hn',
    compare_append (by rw [length_digits, length_digits]), compare_digits hm' hn']

lemma compare_same (c : Char) (r r' : List Char) : compare (c :: r) (c :: r') = compare r r' := by
  rw [compare_cons, Std.ReflOrd.compare_self, Ordering.eq_then]

lemma CivilDate.lt_hundred (d : CivilDate) : d.month < 100 ∧ d.day < 100 := by
  have hmonth := d.month_bounds
  have hday := d.day_bounds
  have hle := daysInMonthCivil_le d.year d.month
  omega

/-- Whether the text of the earlier of two years is below that of the later one. -/
def YearsInOrder (y y' : ℤ) : Prop := (y < y' → YearsSort y y') ∧ (y' < y → YearsSort y' y)

lemma compare_dateText (h : YearsInOrder d.year d'.year) (r r' : List Char) :
    compare (dateText d ++ r) (dateText d' ++ r') = (d.cmp d').then (compare r r') := by
  classical
  obtain ⟨hm, hd⟩ := d.lt_hundred
  obtain ⟨hm', hd'⟩ := d'.lt_hundred
  simp only [dateText, append_assoc, cons_append, CivilDate.cmp]
  rcases Int.lt_trichotomy d.year d'.year with hlt | heq | hgt
  · rw [compare_yearText hlt, if_pos (h.1 hlt), Int.compare_eq_lt.mpr hlt]
    rfl
  · rw [heq, compare_append rfl, Std.ReflOrd.compare_self, Std.ReflOrd.compare_self,
      Ordering.eq_then,
      Ordering.eq_then, compare_same, compare_two hm hm', compare_same, compare_two hd hd',
      Ordering.then_assoc]
  · rw [Int.compare_eq_gt.mpr hgt, Std.OrientedOrd.eq_swap, compare_yearText hgt, if_pos (h.2 hgt)]
    rfl

lemma compare_dateText_ne (h : ¬ YearsInOrder d.year d'.year) (r r' : List Char) (o : Ordering) :
    compare (dateText d ++ r) (dateText d' ++ r') ≠ (d.cmp d').then o := by
  classical
  simp only [dateText, append_assoc, cons_append, CivilDate.cmp]
  rcases Int.lt_trichotomy d.year d'.year with hlt | heq | hgt
  · have hsort : ¬ YearsSort d.year d'.year := fun hsort =>
      h ⟨fun _ => hsort, fun hgt => absurd hgt hlt.asymm⟩
    rw [compare_yearText hlt, if_neg hsort, Int.compare_eq_lt.mpr hlt]
    exact fun h => nomatch h
  · rw [heq] at h
    exact absurd ⟨fun hlt => absurd hlt (lt_irrefl _), fun hlt => absurd hlt (lt_irrefl _)⟩ h
  · have hsort : ¬ YearsSort d'.year d.year := fun hsort =>
      h ⟨fun hlt => absurd hlt hgt.asymm, fun _ => hsort⟩
    rw [Int.compare_eq_gt.mpr hgt, Std.OrientedOrd.eq_swap, compare_yearText hgt, if_neg hsort]
    exact fun h => nomatch h

/-! ## Clocks -/

/-- A clock text, with the fraction unless it is zero and `plain`. -/
def clockText (plain : Bool) (t : NaiveTime) : List Char :=
  two t.hour ++ ':' :: (two t.minute ++ ':' :: (two t.shownSecond ++
    if plain ∧ t.nanosecond = 0 then [] else '.' :: zeroPadded 9 t.shownNanosecond))

lemma NaiveTime.shown (t : NaiveTime) :
    (t.second * 10 ^ 9 + t.nanosecond) / 10 ^ 9 = t.shownSecond ∧
      (t.second * 10 ^ 9 + t.nanosecond) % 10 ^ 9 = t.shownNanosecond := by
  unfold NaiveTime.shownSecond NaiveTime.shownNanosecond
  omega

lemma compare_shown (t t' : NaiveTime) :
    (compare t.second t'.second).then (compare t.nanosecond t'.nanosecond) =
      (compare t.shownSecond t'.shownSecond).then
      (compare t.shownNanosecond t'.shownNanosecond) := by
  -- Both are the order of the nanoseconds since the minute began.
  have hlt := t.second_lt
  have hlt' := t'.second_lt
  have hnano := t.nanosecond_lt
  have hnano' := t'.nanosecond_lt
  have htotal :=
    compare_div_mod (t.second * 10 ^ 9 + t.nanosecond) (t'.second * 10 ^ 9 + t'.nanosecond)
    (show 0 < 10 ^ 9 by decide)
  rw [t.shown.1, t.shown.2, t'.shown.1, t'.shown.2] at htotal
  rw [← htotal]
  rcases Nat.lt_trichotomy t.second t'.second with h | h | h
  · rw [Nat.compare_eq_lt.mpr h]
    exact (Nat.compare_eq_lt.mpr (by omega)).symm
  · rw [h, Std.ReflOrd.compare_self, Ordering.eq_then]
    rcases Nat.lt_trichotomy t.nanosecond t'.nanosecond with h' | h' | h'
    · rw [Nat.compare_eq_lt.mpr h', Nat.compare_eq_lt.mpr (by omega)]
    · rw [h', Std.ReflOrd.compare_self, Std.ReflOrd.compare_self]
    · rw [Nat.compare_eq_gt.mpr h', Nat.compare_eq_gt.mpr (by omega)]
  · rw [Nat.compare_eq_gt.mpr h]
    exact (Nat.compare_eq_gt.mpr (by omega)).symm

def fractionText (plain : Bool) (t : NaiveTime) : List Char :=
  if plain ∧ t.nanosecond = 0 then [] else '.' :: zeroPadded 9 t.shownNanosecond

lemma compare_fractionText {plain plain' : Bool} {t t' : NaiveTime}
    (h : t.shownSecond = t'.shownSecond) :
    compare (fractionText plain t) (fractionText plain' t') =
        compare t.shownNanosecond t'.shownNanosecond ↔
      ¬ (t.nanosecond = 0 ∧ t'.nanosecond = 0 ∧ plain ≠ plain') := by
  have hnano : t.shownNanosecond < 10 ^ 9 := Nat.mod_lt _ (by decide)
  have hnano' : t'.shownNanosecond < 10 ^ 9 := Nat.mod_lt _ (by decide)
  -- A clock at a whole second that is no leap second shows another second than a leap second.
  have hzero : ∀ {t t' : NaiveTime}, t.shownSecond = t'.shownSecond → t.nanosecond = 0 →
      t'.nanosecond ≠ 0 → compare t.shownNanosecond t'.shownNanosecond = .lt := by
    intro t t' h h0 h0'
    have hsecond := t.second_lt
    have hleap := t'.nanosecond_lt
    rw [Nat.compare_eq_lt]
    unfold NaiveTime.shownSecond at h
    unfold NaiveTime.shownNanosecond
    omega
  unfold fractionText
  split
  next hplain =>
    split
    next hplain' =>
      refine iff_of_true ?_ fun hnot => hnot.2.2 (hplain.1.trans hplain'.1.symm)
      unfold NaiveTime.shownNanosecond
      rw [hplain.2, hplain'.2]
      rfl
    next hplain' =>
      show Ordering.lt = _ ↔ _
      by_cases h0' : t'.nanosecond = 0
      · refine iff_of_false ?_ fun hnot => hnot ⟨hplain.2, h0', fun heq => ?_⟩
        · unfold NaiveTime.shownNanosecond
          rw [hplain.2, h0']
          exact fun hlt => nomatch hlt
        · exact hplain' ⟨heq ▸ hplain.1, h0'⟩
      · exact iff_of_true (hzero h hplain.2 h0').symm fun hnot => h0' hnot.2.1
  next hplain =>
    split
    next hplain' =>
      show Ordering.gt = _ ↔ _
      by_cases h0 : t.nanosecond = 0
      · refine iff_of_false ?_ fun hnot => hnot ⟨h0, hplain'.2, fun heq => ?_⟩
        · unfold NaiveTime.shownNanosecond
          rw [hplain'.2, h0]
          exact fun hlt => nomatch hlt
        · exact hplain ⟨heq ▸ hplain'.1, h0⟩
      · refine iff_of_true ?_ fun hnot => h0 hnot.1
        rw [Std.OrientedOrd.eq_swap, hzero h.symm hplain'.2 h0]
        rfl
    next hplain' =>
      refine iff_of_true ?_ fun hnot => ?_
      · rw [compare_same, zeroPadded_of_lt (by decide) hnano, zeroPadded_of_lt (by decide) hnano',
          compare_digits hnano hnano']
      · obtain ⟨h0, h0', hne⟩ := hnot
        cases plain <;> cases plain'
        · exact hne rfl
        · exact hplain' ⟨rfl, h0'⟩
        · exact hplain ⟨rfl, h0⟩
        · exact hne rfl

lemma compare_clockText (plain plain' : Bool) (t t' : NaiveTime) :
    compare (clockText plain t) (clockText plain' t') =
      (compare t.hour t'.hour).then ((compare t.minute t'.minute).then
        ((compare t.shownSecond t'.shownSecond).then
          (compare (fractionText plain t) (fractionText plain' t')))) := by
  have hbounds : ∀ t : NaiveTime, t.hour < 100 ∧ t.minute < 100 ∧ t.shownSecond < 100 := by
    intro t
    have hhour := t.hour_lt
    have hminute := t.minute_lt
    have hsecond := t.second_lt
    have hnano := t.nanosecond_lt
    unfold NaiveTime.shownSecond
    omega
  obtain ⟨hh, hm, hs⟩ := hbounds t
  obtain ⟨hh', hm', hs'⟩ := hbounds t'
  rw [clockText, clockText, compare_two hh hh', compare_same, compare_two hm hm', compare_same,
    compare_two hs hs']
  rfl

theorem compare_clockText_iff (plain plain' : Bool) (t t' : NaiveTime) :
    compare (clockText plain t) (clockText plain' t') = t.cmp t' ↔
      ¬ (t = t' ∧ t.nanosecond = 0 ∧ plain ≠ plain') := by
  rw [compare_clockText, NaiveTime.cmp, compare_shown]
  by_cases hsame : t.hour = t'.hour ∧ t.minute = t'.minute ∧ t.shownSecond = t'.shownSecond
  · obtain ⟨hh, hm, hs⟩ := hsame
    rw [hh, hm, hs]
    simp only [Std.ReflOrd.compare_self, Ordering.eq_then]
    rw [compare_fractionText hs, not_iff_not]
    constructor
    · rintro ⟨h0, h0', hne⟩
      unfold NaiveTime.shownSecond at hs
      rw [h0, h0'] at hs
      exact ⟨NaiveTime.ext hh hm (by omega) (h0.trans h0'.symm), h0, hne⟩
    · rintro ⟨rfl, h0, hne⟩
      exact ⟨h0, h0, hne⟩
  · refine iff_of_true ?_ fun hnot => hsame (by rw [hnot.1]; exact ⟨rfl, rfl, rfl⟩)
    by_cases hh : t.hour = t'.hour
    · by_cases hm : t.minute = t'.minute
      · have hs : compare t.shownSecond t'.shownSecond ≠ .eq := fun heq =>
          hsame ⟨hh, hm, Nat.compare_eq_eq.mp heq⟩
        cases hcmp : compare t.shownSecond t'.shownSecond with
        | eq => exact absurd hcmp hs
        | lt => rfl
        | gt => rfl
      · have hm' : compare t.minute t'.minute ≠ .eq := fun heq => hm (Nat.compare_eq_eq.mp heq)
        cases hcmp : compare t.minute t'.minute with
        | eq => exact absurd hcmp hm'
        | lt => rfl
        | gt => rfl
    · have hh' : compare t.hour t'.hour ≠ .eq := fun heq => hh (Nat.compare_eq_eq.mp heq)
      cases hcmp : compare t.hour t'.hour with
      | eq => exact absurd hcmp hh'
      | lt => rfl
      | gt => rfl

/-! ## Durations -/

/-- The parts that a duration is built from. -/
structure DurationParts where
  months : I64
  days : I64
  seconds : I64
  nanos : I64

namespace DurationParts

/-- The duration of the parts. -/
def obj (a : DurationParts) : Json := durationObj a.months a.days a.seconds a.nanos

/-- The time part in nanoseconds. -/
def totalNanos (a : DurationParts) : ℤ := a.seconds.1 * 1000000000 + a.nanos.1

/-- What the parts denote: months, days, seconds, and nanoseconds of a second. -/
def normalized (a : DurationParts) : ℤ × ℤ × ℤ × ℤ :=
  (a.months.1, a.days.1, a.totalNanos / 1000000000, a.totalNanos % 1000000000)

/-- The parts have the same magnitudes and not all the same signs. -/
def OnlySignsDiffer (a b : DurationParts) : Prop :=
  (|a.months.1| = |b.months.1| ∧ |a.days.1| = |b.days.1| ∧ |a.totalNanos| = |b.totalNanos|) ∧
    ¬ (a.months.1 = b.months.1 ∧ a.days.1 = b.days.1 ∧ a.totalNanos = b.totalNanos)

end DurationParts

/-- A character of an integer. -/
def isIntChar (c : Char) : Bool := c.isDigit || c = '-'

lemma readable_paddedInt (w : ℕ) : Readable isIntChar (zeroPaddedInt w) := by
  refine .of_words (fun i c hc => ?_) fun i j h => ?_
  · unfold zeroPaddedInt at hc
    split at hc
    next =>
      rcases mem_cons.mp hc with rfl | hc
      · rfl
      · rw [isIntChar, isDigit_of_mem_zeroPadded hc, Bool.true_or]
    next => rw [isIntChar, isDigit_of_mem_zeroPadded hc, Bool.true_or]
  · have hsign : ∀ v m n, '-' :: zeroPadded v m ≠ zeroPadded w n := by
      intro v m n h
      have hdigit := isDigit_of_mem_zeroPadded (h ▸ mem_cons_self : '-' ∈ zeroPadded w n)
      exact absurd hdigit (by decide)
    unfold zeroPaddedInt at h
    split at h <;> split at h
    · have := zeroPadded_injective _ (List.cons.inj h).2
      omega
    · exact absurd h (hsign _ _ _)
    · exact absurd h.symm (hsign _ _ _)
    · have := zeroPadded_injective _ h
      omega

lemma toI64_inj {x y : ℤ} (hx : 0 ≤ x ∧ x < 2 ^ 64) (hy : 0 ≤ y ∧ y < 2 ^ 64) :
    (toI64 x).1 = (toI64 y).1 ↔ x = y := by
  refine ⟨fun h => ?_, fun h => by rw [h]⟩
  replace h : x.bmod (2 ^ 64) = y.bmod (2 ^ 64) := h
  unfold Int.bmod at h
  norm_num at h hx hy
  split at h <;> split at h <;> omega

/-- Quotients and remainders show the magnitude. -/
theorem abs_tdiv_tmod_iff {m n : ℤ} :
    |m.tdiv 12| = |n.tdiv 12| ∧ |m.tmod 12| = |n.tmod 12| ↔ |m| = |n| := by
  simp only [Int.abs_eq_natAbs, Int.natAbs_tdiv, Int.natAbs_tmod, Int.natCast_inj]
  show m.natAbs / 12 = n.natAbs / 12 ∧ m.natAbs % 12 = n.natAbs % 12 ↔ _
  omega

lemma clock_iff {x y : ℤ} : (x.tdiv 3600 = y.tdiv 3600 ∧
    (x.tmod 3600).tdiv 60 = (y.tmod 3600).tdiv 60 ∧ x.tmod 60 = y.tmod 60) ↔ x = y := by
  refine ⟨fun ⟨hh, hm, hs⟩ => ?_, fun h => by rw [h]; exact ⟨rfl, rfl, rfl⟩⟩
  have hx := Int.mul_tdiv_add_tmod x 3600
  have hy := Int.mul_tdiv_add_tmod y 3600
  have hx' := Int.mul_tdiv_add_tmod (x.tmod 3600) 60
  have hy' := Int.mul_tdiv_add_tmod (y.tmod 3600) 60
  rw [Int.tmod_tmod_of_dvd _ (by decide)] at hx' hy'
  rw [← hx, ← hy, ← hx', ← hy', hh, hm, hs]

/-- Durations have the same key just when their parts have the same magnitudes. -/
theorem durationKey_eq_iff {a b : DurationParts} :
    durationKey a.months a.days a.seconds a.nanos = durationKey b.months b.days b.seconds b.nanos ↔
      |a.months.1| = |b.months.1| ∧ |a.days.1| = |b.days.1| ∧ |a.totalNanos| = |b.totalNanos| := by
  have hdays : (absI64 a.days).1 = (absI64 b.days).1 ↔ |a.days.1| = |b.days.1| := by
    have hbound : ∀ d : I64, 0 ≤ |d.1| ∧ |d.1| < 2 ^ 64 := fun d => by
      have := d.2
      refine ⟨abs_nonneg _, abs_lt.mpr ?_⟩
      constructor <;> omega
    exact toI64_inj (hbound _) (hbound _)
  have htime : magSecs a.seconds a.nanos = magSecs b.seconds b.nanos ∧
      fracNs a.seconds a.nanos = fracNs b.seconds b.nanos ↔ |a.totalNanos| = |b.totalNanos| := by
    have hbound : ∀ c : DurationParts, (0 : ℤ) ≤ (c.totalNanos.natAbs / 1000000000 : ℕ) ∧
        ((c.totalNanos.natAbs / 1000000000 : ℕ) : ℤ) < 2 ^ 64 := fun c => by
      have hs := c.seconds.2
      have hn := c.nanos.2
      unfold DurationParts.totalNanos
      omega
    rw [magSecs, magSecs]
    show (toI64 (a.totalNanos.natAbs / 1000000000 : ℕ)).1 =
        (toI64 (b.totalNanos.natAbs / 1000000000 : ℕ)).1 ∧
      a.totalNanos.natAbs % 1000000000 = b.totalNanos.natAbs % 1000000000 ↔ _
    rw [toI64_inj (hbound a) (hbound b), Int.abs_eq_natAbs, Int.abs_eq_natAbs]
    omega
  rw [← abs_tdiv_tmod_iff, ← hdays, ← htime]
  have hbreak : ∀ {c : Char} {l : List Char}, isIntChar c = false → Breaks isIntChar (c :: l) :=
    fun h => breaks_cons.mpr h
  constructor
  · intro h
    unfold durationKey at h
    obtain ⟨hyears, h⟩ :=
      readable_paddedInt 20 _ _ _ _ (hbreak rfl) (hbreak rfl) (List.cons.inj h).2
    obtain ⟨hmonths, h⟩ :=
      readable_paddedInt 2 _ _ _ _ (hbreak rfl) (hbreak rfl) (List.cons.inj h).2
    obtain ⟨hdays, h⟩ := readable_paddedInt 20 _ _ _ _ (hbreak rfl) (hbreak rfl) (List.cons.inj h).2
    replace h := (List.cons.inj (List.cons.inj h).2).2
    obtain ⟨hhours, h⟩ := readable_paddedInt 20 _ _ _ _ (hbreak rfl) (hbreak rfl) h
    obtain ⟨hminutes, h⟩ :=
      readable_paddedInt 2 _ _ _ _ (hbreak rfl) (hbreak rfl) (List.cons.inj h).2
    obtain ⟨hseconds, h⟩ :=
      readable_paddedInt 2 _ _ _ _ (hbreak rfl) (hbreak rfl) (List.cons.inj h).2
    have hfrac := zeroPadded_injective 9 (append_cancel_right (List.cons.inj h).2)
    exact ⟨⟨hyears, hmonths⟩, hdays, clock_iff.mp ⟨hhours, hminutes, hseconds⟩, hfrac⟩
  · rintro ⟨⟨hyears, hmonths⟩, hdays, hsecs, hfrac⟩
    unfold durationKey
    rw [hyears, hmonths, hdays, hsecs, hfrac]

/-- Durations are equal just when their parts have the same magnitudes. -/
theorem cypherEq_durations (a b : DurationParts) :
    cypherEq a.obj b.obj = some true ↔
      |a.months.1| = |b.months.1| ∧ |a.days.1| = |b.days.1| ∧ |a.totalNanos| = |b.totalNanos| := by
  rw [DurationParts.obj, DurationParts.obj, durationObj, durationObj,
    cypherEq_temporalObj (by decide), some.injEq, decide_eq_true_iff, durationKey_eq_iff]

/-! ## Dates, and dates with a time -/

/-- What a value denotes, and whether its key leaves out a fraction that is zero. -/
structure Stamp where
  date : CivilDate
  time : NaiveTime
  plain : Bool

/-- Dates and times in chronological order. -/
def Stamp.cmp (a b : Stamp) : Ordering := (a.date.cmp b.date).then (a.time.cmp b.time)

def utcInstant (chrono : Chrono) (dt : NaiveDateTime) (tz : Option (List Char)) :
    Run NaiveDateTime := do
  let zone ← resolveZone chrono dt (tz.getD ['Z'])
  orAbort (chrono.subSeconds dt zone.2.1)

/-- A value of a type, as one of the builders makes it, denotes a date, a local date and time or an
instant. -/
inductive Denotes (chrono : Chrono) : String → Json → Stamp → Prop
  | date (d : NaiveDate) :
    Denotes chrono "Date" (dateToObj chrono d) ⟨d.toCivilDate, .midnight, false⟩
  | civilDate {d : CivilDate} {v : Json} (h : dateObjFromCivil d = .ok v) :
      Denotes chrono "Date" v ⟨d, .midnight, false⟩
  | localDateTime {dt : NaiveDateTime} {v : Json}
      (h : datetimeToObj chrono dt none "LocalDateTime" = .ok v) :
      Denotes chrono "LocalDateTime" v ⟨dt.date.toCivilDate, dt.time, false⟩
  | civilDateTime {d : CivilDate} {t : NaiveTime} {v : Json}
      (h : localdatetimeObjFromCivil chrono d t = .ok v) :
      Denotes chrono "LocalDateTime" v ⟨d, t, true⟩
  | dateTime {dt utc : NaiveDateTime} {tz : Option (List Char)} {v : Json}
      (h : datetimeToObj chrono dt tz "DateTime" = .ok v) (hutc : utcInstant chrono dt tz =
        .ok utc) :
      Denotes chrono "DateTime" v ⟨utc.date.toCivilDate, utc.time, false⟩

def Stamp.key (typeName : String) (a : Stamp) : List Char :=
  dateText a.date ++ if typeName = "Date" then [] else 'T' :: clockText a.plain a.time

lemma formatNano_eq_clockText (chrono : Chrono) (t : NaiveTime) :
    chrono.formatNano t = clockText false t := by
  rw [chrono.formatNano_eq, chrono.formatSecond_eq, chrono.formatMinute_eq, clockText]
  simp

lemma formatSecond_eq_clockText (chrono : Chrono) {t : NaiveTime} (h : t.nanosecond = 0) :
    chrono.formatSecond t = clockText true t := by
  rw [chrono.formatSecond_eq, chrono.formatMinute_eq, clockText, if_pos ⟨rfl, h⟩]
  simp

lemma key_eq_formatNano (chrono : Chrono) (h : typeName ≠ "Date") (dt : NaiveDateTime) :
    Stamp.key typeName ⟨dt.date.toCivilDate, dt.time, false⟩ =
      chrono.formatDate dt.date ++ 'T' :: chrono.formatNano dt.time := by
  rw [Stamp.key, if_neg h, dateText, ← chrono.formatDate_eq, ← formatNano_eq_clockText]

/-- A run of two steps that ends well. -/
theorem bind_ok {α β : Type} {r : Run α} {f : α → Run β} {b : β} (h : (r >>= f) = .ok b) :
    ∃ a, r = .ok a ∧ f a = .ok b := by
  cases r with
  | error e => cases h
  | ok a => exact ⟨a, rfl, h⟩

lemma Denotes.key_eq {chrono : Chrono} {v : Json} {a : Stamp} (h : Denotes chrono typeName v a) :
    ∃ fields s, v = temporalObj typeName fields s (a.key typeName) := by
  cases h with
  | date d =>
    have hkey : Stamp.key "Date" ⟨d.toCivilDate, .midnight, false⟩ = chrono.formatDate d := by
      rw [Stamp.key, if_pos rfl, append_nil, dateText, chrono.formatDate_eq]
    rw [hkey]
    exact ⟨_, _, rfl⟩
  | civilDate h =>
    rw [dateObjFromCivil] at h
    obtain ⟨_, -, h⟩ := bind_ok h
    obtain ⟨_, -, h⟩ := bind_ok h
    obtain ⟨_, -, h⟩ := bind_ok h
    obtain rfl := Except.ok.inj h
    rw [Stamp.key, if_pos rfl, append_nil, dateText]
    exact ⟨_, _, rfl⟩
  | @localDateTime dt _ h =>
    rw [datetimeToObj] at h
    obtain ⟨r, hr, h⟩ := bind_ok h
    obtain rfl : none = r := Except.ok.inj hr
    obtain ⟨_, -, h⟩ := bind_ok h
    obtain rfl := Except.ok.inj h
    rw [key_eq_formatNano chrono (by decide) dt]
    exact ⟨_, _, rfl⟩
  | @civilDateTime d t _ h =>
    rw [localdatetimeObjFromCivil] at h
    obtain ⟨_, -, h⟩ := bind_ok h
    obtain rfl := Except.ok.inj h
    have htime : (if t.nanosecond = 0 then chrono.formatSecond t else chrono.formatNano t) =
        clockText true t := by
      split
      next h0 => exact formatSecond_eq_clockText chrono h0
      next h0 =>
        rw [formatNano_eq_clockText, clockText, clockText, if_neg (by simp), if_neg (by simp [h0])]
    have hkey : Stamp.key "LocalDateTime" ⟨d, t, true⟩ = yearText d.year ++
        '-' :: (two d.month ++ '-' :: (two d.day ++ 'T' :: clockText true t)) := by
      rw [Stamp.key, if_neg (by decide), dateText]
      simp
    rw [hkey, htime]
    exact ⟨_, _, rfl⟩
  | @dateTime dt utc tz _ h hutc =>
    rw [datetimeToObj] at h
    obtain ⟨r, hr, h⟩ := bind_ok h
    obtain ⟨zone, hzone, hutc⟩ := bind_ok hutc
    have hresolved : r = some zone := by
      rw [if_pos rfl, Option.mapM_some, hzone] at hr
      exact (Except.ok.inj hr).symm
    subst hresolved
    obtain ⟨utc', hutc', h⟩ := bind_ok h
    obtain rfl : utc' = utc := Except.ok.inj (hutc'.symm.trans hutc)
    obtain rfl := Except.ok.inj h
    rw [key_eq_formatNano chrono (by decide) utc']
    exact ⟨_, _, rfl⟩

lemma Denotes.of_date {chrono : Chrono} {v : Json} {a : Stamp} (h : Denotes chrono typeName v a)
    (htype : typeName = "Date") :
    a.time = .midnight ∧ a.plain = false := by
  cases h with
  | date => exact ⟨rfl, rfl⟩
  | civilDate => exact ⟨rfl, rfl⟩
  | localDateTime => exact absurd htype (by decide)
  | civilDateTime => exact absurd htype (by decide)
  | dateTime => exact absurd htype (by decide)

/-- The years are in order as texts, and no zero fraction is written in one key only. -/
def InOrder (a b : Stamp) : Prop :=
  YearsInOrder a.date.year b.date.year ∧
    ¬ (a.date = b.date ∧ a.time = b.time ∧ a.time.nanosecond = 0 ∧ a.plain ≠ b.plain)

lemma CivilDate.cmp_eq_iff : d.cmp d' = .eq ↔ d = d' := by
  rw [CivilDate.cmp, Ordering.then_eq_eq, Ordering.then_eq_eq, Int.compare_eq_eq, Nat.compare_eq_eq,
    Nat.compare_eq_eq]
  exact ⟨fun h => CivilDate.ext h.1 h.2.1 h.2.2, fun h => h ▸ ⟨rfl, rfl, rfl⟩⟩

lemma then_inj_iff {o p q : Ordering} : o.then p = o.then q ↔ (o = .eq → p = q) := by
  cases o with
  | eq => exact ⟨fun h _ => h, fun h => h rfl⟩
  | lt => exact iff_of_true rfl fun h => nomatch h
  | gt => exact iff_of_true rfl fun h => nomatch h

lemma compare_key_iff {a b : Stamp}
    (hdate : typeName = "Date" → a.time = b.time ∧ a.plain = b.plain) :
    compare (a.key typeName) (b.key typeName) = a.cmp b ↔ InOrder a b := by
  rw [Stamp.key, Stamp.key, Stamp.cmp, InOrder]
  by_cases hyears : YearsInOrder a.date.year b.date.year
  · rw [compare_dateText hyears, then_inj_iff, and_iff_right hyears, CivilDate.cmp_eq_iff]
    split
    next htype =>
      obtain ⟨htime, hplain⟩ := hdate htype
      refine iff_of_true (fun _ => ?_) fun hnot => hnot.2.2.2 hplain
      simp [htime, NaiveTime.cmp]
    next =>
      rw [compare_same, compare_clockText_iff, not_and (a := a.date = b.date)]
  · exact iff_of_false (compare_dateText_ne hyears _ _ _) fun h => hyears h.1

/-- **What temporal values compare by.** Durations are equal like their normal forms unless they
differ in signs only. Dates, local dates and times and instants compare chronologically unless
their years are out of order as texts, or they are one local date and time that the two builders
write differently. -/
theorem compare_iff_denotes (chrono : Chrono) :
    (∀ a b : DurationParts, (cypherEq a.obj b.obj = some true ↔ a.normalized = b.normalized) ↔
      ¬ a.OnlySignsDiffer b) ∧
    ∀ (typeName : String) (v w : Json) (a b : Stamp), Denotes chrono typeName v a →
      Denotes chrono typeName w b →
      ((jsonCmp v w = some (a.cmp b) ∧ (cypherEq v w = some true ↔ a.cmp b = .eq)) ↔
        InOrder a b) := by
  constructor
  · intro a b
    have hnormal : a.normalized = b.normalized ↔
        a.months.1 = b.months.1 ∧ a.days.1 = b.days.1 ∧ a.totalNanos = b.totalNanos := by
      rw [DurationParts.normalized, DurationParts.normalized, Prod.mk.injEq, Prod.mk.injEq,
        Prod.mk.injEq]
      omega
    rw [cypherEq_durations, hnormal, DurationParts.OnlySignsDiffer, not_and, not_not]
    constructor
    · exact fun hiff hmag => hiff.mp hmag
    · refine fun h => ⟨h, ?_⟩
      rintro ⟨hmonths, hdays, htotal⟩
      rw [hmonths, hdays, htotal]
      exact ⟨rfl, rfl, rfl⟩
  · intro typeName v w a b hv hw
    have hnan : typeName ≠ "__NaN__" := by
      cases hv <;> decide
    have hdate : typeName = "Date" → a.time = b.time ∧ a.plain = b.plain := fun htype =>
      ⟨(hv.of_date htype).1.trans (hw.of_date htype).1.symm,
        (hv.of_date htype).2.trans (hw.of_date htype).2.symm⟩
    obtain ⟨fields, s, rfl⟩ := hv.key_eq
    obtain ⟨fields', s', rfl⟩ := hw.key_eq
    rw [jsonCmp_temporalObj, cypherEq_temporalObj hnan, some.injEq, some.injEq,
      decide_eq_true_iff, ← compare_key_iff hdate]
    refine ⟨fun h => h.1, fun h => ⟨h, ?_⟩⟩
    rw [← h]
    exact Std.LawfulEqOrd.compare_eq_iff_eq.symm

lemma january_bounds : 1 ≤ 1 ∧ 1 ≤ 12 := by decide

def newYear (year : ℤ) (h : -262143 ≤ year ∧ year ≤ 262142) : NaiveDate :=
  ⟨⟨year, 1, 1, january_bounds, le_rfl, show 1 ≤ 31 by decide⟩, h⟩

/-- The first days of two years in order. -/
theorem compare_iff_denotes_newYears :
    (jsonCmp (dateToObj gregorian (newYear 1999 (by decide)))
          (dateToObj gregorian (newYear 2024 (by decide))) = some .lt ∧
        (cypherEq (dateToObj gregorian (newYear 1999 (by decide)))
          (dateToObj gregorian (newYear 2024 (by decide))) = some true ↔ Ordering.lt = .eq)) ↔
      InOrder ⟨(newYear 1999 (by decide)).toCivilDate, .midnight, false⟩
        ⟨(newYear 2024 (by decide)).toCivilDate, .midnight, false⟩ :=
  (compare_iff_denotes gregorian).2 "Date" _ _ _ _ (.date _) (.date _)

/-- A month and minus a month are equal, and the year 10000 is before 9999. -/
theorem compare_differs :
    (let a : DurationParts := ⟨⟨1, by decide⟩, ⟨0, by decide⟩, ⟨0, by decide⟩, ⟨0, by decide⟩⟩
      let b : DurationParts := ⟨⟨-1, by decide⟩, ⟨0, by decide⟩, ⟨0, by decide⟩, ⟨0, by decide⟩⟩
      cypherEq a.obj b.obj = some true ∧ a.normalized ≠ b.normalized) ∧
    (let d := newYear 9999 (by decide)
      let d' := newYear 10000 (by decide)
      d.cmp d'.toCivilDate = .lt ∧ jsonCmp (dateToObj gregorian d) (dateToObj gregorian d') =
        some .gt) := by
  refine ⟨⟨(cypherEq_durations _ _).mpr (by decide), by decide⟩, by decide, ?_⟩
  rw [dateToObj, dateToObj, jsonCmp_temporalObj]
  decide +kernel

end IssunDB.Temporal
