import IssunDB.Temporal.Quarters
import IssunDB.Temporal.Returns
import IssunDB.Temporal.Selection

/-!
# Which components of a date are taken exactly

A map of components is taken exactly when the result is an error or a value whose fields are the
components given (`Exactly`). Every branch reads some of the components, which count modulo
`2 ^ 32`, and leaves out the others, which then have to agree with the date that is made. A day of a
quarter beyond its end is in the next one.
-/

namespace IssunDB.Temporal

open Option

/-! ## Reading -/

section Reads

variable {α β : Type}

/-- The call returns, and a value that it returns has a property. -/
def Exactly (r : Run α) (Q : α → Prop) : Prop := Returns r ∧ ∀ a, r = .ok a → Q a

/-- The call aborts where `P` fails, and otherwise has the value of `o`, or an error where there is
none. -/
structure Reads (r : Run α) (P : Prop) (o : Option α) : Prop where
  abort : ¬ P → r = .error .abort
  read : P → ∃ message, r = okOr o message

namespace Reads

variable {r : Run α} {f : α → Run β} {P : Prop} {P' : α → Prop} {o : Option α} {o' : α → Option β}
  {Q : α → Prop} {a : α}

lemma okOr_eq_ok {message : String} : okOr o message = .ok a ↔ o = some a := by
  cases o with
  | none => exact iff_of_false (fun h => nomatch h) fun h => nomatch h
  | some b => exact ⟨fun h => congrArg some (Except.ok.inj h), fun h => congrArg _ (some.inj h)⟩

lemma okOr (o : Option α) (message : String) : Reads (okOr o message) True o :=
  ⟨fun h => absurd trivial h, fun _ => ⟨message, rfl⟩⟩

lemma fail (message : String) : Reads (fail message : Run α) True none :=
  ⟨fun h => absurd trivial h, fun _ => ⟨message, rfl⟩⟩

lemma orAbort (o : Option α) : Reads (orAbort o) o.isSome o := by
  cases o with
  | none => exact ⟨fun _ => rfl, fun h => (Bool.false_ne_true h).elim⟩
  | some a => exact ⟨fun h => absurd rfl h, fun _ => ⟨"", rfl⟩⟩

lemma of_yields (h : Yields r P a) : Reads r P (some a) :=
  ⟨h.abort, fun hP => ⟨"", h.value hP⟩⟩

lemma congr {Q : Prop} {q : Option α} (h : Reads r P o) (hiff : P ↔ Q) (heq : o = q) :
    Reads r Q q := by
  subst heq
  exact ⟨fun hQ => h.abort fun hP => hQ (hiff.mp hP), fun hQ => h.read (hiff.mpr hQ)⟩

/-- A step after a call. -/
theorem bind (h : Reads r P o) (hf : ∀ a ∈ o, Reads (f a) (P' a) (o' a)) :
    Reads (r >>= f) (P ∧ ∀ a ∈ o, P' a) (o.bind o') := by
  constructor
  · intro hnot
    by_cases hP : P
    · obtain ⟨message, hr⟩ := h.read hP
      cases o with
      | none => exact absurd ⟨hP, fun a ha => nomatch ha⟩ hnot
      | some a =>
        rw [hr]
        refine (hf a rfl).abort fun ha => hnot ⟨hP, fun b hb => ?_⟩
        obtain rfl := some.inj hb
        exact ha
    · rw [h.abort hP]
      rfl
  · rintro ⟨hP, hall⟩
    obtain ⟨message, hr⟩ := h.read hP
    cases o with
    | none => exact ⟨message, by rw [hr]; rfl⟩
    | some a =>
      rw [hr]
      exact (hf a rfl).read (hall a rfl)

lemma of_eq {q : Run α} (h : Reads r P o) (heq : r = q) : Reads q P o := heq ▸ h

/-- A step after a call without errors. -/
theorem bind_yields {Q : Prop} {o : Option β} (h : Yields r P a) (hf : Reads (f a) Q o) :
    Reads (r >>= f) (P ∧ Q) o := by
  constructor
  · intro hnot
    by_cases hP : P
    · rw [h.value hP]
      exact hf.abort fun hQ => hnot ⟨hP, hQ⟩
    · rw [h.abort hP]
      rfl
  · rintro ⟨hP, hQ⟩
    rw [h.value hP]
    exact hf.read hQ

lemma returns (h : Reads r P o) : Returns r ↔ P := by
  constructor
  · exact fun hret => by_contra fun hP => hret (h.abort hP)
  · intro hP
    obtain ⟨message, rfl⟩ := h.read hP
    exact returns_elim_fail

/-- What has to hold of the value that is read. -/
theorem exactly (h : Reads r P o) : Exactly r Q ↔ P ∧ ∀ a ∈ o, Q a := by
  refine (and_congr_left fun _ => h.returns).trans (and_congr_right fun hP => ?_)
  obtain ⟨message, rfl⟩ := h.read hP
  exact forall_congr' fun a => imp_congr_left okOr_eq_ok

end Reads

end Reads

/-! ## Narrowed integers -/

/-- An integer of type `i32`. -/
def InI32 (i : ℤ) : Prop := -2 ^ 31 ≤ i ∧ i < 2 ^ 31

/-- An integer of type `u32`. -/
def InU32 (i : ℤ) : Prop := 0 ≤ i ∧ i < 2 ^ 32

lemma asI32_bounds (i : ℤ) : InI32 (asI32 i) := by
  have hlow : -((2 ^ 32 : ℕ) : ℤ) / 2 ≤ i.bmod (2 ^ 32) := Int.le_bmod (by decide)
  have hhigh : i.bmod (2 ^ 32) < ((2 ^ 32 : ℕ) + 1 : ℤ) / 2 := Int.bmod_lt (by decide)
  unfold InI32 asI32
  norm_num at hlow hhigh ⊢
  omega

lemma asI32_eq_iff {i : ℤ} : asI32 i = i ↔ InI32 i := by
  refine ⟨fun h => h ▸ asI32_bounds i, fun h => ?_⟩
  unfold InI32 at h
  exact Int.bmod_eq_of_le (by norm_num; omega) (by norm_num; omega)

lemma asU32_eq_iff {i : ℤ} : (asU32 i : ℤ) = i ↔ InU32 i := by
  unfold asU32 InU32
  norm_num
  omega

lemma asU32_natCast {n : ℕ} (h : n < 2 ^ 32) : asU32 n = n := by
  have hn : ((asU32 n : ℕ) : ℤ) = n := asU32_eq_iff.mpr ⟨by omega, by exact_mod_cast h⟩
  exact_mod_cast hn

/-! ## Dates -/

section Dates

variable (chrono : Chrono)

def MonthDayGiven (c : Components) (d : NaiveDate) : Prop :=
  (∀ m ∈ c.month, (d.month : ℤ) = m.1) ∧ ∀ n ∈ c.day, (d.day : ℤ) = n.1

def WeekGiven (c : Components) (d : NaiveDate) : Prop :=
  (∀ w ∈ c.week, ((chrono.isoWeek d).2 : ℤ) = w.1) ∧
    ∀ n ∈ c.dayOfWeek, (chrono.weekday d + 1 : ℤ) = n.1

def QuarterGiven (c : Components) (d : NaiveDate) : Prop :=
  (∀ q ∈ c.quarter, (d.quarterIndex + 1 : ℤ) = q.1) ∧
    ∀ n ∈ c.dayOfQuarter, dayOfQuarter chrono d = n.1

/-- The day of the year is the one given, under both names. -/
def OrdinalGiven (c : Components) (d : NaiveDate) : Prop :=
  (∀ o ∈ c.ordinalDay, (chrono.ordinal d : ℤ) = o.1) ∧
    ∀ o ∈ c.dayOfYear, (chrono.ordinal d : ℤ) = o.1

/-- The fields of a date are the components given. The year of a date by its week is the year of the
week. -/
@[mk_iff]
structure DateGiven (byWeek : Bool) (c : Components) (d : NaiveDate) : Prop where
  year : ∀ y ∈ c.year, (if byWeek = true then (chrono.isoWeek d).1 else d.year) = y.1
  monthDay : MonthDayGiven c d
  week : WeekGiven chrono c d
  quarter : QuarterGiven chrono c d
  ordinal : OrdinalGiven chrono c d

/-- The components that a branch reads. -/
inductive DatePath where
  | calendar (year month day : ℤ)
  | ordinal (year ordinal : ℤ)
  | week (year week dayOfWeek : ℤ)
  | quarter (year quarter dayOfQuarter : ℤ)
  | missing

namespace DatePath

/-- The branch of `naive_date_from_map`. -/
def ofMap (c : Components) : DatePath :=
  let get (o : Option I64) (default : ℤ) : ℤ := (o.map Subtype.val).getD default
  match c.year with
  | none => missing
  | some y =>
    if c.month.isSome ∧ c.day.isSome then calendar y.1 (get c.month 1) (get c.day 1)
    else
      match c.ordinalDay.or c.dayOfYear with
      | some o => ordinal y.1 o.1
      | none =>
        match c.week with
        | some w => week y.1 w.1 (get c.dayOfWeek 1)
        | none =>
          match c.quarter with
          | some q => quarter y.1 q.1 (get c.dayOfQuarter 1)
          | none => calendar y.1 (get c.month 1) (get c.day 1)

/-- The branch of `apply_date_overrides`. -/
def overriding (base : NaiveDate) (c : Components) : DatePath :=
  let get (o : Option I64) (default : ℤ) : ℤ := (o.map Subtype.val).getD default
  match c.week with
  | some w =>
    week (get c.year (chrono.isoWeek base).1) w.1 (get c.dayOfWeek (chrono.weekday base + 1))
  | none =>
    match c.quarter with
    | some q => quarter (get c.year base.year) q.1 (get c.dayOfQuarter (dayOfQuarter chrono base))
    | none =>
      match c.ordinalDay with
      | some o => ordinal (get c.year base.year) o.1
      | none => calendar (get c.year base.year) (get c.month base.month) (get c.day base.day)

def quarterStart (year quarter : ℤ) : Option NaiveDate :=
  fromYmd (asI32 year) (asU32 ((quarter - 1) * 3 + 1)) 1

/-- No number of the branch leaves `i64`, and the library does not panic. -/
def Fits : DatePath → Prop
  | quarter y q n => Temporal.Fits (q - 1) ∧ Temporal.Fits ((q - 1) * 3) ∧
      Temporal.Fits ((q - 1) * 3 + 1) ∧ ∀ start ∈ quarterStart y q,
        Temporal.Fits (n - 1) ∧ (chrono.addDays start (n - 1)).isSome
  | _ => True

/-- The date that the branch makes. -/
def made : DatePath → Option NaiveDate
  | calendar y m n => fromYmd (asI32 y) (asU32 m) (asU32 n)
  | ordinal y o => chrono.fromYo (asI32 y) (asU32 o)
  | week y w n =>
    if 1 ≤ asU32 n ∧ asU32 n ≤ 7 then chrono.fromIsoywd (asI32 y) (asU32 w) (asU32 n) else none
  | quarter y q n => (quarterStart y q).bind fun start => chrono.addDays start (n - 1)
  | missing => none

/-- Whether the date is made from a week. -/
def isWeek : DatePath → Bool
  | week _ _ _ => true
  | _ => false

end DatePath

lemma quarterDate_reads (y q n : ℤ) (message : String) :
    Reads (quarterDate chrono y q n message) (DatePath.Fits chrono (.quarter y q n))
      (DatePath.made chrono (.quarter y q n)) := by
  have hstart : Reads (okOr (DatePath.quarterStart y q) message >>= fun start =>
      checkedI64 (n - 1) >>= fun days => orAbort (chrono.addDays start days))
      (True ∧ ∀ start ∈ DatePath.quarterStart y q, Fits (n - 1) ∧
        (chrono.addDays start (n - 1)).isSome)
      ((DatePath.quarterStart y q).bind fun start => chrono.addDays start (n - 1)) :=
    (Reads.okOr _ message).bind fun start _ => .bind_yields (.checkedI64 _) (.orAbort _)
  rw [true_and] at hstart
  exact .bind_yields (.checkedI64 _)
    (.bind_yields (.checkedI64 _) (.bind_yields (.checkedI64 _) hstart))

lemma weekDate_reads (y w n : ℤ) (message : String) :
    Reads (weekDate chrono y w n message) (DatePath.Fits chrono (.week y w n))
      (DatePath.made chrono (.week y w n)) := by
  unfold weekDate DatePath.Fits DatePath.made
  simp only
  split
  · exact Reads.okOr _ _
  · exact Reads.fail _

lemma naiveDateFromMap_reads (c : Components) :
    Reads (naiveDateFromMap chrono c) ((DatePath.ofMap c).Fits chrono)
    ((DatePath.ofMap c).made chrono) := by
  unfold naiveDateFromMap DatePath.ofMap
  rcases c.year with _ | y
  · exact Reads.fail _
  simp only
  by_cases hcalendar : c.month.isSome = true ∧ c.day.isSome = true
  · obtain ⟨m, hm⟩ := isSome_iff_exists.mp hcalendar.1
    obtain ⟨n, hn⟩ := isSome_iff_exists.mp hcalendar.2
    simp only [hm, hn, isSome_some, and_self, if_true]
    exact Reads.okOr _ _
  · rw [if_neg hcalendar]
    split
    next m n hm hn => exact absurd ⟨by rw [hm]; rfl, by rw [hn]; rfl⟩ hcalendar
    next hnone =>
      rcases c.ordinalDay.or c.dayOfYear with _ | o
      · rcases c.week with _ | w
        · rcases c.quarter with _ | q
          · exact Reads.okOr _ _
          · exact quarterDate_reads chrono _ _ _ _
        · exact weekDate_reads chrono _ _ _ _
      · exact Reads.okOr _ _

lemma applyDateOverrides_reads (base : NaiveDate) (c : Components) :
    Reads (applyDateOverrides chrono base c) ((DatePath.overriding chrono base c).Fits chrono)
      ((DatePath.overriding chrono base c).made chrono) := by
  unfold applyDateOverrides DatePath.overriding
  rcases c.week with _ | w
  · rcases c.quarter with _ | q
    · rcases c.ordinalDay with _ | o
      · exact Reads.okOr _ _
      · exact Reads.okOr _ _
    · exact quarterDate_reads chrono _ _ _ _
  · exact weekDate_reads chrono _ _ _ _

namespace DatePath

/-- The components given are the numbers that the branch reads. Without a day of the quarter that is
given it is that of a date. -/
def Names (c : Components) : DatePath → Prop
  | calendar y m n => (∀ x ∈ c.year, x.1 = y) ∧ (∀ x ∈ c.month, x.1 = m) ∧ ∀ x ∈ c.day, x.1 = n
  | ordinal y o => (∀ x ∈ c.year, x.1 = y) ∧ (∀ x ∈ c.ordinalDay, x.1 = o) ∧
      (c.ordinalDay = none → ∃ x ∈ c.dayOfYear, x.1 = o)
  | week y w n => (∀ x ∈ c.year, x.1 = y) ∧ (∃ x, c.week = some x ∧ x.1 = w) ∧
    ∀ x ∈ c.dayOfWeek, x.1 = n
  | quarter y q n => (∀ x ∈ c.year, x.1 = y) ∧ (∃ x, c.quarter = some x ∧ x.1 = q) ∧
      (∀ x ∈ c.dayOfQuarter, x.1 = n) ∧ (c.year = none → c.dayOfQuarter = none → 1 ≤ n ∧ n ≤ 92)
  | missing => True

/-- The components that the branch reads are narrowed without a change, and the others agree with
the date. A day of a quarter is one of its days. -/
def Taken (c : Components) (d : NaiveDate) : DatePath → Prop
  | calendar _ _ _ => (∀ x ∈ c.year, InI32 x.1) ∧ (∀ x ∈ c.month, InU32 x.1) ∧
      (∀ x ∈ c.day, InU32 x.1) ∧ WeekGiven chrono c d ∧ QuarterGiven chrono c d ∧
      OrdinalGiven chrono c d
  | ordinal _ o => (∀ x ∈ c.year, InI32 x.1) ∧ InU32 o ∧ (∀ x ∈ c.dayOfYear, x.1 = o) ∧
      MonthDayGiven c d ∧ WeekGiven chrono c d ∧ QuarterGiven chrono c d
  | week _ w _ => (∀ x ∈ c.year, InI32 x.1) ∧ InU32 w ∧ (∀ x ∈ c.dayOfWeek, InU32 x.1) ∧
      MonthDayGiven c d ∧ QuarterGiven chrono c d ∧ OrdinalGiven chrono c d
  | quarter y q n => (∀ x ∈ c.year, InI32 x.1) ∧ (1 ≤ q ∧ q ≤ 4) ∧
      (1 ≤ n ∧ n ≤ quarterLength (asI32 y) (q - 1).toNat) ∧
      MonthDayGiven c d ∧ WeekGiven chrono c d ∧ OrdinalGiven chrono c d
  | missing => True

end DatePath

variable {o : Option I64} {c : Components} {d : NaiveDate}

/-- A component is a narrowed number just when it has the narrow type. -/
theorem asI32_given {i : ℤ} (h : ∀ x ∈ o, x.1 = i) :
    (∀ x ∈ o, asI32 i = x.1) ↔ ∀ x ∈ o, InI32 x.1 :=
  forall_congr' fun x => imp_congr_right fun hx => by rw [h x hx, asI32_eq_iff]

lemma asU32_given {i : ℤ} (h : ∀ x ∈ o, x.1 = i) :
    (∀ x ∈ o, (asU32 i : ℤ) = x.1) ↔ ∀ x ∈ o, InU32 x.1 :=
  forall_congr' fun x => imp_congr_right fun hx => by rw [h x hx, asU32_eq_iff]

lemma given_iff_taken_calendar {y m n : ℤ} (hnames : DatePath.Names c (.calendar y m n))
    (hd : DatePath.made chrono (.calendar y m n) = some d) :
    DateGiven chrono false c d ↔ DatePath.Taken chrono c d (.calendar y m n) := by
  obtain ⟨hyear, hmonth, hday⟩ := hnames
  obtain ⟨hdy, hdm, hdd⟩ := fromYmd_eq_some.mp hd
  rw [dateGiven_iff]
  simp only [Bool.false_eq_true, if_false, MonthDayGiven, hdy, hdm, hdd, asI32_given hyear,
    asU32_given hmonth, asU32_given hday, DatePath.Taken, and_assoc]

lemma given_iff_taken_ordinal {y o : ℤ} (hnames : DatePath.Names c (.ordinal y o))
    (hd : DatePath.made chrono (.ordinal y o) = some d) :
    DateGiven chrono false c d ↔ DatePath.Taken chrono c d (.ordinal y o) := by
  obtain ⟨hyear, hord, hother⟩ := hnames
  obtain ⟨hdy, hdo⟩ := chrono.fromYo_spec _ _ _ hd
  have hordinal : OrdinalGiven chrono c d ↔ InU32 o ∧ ∀ x ∈ c.dayOfYear, x.1 = o := by
    rw [OrdinalGiven, hdo, ← asU32_eq_iff]
    constructor
    · rintro ⟨hfirst, hsecond⟩
      have heq : (asU32 o : ℤ) = o := by
        rcases hc : c.ordinalDay with _ | x
        · obtain ⟨x, hx, hxo⟩ := hother hc
          exact (hsecond x hx).trans hxo
        · exact (hfirst x hc).trans (hord x hc)
      exact ⟨heq, fun x hx => (hsecond x hx).symm.trans heq⟩
    · rintro ⟨heq, hall⟩
      exact ⟨fun x hx => heq.trans (hord x hx).symm, fun x hx => heq.trans (hall x hx).symm⟩
  rw [dateGiven_iff, hordinal]
  simp only [Bool.false_eq_true, if_false, hdy, asI32_given hyear, DatePath.Taken]
  tauto

lemma given_iff_taken_week {y w n : ℤ} (hnames : DatePath.Names c (.week y w n))
    (hd : DatePath.made chrono (.week y w n) = some d) :
    DateGiven chrono true c d ↔ DatePath.Taken chrono c d (.week y w n) := by
  obtain ⟨hyear, ⟨x, hx, hxw⟩, hdow⟩ := hnames
  rw [DatePath.made] at hd
  split at hd
  next hn =>
    obtain ⟨hiso, hweekday⟩ := chrono.fromIsoywd_spec _ _ _ _ hd
    have hcast : (chrono.weekday d + 1 : ℤ) = (asU32 n : ℕ) := by exact_mod_cast hweekday
    have hweek : WeekGiven chrono c d ↔ InU32 w ∧ ∀ x ∈ c.dayOfWeek, InU32 x.1 := by
      rw [WeekGiven, hcast, asU32_given hdow, hiso, hx]
      refine and_congr_left fun _ => ⟨fun hall => asU32_eq_iff.mp ((hall x rfl).trans hxw), ?_⟩
      rintro hw z hz
      obtain rfl := some.inj hz
      exact (asU32_eq_iff.mpr hw).trans hxw.symm
    rw [dateGiven_iff, hweek]
    simp only [if_true, hiso, asI32_given hyear, DatePath.Taken]
    tauto
  next => cases hd

/-! ### Quarters -/

abbrev CountsDays : Prop := ∀ d d', chrono.daysSince d d' = d.number - d'.number

lemma dayOfQuarter_eq (hdays : CountsDays chrono) (d : NaiveDate) :
    dayOfQuarter chrono d = d.number - quarterNumber d.year d.quarterIndex + 1 := by
  have hmonth : (d.month - 1) / 3 * 3 + 1 = 3 * d.quarterIndex + 1 := by
    rw [NaiveDate.quarterIndex, Nat.mul_comm]
  rw [dayOfQuarter, hdays, quarterNumber, ← hmonth]
  rfl

lemma dayOfQuarter_bounds (hdays : CountsDays chrono) (d : NaiveDate) :
    1 ≤ dayOfQuarter chrono d ∧ dayOfQuarter chrono d ≤ quarterLength d.year d.quarterIndex := by
  obtain ⟨hlow, hhigh⟩ := number_in_quarter d
  rw [dayOfQuarter_eq chrono hdays]
  omega

lemma number_quarterStart {y q : ℤ} {start : NaiveDate} (h : DatePath.quarterStart y q = some start)
    (hq : 1 ≤ q ∧ q ≤ 4) : start.number = quarterNumber (asI32 y) (q - 1).toNat := by
  obtain ⟨hsy, hsm, hsd⟩ := fromYmd_eq_some.mp h
  have hmonth : ((asU32 ((q - 1) * 3 + 1) : ℕ) : ℤ) = (q - 1) * 3 + 1 :=
    asU32_eq_iff.mpr ⟨by omega, by norm_num; omega⟩
  rw [NaiveDate.number, quarterNumber, hsy, hsd, hsm]
  congr 1
  omega

lemma given_iff_taken_quarter (hdays : CountsDays chrono) {y q n : ℤ}
    (hnames : DatePath.Names c (.quarter y q n))
    (hd : DatePath.made chrono (.quarter y q n) = some d) :
    DateGiven chrono false c d ↔ DatePath.Taken chrono c d (.quarter y q n) := by
  obtain ⟨hyear, ⟨x, hx, hxq⟩, hdoq, hbase⟩ := hnames
  obtain ⟨start, hstart, hadd⟩ := bind_eq_some_iff.mp hd
  have hnumber : d.number = start.number + (n - 1) := by
    have h := chrono.addDays_spec _ _ _ hadd
    rw [hdays] at h
    omega
  have hindex := d.quarterIndex_lt
  constructor
  · intro h
    have hq : (d.quarterIndex + 1 : ℤ) = q := (h.quarter.1 x hx).trans hxq
    have hqs : 1 ≤ q ∧ q ≤ 4 := by omega
    have hq' : (q - 1).toNat = d.quarterIndex := by omega
    have hfirst := number_quarterStart hstart hqs
    rw [hq'] at hfirst
    have hrange : ∀ x ∈ c.year, InI32 x.1 := fun z hz => by
      have hz' : d.year = z.1 := h.year z hz
      have hyears := d.range
      unfold InI32
      omega
    have hlen := quarterLength_bounds (asI32 y) d.quarterIndex
    refine ⟨hrange, hqs, ?_, h.monthDay, h.week, h.ordinal⟩
    rw [hq']
    rcases hc : c.year with _ | z
    · -- No year is given: the day is one of some quarter, and it is not in the next one.
      have hn : 1 ≤ n ∧ n ≤ 92 := by
        rcases hn : c.dayOfQuarter with _ | z
        · exact hbase hc hn
        · have hz : dayOfQuarter chrono d = z.1 := h.quarter.2 z hn
          have hbounds := dayOfQuarter_bounds chrono hdays d
          have hlen' := quarterLength_bounds d.year d.quarterIndex
          have hzn := hdoq z hn
          omega
      refine ⟨hn.1, not_lt.mp fun hlt => ?_⟩
      exact @quarterIndex_ne_of_after d (asI32 y) d.quarterIndex hindex (by omega) (by omega) rfl
    · have hyears : asI32 y = d.year := by
        have hz : d.year = z.1 := h.year z hc
        rw [← hyear z hc, asI32_eq_iff.mpr (hrange z hc), hz]
      obtain ⟨hlow, hhigh⟩ := number_in_quarter d
      rw [hyears] at hfirst ⊢
      omega
  · rintro ⟨hrange, hqs, hn, hmonthDay, hweek, hordinal⟩
    have hfirst := number_quarterStart hstart hqs
    obtain ⟨hdy, hdq⟩ :=
      @quarter_of_number d (asI32 y) (q - 1).toNat (by omega) (by omega) (by omega)
    refine ⟨fun z hz => ?_, hmonthDay, hweek, ⟨fun z hz => ?_, fun z hz => ?_⟩, hordinal⟩
    · show d.year = z.1
      rw [hdy, ← hyear z hz, asI32_eq_iff.mpr (hrange z hz)]
    · obtain rfl := some.inj (hx.symm.trans hz)
      omega
    · rw [dayOfQuarter_eq chrono hdays, hdy, hdq, hdoq z hz]
      omega

lemma given_iff_taken (hdays : CountsDays chrono) {p : DatePath} (hnames : p.Names c)
    (hd : p.made chrono = some d) :
    DateGiven chrono p.isWeek c d ↔ p.Taken chrono c d := by
  cases p with
  | calendar y m n => exact given_iff_taken_calendar chrono hnames hd
  | ordinal y o => exact given_iff_taken_ordinal chrono hnames hd
  | week y w n => exact given_iff_taken_week chrono hnames hd
  | quarter y q n => exact given_iff_taken_quarter chrono hdays hnames hd
  | missing => cases hd

lemma getD_given {default : ℤ} : ∀ x ∈ o, x.1 = (o.map Subtype.val).getD default := by
  rintro x hx
  rw [mem_def.mp hx]
  rfl

lemma ofMap_names (c : Components) : (DatePath.ofMap c).Names c := by
  unfold DatePath.ofMap
  have hyear : ∀ y, c.year = some y → ∀ x ∈ c.year, x.1 = y.1 := fun y hy x hx => by
    rw [some.inj (hx.symm.trans hy)]
  rcases hy : c.year with _ | y
  · trivial
  rw [hy] at hyear
  simp only
  split
  · exact ⟨hy ▸ hyear y rfl, getD_given, getD_given⟩
  · rcases ho : c.ordinalDay.or c.dayOfYear with _ | o
    · rcases hw : c.week with _ | w
      · rcases hq : c.quarter with _ | q
        · exact ⟨hy ▸ hyear y rfl, getD_given, getD_given⟩
        · exact ⟨hy ▸ hyear y rfl, ⟨q, hq, rfl⟩, getD_given,
            fun hnone => nomatch hy.symm.trans hnone⟩
      · exact ⟨hy ▸ hyear y rfl, ⟨w, hw, rfl⟩, getD_given⟩
    · refine ⟨hy ▸ hyear y rfl, fun x hx => ?_, fun hnone => ⟨o, ?_, rfl⟩⟩
      · rw [mem_def.mp hx] at ho
        rw [some.inj ho]
      · rw [hnone, none_or] at ho
        exact ho

lemma overriding_names (hdays : CountsDays chrono) (base : NaiveDate) (c : Components) :
    (DatePath.overriding chrono base c).Names c := by
  unfold DatePath.overriding
  rcases hw : c.week with _ | w
  · rcases hq : c.quarter with _ | q
    · rcases ho : c.ordinalDay with _ | o
      · exact ⟨getD_given, getD_given, getD_given⟩
      · refine ⟨getD_given, fun x hx => ?_, fun hnone => nomatch ho.symm.trans hnone⟩
        rw [some.inj (hx.symm.trans ho)]
    · refine ⟨getD_given, ⟨q, hq, rfl⟩, getD_given, fun _ hnone => ?_⟩
      have hbounds := dayOfQuarter_bounds chrono hdays base
      have hlen := quarterLength_bounds base.year base.quarterIndex
      rw [hnone]
      exact ⟨hbounds.1, hbounds.2.trans hlen.2⟩
  · exact ⟨getD_given, ⟨w, hw, rfl⟩, getD_given⟩

/-- The branch that is taken for a map, on top of a selected date if there is one. -/
def DatePath.of (base : Option NaiveDate) (c : Components) : DatePath :=
  match base with
  | some d => overriding chrono d c
  | none => ofMap c

lemma takeDate_reads (base : Option NaiveDate) (c : Components) :
    Reads (takeDate chrono base c) ((DatePath.of chrono base c).Fits chrono)
      ((DatePath.of chrono base c).made chrono) := by
  cases base with
  | none => exact naiveDateFromMap_reads chrono c
  | some d => exact applyDateOverrides_reads chrono d c

/-- The branch stays within its types, and the date that it makes is taken. -/
def DateTaken (base : Option NaiveDate) (c : Components) : Prop :=
  (DatePath.of chrono base c).Fits chrono ∧
    ∀ d ∈ (DatePath.of chrono base c).made chrono, (DatePath.of chrono base c).Taken chrono c d

lemma takeDate_given_iff (hdays : CountsDays chrono) {base : Option NaiveDate}
    (hd : d ∈ (DatePath.of chrono base c).made chrono) :
    DateGiven chrono (DatePath.of chrono base c).isWeek c d ↔
      (DatePath.of chrono base c).Taken chrono c d := by
  refine given_iff_taken chrono hdays ?_ hd
  cases base with
  | none => exact ofMap_names c
  | some base => exact overriding_names chrono hdays base c

lemma exactly_takeDate (hdays : CountsDays chrono) (base : Option NaiveDate) (c : Components) :
    Exactly (takeDate chrono base c) (DateGiven chrono (DatePath.of chrono base c).isWeek c) ↔
      DateTaken chrono base c :=
  (takeDate_reads chrono base c).exactly.trans (and_congr_right fun _ =>
    forall_congr' fun _ => imp_congr_right fun hd => takeDate_given_iff chrono hdays hd)

end Dates

end IssunDB.Temporal
