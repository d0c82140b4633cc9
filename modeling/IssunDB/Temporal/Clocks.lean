import IssunDB.Temporal.Components

/-!
# Which components of a time are taken exactly

A time that its components do not make is replaced by the selected one or by midnight
(`timeOr_given_iff`), and `time` applies the parts of a second to what they make themselves
(`twice_given_iff`). `components_exact_iff` puts the functions of a map together.
-/

namespace IssunDB.Temporal

open Option

/-! ## Times of day -/

/-- A component, or a default. -/
def given (o : Option I64) (default : ℤ) : ℤ := (o.map Subtype.val).getD default

/-- A part of a second is given. -/
def HasSub (c : Components) : Prop :=
  c.millisecond.isSome ∨ c.microsecond.isSome ∨ c.nanosecond.isSome

instance (c : Components) : Decidable (HasSub c) := inferInstanceAs (Decidable (_ ∨ _ ∨ _))

/-- The nanoseconds that the parts of a second make on top of others. -/
def subTotal (sub : ℕ) (c : Components) : ℤ :=
  given c.millisecond (sub / 1000000) * 1000000 + given c.microsecond (sub / 1000 % 1000) * 1000 +
    given c.nanosecond (sub % 1000)

/-- The fields of a time are the components given, on top of a part of a second. -/
structure TimeGiven (sub : ℕ) (c : Components) (t : NaiveTime) : Prop where
  hour : ∀ h ∈ c.hour, (t.hour : ℤ) = h.1
  minute : ∀ m ∈ c.minute, (t.minute : ℤ) = m.1
  second : ∀ s ∈ c.second, (t.second : ℤ) = s.1
  nanosecond : HasSub c → (t.nanosecond : ℤ) = subTotal sub c

variable {t : NaiveTime} {o : Option I64}

lemma fromHmsNano_eq_some {h m s n : ℕ} :
    fromHmsNano h m s n = some t ↔ t.hour = h ∧ t.minute = m ∧ t.second = s ∧ t.nanosecond = n := by
  unfold fromHmsNano
  split
  next hvalid =>
    rw [some.injEq, NaiveTime.ext_iff]
    exact ⟨fun ⟨h₁, h₂, h₃, h₄⟩ => ⟨h₁.symm, h₂.symm, h₃.symm, h₄.symm⟩,
      fun ⟨h₁, h₂, h₃, h₄⟩ => ⟨h₁.symm, h₂.symm, h₃.symm, h₄.symm⟩⟩
  next hvalid =>
    refine iff_of_false (fun h => nomatch h) ?_
    rintro ⟨rfl, rfl, rfl, rfl⟩
    exact hvalid ⟨t.hour_lt, t.minute_lt, t.second_lt, t.nanosecond_lt⟩

lemma exists_fromHmsNano {h m s n : ℕ} (hh : h < 24) (hm : m < 60) (hs : s < 60)
    (hn : n < 10 ^ 9 ∨ (s = 59 ∧ n < 2 * 10 ^ 9)) : ∃ t, fromHmsNano h m s n = some t :=
  ⟨_, dif_pos ⟨hh, hm, hs, hn⟩⟩

lemma given_some {default : ℤ} {x : I64} (h : x ∈ o) : given o default = x.1 := by
  rw [given, mem_def.mp h]
  rfl

/-- A component that is a field, or the field where none is given. -/
theorem given_eq {default n : ℕ} (hn : ∀ x ∈ o, (n : ℤ) = x.1) (hnone : o = none → n = default) :
    given o default = n := by
  rcases o with _ | x
  · rw [hnone rfl]
    rfl
  · exact (hn x rfl).symm

lemma given_range {default n : ℕ} (hlt : default < n) (h : ∀ x ∈ o, 0 ≤ x.1 ∧ x.1 < n) :
    0 ≤ given o default ∧ given o default < n := by
  rcases o with _ | x
  · exact ⟨Int.natCast_nonneg default, Int.ofNat_lt.mpr hlt⟩
  · exact h x rfl

/-! ### Times that are made -/

/-- The time of narrowed components, or the one below where there is no such time. -/
def timeOr (base : NaiveTime) (c : Components) (sub : ℕ) : NaiveTime :=
  (fromHmsNano (asU32 (given c.hour base.hour)) (asU32 (given c.minute base.minute))
    (asU32 (given c.second base.second)) sub).getD base

/-- The hour, the minute and the second are the ones given. -/
structure ClockGiven (c : Components) (t : NaiveTime) : Prop where
  hour : ∀ h ∈ c.hour, (t.hour : ℤ) = h.1
  minute : ∀ m ∈ c.minute, (t.minute : ℤ) = m.1
  second : ∀ s ∈ c.second, (t.second : ℤ) = s.1

/-- The components given are in the ranges of their fields. -/
structure ClockRanges (c : Components) : Prop where
  hour : ∀ h ∈ c.hour, 0 ≤ h.1 ∧ h.1 < 24
  minute : ∀ m ∈ c.minute, 0 ≤ m.1 ∧ m.1 < 60
  second : ∀ s ∈ c.second, 0 ≤ s.1 ∧ s.1 < 60

/-- Nanoseconds that a time can have, which may be a leap second after a second 59. -/
def NanosValid (second n : ℤ) : Prop := n < 10 ^ 9 ∨ (second = 59 ∧ n < 2 * 10 ^ 9)

/-- A time that is made has the components just when they are in their ranges; a time that is kept
instead never has them all. -/
theorem timeOr_given_iff {base : NaiveTime} {c : Components} {sub : ℕ} {P : Prop} {total : ℤ}
    (hnone : ¬ P → sub = base.nanosecond) (hsome : P → sub = asU32 total) :
    (ClockGiven c (timeOr base c sub) ∧ (P → ((timeOr base c sub).nanosecond : ℤ) = total)) ↔
      ClockRanges c ∧ NanosValid (given c.second base.second) sub ∧ (P → InU32 total) := by
  have hhour := base.hour_lt
  have hminute := base.minute_lt
  have hsecond := base.second_lt
  have hnano := base.nanosecond_lt
  unfold timeOr
  constructor
  · rintro ⟨h, htotal⟩
    -- The time is made: the one below, if it had the components, would be made of them.
    have hmade :
        ∃ t, fromHmsNano (asU32 (given c.hour base.hour)) (asU32 (given c.minute base.minute))
        (asU32 (given c.second base.second)) sub = some t := by
      rw [← isSome_iff_exists, isSome_iff_ne_none]
      intro hmiss
      rw [hmiss, getD_none] at h htotal
      have hsub : sub = base.nanosecond := by
        by_cases hP : P
        · rw [hsome hP, ← htotal hP]
          exact asU32_natCast (by omega)
        · exact hnone hP
      rw [given_eq h.hour fun _ => rfl, given_eq h.minute fun _ => rfl,
        given_eq h.second fun _ => rfl, hsub,
        asU32_natCast (by omega), asU32_natCast (by omega), asU32_natCast (by omega),
        fromHmsNano_eq_some.mpr ⟨rfl, rfl, rfl, rfl⟩] at hmiss
      cases hmiss
    obtain ⟨t, hmade⟩ := hmade
    rw [hmade, getD_some] at h htotal
    obtain ⟨hh, hm, hs, hn⟩ := fromHmsNano_eq_some.mp hmade
    have hhour' := t.hour_lt
    have hminute' := t.minute_lt
    have hsecond' := t.second_lt
    have hnano' := t.nanosecond_lt
    have hgiven : given c.second base.second = t.second := given_eq h.second fun hnone => by
      rw [hs, given, hnone]
      exact asU32_natCast (by omega)
    refine ⟨⟨fun x hx => ?_, fun x hx => ?_, fun x hx => ?_⟩, ?_, fun hP => ?_⟩
    · have hx := h.hour x hx
      omega
    · have hx := h.minute x hx
      omega
    · have hx := h.second x hx
      omega
    · rw [NanosValid, hgiven, ← hn]
      omega
    · rw [← asU32_eq_iff, ← hsome hP, ← hn, htotal hP]
  · rintro ⟨h, hvalid, htotal⟩
    have hh := given_range hhour h.hour
    have hm := given_range hminute h.minute
    have hs := given_range hsecond h.second
    have hhc : ((asU32 (given c.hour base.hour) : ℕ) : ℤ) = given c.hour base.hour :=
      asU32_eq_iff.mpr ⟨hh.1, by omega⟩
    have hmc : ((asU32 (given c.minute base.minute) : ℕ) : ℤ) = given c.minute base.minute :=
      asU32_eq_iff.mpr ⟨hm.1, by omega⟩
    have hsc : ((asU32 (given c.second base.second) : ℕ) : ℤ) = given c.second base.second :=
      asU32_eq_iff.mpr ⟨hs.1, by omega⟩
    unfold NanosValid at hvalid
    obtain ⟨t, hmade⟩ := @exists_fromHmsNano (asU32 (given c.hour base.hour))
      (asU32 (given c.minute base.minute)) (asU32 (given c.second base.second)) sub
      (by omega) (by omega) (by omega) (by omega)
    rw [hmade, getD_some]
    obtain ⟨hth, htm, hts, htn⟩ := fromHmsNano_eq_some.mp hmade
    refine ⟨⟨fun x hx => ?_, fun x hx => ?_, fun x hx => ?_⟩, fun hP => ?_⟩
    · rw [hth, hhc, given_some hx]
    · rw [htm, hmc, given_some hx]
    · rw [hts, hsc, given_some hx]
    · rw [htn, hsome hP, asU32_eq_iff.mpr (htotal hP)]

/-! ### Overrides -/

/-- The sums of the parts of a second fit. -/
def OverrideFits (sub : ℕ) (c : Components) : Prop :=
  HasSub c → Fits (given c.millisecond (sub / 1000000) * 1000000) ∧
    Fits (given c.microsecond (sub / 1000 % 1000) * 1000) ∧
    Fits (given c.millisecond (sub / 1000000) * 1000000 +
    given c.microsecond (sub / 1000 % 1000) * 1000) ∧
    Fits (subTotal sub c)

/-- The nanosecond after the overrides. -/
def overriddenSub (t : NaiveTime) (c : Components) : ℕ :=
  if HasSub c then asU32 (subTotal t.nanosecond c) else t.nanosecond

lemma applyTimeFieldOverrides_yields (t : NaiveTime) (c : Components) :
    Yields (applyTimeFieldOverrides t c) (OverrideFits t.nanosecond c)
      (timeOr t c (overriddenSub t c)) := by
  by_cases h : HasSub c
  · have heq : applyTimeFieldOverrides t c =
        (checkedI64 (given c.millisecond (t.nanosecond / 1000000 : ℕ) * 1000000) >>= fun ms =>
          checkedI64 (given c.microsecond (t.nanosecond / 1000 % 1000 : ℕ) * 1000) >>= fun us =>
          checkedI64 (ms + us) >>= fun sum =>
          checkedI64 (sum + given c.nanosecond (t.nanosecond % 1000 : ℕ)) >>= fun total =>
          .ok (timeOr t c (asU32 total))) := by
      unfold applyTimeFieldOverrides
      exact if_pos h
    rw [heq, overriddenSub, if_pos h]
    refine Yields.congr ?_ (imp_iff_right h).symm
    exact .bind (.checkedI64 _) fun _ => .bind (.checkedI64 _) fun _ =>
      .bind (.checkedI64 _) fun _ =>
      Yields.congr (.bind (.checkedI64 _) fun _ => .ok _) (and_iff_left trivial)
  · have heq : applyTimeFieldOverrides t c = .ok (timeOr t c t.nanosecond) := by
      unfold applyTimeFieldOverrides
      exact if_neg h
    rw [heq, overriddenSub, if_neg h]
    exact (Yields.ok _).congr (iff_of_true trivial fun hsub => absurd hsub h)

/-- The overrides are in the ranges of their fields, with the nanoseconds that they make. -/
@[mk_iff]
structure OverrideRanges (t : NaiveTime) (c : Components) : Prop where
  clock : ClockRanges c
  nanosecond : NanosValid (given c.second t.second) (overriddenSub t c)
  total : HasSub c → InU32 (subTotal t.nanosecond c)

lemma timeGiven_iff {sub : ℕ} {c : Components} :
    TimeGiven sub c t ↔ ClockGiven c t ∧ (HasSub c → (t.nanosecond : ℤ) = subTotal sub c) :=
  ⟨fun ⟨h₁, h₂, h₃, h₄⟩ => ⟨⟨h₁, h₂, h₃⟩, h₄⟩, fun ⟨⟨h₁, h₂, h₃⟩, h₄⟩ => ⟨h₁, h₂, h₃, h₄⟩⟩

lemma overridden_given_iff (t : NaiveTime) (c : Components) :
    TimeGiven t.nanosecond c (timeOr t c (overriddenSub t c)) ↔ OverrideRanges t c := by
  have hnone : ¬ HasSub c → overriddenSub t c = t.nanosecond := fun h => if_neg h
  have hsome : HasSub c → overriddenSub t c = asU32 (subTotal t.nanosecond c) := fun h => if_pos h
  rw [timeGiven_iff, timeOr_given_iff hnone hsome, overrideRanges_iff]

/-! ### Checked components -/

/-- The sums of the parts of a second fit. -/
def CheckedFits (c : Components) : Prop :=
  Fits (given c.microsecond 0 * 1000) ∧ Fits (given c.nanosecond 0 + given c.microsecond 0 * 1000) ∧
    Fits (given c.millisecond 0 * 1000000) ∧
    Fits (given c.nanosecond 0 + given c.microsecond 0 * 1000 + given c.millisecond 0 * 1000000)

/-- The nanoseconds of the parts of a second. -/
def totalNanos (c : Components) : ℤ :=
  given c.nanosecond 0 + given c.microsecond 0 * 1000 + given c.millisecond 0 * 1000000

lemma subTotal_zero (c : Components) : subTotal 0 c = totalNanos c := by
  unfold subTotal totalNanos
  norm_num
  ring

/-- The components are in the ranges of a time of day. -/
def InRange (c : Components) : Prop :=
  (0 ≤ given c.hour 0 ∧ given c.hour 0 < 24) ∧ (0 ≤ given c.minute 0 ∧ given c.minute 0 < 60) ∧
    (0 ≤ given c.second 0 ∧ given c.second 0 < 60) ∧ 0 ≤ totalNanos c ∧ totalNanos c < 1000000000

instance (c : Components) : Decidable (InRange c) :=
  inferInstanceAs (Decidable ((_ ∧ _) ∧ (_ ∧ _) ∧ (_ ∧ _) ∧ _ ∧ _))

def checkedTime (c : Components) : Option NaiveTime :=
  if InRange c then
    fromHmsNano (asU32 (given c.hour 0)) (asU32 (given c.minute 0)) (asU32 (given c.second 0))
      (asU32 (totalNanos c))
  else none

lemma objToNaiveTimeChecked_reads (c : Components) :
    Reads (objToNaiveTimeChecked c) (CheckedFits c) (checkedTime c) := by
  refine .bind_yields (.checkedI64 _)
    (.bind_yields (.checkedI64 _) (.bind_yields (.checkedI64 _) ?_))
  refine Reads.congr (.bind_yields (.checkedI64 _) ?_) (and_iff_left trivial) rfl
  by_cases h : InRange c
  · have hnot : ¬(¬(0 ≤ given c.hour 0 ∧ given c.hour 0 < 24) ∨
        ¬(0 ≤ given c.minute 0 ∧ given c.minute 0 < 60) ∨
        ¬(0 ≤ given c.second 0 ∧ given c.second 0 < 60) ∨
        ¬(0 ≤ totalNanos c ∧ totalNanos c < 1000000000)) := by
      unfold InRange at h
      tauto
    rw [checkedTime, if_pos h]
    exact (Reads.okOr _ _).of_eq (if_neg hnot).symm
  · have hout : ¬(0 ≤ given c.hour 0 ∧ given c.hour 0 < 24) ∨
        ¬(0 ≤ given c.minute 0 ∧ given c.minute 0 < 60) ∨
        ¬(0 ≤ given c.second 0 ∧ given c.second 0 < 60) ∨
        ¬(0 ≤ totalNanos c ∧ totalNanos c < 1000000000) := by
      unfold InRange at h
      tauto
    rw [checkedTime, if_neg h]
    exact (Reads.fail _).of_eq (if_pos hout).symm

lemma checkedTime_spec {c : Components} (h : checkedTime c = some t) :
    (t.hour : ℤ) = given c.hour 0 ∧ (t.minute : ℤ) = given c.minute 0 ∧
      (t.second : ℤ) = given c.second 0 ∧ (t.nanosecond : ℤ) = totalNanos c := by
  unfold checkedTime at h
  split at h
  next hrange =>
    obtain ⟨hh, hm, hs, hn⟩ := hrange
    obtain ⟨hth, htm, hts, htn⟩ := fromHmsNano_eq_some.mp h
    rw [hth, htm, hts, htn]
    refine ⟨asU32_eq_iff.mpr ⟨hh.1, ?_⟩, asU32_eq_iff.mpr ⟨hm.1, ?_⟩, asU32_eq_iff.mpr ⟨hs.1, ?_⟩,
      asU32_eq_iff.mpr ⟨hn.1, ?_⟩⟩
    all_goals
      norm_num
      omega
  next => cases h

lemma timeGiven_of_checkedTime {c : Components} (h : checkedTime c = some t) :
    TimeGiven 0 c t := by
  obtain ⟨hh, hm, hs, hn⟩ := checkedTime_spec h
  refine ⟨fun x hx => ?_, fun x hx => ?_, fun x hx => ?_, fun _ => ?_⟩
  · rw [hh, given_some hx]
  · rw [hm, given_some hx]
  · rw [hs, given_some hx]
  · rw [hn, subTotal_zero]


lemma isSome_checkedTime {c : Components} : (checkedTime c).isSome ↔ InRange c := by
  unfold checkedTime
  split
  next h =>
    refine iff_of_true ?_ h
    obtain ⟨hh, hm, hs, hn⟩ := h
    have hhc : ((asU32 (given c.hour 0) : ℕ) : ℤ) = given c.hour 0 :=
      asU32_eq_iff.mpr ⟨hh.1, by omega⟩
    have hmc : ((asU32 (given c.minute 0) : ℕ) : ℤ) = given c.minute 0 :=
      asU32_eq_iff.mpr ⟨hm.1, by omega⟩
    have hsc : ((asU32 (given c.second 0) : ℕ) : ℤ) = given c.second 0 :=
      asU32_eq_iff.mpr ⟨hs.1, by omega⟩
    have hnc : ((asU32 (totalNanos c) : ℕ) : ℤ) = totalNanos c := asU32_eq_iff.mpr ⟨hn.1, by omega⟩
    obtain ⟨t, ht⟩ := @exists_fromHmsNano (asU32 (given c.hour 0)) (asU32 (given c.minute 0))
      (asU32 (given c.second 0)) (asU32 (totalNanos c)) (by omega) (by omega) (by omega) (by omega)
    rw [ht]
    rfl
  next h => exact iff_of_false Bool.false_ne_true h

/-! ### The functions of a map -/

/-- The digits that the nanoseconds made have in the places of parts of a second not given. -/
def unnamedNanos (c : Components) : ℕ :=
  (if c.millisecond = none then (totalNanos c).toNat / 1000000 * 1000000 else 0) +
    (if c.microsecond = none then (totalNanos c).toNat / 1000 % 1000 * 1000 else 0) +
    if c.nanosecond = none then (totalNanos c).toNat % 1000 else 0

/-- The three digits of every part of a second not given are zero, or counting them twice makes a
full second before second 59, which is no time, so that the first one is kept. -/
def TwiceExact (c : Components) : Prop :=
  HasSub c → unnamedNanos c = 0 ∨
    (given c.second 0 ≠ 59 ∧ 1000000000 ≤ totalNanos c + unnamedNanos c)

/-- What has to hold of the components of `time` and `localtime`. -/
def TimeTaken (base : Option NaiveTime) (c : Components) : Prop :=
  match base with
  | some t => OverrideFits t.nanosecond c ∧ OverrideRanges t c
  | none => CheckedFits c ∧ (InRange c → OverrideFits (totalNanos c).toNat c ∧ TwiceExact c)

/-- The parts of a second that the components are taken on top of. -/
def baseNanos (base : Option NaiveTime) : ℕ := base.elim 0 NaiveTime.nanosecond

lemma subTotal_totalNanos (c : Components) :
    subTotal (totalNanos c).toNat c = totalNanos c + unnamedNanos c := by
  unfold subTotal unnamedNanos
  generalize (totalNanos c).toNat = n
  unfold totalNanos
  rcases c.millisecond with _ | ms <;> rcases c.microsecond with _ | us <;>
    rcases c.nanosecond with _ | ns <;> simp [given] <;> ring

/-- The parts of a second, applied once more to what they make, make the same or nothing. -/
theorem twiceExact_iff {c : Components} (h : InRange c) : TwiceExact c ↔
    (HasSub c → (asU32 (subTotal (totalNanos c).toNat c) : ℤ) = totalNanos c ∨
      ¬ NanosValid (given c.second 0) (asU32 (subTotal (totalNanos c).toNat c))) := by
  obtain ⟨-, -, -, hpos, hlt⟩ := h
  have hunnamed : unnamedNanos c ≤ (totalNanos c).toNat := by
    unfold unnamedNanos
    split_ifs <;> omega
  have hword : (asU32 (totalNanos c + unnamedNanos c) : ℤ) = totalNanos c + unnamedNanos c :=
    asU32_eq_iff.mpr ⟨by omega, by norm_num; omega⟩
  unfold TwiceExact NanosValid
  rw [subTotal_totalNanos, hword]
  refine forall_congr' fun _ => or_congr ?_ ?_
  · omega
  · omega

theorem twice_given_iff {c : Components} (h : checkedTime c = some t) :
    TimeGiven 0 c (timeOr t c (overriddenSub t c)) ↔ TwiceExact c := by
  obtain ⟨hh, hm, hs, hn⟩ := checkedTime_spec h
  have hgiven := timeGiven_of_checkedTime h
  have hhour := t.hour_lt
  have hminute := t.minute_lt
  have hsecond := t.second_lt
  have hsub : (totalNanos c).toNat = t.nanosecond := by omega
  have hhc : asU32 (given c.hour t.hour) = t.hour := by
    rw [given_eq hgiven.hour fun _ => rfl]
    exact asU32_natCast (by omega)
  have hmc : asU32 (given c.minute t.minute) = t.minute := by
    rw [given_eq hgiven.minute fun _ => rfl]
    exact asU32_natCast (by omega)
  have hsc : asU32 (given c.second t.second) = t.second := by
    rw [given_eq hgiven.second fun _ => rfl]
    exact asU32_natCast (by omega)
  rw [twiceExact_iff (isSome_checkedTime.mp (isSome_of_mem h)), hsub, ← hn, ← hs]
  unfold timeOr
  rw [hhc, hmc, hsc]
  by_cases hHas : HasSub c
  · rw [overriddenSub, if_pos hHas, imp_iff_right hHas]
    rcases hmade :
      fromHmsNano t.hour t.minute t.second (asU32 (subTotal t.nanosecond c)) with _ | t'
    · -- No such time: the first one is kept.
      refine iff_of_true hgiven (.inr fun hvalid => ?_)
      unfold NanosValid at hvalid
      obtain ⟨t', ht'⟩ := @exists_fromHmsNano t.hour t.minute t.second
        (asU32 (subTotal t.nanosecond c)) hhour hminute hsecond (by omega)
      rw [hmade] at ht'
      cases ht'
    · obtain ⟨hth, htm, hts, htn⟩ := fromHmsNano_eq_some.mp hmade
      have hlt := t'.nanosecond_lt
      have hvalid : NanosValid t.second (asU32 (subTotal t.nanosecond c)) := by
        rw [NanosValid, ← htn, ← hts]
        omega
      rw [getD_some, timeGiven_iff, htn, or_iff_left (not_not.mpr hvalid), subTotal_zero, ← hn]
      refine ⟨fun hboth => hboth.2 hHas,
        fun heq => ⟨⟨fun x hx => ?_, fun x hx => ?_, fun x hx => ?_⟩,
        fun _ => heq⟩⟩
      · rw [hth, hgiven.hour x hx]
      · rw [htm, hgiven.minute x hx]
      · rw [hts, hgiven.second x hx]
  · rw [overriddenSub, if_neg hHas, fromHmsNano_eq_some.mpr ⟨rfl, rfl, rfl, rfl⟩, getD_some]
    exact iff_of_true hgiven fun h => absurd h hHas

lemma exactly_takeTime (base : Option NaiveTime) (c : Components) :
    Exactly (takeTime base c) (TimeGiven (baseNanos base) c) ↔ TimeTaken base c := by
  cases base with
  | some t =>
    refine (Reads.of_yields (applyTimeFieldOverrides_yields t c)).exactly.trans
      (and_congr_right fun _ => ?_)
    refine ⟨fun hall => (overridden_given_iff t c).mp (hall _ rfl), fun h t' ht' => ?_⟩
    obtain rfl := some.inj ht'
    exact (overridden_given_iff t c).mpr h
  | none =>
    have hreads := (objToNaiveTimeChecked_reads c).bind (f := fun t => applyTimeFieldOverrides t c)
      fun t _ => Reads.of_yields (applyTimeFieldOverrides_yields t c)
    refine hreads.exactly.trans (and_assoc.trans (and_congr_right fun _ => ?_))
    constructor
    · rintro ⟨hfits, hall⟩ hrange
      obtain ⟨t, ht⟩ := isSome_iff_exists.mp (Iff.mpr isSome_checkedTime hrange)
      have hsub : (totalNanos c).toNat = t.nanosecond := by
        have hn := (checkedTime_spec ht).2.2.2
        omega
      rw [hsub]
      refine ⟨hfits t ht, (twice_given_iff ht).mp (hall _ ?_)⟩
      rw [ht]
      rfl
    · intro h
      refine ⟨fun t ht => ?_, fun t' ht' => ?_⟩
      · have hrange := Iff.mp isSome_checkedTime (isSome_iff_exists.mpr ⟨t, ht⟩)
        have hn := (checkedTime_spec ht).2.2.2
        have hsub : (totalNanos c).toNat = t.nanosecond := by omega
        rw [← hsub]
        exact (h hrange).1
      · obtain ⟨t, ht, heq⟩ := bind_eq_some_iff.mp ht'
        obtain rfl := some.inj heq
        have hrange := Iff.mp isSome_checkedTime (isSome_iff_exists.mpr ⟨t, ht⟩)
        exact (twice_given_iff ht).mpr (h hrange).2

/-! ### Dates with a time -/

/-- The components given are in the ranges that overrides are checked against. -/
structure Validated (c : Components) : Prop where
  hour : ∀ x ∈ c.hour, 0 ≤ x.1 ∧ x.1 < 24
  minute : ∀ x ∈ c.minute, 0 ≤ x.1 ∧ x.1 < 60
  second : ∀ x ∈ c.second, 0 ≤ x.1 ∧ x.1 < 60
  millisecond : ∀ x ∈ c.millisecond, 0 ≤ x.1 ∧ x.1 < 1000
  microsecond : ∀ x ∈ c.microsecond, 0 ≤ x.1 ∧ x.1 < 1000000
  nanosecond : ∀ x ∈ c.nanosecond, 0 ≤ x.1 ∧ x.1 < 1000000000

lemma checkRange_cases (name : String) (o : Option I64) (bound : ℤ) :
    ((∀ x ∈ o, 0 ≤ x.1 ∧ x.1 < bound) ∧ checkRange name o bound = .ok ()) ∨
      (¬ (∀ x ∈ o, 0 ≤ x.1 ∧ x.1 < bound) ∧ ∃ message, checkRange name o bound = fail message) := by
  cases o with
  | none => exact .inl ⟨fun x hx => (nomatch hx), rfl⟩
  | some v =>
    by_cases h : 0 ≤ v.1 ∧ v.1 < bound
    · refine .inl ⟨fun x hx => ?_, if_pos h⟩
      obtain rfl := some.inj hx
      exact h
    · exact .inr ⟨fun hall => h (hall v rfl), _, if_neg h⟩

lemma validateTimeOverrideRanges_cases (c : Components) :
    (Validated c ∧ validateTimeOverrideRanges c = .ok ()) ∨
      (¬ Validated c ∧ ∃ message, validateTimeOverrideRanges c = fail message) := by
  unfold validateTimeOverrideRanges
  rcases checkRange_cases "hour" c.hour 24 with ⟨h₁, heq⟩ | ⟨h, message, heq⟩
  swap
  · exact .inr ⟨fun hall => h hall.hour, message, by rw [heq]; rfl⟩
  rw [heq, ok_bind]
  rcases checkRange_cases "minute" c.minute 60 with ⟨h₂, heq⟩ | ⟨h, message, heq⟩
  swap
  · exact .inr ⟨fun hall => h hall.minute, message, by rw [heq]; rfl⟩
  rw [heq, ok_bind]
  rcases checkRange_cases "second" c.second 60 with ⟨h₃, heq⟩ | ⟨h, message, heq⟩
  swap
  · exact .inr ⟨fun hall => h hall.second, message, by rw [heq]; rfl⟩
  rw [heq, ok_bind]
  rcases checkRange_cases "millisecond" c.millisecond 1000 with ⟨h₄, heq⟩ | ⟨h, message, heq⟩
  swap
  · exact .inr ⟨fun hall => h hall.millisecond, message, by rw [heq]; rfl⟩
  rw [heq, ok_bind]
  rcases checkRange_cases "microsecond" c.microsecond 1000000 with ⟨h₅, heq⟩ | ⟨h, message, heq⟩
  swap
  · exact .inr ⟨fun hall => h hall.microsecond, message, by rw [heq]; rfl⟩
  rw [heq, ok_bind]
  rcases checkRange_cases "nanosecond" c.nanosecond 1000000000 with ⟨h₆, heq⟩ | ⟨h, message, heq⟩
  · exact .inl ⟨⟨h₁, h₂, h₃, h₄, h₅, h₆⟩, heq⟩
  · exact .inr ⟨fun hall => h hall.nanosecond, message, heq⟩

def DatetimeTimeFits (base : Option NaiveTime) (c : Components) : Prop :=
  match base with
  | some t => Validated c → OverrideFits t.nanosecond c
  | none => CheckedFits c

def DatetimeTimeAccepted (base : Option NaiveTime) (c : Components) : Prop :=
  match base with
  | some _ => Validated c
  | none => InRange c

def DatetimeTimeTaken (base : Option NaiveTime) (c : Components) : Prop :=
  ∀ t ∈ base, OverrideRanges t c

lemma takeDatetimeTime_reads (base : Option NaiveTime) (c : Components) :
    ∃ o, Reads (takeDatetimeTime base c) (DatetimeTimeFits base c) o ∧
      (o.isSome ↔ DatetimeTimeAccepted base c) ∧
      ∀ t ∈ o, TimeGiven (baseNanos base) c t ↔ DatetimeTimeTaken base c := by
  cases base with
  | none =>
    refine ⟨checkedTime c, objToNaiveTimeChecked_reads c, isSome_checkedTime, fun t ht => ?_⟩
    exact iff_of_true (timeGiven_of_checkedTime ht) fun t ht => nomatch ht
  | some t =>
    rcases validateTimeOverrideRanges_cases c with ⟨hvalid, heq⟩ | ⟨hvalid, message, heq⟩
    · refine ⟨some (timeOr t c (overriddenSub t c)), ?_, iff_of_true rfl hvalid, fun t' ht' => ?_⟩
      · rw [takeDatetimeTime, heq, ok_bind]
        refine Reads.of_yields ((applyTimeFieldOverrides_yields t c).congr ?_)
        exact (imp_iff_right hvalid).symm
      · obtain rfl := some.inj ht'
        refine (overridden_given_iff t c).trans ⟨fun h t' ht' => ?_, fun hall => hall t rfl⟩
        obtain rfl := some.inj ht'
        exact h
    · refine ⟨none, ?_, iff_of_false Bool.false_ne_true hvalid, fun t' ht' => nomatch ht'⟩
      rw [takeDatetimeTime, heq]
      exact (Reads.fail message).congr (iff_of_true trivial fun h => absurd h hvalid) rfl

/-- What has to hold of the components of `datetime` and `localdatetime`. -/
def DatetimeTaken (chrono : Chrono) (baseDate : Option NaiveDate) (baseTime : Option NaiveTime)
    (c : Components) : Prop :=
  (DatePath.of chrono baseDate c).Fits chrono ∧
    ∀ d ∈ (DatePath.of chrono baseDate c).made chrono, DatetimeTimeFits baseTime c ∧
      (DatetimeTimeAccepted baseTime c →
        (DatePath.of chrono baseDate c).Taken chrono c d ∧ DatetimeTimeTaken baseTime c)

lemma exactly_takeDatetime (chrono : Chrono) (hdays : CountsDays chrono)
    (baseDate : Option NaiveDate)
    (baseTime : Option NaiveTime) (c : Components) :
    Exactly (takeDatetime chrono baseDate baseTime c) (fun dt =>
      DateGiven chrono (DatePath.of chrono baseDate c).isWeek c dt.date ∧
        TimeGiven (baseNanos baseTime) c dt.time) ↔ DatetimeTaken chrono baseDate baseTime c := by
  obtain ⟨o, htime, haccepted, hgiven⟩ := takeDatetimeTime_reads baseTime c
  have hreads := (takeDate_reads chrono baseDate c).bind (f := fun d =>
    takeDatetimeTime baseTime c >>= fun t => .ok (⟨d, t⟩ : NaiveDateTime)) fun d _ =>
      htime.bind fun t _ => Reads.of_yields (Yields.ok _)
  refine hreads.exactly.trans (and_assoc.trans (and_congr_right fun _ => ?_))
  constructor
  · rintro ⟨hfits, hall⟩ d hd
    refine ⟨(hfits d hd).1, fun hacc => ?_⟩
    obtain ⟨t, ht⟩ := isSome_iff_exists.mp (haccepted.mpr hacc)
    obtain ⟨hdate, hclock⟩ := hall ⟨d, t⟩ (bind_eq_some_iff.mpr ⟨d, hd, by rw [ht]; rfl⟩)
    exact ⟨(takeDate_given_iff chrono hdays hd).mp hdate, (hgiven t ht).mp hclock⟩
  · intro h
    refine ⟨fun d hd => ⟨(h d hd).1, fun _ _ => trivial⟩, fun dt hdt => ?_⟩
    obtain ⟨d, hd, hrest⟩ := bind_eq_some_iff.mp hdt
    obtain ⟨t, ht, heq⟩ := bind_eq_some_iff.mp hrest
    obtain rfl := some.inj heq
    obtain ⟨hdate, hclock⟩ := (h d hd).2 (haccepted.mp (isSome_iff_exists.mpr ⟨t, ht⟩))
    exact ⟨(takeDate_given_iff chrono hdays hd).mpr hdate, (hgiven t ht).mpr hclock⟩

/-! ### Selected values -/

/-- The fields that a selected date is read from are taken. Zero counts as one there. -/
def StoredDateTaken (c : Components) : Prop :=
  (fromYmd (asI32 (given c.year 0)) (max (asU32 (given c.month 0)) 1)
    (max (asU32 (given c.day 0)) 1)).isSome →
    (∀ y ∈ c.year, InI32 y.1) ∧ (∀ m ∈ c.month, InU32 m.1 ∧ m.1 ≠ 0) ∧
    ∀ n ∈ c.day, InU32 n.1 ∧ n.1 ≠ 0

lemma max_asU32_given :
    (∀ x ∈ o, ((max (asU32 (given o 0)) 1 : ℕ) : ℤ) = x.1) ↔ ∀ x ∈ o, InU32 x.1 ∧ x.1 ≠ 0 := by
  refine forall_congr' fun x => imp_congr_right fun hx => ?_
  rw [given_some hx]
  unfold asU32 InU32
  norm_num
  omega

lemma exactly_objToNaiveDate (c : Components) :
    Exactly (objToNaiveDate c) (fun d => (∀ y ∈ c.year, d.year = y.1) ∧ MonthDayGiven c d) ↔
      StoredDateTaken c := by
  refine (Reads.okOr _ _).exactly.trans ((and_iff_right trivial).trans ?_)
  have hyear : (∀ y ∈ c.year, asI32 (given c.year 0) = y.1) ↔ ∀ y ∈ c.year, InI32 y.1 :=
    asI32_given fun x hx => (given_some hx).symm
  constructor
  · intro hall hsome
    obtain ⟨d, hd⟩ := isSome_iff_exists.mp hsome
    obtain ⟨hy, hm, hn⟩ := hall d hd
    obtain ⟨hdy, hdm, hdd⟩ := fromYmd_eq_some.mp hd
    rw [hdy] at hy
    rw [hdm] at hm
    rw [hdd] at hn
    exact ⟨hyear.mp hy, Iff.mp max_asU32_given hm, Iff.mp max_asU32_given hn⟩
  · intro h d hd
    obtain ⟨hy, hm, hn⟩ := h (isSome_iff_exists.mpr ⟨d, hd⟩)
    obtain ⟨hdy, hdm, hdd⟩ := fromYmd_eq_some.mp hd
    rw [MonthDayGiven, hdy, hdm, hdd]
    exact ⟨hyear.mpr hy, Iff.mpr max_asU32_given hm, Iff.mpr max_asU32_given hn⟩

/-- A part of a second is read from a selected time: the nanosecond of a temporal object, or any
part of another map. -/
def StoredSub (typed : Bool) (c : Components) : Prop :=
  if typed = true then c.nanosecond.isSome = true else HasSub c

/-- The nanoseconds of a selected time. -/
def storedTotal (typed : Bool) (c : Components) : ℤ :=
  if typed = true then given c.nanosecond 0 else totalNanos c

/-- The nanoseconds of narrowed parts. -/
def storedNanos (typed : Bool) (c : Components) : ℕ :=
  if typed = true then asU32 (given c.nanosecond 0)
  else asU32 (given c.nanosecond 0) + asU32 (given c.microsecond 0) * 1000 +
    asU32 (given c.millisecond 0) * 1000000

/-- The sums of the narrowed parts of a second fit into `u32`. -/
def StoredFits (typed : Bool) (c : Components) : Prop :=
  typed = false → asU32 (given c.microsecond 0) * 1000 < 2 ^ 32 ∧
    asU32 (given c.nanosecond 0) + asU32 (given c.microsecond 0) * 1000 < 2 ^ 32 ∧
    asU32 (given c.millisecond 0) * 1000000 < 2 ^ 32 ∧ storedNanos false c < 2 ^ 32

def StoredTimeTaken (typed : Bool) (c : Components) : Prop :=
  StoredFits typed c ∧ ClockRanges c ∧ NanosValid (given c.second 0) (storedNanos typed c) ∧
    (StoredSub typed c → InU32 (storedTotal typed c))

lemma checkedU32_yields (n : ℕ) : Yields (checkedU32 n) (n < 2 ^ 32) n :=
  ⟨fun h => if_pos h, fun h => if_neg h⟩

lemma objToNaiveTime_yields (typed : Bool) (c : Components) :
    Yields (objToNaiveTime typed c) (StoredFits typed c)
    (timeOr .midnight c (storedNanos typed c)) := by
  cases typed with
  | true =>
    exact (Yields.ok _).congr (iff_of_true trivial fun h => (Bool.false_ne_true h.symm).elim)
  | false =>
    refine Yields.congr ?_ (imp_iff_right rfl).symm
    exact .bind (checkedU32_yields _) fun _ => .bind (checkedU32_yields _) fun _ =>
      .bind (checkedU32_yields _) fun _ =>
        Yields.congr (.bind (checkedU32_yields _) fun _ => .ok _) (and_iff_left trivial)

lemma storedNanos_eq {typed : Bool} {c : Components} (h : StoredFits typed c) :
    storedNanos typed c = asU32 (storedTotal typed c) := by
  cases typed with
  | true => rfl
  | false =>
    obtain ⟨-, -, -, hlt⟩ := h rfl
    have hcast : ∀ i : ℤ, ((asU32 i : ℕ) : ℤ) = i % 2 ^ 32 := fun i =>
      Int.toNat_of_nonneg (Int.emod_nonneg i (by norm_num))
    have hmod : ((storedNanos false c : ℕ) : ℤ) = (asU32 (totalNanos c) : ℕ) := by
      rw [hcast]
      unfold storedNanos at hlt ⊢
      unfold totalNanos
      have hns := hcast (given c.nanosecond 0)
      have hus := hcast (given c.microsecond 0)
      have hms := hcast (given c.millisecond 0)
      simp only [Bool.false_eq_true, if_false] at hlt ⊢
      push_cast
      omega
    exact_mod_cast hmod

lemma exactly_objToNaiveTime (typed : Bool) (c : Components) :
    Exactly (objToNaiveTime typed c) (fun t => ClockGiven c t ∧
      (StoredSub typed c → (t.nanosecond : ℤ) = storedTotal typed c)) ↔
      StoredTimeTaken typed c := by
  refine (Reads.of_yields (objToNaiveTime_yields typed c)).exactly.trans
    (and_congr_right fun hfits => ?_)
  have hnone : ¬ StoredSub typed c → storedNanos typed c = NaiveTime.midnight.nanosecond := by
    intro h
    cases typed with
    | true =>
      have hns : c.nanosecond = none := not_isSome_iff_eq_none.mp h
      rw [storedNanos, if_pos rfl, hns]
      rfl
    | false =>
      have hparts : c.millisecond = none ∧ c.microsecond = none ∧ c.nanosecond = none := by
        have h : ¬ HasSub c := h
        rw [HasSub, not_or, not_or] at h
        simp only [not_isSome_iff_eq_none] at h
        exact h
      rw [storedNanos, if_neg Bool.false_ne_true, hparts.1, hparts.2.1, hparts.2.2]
      rfl
  have hiff := @timeOr_given_iff .midnight c (storedNanos typed c) (StoredSub typed c)
    (storedTotal typed c) hnone fun _ => storedNanos_eq hfits
  refine Iff.trans ⟨fun hall => hall _ rfl, fun h t ht => ?_⟩ hiff
  obtain rfl := some.inj ht
  exact h

/-! ## All of them -/

/-- For every map of components, the functions of a map return an error or a value whose fields are
the components just when these are taken. -/
theorem components_exact_iff (chrono : Chrono) (hdays : CountsDays chrono) :
    (∀ base c, Exactly (takeDate chrono base c)
      (DateGiven chrono (DatePath.of chrono base c).isWeek c) ↔ DateTaken chrono base c) ∧
    (∀ base c, Exactly (takeTime base c) (TimeGiven (baseNanos base) c) ↔ TimeTaken base c) ∧
    (∀ baseDate baseTime c, Exactly (takeDatetime chrono baseDate baseTime c) (fun dt =>
      DateGiven chrono (DatePath.of chrono baseDate c).isWeek c dt.date ∧
        TimeGiven (baseNanos baseTime) c dt.time) ↔ DatetimeTaken chrono baseDate baseTime c) ∧
    (∀ c, Exactly (objToNaiveDate c) (fun d => (∀ y ∈ c.year, d.year = y.1) ∧ MonthDayGiven c d) ↔
      StoredDateTaken c) ∧
    (∀ typed c, Exactly (objToNaiveTime typed c) (fun t => ClockGiven c t ∧
      (StoredSub typed c → (t.nanosecond : ℤ) = storedTotal typed c)) ↔ StoredTimeTaken typed c) :=
  ⟨exactly_takeDate chrono hdays, exactly_takeTime, exactly_takeDatetime chrono hdays,
    exactly_objToNaiveDate, exactly_objToNaiveTime⟩

def Components.empty : Components :=
  ⟨none, none, none, none, none, none, none, none, none, none, none, none, none, none, none⟩

/-- A microsecond that is no whole millisecond is taken on top of a time. -/
theorem components_exact_microsecond :
    Exactly (takeTime (some .midnight) { Components.empty with microsecond := some (toI64 1500) })
      (TimeGiven 0 { Components.empty with microsecond := some (toI64 1500) }) := by
  refine ((components_exact_iff gregorian fun _ _ => rfl).2.1 (some .midnight) _).mpr ?_
  have hfits : ∀ i : ℤ, (decide (-2 ^ 63 ≤ i) && decide (i < 2 ^ 63)) = true → Fits i := fun i h =>
    ⟨of_decide_eq_true (Bool.and_eq_true_iff.mp h).1,
      of_decide_eq_true (Bool.and_eq_true_iff.mp h).2⟩
  refine ⟨fun _ => ⟨hfits _ ?_, hfits _ ?_, hfits _ ?_, hfits _ ?_⟩,
    ⟨⟨fun x hx => (nomatch hx), fun x hx => (nomatch hx), fun x hx => (nomatch hx)⟩, .inl ?_,
    fun _ => ⟨?_, ?_⟩⟩⟩
  all_goals decide +kernel

/-- The year counts modulo `2 ^ 32`, and a time from its microseconds alone counts the whole
milliseconds of them twice. -/
theorem components_not_exact :
    ¬ (∀ base c, Exactly (takeDate gregorian base c)
        (DateGiven gregorian (DatePath.of gregorian base c).isWeek c)) ∧
      ¬ ∀ base c, Exactly (takeTime base c) (TimeGiven (baseNanos base) c) := by
  constructor
  · intro hall
    have hmade : takeDate gregorian none { Components.empty with
        year := some (toI64 4294969316) } =
          .ok ⟨⟨2020, 1, 1, by decide, by decide⟩, by decide⟩ := by
      decide +kernel
    have hyear := ((hall none _).2 _ hmade).year (toI64 4294969316) rfl
    revert hyear
    decide +kernel
  · intro hall
    have hmade : takeTime none { Components.empty with microsecond := some (toI64 1500) } =
        .ok ⟨0, 0, 0, 2500000, by decide, by decide, by decide, by decide⟩ := by
      decide +kernel
    have hnano := ((hall none _).2 _ hmade).nanosecond (.inr (.inl rfl))
    revert hnano
    decide +kernel

end IssunDB.Temporal
