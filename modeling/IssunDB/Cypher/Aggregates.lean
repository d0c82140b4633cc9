import IssunDB.ColumnCompare
import IssunDB.Cypher.Equivalence
import IssunDB.Cypher.Sorting
import IssunDB.Lib.Extrema
import IssunDB.Lib.PartialSums
import IssunDB.Lib.RunningSum

/-!
# Aggregates

An aggregate folds the values of a group in the order in which the rows come, and the planner
decides that order. `aggregates_iff` says when it cannot be told from the answer. Integer sums
switch to doubles as soon as a partial sum leaves the range of an `i64`, so the sum is the exact
total in every order iff the positive and the negative integers do not leave the range by
themselves. The extrema keep the first value until a smaller one comes, so their answers agree iff
all values that can be kept in some order are equal.
-/

namespace IssunDB

open List

namespace I64

lemma wrap_bounds (i : ℤ) : -2 ^ 63 ≤ i.bmod (2 ^ 64) ∧ i.bmod (2 ^ 64) < 2 ^ 63 := by
  have hlo := Int.le_bmod (x := i) (m := 2 ^ 64) (by decide)
  have hhi := Int.bmod_lt (x := i) (m := 2 ^ 64) (by decide)
  omega

/-- The integer modulo `2 ^ 64`. -/
def wrap (i : ℤ) : I64 := ⟨i.bmod (2 ^ 64), wrap_bounds i⟩

/-- `i64::checked_add`. -/
def checkedAdd (a b : I64) : Option I64 :=
  if h : -2 ^ 63 ≤ a.1 + b.1 ∧ a.1 + b.1 < 2 ^ 63 then some ⟨a.1 + b.1, h⟩ else none

end I64

namespace Cypher

/-! ## Folding values -/

/-- `nan_value` and `infinity_value`. -/
def sentinel (tag : String) : Json := .object [("__type__", .string tag)]

lemma natAbs_val_lt {c : RunningSum} (h : c.infinite = false) : c.val.natAbs < 2 ^ 2098 := by
  have hlo := c.lower
  have hhi := c.upper
  have hne := of_decide_eq_false h
  rw [not_or] at hne
  have habs : |c.val| < F64.infinity :=
    abs_lt.mpr ⟨lt_of_le_of_ne hlo (Ne.symm hne.1), lt_of_le_of_ne hhi hne.2⟩
  rw [F64.infinity, Int.abs_eq_natAbs] at habs
  exact_mod_cast habs

/-- `float_result`, of a sum that takes up doubles one by one and so is never NaN. -/
def floatResult (c : RunningSum) : Json :=
  if h : c.infinite = false then .number (.float (F64.ofScaled c.val (natAbs_val_lt h)))
  else sentinel (if c.val < 0 then "__-Infinity__" else "__Infinity__")

/-- Per-group accumulator for one aggregation function. -/
structure AggState where
  count : I64
  sum : RunningSum
  /-- The running total, while every summed value is an integer. -/
  sumInt : I64
  /-- A value that is no integer was summed, or the integer total overflowed. -/
  sumIsFloat : Bool
  min : Option Json
  max : Option Json
  collect : List Json
  distinctSeen : List (List Char)
  values : List F64

/-- `Value::as_f64`. -/
def asF64 : Json → Option F64
  | .number x => some x.asF64
  | _ => none

namespace AggState

/-- `AggState::new`. -/
def new : AggState where
  count := .wrap 0
  sum := .zero
  sumInt := .wrap 0
  sumIsFloat := false
  min := none
  max := none
  collect := []
  distinctSeen := []
  values := []

def addInt (st : AggState) (i : I64) : AggState :=
  if st.sumIsFloat then { st with sum := st.sum.add i.asF64.scaled }
  else
    match st.sumInt.checkedAdd i with
    | some s => { st with sumInt := s }
    | none =>
      -- the total overflowed: fall back to doubles
      { st with sum := (RunningSum.round st.sumInt.asF64.scaled).add i.asF64.scaled
                sumIsFloat := true }

def addFloat (st : AggState) (f : F64) : AggState :=
  let st := if st.sumIsFloat then st
    else { st with sum := RunningSum.round st.sumInt.asF64.scaled, sumIsFloat := true }
  { st with sum := st.sum.add f.scaled }

def addValue (st : AggState) (val : Json) : AggState :=
  match val.asI64 with
  | some i => st.addInt i
  | none =>
    match asF64 val with
    | some f => st.addFloat f
    | none => st

/-- Keep the value where it comes before the one kept. -/
def keep (before : Ordering) (kept : Option Json) (val : Json) : Option Json :=
  match kept with
  | none => some val
  | some prev => some (if jsonCmpTotal val prev = before then val else prev)

section Fold

variable (ft : FloatTexts)

/-- Remember other keys. -/
def withSeen (st : AggState) (seen : List (List Char)) : AggState :=
  { st with distinctSeen := seen }

def unlessSeen (st : AggState) (distinct : Bool) (val : Json) (go : AggState → AggState) :
    AggState :=
  if distinct then
    if canonicalCellKey ft val ∈ st.distinctSeen then st
    else go (st.withSeen (canonicalCellKey ft val :: st.distinctSeen))
  else go st

/-- `AggState::fold`. -/
def fold (fn : AggFn) (st : AggState) (val : Json) : AggState :=
  match fn with
  | .count distinct =>
    if val = .null then st
    else st.unlessSeen ft distinct val fun st => { st with count := .wrap (st.count.1 + 1) }
  | .sum distinct => if val = .null then st else st.unlessSeen ft distinct val (·.addValue val)
  | .avg distinct =>
    if val = .null then st
    else st.unlessSeen ft distinct val fun st =>
      match asF64 val with
      | some n => { st with sum := st.sum.add n.scaled, count := .wrap (st.count.1 + 1) }
      | none => st
  | .min _ => if val = .null then st else { st with min := keep .lt st.min val }
  | .max _ => if val = .null then st else { st with max := keep .gt st.max val }
  | .collect distinct =>
    if val = .null then st
    else st.unlessSeen ft distinct val fun st => { st with collect := st.collect ++ [val] }
  | .stDev distinct | .stDevP distinct =>
    match asF64 val with
    | some n => st.unlessSeen ft distinct val fun st => { st with values := st.values ++ [n] }
    | none => st
  | .percentileDisc _ | .percentileCont _ =>
    match asF64 val with
    | some n => { st with values := st.values ++ [n] }
    | none => st

end Fold

/-- `AggState::finalize`. `statistics` computes the functions that divide doubles. -/
def finalize (statistics : AggFn → AggState → Except String Json) (fn : AggFn) (st : AggState) :
    Except String Json :=
  match fn with
  | .count _ => .ok (.ofI64 st.count)
  | .sum _ => .ok (if st.sumIsFloat then floatResult st.sum else .ofI64 st.sumInt)
  | .min _ => .ok (st.min.getD .null)
  | .max _ => .ok (st.max.getD .null)
  | .collect _ => .ok (.array st.collect)
  | fn => statistics fn st

end AggState

/-- What a group answers whose rows come in the order of the values. -/
def aggregate (ft : FloatTexts) (statistics : AggFn → AggState → Except String Json) (fn : AggFn)
    (values : List Json) : Except String Json :=
  (values.foldl (AggState.fold ft fn) .new).finalize statistics fn

/-! ## The extrema -/

section Extrema

variable {ft : FloatTexts} {statistics : AggFn → AggState → Except String Json}

def nonNulls (values : List Json) : List Json := values.filter (· ≠ .null)

/-- The comparator by which `Max` keeps the least value. -/
def descendingCmp (a b : Json) : Ordering := (jsonCmpTotal a b).swap

lemma foldl_keep {cmp : Json → Json → Ordering} {before : Ordering}
    (h : ∀ a b, jsonCmpTotal a b = before ↔ cmp a b = .lt) (values : List Json) :
    values.foldl (fun kept v => if v = .null then kept else AggState.keep before kept v) none =
      leastOf cmp (nonNulls values) := by
  induction values using List.reverseRecOn with
  | nil => rfl
  | append_singleton values v ih =>
    rw [foldl_append, ih, foldl_cons, foldl_nil, nonNulls, nonNulls,
      filter_append]
    by_cases hv : v = .null
    · subst hv
      rw [if_pos rfl, show [Json.null].filter (· ≠ .null) = [] from rfl, append_nil]
    · rw [if_neg hv, show [v].filter (· ≠ .null) = [v] by simp [hv], leastOf_concat]
      cases leastOf cmp (values.filter (· ≠ .null)) with
      | none => rfl
      | some prev => simp only [AggState.keep, h]

lemma aggregate_min (distinct : Bool) (values : List Json) :
    aggregate ft statistics (.min distinct) values = .ok (minOf values) := by
  have hkept : values.foldl (fun kept v => if v = .null then kept else AggState.keep .lt kept v)
      AggState.new.min = (values.foldl (AggState.fold ft (.min distinct)) .new).min := by
    refine foldl_hom AggState.min fun st v => ?_
    show _ = (if v = .null then st else _ : AggState).min
    split <;> rfl
  have hleast : _ = leastOf jsonCmpTotal (nonNulls values) :=
    foldl_keep (fun _ _ => Iff.rfl) values
  show Except.ok _ = _
  rw [← hkept]
  exact congrArg (fun o => Except.ok (Option.getD o Json.null)) hleast

lemma aggregate_max (distinct : Bool) (values : List Json) :
    aggregate ft statistics (.max distinct) values = .ok (maxOf values) := by
  have hkept : values.foldl (fun kept v => if v = .null then kept else AggState.keep .gt kept v)
      AggState.new.max = (values.foldl (AggState.fold ft (.max distinct)) .new).max := by
    refine foldl_hom AggState.max fun st v => ?_
    show _ = (if v = .null then st else _ : AggState).max
    split <;> rfl
  have hgreatest : _ = leastOf descendingCmp (nonNulls values) :=
    foldl_keep (fun _ _ => Ordering.swap_eq_lt.symm) values
  show Except.ok _ = _
  rw [← hkept]
  exact congrArg (fun o => Except.ok (Option.getD o Json.null)) hgreatest

end Extrema

/-! ## What a distinct aggregate takes -/

section Taken

variable (ft : FloatTexts) (distinct : Bool)

/-- The values that are not null, for a distinct aggregate each once. -/
def taken : List (List Char) → List Json → List Json
  | _, [] => []
  | seen, v :: values =>
    if v = .null then taken seen values
    else if distinct then
      if canonicalCellKey ft v ∈ seen then taken seen values
      else v :: taken (canonicalCellKey ft v :: seen) values
    else v :: taken seen values

variable {ft distinct}

lemma foldl_unlessSeen {go : Json → AggState → AggState}
    (hgo : ∀ v st seen, go v (st.withSeen seen) = (go v st).withSeen seen)
    {step : AggState → Json → AggState}
    (hstep : ∀ st v, step st v = if v = .null then st else st.unlessSeen ft distinct v (go v))
    (values : List Json) (st : AggState) : ∃ seen, values.foldl step st =
      ((taken ft distinct st.distinctSeen values).foldl (fun st v =>
      go v st) st).withSeen seen := by
  have hrun : ∀ (l : List Json) (st : AggState) seen,
      l.foldl (fun st v => go v st) (st.withSeen seen) =
        (l.foldl (fun st v => go v st) st).withSeen seen := by
    intro l
    induction l with
    | nil => exact fun _ _ => rfl
    | cons v l ih =>
      intro st seen
      rw [foldl_cons, foldl_cons, hgo, ih]
  have hkeep : ∀ v (st : AggState), (go v st).distinctSeen = st.distinctSeen := by
    intro v st
    have hsame : go v st = (go v st).withSeen st.distinctSeen := hgo v st st.distinctSeen
    rw [hsame]
    rfl
  induction values generalizing st with
  | nil => exact ⟨st.distinctSeen, rfl⟩
  | cons v values ih =>
    rw [foldl_cons, hstep, taken]
    by_cases hv : v = .null
    · rw [if_pos hv, if_pos hv]
      exact ih st
    rw [if_neg hv, if_neg hv, AggState.unlessSeen]
    by_cases hd : distinct = true
    · rw [if_pos hd, if_pos hd]
      by_cases hseen : canonicalCellKey ft v ∈ st.distinctSeen
      · rw [if_pos hseen, if_pos hseen]
        exact ih st
      · rw [if_neg hseen, if_neg hseen, hgo, foldl_cons]
        obtain ⟨seen, hih⟩ := ih ((go v st).withSeen (canonicalCellKey ft v :: st.distinctSeen))
        rw [hrun] at hih
        exact ⟨seen, hih⟩
    · rw [if_neg hd, if_neg hd, foldl_cons]
      obtain ⟨seen, hih⟩ := ih (go v st)
      rw [hkeep] at hih
      exact ⟨seen, hih⟩

lemma taken_false (seen : List (List Char)) (values : List Json) :
    taken ft false seen values = nonNulls values := by
  induction values with
  | nil => rfl
  | cons v values ih =>
    rw [taken, nonNulls, filter_cons]
    by_cases hv : v = .null
    · rw [if_pos hv, if_neg (by simp [hv]), ih]
      rfl
    · rw [if_neg hv, if_neg Bool.false_ne_true, if_pos (decide_eq_true hv), ih]
      rfl

/-- The keys of what a distinct aggregate takes: every key once. -/
theorem taken_true (seen : List (List Char)) (values : List Json) :
    ((taken ft true seen values).map (canonicalCellKey ft)).Nodup ∧
      (∀ v ∈ taken ft true seen values, v ∈ nonNulls values) ∧
      ∀ k, k ∈ (taken ft true seen values).map (canonicalCellKey ft) ↔
        k ∈ (nonNulls values).map (canonicalCellKey ft) ∧ k ∉ seen := by
  induction values generalizing seen with
  | nil => exact ⟨nodup_nil, by simp [taken], by simp [taken, nonNulls]⟩
  | cons v values ih =>
    rw [taken, nonNulls, filter_cons, ← nonNulls]
    by_cases hv : v = .null
    · rw [if_pos hv, if_neg (by simp [hv])]
      exact ih seen
    rw [if_neg hv, if_pos rfl, if_pos (decide_eq_true hv)]
    by_cases hseen : canonicalCellKey ft v ∈ seen
    · rw [if_pos hseen]
      obtain ⟨hnodup, hsub, hmem⟩ := ih seen
      refine ⟨hnodup, fun w hw => mem_cons_of_mem _ (hsub w hw), fun k => ?_⟩
      rw [hmem, map_cons, mem_cons]
      constructor
      · exact fun h => ⟨.inr h.1, h.2⟩
      · rintro ⟨rfl | hk, hne⟩
        · exact absurd hseen hne
        · exact ⟨hk, hne⟩
    · rw [if_neg hseen]
      obtain ⟨hnodup, hsub, hmem⟩ := ih (canonicalCellKey ft v :: seen)
      refine ⟨?_, fun w hw => ?_, fun k => ?_⟩
      · rw [map_cons, nodup_cons, hmem]
        exact ⟨fun h => h.2 mem_cons_self, hnodup⟩
      · rcases mem_cons.mp hw with rfl | hw
        · exact mem_cons_self
        · exact mem_cons_of_mem _ (hsub w hw)
      · rw [map_cons, mem_cons, hmem, map_cons, mem_cons, mem_cons, not_or]
        by_cases hk : k = canonicalCellKey ft v
        · rw [hk]
          simp [hseen]
        · simp [hk]

/-- How many values an aggregate takes does not depend on their order. -/
theorem length_taken {values values' : List Json} (h : values.Perm values') :
    (taken ft distinct [] values).length = (taken ft distinct [] values').length := by
  have hnonNulls : (nonNulls values).Perm (nonNulls values') := h.filter _
  cases distinct with
  | false => rw [taken_false, taken_false, hnonNulls.length_eq]
  | true =>
    obtain ⟨hnodup, -, hmem⟩ := @taken_true ft [] values
    obtain ⟨hnodup', -, hmem'⟩ := @taken_true ft [] values'
    have hperm := (perm_ext_iff_of_nodup hnodup hnodup').mpr fun k => by
      rw [hmem, hmem', (hnonNulls.map _).mem_iff]
    simpa using hperm.length_eq

end Taken

/-! ## Counts -/

section Counts

variable {ft : FloatTexts} {statistics : AggFn → AggState → Except String Json}

lemma aggregate_count (distinct : Bool) (values : List Json) :
    aggregate ft statistics (.count distinct) values =
      .ok (.ofI64 (.wrap (taken ft distinct [] values).length)) := by
  let go : Json → AggState → AggState := fun _ st => { st with count := .wrap (st.count.1 + 1) }
  obtain ⟨seen, hfold⟩ := @foldl_unlessSeen ft distinct go (fun _ _ _ => rfl)
    (AggState.fold ft (.count distinct)) (fun _ _ => rfl) values .new
  have hcount : ∀ (l : List Json) (st : AggState) (n : ℤ), st.count = .wrap n →
      (l.foldl (fun st v => go v st) st).count = .wrap (n + l.length) := by
    intro l
    induction l with
    | nil => exact fun st n h => by simpa using h
    | cons v l ih =>
      intro st n h
      rw [foldl_cons, ih (go v st) (n + 1), length_cons]
      · congr 1
        push_cast
        ring
      · show I64.wrap (st.count.1 + 1) = _
        rw [h]
        exact Subtype.ext Int.bmod_add_bmod
  show Except.ok (Json.ofI64 _) = _
  rw [hfold]
  have hnew := hcount (taken ft distinct AggState.new.distinctSeen values) .new 0 rfl
  rw [zero_add] at hnew
  exact congrArg (fun count => Except.ok (Json.ofI64 count)) hnew

end Counts

/-! ## Sums of integers -/

section Sums

variable {ft : FloatTexts} {statistics : AggFn → AggState → Except String Json}

def intValues (l : List (Option I64)) : List Json :=
  l.map fun o => (o.map Json.ofI64).getD .null

def integers (l : List (Option I64)) : List ℤ := l.reduceOption.map Subtype.val

/-- The sum as an `i64`, where every partial sum is one. -/
def i64Sum (s : ℤ) (l : List ℤ) : Option ℤ := checkedSum (-2 ^ 63) (2 ^ 63 - 1) s l

lemma ofI64_ne_null (i : I64) : Json.ofI64 i ≠ .null := by
  unfold Json.ofI64
  split <;> simp

lemma asI64_ofI64 (i : I64) : (Json.ofI64 i).asI64 = some i := Json.asI64_eq_some.mpr rfl

lemma floatResult_ne_ofI64 (c : RunningSum) (i : I64) : floatResult c ≠ .ofI64 i := by
  unfold Json.ofI64
  split <;> unfold floatResult sentinel <;> split <;> simp

lemma cellForm_ofI64 (i : I64) : cellForm (.ofI64 i) = .int i.1 := by
  unfold Json.ofI64
  split
  next h => exact congrArg KeyForm.int (Int.toNat_of_nonneg h)
  next => rfl

lemma cellKey_ofI64_injective : Function.Injective fun i => canonicalCellKey ft (.ofI64 i) := by
  intro i j h
  have hform := canonicalCellKey_eq_iff.mp h
  rw [cellForm_ofI64, cellForm_ofI64] at hform
  exact Subtype.ext (KeyForm.int.inj hform)

lemma sumIsFloat_foldl_addInt {st : AggState} (h : st.sumIsFloat = true) (l : List I64) :
    (l.foldl AggState.addInt st).sumIsFloat = true := by
  induction l generalizing st with
  | nil => exact h
  | cons i l ih =>
    apply ih
    unfold AggState.addInt
    rw [if_pos h]
    exact h

/-- The fold adds integers as long as the partial sums are `i64`. -/
theorem foldl_addInt {st : AggState} (h : st.sumIsFloat = false) (l : List I64) :
    match i64Sum st.sumInt.1 (l.map Subtype.val) with
    | some t => (l.foldl AggState.addInt st).sumIsFloat = false ∧
      (l.foldl AggState.addInt st).sumInt.1 = t
    | none => (l.foldl AggState.addInt st).sumIsFloat = true := by
  induction l generalizing st with
  | nil => exact ⟨h, rfl⟩
  | cons i l ih =>
    rw [map_cons, i64Sum, checkedSum, foldl_cons]
    by_cases hfits : -2 ^ 63 ≤ st.sumInt.1 + i.1 ∧ st.sumInt.1 + i.1 ≤ 2 ^ 63 - 1
    · have hadd : st.addInt i = { st with sumInt := ⟨st.sumInt.1 + i.1, by omega⟩ } := by
        unfold AggState.addInt I64.checkedAdd
        rw [if_neg (by rw [h]; exact Bool.false_ne_true), dif_pos (by omega)]
      rw [if_pos hfits, hadd]
      exact @ih { st with sumInt := ⟨st.sumInt.1 + i.1, by omega⟩ } h
    · rw [if_neg hfits]
      apply sumIsFloat_foldl_addInt
      unfold AggState.addInt I64.checkedAdd
      rw [if_neg (by rw [h]; exact Bool.false_ne_true), dif_neg (by omega)]

lemma nonNulls_intValues (l : List (Option I64)) :
    nonNulls (intValues l) = l.reduceOption.map .ofI64 := by
  induction l with
  | nil => rfl
  | cons o l ih =>
    rw [intValues, map_cons, nonNulls, filter_cons, ← nonNulls, ← intValues, ih]
    cases o with
    | none => rfl
    | some i =>
      rw [reduceOption_cons_of_some, map_cons]
      exact if_pos (decide_eq_true (ofI64_ne_null i))

/-- The integers that a sum takes, in the order of the rows. -/
theorem taken_intValues (distinct : Bool) (l : List (Option I64)) : ∃ ints : List I64,
    taken ft distinct [] (intValues l) = ints.map .ofI64 ∧
    ints.Perm (if distinct then l.reduceOption.dedup else l.reduceOption) := by
  cases distinct with
  | false => exact ⟨l.reduceOption, by rw [taken_false, nonNulls_intValues], .refl _⟩
  | true =>
    obtain ⟨hnodup, hsub, hmem⟩ := @taken_true ft [] (intValues l)
    rw [nonNulls_intValues] at hsub hmem
    obtain ⟨ints, hints⟩ : ∃ ints : List I64,
        taken ft true [] (intValues l) = ints.map .ofI64 := by
      refine ⟨(taken ft true [] (intValues l)).filterMap Json.asI64, ?_⟩
      rw [map_filterMap]
      symm
      refine (filterMap_congr (g := some) fun v hv => ?_).trans filterMap_some
      obtain ⟨i, -, rfl⟩ := mem_map.mp (hsub v hv)
      rw [asI64_ofI64]
      rfl
    rw [hints, map_map] at hnodup hmem
    refine ⟨ints, hints, ?_⟩
    rw [if_pos rfl]
    refine (perm_ext_iff_of_nodup (List.Nodup.of_map _ hnodup) (nodup_dedup _)).mpr
      fun i => ?_
    have hkey := hmem (canonicalCellKey ft (.ofI64 i))
    rw [map_map] at hkey
    have hinj : Function.Injective (canonicalCellKey ft ∘ Json.ofI64) := cellKey_ofI64_injective
    rw [mem_dedup, ← mem_map_of_injective hinj, ← mem_map_of_injective hinj]
    exact hkey.trans (and_iff_left not_mem_nil)

lemma aggregate_sum {distinct : Bool} {l : List (Option I64)} {ints : List I64}
    (h : taken ft distinct [] (intValues l) = ints.map .ofI64) :
    (∀ t : I64, i64Sum 0 (ints.map Subtype.val) = some t.1 →
      aggregate ft statistics (.sum distinct) (intValues l) = .ok (.ofI64 t)) ∧
    (i64Sum 0 (ints.map Subtype.val) = none →
      ∀ t : I64, aggregate ft statistics (.sum distinct) (intValues l) ≠ .ok (.ofI64 t)) := by
  obtain ⟨seen, hfold⟩ := @foldl_unlessSeen ft distinct
    (fun v st => st.addValue v) (fun v st seen => by
      unfold AggState.addValue AggState.addInt AggState.addFloat AggState.withSeen
      dsimp only
      split
      · split
        · rfl
        · split <;> rfl
      · split
        · split <;> rfl
        · rfl)
    (AggState.fold ft (.sum distinct)) (fun _ _ => rfl) (intValues l) .new
  have hints : (ints.map Json.ofI64).foldl (fun st v => AggState.addValue st v) .new =
      ints.foldl AggState.addInt .new := by
    rw [foldl_map]
    congr 1
    funext st i
    unfold AggState.addValue
    rw [asI64_ofI64]
  have hanswer : aggregate ft statistics (.sum distinct) (intValues l) =
      .ok (if (ints.foldl AggState.addInt .new).sumIsFloat then
        floatResult (ints.foldl AggState.addInt .new).sum
      else .ofI64 (ints.foldl AggState.addInt .new).sumInt) := by
    show AggState.finalize statistics (.sum distinct) _ = _
    rw [hfold, show AggState.new.distinctSeen = [] from rfl, h, hints]
    rfl
  have hsum := @foldl_addInt AggState.new rfl ints
  rw [hanswer]
  constructor
  · intro t ht
    rw [show AggState.new.sumInt.1 = 0 from rfl, ht] at hsum
    rw [hsum.1, if_neg Bool.false_ne_true, Subtype.ext hsum.2]
  · intro hnone t heq
    rw [show AggState.new.sumInt.1 = 0 from rfl, hnone] at hsum
    rw [if_pos hsum] at heq
    exact floatResult_ne_ofI64 _ t (Except.ok.inj heq)

end Sums

/-! ## Order of the rows -/

section Orders

variable (ft : FloatTexts) (statistics : AggFn → AggState → Except String Json)

def integerFns : List AggFn :=
  [.sum false, .sum true, .count false, .count true, .min false, .min true, .max false, .max true]

/-- In every order of the rows the aggregates of integers answer the same, and the sum the exact
total where that is an `i64`. -/
structure IntegersAgree (l : List (Option I64)) : Prop where
  same : ∀ l₁ l₂ : List (Option I64), l₁.Perm l → l₂.Perm l → ∀ fn ∈ integerFns,
    aggregate ft statistics fn (intValues l₁) = aggregate ft statistics fn (intValues l₂)
  exact_sum : ∀ l₁ : List (Option I64), l₁.Perm l → ∀ t : I64, t.1 = (integers l).sum →
    aggregate ft statistics (.sum false) (intValues l₁) = .ok (.ofI64 t)

def valueFns : List AggFn :=
  [.count false, .count true, .min false, .min true, .max false, .max true]

/-- Answers that are equal, or both null. -/
def SameAnswer (v w : Json) : Prop := cypherEq v w = some true ∨ v = .null ∧ w = .null

/-- In every order of the rows the aggregates answer the same. -/
def ValuesAgree (values : List Json) : Prop :=
  ∀ values₁ values₂ : List Json, values₁.Perm values → values₂.Perm values → ∀ fn ∈ valueFns,
    ∃ v w, aggregate ft statistics fn values₁ = .ok v ∧ aggregate ft statistics fn values₂ = .ok w ∧
      SameAnswer v w

variable {ft statistics}

variable {l : List (Option I64)}

/-- The integers can come in any order. -/
theorem exists_perm_integers {ints : List ℤ} (h : ints.Perm (integers l)) :
    ∃ l' : List (Option I64), l'.Perm l ∧ integers l' = ints := by
  have hwrap : ∀ i : I64, I64.wrap i.1 = i := fun i =>
    Subtype.ext (Int.bmod_eq_of_le (by have := i.2; omega) (by have := i.2; omega))
  have hvalue : ∀ i ∈ ints, (I64.wrap i).1 = i := by
    intro i hi
    obtain ⟨j, -, rfl⟩ := mem_map.mp (h.mem_iff.mp hi)
    rw [hwrap]
  have hsome : ∀ l : List (Option I64), (integers l).map (fun i => some (I64.wrap i)) =
      l.filter Option.isSome := by
    intro l
    induction l with
    | nil => rfl
    | cons o l ih =>
      cases o with
      | none => exact ih
      | some i =>
        rw [integers, reduceOption_cons_of_some, map_cons, map_cons, hwrap,
          filter_cons_of_pos rfl]
        exact congrArg _ ih
  refine ⟨ints.map (fun i => some (I64.wrap i)) ++ l.filter (fun o => !o.isSome), ?_, ?_⟩
  · refine ((h.map _).append_right _).trans ?_
    rw [hsome]
    exact filter_append_perm Option.isSome l
  · have hnone : (l.filter fun o => !o.isSome).reduceOption = [] := by
      rw [List.reduceOption, filterMap_eq_nil_iff]
      intro o ho
      simpa using (mem_filter.mp ho).2
    have hall : (ints.map fun i => some (I64.wrap i)).reduceOption = ints.map I64.wrap := by
      rw [List.reduceOption, filterMap_map]
      exact congrFun filterMap_eq_map ints
    rw [integers, reduceOption_append, hnone, append_nil, hall, map_map]
    exact (map_congr_left hvalue).trans (map_id ints)

lemma sameAnswer_count (n : I64) : SameAnswer (.ofI64 n) (.ofI64 n) := by
  obtain ⟨x, hx⟩ : ∃ x, Json.ofI64 n = .number x := by
    unfold Json.ofI64
    split <;> exact ⟨_, rfl⟩
  rw [hx]
  refine .inl ?_
  rw [cypherEq_numbers, numberCmp_eq_iff.mp (numberCmp_self x)]

/-- The values that some order of the rows makes the extremum. -/
def Extremal (cmp : Json → Json → Ordering) (values : List Json) (m : Json) : Prop :=
  Attains cmp (nonNulls values) m

/-- An extremum answers the same in every order iff the values it can answer are equal. -/
theorem extrema_agree_iff {cmp : Json → Json → Ordering} {values : List Json} :
    (∀ values₁ values₂ : List Json, values₁.Perm values → values₂.Perm values →
      SameAnswer ((leastOf cmp (nonNulls values₁)).getD .null)
        ((leastOf cmp (nonNulls values₂)).getD .null)) ↔
      ∀ m m', Extremal cmp values m → Extremal cmp values m' → cypherEq m m' = some true := by
  constructor
  · intro h m m' hm hm'
    -- an order of the values that are no nulls is an order of all of them
    have horder : ∀ {m}, Extremal cmp values m → ∃ values₁ : List Json, values₁.Perm values ∧
        leastOf cmp (nonNulls values₁) = some m := by
      intro m hm
      obtain ⟨l, hperm, hleast⟩ := exists_perm_leastOf_iff.mpr hm
      refine ⟨l ++ values.filter (fun v => !decide (v ≠ .null)), ?_, ?_⟩
      · exact (hperm.append_right _).trans (filter_append_perm _ values)
      · have hl : nonNulls l = l := by
          refine filter_eq_self.mpr fun v hv => ?_
          exact (mem_filter.mp (hperm.mem_iff.mp hv)).2
        have hnulls : nonNulls (values.filter fun v => !decide (v ≠ .null)) = [] := by
          refine filter_eq_nil_iff.mpr fun v hv => ?_
          simpa using (mem_filter.mp hv).2
        have hsplit : nonNulls (l ++ values.filter fun v => !decide (v ≠ .null)) =
            nonNulls l ++ nonNulls (values.filter fun v => !decide (v ≠ .null)) :=
          filter_append ..
        rw [hsplit, hl, hnulls, append_nil, hleast]
    have hnotNull : ∀ {m}, Extremal cmp values m → m ≠ .null := by
      rintro m ⟨chain, rest, hperm, hlast, -, -⟩
      have hmem := hperm.mem_iff.mp (mem_append_left _ (mem_of_getLast? hlast))
      simpa using (mem_filter.mp hmem).2
    obtain ⟨values₁, hperm₁, hleast₁⟩ := horder hm
    obtain ⟨values₂, hperm₂, hleast₂⟩ := horder hm'
    have hsame := h values₁ values₂ hperm₁ hperm₂
    rw [hleast₁, hleast₂] at hsame
    rcases hsame with heq | ⟨hnull, -⟩
    · exact heq
    · exact absurd hnull (hnotNull hm)
  · intro h values₁ values₂ hperm₁ hperm₂
    have hattains : ∀ {values' : List Json} {m}, values'.Perm values →
        leastOf cmp (nonNulls values') = some m → Extremal cmp values m := fun hperm hleast =>
      exists_perm_leastOf_iff.mp ⟨_, hperm.filter _, hleast⟩
    have hlen : (nonNulls values₁).length = (nonNulls values₂).length :=
      ((hperm₁.trans hperm₂.symm).filter _).length_eq
    rcases hv : nonNulls values₁ with _ | ⟨v, vs⟩ <;> rcases hw : nonNulls values₂ with _ | ⟨w, ws⟩
    · exact .inr ⟨rfl, rfl⟩
    · rw [hv, hw] at hlen
      cases hlen
    · rw [hv, hw] at hlen
      cases hlen
    · rw [leastOf_cons, leastOf_cons]
      exact .inl (h _ _ (hattains hperm₁ (by rw [hv, leastOf_cons]; rfl))
        (hattains hperm₂ (by rw [hw, leastOf_cons]; rfl)))

/-! ## The result -/

/-- The integers that a sum takes. -/
def addends (distinct : Bool) (l : List (Option I64)) : List I64 :=
  if distinct then l.reduceOption.dedup else l.reduceOption

lemma addends_bounds (distinct : Bool)
    (h : -2 ^ 63 ≤ negSum (integers l) ∧ posSum (integers l) < 2 ^ 63) :
    -2 ^ 63 ≤ negSum ((addends distinct l).map Subtype.val) ∧
      posSum ((addends distinct l).map Subtype.val) < 2 ^ 63 := by
  have hsub : ((addends distinct l).map Subtype.val).Sublist (integers l) := by
    refine List.Sublist.map _ ?_
    unfold addends
    split
    · exact dedup_sublist _
    · exact List.Sublist.refl _
  have hpos := posSum_le_of_sublist hsub
  have hneg := negSum_le_of_sublist hsub
  omega

/-- Where no order leaves the range, a sum is exact. -/
theorem aggregate_sum_of_bounds (distinct : Bool) {l l₁ : List (Option I64)} (hperm : l₁.Perm l)
    (h : -2 ^ 63 ≤ negSum (integers l) ∧ posSum (integers l) < 2 ^ 63) :
    ∃ t : I64, t.1 = ((addends distinct l).map Subtype.val).sum ∧
      aggregate ft statistics (.sum distinct) (intValues l₁) = .ok (.ofI64 t) := by
  obtain ⟨hneg, hpos⟩ := addends_bounds distinct h
  obtain ⟨ints, htaken, hints⟩ := @taken_intValues ft distinct l₁
  have haddends : ints.Perm (addends distinct l) := by
    have hreduce : l₁.reduceOption.Perm l.reduceOption := hperm.filterMap id
    refine hints.trans ?_
    unfold addends
    split
    · exact hreduce.dedup
    · exact hreduce
  have hsum := (@forall_perm_checkedSum_iff (-2 ^ 63) (2 ^ 63 - 1) (by omega) _).mpr
    ⟨hneg, by omega⟩ (ints.map Subtype.val) (haddends.map _)
  have hbounds := (checkedSum_eq hsum).2 (by omega) (by omega)
  exact ⟨⟨((addends distinct l).map Subtype.val).sum, by omega⟩, rfl,
    (aggregate_sum htaken).1 ⟨((addends distinct l).map Subtype.val).sum, by omega⟩ hsum⟩

lemma jsonCmpTotal_ofI64 (i j : I64) :
    jsonCmpTotal (.ofI64 i) (.ofI64 j) = compare i.1 j.1 := by
  have hnumber : ∀ i : I64, ∃ x, Json.ofI64 i = .number x ∧ x.asI64 = some i.1 := by
    intro i
    have hi := i.2
    unfold Json.ofI64
    split
    next h => exact ⟨_, rfl, by simp [Number.asI64]; omega⟩
    next => exact ⟨_, rfl, rfl⟩
  obtain ⟨x, hx, hxi⟩ := hnumber i
  obtain ⟨y, hy, hyj⟩ := hnumber j
  rw [hx, hy, jsonCmpTotal_number, numberCmp, hxi, hyj]

lemma leastOf_integers {cmp : Json → Json → Ordering}
    (hcmp : cmp = jsonCmpTotal ∨ cmp = descendingCmp) {l l' : List (Option I64)}
    (hperm : l.Perm l') :
    leastOf cmp (nonNulls (intValues l)) = leastOf cmp (nonNulls (intValues l')) := by
  have horder : ComparesOn jsonCmpTotal (Set.range Json.ofI64) := by
    refine .ofKey (fun v => (v.asI64.map Subtype.val).getD 0) ?_
    rintro _ ⟨i, rfl⟩ _ ⟨j, rfl⟩
    rw [asI64_ofI64, asI64_ofI64]
    exact jsonCmpTotal_ofI64 i j
  have hties : ∀ i j : I64, cmp (.ofI64 i) (.ofI64 j) = .eq → i = j := by
    intro i j h
    have heq : jsonCmpTotal (.ofI64 i) (.ofI64 j) = .eq := by
      rcases hcmp with rfl | rfl
      · exact h
      · exact Ordering.swap_eq_eq.mp h
    rw [jsonCmpTotal_ofI64] at heq
    exact Subtype.ext (compare_eq_iff_eq.mp heq)
  have hlaw : ComparesOn cmp (Set.range Json.ofI64) := by
    rcases hcmp with rfl | rfl
    · exact horder
    · exact horder.reverse
  have hmem : ∀ l : List (Option I64), ∀ v ∈ nonNulls (intValues l), v ∈ Set.range Json.ofI64 := by
    intro l v hv
    rw [nonNulls_intValues] at hv
    obtain ⟨i, -, rfl⟩ := mem_map.mp hv
    exact ⟨i, rfl⟩
  have hrel := leastOf_ties hlaw (hmem l) ((hperm.map _).filter (· ≠ Json.null))
  have hspec := leastOf_spec hlaw (hmem l)
  have hspec' := leastOf_spec hlaw (hmem l')
  change Option.Rel _ (leastOf cmp (nonNulls (intValues l)))
    (leastOf cmp (nonNulls (intValues l'))) at hrel
  cases hleast : leastOf cmp (nonNulls (intValues l)) with
  | none =>
    rw [hleast] at hrel
    cases hleast' : leastOf cmp (nonNulls (intValues l')) with
    | none => rfl
    | some m => rw [hleast'] at hrel; cases hrel
  | some m =>
    rw [hleast] at hrel hspec
    cases hleast' : leastOf cmp (nonNulls (intValues l')) with
    | none => rw [hleast'] at hrel; cases hrel
    | some m' =>
      rw [hleast'] at hrel hspec'
      obtain ⟨i, rfl⟩ := hmem l m hspec.1
      obtain ⟨j, rfl⟩ := hmem l' m' hspec'.1
      cases hrel with
      | some h => rw [hties i j h]

/-- Where every order sums exactly, no order leaves the range. -/
theorem bounds_of_exact (hfits : -2 ^ 63 ≤ (integers l).sum ∧ (integers l).sum < 2 ^ 63)
    (h : IntegersAgree ft statistics l) :
    -2 ^ 63 ≤ negSum (integers l) ∧ posSum (integers l) < 2 ^ 63 := by
  have hevery : ∀ ints : List ℤ, ints.Perm (integers l) →
      checkedSum (-2 ^ 63) (2 ^ 63 - 1) 0 ints = some (integers l).sum := by
    intro ints hperm
    obtain ⟨l₁, hperm₁, rfl⟩ := exists_perm_integers hperm
    have hexact := h.exact_sum l₁ hperm₁ ⟨_, hfits⟩ rfl
    have hsum := @aggregate_sum ft statistics false _ _
      ((taken_false [] _).trans (nonNulls_intValues l₁))
    rcases htotal : i64Sum 0 (integers l₁) with _ | t
    · exact absurd hexact (hsum.2 htotal _)
    · obtain ⟨rfl, -⟩ := checkedSum_eq htotal
      rw [zero_add, hperm.sum_eq] at htotal
      exact htotal
  have hbounds := (forall_perm_checkedSum_iff (by omega)).mp hevery
  omega

/-- Where no order leaves the range, every order answers the same. -/
theorem integersAgree_of_bounds (h : -2 ^ 63 ≤ negSum (integers l) ∧ posSum (integers l) < 2 ^ 63) :
    IntegersAgree ft statistics l where
  same l₁ l₂ hperm₁ hperm₂ fn hfn := by
    have hperm := hperm₁.trans hperm₂.symm
    have hvalues : (intValues l₁).Perm (intValues l₂) := hperm.map _
    have hsums : ∀ distinct, aggregate ft statistics (.sum distinct) (intValues l₁) =
        aggregate ft statistics (.sum distinct) (intValues l₂) := by
      intro distinct
      obtain ⟨t₁, ht₁, hsum₁⟩ := @aggregate_sum_of_bounds ft statistics distinct _ _
        hperm₁ h
      obtain ⟨t₂, ht₂, hsum₂⟩ := @aggregate_sum_of_bounds ft statistics distinct _ _
        hperm₂ h
      rw [hsum₁, hsum₂, Subtype.ext (ht₁.trans ht₂.symm)]
    have hcounts : ∀ distinct, aggregate ft statistics (.count distinct) (intValues l₁) =
        aggregate ft statistics (.count distinct) (intValues l₂) := by
      intro distinct
      rw [aggregate_count, aggregate_count, length_taken hvalues]
    have hmin : minOf (intValues l₁) = minOf (intValues l₂) :=
      congrArg (fun o => Option.getD o Json.null) (leastOf_integers (.inl rfl) hperm)
    have hmax : maxOf (intValues l₁) = maxOf (intValues l₂) :=
      congrArg (fun o => Option.getD o Json.null) (leastOf_integers (.inr rfl) hperm)
    simp only [integerFns, mem_cons, not_mem_nil, or_false] at hfn
    rcases hfn with rfl | rfl | rfl | rfl | rfl | rfl | rfl | rfl
    · exact hsums _
    · exact hsums _
    · exact hcounts _
    · exact hcounts _
    · rw [aggregate_min, aggregate_min, hmin]
    · rw [aggregate_min, aggregate_min, hmin]
    · rw [aggregate_max, aggregate_max, hmax]
    · rw [aggregate_max, aggregate_max, hmax]
  exact_sum l₁ hperm t ht := by
    obtain ⟨t', ht', hexact⟩ := @aggregate_sum_of_bounds ft statistics false _ _
      hperm h
    rw [hexact, Subtype.ext (ht'.trans ht.symm)]

lemma valuesAgree_iff {values : List Json} : ValuesAgree ft statistics values ↔
    ∀ cmp ∈ [jsonCmpTotal, descendingCmp], ∀ m m',
      Extremal cmp values m → Extremal cmp values m' → cypherEq m m' = some true := by
  constructor
  · intro h cmp hcmp
    apply extrema_agree_iff.mp
    intro values₁ values₂ hperm₁ hperm₂
    simp only [mem_cons, not_mem_nil, or_false] at hcmp
    rcases hcmp with rfl | rfl
    · obtain ⟨v, w, hv, hw, hsame⟩ :=
        h values₁ values₂ hperm₁ hperm₂ (.min false) (by simp [valueFns])
      rw [aggregate_min] at hv hw
      obtain rfl := Except.ok.inj hv
      obtain rfl := Except.ok.inj hw
      exact hsame
    · obtain ⟨v, w, hv, hw, hsame⟩ :=
        h values₁ values₂ hperm₁ hperm₂ (.max false) (by simp [valueFns])
      rw [aggregate_max] at hv hw
      obtain rfl := Except.ok.inj hv
      obtain rfl := Except.ok.inj hw
      exact hsame
  · intro h values₁ values₂ hperm₁ hperm₂ fn hfn
    have hmin := extrema_agree_iff.mpr (h jsonCmpTotal (by simp)) values₁ values₂ hperm₁ hperm₂
    have hmax := extrema_agree_iff.mpr (h descendingCmp (by simp)) values₁ values₂ hperm₁ hperm₂
    have hcounts : ∀ distinct, ∃ v w, aggregate ft statistics (.count distinct) values₁ = .ok v ∧
        aggregate ft statistics (.count distinct) values₂ = .ok w ∧ SameAnswer v w := by
      intro distinct
      refine ⟨_, _, aggregate_count distinct values₁, aggregate_count distinct values₂, ?_⟩
      rw [length_taken (hperm₁.trans hperm₂.symm)]
      exact sameAnswer_count _
    simp only [valueFns, mem_cons, not_mem_nil, or_false] at hfn
    rcases hfn with rfl | rfl | rfl | rfl | rfl | rfl
    · exact hcounts _
    · exact hcounts _
    · exact ⟨_, _, aggregate_min _ _, aggregate_min _ _, hmin⟩
    · exact ⟨_, _, aggregate_min _ _, aggregate_min _ _, hmin⟩
    · exact ⟨_, _, aggregate_max _ _, aggregate_max _ _, hmax⟩
    · exact ⟨_, _, aggregate_max _ _, aggregate_max _ _, hmax⟩

/-- **When the order of the rows cannot be told.** The aggregates of integers answer the same in
every order, and the sum is the exact total, iff neither the positive nor the negative integers by
themselves leave the range of an `i64`. The extrema of any values answer the same iff the values
that some order makes the extremum are equal; counts always do. -/
theorem aggregates_iff (ft : FloatTexts) (statistics : AggFn → AggState → Except String Json) :
    (∀ l : List (Option I64),
      ((-2 ^ 63 ≤ (integers l).sum ∧ (integers l).sum < 2 ^ 63) ∧ IntegersAgree ft statistics l) ↔
        -2 ^ 63 ≤ negSum (integers l) ∧ posSum (integers l) < 2 ^ 63) ∧
    ∀ values : List Json, ValuesAgree ft statistics values ↔
      ∀ cmp ∈ [jsonCmpTotal, descendingCmp], ∀ m m',
        Extremal cmp values m → Extremal cmp values m' → cypherEq m m' = some true := by
  refine ⟨fun l => ⟨fun h => bounds_of_exact h.1 h.2, fun h => ⟨?_, integersAgree_of_bounds h⟩⟩,
    fun values => valuesAgree_iff⟩
  have hsum := checkedSum_eq ((@forall_perm_checkedSum_iff (-2 ^ 63) (2 ^ 63 - 1)
    (by omega) _).mpr (by omega) (integers l) (.refl _))
  have htotal := hsum.2 (by omega) (by omega)
  omega

/-- The largest integer, one and minus one. -/
def nearOverflow : List (Option I64) :=
  [some (.wrap (2 ^ 63 - 1)), some (.wrap 1), some (.wrap (-1))]

/-- The total is an `i64`, and the sum is a double. -/
theorem aggregates_depend_on_order :
    ¬ ((∀ l, IntegersAgree bitsTexts (fun _ _ => .error "") l) ∧
      ∀ values, ValuesAgree bitsTexts (fun _ _ => .error "") values) := by
  rintro ⟨h, -⟩
  have hbounds := bounds_of_exact (l := nearOverflow) (by decide) (h nearOverflow)
  exact absurd hbounds (by decide)

end Orders

end Cypher

end IssunDB
