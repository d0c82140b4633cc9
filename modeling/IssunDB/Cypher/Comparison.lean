import IssunDB.ColumnCompare
import IssunDB.Cypher.Equivalence

/-!
# Comparison operators

`compareValues` is the meaning of the comparison operators on evaluated operands. A filter over a
typed column compares the column with a constant in its own representation instead.
`cmpMask_eq_compareValues` states that the mask keeps just what the operator is true of.
-/

namespace IssunDB.Cypher

open List Option

def orderHolds (op : BinaryOperator) (c : Ordering) : Bool :=
  match op with
  | .lt => c = .lt
  | .gt => c = .gt
  | .le => c ≠ .gt
  | _ => c ≠ .lt

/-- `Value::is_number`. -/
def isNumber : Json → Bool
  | .number _ => true
  | _ => false

/-- `compare_values`. `none` is null. -/
def compareValues (lv rv : Json) (op : BinaryOperator) : Except String (Option Bool) :=
  if lv = .null ∨ rv = .null then .ok none
  else
    match op with
    | .eq => .ok (cypherEq lv rv)
    | .ne => .ok ((cypherEq lv rv).map not)
    | .lt | .gt | .le | .ge =>
      if isNan lv ∨ isNan rv then
        let other := if isNan lv then rv else lv
        .ok (if isNumber other ∨ isNan other then some false else none)
      else .ok ((jsonCmp lv rv).map (orderHolds op))
    | _ => .error "not a comparison operator"

def operatorOf : PropCmp → BinaryOperator
  | .eq => .eq
  | .ne => .ne
  | .lt => .lt
  | .le => .le
  | .gt => .gt
  | .ge => .ge

/-! ## Typed columns -/

variable {v w : Json}

/-- Values that are equal just when they are in the order `eq` compare by their order. -/
theorem compareValues_of_order {c : Ordering} (hv : v ≠ .null) (hw : w ≠ .null)
    (hnan : isNan v = false) (hnan' : isNan w = false)
    (hequal : cypherEq v w = some (decide (c = .eq))) (hcmp : jsonCmp v w = some c) (op : PropCmp) :
    compareValues v w (operatorOf op) = .ok (some (op.keeps c)) := by
  have hnull : ¬(v = .null ∨ w = .null) := not_or.mpr ⟨hv, hw⟩
  cases op <;>
    simp [compareValues, operatorOf, hnull, hnan, hnan', hequal, hcmp, PropCmp.keeps, orderHolds]

/-- A value that is unequal to another and not ordered against it satisfies `ne` alone. -/
theorem compareValues_of_mismatch (hv : v ≠ .null) (hequal : w ≠ .null → cypherEq v w = some false)
    (hcmp : jsonCmp v w = none) (op : PropCmp) :
    compareValues v w (operatorOf op) = .ok (some true) ↔ op.mismatchKeeps w = true := by
  by_cases hw : w = .null
  · simp [compareValues, PropCmp.mismatchKeeps, hw]
  · have hnull : ¬(v = .null ∨ w = .null) := not_or.mpr ⟨hv, hw⟩
    cases op with
    | eq | ne => simp [compareValues, operatorOf, PropCmp.mismatchKeeps, hv, hw, hequal hw]
    | _ =>
      simp only [compareValues, operatorOf, if_neg hnull, PropCmp.mismatchKeeps, if_neg hw, hcmp]
      split
      next => split <;> simp
      next => simp

/-- The scalars that a typed column holds. -/
inductive Scalar : Json → Prop
  | number (x : Number) : Scalar (.number x)
  | string (s : String) : Scalar (.string s)
  | bool (b : Bool) : Scalar (.bool b)

lemma Scalar.ne_null {v : Json} (h : Scalar v) : v ≠ .null := by
  cases h <;> exact Json.noConfusion

/-- How a scalar compares with a value of another kind. -/
theorem Scalar.mismatch (h : Scalar v) (hnumber : ∀ x y, v = .number x → w ≠ .number y)
    (hstring : ∀ x y, v = .string x → w ≠ .string y) (hbool : ∀ x y, v = .bool x → w ≠ .bool y)
    (op : PropCmp) :
    compareValues v w (operatorOf op) = .ok (some true) ↔ op.mismatchKeeps w = true := by
  refine compareValues_of_mismatch h.ne_null (fun hw => ?_) ?_ op
  · have hnan : isNan v = false := by cases h <;> rfl
    unfold cypherEq
    rw [if_neg (not_or.mpr ⟨h.ne_null, hw⟩)]
    split
    next => rfl
    next =>
      cases h <;> cases w <;>
        first
        | rfl
        | exact absurd rfl (hnumber _ _ rfl)
        | exact absurd rfl (hstring _ _ rfl)
        | exact absurd rfl (hbool _ _ rfl)
  · cases h <;> cases w <;>
      first
      | rfl
      | exact absurd rfl (hnumber _ _ rfl)
      | exact absurd rfl (hstring _ _ rfl)
      | exact absurd rfl (hbool _ _ rfl)

/-! A scalar compares with one of its own kind by the order of the kind. -/

lemma cypherEq_numbers_cmp (x y : Number) :
    cypherEq (.number x) (.number y) = some (decide (numberCmp x y = .eq)) := by
  rw [cypherEq_numbers, some.injEq, Bool.eq_iff_iff, decide_eq_true_eq]
  exact numberCmp_eq_iff.symm

lemma compareValues_numbers (x y : Number) (op : PropCmp) :
    compareValues (.number x) (.number y) (operatorOf op) =
      .ok (some (op.keeps (numberCmp x y))) :=
  compareValues_of_order Json.noConfusion Json.noConfusion rfl rfl (cypherEq_numbers_cmp x y) rfl op

lemma compareValues_strings (s t : String) (op : PropCmp) :
    compareValues (.string s) (.string t) (operatorOf op) =
    .ok (some (op.keeps (compare s t))) := by
  refine compareValues_of_order Json.noConfusion Json.noConfusion rfl rfl ?_ rfl op
  show some ((Json.string s).eqv (.string t)) = _
  rw [some.injEq, Bool.eq_iff_iff, decide_eq_true_eq, Std.LawfulEqOrd.compare_eq_iff_eq]
  simp [Json.eqv]

lemma compareValues_bools (b c : Bool) (op : PropCmp) :
    compareValues (.bool b) (.bool c) (operatorOf op) = .ok (some (op.keeps (compare b c))) := by
  refine compareValues_of_order Json.noConfusion Json.noConfusion rfl rfl ?_ rfl op
  revert b c
  decide

lemma compareValues_null (w : Json) (op : BinaryOperator) : compareValues .null w op = .ok none :=
  if_pos (.inl rfl)

/-- An integer of a column, as the boxed comparison reads it. -/
theorem exists_number_ofI64 (x : I64) : ∃ n, Json.ofI64 x = .number n ∧ n.asI64 = some x.1 ∧
    n.asF64.scaled = (I64.asF64 x).scaled := by
  obtain ⟨i, hlow, hhigh⟩ := x
  rw [Json.ofI64]
  split
  next hi =>
    replace hi : 0 ≤ i := hi
    have hlt : i.toNat < 2 ^ 63 := by omega
    have habs : i.natAbs = i.toNat := by omega
    refine ⟨_, rfl, ?_, ?_⟩
    · show (if i.toNat < 2 ^ 63 then some (i.toNat : ℤ) else none) = some i
      rw [if_pos hlt, Int.toNat_of_nonneg hi]
    · rw [Number.asF64, I64.asF64, F64.ofInt, if_neg (not_lt.mpr hi), F64.scaled_ofNat,
        F64.scaled_ofNat]
      exact congrArg (fun k => (F64.roundedNat k : ℤ) * 2 ^ 1074) habs.symm
  next => exact ⟨_, rfl, rfl, rfl⟩

lemma any_iff_compareValues {α : Type} {slot : Option α} {box : α → Json} {test : α → Bool}
    {rhs : Json} {op : BinaryOperator}
    (h : ∀ x, slot = some x → compareValues (box x) rhs op = .ok (some (test x))) :
    slot.any test = true ↔ compareValues ((slot.map box).getD .null) rhs op = .ok (some true) := by
  cases slot with
  | none => simp [compareValues_null]
  | some x =>
    rw [any_some, map_some, getD_some, h x rfl]
    simp

lemma cmpSlot_iff {c : PropColumn} (hc : c.Valid) {op : PropCmp} {rhs : Json} {keeps : ℕ → Bool}
    (h : c.cmpSlot op rhs = some keeps) (dense : ℕ) :
    keeps dense = true ↔ compareValues ((c.getJsonOpt dense).getD .null) rhs (operatorOf op) =
      .ok (some true) := by
  -- Where the kinds differ, the slot counts if it has a value.
  have hmismatch : (∀ v, c.getJsonOpt dense = some v → Scalar v ∧
      (∀ x y, v = .number x → rhs ≠ .number y) ∧ (∀ x y, v = .string x → rhs ≠ .string y) ∧
      ∀ x y, v = .bool x → rhs ≠ .bool y) →
      ((op.mismatchKeeps rhs && c.isPresent dense) = true ↔
        compareValues ((c.getJsonOpt dense).getD .null) rhs (operatorOf op) = .ok (some true)) := by
    intro hkind
    rw [PropColumn.isPresent_eq hc, Bool.and_eq_true]
    cases hv : c.getJsonOpt dense with
    | none => simp [compareValues_null]
    | some v =>
      obtain ⟨hscalar, hnumber, hstring, hbool⟩ := hkind v hv
      rw [getD_some, hscalar.mismatch hnumber hstring hbool op]
      simp
  cases c with
  | int col =>
    obtain rfl := some.inj h
    split
    next n =>
      -- Both as integers where the constant is one, else both as doubles.
      cases hi : n.asI64 with
      | some i =>
        refine any_iff_compareValues fun x _ => ?_
        obtain ⟨m, hm, hint, -⟩ := exists_number_ofI64 x
        rw [hm, compareValues_numbers, numberCmp, hint, hi]
      | none =>
        refine any_iff_compareValues fun x _ => ?_
        obtain ⟨m, hm, hint, hdouble⟩ := exists_number_ofI64 x
        rw [hm, compareValues_numbers, numberCmp, hint, hi, hdouble]
    next hother =>
      refine hmismatch fun v hv => ?_
      obtain ⟨x, -, rfl⟩ := map_eq_some_iff.mp hv
      obtain ⟨m, hm, -⟩ := exists_number_ofI64 x
      rw [hm]
      exact ⟨.number m, fun _ y _ => hother y, fun _ _ h => (by cases h), fun _ _ h => (by cases h)⟩
  | float col =>
    obtain rfl := some.inj h
    split
    next n =>
      refine any_iff_compareValues fun x _ => ?_
      rw [compareValues_numbers, numberCmp]
      rfl
    next hother =>
      refine hmismatch fun v hv => ?_
      obtain ⟨x, -, rfl⟩ := map_eq_some_iff.mp hv
      exact ⟨.number _, fun _ y _ => hother y, fun _ _ h => (by cases h), fun _ _ h => (by cases h)⟩
  | bool col =>
    obtain rfl := some.inj h
    split
    next b =>
      exact any_iff_compareValues fun x _ => compareValues_bools _ b op
    next hother =>
      refine hmismatch fun v hv => ?_
      obtain ⟨x, -, rfl⟩ := map_eq_some_iff.mp hv
      exact ⟨.bool _, fun _ _ h => (by cases h), fun _ _ h => (by cases h), fun _ y _ => hother y⟩
  | str dict idx =>
    obtain rfl := some.inj h
    split
    next t =>
      show (idx[dense]?.join).any _ = true ↔
          compareValues (((idx[dense]?.join).bind _).getD _) _ _ = _
      cases hcode : idx[dense]?.join with
      | none => simp [compareValues_null]
      | some i =>
        have hi : i < dict.length := hc.2 i (mem_of_getElem? (join_eq_some_iff.mp hcode))
        rw [any_some, bind_some, getElem?_eq_getElem hi, map_some,
          getD_some, compareValues_strings, getD_eq_getElem?_getD, getElem?_map,
          getElem?_eq_getElem hi]
        simp
    next hother =>
      refine hmismatch fun v hv => ?_
      obtain ⟨i, -, hv⟩ := bind_eq_some_iff.mp hv
      obtain ⟨s, -, rfl⟩ := map_eq_some_iff.mp hv
      exact ⟨.string s, fun _ _ h => (by cases h), fun _ y _ => hother y, fun _ _ h => (by cases h)⟩
  | json col => cases h

/-- A mask over a typed column keeps just the entities whose boxed comparison is true. -/
theorem cmpMask_eq_compareValues {p : PropColumns} (hp : p.Valid) {notFound : ℕ → Error}
    {ids : List ℕ} {prop : String} {op : PropCmp} {rhs : Json} {mask : List Bool}
    (h : p.cmpMask notFound ids prop op rhs = .ok (some mask)) :
    mask.length = ids.length ∧ ∀ (i id : ℕ), ids[i]? = some id →
      (mask[i]? = some true ↔
        compareValues ((p.value prop id).getD .null) rhs (operatorOf op) = .ok (some true)) := by
  rcases PropColumns.cmpMask_eq_some h with ⟨hcol, rfl⟩ | ⟨c, keeps, hcol, hkeeps, rfl⟩
  · -- Without a column every value is null, of which no comparison is true.
    refine ⟨length_map _, fun i id hid => ?_⟩
    have hvalue : p.value prop id = none := by
      rw [PropColumns.value, PropColumns.view]
      cases p.idToDense.get id <;> simp [hcol]
    rw [getElem?_map, hid, hvalue, getD_none, compareValues_null]
    simp
  · refine ⟨length_map _, fun i id hid => ?_⟩
    rw [getElem?_map, hid, map_some, some.injEq]
    cases hdense : p.idToDense.get id with
    | none =>
      have hvalue : p.value prop id = none := by
        rw [PropColumns.value, PropColumns.view, hdense]
        rfl
      rw [hvalue, getD_none, compareValues_null]
      simp
    | some dense =>
      have hvalue : p.value prop id = c.getJsonOpt dense := by
        rw [PropColumns.value, PropColumns.view, hdense, map_some, bind_some]
        show (p.cols.get prop).bind _ = _
        rw [hcol, bind_some]
      rw [hvalue, any_some]
      exact cmpSlot_iff (hp.cols prop c hcol).1 hkeeps dense

def oneInteger : PropColumns where
  idToDense := .fromIds [4]
  denseToId := [4]
  cols := .put .empty "p" (.int ⟨[true], [⟨7, by decide⟩], rfl⟩)
  bounds := .empty

/-- The integer is below a double above it. -/
theorem cmpMask_oneInteger : [true].length = [4].length ∧ ∀ (i id : ℕ), [4][i]? = some id →
    ([true][i]? = some true ↔
      compareValues ((oneInteger.value "p" id).getD .null) (.number (.posInt 8 (by decide)))
        (operatorOf .lt) = .ok (some true)) := by
  have hvalid : oneInteger.Valid :=
    ⟨DenseIndex.indexes_fromIds (nodup_singleton 4), fun prop c hget => by
      rw [oneInteger, Table.get_put] at hget
      split at hget
      next =>
        obtain rfl := some.inj hget
        exact ⟨trivial, rfl⟩
      next => cases hget⟩
  have hmask : oneInteger.cmpMask .nodeNotFound [4] "p" .lt (.number (.posInt 8 (by decide))) =
      .ok (some [true]) := by decide
  exact cmpMask_eq_compareValues hvalid hmask

end IssunDB.Cypher
