import IssunDB.ColumnReads

/-!
# Comparing a column with a constant

`PropColumns.cmpMask` compares the values of a property with a constant in the representation of the
column, without building the values. A value of another kind than the constant is unequal to it and
not ordered, so that it passes `ne` alone; a missing value passes nothing. A `json` column declines.

`PropColumns.cmpMask_eq_some` gives the mask slot by slot, whichever way the source computes it.
-/

namespace IssunDB

/-- A comparison operator. -/
inductive PropCmp where
  | eq
  | ne
  | lt
  | le
  | gt
  | ge
  deriving DecidableEq

/-- Whether a value in this order to the constant is kept. -/
def PropCmp.keeps (op : PropCmp) (ord : Ordering) : Bool :=
  match op with
  | .eq => ord = .eq
  | .ne => ord ≠ .eq
  | .lt => ord = .lt
  | .le => ord ≠ .gt
  | .gt => ord = .gt
  | .ge => ord ≠ .lt

/-- Whether a value of another kind than the constant is kept. -/
def PropCmp.mismatchKeeps (op : PropCmp) (rhs : Json) : Bool :=
  if rhs = .null then false else op = .ne

/-- `x as f64`. -/
def I64.asF64 (x : I64) : F64 := F64.ofInt x.1 (by have := x.2; omega)

namespace PropColumn

/-- How the slots of a column compare with a constant; nothing for a `json` column. -/
def cmpSlot (op : PropCmp) (rhs : Json) (column : PropColumn) : Option (ℕ → Bool) :=
  let mismatch := fun dense => op.mismatchKeeps rhs && column.isPresent dense
  match column with
  | int v => some <|
    match rhs with
    | .number n =>
      match n.asI64 with
      | some c => fun dense => (v.get dense).any fun x => op.keeps (compare x.1 c)
      | none => fun dense =>
        (v.get dense).any fun x => op.keeps (compare (I64.asF64 x).scaled n.asF64.scaled)
    | _ => mismatch
  | float v => some <|
    match rhs with
    | .number n => fun dense => (v.get dense).any fun x =>
      op.keeps (compare x.scaled n.asF64.scaled)
    | _ => mismatch
  | bool v => some <|
    match rhs with
    | .bool c => fun dense => (v.get dense).any fun x => op.keeps (compare (decide (x ≠ 0)) c)
    | _ => mismatch
  | str dict idx => some <|
    match rhs with
    | .string c =>
      -- One comparison for each string of the dictionary.
      let pass := dict.map fun s => op.keeps (compare s c)
      fun dense => (idx[dense]?.join).any fun i => pass.getD i false
    | _ => mismatch
  | json _ => none

end PropColumn

namespace PropColumns

/-- Compare the values of a property with a constant, one flag per entity. -/
def cmpMask (notFound : ℕ → Error) (ids : List ℕ) (prop : String) (op : PropCmp) (rhs : Json)
    (p : PropColumns) : Except Error (Option (List Bool)) :=
  match p.cols.get prop with
  | none =>
    match ids.find? fun id => (p.idToDense.get id).isNone with
    | some id => .error (notFound id)
    | none => .ok (some (.replicate ids.length false))
  | some c =>
    match c.cmpSlot op rhs with
    | none => .ok none
    | some keeps => do
      let mask ← ids.mapM fun id =>
        match p.idToDense.get id with
        | none => .error (notFound id)
        | some dense => .ok (keeps dense)
      .ok (some mask)

lemma mapM_eq_ok {α β : Type} {f : α → Except Error β} {l : List α} {bs : List β}
    (h : l.mapM f = .ok bs) : List.Forall₂ (fun a b => f a = .ok b) l bs := by
  induction l generalizing bs with
  | nil =>
    obtain rfl : [] = bs := Except.ok.inj h
    exact .nil
  | cons a l ih =>
    rw [List.mapM_cons] at h
    cases ha : f a with
    | error e =>
      rw [ha] at h
      cases h
    | ok b =>
      cases hl : l.mapM f with
      | error e =>
        rw [ha, hl] at h
        cases h
      | ok bs' =>
        rw [ha, hl] at h
        obtain rfl : b :: bs' = bs := Except.ok.inj h
        exact .cons ha (ih hl)

lemma cmpMask_eq_some {notFound : ℕ → Error} {ids : List ℕ} {prop : String} {op : PropCmp}
    {rhs : Json} {p : PropColumns} {mask : List Bool}
    (h : p.cmpMask notFound ids prop op rhs = .ok (some mask)) :
    (p.cols.get prop = none ∧ mask = ids.map fun _ => false) ∨
      ∃ c keeps, p.cols.get prop = some c ∧ c.cmpSlot op rhs = some keeps ∧
        mask = ids.map fun id => (p.idToDense.get id).any keeps := by
  rw [cmpMask] at h
  split at h
  next hcol =>
    split at h
    next => cases h
    next =>
      obtain rfl := Option.some.inj (Except.ok.inj h)
      exact .inl ⟨hcol, List.map_const'.symm⟩
  next c hcol =>
    split at h
    next => cases h
    next keeps hkeeps =>
      refine .inr ⟨c, keeps, hcol, hkeeps, ?_⟩
      generalize hrun : (ids.mapM fun id =>
        match p.idToDense.get id with
        | none => .error (notFound id)
        | some dense => .ok (keeps dense) : Except Error (List Bool)) = r at h
      cases r with
      | error e => cases h
      | ok bs =>
        obtain rfl : bs = mask := Option.some.inj (Except.ok.inj h)
        have hall := mapM_eq_ok hrun
        clear hrun h
        induction hall with
        | nil => rfl
        | @cons id b ids bs hhead _ ih =>
          rw [List.map_cons, ← ih]
          cases hget : p.idToDense.get id with
          | none =>
            rw [hget] at hhead
            cases hhead
          | some dense =>
            rw [hget] at hhead
            rw [Option.any_some, Except.ok.inj hhead]

end PropColumns

end IssunDB
