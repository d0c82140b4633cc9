import IssunDB.Lib.Table

/-!
# Name registries

A registry hands out one integer per name, counting up from zero, and answers both directions.
Ids below `next` only and distinct ids for distinct names are part of the type.
-/

/-- Names with the ids allocated to them. -/
structure Registry where
  /-- The next id to hand out. -/
  next : ℕ
  ids : Table String ℕ
  lt_next : ∀ name id, ids.get name = some id → id < next
  inj : ∀ name name' id, ids.get name = some id → ids.get name' = some id → name = name'

namespace Registry

instance : DecidableEq Registry := fun r r' =>
  decidable_of_iff (r.next = r'.next ∧ r.ids = r'.ids) (by
    cases r
    cases r'
    simp)

def empty : Registry where
  next := 0
  ids := .empty
  lt_next := by simp
  inj := by simp

/-- The id of a name. -/
def get (r : Registry) (name : String) : Option ℕ := r.ids.get name

/-- The id of a name, allocated if it has none. -/
def getOrCreate (r : Registry) (name : String) : ℕ × Registry :=
  match h : r.get name with
  | some id => (id, r)
  | none =>
    (r.next,
      { next := r.next + 1
        ids := r.ids.put name r.next
        lt_next := by
          intro name' id hid
          rw [Table.get_put] at hid
          split at hid
          · cases hid
            omega
          · exact (r.lt_next _ _ hid).trans (Nat.lt_succ_self _)
        inj := by
          intro a b id ha hb
          rw [Table.get_put] at ha hb
          split at ha <;> split at hb
          · simp_all
          · cases ha
            exact absurd (r.lt_next _ _ hb) (lt_irrefl _)
          · cases hb
            exact absurd (r.lt_next _ _ ha) (lt_irrefl _)
          · exact r.inj _ _ _ ha hb })

def nameOf (r : Registry) (id : ℕ) : Option String :=
  (r.ids.toList.find? fun e => e.2 = id).map Prod.fst

variable {r : Registry} {name : String}

/-- The two directions agree. -/
theorem nameOf_eq_some {id : ℕ} :
    r.nameOf id = some name ↔ r.get name = some id := by
  constructor
  · intro h
    obtain ⟨⟨name', id'⟩, hfind, rfl⟩ := Option.map_eq_some_iff.mp h
    have hmem := List.mem_of_find?_eq_some hfind
    have hid : id' = id := by simpa using List.find?_some hfind
    rw [get, ← hid]
    exact Table.mem_toList.mp hmem
  · intro h
    rw [nameOf]
    cases hfind : r.ids.toList.find? fun e => e.2 = id with
    | none =>
      have := List.find?_eq_none.mp hfind (name, id) (Table.mem_toList.mpr h)
      simp at this
    | some e =>
      obtain ⟨name', id'⟩ := e
      have hmem := Table.mem_toList.mp (List.mem_of_find?_eq_some hfind)
      have hid : id' = id := by simpa using List.find?_some hfind
      rw [hid] at hmem
      exact congrArg some (r.inj _ _ _ hmem h)

lemma get_inj {name name' : String} {id : ℕ} (h : r.get name = some id)
    (h' : r.get name' = some id) : name = name' := r.inj _ _ _ h h'

lemma getOrCreate_of_get {id : ℕ} (h : r.get name = some id) :
    r.getOrCreate name = (id, r) := by
  unfold getOrCreate
  split
  next id' h' => simp_all
  next h' => simp_all

/-- A name that is looked up or created holds the id returned. -/
@[simp]
theorem get_getOrCreate_self (r : Registry) (name : String) :
    (r.getOrCreate name).2.get name = some (r.getOrCreate name).1 := by
  unfold getOrCreate
  split
  next id h => exact h
  next h => simp [get]

lemma get_getOrCreate_of_ne (r : Registry) {name name' : String} (h : name' ≠ name) :
    (r.getOrCreate name).2.get name' = r.get name' := by
  unfold getOrCreate
  split
  next => rfl
  next => simp [get, h]

lemma getOrCreate_fst_of_none (h : r.get name = none) :
    (r.getOrCreate name).1 = r.next := by
  unfold getOrCreate
  split
  next => simp_all
  next => rfl

/-! ## Growth -/

/-- `r'` keeps every name of `r` with its id. -/
def Extends (r r' : Registry) : Prop := ∀ name id, r.get name = some id → r'.get name = some id

namespace Extends

@[refl]
lemma refl (r : Registry) : r.Extends r := fun _ _ h => h

@[trans]
lemma trans {r r' r'' : Registry} (h : r.Extends r') (h' : r'.Extends r'') : r.Extends r'' :=
  fun name id hid => h' name id (h name id hid)

end Extends

lemma extends_getOrCreate (r : Registry) (name : String) : r.Extends (r.getOrCreate name).2 := by
  intro name' id h
  by_cases hn : name' = name
  · subst hn
    rw [getOrCreate_of_get h]
    exact h
  · rw [get_getOrCreate_of_ne r hn, h]

end Registry
