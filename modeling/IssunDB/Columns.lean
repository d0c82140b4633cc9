import IssunDB.DenseIndex
import IssunDB.Publish

/-!
# Property columns

The values of one property over all entities, in the tightest of five representations. A column
that meets a value of another kind degrades to `json`, so that no conversion changes a value.

* `PropColumn` — the representations, with `grow`, `clear`, `set` and the reads;
* `PropColumn.getJsonOpt_set` and its companions — what a write does to what is read;
* `PropColumn.isPresent_eq` — the presence bit says whether there is a value.
-/

namespace IssunDB

open List Option

/-! ## Representations -/

/-- A signed 64-bit integer. -/
abbrev I64 := { i : ℤ // -2 ^ 63 ≤ i ∧ i < 2 ^ 63 }

/-- `Value::from` on an integer. -/
def Json.ofI64 (i : I64) : Json :=
  if h : 0 ≤ i.1 then .number (.posInt i.1.toNat (by have := i.2; omega))
  else .number (.negInt i.1 (by have := i.2; omega))

/-- `Value::as_i64`. -/
def Json.asI64 : Json → Option I64
  | .number (.posInt n _) => if h : n < 2 ^ 63 then some ⟨n, by omega⟩ else none
  | .number (.negInt i h) => some ⟨i, by omega⟩
  | _ => none

lemma Json.asI64_eq_some {v : Json} {i : I64} : v.asI64 = some i ↔ v = .ofI64 i := by
  obtain ⟨i, hi⟩ := i
  constructor
  · unfold asI64
    split
    next n hn =>
      split
      next h =>
        intro heq
        obtain rfl := congrArg Subtype.val (some.inj heq)
        simp [ofI64]
      next => exact fun heq => by cases heq
    next i' hi' =>
      intro heq
      obtain rfl := congrArg Subtype.val (some.inj heq)
      simp [ofI64, show ¬(0 : ℤ) ≤ i' by omega]
    next => exact fun heq => by cases heq
  · rintro rfl
    unfold ofI64
    split
    next h =>
      have hlt : i.toNat < 2 ^ 63 := by
        simp only at h
        omega
      simp only [asI64, hlt, dif_pos, some.injEq, Subtype.mk.injEq]
      exact Int.toNat_of_nonneg h
    next => rfl

lemma Json.ofI64_injective : Function.Injective Json.ofI64 := by
  intro i j h
  have hi : (Json.ofI64 i).asI64 = some i := asI64_eq_some.mpr rfl
  rw [h, asI64_eq_some.mpr rfl] at hi
  exact (some.inj hi).symm

/-- A column of plain values with a presence bit per slot. What is stored under a clear bit is
never read. -/
structure Nullable (α : Type) where
  present : List Bool
  values : List α
  length_eq : present.length = values.length

namespace Nullable

variable {α : Type}

def withLen [Inhabited α] (n : ℕ) : Nullable α :=
  ⟨.replicate n false, .replicate n default, by simp⟩

/-- The number of slots. -/
def length (c : Nullable α) : ℕ := c.values.length

/-- The value of a slot. -/
def get (c : Nullable α) (i : ℕ) : Option α :=
  if c.present[i]?.getD false then c.values[i]? else none

/-- Write or clear a slot. -/
def set (c : Nullable α) (i : ℕ) : Option α → Nullable α
  | some v => ⟨c.present.set i true, c.values.set i v, by simp [c.length_eq]⟩
  | none => ⟨c.present.set i false, c.values, by simp [c.length_eq]⟩

/-- Add nulls up to a length. -/
def grow [Inhabited α] (c : Nullable α) (n : ℕ) : Nullable α :=
  ⟨c.present ++ .replicate (n - c.length) false, c.values ++ .replicate (n - c.length) default,
    by simp [c.length_eq]⟩

@[simp] lemma length_withLen [Inhabited α] (n : ℕ) : (withLen n : Nullable α).length = n := by
  simp [withLen, length]

@[simp] lemma length_set (c : Nullable α) (i : ℕ) (v : Option α) :
    (c.set i v).length = c.length := by
  cases v <;> simp [set, length]

@[simp] lemma length_grow [Inhabited α] (c : Nullable α) (n : ℕ) :
    (c.grow n).length = max c.length n := by
  simp only [grow, length, length_append, length_replicate]
  omega

@[simp] lemma get_withLen [Inhabited α] (n i : ℕ) : (withLen n : Nullable α).get i = none := by
  have hbit : ((List.replicate n false)[i]?).getD false = false := by
    rw [getElem?_replicate]
    split <;> rfl
  simp [get, withLen, hbit]

lemma get_set {c : Nullable α} {i : ℕ} (hi : i < c.length) (v : Option α) (j : ℕ) :
    (c.set i v).get j = if j = i then v else c.get j := by
  have hpresent : i < c.present.length := c.length_eq ▸ hi
  by_cases hj : j = i
  · subst hj
    cases v with
    | none => simp [set, get, hpresent]
    | some v =>
      have hvalues : j < c.values.length := hi
      simp [set, get, hpresent, hvalues]
  · cases v <;> simp [set, get, getElem?_set_ne (Ne.symm hj), hj]

@[simp] lemma get_grow [Inhabited α] (c : Nullable α) (n i : ℕ) : (c.grow n).get i = c.get i := by
  have hlen := c.length_eq
  unfold get grow
  dsimp only
  by_cases hi : i < c.values.length
  · rw [getElem?_append_left (hlen ▸ hi), getElem?_append_left hi]
  · -- past the end nothing is present
    have hnone : c.present[i]? = none := getElem?_eq_none (by omega)
    rw [getElem?_append_right (by omega), getElem?_replicate, hnone]
    split <;> simp

end Nullable

/-- The scalar kind of a value. -/
inductive Kind where
  | null
  | int
  | float
  | bool
  | str
  | other
  deriving DecidableEq

def kindOf : Json → Kind
  | .null => .null
  | .bool _ => .bool
  | .number (.posInt n _) => if n < 2 ^ 63 then .int else .other
  | .number (.negInt _ _) => .int
  | .number (.float _) => .float
  | .string _ => .str
  | .array _ | .object _ => .other

/-- The code of a string in a dictionary, appended when it is new. -/
def intern (dict : List String) (s : String) : ℕ × List String :=
  if s ∈ dict then (dict.idxOf s, dict) else (dict.length, dict ++ [s])

instance : Inhabited I64 := ⟨⟨0, by decide⟩⟩

instance : Inhabited F64 := ⟨⟨false, 0, 0, by decide, by decide⟩⟩

/-- One column over dense slots. -/
inductive PropColumn where
  | int (col : Nullable I64)
  | float (col : Nullable F64)
  /-- One for true and zero for false. -/
  | bool (col : Nullable ℕ)
  /-- Dictionary-encoded strings; no code marks a null. -/
  | str (dict : List String) (idx : List (Option ℕ))
  /-- The values as they are. -/
  | json (col : List (Option Json))

namespace PropColumn

/-- The number of slots. -/
def length : PropColumn → ℕ
  | int col => col.length
  | float col => col.length
  | bool col => col.length
  | str _ idx => idx.length
  | json col => col.length

/-- The value of a slot; nothing for null. -/
def getJsonOpt (c : PropColumn) (dense : ℕ) : Option Json :=
  match c with
  | int col => (col.get dense).map .ofI64
  | float col => (col.get dense).map fun f => .number (.float f)
  | bool col => (col.get dense).map fun b => .bool (b ≠ 0)
  | str dict idx => (idx[dense]?.join).bind fun i => dict[i]?.map .string
  | json col => col[dense]?.join

/-- Whether a slot holds a value. -/
def isPresent (c : PropColumn) (dense : ℕ) : Bool :=
  match c with
  | int col => col.present[dense]?.getD false
  | float col => col.present[dense]?.getD false
  | bool col => col.present[dense]?.getD false
  | str _ idx => (idx[dense]?.join).isSome
  | json col => (col[dense]?.join).isSome

/-- Add nulls up to a length. -/
def grow (n : ℕ) : PropColumn → PropColumn
  | int col => int (col.grow n)
  | float col => float (col.grow n)
  | bool col => bool (col.grow n)
  | str dict idx => str dict (idx ++ .replicate (n - idx.length) none)
  | json col => json (col ++ .replicate (n - col.length) none)

def clear (dense : ℕ) : PropColumn → PropColumn
  | int col => int (col.set dense none)
  | float col => float (col.set dense none)
  | bool col => bool (col.set dense none)
  | str dict idx => str dict (idx.set dense none)
  | json col => json (col.set dense none)

/-- The values of a column, as a `json` column holds them. -/
def degradeToJson (c : PropColumn) : List (Option Json) :=
  (List.range c.length).map c.getJsonOpt

/-- Write a slot. A column that cannot hold the kind of the value degrades. -/
def set (dense : ℕ) (value : Json) (c : PropColumn) : PropColumn :=
  match kindOf value, c, value with
  | .null, c, _ => c.clear dense
  | .int, int col, value => int (col.set dense value.asI64)
  | .float, float col, .number (.float f) => float (col.set dense (some f))
  | .bool, bool col, .bool b => bool (col.set dense (some b.toNat))
  | .str, str dict idx, .string s =>
    str (intern dict s).2 (idx.set dense (some (intern dict s).1))
  | _, json col, value => json (col.set dense (some value))
  | _, c, value => json (c.degradeToJson.set dense (some value))

/-- The strings of a dictionary are distinct and every code is one of it. -/
def Valid : PropColumn → Prop
  | str dict idx => dict.Nodup ∧ ∀ i, some i ∈ idx → i < dict.length
  | _ => True

end PropColumn

def Json.nonNull : Json → Option Json
  | .null => none
  | v => some v

@[simp] lemma Json.nonNull_ofI64 (i : I64) : (Json.ofI64 i).nonNull = some (.ofI64 i) := by
  unfold Json.ofI64
  split <;> rfl

/-! ## What a write does to what is read -/

section Slots

variable {α : Type} (slots : List (Option α))

lemma getElem?_join_set {i : ℕ} (hi : i < slots.length) (v : Option α) (j : ℕ) :
    ((slots.set i v)[j]?).join = if j = i then v else slots[j]?.join := by
  by_cases hj : j = i
  · subst hj
    simp [hi]
  · simp [getElem?_set_ne (Ne.symm hj), hj]

lemma getElem?_join_grow (k j : ℕ) :
    ((slots ++ List.replicate k none)[j]?).join = slots[j]?.join := by
  by_cases hj : j < slots.length
  · rw [getElem?_append_left hj]
  · rw [getElem?_append_right (by omega), getElem?_replicate,
      getElem?_eq_none (l := slots) (by omega)]
    split <;> rfl

end Slots

lemma getElem?_intern_fst (dict : List String) (s : String) :
    (intern dict s).2[(intern dict s).1]? = some s := by
  unfold intern
  split
  next h => rw [getElem?_eq_getElem (idxOf_lt_length_of_mem h), getElem_idxOf]
  next => simp

lemma getElem?_intern_of_lt {dict : List String} {i : ℕ} (h : i < dict.length) (s : String) :
    (intern dict s).2[i]? = dict[i]? := by
  unfold intern
  split
  · rfl
  · exact getElem?_append_left h

lemma nodup_intern {dict : List String} (h : dict.Nodup) (s : String) :
    (intern dict s).2.Nodup := by
  unfold intern
  split
  next => exact h
  next hnot =>
    refine h.append (nodup_singleton s) ?_
    intro s' hs' hmem
    exact hnot (mem_singleton.mp hmem ▸ hs')

lemma intern_fst_lt (dict : List String) (s : String) :
    (intern dict s).1 < (intern dict s).2.length := by
  have := getElem?_intern_fst dict s
  exact (List.getElem?_eq_some_iff.mp this).1

lemma length_le_intern (dict : List String) (s : String) :
    dict.length ≤ (intern dict s).2.length := by
  unfold intern
  split
  · exact Nat.le_refl _
  · simp

lemma kindOf_eq_null {v : Json} : kindOf v = .null ↔ v = .null := by
  unfold kindOf
  split <;> try simp
  split <;> simp

lemma asI64_of_kindOf {v : Json} (h : kindOf v = .int) : ∃ i, v.asI64 = some i := by
  unfold kindOf at h
  split at h <;> try cases h
  next n hn =>
    split at h
    next hlt => exact ⟨_, dif_pos hlt⟩
    next => cases h
  next i hi => exact ⟨_, rfl⟩

namespace PropColumn

@[simp] lemma length_grow (c : PropColumn) (n : ℕ) : (c.grow n).length = max c.length n := by
  cases c with
  | int col => exact col.length_grow n
  | float col => exact col.length_grow n
  | bool col => exact col.length_grow n
  | str dict idx =>
    simp only [grow, length, length_append, length_replicate]
    omega
  | json col =>
    simp only [grow, length, length_append, length_replicate]
    omega

@[simp] lemma length_clear (c : PropColumn) (d : ℕ) : (c.clear d).length = c.length := by
  cases c <;> simp [clear, length]

@[simp] lemma getJsonOpt_grow (c : PropColumn) (n d : ℕ) :
    (c.grow n).getJsonOpt d = c.getJsonOpt d := by
  cases c with
  | int col => simp [grow, getJsonOpt]
  | float col => simp [grow, getJsonOpt]
  | bool col => simp [grow, getJsonOpt]
  | str dict idx => simp only [grow, getJsonOpt, getElem?_join_grow]
  | json col => simp only [grow, getJsonOpt, getElem?_join_grow]

variable {c : PropColumn}

lemma getJsonOpt_clear {d : ℕ} (hd : d < c.length) (d' : ℕ) :
    (c.clear d).getJsonOpt d' = if d' = d then none else c.getJsonOpt d' := by
  cases c with
  | int col =>
    simp only [clear, getJsonOpt, Nullable.get_set (c := col) hd]
    split <;> rfl
  | float col =>
    simp only [clear, getJsonOpt, Nullable.get_set (c := col) hd]
    split <;> rfl
  | bool col =>
    simp only [clear, getJsonOpt, Nullable.get_set (c := col) hd]
    split <;> rfl
  | str dict idx =>
    simp only [clear, getJsonOpt, getElem?_join_set idx hd]
    split <;> rfl
  | json col => simp only [clear, getJsonOpt, getElem?_join_set col hd]

/-- Past its slots a column holds nothing. -/
theorem getJsonOpt_of_le {d : ℕ} (hd : c.length ≤ d) : c.getJsonOpt d = none := by
  have hnull : ∀ {α : Type} (col : Nullable α), col.length ≤ d → col.get d = none := by
    intro α col h
    have hvalues : col.values[d]? = none := getElem?_eq_none h
    simp [Nullable.get, hvalues]
  cases c with
  | int col => simp only [getJsonOpt, hnull col hd, map_none]
  | float col => simp only [getJsonOpt, hnull col hd, map_none]
  | bool col => simp only [getJsonOpt, hnull col hd, map_none]
  | str dict idx =>
    have hidx : idx[d]? = none := getElem?_eq_none hd
    simp only [getJsonOpt, hidx, join_none, bind_none]
  | json col =>
    have hcol : col[d]? = none := getElem?_eq_none hd
    simp only [getJsonOpt, hcol, join_none]

@[simp] lemma length_degradeToJson (c : PropColumn) : c.degradeToJson.length = c.length := by
  simp [degradeToJson]

lemma getElem?_degradeToJson (c : PropColumn) (d : ℕ) :
    (c.degradeToJson[d]?).join = c.getJsonOpt d := by
  by_cases hd : d < c.length
  · simp [degradeToJson, hd]
  · rw [getJsonOpt_of_le (Nat.le_of_not_lt hd), getElem?_eq_none (by simpa using hd)]
    rfl

/-- The cases of a write. A value that is not null goes to a column of its kind, or to a `json`
column of the same contents. -/
theorem set_cases (c : PropColumn) (d : ℕ) (v : Json) :
    (v = .null ∧ c.set d v = c.clear d) ∨
    (∃ col i, c = int col ∧ v = .ofI64 i ∧ c.set d v = int (col.set d (some i))) ∨
    (∃ col f, c = float col ∧ v = .number (.float f) ∧ c.set d v = float (col.set d (some f))) ∨
    (∃ col b, c = bool col ∧ v = .bool b ∧ c.set d v = bool (col.set d (some b.toNat))) ∨
    (∃ dict idx s, c = str dict idx ∧ v = .string s ∧
      c.set d v = str (intern dict s).2 (idx.set d (some (intern dict s).1))) ∨
    (v ≠ .null ∧ ∃ slots : List (Option Json), slots.length = c.length ∧
      (∀ d', slots[d']?.join = c.getJsonOpt d') ∧ c.set d v = json (slots.set d (some v))) := by
  unfold set
  split
  next hkind => exact .inl ⟨kindOf_eq_null.mp hkind, rfl⟩
  next col hkind =>
    obtain ⟨i, hi⟩ := asI64_of_kindOf hkind
    refine .inr (.inl ⟨col, i, rfl, Json.asI64_eq_some.mp hi, by rw [hi]⟩)
  next col f _ => exact .inr (.inr (.inl ⟨col, f, rfl, rfl, rfl⟩))
  next col b _ => exact .inr (.inr (.inr (.inl ⟨col, b, rfl, rfl, rfl⟩)))
  next dict idx s _ => exact .inr (.inr (.inr (.inr (.inl ⟨dict, idx, s, rfl, rfl, rfl⟩))))
  next col hnull =>
    refine .inr (.inr (.inr (.inr (.inr ⟨?_, col, rfl, fun d' => rfl, rfl⟩))))
    exact fun h => hnull (kindOf_eq_null.mpr h)
  next hnull _ _ _ _ =>
    refine .inr (.inr (.inr (.inr (.inr ⟨?_, _, length_degradeToJson _,
      getElem?_degradeToJson _, rfl⟩))))
    exact fun h => hnull (kindOf_eq_null.mpr h)

@[simp] lemma length_set (c : PropColumn) (d : ℕ) (v : Json) : (c.set d v).length = c.length := by
  obtain ⟨-, h⟩ | ⟨col, i, rfl, -, h⟩ | ⟨col, f, rfl, -, h⟩ | ⟨col, b, rfl, -, h⟩ |
    ⟨dict, idx, s, rfl, -, h⟩ | ⟨-, slots, hlen, -, h⟩ := set_cases c d v <;> rw [h]
  · exact length_clear c d
  · exact col.length_set d _
  · exact col.length_set d _
  · exact col.length_set d _
  · exact List.length_set
  · exact List.length_set.trans hlen

/-- A write is read back, and nothing else changes. -/
theorem getJsonOpt_set (hc : c.Valid) {d : ℕ} (hd : d < c.length) (v : Json) (d' : ℕ) :
    (c.set d v).getJsonOpt d' = if d' = d then v.nonNull else c.getJsonOpt d' := by
  obtain ⟨rfl, h⟩ | ⟨col, i, rfl, rfl, h⟩ | ⟨col, f, rfl, rfl, h⟩ | ⟨col, b, rfl, rfl, h⟩ |
    ⟨dict, idx, s, rfl, rfl, h⟩ | ⟨hv, slots, hlen, hslots, h⟩ := set_cases c d v <;> rw [h]
  · exact getJsonOpt_clear hd d'
  · simp only [getJsonOpt, Nullable.get_set (c := col) hd]
    split
    · exact (Json.nonNull_ofI64 i).symm
    · rfl
  · simp only [getJsonOpt, Nullable.get_set (c := col) hd]
    split <;> rfl
  · simp only [getJsonOpt, Nullable.get_set (c := col) hd]
    split
    · cases b <;> rfl
    · rfl
  · simp only [getJsonOpt, getElem?_join_set idx hd]
    split
    · simp [getElem?_intern_fst, Json.nonNull]
    · -- the other codes name the strings that they named before
      rcases hcode : idx[d']?.join with _ | i
      · rfl
      · have hmem : some i ∈ idx := mem_of_getElem? (join_eq_some_iff.mp hcode)
        simp only [bind_some, getElem?_intern_of_lt (hc.2 i hmem)]
  · have hd' : d < slots.length := hlen ▸ hd
    simp only [getJsonOpt, getElem?_join_set slots hd', hslots]
    split
    · cases v <;> simp_all [Json.nonNull]
    · rfl

lemma valid_grow (hc : c.Valid) (n : ℕ) : (c.grow n).Valid := by
  cases c with
  | str dict idx =>
    refine ⟨hc.1, fun i hi => ?_⟩
    rcases mem_append.mp hi with hi | hi
    · exact hc.2 i hi
    · cases eq_of_mem_replicate hi
  | _ => trivial

lemma valid_clear (hc : c.Valid) (d : ℕ) : (c.clear d).Valid := by
  cases c with
  | str dict idx =>
    refine ⟨hc.1, fun i hi => ?_⟩
    rcases mem_or_eq_of_mem_set hi with hi | hi
    · exact hc.2 i hi
    · cases hi
  | _ => trivial

lemma valid_set (hc : c.Valid) (d : ℕ) (v : Json) : (c.set d v).Valid := by
  obtain ⟨-, h⟩ | ⟨col, i, rfl, -, h⟩ | ⟨col, f, rfl, -, h⟩ | ⟨col, b, rfl, -, h⟩ |
    ⟨dict, idx, s, rfl, -, h⟩ | ⟨-, slots, -, -, h⟩ := set_cases c d v <;> rw [h]
  · exact valid_clear hc d
  · trivial
  · trivial
  · trivial
  · refine ⟨nodup_intern hc.1 s, fun i hi => ?_⟩
    rcases mem_or_eq_of_mem_set hi with hi | hi
    · exact (hc.2 i hi).trans_le (length_le_intern dict s)
    · exact some.inj hi ▸ intern_fst_lt dict s
  · trivial

/-- The presence bit says whether there is a value. -/
theorem isPresent_eq (hc : c.Valid) (d : ℕ) :
    c.isPresent d = (c.getJsonOpt d).isSome := by
  have hbit : ∀ {α β : Type} (col : Nullable α) (f : α → β),
      col.present[d]?.getD false = ((col.get d).map f).isSome := by
    intro α β col f
    unfold Nullable.get
    rcases hp : col.present[d]?.getD false with _ | _
    · rfl
    · have hlt : d < col.values.length := by
        rw [← col.length_eq]
        by_contra hge
        rw [getElem?_eq_none (Nat.le_of_not_lt hge)] at hp
        cases hp
      simp [hlt]
  cases c with
  | int col => exact hbit col _
  | float col => exact hbit col _
  | bool col => exact hbit col _
  | str dict idx =>
    simp only [isPresent, getJsonOpt]
    rcases hcode : idx[d]?.join with _ | i
    · rfl
    · have hlt := hc.2 i (mem_of_getElem? (join_eq_some_iff.mp hcode))
      simp [hlt]
  | json col => rfl

end PropColumn

end IssunDB
