import IssunDB.Lib.F64

/-!
# Property values

The values a record's properties hold, as `serde_json` has them without its arbitrary-precision
feature: a number is an unsigned or negative 64-bit integer or a finite double, and an object
keeps its fields in ascending key order. `Json.eqv` is the equality of `serde_json`, which never
equates an integer with a double and does equate the two zeros; `Json.sameValue` is the equality
a unique constraint promises, by exact numeric value on numbers.

`Props` is the decoded property blob of a record.
-/

namespace IssunDB

/-- `serde_json::Number`. A nonnegative integer is always stored as `posInt`. -/
inductive Number where
  | posInt (n : ℕ) (h : n < 2 ^ 64)
  | negInt (i : ℤ) (h : -2 ^ 63 ≤ i ∧ i < 0)
  | float (f : F64)
  deriving DecidableEq

namespace Number

/-- The number as a signed 64-bit integer, if it is stored as an integer in that range. -/
def asI64 : Number → Option ℤ
  | posInt n _ => if n < 2 ^ 63 then some n else none
  | negInt i _ => some i
  | float _ => none

/-- The nearest double. -/
def asF64 : Number → F64
  | posInt n h => F64.ofNat n h
  | negInt i h => F64.ofInt i (by omega)
  | float f => f

/-- The exact value in units of `2 ^ (-1074)`, the least positive double. -/
def scaled : Number → ℤ
  | posInt n _ => n * 2 ^ 1074
  | negInt i _ => i * 2 ^ 1074
  | float f => f.scaled

def value (x : Number) : ℚ := x.scaled / 2 ^ 1074

/-- Equality of `serde_json` numbers: within one representation only, doubles by value. -/
def eqv : Number → Number → Bool
  | posInt m _, posInt n _ => m = n
  | negInt i _, negInt j _ => i = j
  | float f, float g => f.scaled = g.scaled
  | _, _ => false

attribute [local simp] eqv scaled

lemma value_eq_iff {x y : Number} : x.value = y.value ↔ x.scaled = y.scaled := by
  rw [value, value, div_left_inj' (by positivity)]
  exact Int.cast_inj

@[simp]
lemma eqv_refl (x : Number) : x.eqv x = true := by
  cases x <;> simp

lemma eqv_comm (x y : Number) : x.eqv y = y.eqv x := by
  cases x <;> cases y <;> simp [eq_comm]

/-- Converting signed integers to doubles keeps their order. -/
theorem scaled_asF64_mono {x y : Number} {i j : ℤ} (hx : x.asI64 = some i) (hy : y.asI64 = some j)
    (h : i ≤ j) : x.asF64.scaled ≤ y.asF64.scaled := by
  have hform : ∀ {x : Number} {i : ℤ}, x.asI64 = some i →
      x.asF64.scaled = (if i < 0 then -(F64.roundedNat i.natAbs : ℤ) else F64.roundedNat i.natAbs) *
        2 ^ 1074 := by
    intro x i hx
    cases x with
    | posInt n hn =>
      change (if n < 2 ^ 63 then some (n : ℤ) else none) = some i at hx
      split at hx
      · obtain rfl := Option.some.inj hx
        rw [asF64, F64.scaled_ofNat, if_neg (by omega)]
        rfl
      · cases hx
    | negInt k hk =>
      obtain rfl := Option.some.inj hx
      rw [asF64, F64.ofInt, if_pos hk.2, F64.scaled_neg, F64.scaled_ofNat, if_pos hk.2, neg_mul]
    | float f => cases hx
  rw [hform hx, hform hy]
  apply mul_le_mul_of_nonneg_right _ (by positivity)
  split <;> split
  · have := F64.roundedNat_mono (show j.natAbs ≤ i.natAbs by omega)
    omega
  · omega
  · omega
  · have := F64.roundedNat_mono (show i.natAbs ≤ j.natAbs by omega)
    omega

end Number

/-- `serde_json::Value`. An object lists its fields in the order of the underlying map. -/
inductive Json where
  | null
  | bool (b : Bool)
  | number (n : Number)
  | string (s : String)
  | array (items : List Json)
  | object (fields : List (String × Json))

namespace Json

-- The deriving handler does not accept the nested lists.
mutual

/-- Decides identity of values. -/
def decEq : (v w : Json) → Decidable (v = w)
  | null, null => isTrue rfl
  | bool a, bool b => decidable_of_iff (a = b) (by simp)
  | number a, number b => decidable_of_iff (a = b) (by simp)
  | string a, string b => decidable_of_iff (a = b) (by simp)
  | array a, array b => @decidable_of_iff _ _ (by simp) (decEqItems a b)
  | object a, object b => @decidable_of_iff _ _ (by simp) (decEqFields a b)
  | null, bool _ | null, number _ | null, string _ | null, array _ | null, object _
  | bool _, null | bool _, number _ | bool _, string _ | bool _, array _ | bool _, object _
  | number _, null | number _, bool _ | number _, string _ | number _, array _
  | number _, object _
  | string _, null | string _, bool _ | string _, number _ | string _, array _
  | string _, object _
  | array _, null | array _, bool _ | array _, number _ | array _, string _ | array _, object _
  | object _, null | object _, bool _ | object _, number _ | object _, string _
  | object _, array _ => isFalse (by simp)

/-- Decides identity of array contents. -/
def decEqItems : (v w : List Json) → Decidable (v = w)
  | [], [] => isTrue rfl
  | [], _ :: _ | _ :: _, [] => isFalse (by simp)
  | a :: as, b :: bs =>
    match decEq a b, decEqItems as bs with
    | isTrue h, isTrue h' => isTrue (by rw [h, h'])
    | isFalse h, _ => isFalse (by simp [h])
    | _, isFalse h => isFalse (by simp [h])

/-- Decides identity of object contents. -/
def decEqFields : (v w : List (String × Json)) → Decidable (v = w)
  | [], [] => isTrue rfl
  | [], _ :: _ | _ :: _, [] => isFalse (by simp)
  | (k, a) :: as, (l, b) :: bs =>
    match decEq a b, decEqFields as bs with
    | isTrue h, isTrue h' => decidable_of_iff (k = l) (by simp [h, h'])
    | isFalse h, _ => isFalse (by simp [h])
    | _, isFalse h => isFalse (by simp [h])

end

instance : DecidableEq Json := decEq

mutual

/-- Equality of `serde_json` values, `==` in the source. -/
def eqv : Json → Json → Bool
  | null, null => true
  | bool a, bool b => a = b
  | number a, number b => a.eqv b
  | string a, string b => a = b
  | array a, array b => eqvItems a b
  | object a, object b => eqvFields a b
  | _, _ => false

/-- Equality of array contents. -/
def eqvItems : List Json → List Json → Bool
  | [], [] => true
  | a :: as, b :: bs => eqv a b && eqvItems as bs
  | _, _ => false

/-- Equality of object contents, both in ascending key order. -/
def eqvFields : List (String × Json) → List (String × Json) → Bool
  | [], [] => true
  | (k, a) :: as, (l, b) :: bs => k = l && eqv a b && eqvFields as bs
  | _, _ => false

end

mutual

@[simp]
theorem eqv_refl : (v : Json) → v.eqv v = true
  | null => by simp [eqv]
  | bool _ => by simp [eqv]
  | number _ => by simp [eqv]
  | string _ => by simp [eqv]
  | array items => by simp [eqv, eqvItems_refl items]
  | object fields => by simp [eqv, eqvFields_refl fields]

private theorem eqvItems_refl : (l : List Json) → eqvItems l l = true
  | [] => by simp [eqvItems]
  | a :: as => by simp [eqvItems, eqv_refl a, eqvItems_refl as]

private theorem eqvFields_refl : (l : List (String × Json)) → eqvFields l l = true
  | [] => by simp [eqvFields]
  | (k, a) :: as => by simp [eqvFields, eqv_refl a, eqvFields_refl as]

end

mutual

theorem eqv_comm : (v w : Json) → v.eqv w = w.eqv v
  | number a, number b => by simp [eqv, Number.eqv_comm a b]
  | array a, array b => by simp [eqv, eqvItems_comm a b]
  | object a, object b => by simp [eqv, eqvFields_comm a b]
  | bool a, bool b => by simp [eqv, eq_comm]
  | string a, string b => by simp [eqv, eq_comm]
  | null, null => rfl
  | null, bool _ | null, number _ | null, string _ | null, array _ | null, object _
  | bool _, null | bool _, number _ | bool _, string _ | bool _, array _ | bool _, object _
  | number _, null | number _, bool _ | number _, string _ | number _, array _
  | number _, object _
  | string _, null | string _, bool _ | string _, number _ | string _, array _
  | string _, object _
  | array _, null | array _, bool _ | array _, number _ | array _, string _ | array _, object _
  | object _, null | object _, bool _ | object _, number _ | object _, string _
  | object _, array _ => by simp [eqv]

private theorem eqvItems_comm : (v w : List Json) → eqvItems v w = eqvItems w v
  | [], [] => rfl
  | [], _ :: _ | _ :: _, [] => by simp [eqvItems]
  | a :: as, b :: bs => by simp [eqvItems, eqv_comm a b, eqvItems_comm as bs]

private theorem eqvFields_comm : (v w : List (String × Json)) → eqvFields v w = eqvFields w v
  | [], [] => rfl
  | [], _ :: _ | _ :: _, [] => by simp [eqvFields]
  | (k, a) :: as, (l, b) :: bs => by
    simp [eqvFields, eqv_comm a b, eqvFields_comm as bs, eq_comm]

end

/-- Equality as a unique constraint means it: exact numeric value on two numbers, `serde_json`
equality on everything else. -/
def sameValue : Json → Json → Prop
  | number a, number b => a.value = b.value
  | v, w => v.eqv w = true

/-! ## Well-formed values -/

mutual

/-- Every object inside the value has its keys in ascending order, each once. -/
def wellFormed : Json → Bool
  | array items => wellFormedItems items
  | object fields => decide (fields.Pairwise (·.1 < ·.1)) && wellFormedFields fields
  | _ => true

def wellFormedItems : List Json → Bool
  | [] => true
  | a :: as => a.wellFormed && wellFormedItems as

def wellFormedFields : List (String × Json) → Bool
  | [] => true
  | (_, a) :: as => a.wellFormed && wellFormedFields as

end

lemma wellFormed_empty : (object []).wellFormed = true := rfl

/-- The fields of an object, `as_object`; empty on any other value. -/
def fields : Json → List (String × Json)
  | object fields => fields
  | _ => []

lemma fields_pairwise {v : Json} (h : v.wellFormed = true) :
    v.fields.Pairwise (·.1 < ·.1) := by
  cases v <;> simp_all [fields, wellFormed]

end Json

/-- The decoded property blob of a record: any value the caller serialized. -/
structure Props where
  value : Json
  wellFormed : value.wellFormed = true
  deriving DecidableEq

namespace Props

/-- The fields of an object; empty on any other value. -/
def fields (p : Props) : List (String × Json) := p.value.fields

/-- The value of a field, `Value::get`. -/
def get (p : Props) (name : String) : Option Json :=
  (p.fields.find? fun f => f.1 = name).map Prod.snd

private lemma mem_iff_find?_key {l : List (String × Json)} (hl : l.Pairwise (·.1 < ·.1))
    (name : String) (v : Json) :
    (name, v) ∈ l ↔ (l.find? fun f => f.1 = name).map Prod.snd = some v := by
  induction l with
  | nil => simp
  | cons f l ih =>
    obtain ⟨hlt, hrest⟩ := List.pairwise_cons.mp hl
    obtain ⟨k, w⟩ := f
    by_cases hk : k = name
    · subst hk
      -- A later field with this name would have to be above it.
      have hnot : (k, v) ∉ l := fun hmem => lt_irrefl k (hlt (k, v) hmem)
      simp [hnot, eq_comm]
    · have hne : (name, v) ≠ (k, w) := fun h => hk (congrArg Prod.fst h).symm
      have hskip : ((k, w) :: l).find? (fun f => f.1 = name) = l.find? fun f => f.1 = name :=
        List.find?_cons_of_neg (by simpa using hk)
      rw [hskip, List.mem_cons, or_iff_right hne]
      exact ih hrest

/-- Fields and lookups agree, since a key occurs once. -/
theorem mem_fields {p : Props} {name : String} {v : Json} :
    (name, v) ∈ p.fields ↔ p.get name = some v :=
  mem_iff_find?_key (Json.fields_pairwise p.wellFormed) name v

end Props

end IssunDB
