import IssunDB.Cypher.Values

/-!
# The order of values

`jsonCmpTotal` ranks the kinds of values and compares within a kind. It is a total preorder on the
values at hand unless one of two things brings three values out of line: a number that is not a
signed 64-bit integer ties with two different integers, since it is compared as a double; or two
temporal values of one kind differ while a third tagged value is of another kind, or has no sort
key, and so ties with both (`Separated`).
-/

namespace IssunDB.Cypher

open List Option

/-! ## Kinds -/

/-- The rank of a kind with NaN above the numbers. -/
def orderRank (v : Json) : ℕ :=
  if isNan v then 9 else if typeRank v = 9 then 10 else typeRank v

lemma typeRank_of_isNan {v : Json} (h : isNan v = true) : typeRank v = 8 := by
  unfold typeRank
  rw [if_pos h]

lemma typeRank_le (v : Json) : typeRank v ≤ 9 := by
  unfold typeRank
  split
  · omega
  · split
    · split <;> omega
    all_goals omega

lemma rankCmp_eq (a b : Json) :
    rankCmp a b =
      if orderRank a ≠ orderRank b then some (compare (orderRank a) (orderRank b))
      else if isNan a then some .eq else none := by
  have ha := Nat.lt_succ_of_le (typeRank_le a)
  have hb := Nat.lt_succ_of_le (typeRank_le b)
  unfold rankCmp orderRank
  by_cases hna : isNan a <;> by_cases hnb : isNan b
  · simp [hna, hnb]
  · simp only [hna, hnb, typeRank_of_isNan hna]
    generalize typeRank b = r at hb
    revert r
    decide
  · simp only [hna, hnb, typeRank_of_isNan hnb]
    generalize typeRank a = r at ha
    revert r
    decide
  · simp only [hna, hnb]
    generalize typeRank a = r at ha
    generalize typeRank b = r' at hb
    revert r r'
    decide

def tagRank : Option String → ℕ
  | none => 0
  | some t =>
    if t = "__NaN__" then 9
    else if t = "__Node__" then 1
    else if t = "__Edge__" then 2
    else if t = "__Path__" then 4
    else 5

lemma tagRank_le {t : Option String} (h : t ≠ some "__NaN__") : tagRank t ≤ 5 := by
  cases t with
  | none => exact Nat.zero_le 5
  | some t =>
    unfold tagRank
    dsimp only
    rw [if_neg (fun ht => h (congrArg some ht))]
    split_ifs <;> omega

section Rank

variable (m : List (String × Json)) (items : List Json)

lemma isNan_object : isNan (.object m) = true ↔ typeTag m = some "__NaN__" := by
  unfold isNan
  exact decide_eq_true_iff

lemma typeRank_object (h : isNan (.object m) = false) :
    typeRank (.object m) = tagRank (typeTag m) := by
  have hnan : typeTag m ≠ some "__NaN__" := by
    rw [Ne, ← isNan_object, h]
    decide
  unfold typeRank
  rw [if_neg (by rw [h]; decide)]
  dsimp only
  split
  next htag => rw [htag]; rfl
  next htag => rw [htag]; rfl
  next htag => rw [htag]; rfl
  next htag => rw [htag]; rfl
  next t h1 h2 h4 htag =>
    rw [htag] at hnan ⊢
    unfold tagRank
    dsimp only
    rw [if_neg (fun ht => hnan (congrArg some ht)), if_neg h1, if_neg h2, if_neg h4]

@[simp]
lemma orderRank_object : orderRank (.object m) = tagRank (typeTag m) := by
  unfold orderRank
  by_cases h : isNan (.object m)
  · rw [if_pos h, (isNan_object m).mp h]
    rfl
  · have hle := tagRank_le (fun htag => h ((isNan_object m).mpr htag))
    rw [if_neg h, typeRank_object m (Bool.eq_false_iff.mpr h), if_neg (by omega)]

@[simp]
lemma orderRank_array : orderRank (.array items) = 3 := rfl

@[simp]
lemma orderRank_string (s : String) : orderRank (.string s) = 6 := rfl

@[simp]
lemma orderRank_bool (b : Bool) : orderRank (.bool b) = 7 := rfl

@[simp]
lemma orderRank_number (n : Number) : orderRank (.number n) = 8 := rfl

@[simp]
lemma orderRank_null : orderRank .null = 10 := rfl

end Rank

/-! ## Within a kind -/

/-- Between two objects of one rank. -/
def objectOrder (a b : List (String × Json)) : Ordering :=
  if typeTag a = some "__NaN__" then .eq
  else if tagRank (typeTag a) = 1 ∨ tagRank (typeTag a) = 2 then compare (entityId a) (entityId b)
  else if tagRank (typeTag a) = 4 then
    (List.compareLex jsonCmpTotal (pathPart "nodes" a) (pathPart "nodes" b)).then
      (List.compareLex jsonCmpTotal (pathPart "relationships" a) (pathPart "relationships" b))
  else (objectCmp a b).getD .eq

lemma jsonCmpTotalLists_eq (as bs : List Json) :
    jsonCmpTotalLists as bs = List.compareLex jsonCmpTotal as bs := by
  induction as generalizing bs with
  | nil => cases bs <;> rfl
  | cons a as ih =>
    cases bs with
    | nil => rfl
    | cons b bs =>
      rw [List.compareLex_cons_cons, ← ih]
      rfl

lemma jsonCmpTotalPart_eq (key : String) (fields : List (String × Json)) (part : List Json) :
    jsonCmpTotalPart key fields part = List.compareLex jsonCmpTotal (pathPart key fields) part := by
  have hnil : ∀ part : List Json, nilCmp part = List.compareLex jsonCmpTotal [] part := by
    intro part
    cases part <;> rfl
  induction fields with
  | nil => exact hnil part
  | cons f fields ih =>
    obtain ⟨k, v⟩ := f
    unfold jsonCmpTotalPart pathPart getField
    by_cases hk : k = key
    · rw [if_pos hk, find?_cons_of_pos (by simpa using hk)]
      cases v with
      | array items => exact jsonCmpTotalLists_eq items part
      | _ => exact hnil part
    · rw [if_neg hk, find?_cons_of_neg (by simpa using hk)]
      exact ih

section Within

variable {a b : Json}

lemma jsonCmpTotal_of_ne (h : orderRank a ≠ orderRank b) :
    jsonCmpTotal a b = compare (orderRank a) (orderRank b) := by
  unfold jsonCmpTotal
  rw [rankCmp_eq, if_pos h]

lemma jsonCmpTotal_array (as bs : List Json) :
    jsonCmpTotal (.array as) (.array bs) = List.compareLex jsonCmpTotal as bs :=
  jsonCmpTotalLists_eq as bs

lemma jsonCmpTotal_number (m n : Number) :
    jsonCmpTotal (.number m) (.number n) = numberCmp m n := rfl

lemma jsonCmpTotal_object {a b : List (String × Json)}
    (h : tagRank (typeTag a) = tagRank (typeTag b)) :
    jsonCmpTotal (.object a) (.object b) = objectOrder a b := by
  unfold jsonCmpTotal objectOrder
  rw [rankCmp_eq, if_neg (by simpa using h)]
  by_cases hnan : isNan (.object a)
  · rw [if_pos hnan, if_pos ((isNan_object a).mp hnan)]
  · rw [if_neg hnan, if_neg (fun htag => hnan ((isNan_object a).mpr htag))]
    dsimp only
    rw [typeRank_object a (Bool.eq_false_iff.mpr hnan), jsonCmpTotalPart_eq, jsonCmpTotalPart_eq]

end Within

/-! ## Values at hand -/

/-- What comparing the values of `S` comes to compare: they, the items of lists and the parts of
paths. -/
inductive Reach (S : Set Json) : Json → Prop
  | base {v : Json} : v ∈ S → Reach S v
  | item {items : List Json} {v : Json} : Reach S (.array items) → v ∈ items → Reach S v
  | part {m : List (String × Json)} {v : Json} : Reach S (.object m) →
      typeTag m = some "__Path__" → v ∈ pathPart "nodes" m ++ pathPart "relationships" m → Reach S v

/-- A value of the language: an object that is tagged as an entity or as NaN has no sort key. -/
def Genuine : Json → Prop
  | .object m => tagRank (typeTag m) ∈ [1, 2, 4, 9] → sortKey m = none
  | _ => True

/-- No three values are out of line. -/
structure Separated (T : Set Json) : Prop where
  /-- A number that is compared as a double ties with one signed integer at most. -/
  numbers : ∀ x y z : Number, .number x ∈ T → .number y ∈ T → .number z ∈ T → ∀ i j,
    x.asI64 = some i → y.asI64 = some j → z.asI64 = none →
    x.asF64.scaled = z.asF64.scaled → y.asF64.scaled = z.asF64.scaled → i = j
  /-- Next to two temporal values of one kind that differ, all tagged values are of that kind. -/
  tagged : ∀ u v w : List (String × Json), .object u ∈ T → .object v ∈ T → .object w ∈ T →
    tagRank (typeTag u) = 5 → tagRank (typeTag w) = 5 → typeTag u = typeTag v → ∀ k l,
    sortKey u = some k → sortKey v = some l → k ≠ l → typeTag w = typeTag u ∧ (sortKey w).isSome

/-- The laws of the order on the values at hand. -/
structure OrderLaws (T : Set Json) : Prop where
  refl : ∀ a ∈ T, jsonCmpTotal a a = .eq
  swap : ∀ a ∈ T, ∀ b ∈ T, jsonCmpTotal b a = (jsonCmpTotal a b).swap
  trans : ∀ a ∈ T, ∀ b ∈ T, ∀ c ∈ T, (jsonCmpTotal a b).isLE → (jsonCmpTotal b c).isLE →
    (jsonCmpTotal a c).isLE
  eq_of_cypherEq : ∀ a ∈ T, ∀ b ∈ T, cypherEq a b = some true → jsonCmpTotal a b = .eq
  eq_of_jsonCmp : ∀ a ∈ T, ∀ b ∈ T, ∀ o, jsonCmp a b = some o → jsonCmpTotal a b = o

section Kinds

variable {T : Set Json}

/-- **Numbers.** Converting an integer to a double keeps the order, and integers that become equal
are not compared through a double. -/
theorem comparesOn_numberCmp (h : Separated T) : ComparesOn numberCmp {x | .number x ∈ T} where
  swap x _ y _ := by
    unfold numberCmp
    rcases x.asI64 with _ | i <;> rcases y.asI64 with _ | j <;> exact Std.OrientedOrd.eq_swap
  trans x hx y hy z hz hxy hyz := by
    have hle : ∀ a b : Number, (numberCmp a b).isLE → a.asF64.scaled ≤ b.asF64.scaled := by
      intro a b hab
      unfold numberCmp at hab
      rcases hi : a.asI64 with _ | i <;> rcases hj : b.asI64 with _ | j <;> rw [hi, hj] at hab
      · exact Std.isLE_compare.mp hab
      · exact Std.isLE_compare.mp hab
      · exact Std.isLE_compare.mp hab
      · exact Number.scaled_asF64_mono hi hj (Std.isLE_compare.mp hab)
    have h₁ := hle x y hxy
    have h₂ := hle y z hyz
    unfold numberCmp
    rcases hi : x.asI64 with _ | i <;> rcases hk : z.asI64 with _ | k
    · exact Std.isLE_compare.mpr (h₁.trans h₂)
    · exact Std.isLE_compare.mpr (h₁.trans h₂)
    · exact Std.isLE_compare.mpr (h₁.trans h₂)
    · apply Std.isLE_compare.mpr
      rcases hj : y.asI64 with _ | j
      · by_contra hlt
        push Not at hlt
        have h₃ := Number.scaled_asF64_mono hk hi hlt.le
        exact hlt.ne' (h.numbers x z y hx hz hy i k hi hk hj (by omega) (by omega))
      · unfold numberCmp at hxy hyz
        rw [hi, hj] at hxy
        rw [hj, hk] at hyz
        exact (Std.isLE_compare.mp hxy).trans (Std.isLE_compare.mp hyz)

lemma objectCmp_eq_some {a b : List (String × Json)} {o : Ordering} :
    objectCmp a b = some o ↔ ∃ t k l, typeTag a = some t ∧ typeTag b = some t ∧
      sortKey a = some k ∧ sortKey b = some l ∧ compare k l = o := by
  unfold objectCmp
  rcases typeTag a with _ | t <;> rcases typeTag b with _ | t'
  · simp
  · simp
  · simp
  · dsimp only
    split
    next ht =>
      subst ht
      rcases sortKey a with _ | k <;> rcases sortKey b with _ | l <;> simp
    next ht => simp [ht, eq_comm]

lemma objectCmp_swap (a b : List (String × Json)) :
    objectCmp b a = (objectCmp a b).map Ordering.swap := by
  ext o
  rw [objectCmp_eq_some, map_eq_some_iff]
  constructor
  · rintro ⟨t, k, l, htb, hta, hk, hl, rfl⟩
    exact ⟨compare l k, objectCmp_eq_some.mpr ⟨t, l, k, hta, htb, hl, hk, rfl⟩,
      Std.OrientedOrd.eq_swap.symm⟩
  · rintro ⟨o, ho, rfl⟩
    obtain ⟨t, k, l, hta, htb, hk, hl, rfl⟩ := objectCmp_eq_some.mp ho
    exact ⟨t, l, k, htb, hta, hl, hk, Std.OrientedOrd.eq_swap⟩

/-- **Temporal values.** -/
theorem comparesOn_objectCmp (h : Separated T) :
    ComparesOn (fun a b => (objectCmp a b).getD .eq)
      {m | .object m ∈ T ∧ tagRank (typeTag m) = 5} where
  swap a _ b _ := by
    rw [objectCmp_swap]
    rcases objectCmp a b with _ | o <;> rfl
  trans a ha b hb c hc hab hbc := by
    rcases hac : objectCmp a c with _ | o
    · rfl
    · obtain ⟨t, k, m, hta, htc, hk, hm, rfl⟩ := objectCmp_eq_some.mp hac
      by_cases hkm : k = m
      · rw [hkm]
        exact Std.ReflOrd.isLE_rfl
      · -- The one in the middle has the same tag and a sort key of its own.
        obtain ⟨htb, hsome⟩ :=
          h.tagged a c b ha.1 hc.1 hb.1 ha.2 hb.2 (hta.trans htc.symm) k m hk hm hkm
        obtain ⟨l, hl⟩ := isSome_iff_exists.mp hsome
        rw [hta] at htb
        rw [objectCmp_eq_some.mpr ⟨t, k, l, hta, htb, hk, hl, rfl⟩] at hab
        rw [objectCmp_eq_some.mpr ⟨t, l, m, htb, htc, hl, hm, rfl⟩] at hbc
        exact Std.TransOrd.isLE_trans hab hbc

/-! ## The whole order -/

variable {v : Json} {t : Option String}

lemma sizeOf_item {items : List Json} (h : v ∈ items) :
    sizeOf v < sizeOf (Json.array items) := by
  have := sizeOf_lt_of_mem h
  rw [Json.array.sizeOf_spec]
  omega

lemma sizeOf_pathPart {key : String} {m : List (String × Json)} (h : v ∈ pathPart key m) :
    sizeOf v < sizeOf (Json.object m) := by
  unfold pathPart getField at h
  rcases hf : m.find? fun f => f.1 = key with _ | ⟨k, w⟩
  · rw [hf] at h
    cases h
  · rw [hf] at h
    have hmem := sizeOf_lt_of_mem (mem_of_find?_eq_some hf)
    change v ∈ arrayItems w at h
    cases w with
    | array items =>
      have hv := sizeOf_item (show v ∈ items from h)
      have hpair : sizeOf (k, Json.array items) = 1 + sizeOf k + sizeOf (Json.array items) := rfl
      rw [Json.object.sizeOf_spec]
      omega
    | _ => cases h

/-- A set that comparing its members does not leave. -/
structure Closed (T : Set Json) : Prop where
  item : ∀ items v, .array items ∈ T → v ∈ items → v ∈ T
  part : ∀ m v, .object m ∈ T → typeTag m = some "__Path__" →
    v ∈ pathPart "nodes" m ++ pathPart "relationships" m → v ∈ T

lemma closed_reach (S : Set Json) : Closed {v | Reach S v} where
  item _ _ h hv := .item h hv
  part _ _ h htag hv := .part h htag hv

/-- The values of one rank that are at most `n` large. -/
def Layer (T : Set Json) (n r : ℕ) : Set Json := {v | (v ∈ T ∧ sizeOf v ≤ n) ∧ orderRank v = r}

lemma shape_of_orderRank (v : Json) :
    match v with
    | .null => orderRank v = 10
    | .bool _ => orderRank v = 7
    | .number _ => orderRank v = 8
    | .string _ => orderRank v = 6
    | .array _ => orderRank v = 3
    | .object m => orderRank v = tagRank (typeTag m) ∧ (orderRank v ≤ 2 ∨ orderRank v = 4 ∨
        orderRank v = 5 ∨ orderRank v = 9) := by
  cases v with
  | object m =>
    refine ⟨orderRank_object m, ?_⟩
    rw [orderRank_object]
    cases typeTag m with
    | none => exact .inl (Nat.zero_le 2)
    | some t =>
      unfold tagRank
      dsimp only
      split_ifs <;> omega
  | _ => rfl

lemma tagRank_eq_zero (h : tagRank t = 0) : t = none := by
  cases t with
  | none => rfl
  | some t =>
    unfold tagRank at h
    dsimp only at h
    split_ifs at h

lemma tagRank_eq_nine (h : tagRank t = 9) : t = some "__NaN__" := by
  by_contra hne
  have := tagRank_le hne
  omega

lemma tagRank_eq_four (h : tagRank t = 4) : t = some "__Path__" := by
  cases t with
  | none => cases h
  | some t =>
    by_contra hne
    have hpath : ¬ t = "__Path__" := fun ht => hne (congrArg some ht)
    simp only [tagRank, hpath, if_false] at h
    split_ifs at h <;> omega

/-- **Objects.** -/
theorem comparesOn_objectOrder (h : Separated T) (hT : Closed T) {n : ℕ}
    (ih : ComparesOn jsonCmpTotal {v | v ∈ T ∧ sizeOf v ≤ n}) (r : ℕ) :
    ComparesOn objectOrder {m | (.object m ∈ T ∧ sizeOf (Json.object m) ≤ n + 1) ∧
      tagRank (typeTag m) = r} := by
  by_cases h9 : r = 9
  · refine ComparesOn.ties fun a ha b hb => ?_
    unfold objectOrder
    rw [if_pos (tagRank_eq_nine (ha.2.trans h9))]
  have hnan : ∀ m : List (String × Json), tagRank (typeTag m) = r → typeTag m ≠ some "__NaN__" := by
    intro m hm htag
    rw [htag] at hm
    exact h9 hm.symm
  by_cases h12 : r = 1 ∨ r = 2
  · refine ComparesOn.ofKey entityId fun a ha b hb => ?_
    unfold objectOrder
    rw [if_neg (hnan a ha.2), if_pos (by rwa [ha.2])]
  by_cases h4 : r = 4
  · -- A path is compared by its parts, which are smaller.
    have hparts : ∀ key, key = "nodes" ∨ key = "relationships" →
        ComparesOn (fun a b => List.compareLex jsonCmpTotal (pathPart key a) (pathPart key b))
          {m | (.object m ∈ T ∧ sizeOf (Json.object m) ≤ n + 1) ∧ tagRank (typeTag m) = r} := by
      intro key hkey
      refine ih.lists.comap fun m hm v hv => ?_
      have htag := tagRank_eq_four (hm.2.trans h4)
      have hsize := sizeOf_pathPart hv
      refine ⟨hT.part m v hm.1.1 htag ?_, by have := hm.1.2; omega⟩
      rcases hkey with rfl | rfl
      · exact mem_append_left _ hv
      · exact mem_append_right _ hv
    refine ((hparts "nodes" (.inl rfl)).lex (hparts "relationships" (.inr rfl))).congr
      fun a ha b hb => ?_
    unfold objectOrder
    rw [if_neg (hnan a ha.2), if_neg (by rwa [ha.2]), if_pos (ha.2.trans h4)]
  have hrest : ∀ a, tagRank (typeTag a) = r → ∀ b, objectOrder a b = (objectCmp a b).getD .eq := by
    intro a ha b
    unfold objectOrder
    rw [if_neg (hnan a ha), if_neg (by rwa [ha]), if_neg (by rwa [ha])]
  by_cases h5 : r = 5
  · refine ((comparesOn_objectCmp h).mono fun m hm => ⟨hm.1.1, hm.2.trans h5⟩).congr
      fun a ha b _ => hrest a ha.2 b
  · refine ComparesOn.ties fun a ha b hb => ?_
    have hshape := shape_of_orderRank (.object a)
    dsimp only at hshape
    rw [hshape.1, ha.2] at hshape
    have htag := tagRank_eq_zero (ha.2.trans (show r = 0 by omega))
    rw [hrest a ha.2]
    unfold objectCmp
    rw [htag]
    rfl

lemma exists_object_of_orderRank (h : orderRank v ∉ [3, 6, 7, 8, 10]) :
    ∃ m, v = .object m := by
  have hshape := shape_of_orderRank v
  cases v with
  | object m => exact ⟨m, rfl⟩
  | _ =>
    dsimp only at hshape
    rw [hshape] at h
    exact absurd h (by decide)

lemma exists_array_of_orderRank (h : orderRank v = 3) : ∃ items, v = .array items := by
  have hshape := shape_of_orderRank v
  cases v with
  | array items => exact ⟨items, rfl⟩
  | _ =>
    dsimp only at hshape
    omega

lemma exists_number_of_orderRank (h : orderRank v = 8) : ∃ n, v = .number n := by
  have hshape := shape_of_orderRank v
  cases v with
  | number n => exact ⟨n, rfl⟩
  | _ =>
    dsimp only at hshape
    omega

/-- The boolean a value is. -/
def asBool : Json → Bool
  | .bool b => b
  | _ => false

def asNumber : Json → Number
  | .number n => n
  | _ => .posInt 0 F64.zero_fits

/-- **Step.** Values up to a size are compared by smaller ones. -/
theorem comparesOn_layer (h : Separated T) (hT : Closed T) {n : ℕ}
    (ih : ComparesOn jsonCmpTotal {v | v ∈ T ∧ sizeOf v ≤ n}) (r : ℕ) :
    ComparesOn jsonCmpTotal (Layer T (n + 1) r) := by
  by_cases h3 : r = 3
  · have hlists : ComparesOn (fun a b => List.compareLex jsonCmpTotal (arrayItems a) (arrayItems b))
        (Layer T (n + 1) r) := by
      refine ih.lists.comap fun a ha v hv => ?_
      obtain ⟨items, rfl⟩ := exists_array_of_orderRank (ha.2.trans h3)
      have hsize := sizeOf_item (show v ∈ items from hv)
      exact ⟨hT.item items v ha.1.1 hv, by have := ha.1.2; omega⟩
    refine hlists.congr fun a ha b hb => ?_
    obtain ⟨as, rfl⟩ := exists_array_of_orderRank (ha.2.trans h3)
    obtain ⟨bs, rfl⟩ := exists_array_of_orderRank (hb.2.trans h3)
    exact jsonCmpTotal_array as bs
  by_cases h8 : r = 8
  · have hnumbers :
        ComparesOn (fun a b => numberCmp (asNumber a) (asNumber b)) (Layer T (n + 1) r) := by
      refine (comparesOn_numberCmp h).comap fun a ha => ?_
      obtain ⟨x, rfl⟩ := exists_number_of_orderRank (ha.2.trans h8)
      exact ha.1.1
    refine hnumbers.congr fun a ha b hb => ?_
    obtain ⟨x, rfl⟩ := exists_number_of_orderRank (ha.2.trans h8)
    obtain ⟨y, rfl⟩ := exists_number_of_orderRank (hb.2.trans h8)
    rfl
  by_cases h6 : r = 6
  · refine ComparesOn.ofKey asStr fun a ha b hb => ?_
    have hshape := shape_of_orderRank a
    have hshape' := shape_of_orderRank b
    rw [ha.2, h6] at hshape
    rw [hb.2, h6] at hshape'
    cases a <;> dsimp only at hshape <;> try omega
    cases b <;> dsimp only at hshape' <;> try omega
    rfl
  by_cases h7 : r = 7
  · refine ComparesOn.ofKey asBool fun a ha b hb => ?_
    have hshape := shape_of_orderRank a
    have hshape' := shape_of_orderRank b
    rw [ha.2, h7] at hshape
    rw [hb.2, h7] at hshape'
    cases a <;> dsimp only at hshape <;> try omega
    cases b <;> dsimp only at hshape' <;> try omega
    rfl
  by_cases h10 : r = 10
  · refine ComparesOn.ties fun a ha b hb => ?_
    have hshape := shape_of_orderRank a
    have hshape' := shape_of_orderRank b
    rw [ha.2, h10] at hshape
    rw [hb.2, h10] at hshape'
    cases a <;> dsimp only at hshape <;> try omega
    cases b <;> dsimp only at hshape' <;> try omega
    rfl
  · have hobject : ∀ v ∈ Layer T (n + 1) r, ∃ m, v = .object m := by
      intro v hv
      apply exists_object_of_orderRank
      rw [hv.2]
      simp only [mem_cons, not_mem_nil, or_false, not_or]
      omega
    have hobjects : ComparesOn (fun a b => objectOrder (Json.fields a) (Json.fields b))
        (Layer T (n + 1) r) := by
      refine (comparesOn_objectOrder h hT ih r).comap fun a ha => ?_
      obtain ⟨m, rfl⟩ := hobject a ha
      exact ⟨ha.1, (orderRank_object m).symm.trans ha.2⟩
    refine hobjects.congr fun a ha b hb => ?_
    obtain ⟨m, rfl⟩ := hobject a ha
    obtain ⟨m', rfl⟩ := hobject b hb
    apply jsonCmpTotal_object
    rw [← orderRank_object, ← orderRank_object, ha.2, hb.2]

/-- **Run.** Where no three values are out of line the order is a total preorder. -/
theorem comparesOn_jsonCmpTotal (h : Separated T) (hT : Closed T) : ComparesOn jsonCmpTotal T := by
  have hsize : ∀ n, ComparesOn jsonCmpTotal {v | v ∈ T ∧ sizeOf v ≤ n} := by
    intro n
    induction n with
    | zero =>
      refine ComparesOn.ties fun a ha b hb => ?_
      have hpos : 0 < sizeOf a := by cases a <;> simp
      have := ha.2
      omega
    | succ n ih =>
      exact ComparesOn.ranked orderRank (comparesOn_layer h hT ih)
        fun a _ b _ hne => jsonCmpTotal_of_ne hne
  constructor
  · intro a ha b hb
    exact (hsize (sizeOf a + sizeOf b)).swap a ⟨ha, by omega⟩ b ⟨hb, by omega⟩
  · intro a ha b hb c hc
    exact (hsize (sizeOf a + sizeOf b + sizeOf c)).trans a ⟨ha, by omega⟩ b ⟨hb, by omega⟩ c
      ⟨hc, by omega⟩

end Kinds

/-! ## Equal values tie -/

lemma compareLex_eq_of_forall₂ {α : Type*} {cmp : α → α → Ordering} {as bs : List α}
    (h : List.Forall₂ (fun a b => cmp a b = .eq) as bs) : List.compareLex cmp as bs = .eq := by
  induction h with
  | nil => rfl
  | cons hab _ ih =>
    rw [List.compareLex_cons_cons, hab]
    exact ih

lemma forall₂_imp_mem {α : Type*} {R R' : α → α → Prop} {as bs : List α}
    (h : List.Forall₂ R as bs) (himp : ∀ a ∈ as, ∀ b ∈ bs, R a b → R' a b) :
    List.Forall₂ R' as bs := by
  induction h with
  | nil => exact .nil
  | cons hab _ ih =>
    refine .cons (himp _ mem_cons_self _ mem_cons_self hab) (ih ?_)
    exact fun a ha b hb => himp a (mem_cons_of_mem _ ha) b (mem_cons_of_mem _ hb)

lemma forall₂_of_eqvItems {as bs : List Json} (h : Json.eqvItems as bs = true) :
    List.Forall₂ (fun a b => a.eqv b = true) as bs := by
  induction as generalizing bs with
  | nil =>
    cases bs with
    | nil => exact .nil
    | cons b bs => simp [Json.eqvItems] at h
  | cons a as ih =>
    cases bs with
    | nil => simp [Json.eqvItems] at h
    | cons b bs =>
      rw [Json.eqvItems, Bool.and_eq_true_iff] at h
      exact .cons h.1 (ih h.2)

variable {m m' : List (String × Json)}

/-- Equal objects have equal values under a key. -/
theorem getField_of_eqvFields (h : Json.eqvFields m m' = true) (key : String) :
    Option.Rel (fun v w => v.eqv w = true) (getField key m) (getField key m') := by
  induction m generalizing m' with
  | nil =>
    cases m' with
    | nil => exact .none
    | cons f m' => simp [Json.eqvFields] at h
  | cons f m ih =>
    cases m' with
    | nil => simp [Json.eqvFields] at h
    | cons f' m' =>
      obtain ⟨k, v⟩ := f
      obtain ⟨k', v'⟩ := f'
      simp only [Json.eqvFields, Bool.and_eq_true, decide_eq_true_eq] at h
      obtain ⟨⟨rfl, hv⟩, hrest⟩ := h
      unfold getField at ih ⊢
      by_cases hk : k = key
      · rw [find?_cons_of_pos (by simpa using hk), find?_cons_of_pos (by simpa using hk)]
        exact .some hv
      · rw [find?_cons_of_neg (by simpa using hk), find?_cons_of_neg (by simpa using hk)]
        exact ih hrest

lemma asStr_of_eqv {v w : Json} (h : v.eqv w = true) : asStr v = asStr w := by
  cases v <;> cases w <;> simp_all [Json.eqv, asStr]

lemma asU64_of_eqv {v w : Json} (h : v.eqv w = true) : asU64 v = asU64 w := by
  cases v with
  | number x =>
    cases w with
    | number y =>
      cases x <;> cases y <;> simp_all [Json.eqv, Number.eqv, asU64]
    | _ => simp [Json.eqv] at h
  | _ => cases w <;> simp_all [Json.eqv, asU64]

lemma bind_getField_of_eqvFields {α : Type} (h : Json.eqvFields m m' = true) {f : Json → Option α}
    (hf : ∀ v w, v.eqv w = true → f v = f w) (key : String) :
    (getField key m).bind f = (getField key m').bind f := by
  have hrel := getField_of_eqvFields h key
  generalize getField key m = o at hrel ⊢
  generalize getField key m' = o' at hrel ⊢
  cases hrel with
  | none => rfl
  | some hvw => exact hf _ _ hvw

lemma pathPart_of_eqvFields (h : Json.eqvFields m m' = true) (key : String) :
    List.Forall₂ (fun v w => v.eqv w = true) (pathPart key m) (pathPart key m') := by
  have hrel := getField_of_eqvFields h key
  unfold pathPart
  generalize getField key m = o at hrel ⊢
  generalize getField key m' = o' at hrel ⊢
  cases hrel with
  | none => exact .nil
  | @some v w hvw =>
    show List.Forall₂ _ (arrayItems v) (arrayItems w)
    cases v <;> cases w <;> try exact .nil
    all_goals simp only [Json.eqv, Bool.false_eq_true] at hvw
    exact forall₂_of_eqvItems hvw

lemma numberCmp_self (x : Number) : numberCmp x x = .eq := by
  unfold numberCmp
  rcases x.asI64 with _ | i <;> exact Std.ReflOrd.compare_self

lemma numberCmp_of_eqv {x y : Number} (h : x.eqv y = true) : numberCmp x y = .eq := by
  cases x <;> cases y <;> try cases h
  case posInt.posInt =>
    obtain rfl := of_decide_eq_true h
    exact numberCmp_self _
  case negInt.negInt =>
    obtain rfl := of_decide_eq_true h
    exact numberCmp_self _
  case float.float f g =>
    have hscaled : f.scaled = g.scaled := of_decide_eq_true h
    show compare f.scaled g.scaled = .eq
    rw [hscaled]
    exact Std.ReflOrd.compare_self

/-- **Equal values tie.** -/
theorem jsonCmpTotal_of_eqv {a b : Json} (h : a.eqv b = true) : jsonCmpTotal a b = .eq := by
  have hlists : ∀ {as bs : List Json}, (∀ a ∈ as, ∀ b, a.eqv b = true → jsonCmpTotal a b = .eq) →
      List.Forall₂ (fun a b => a.eqv b = true) as bs →
      List.compareLex jsonCmpTotal as bs = .eq := by
    intro as bs hitems hforall
    apply compareLex_eq_of_forall₂
    have hboth := (List.forall₂_and_left as bs).mpr ⟨hitems, hforall⟩
    exact hboth.imp fun a b hab => hab.1 b hab.2
  induction hn : sizeOf a using Nat.strong_induction_on generalizing a b with
  | _ n ih =>
    subst hn
    cases a with
    | array as =>
      cases b with
      | array bs =>
        rw [jsonCmpTotal_array]
        exact hlists (fun a ha b hab => ih _ (sizeOf_item ha) hab rfl) (forall₂_of_eqvItems h)
      | _ => simp [Json.eqv] at h
    | object m =>
      cases b with
      | object m' =>
        have hm : Json.eqvFields m m' = true := h
        have htag : typeTag m = typeTag m' :=
          bind_getField_of_eqvFields hm (fun _ _ => asStr_of_eqv) _
        have hkey : sortKey m = sortKey m' :=
          bind_getField_of_eqvFields hm (fun _ _ => asStr_of_eqv) _
        have hid : entityId m = entityId m' :=
          bind_getField_of_eqvFields hm (fun _ _ => asU64_of_eqv) _
        have hpart : ∀ key,
            List.compareLex jsonCmpTotal (pathPart key m) (pathPart key m') = .eq := fun key =>
          hlists (fun a ha b hab => ih _ (sizeOf_pathPart ha) hab rfl)
            (pathPart_of_eqvFields hm key)
        rw [jsonCmpTotal_object (by rw [htag])]
        unfold objectOrder
        split_ifs
        · rfl
        · rw [hid]
          exact Std.ReflOrd.compare_self
        · rw [hpart, hpart]
          rfl
        · unfold objectCmp
          rw [htag, hkey]
          rcases typeTag m' with _ | t
          · rfl
          · rcases sortKey m' with _ | k
            · simp
            · simp
      | _ => simp [Json.eqv] at h
    | number x =>
      cases b with
      | number y =>
        rw [jsonCmpTotal_number]
        exact numberCmp_of_eqv h
      | _ => simp [Json.eqv] at h
    | string s =>
      cases b with
      | string t =>
        obtain rfl : s = t := of_decide_eq_true h
        exact Std.ReflOrd.compare_self
      | _ => simp [Json.eqv] at h
    | bool x =>
      cases b with
      | bool y =>
        obtain rfl : x = y := of_decide_eq_true h
        exact Std.ReflOrd.compare_self
      | _ => simp [Json.eqv] at h
    | null =>
      cases b with
      | null => rfl
      | _ => simp [Json.eqv] at h

/-! ## The laws -/

section Laws

variable {T : Set Json}

attribute [local simp] cypherEq

/-- A tag of an object that is compared by its identity. -/
theorem sortKey_of_genuine {m : List (String × Json)} (h : Genuine (.object m))
    (htag : tagRank (typeTag m) ∈ [1, 2, 4, 9]) : sortKey m = none := h htag

variable {a b : List (String × Json)} {o : Ordering} {as bs : List Json}

lemma tagRank_of_objectCmp (ha : Genuine (.object a)) (h : objectCmp a b = some o) :
    tagRank (typeTag a) = 5 := by
  obtain ⟨t, k, l, hta, -, hk, -, -⟩ := objectCmp_eq_some.mp h
  have hshape := shape_of_orderRank (.object a)
  dsimp only at hshape
  rw [orderRank_object] at hshape
  have hnot : tagRank (typeTag a) ∉ [1, 2, 4, 9] := by
    intro hmem
    rw [sortKey_of_genuine ha hmem] at hk
    cases hk
  have hne : tagRank (typeTag a) ≠ 0 := by
    intro h0
    rw [tagRank_eq_zero h0] at hta
    cases hta
  simp only [mem_cons, not_mem_nil, or_false, not_or] at hnot
  omega

lemma jsonCmpTotal_of_objectCmp (ha : Genuine (.object a)) (h : objectCmp a b = some o) :
    jsonCmpTotal (.object a) (.object b) = o := by
  have hrank := tagRank_of_objectCmp ha h
  obtain ⟨t, k, l, hta, htb, -, -, -⟩ := objectCmp_eq_some.mp h
  rw [jsonCmpTotal_object (by rw [hta, htb])]
  unfold objectOrder
  rw [if_neg (fun htag => by rw [htag] at hrank; exact absurd hrank (by decide)),
    if_neg (by omega), if_neg (by omega), h]
  rfl

lemma numberCmp_eq_iff {x y : Number} : numberCmp x y = .eq ↔ numberEq x y = true := by
  unfold numberCmp numberEq
  rcases x.asI64 with _ | i <;> rcases y.asI64 with _ | j <;> simp

/-- The loop over two arrays finds no difference and no null iff the items are equal. -/
theorem cypherEqItems_eq_true {hasNull : Bool} (hlen : as.length = bs.length) :
    cypherEqItems as bs hasNull = some true ↔
      hasNull = false ∧ List.Forall₂ (fun a b => cypherEq a b = some true) as bs := by
  induction as generalizing bs hasNull with
  | nil =>
    cases bs with
    | nil => cases hasNull <;> simp [cypherEqItems, noDifference]
    | cons b bs => cases hlen
  | cons a as ih =>
    cases bs with
    | nil => cases hlen
    | cons b bs =>
      have hlen' : as.length = bs.length := Nat.succ.inj hlen
      rw [cypherEqItems, List.forall₂_cons]
      rcases cypherEq a b with _ | _ | _
      · simp [ih hlen']
      · simp
      · simp [ih hlen']

lemma isNan_array (as : List Json) : isNan (.array as) = false := rfl

lemma cypherEq_arrays (as bs : List Json) :
    cypherEq (.array as) (.array bs) =
      if as.length ≠ bs.length then some false else cypherEqItems as bs false := by
  unfold cypherEq
  rw [if_neg (by simp), if_neg (by simp [isNan_array])]

lemma cypherEq_arrays_iff :
    cypherEq (.array as) (.array bs) = some true ↔
      List.Forall₂ (fun a b => cypherEq a b = some true) as bs := by
  rw [cypherEq_arrays]
  split
  next hlen =>
    simp only [some.injEq, Bool.false_eq_true, false_iff]
    exact fun h => hlen h.length_eq
  next hlen => simp [cypherEqItems_eq_true (not_not.mp hlen)]

lemma cypherEq_numbers (x y : Number) :
    cypherEq (.number x) (.number y) = some (numberEq x y) := by
  unfold cypherEq
  rw [if_neg (by simp), if_neg (by simp [isNan])]

/-- Equality of two objects neither of which is NaN. -/
theorem cypherEq_objects (ha : isNan (.object a) = false) (hb : isNan (.object b) = false) :
    cypherEq (.object a) (.object b) =
      if (getField "__type__" a).isSome ∨ (getField "__type__" b).isSome then some (taggedEq a b)
      else if a.length ≠ b.length ∨ a.any (fun f => (getField f.1 b).isNone) then some false
      else cypherEqFields a b false := by
  unfold cypherEq
  rw [if_neg (by simp), if_neg (by simp [ha, hb])]

lemma objectOrder_of_untagged (h : typeTag a = none) :
    objectOrder a b = .eq := by
  unfold objectOrder objectCmp
  rw [h]
  rfl

/-- Values that `cypherEq` compares by `==`. -/
theorem cypherEq_of_kinds {a b : Json} (harray : ∀ as bs, a = .array as → b ≠ .array bs)
    (hobject : ∀ m m', a = .object m → b ≠ .object m')
    (hnumber : ∀ x y, a = .number x → b ≠ .number y) (h : cypherEq a b = some true) :
    a.eqv b = true := by
  unfold cypherEq at h
  split at h
  · cases h
  split at h
  · cases h
  split at h
  next => exact absurd rfl (harray _ _ rfl)
  next => exact absurd rfl (hobject _ _ rfl)
  next => exact absurd rfl (hnumber _ _ rfl)
  next => exact some.inj h

lemma isNan_of_cypherEq {a b : Json} (h : cypherEq a b = some true) :
    isNan a = false ∧ isNan b = false := by
  unfold cypherEq at h
  split at h
  · cases h
  split at h
  · cases h
  next hnot => simpa using hnot

/-- Equal objects tie: temporal values by their sort keys, and maps always do. -/
theorem jsonCmpTotal_of_cypherEq_object {m m' : List (String × Json)} (hm : Genuine (.object m))
    (h : cypherEq (.object m) (.object m') = some true) :
    jsonCmpTotal (.object m) (.object m') = .eq := by
  obtain ⟨hnan, hnan'⟩ := isNan_of_cypherEq h
  rw [cypherEq_objects hnan hnan'] at h
  split at h
  next =>
    have htagged : taggedEq m m' = true := some.inj h
    unfold taggedEq at htagged
    split at htagged
    next htag =>
      split at htagged
      next k l hk hl =>
        obtain rfl := of_decide_eq_true htagged
        rcases ht : typeTag m with _ | t
        · rw [jsonCmpTotal_object (by rw [htag])]
          exact objectOrder_of_untagged ht
        · apply jsonCmpTotal_of_objectCmp hm
          exact objectCmp_eq_some.mpr ⟨t, k, k, ht, htag.symm.trans ht, hk, hl,
            Std.ReflOrd.compare_self⟩
      next => exact jsonCmpTotal_of_eqv htagged
    next => exact jsonCmpTotal_of_eqv htagged
  next hnone =>
    have huntagged : ∀ {fields : List (String × Json)},
        ¬ (getField "__type__" fields).isSome → typeTag fields = none := by
      intro fields hf
      unfold typeTag
      rw [not_isSome_iff_eq_none.mp hf]
      rfl
    rw [not_or] at hnone
    rw [jsonCmpTotal_object (by rw [huntagged hnone.1, huntagged hnone.2])]
    exact objectOrder_of_untagged (huntagged hnone.1)

/-- **Equal values tie.** -/
theorem jsonCmpTotal_of_cypherEq (hT : Closed T) (hgenuine : ∀ v ∈ T, Genuine v) {a b : Json}
    (ha : a ∈ T) (hb : b ∈ T) (h : cypherEq a b = some true) : jsonCmpTotal a b = .eq := by
  induction hn : sizeOf a using Nat.strong_induction_on generalizing a b with
  | _ n ih =>
    subst hn
    by_cases harray : ∃ as bs, a = .array as ∧ b = .array bs
    · obtain ⟨as, bs, rfl, rfl⟩ := harray
      rw [jsonCmpTotal_array]
      apply compareLex_eq_of_forall₂
      -- The items are smaller, and within reach.
      have hitems : ∀ v ∈ as, ∀ w ∈ bs, cypherEq v w = some true → jsonCmpTotal v w = .eq :=
        fun v hv w hw hvw =>
          ih _ (sizeOf_item hv) (hT.item as v ha hv) (hT.item bs w hb hw) hvw rfl
      exact forall₂_imp_mem (cypherEq_arrays_iff.mp h) hitems
    by_cases hnumber : ∃ x y, a = .number x ∧ b = .number y
    · obtain ⟨x, y, rfl, rfl⟩ := hnumber
      rw [cypherEq_numbers, some.injEq] at h
      exact numberCmp_eq_iff.mpr h
    by_cases hobject : ∃ m m', a = .object m ∧ b = .object m'
    · obtain ⟨m, m', rfl, rfl⟩ := hobject
      exact jsonCmpTotal_of_cypherEq_object (hgenuine _ ha) h
    · apply jsonCmpTotal_of_eqv
      refine cypherEq_of_kinds ?_ ?_ ?_ h
      · exact fun as bs has hbs => harray ⟨as, bs, has, hbs⟩
      · exact fun m m' hm hm' => hobject ⟨m, m', hm, hm'⟩
      · exact fun x y hx hy => hnumber ⟨x, y, hx, hy⟩

/-- Tagged objects with equal sort keys are equal. -/
theorem cypherEq_of_objectCmp {m m' : List (String × Json)} (hm : Genuine (.object m))
    (h : objectCmp m m' = some .eq) : cypherEq (.object m) (.object m') = some true := by
  have hrank := tagRank_of_objectCmp hm h
  obtain ⟨t, k, l, htm, htm', hk, hl, hkl⟩ := objectCmp_eq_some.mp h
  obtain rfl : k = l := Std.LawfulEqOrd.compare_eq_iff_eq.mp hkl
  have hnan : ∀ fields : List (String × Json), typeTag fields = typeTag m →
      isNan (.object fields) = false := by
    intro fields htag
    rw [Bool.eq_false_iff, Ne, isNan_object, htag]
    intro hnan
    rw [hnan] at hrank
    exact absurd hrank (by decide)
  have htagged : (getField "__type__" m).isSome := by
    unfold typeTag at htm
    rcases hf : getField "__type__" m with _ | v
    · rw [hf] at htm
      cases htm
    · rfl
  rw [cypherEq_objects (hnan m rfl) (hnan m' (htm'.trans htm.symm)), if_pos (.inl htagged)]
  unfold taggedEq
  rw [if_pos (htm.trans htm'.symm), hk, hl]
  simp

/-- Lists that the loop of `jsonCmp` finds equal have equal items, where this is so of the items. -/
theorem forall₂_of_jsonCmpItems
    (hitems : ∀ v ∈ as, ∀ w ∈ bs, jsonCmp v w = some .eq → cypherEq v w = some true)
    (h : jsonCmpItems as bs = some .eq) :
    List.Forall₂ (fun a b => cypherEq a b = some true) as bs := by
  induction as generalizing bs with
  | nil =>
    cases bs with
    | nil => exact .nil
    | cons b bs => simp [jsonCmpItems] at h
  | cons a as ih =>
    cases bs with
    | nil => simp [jsonCmpItems] at h
    | cons b bs =>
      rw [jsonCmpItems] at h
      split at h
      next hab =>
        refine .cons hab (ih (fun v hv w hw => ?_) h)
        exact hitems v (mem_cons_of_mem _ hv) w (mem_cons_of_mem _ hw)
      next => cases h
      next hab =>
        rw [hitems a mem_cons_self b mem_cons_self h] at hab
        cases hab

/-- Values that `jsonCmp` finds equal are equal. -/
theorem cypherEq_of_jsonCmp (hT : Closed T) (hgenuine : ∀ v ∈ T, Genuine v) {a b : Json}
    (ha : a ∈ T) (hb : b ∈ T) (h : jsonCmp a b = some .eq) : cypherEq a b = some true := by
  induction hn : sizeOf a using Nat.strong_induction_on generalizing a b with
  | _ n ih =>
    subst hn
    unfold jsonCmp at h
    split at h
    next x y =>
      rw [cypherEq_numbers]
      exact congrArg some (numberCmp_eq_iff.mp (some.inj h))
    next s t =>
      obtain rfl : s = t := Std.LawfulEqOrd.compare_eq_iff_eq.mp (some.inj h)
      simp [cypherEq, isNan, Json.eqv]
    next x y =>
      obtain rfl : x = y := Std.LawfulEqOrd.compare_eq_iff_eq.mp (some.inj h)
      simp [cypherEq, isNan, Json.eqv]
    next as bs =>
      rw [cypherEq_arrays_iff]
      refine forall₂_of_jsonCmpItems (fun v hv w hw hvw => ?_) h
      exact ih _ (sizeOf_item hv) (hT.item as v ha hv) (hT.item bs w hb hw) hvw rfl
    next m m' => exact cypherEq_of_objectCmp (hgenuine _ ha) h
    next => cases h

lemma compareLex_of_jsonCmpItems
    (hequal : ∀ v ∈ as, ∀ w ∈ bs, cypherEq v w = some true → jsonCmpTotal v w = .eq)
    (hdiffer : ∀ v ∈ as, ∀ w ∈ bs, cypherEq v w ≠ some true → ∀ o, jsonCmp v w = some o →
        jsonCmpTotal v w = o ∧ o ≠ .eq)
    (h : jsonCmpItems as bs = some o) : List.compareLex jsonCmpTotal as bs = o := by
  induction as generalizing bs with
  | nil => cases bs <;> exact some.inj h
  | cons a as ih =>
    cases bs with
    | nil => exact some.inj h
    | cons b bs =>
      rw [jsonCmpItems] at h
      rw [List.compareLex_cons_cons]
      split at h
      next hab =>
        rw [hequal a mem_cons_self b mem_cons_self hab]
        refine ih (fun v hv w hw => ?_) (fun v hv w hw => ?_) h
        · exact hequal v (mem_cons_of_mem _ hv) w (mem_cons_of_mem _ hw)
        · exact hdiffer v (mem_cons_of_mem _ hv) w (mem_cons_of_mem _ hw)
      next => cases h
      next hab =>
        obtain ⟨htotal, hne⟩ := hdiffer a mem_cons_self b mem_cons_self
          (by rw [hab]; decide) o h
        rw [htotal]
        cases o with
        | eq => exact absurd rfl hne
        | lt => rfl
        | gt => rfl

/-- **Where `jsonCmp` orders two values, the total order does so too.** -/
theorem jsonCmpTotal_of_jsonCmp (hT : Closed T) (hgenuine : ∀ v ∈ T, Genuine v) {a b : Json}
    (ha : a ∈ T) (hb : b ∈ T) (h : jsonCmp a b = some o) : jsonCmpTotal a b = o := by
  induction hn : sizeOf a using Nat.strong_induction_on generalizing a b o with
  | _ n ih =>
    subst hn
    unfold jsonCmp at h
    split at h
    next x y => exact some.inj h
    next s t => exact some.inj h
    next x y => exact some.inj h
    next as bs =>
      rw [jsonCmpTotal_array]
      refine compareLex_of_jsonCmpItems (fun v hv w hw => ?_) (fun v hv w hw hne o ho => ⟨?_, ?_⟩) h
      · exact jsonCmpTotal_of_cypherEq hT hgenuine (hT.item as v ha hv) (hT.item bs w hb hw)
      · exact ih _ (sizeOf_item hv) (hT.item as v ha hv) (hT.item bs w hb hw) ho rfl
      · rintro rfl
        exact hne (cypherEq_of_jsonCmp hT hgenuine (hT.item as v ha hv) (hT.item bs w hb hw) ho)
    next m m' => exact jsonCmpTotal_of_objectCmp (hgenuine _ ha) h
    next => cases h

/-! ### The condition is needed -/

lemma numbers_of_laws (h : OrderLaws T) (x y z : Number) (hx : .number x ∈ T)
    (hy : .number y ∈ T) (hz : .number z ∈ T) {i j : ℤ} (hi : x.asI64 = some i)
    (hj : y.asI64 = some j) (hk : z.asI64 = none) (hxz : x.asF64.scaled = z.asF64.scaled)
    (hyz : y.asF64.scaled = z.asF64.scaled) : i = j := by
  have htie : ∀ {w v : Number}, (w.asI64 = none ∨ v.asI64 = none) →
      w.asF64.scaled = v.asF64.scaled → jsonCmpTotal (.number w) (.number v) = .eq := by
    intro w v hnone hscaled
    rw [jsonCmpTotal_number]
    unfold numberCmp
    rcases hnone with hnone | hnone
    · rw [hnone, hscaled]
      exact Std.ReflOrd.compare_self
    · rw [hnone, hscaled]
      cases w.asI64 <;> exact Std.ReflOrd.compare_self
  have hle : (jsonCmpTotal (.number x) (.number y)).isLE := by
    apply h.trans _ hx _ hz _ hy
    · rw [htie (.inr hk) hxz]
      rfl
    · rw [htie (.inl hk) hyz.symm]
      rfl
  have hge : (jsonCmpTotal (.number y) (.number x)).isLE := by
    apply h.trans _ hy _ hz _ hx
    · rw [htie (.inr hk) hyz]
      rfl
    · rw [htie (.inl hk) hxz.symm]
      rfl
  rw [jsonCmpTotal_number] at hle hge
  unfold numberCmp at hle hge
  rw [hi, hj] at hle hge
  exact le_antisymm (Std.isLE_compare.mp hle) (Std.isLE_compare.mp hge)

/-- Objects of the rank of temporal values are compared by their sort keys. -/
theorem jsonCmpTotal_temporal (ha : tagRank (typeTag a) = 5) (hb : tagRank (typeTag b) = 5) :
    jsonCmpTotal (.object a) (.object b) = (objectCmp a b).getD .eq := by
  rw [jsonCmpTotal_object (ha.trans hb.symm)]
  unfold objectOrder
  rw [if_neg, if_neg (by omega), if_neg (by omega)]
  intro htag
  rw [htag] at ha
  exact absurd ha (by decide)

lemma tagged_of_laws (h : OrderLaws T) {u v w : List (String × Json)} (hu : .object u ∈ T)
    (hv : .object v ∈ T) (hw : .object w ∈ T) (hru : tagRank (typeTag u) = 5)
    (hrw : tagRank (typeTag w) = 5) (huv : typeTag u = typeTag v) {k l : String}
    (hk : sortKey u = some k) (hl : sortKey v = some l) (hkl : k ≠ l) :
    typeTag w = typeTag u ∧ (sortKey w).isSome := by
  by_contra hnot
  have hrv : tagRank (typeTag v) = 5 := huv ▸ hru
  -- The third ties with both.
  have hnone : ∀ {m : List (String × Json)}, typeTag m = typeTag u → objectCmp m w = none ∧
      objectCmp w m = none := by
    intro m hm
    constructor <;> rw [eq_none_iff_forall_ne_some] <;> intro o ho
    · obtain ⟨t, -, l', htm, htw, -, hl', -⟩ := objectCmp_eq_some.mp ho
      exact hnot ⟨by rw [htw, ← htm, hm], by rw [hl']; rfl⟩
    · obtain ⟨t, k', -, htw, htm, hk', -, -⟩ := objectCmp_eq_some.mp ho
      exact hnot ⟨by rw [htw, ← htm, hm], by rw [hk']; rfl⟩
  have hle : (jsonCmpTotal (.object u) (.object v)).isLE := by
    apply h.trans _ hu _ hw _ hv
    · rw [jsonCmpTotal_temporal hru hrw, (hnone rfl).1]
      rfl
    · rw [jsonCmpTotal_temporal hrw hrv, (hnone huv.symm).2]
      rfl
  have hge : (jsonCmpTotal (.object v) (.object u)).isLE := by
    apply h.trans _ hv _ hw _ hu
    · rw [jsonCmpTotal_temporal hrv hrw, (hnone huv.symm).1]
      rfl
    · rw [jsonCmpTotal_temporal hrw hru, (hnone rfl).2]
      rfl
  obtain ⟨t, ht⟩ : ∃ t, typeTag u = some t := by
    rcases ht : typeTag u with _ | t
    · rw [ht] at hru
      exact absurd hru (by decide)
    · exact ⟨t, rfl⟩
  have hcmp : objectCmp u v = some (compare k l) :=
    objectCmp_eq_some.mpr ⟨t, k, l, ht, huv.symm.trans ht, hk, hl, rfl⟩
  have hcmp' : objectCmp v u = some (compare l k) :=
    objectCmp_eq_some.mpr ⟨t, l, k, huv.symm.trans ht, ht, hl, hk, rfl⟩
  rw [jsonCmpTotal_temporal hru hrv, hcmp] at hle
  rw [jsonCmpTotal_temporal hrv hru, hcmp', Std.OrientedOrd.eq_swap (a := l)] at hge
  apply hkl
  apply Std.LawfulEqOrd.compare_eq_iff_eq.mp
  show compare k l = .eq
  change (compare k l).isLE at hle
  change (compare k l).swap.isLE at hge
  cases hc : compare k l with
  | eq => rfl
  | lt => rw [hc] at hge; cases hge
  | gt => rw [hc] at hle; cases hle

end Laws

end IssunDB.Cypher
