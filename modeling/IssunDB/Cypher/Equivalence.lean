import IssunDB.Cypher.Keys
import IssunDB.Cypher.Ordering

/-!
# Equality place by place

* `numberForm_eq_iff` — when two numbers have one key;
* `cypherEq_iff_agree` — two values are equal iff they have the same shape and are equal in every
  place;
* `Entities.bindingValue` — the value that a bound node or relationship has.
-/

namespace IssunDB.Cypher

open List Option

/-! ## Numbers -/

/-- The value of a number that is stored as an integer. -/
def intOf : Number → Option ℤ
  | .posInt n _ => some n
  | .negInt i _ => some i
  | .float _ => none

/-- The same integer, two doubles, or an integer below `2 ^ 63` and the double of that value; the
double `2 ^ 63` is taken for `2 ^ 63 - 1`. -/
def SameNumber (x y : Number) : Prop :=
  match intOf x, intOf y with
  | some i, some j => i = j
  | some i, none | none, some i => i < 2 ^ 63 ∧ (x.scaled = y.scaled ∨ i = 2 ^ 63 - 1)
  | none, none => True

def NumbersAgree (x y : Number) : Prop := numberEq x y = true → SameNumber x y

section Numbers

lemma natAbs_mul_two_pow (i : ℤ) (k : ℕ) : (i * 2 ^ k).natAbs = i.natAbs * 2 ^ k := by
  rw [Int.natAbs_mul, Int.natAbs_pow]
  rfl

/-- No double is `2 ^ 63 - 1`. -/
theorem scaled_ne_maxI64 (f : F64) : f.scaled ≠ (2 ^ 63 - 1) * 2 ^ 1074 := by
  intro h
  have hn : 2 ^ 63 - 1 < 2 ^ 64 := by decide
  have habs : f.scaledAbs = (2 ^ 63 - 1) * 2 ^ 1074 := by
    have hmax : ((2 ^ 63 - 1 : ℤ)).natAbs = 2 ^ 63 - 1 := by decide
    rw [← F64.natAbs_scaled, h, natAbs_mul_two_pow, hmax]
  have hexact := F64.scaled_ofNat_of_representable hn habs
  rw [F64.scaled_ofNat] at hexact
  have hround : F64.roundedNat (2 ^ 63 - 1) = 2 ^ 63 := by decide +kernel
  rw [hround] at hexact
  have hcancel := mul_right_cancel₀ (by positivity) hexact
  omega

variable {i : ℤ} {x : Number}

/-- The key of a double that shows an integer. -/
theorem numberForm_float_eq_int {f : F64} :
    numberForm (.float f) = .int i ↔
      (-2 ^ 63 ≤ i ∧ i < 2 ^ 63 ∧ f.scaled = i * 2 ^ 1074) ∨
        (i = 2 ^ 63 - 1 ∧ f.scaled = 2 ^ 63 * 2 ^ 1074) := by
  have hpos : (0 : ℤ) < 2 ^ 1074 := by positivity
  have hform : numberForm (.float f) =
      if f.scaled = 0 then .int 0 else if inI64Range f then .int (saturatingI64 f)
      else .float f := rfl
  rw [hform]
  split_ifs with hzero hrange
  · rw [hzero, KeyForm.int.injEq]
    constructor
    · rintro rfl
      exact .inl ⟨by omega, by omega, (zero_mul _).symm⟩
    · rintro (⟨-, -, h⟩ | ⟨-, h⟩)
      · exact ((mul_eq_zero.mp h.symm).resolve_right hpos.ne').symm
      · exact absurd h (mul_pos (by decide) hpos).ne
  · -- A nonzero integral double in the range of a signed integer, `2 ^ 63` included.
    unfold inI64Range F64.isIntegral at hrange
    simp only [Bool.and_eq_true, decide_eq_true_eq] at hrange
    obtain ⟨⟨hint, hlow⟩, hhigh⟩ := hrange
    obtain ⟨k, hk⟩ := Int.dvd_of_emod_eq_zero hint
    rw [mul_comm] at hk
    rw [hk] at hlow hhigh ⊢
    rw [mul_le_mul_iff_left₀ hpos] at hlow hhigh
    have htrunc : f.truncate = k := by rw [F64.truncate, hk, Int.mul_tdiv_cancel _ hpos.ne']
    have hcancel : ∀ j : ℤ, k * 2 ^ 1074 = j * 2 ^ 1074 ↔ k = j :=
      fun j => mul_left_inj' hpos.ne'
    have hne := scaled_ne_maxI64 f
    rw [hk, Ne, hcancel] at hne
    rw [hcancel, hcancel, KeyForm.int.injEq, saturatingI64, htrunc]
    omega
  · simp only [false_iff, not_or, not_and]
    unfold inI64Range F64.isIntegral at hrange
    simp only [Bool.and_eq_true, decide_eq_true_eq, not_and] at hrange
    have hmod : ∀ k : ℤ, f.scaled = k * 2 ^ 1074 → f.scaled % 2 ^ 1074 = 0 := by
      intro k hk
      rw [hk]
      exact Int.mul_emod_left _ _
    constructor
    · intro hlow hhigh hk
      apply hrange ⟨hmod i hk, _⟩
      · rw [hk]
        exact mul_le_mul_of_nonneg_right (by omega) hpos.le
      · rw [hk]
        exact mul_le_mul_of_nonneg_right (by omega) hpos.le
    · rintro - hk
      apply hrange ⟨hmod _ hk, _⟩
      · rw [hk]
      · rw [hk]
        exact mul_le_mul_of_nonneg_right (by omega) hpos.le

/-- An integer that a double has is converted to that double. -/
theorem scaled_asF64_of_exact (hx : intOf x = some i) {f : F64} (hf : f.scaled = i * 2 ^ 1074) :
    x.asF64.scaled = i * 2 ^ 1074 := by
  have habs : f.scaledAbs = i.natAbs * 2 ^ 1074 := by
    rw [← F64.natAbs_scaled, hf, natAbs_mul_two_pow]
  cases x with
  | posInt n hn =>
    obtain rfl : (n : ℤ) = i := some.inj hx
    exact F64.scaled_ofNat_of_representable hn habs
  | negInt j hj =>
    obtain rfl : j = i := some.inj hx
    have hexact := F64.scaled_ofNat_of_representable (show j.natAbs < 2 ^ 64 by omega) habs
    show (F64.ofInt j _).scaled = _
    rw [F64.ofInt, if_pos hj.2, F64.scaled_neg, hexact, ← neg_mul]
    congr 1
    omega
  | float f => cases hx

lemma scaled_asF64_max (hx : intOf x = some (2 ^ 63 - 1)) :
    x.asF64.scaled = 2 ^ 63 * 2 ^ 1074 := by
  cases x with
  | posInt n hn =>
    obtain rfl : n = 2 ^ 63 - 1 := by
      have : (n : ℤ) = 2 ^ 63 - 1 := some.inj hx
      omega
    have hround : F64.roundedNat (2 ^ 63 - 1) = 2 ^ 63 := by decide +kernel
    show (F64.ofNat (2 ^ 63 - 1) hn).scaled = _
    rw [F64.scaled_ofNat, hround]
    rfl
  | negInt j hj =>
    have : j = 2 ^ 63 - 1 := some.inj hx
    omega
  | float f => cases hx

lemma numberForm_of_intOf (hx : intOf x = some i) :
    numberForm x = .int i := by
  cases x with
  | float f => cases hx
  | _ =>
    obtain rfl := some.inj hx
    rfl

lemma scaled_of_intOf (hx : intOf x = some i) : x.scaled = i * 2 ^ 1074 := by
  cases x with
  | float f => cases hx
  | _ =>
    obtain rfl := some.inj hx
    rfl

/-- An integer and a double have one key iff they are equal and the same number. -/
theorem numberForm_mixed (hx : intOf x = some i) (f : F64) :
    numberForm (.float f) = .int i ↔
      x.asF64.scaled = f.scaled ∧ i < 2 ^ 63 ∧ (x.scaled = f.scaled ∨ i = 2 ^ 63 - 1) := by
  have hlow : -2 ^ 63 ≤ i := by
    cases x with
    | posInt n hn =>
      have : (n : ℤ) = i := some.inj hx
      omega
    | negInt j hj =>
      have : j = i := some.inj hx
      omega
    | float f => cases hx
  rw [numberForm_float_eq_int, scaled_of_intOf hx]
  constructor
  · rintro (⟨-, hhigh, hf⟩ | ⟨rfl, hf⟩)
    · exact ⟨(scaled_asF64_of_exact hx hf).trans hf.symm, hhigh, .inl hf.symm⟩
    · exact ⟨(scaled_asF64_max hx).trans hf.symm, by omega, .inr rfl⟩
  · rintro ⟨htie, hhigh, hf | rfl⟩
    · exact .inl ⟨hlow, hhigh, hf.symm⟩
    · exact .inr ⟨rfl, htie.symm.trans (scaled_asF64_max hx)⟩

/-- Two doubles have one key iff they are equal. -/
theorem numberForm_floats {f g : F64} :
    numberForm (.float f) = numberForm (.float g) ↔ f.scaled = g.scaled := by
  have hform : ∀ f : F64, numberForm (.float f) = .float f ∨
      ∃ i, numberForm (.float f) = .int i := by
    intro f
    unfold numberForm
    dsimp only
    split_ifs
    · exact .inr ⟨_, rfl⟩
    · exact .inr ⟨_, rfl⟩
    · exact .inl rfl
  constructor
  · intro h
    rcases hform f with hf | ⟨i, hf⟩
    · rcases hform g with hg | ⟨j, hg⟩
      · rw [hf, hg, KeyForm.float.injEq] at h
        rw [h]
      · rw [hf, hg] at h
        cases h
    · have hg : numberForm (.float g) = .int i := h.symm.trans hf
      rcases Iff.mp numberForm_float_eq_int hf with ⟨-, -, hf'⟩ | ⟨rfl, hf'⟩ <;>
        rcases Iff.mp numberForm_float_eq_int hg with ⟨-, -, hg'⟩ | ⟨hi, hg'⟩
      · rw [hf', hg']
      · rw [hi] at hf'
        exact absurd hf' (scaled_ne_maxI64 f)
      · exact absurd hg' (scaled_ne_maxI64 g)
      · rw [hf', hg']
  · intro h
    by_cases hzero : f.scaled = 0
    · have hzero' : g.scaled = 0 := h.symm.trans hzero
      unfold numberForm
      dsimp only
      rw [if_pos hzero, if_pos hzero']
    · rw [F64.eq_of_scaled_eq h hzero]

/-- **Keys of numbers.** -/
theorem numberForm_eq_iff {x y : Number} :
    numberForm x = numberForm y ↔ numberEq x y = true ∧ SameNumber x y := by
  have hmixed : ∀ {x : Number} {i : ℤ} {f : F64}, intOf x = some i →
      numberEq x (.float f) = decide (x.asF64.scaled = f.scaled) ∧
        numberEq (.float f) x = decide (f.scaled = x.asF64.scaled) := by
    intro x i f hx
    unfold numberEq
    constructor
    · cases x.asI64 <;> rfl
    · rfl
  cases hx : intOf x with
  | some i =>
    cases hy : intOf y with
    | some j =>
      rw [numberForm_of_intOf hx, numberForm_of_intOf hy, KeyForm.int.injEq, SameNumber, hx, hy]
      refine ⟨?_, And.right⟩
      rintro rfl
      have hxy : x = y := by
        cases x <;> cases y <;> simp_all [intOf] <;> omega
      subst hxy
      exact ⟨numberCmp_eq_iff.mp (numberCmp_self x), rfl⟩
    | none =>
      obtain ⟨g, rfl⟩ : ∃ g, y = .float g := by
        cases y with
        | float g => exact ⟨g, rfl⟩
        | _ => cases hy
      rw [numberForm_of_intOf hx, eq_comm, numberForm_mixed hx, (hmixed hx).1, decide_eq_true_iff,
        SameNumber, hx, hy]
      rfl
  | none =>
    obtain ⟨f, rfl⟩ : ∃ f, x = .float f := by
      cases x with
      | float f => exact ⟨f, rfl⟩
      | _ => cases hx
    cases hy : intOf y with
    | some j =>
      rw [numberForm_of_intOf hy, numberForm_mixed hy, (hmixed hy).2, decide_eq_true_iff,
        SameNumber, hx, hy, eq_comm (a := y.asF64.scaled), eq_comm (a := y.scaled)]
      rfl
    | none =>
      obtain ⟨g, rfl⟩ : ∃ g, y = .float g := by
        cases y with
        | float g => exact ⟨g, rfl⟩
        | _ => cases hy
      have hfloats : numberEq (.float f) (.float g) = decide (f.scaled = g.scaled) := rfl
      rw [numberForm_floats, hfloats, decide_eq_true_iff, SameNumber, hx, hy]
      exact (and_iff_left trivial).symm

end Numbers

/-! ## Agreement place by place -/

/-- An object without a tag. -/
def untagged (m : List (String × Json)) : Bool := (getField "__type__" m).isNone

/-- Equality of two values that are not both lists, and not both maps. -/
def leafEq (v w : Json) : Bool :=
  if v = .null ∨ w = .null ∨ isNan v ∨ isNan w then false
  else
    match v, w with
    | .number x, .number y => numberEq x y
    | .object m, .object m' => taggedEq m m'
    | v, w => v.eqv w

mutual

/-- The values have the same shape, and are equal in every place. -/
def agree (v w : Json) : Bool :=
  match v, w with
  | .array as, .array bs => agreeItems as bs
  | .object m, .object m' =>
    if untagged m && untagged m' then agreeFields m m' else leafEq (.object m) (.object m')
  | v, w => leafEq v w

def agreeItems : List Json → List Json → Bool
  | [], [] => true
  | a :: as, b :: bs => agree a b && agreeItems as bs
  | _, _ => false

def agreeFields : List (String × Json) → List (String × Json) → Bool
  | [], [] => true
  | (k, a) :: as, (l, b) :: bs => decide (k = l) && agree a b && agreeFields as bs
  | _, _ => false

end

section Agree

lemma agreeItems_iff {as bs : List Json} :
    agreeItems as bs = true ↔ List.Forall₂ (fun a b => agree a b = true) as bs := by
  induction as generalizing bs with
  | nil =>
    cases bs with
    | nil => exact ⟨fun _ => .nil, fun _ => by unfold agreeItems; rfl⟩
    | cons b bs => simp [agreeItems]
  | cons a as ih =>
    cases bs with
    | nil => simp [agreeItems]
    | cons b bs => rw [agreeItems, Bool.and_eq_true_iff, List.forall₂_cons, ih]

lemma agreeFields_iff {as bs : List (String × Json)} :
    agreeFields as bs = true ↔
      List.Forall₂ (fun f g => f.1 = g.1 ∧ agree f.2 g.2 = true) as bs := by
  induction as generalizing bs with
  | nil =>
    cases bs with
    | nil => exact ⟨fun _ => .nil, fun _ => by unfold agreeFields; rfl⟩
    | cons b bs => simp [agreeFields]
  | cons a as ih =>
    cases bs with
    | nil => simp [agreeFields]
    | cons b bs =>
      rw [agreeFields, Bool.and_eq_true_iff, Bool.and_eq_true_iff, decide_eq_true_iff,
        List.forall₂_cons, ih]

lemma wellFormed_item {items : List Json} (h : (Json.array items).wellFormed = true) {v : Json}
    (hv : v ∈ items) : v.wellFormed = true := by
  unfold Json.wellFormed at h
  induction items with
  | nil => cases hv
  | cons a items ih =>
    rw [Json.wellFormedItems, Bool.and_eq_true_iff] at h
    rcases mem_cons.mp hv with rfl | hv
    · exact h.1
    · exact ih hv h.2

variable {m : List (String × Json)}

lemma wellFormed_field (h : (Json.object m).wellFormed = true) {f : String × Json} (hf : f ∈ m) :
    f.2.wellFormed = true := by
  unfold Json.wellFormed at h
  replace h := (Bool.and_eq_true_iff.mp h).2
  induction m with
  | nil => cases hf
  | cons g m ih =>
    obtain ⟨k, a⟩ := g
    rw [Json.wellFormedFields, Bool.and_eq_true_iff] at h
    rcases mem_cons.mp hf with rfl | hf
    · exact h.1
    · exact ih hf h.2

/-- A key occurs once. -/
theorem mem_iff_getField (h : (Json.object m).wellFormed = true) {k : String} {v : Json} :
    (k, v) ∈ m ↔ getField k m = some v :=
  Props.mem_fields (p := ⟨.object m, h⟩)

/-- The loop over the fields of a map finds no difference and no null iff the values are equal. -/
theorem cypherEqFields_eq_true {m m' : List (String × Json)} {hasNull : Bool} :
    cypherEqFields m m' hasNull = some true ↔
      hasNull = false ∧ ∀ f ∈ m, cypherEq f.2 ((getField f.1 m').getD .null) = some true := by
  induction m generalizing hasNull with
  | nil => cases hasNull <;> simp [cypherEqFields, noDifference]
  | cons f m ih =>
    obtain ⟨k, v⟩ := f
    rw [cypherEqFields, forall_mem_cons]
    rcases cypherEq v ((getField k m').getD .null) with _ | _ | _
    · simp [ih]
    · simp
    · simp [ih]

/-- Maps of one size, the keys of one among those of the other, have the same keys in order. -/
theorem keys_eq {m m' : List (String × Json)} (hm : (Json.object m).wellFormed = true)
    (hm' : (Json.object m').wellFormed = true) (hlen : m.length = m'.length)
    (hkeys : ∀ f ∈ m, (getField f.1 m').isSome) : m.map Prod.fst = m'.map Prod.fst := by
  have hsorted : ∀ {m : List (String × Json)}, (Json.object m).wellFormed = true →
      (m.map Prod.fst).Pairwise (· < ·) := by
    intro m hm
    rw [pairwise_map]
    exact Json.fields_pairwise hm
  have hsub : m.map Prod.fst ⊆ m'.map Prod.fst := by
    intro k hk
    obtain ⟨f, hf, rfl⟩ := List.mem_map.mp hk
    obtain ⟨v, hv⟩ := isSome_iff_exists.mp (hkeys f hf)
    exact List.mem_map.mpr ⟨(f.1, v), (mem_iff_getField hm').mpr hv, rfl⟩
  have hnodup : (m.map Prod.fst).Nodup := (hsorted hm).imp fun h => h.ne
  have hperm := (hnodup.subperm hsub).perm_of_length_le (by simp [hlen])
  exact hperm.eq_of_pairwise (fun a b _ _ hab hba => absurd hba hab.asymm) (hsorted hm)
    (hsorted hm')

lemma untagged_iff :
    untagged m = true ↔ ¬ (getField "__type__" m).isSome = true := by
  unfold untagged
  cases getField "__type__" m <;> simp

lemma isNan_of_untagged (h : untagged m = true) :
    isNan (.object m) = false := by
  rw [Bool.eq_false_iff, Ne, isNan_object]
  unfold typeTag
  unfold untagged at h
  rw [isNone_iff_eq_none.mp h]
  exact fun hnone => by cases hnone

/-- Maps are equal iff their values are, key by key. -/
theorem cypherEq_maps {m m' : List (String × Json)} (hm : (Json.object m).wellFormed = true)
    (hm' : (Json.object m').wellFormed = true) (ht : untagged m = true) (ht' : untagged m' = true) :
    cypherEq (.object m) (.object m') = some true ↔
      List.Forall₂ (fun f g => f.1 = g.1 ∧ cypherEq f.2 g.2 = some true) m m' := by
  rw [cypherEq_objects (isNan_of_untagged ht) (isNan_of_untagged ht'),
    if_neg (by rw [not_or]; exact ⟨Iff.mp untagged_iff ht, Iff.mp untagged_iff ht'⟩)]
  have hlookup : ∀ f ∈ m, ∀ g ∈ m', f.1 = g.1 → (getField f.1 m').getD .null = g.2 := by
    intro f _ g hg hfg
    rw [hfg, (mem_iff_getField hm').mp hg]
    rfl
  split
  next hdiffer =>
    refine ⟨fun h => (by cases h), fun h => ?_⟩
    rcases hdiffer with hlen | hmissing
    · exact absurd h.length_eq hlen
    · obtain ⟨f, hf, hnone⟩ := List.any_eq_true.mp hmissing
      have hkeys : m.map Prod.fst = m'.map Prod.fst := by
        rw [← List.forall₂_eq_eq_eq, List.forall₂_map_left_iff, List.forall₂_map_right_iff]
        exact h.imp fun _ _ hfg => hfg.1
      have hmem : f.1 ∈ m'.map Prod.fst := hkeys ▸ List.mem_map_of_mem hf
      obtain ⟨g, hg, hgf⟩ := List.mem_map.mp hmem
      rw [← hgf, (mem_iff_getField hm').mp hg] at hnone
      cases hnone
  next hsame =>
    rw [not_or, not_not, Bool.not_eq_true, List.any_eq_false] at hsame
    obtain ⟨hlen, hpresent⟩ := hsame
    have hkeys := keys_eq hm hm' hlen fun f hf => by
      have := hpresent f hf
      rwa [Bool.not_eq_true, isNone_eq_false_iff] at this
    have hzip : List.Forall₂ (fun f g => f.1 = g.1) m m' := by
      rw [← List.forall₂_eq_eq_eq, List.forall₂_map_left_iff, List.forall₂_map_right_iff] at hkeys
      exact hkeys
    rw [cypherEqFields_eq_true]
    constructor
    · rintro ⟨-, heq⟩
      refine forall₂_imp_mem hzip fun f hf g hg hfg => ⟨hfg, ?_⟩
      rw [← hlookup f hf g hg hfg]
      exact heq f hf
    · intro h
      refine ⟨rfl, fun f hf => ?_⟩
      have hpair : ∃ g ∈ m', f.1 = g.1 ∧ cypherEq f.2 g.2 = some true := by
        obtain ⟨n, hn, rfl⟩ := mem_iff_getElem.mp hf
        have hn' : n < m'.length := hlen ▸ hn
        exact ⟨m'[n], getElem_mem hn', List.Forall₂.get h hn hn'⟩
      obtain ⟨g, hg, hfg, heq⟩ := hpair
      rw [hlookup f hf g hg hfg]
      exact heq

/-- Values that are not both lists, and not both maps. -/
theorem cypherEq_leaf {v w : Json} (harray : ∀ as bs, v = .array as → w ≠ .array bs)
    (hmaps : ∀ m m', v = .object m → w = .object m' → (untagged m && untagged m') = false) :
    cypherEq v w = some true ↔ leafEq v w = true := by
  unfold cypherEq leafEq
  by_cases hnull : v = .null ∨ w = .null
  · rw [if_pos hnull, if_pos (by tauto)]
    simp
  by_cases hnan : isNan v = true ∨ isNan w = true
  · rw [if_neg hnull, if_pos hnan, if_pos (by tauto)]
    simp
  · rw [if_neg hnull, if_neg hnan, if_neg (by tauto)]
    split
    next as bs => exact absurd rfl (harray as bs rfl)
    next m m' =>
      have htagged := hmaps m m' rfl rfl
      unfold untagged at htagged
      rw [if_pos]
      · simp
      · rw [Bool.and_eq_false_iff] at htagged
        simpa using htagged
    next x y => simp
    next => simp only [some.injEq]

lemma agree_of_leaf {v w : Json} (harray : ∀ as bs, v = .array as → w ≠ .array bs)
    (hmaps : ∀ m m', v = .object m → w = .object m' → (untagged m && untagged m') = false) :
    agree v w = leafEq v w := by
  unfold agree
  split
  next as bs => exact absurd rfl (harray as bs rfl)
  next m m' => rw [if_neg (by rw [hmaps m m' rfl rfl]; exact Bool.false_ne_true)]
  next => rfl

/-- **Equality is agreement place by place.** -/
theorem cypherEq_iff_agree {v w : Json} (hv : v.wellFormed = true) (hw : w.wellFormed = true) :
    cypherEq v w = some true ↔ agree v w = true := by
  induction hn : sizeOf v using Nat.strong_induction_on generalizing v w with
  | _ n ih =>
    subst hn
    by_cases harray : ∃ as bs, v = .array as ∧ w = .array bs
    · obtain ⟨as, bs, rfl, rfl⟩ := harray
      have hitems : ∀ a ∈ as, ∀ b ∈ bs, (cypherEq a b = some true ↔ agree a b = true) :=
        fun a ha b hb => ih _ (sizeOf_item ha) (wellFormed_item hv ha) (wellFormed_item hw hb) rfl
      rw [cypherEq_arrays_iff, agree, agreeItems_iff]
      exact ⟨fun h => forall₂_imp_mem h fun a ha b hb => (hitems a ha b hb).mp,
        fun h => forall₂_imp_mem h fun a ha b hb => (hitems a ha b hb).mpr⟩
    by_cases hmaps : ∃ m m', v = .object m ∧ w = .object m' ∧ (untagged m && untagged m') = true
    · obtain ⟨m, m', rfl, rfl, htags⟩ := hmaps
      have hfields : ∀ f ∈ m, ∀ g ∈ m', (cypherEq f.2 g.2 = some true ↔ agree f.2 g.2 = true) := by
        intro f hf g hg
        refine ih _ ?_ (wellFormed_field hv hf) (wellFormed_field hw hg) rfl
        have hlt := sizeOf_lt_of_mem hf
        have hpair : sizeOf f = 1 + sizeOf f.1 + sizeOf f.2 := rfl
        rw [Json.object.sizeOf_spec]
        omega
      obtain ⟨ht, ht'⟩ := Bool.and_eq_true_iff.mp htags
      rw [cypherEq_maps hv hw ht ht', agree, if_pos htags, agreeFields_iff]
      exact ⟨fun h => forall₂_imp_mem h fun f hf g hg hfg => hfg.imp_right (hfields f hf g hg).mp,
        fun h => forall₂_imp_mem h fun f hf g hg hfg => hfg.imp_right (hfields f hf g hg).mpr⟩
    · have hlists : ∀ as bs, v = .array as → w ≠ .array bs :=
        fun as bs has hbs => harray ⟨as, bs, has, hbs⟩
      have htagged : ∀ m m', v = .object m → w = .object m' → (untagged m && untagged m') = false :=
        fun m m' hm hm' => Bool.eq_false_iff.mpr fun htags => hmaps ⟨m, m', hm, hm', htags⟩
      rw [cypherEq_leaf hlists htagged, agree_of_leaf hlists htagged]

end Agree

/-! ## Values of bindings -/

/-- What is read of nodes and relationships: properties, and the ends of a relationship. -/
structure Entities where
  nodeProps : NodeId → Option Props
  edge : EdgeId → Option (NodeId × NodeId × Props)

/-- `(id as i64).into()`. -/
def idNumber (id : ℕ) : Number :=
  if h : id % 2 ^ 64 < 2 ^ 63 then .posInt (id % 2 ^ 64) (by omega)
  else .negInt ((id % 2 ^ 64 : ℕ) - 2 ^ 64) (by omega)

namespace Entities

variable (g : Entities)

/-- `get_node_representation`. -/
def nodeValue (id : NodeId) : Option Json :=
  (g.nodeProps id).map fun props => .object
    [("__type__", .string "__Node__"), ("id", .number (idNumber id)), ("properties", props.value)]

/-- `get_edge_representation`. -/
def edgeValue (id : EdgeId) : Option Json :=
  (g.edge id).map fun (src, dst, props) => .object
    [("__type__", .string "__Edge__"), ("endNode", .number (idNumber dst)),
      ("id", .number (idNumber id)), ("properties", props.value),
      ("startNode", .number (idNumber src))]

/-- The value a bound variable has in an expression. -/
def bindingValue : GraphBinding → Option Json
  | .node id => g.nodeValue id
  | .edge id => g.edgeValue id
  | .edgeList ids => (ids.mapM g.edgeValue).map .array
  | .scalar v => some v

end Entities

end IssunDB.Cypher
