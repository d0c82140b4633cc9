import IssunDB.Cypher.Equivalence
import IssunDB.Cypher.Sorting

/-!
# Swapping the arguments of a comparison

Equality does not depend on the order of its arguments, and both orders of values are reversed when
the arguments are: on every value, whether or not the order is transitive there.

* `cypherEq_comm`, `jsonCmp_swap`, `jsonCmpTotal_swap` — the three comparisons;
* `sortCmp_swap` — the order of sort keys.
-/

namespace IssunDB.Cypher

open List

/-! ## Equality -/

section Equality

lemma taggedEq_comm (a b : List (String × Json)) : taggedEq a b = taggedEq b a := by
  unfold taggedEq
  by_cases htag : typeTag a = typeTag b
  · rw [if_pos htag, if_pos htag.symm]
    rcases sortKey a with _ | k <;> rcases sortKey b with _ | l
    · exact Json.eqv_comm _ _
    · exact Json.eqv_comm _ _
    · exact Json.eqv_comm _ _
    · exact decide_eq_decide.mpr eq_comm
  · rw [if_neg htag, if_neg (Ne.symm htag)]
    exact Json.eqv_comm _ _

lemma numberEq_comm (x y : Number) : numberEq x y = numberEq y x := by
  unfold numberEq
  rcases x.asI64 with _ | i <;> rcases y.asI64 with _ | j <;> exact decide_eq_decide.mpr eq_comm

/-- The loop over the items gives the same answer the other way round. -/
theorem cypherEqItems_comm {as bs : List Json} {hasNull : Bool}
    (h : ∀ a ∈ as, ∀ b ∈ bs, cypherEq a b = cypherEq b a) :
    cypherEqItems as bs hasNull = cypherEqItems bs as hasNull := by
  induction as generalizing bs hasNull with
  | nil => cases bs <;> rfl
  | cons a as ih =>
    cases bs with
    | nil => rfl
    | cons b bs =>
      have hrest : ∀ n, cypherEqItems as bs n = cypherEqItems bs as n := fun n =>
        ih fun x hx y hy => h x (mem_cons_of_mem _ hx) y (mem_cons_of_mem _ hy)
      rw [cypherEqItems, cypherEqItems, h a mem_cons_self b mem_cons_self, hrest, hrest]

variable {m m' : List (String × Json)}

/-- The loop over the fields finds a difference iff some field differs. -/
theorem cypherEqFields_eq_false {hasNull : Bool} :
    cypherEqFields m m' hasNull = some false ↔
      ∃ f ∈ m, cypherEq f.2 ((getField f.1 m').getD .null) = some false := by
  induction m generalizing hasNull with
  | nil => cases hasNull <;> simp [cypherEqFields, noDifference]
  | cons f m ih =>
    obtain ⟨k, v⟩ := f
    rw [cypherEqFields]
    simp only [mem_cons, exists_eq_or_imp]
    rcases cypherEq v ((getField k m').getD .null) with _ | _ | _
    · simp [ih]
    · simp
    · simp [ih]

/-- What holds of the pairs of fields under one key holds the other way round. -/
theorem exists_field_comm (hm : (Json.object m).wellFormed = true)
    (hm' : (Json.object m').wellFormed = true) {P Q : Json → Json → Prop}
    (hkeys : ∀ f ∈ m, (getField f.1 m').isSome) (hPQ : ∀ f ∈ m, ∀ g ∈ m', P f.2 g.2 → Q g.2 f.2)
    (h : ∃ f ∈ m, P f.2 ((getField f.1 m').getD .null)) :
    ∃ g ∈ m', Q g.2 ((getField g.1 m).getD .null) := by
  obtain ⟨⟨k, v⟩, hf, hP⟩ := h
  obtain ⟨w, hw⟩ := Option.isSome_iff_exists.mp (hkeys _ hf)
  have hg : (k, w) ∈ m' := (mem_iff_getField hm').mpr hw
  rw [hw] at hP
  refine ⟨(k, w), hg, ?_⟩
  rw [(mem_iff_getField hm).mp hf]
  exact hPQ _ hf _ hg hP

lemma hasKeys_comm (hm : (Json.object m).wellFormed = true)
    (hm' : (Json.object m').wellFormed = true) (hlen : m.length = m'.length)
    (hkeys : ∀ f ∈ m, (getField f.1 m').isSome) : ∀ f ∈ m', (getField f.1 m).isSome := by
  intro f hf
  have hmem : f.1 ∈ m.map Prod.fst := by
    rw [keys_eq hm hm' hlen hkeys]
    exact mem_map_of_mem hf
  obtain ⟨g, hg, hkey⟩ := mem_map.mp hmem
  rw [← hkey, (mem_iff_getField hm).mp hg]
  rfl

/-- The loop over the fields gives the same answer the other way round. -/
theorem cypherEqFields_comm (hm : (Json.object m).wellFormed = true)
    (hm' : (Json.object m').wellFormed = true) (hlen : m.length = m'.length)
    (hkeys : ∀ f ∈ m, (getField f.1 m').isSome)
    (h : ∀ f ∈ m, ∀ g ∈ m', cypherEq f.2 g.2 = cypherEq g.2 f.2) :
    cypherEqFields m m' false = cypherEqFields m' m false := by
  have hkeys' := hasKeys_comm hm hm' hlen hkeys
  have hfalse : cypherEqFields m m' false = some false ↔
      cypherEqFields m' m false = some false := by
    rw [cypherEqFields_eq_false, cypherEqFields_eq_false]
    constructor
    · exact exists_field_comm (P := fun v w => cypherEq v w = some false)
        (Q := fun v w => cypherEq v w = some false) hm hm' hkeys
        fun f hf g hg hP => (h f hf g hg).symm.trans hP
    · exact exists_field_comm (P := fun v w => cypherEq v w = some false)
        (Q := fun v w => cypherEq v w = some false) hm' hm hkeys'
        fun f hf g hg hP => (h g hg f hf).trans hP
  have htrue : cypherEqFields m m' false = some true ↔ cypherEqFields m' m false = some true := by
    rw [← not_iff_not, cypherEqFields_eq_true, cypherEqFields_eq_true]
    simp only [true_and, not_forall, exists_prop]
    constructor
    · exact exists_field_comm (P := fun v w => ¬ cypherEq v w = some true)
        (Q := fun v w => ¬ cypherEq v w = some true) hm hm' hkeys
        fun f hf g hg hP heq => hP ((h f hf g hg).trans heq)
    · exact exists_field_comm (P := fun v w => ¬ cypherEq v w = some true)
        (Q := fun v w => ¬ cypherEq v w = some true) hm' hm hkeys'
        fun f hf g hg hP heq => hP ((h g hg f hf).symm.trans heq)
  generalize cypherEqFields m m' false = x at hfalse htrue ⊢
  generalize cypherEqFields m' m false = y at hfalse htrue ⊢
  revert x y
  decide

/-- Two values that are neither two lists nor two maps are compared at once. -/
theorem cypherEq_comm_of_kinds {a b : Json} (harray : ∀ as bs, a = .array as → b ≠ .array bs)
    (hobject : ∀ m m', a = .object m → b ≠ .object m') : cypherEq a b = cypherEq b a := by
  unfold cypherEq
  by_cases hnull : a = .null ∨ b = .null
  · rw [if_pos hnull, if_pos hnull.symm]
  · have hnull' : ¬(b = .null ∨ a = .null) := fun h => hnull h.symm
    rw [if_neg hnull, if_neg hnull']
    by_cases hnan : isNan a ∨ isNan b
    · rw [if_pos hnan, if_pos hnan.symm]
    · have hnan' : ¬(isNan b ∨ isNan a) := fun h => hnan h.symm
      rw [if_neg hnan, if_neg hnan']
      cases a <;> cases b <;>
        first
          | exact absurd rfl (harray _ _ rfl)
          | exact absurd rfl (hobject _ _ rfl)
          | exact congrArg some (numberEq_comm _ _)
          | exact congrArg some (Json.eqv_comm _ _)

lemma cypherEq_comm_maps (hm : (Json.object m).wellFormed = true)
    (hm' : (Json.object m').wellFormed = true)
    (h : ∀ f ∈ m, ∀ g ∈ m', cypherEq f.2 g.2 = cypherEq g.2 f.2) :
    cypherEq (.object m) (.object m') = cypherEq (.object m') (.object m) := by
  have hnull : ∀ m m' :
      List (String × Json), ¬(Json.object m = .null ∨ Json.object m' = .null) := by
    rintro m m' (heq | heq) <;> cases heq
  unfold cypherEq
  rw [if_neg (hnull m m'), if_neg (hnull m' m)]
  by_cases hnan : isNan (.object m) ∨ isNan (.object m')
  · rw [if_pos hnan, if_pos hnan.symm]
  · have hnan' : ¬(isNan (.object m') ∨ isNan (.object m)) := fun h => hnan h.symm
    rw [if_neg hnan, if_neg hnan']
    dsimp only
    by_cases htag : (getField "__type__" m).isSome ∨ (getField "__type__" m').isSome
    · rw [if_pos htag, if_pos htag.symm, taggedEq_comm]
    · have htag' : ¬((getField "__type__" m').isSome ∨ (getField "__type__" m).isSome) :=
        fun h => htag h.symm
      rw [if_neg htag, if_neg htag']
      have hany : ∀ {m m' : List (String × Json)},
          ¬(m.length ≠ m'.length ∨ m.any (fun f => (getField f.1 m').isNone) = true) →
          m.length = m'.length ∧ ∀ f ∈ m, (getField f.1 m').isSome := by
        intro m m' h
        rw [not_or, not_not, any_eq_true, not_exists] at h
        refine ⟨h.1, fun f hf => ?_⟩
        cases hget : getField f.1 m' with
        | none => exact absurd ⟨hf, by rw [hget]; rfl⟩ (h.2 f)
        | some v => rfl
      have hnot : ∀ {m m' : List (String × Json)}, m.length = m'.length →
          (∀ f ∈ m, (getField f.1 m').isSome) →
          ¬(m.length ≠ m'.length ∨ m.any (fun f => (getField f.1 m').isNone) = true) := by
        rintro m m' hlen hkeys (hne | hsome)
        · exact hne hlen
        · obtain ⟨f, hf, hnone⟩ := any_eq_true.mp hsome
          obtain ⟨v, hget⟩ := Option.isSome_iff_exists.mp (hkeys f hf)
          rw [hget] at hnone
          cases hnone
      -- The two sides see the same keys or both see that they do not.
      by_cases hsame : m.length ≠ m'.length ∨ m.any (fun f => (getField f.1 m').isNone) = true
      · rw [if_pos hsame, if_pos]
        by_contra hsame'
        obtain ⟨hlen, hkeys⟩ := hany hsame'
        exact hnot hlen.symm (hasKeys_comm hm' hm hlen hkeys) hsame
      · obtain ⟨hlen, hkeys⟩ := hany hsame
        rw [if_neg hsame, if_neg (hnot hlen.symm (hasKeys_comm hm hm' hlen hkeys))]
        exact cypherEqFields_comm hm hm' hlen hkeys h

/-- **Equality does not depend on the order of its arguments.** -/
theorem cypherEq_comm {a b : Json} (ha : a.wellFormed = true) (hb : b.wellFormed = true) :
    cypherEq a b = cypherEq b a := by
  obtain ⟨n, hn⟩ : ∃ n, sizeOf a ≤ n := ⟨_, le_refl _⟩
  induction n generalizing a b with
  | zero => cases a <;> simp at hn
  | succ n ih =>
    by_cases harray : ∃ as bs, a = .array as ∧ b = .array bs
    · obtain ⟨as, bs, rfl, rfl⟩ := harray
      rw [cypherEq_arrays, cypherEq_arrays]
      have hitems : cypherEqItems as bs false = cypherEqItems bs as false := by
        apply cypherEqItems_comm
        intro x hx y hy
        have hsize := sizeOf_item hx
        exact ih (wellFormed_item ha hx) (wellFormed_item hb hy) (by omega)
      by_cases hlen : as.length = bs.length
      · rw [if_neg (not_not.mpr hlen), if_neg (not_not.mpr hlen.symm), hitems]
      · rw [if_pos hlen, if_pos (Ne.symm hlen)]
    by_cases hobject : ∃ m m', a = .object m ∧ b = .object m'
    · obtain ⟨m, m', rfl, rfl⟩ := hobject
      apply cypherEq_comm_maps ha hb
      intro f hf g hg
      have hsize : sizeOf f.2 < sizeOf (Json.object m) := by
        have := sizeOf_lt_of_mem hf
        obtain ⟨k, v⟩ := f
        simp only [Json.object.sizeOf_spec, Prod.mk.sizeOf_spec] at this ⊢
        omega
      exact ih (wellFormed_field ha hf) (wellFormed_field hb hg) (by omega)
    · exact cypherEq_comm_of_kinds (fun as bs h h' => harray ⟨as, bs, h, h'⟩)
        fun m m' h h' => hobject ⟨m, m', h, h'⟩

end Equality

/-! ## Order -/

section Order

lemma numberCmp_swap (x y : Number) : numberCmp y x = (numberCmp x y).swap := by
  unfold numberCmp
  rcases x.asI64 with _ | i <;> rcases y.asI64 with _ | j <;> exact Std.OrientedOrd.eq_swap

lemma compareLex_swap {α : Type*} {cmp : α → α → Ordering} {as bs : List α}
    (h : ∀ a ∈ as, ∀ b ∈ bs, cmp b a = (cmp a b).swap) :
    List.compareLex cmp bs as = (List.compareLex cmp as bs).swap := by
  induction as generalizing bs with
  | nil => cases bs <;> rfl
  | cons a as ih =>
    cases bs with
    | nil => rfl
    | cons b bs =>
      rw [List.compareLex_cons_cons, List.compareLex_cons_cons, Ordering.swap_then,
        h a mem_cons_self b mem_cons_self,
        ih fun x hx y hy => h x (mem_cons_of_mem _ hx) y (mem_cons_of_mem _ hy)]

/-- The loop over the items of two lists. -/
theorem jsonCmpItems_swap {as bs : List Json}
    (heq : ∀ a ∈ as, ∀ b ∈ bs, cypherEq a b = cypherEq b a)
    (hcmp : ∀ a ∈ as, ∀ b ∈ bs, jsonCmp b a = (jsonCmp a b).map Ordering.swap) :
    jsonCmpItems bs as = (jsonCmpItems as bs).map Ordering.swap := by
  induction as generalizing bs with
  | nil => cases bs <;> rfl
  | cons a as ih =>
    cases bs with
    | nil => rfl
    | cons b bs =>
      rw [jsonCmpItems, jsonCmpItems, ← heq a mem_cons_self b mem_cons_self,
        hcmp a mem_cons_self b mem_cons_self,
        ih (fun x hx y hy => heq x (mem_cons_of_mem _ hx) y (mem_cons_of_mem _ hy))
          fun x hx y hy => hcmp x (mem_cons_of_mem _ hx) y (mem_cons_of_mem _ hy)]
      rcases cypherEq a b with _ | _ | _ <;> rfl

/-- **`json_cmp` is reversed when its arguments are.** -/
theorem jsonCmp_swap {a b : Json} (ha : a.wellFormed = true) (hb : b.wellFormed = true) :
    jsonCmp b a = (jsonCmp a b).map Ordering.swap := by
  obtain ⟨n, hn⟩ : ∃ n, sizeOf a ≤ n := ⟨_, le_refl _⟩
  induction n generalizing a b with
  | zero => cases a <;> simp at hn
  | succ n ih =>
    unfold jsonCmp
    cases a with
    | null => cases b <;> rfl
    | bool x =>
      cases b with
      | bool y => exact congrArg some Std.OrientedOrd.eq_swap
      | _ => rfl
    | number x =>
      cases b with
      | number y => exact congrArg some (numberCmp_swap x y)
      | _ => rfl
    | string s =>
      cases b with
      | string t => exact congrArg some Std.OrientedOrd.eq_swap
      | _ => rfl
    | array as =>
      cases b with
      | array bs =>
        apply jsonCmpItems_swap
        · exact fun x hx y hy => cypherEq_comm (wellFormed_item ha hx) (wellFormed_item hb hy)
        · intro x hx y hy
          have hsize := sizeOf_item hx
          exact ih (wellFormed_item ha hx) (wellFormed_item hb hy) (by omega)
      | _ => rfl
    | object m =>
      cases b with
      | object m' => exact objectCmp_swap m m'
      | _ => rfl

lemma objectOrder_swap {m m' : List (String × Json)}
    (hrank : tagRank (typeTag m) = tagRank (typeTag m'))
    (h : ∀ a b : Json, sizeOf a ≤ sizeOf (Json.object m) - 1 →
      jsonCmpTotal b a = (jsonCmpTotal a b).swap) :
    objectOrder m' m = (objectOrder m m').swap := by
  have hnan : typeTag m = some "__NaN__" ↔ typeTag m' = some "__NaN__" := by
    constructor
    · intro htag
      exact tagRank_eq_nine (hrank.symm.trans (by rw [htag]; rfl))
    · intro htag
      exact tagRank_eq_nine (hrank.trans (by rw [htag]; rfl))
  unfold objectOrder
  rw [← hrank]
  by_cases htag : typeTag m = some "__NaN__"
  · rw [if_pos htag, if_pos (hnan.mp htag)]
    rfl
  · rw [if_neg htag, if_neg (fun htag' => htag (hnan.mpr htag'))]
    by_cases hentity : tagRank (typeTag m) = 1 ∨ tagRank (typeTag m) = 2
    · rw [if_pos hentity, if_pos hentity]
      exact Std.OrientedOrd.eq_swap
    · rw [if_neg hentity, if_neg hentity]
      by_cases hpath : tagRank (typeTag m) = 4
      · have hpart : ∀ key, List.compareLex jsonCmpTotal (pathPart key m') (pathPart key m) =
            (List.compareLex jsonCmpTotal (pathPart key m) (pathPart key m')).swap := by
          intro key
          apply compareLex_swap
          intro a ha b _
          have hsize := sizeOf_pathPart ha
          exact h a b (by omega)
        rw [if_pos hpath, if_pos hpath, Ordering.swap_then, hpart, hpart]
      · rw [if_neg hpath, if_neg hpath, objectCmp_swap]
        rcases objectCmp m m' with _ | o <;> rfl

/-- **`json_cmp_total` is reversed when its arguments are.** -/
theorem jsonCmpTotal_swap (a b : Json) : jsonCmpTotal b a = (jsonCmpTotal a b).swap := by
  obtain ⟨n, hn⟩ : ∃ n, sizeOf a ≤ n := ⟨_, le_refl _⟩
  induction n generalizing a b with
  | zero => cases a <;> simp at hn
  | succ n ih =>
    by_cases hrank : orderRank a = orderRank b
    · -- Values of one rank are of one kind.
      have hshape := shape_of_orderRank a
      have hshape' := shape_of_orderRank b
      rw [← hrank] at hshape'
      cases a with
      | null =>
        cases b <;> dsimp only at hshape hshape' <;> try omega
        rfl
      | bool x =>
        cases b <;> dsimp only at hshape hshape' <;> try omega
        exact Std.OrientedOrd.eq_swap
      | number x =>
        cases b <;> dsimp only at hshape hshape' <;> try omega
        exact numberCmp_swap _ _
      | string s =>
        cases b <;> dsimp only at hshape hshape' <;> try omega
        exact Std.OrientedOrd.eq_swap
      | array as =>
        cases b <;> dsimp only at hshape hshape' <;> try omega
        rw [jsonCmpTotal_array, jsonCmpTotal_array]
        apply compareLex_swap
        intro x hx y _
        have hsize := sizeOf_item hx
        exact ih x y (by omega)
      | object m =>
        cases b <;> dsimp only at hshape hshape' <;> try omega
        rw [orderRank_object, orderRank_object] at hrank
        rw [jsonCmpTotal_object hrank, jsonCmpTotal_object hrank.symm]
        exact objectOrder_swap hrank fun x y hsize => ih x y (by omega)
    · rw [jsonCmpTotal_of_ne hrank, jsonCmpTotal_of_ne (Ne.symm hrank)]
      exact Std.OrientedOrd.eq_swap

/-- **The order of sort keys is reversed when its arguments are**: on every list of values. -/
theorem sortCmp_swap {items : List SortItem} {ka kb : List Json}
    (ha : ∀ v ∈ ka, v.wellFormed = true) (hb : ∀ v ∈ kb, v.wellFormed = true) :
    sortCmp items kb ka = (sortCmp items ka kb).swap := by
  induction items generalizing ka kb with
  | nil => unfold sortCmp; rfl
  | cons si items ih =>
    rcases ka with _ | ⟨a, ka⟩
    · rcases kb with _ | ⟨b, kb⟩ <;> rfl
    rcases kb with _ | ⟨b, kb⟩
    · rfl
    have hone : (jsonCmp b a).getD (jsonCmpTotal b a) =
        ((jsonCmp a b).getD (jsonCmpTotal a b)).swap := by
      rw [jsonCmp_swap (ha a mem_cons_self) (hb b mem_cons_self), jsonCmpTotal_swap a b]
      rcases jsonCmp a b with _ | o <;> rfl
    have hrest : sortCmp items kb ka = (sortCmp items ka kb).swap :=
      ih (fun v hv => ha v (mem_cons_of_mem _ hv)) fun v hv => hb v (mem_cons_of_mem _ hv)
    rw [sortCmp, sortCmp, hone, hrest]
    generalize (jsonCmp a b).getD (jsonCmpTotal a b) = o
    generalize sortCmp items ka kb = o'
    revert o o'
    cases si.ascending <;> decide

lemma sortCmp_self {items : List SortItem} {keys : List Json}
    (h : ∀ v ∈ keys, v.wellFormed = true) : sortCmp items keys keys = .eq := by
  have hswap := @sortCmp_swap items _ _ h h
  cases hcmp : sortCmp items keys keys <;> rw [hcmp] at hswap <;> cases hswap

end Order

end IssunDB.Cypher
