import IssunDB.Lib.Fallible
import IssunDB.Cypher.Equivalence

/-!
# Keys and equality

`DISTINCT`, grouping and joins go by keys; `=` goes by `cypherEq`. The two tell the same values
apart as long as numbers that are equal are one number and, inside of lists and maps, written alike,
maps with a sort key are equal only to themselves, nothing in a list or a map is null or NaN, and an
entity is met in one state (`keys_iff`).

* `GraphBinding.entity` — the entity that a key shows;
* `entityOf_of_agree` — equal values stand for one entity;
* `Settled` — the condition.
-/

namespace IssunDB.Cypher

open List Option

/-! ## Entities -/

/-- What a key shows instead of a value. -/
inductive Entity where
  | node (id : NodeId)
  | edge (id : EdgeId)
  | edges (ids : List EdgeId)

/-- The key of an entity. -/
def Entity.form : Entity → KeyForm
  | node id => .node id
  | edge id => .edge id
  | edges ids => .edgeList ids

lemma Entity.form_injective : Function.Injective Entity.form := by
  intro e e' h
  cases e <;> cases e' <;> cases h <;> rfl

/-- What a value stands for: the node or relationship of a map with a tag and an id, the
relationships of a list of such maps. -/
def entityOf (v : Json) : Option Entity :=
  match wrappedGraphId v with
  | some (true, id) => some (.node id)
  | some (false, id) => some (.edge id)
  | none => (wrappedEdgeIds v).map .edges

namespace GraphBinding

/-- What a binding stands for. -/
def entity : GraphBinding → Option Entity
  | node id => some (.node id)
  | edge id => some (.edge id)
  | edgeList ids => some (.edges ids)
  | scalar v => entityOf v

/-- The binding has a value, and no ids. -/
def isScalar : GraphBinding → Bool
  | scalar _ => true
  | _ => false

/-- The ids of a binding are machine words. -/
def Words : GraphBinding → Prop
  | node id | edge id => id < 2 ^ 64
  | edgeList ids => ∀ id ∈ ids, id < 2 ^ 64
  | scalar _ => True

/-- The ids of a binding can be read off its value: there are some, and no id is negative when it is
cast to a signed integer. -/
def Shown : GraphBinding → Prop
  | node id | edge id => id < 2 ^ 63
  | edgeList ids => ids ≠ [] ∧ ∀ id ∈ ids, id < 2 ^ 63
  | scalar _ => True

end GraphBinding

/-! ## The condition -/

/-- The values are equal, or one NaN. -/
def Equivalent (v w : Json) : Prop := cypherEq v w = some true ∨ (isNan v = true ∧ v = w)

mutual

/-- Nothing in the lists and maps of the value is null or NaN. -/
def known : Json → Bool
  | .array items => knownItems items
  | .object m => if untagged m then knownFields m else !isNan (.object m)
  | v => v ≠ .null

def knownItems : List Json → Bool
  | [] => true
  | v :: items => known v && knownItems items

def knownFields : List (String × Json) → Bool
  | [] => true
  | (_, v) :: fields => known v && knownFields fields

end

/-- A relation of two values; of two lists, of their items. -/
def itemwise (R : Json → Json → Bool) : Json → Json → Bool
  | .array as, .array bs => (as.zip bs).all fun p => R p.1 p.2
  | v, w => R v w

/-- Two maps of one tag that both have a sort key have the same id. -/
def sameId : Json → Json → Bool
  | .object m, .object m' =>
    !(decide (typeTag m = typeTag m') && (sortKey m).isSome && (sortKey m').isSome) ||
      decide (entityId m = entityId m')
  | _, _ => true

/-- Two maps have the same sort key if both have one, and else the same fields. -/
def sameState : Json → Json → Bool
  | .object m, .object m' =>
    match sortKey m, sortKey m' with
    | some k, some k' => decide (k = k')
    | _, _ => (Json.object m).eqv (.object m')
  | _, _ => true

mutual

/-- Where both values have a number it is one number, and where both have a map and one of the maps
has a tag it is one map. -/
def alike (v w : Json) : Bool :=
  match v, w with
  | .number x, .number y => decide (x = y)
  | .array as, .array bs => alikeItems as bs
  | .object m, .object m' =>
    if untagged m && untagged m' then alikeFields m m' else decide (m = m')
  | _, _ => true

def alikeItems : List Json → List Json → Bool
  | a :: as, b :: bs => alike a b && alikeItems as bs
  | _, _ => true

def alikeFields : List (String × Json) → List (String × Json) → Bool
  | (_, a) :: as, (_, b) :: bs => alike a b && alikeFields as bs
  | _, _ => true

end

/-- What is inside of two values is written alike. -/
def alikeInside : Json → Json → Bool
  | .number _, .number _ => true
  | v, w => alike v w

/-- Keys tell `a` and `b`, with the values `v` and `w`, apart as equality does. -/
structure Settled (a b : GraphBinding) (v w : Json) : Prop where
  /-- Numbers that tie as doubles are the same number. -/
  numbers : ∀ x y, v = .number x → w = .number y → NumbersAgree x y
  /-- In equal values the numbers are written alike, and maps with a tag are the same. -/
  inside : a.entity = none → b.entity = none → agree v w = true → alikeInside v w = true
  /-- Nothing in a value that is met twice is null or NaN. -/
  known : a.entity = none → b.entity = none → v = w → isNan v = true ∨ known v = true
  /-- An entity is met in one state. -/
  state : a.entity = b.entity → a.entity.isSome → itemwise sameState v w = true
  /-- Maps that are equal by their sort keys have the same id, if they stand for an entity. -/
  ids : a.entity.isSome ∨ b.entity.isSome → agree v w = true → itemwise sameId v w = true
  /-- An entity shows its ids to a value that is equal to its own. -/
  shown : a.isScalar ≠ b.isScalar → agree v w = true → a.Shown ∧ b.Shown

section Condition

lemma leafEq_self {v : Json} (hnull : v ≠ .null) (hnan : isNan v = false) : leafEq v v = true := by
  unfold leafEq
  rw [if_neg (by simp [hnull, hnan])]
  cases v with
  | number x => exact numberCmp_eq_iff.mp (numberCmp_self x)
  | object m =>
    show taggedEq m m = true
    unfold taggedEq
    rw [if_pos rfl]
    rcases sortKey m with _ | k
    · exact Json.eqv_refl _
    · exact decide_eq_true rfl
  | _ => exact Json.eqv_refl _

mutual

/-- A value agrees with itself iff nothing in it is unknown. -/
theorem agree_self : (v : Json) → agree v v = known v
  | .null => by simp [agree, leafEq, known]
  | .bool b => by
    have hleaf : leafEq (.bool b) (.bool b) = true := leafEq_self (by simp) rfl
    simp [agree, known, hleaf]
  | .number x => by
    have hleaf : leafEq (.number x) (.number x) = true := leafEq_self (by simp) rfl
    simp [agree, known, hleaf]
  | .string s => by
    have hleaf : leafEq (.string s) (.string s) = true := leafEq_self (by simp) rfl
    simp [agree, known, hleaf]
  | .array items => by
    rw [agree, known]
    exact agreeItems_self items
  | .object m => by
    rw [agree, known, Bool.and_self]
    split
    · exact agreeFields_self m
    · cases hnan : isNan (.object m) with
      | true => simp [leafEq, hnan]
      | false => exact leafEq_self (by simp) hnan

theorem agreeItems_self : (items : List Json) → agreeItems items items = knownItems items
  | [] => by unfold agreeItems knownItems; rfl
  | v :: items => by rw [agreeItems, knownItems, agree_self v, agreeItems_self items]

theorem agreeFields_self : (m : List (String × Json)) → agreeFields m m = knownFields m
  | [] => by unfold agreeFields knownFields; rfl
  | (k, v) :: m => by
    rw [agreeFields, knownFields, agree_self v, agreeFields_self m, decide_eq_true rfl]
    rfl

end


variable {g : Entities} {a b : GraphBinding} {v w : Json}

/-! ## What keys show -/

lemma cellForm_ne_form (u : Json) (e : Entity) : cellForm u ≠ e.form := by
  cases u with
  | number x =>
    change numberForm x ≠ _
    rcases numberForm_cases x with ⟨i, hx⟩ | ⟨f, hx⟩ <;> rw [hx] <;> cases e <;>
      exact KeyForm.noConfusion
  | _ => cases e <;> exact KeyForm.noConfusion

/-- A key shows the entity that a binding stands for, and else the value. -/
theorem bindingForm_eq (ha : g.bindingValue a = some v) :
    bindingForm (some a) = (a.entity.map Entity.form).getD (cellForm v) := by
  cases a with
  | scalar u =>
    obtain rfl := some.inj ha
    unfold GraphBinding.entity entityOf bindingForm
    dsimp only
    rcases wrappedGraphId u with _ | ⟨_ | _, id⟩
    · rcases wrappedEdgeIds u with _ | ids <;> rfl
    · rfl
    · rfl
  | _ => rfl

/-- Two keys are the same iff they show one entity, or one value. -/
theorem forms_eq_iff (ha : g.bindingValue a = some v) (hb : g.bindingValue b = some w) :
    bindingForm (some a) = bindingForm (some b) ↔
      a.entity = b.entity ∧ (a.entity = none → cellForm v = cellForm w) := by
  rw [bindingForm_eq ha, bindingForm_eq hb]
  rcases a.entity with _ | e
  · rcases b.entity with _ | e'
    · exact ⟨fun h => ⟨rfl, fun _ => h⟩, fun h => h.2 rfl⟩
    · exact iff_of_false (cellForm_ne_form v e') fun h => nomatch h.1
  · rcases b.entity with _ | e'
    · exact iff_of_false (cellForm_ne_form w e).symm fun h => nomatch h.1
    · rw [some.injEq]
      exact Entity.form_injective.eq_iff.trans (and_iff_left fun h => nomatch h).symm

lemma cellForm_eq_iff (hnot : ∀ x y, v = .number x → w ≠ .number y) :
    cellForm v = cellForm w ↔ v = w := by
  have hnumber : ∀ (x : Number) (u : Json), numberForm x ≠ .value u := by
    intro x u
    rcases numberForm_cases x with ⟨i, hx⟩ | ⟨f, hx⟩ <;> rw [hx] <;> exact KeyForm.noConfusion
  cases v with
  | number x =>
    cases w with
    | number y => exact absurd rfl (hnot x y rfl)
    | _ => exact iff_of_false (hnumber x _) Json.noConfusion
  | _ =>
    cases w with
    | number y => exact iff_of_false (hnumber y _).symm Json.noConfusion
    | _ => exact KeyForm.value.injEq .. ▸ Iff.rfl

/-! ## Values that are written alike -/

lemma eq_of_leafEq (h : leafEq v w = true) (hnumbers : ∀ x y, v = .number x → w ≠ .number y)
    (hmaps : ∀ m m', v = .object m → w ≠ .object m')
    (harray : ∀ as bs, v = .array as → w ≠ .array bs) : v = w := by
  unfold leafEq at h
  split at h
  · cases h
  · cases v <;> cases w <;> simp_all [Json.eqv]

lemma items_eq_of_alike {as bs : List Json}
    (ih : ∀ a ∈ as, ∀ b, agree a b = true → alike a b = true → a = b)
    (h : agreeItems as bs = true) (halike : alikeItems as bs = true) : as = bs := by
  induction as generalizing bs with
  | nil =>
    cases bs with
    | nil => rfl
    | cons b bs => cases (agreeItems_iff.mp h)
  | cons a as hrest =>
    cases bs with
    | nil => cases (agreeItems_iff.mp h)
    | cons b bs =>
      rw [agreeItems, Bool.and_eq_true_iff] at h
      rw [alikeItems, Bool.and_eq_true_iff] at halike
      rw [ih a mem_cons_self b h.1 halike.1,
        hrest (fun a ha => ih a (mem_cons_of_mem _ ha)) h.2 halike.2]

lemma fields_eq_of_alike {m m' : List (String × Json)}
    (ih : ∀ f ∈ m, ∀ b, agree f.2 b = true → alike f.2 b = true → f.2 = b)
    (h : agreeFields m m' = true) (halike : alikeFields m m' = true) : m = m' := by
  induction m generalizing m' with
  | nil =>
    cases m' with
    | nil => rfl
    | cons f' m' => cases (agreeFields_iff.mp h)
  | cons f m hrest =>
    cases m' with
    | nil => cases (agreeFields_iff.mp h)
    | cons f' m' =>
      rw [agreeFields, Bool.and_eq_true_iff, Bool.and_eq_true_iff, decide_eq_true_iff] at h
      rw [alikeFields, Bool.and_eq_true_iff] at halike
      rw [Prod.ext h.1.1 (ih f mem_cons_self f'.2 h.1.2 halike.1),
        hrest (fun f hf => ih f (mem_cons_of_mem _ hf)) h.2 halike.2]

/-- Values that are equal in every place and written alike are one value. -/
theorem eq_of_alike (h : agree v w = true) (halike : alike v w = true) : v = w := by
  induction hn : sizeOf v using Nat.strong_induction_on generalizing v w with
  | _ n ih =>
    subst hn
    by_cases harray : ∃ as bs, v = .array as ∧ w = .array bs
    · obtain ⟨as, bs, rfl, rfl⟩ := harray
      rw [agree] at h
      rw [alike] at halike
      exact congrArg _
        (items_eq_of_alike (fun a ha b h halike => ih _ (sizeOf_item ha) h halike rfl)
        h halike)
    by_cases hmaps : ∃ m m', v = .object m ∧ w = .object m'
    · obtain ⟨m, m', rfl, rfl⟩ := hmaps
      rw [alike] at halike
      split at halike
      next htags =>
        rw [agree, if_pos htags] at h
        refine congrArg _
          (fields_eq_of_alike (fun f hf b h halike => ih _ ?_ h halike rfl) h halike)
        have hlt := sizeOf_lt_of_mem hf
        have hpair : sizeOf f = 1 + sizeOf f.1 + sizeOf f.2 := rfl
        rw [Json.object.sizeOf_spec]
        omega
      next => rw [of_decide_eq_true halike]
    have hlists : ∀ as bs, v = .array as → w ≠ .array bs :=
      fun as bs has hbs => harray ⟨as, bs, has, hbs⟩
    have hno : ∀ m m', v = .object m → w ≠ .object m' := fun m m' hm hm' => hmaps ⟨m, m', hm, hm'⟩
    rw [agree_of_leaf hlists fun m m' hm hm' => absurd hm' (hno m m' hm)] at h
    by_cases hnumbers : ∃ x y, v = .number x ∧ w = .number y
    · obtain ⟨x, y, rfl, rfl⟩ := hnumbers
      rw [alike] at halike
      rw [of_decide_eq_true halike]
    · exact eq_of_leafEq h (fun x y hx hy => hnumbers ⟨x, y, hx, hy⟩) hno hlists

mutual

theorem alike_self : (v : Json) → alike v v = true
  | .null => by simp [alike]
  | .bool _ => by simp [alike]
  | .string _ => by simp [alike]
  | .number _ => by simp [alike]
  | .array items => by
    rw [alike]
    exact alikeItems_self items
  | .object m => by
    rw [alike]
    split
    · exact alikeFields_self m
    · exact decide_eq_true rfl

theorem alikeItems_self : (items : List Json) → alikeItems items items = true
  | [] => by unfold alikeItems; rfl
  | v :: items => by rw [alikeItems, alike_self v, alikeItems_self items]; rfl

theorem alikeFields_self : (m : List (String × Json)) → alikeFields m m = true
  | [] => by unfold alikeFields; rfl
  | (_, v) :: m => by rw [alikeFields, alike_self v, alikeFields_self m]; rfl

end

/-! ## Values that stand for entities -/

/-- Two lists of the same length are related item by item. -/
theorem itemwise_arrays {R : Json → Json → Bool} {as bs : List Json}
    (hlen : as.length = bs.length) :
    itemwise R (.array as) (.array bs) = true ↔ List.Forall₂ (fun x y => R x y = true) as bs := by
  rw [List.forall₂_iff_zip, itemwise, List.all_eq_true]
  exact ⟨fun h => ⟨hlen, fun {x y} hxy => h (x, y) hxy⟩, fun h p hp => h.2 hp⟩

/-- Whether a value has the tag of nodes or of relationships. -/
def entityTag : Json → Option Bool
  | .object m =>
    if typeTag m = some "__Node__" then some true
    else if typeTag m = some "__Edge__" then some false
    else none
  | _ => none

lemma wrappedGraphId_eq (v : Json) : wrappedGraphId v =
    (entityTag v).bind fun t =>
    (entityId (match v with | .object m => m | _ => [])).map (t, ·) := by
  cases v with
  | object m =>
    unfold wrappedGraphId entityTag
    dsimp only
    split_ifs <;> rfl
  | _ => rfl

lemma entityTag_of_wrapped {t : Bool} {id : ℕ} (h : wrappedGraphId v = some (t, id)) :
    entityTag v = some t := by
  rw [wrappedGraphId_eq] at h
  obtain ⟨t', ht, hid⟩ := bind_eq_some_iff.mp h
  obtain ⟨_, _, heq⟩ := map_eq_some_iff.mp hid
  rw [ht, (Prod.mk.inj heq).1]

/-- A map with the tag of an entity is no NaN, and has a tag. -/
theorem of_entityTag {t : Bool} (h : entityTag v = some t) : ∃ m, v = .object m ∧
    isNan v = false ∧ untagged m = false ∧
      typeTag m = some (if t then "__Node__" else "__Edge__") := by
  cases v with
  | object m =>
    have htag : typeTag m = some (if t then "__Node__" else "__Edge__") := by
      unfold entityTag at h
      dsimp only at h
      split_ifs at h with hnode hedge
      · rw [← some.inj h, hnode]
        rfl
      · rw [← some.inj h, hedge]
        rfl
    refine ⟨m, rfl, ?_, ?_, htag⟩
    · rw [Bool.eq_false_iff, Ne, isNan_object, htag]
      cases t <;> decide
    · rw [Bool.eq_false_iff, Ne, untagged_iff, not_not]
      unfold typeTag at htag
      rcases hfield : getField "__type__" m with _ | u
      · rw [hfield] at htag
        cases htag
      · rfl
  | _ => cases h

/-- Two maps with the tag of an entity are equal iff they have the same state. -/
theorem agree_of_entityTag {t : Bool} (hv : entityTag v = some t) (hw : entityTag w = some t) :
    agree v w = sameState v w := by
  obtain ⟨m, rfl, hnan, htagged, htag⟩ := of_entityTag hv
  obtain ⟨m', rfl, hnan', -, htag'⟩ := of_entityTag hw
  rw [agree, htagged, Bool.false_and, if_neg Bool.false_ne_true, leafEq,
    if_neg (by simp [hnan, hnan'])]
  show taggedEq m m' = sameState (.object m) (.object m')
  rcases hk : sortKey m with _ | k <;> rcases hk' : sortKey m' with _ | k' <;>
    simp only [taggedEq, sameState, hk, hk', if_pos (htag.trans htag'.symm)]

/-- Equal maps of which one has a tag have the same tag, and the same id. -/
theorem ids_of_taggedEq {m m' : List (String × Json)} (h : taggedEq m m' = true)
    (hid : sameId (.object m) (.object m') = true) :
    typeTag m = typeTag m' ∧ entityId m = entityId m' := by
  have hfields : (Json.object m).eqv (.object m') = true →
      typeTag m = typeTag m' ∧ entityId m = entityId m' := by
    intro heqv
    rw [Json.eqv] at heqv
    exact ⟨bind_getField_of_eqvFields heqv (fun _ _ => asStr_of_eqv) _,
      bind_getField_of_eqvFields heqv (fun _ _ => asU64_of_eqv) _⟩
  unfold taggedEq at h
  split at h
  next htag =>
    split at h
    next k k' hk hk' =>
      rw [sameId, htag, hk, hk'] at hid
      exact ⟨htag, by simpa using hid⟩
    next => exact hfields h
  next => exact hfields h

/-- Equal maps have the same tag, and the same id if there is a tag. -/
theorem typeTag_of_agree {m m' : List (String × Json)} (h : agree (.object m) (.object m') = true)
    (hid : sameId (.object m) (.object m') = true) :
    typeTag m = typeTag m' ∧ (typeTag m = none ∨ entityId m = entityId m') := by
  rw [agree] at h
  split at h
  next htags =>
    have hnone : ∀ {m}, untagged m = true → typeTag m = none := by
      intro m hm
      unfold typeTag
      rw [isNone_iff_eq_none.mp hm]
      rfl
    obtain ⟨hm, hm'⟩ := Bool.and_eq_true_iff.mp htags
    exact ⟨(hnone hm).trans (hnone hm').symm, .inl (hnone hm)⟩
  next =>
    rw [leafEq] at h
    split at h
    · cases h
    · obtain ⟨htag, hids⟩ := ids_of_taggedEq h hid
      exact ⟨htag, .inr hids⟩

/-- A map is equal to maps only, and a list to lists only. -/
theorem shape_of_agree (h : agree v w = true) :
    (∀ m, v = .object m → ∃ m', w = .object m') ∧ (∀ as, v = .array as → ∃ bs, w = .array bs) ∧
      (∀ m', w = .object m' → ∃ m, v = .object m) ∧ ∀ bs, w = .array bs → ∃ as, v = .array as := by
  cases v <;> cases w <;> simp_all [agree, leafEq, Json.eqv]

lemma sameId_of_itemwise (h : itemwise sameId v w = true) : sameId v w = true := by
  unfold itemwise at h
  split at h
  next => rfl
  next => exact h

lemma entityTag_of_agree (h : agree v w = true) (hid : sameId v w = true) :
    entityTag v = entityTag w := by
  by_cases hmap : ∃ m, v = .object m
  · obtain ⟨m, rfl⟩ := hmap
    obtain ⟨m', rfl⟩ := (shape_of_agree h).1 m rfl
    unfold entityTag
    dsimp only
    rw [(typeTag_of_agree h hid).1]
  · have hmap' : ¬∃ m', w = .object m' := fun ⟨m', hm'⟩ => hmap ((shape_of_agree h).2.2.1 m' hm')
    have hnone : ∀ {u : Json}, (¬∃ m, u = .object m) → entityTag u = none := by
      intro u hu
      cases u with
      | object m => exact absurd ⟨m, rfl⟩ hu
      | _ => rfl
    rw [hnone hmap, hnone hmap']

/-- Equal values stand for one node or relationship. -/
theorem wrappedGraphId_of_agree (h : agree v w = true) (hid : sameId v w = true) :
    wrappedGraphId v = wrappedGraphId w := by
  have htags := entityTag_of_agree h hid
  rw [wrappedGraphId_eq, wrappedGraphId_eq, ← htags]
  cases htag : entityTag v with
  | none => rfl
  | some t =>
    obtain ⟨m, rfl, -, -, hm⟩ := of_entityTag htag
    obtain ⟨m', rfl, -⟩ := of_entityTag (htags.symm.trans htag)
    obtain ⟨-, hnone | hids⟩ := typeTag_of_agree h hid
    · cases hm.symm.trans hnone
    · exact congrArg (Option.map (t, ·)) hids

lemma wrappedEdgeIds_of_items {as bs : List Json}
    (h : List.Forall₂ (fun x y => wrappedGraphId x = wrappedGraphId y) as bs) :
    wrappedEdgeIds (.array as) = wrappedEdgeIds (.array bs) := by
  have hmap : as.map wrappedEdgeId = bs.map wrappedEdgeId := by
    rw [← List.forall₂_eq_eq_eq, List.forall₂_map_left_iff, List.forall₂_map_right_iff]
    refine h.imp fun x y hxy => ?_
    unfold wrappedEdgeId
    rw [hxy]
  have hall : as.mapM wrappedEdgeId = bs.mapM wrappedEdgeId := by
    have hid : ∀ l : List Json, l.mapM wrappedEdgeId = (l.map wrappedEdgeId).mapM id := fun l => by
      rw [mapM_map]
      rfl
    rw [hid, hid, hmap]
  rw [wrappedEdgeIds, wrappedEdgeIds, hall]

/-- **Equal values stand for one entity.** -/
theorem entityOf_of_agree (h : agree v w = true) (hid : itemwise sameId v w = true) :
    entityOf v = entityOf w := by
  by_cases harray : ∃ as, v = .array as
  · obtain ⟨as, rfl⟩ := harray
    obtain ⟨bs, rfl⟩ := (shape_of_agree h).2.1 as rfl
    rw [agree, agreeItems_iff] at h
    rw [itemwise_arrays h.length_eq] at hid
    have hitems : List.Forall₂ (fun x y => wrappedGraphId x = wrappedGraphId y) as bs :=
      List.Forall₂.mp (fun x y => wrappedGraphId_of_agree) h hid
    exact congrArg (Option.map Entity.edges) (wrappedEdgeIds_of_items hitems)
  · have harray' : ¬∃ bs, w = .array bs := fun ⟨bs, hbs⟩ => harray ((shape_of_agree h).2.2.2 bs hbs)
    have hnone : ∀ {u : Json}, (¬∃ as, u = .array as) → wrappedEdgeIds u = none := by
      intro u hu
      cases u with
      | array as => exact absurd ⟨as, rfl⟩ hu
      | _ => rfl
    unfold entityOf
    rw [wrappedGraphId_of_agree h (sameId_of_itemwise hid), hnone harray, hnone harray']

/-! ## Bound entities -/

lemma asU64_idNumber {id : ℕ} (hid : id < 2 ^ 64) :
    asU64 (.number (idNumber id)) = if id < 2 ^ 63 then some id else none := by
  unfold idNumber
  simp only [Nat.mod_eq_of_lt hid]
  split <;> rfl

lemma idNumber_inj {id id' : ℕ} (hid : id < 2 ^ 64) (hid' : id' < 2 ^ 64)
    (h : (idNumber id).eqv (idNumber id') = true) : id = id' := by
  unfold idNumber at h
  simp only [Nat.mod_eq_of_lt hid, Nat.mod_eq_of_lt hid'] at h
  split at h <;> split at h <;> simp only [Number.eqv, decide_eq_true_eq, Bool.false_eq_true] at h
  · exact h
  · omega

/-- A node is read back from its value if its id is not negative there. -/
theorem wrappedGraphId_nodeValue {id : NodeId} (h : g.nodeValue id = some v) (hid : id < 2 ^ 64) :
    wrappedGraphId v = if id < 2 ^ 63 then some (true, id) else none := by
  obtain ⟨props, -, rfl⟩ := map_eq_some_iff.mp h
  change (asU64 (.number (idNumber id))).map (true, ·) = _
  rw [asU64_idNumber hid]
  split <;> rfl

lemma wrappedGraphId_edgeValue {id : EdgeId} (h : g.edgeValue id = some v) (hid : id < 2 ^ 64) :
    wrappedGraphId v = if id < 2 ^ 63 then some (false, id) else none := by
  obtain ⟨⟨src, dst, props⟩, -, rfl⟩ := map_eq_some_iff.mp h
  change (asU64 (.number (idNumber id))).map (false, ·) = _
  rw [asU64_idNumber hid]
  split <;> rfl

/-- The items of a list of relationships. -/
theorem edgeList_items {ids : List EdgeId} (h : g.bindingValue (.edgeList ids) = some v) :
    ∃ items, v = .array items ∧ List.Forall₂ (fun id x => g.edgeValue id = some x) ids items := by
  obtain ⟨items, hitems, rfl⟩ := map_eq_some_iff.mp h
  exact ⟨items, rfl, List.mapM_eq_some_iff.mp hitems⟩

lemma mapM_wrappedEdgeId {ids : List EdgeId} {items : List Json} (hwords : ∀ id ∈ ids, id < 2 ^ 64)
    (h : List.Forall₂ (fun id x => g.edgeValue id = some x) ids items) :
    items.mapM wrappedEdgeId = some ids ↔ ∀ id ∈ ids, id < 2 ^ 63 := by
  rw [List.mapM_eq_some_iff]
  induction h with
  | nil => simp
  | @cons id x ids items hx hrest ih =>
    rw [List.forall₂_cons, ih fun id hid => hwords id (mem_cons_of_mem _ hid),
      forall_mem_cons, wrappedEdgeId,
      wrappedGraphId_edgeValue hx (hwords id mem_cons_self)]
    refine and_congr_left fun _ => ?_
    by_cases hlt : id < 2 ^ 63
    · rw [if_pos hlt]
      exact iff_of_true rfl hlt
    · rw [if_neg hlt]
      exact iff_of_false (fun h => nomatch h) hlt

/-- **The ids that a value shows.** -/
theorem shown_iff (hwords : a.Words) (ha : g.bindingValue a = some v) :
    a.Shown ↔ entityOf v = a.entity := by
  have hmap : ∀ {m}, wrappedEdgeIds (.object m) = none := rfl
  cases a with
  | scalar u =>
    obtain rfl := some.inj ha
    exact iff_of_true trivial rfl
  | node id =>
    have hread := wrappedGraphId_nodeValue ha hwords
    obtain ⟨props, -, rfl⟩ := map_eq_some_iff.mp ha
    unfold entityOf
    rw [hread, hmap]
    by_cases hlt : id < 2 ^ 63
    · rw [if_pos hlt]
      exact iff_of_true hlt rfl
    · rw [if_neg hlt]
      exact iff_of_false hlt fun h => by cases h
  | edge id =>
    have hread := wrappedGraphId_edgeValue ha hwords
    obtain ⟨e, -, rfl⟩ := map_eq_some_iff.mp ha
    unfold entityOf
    rw [hread, hmap]
    by_cases hlt : id < 2 ^ 63
    · rw [if_pos hlt]
      exact iff_of_true hlt rfl
    · rw [if_neg hlt]
      exact iff_of_false hlt fun h => by cases h
  | edgeList ids =>
    obtain ⟨items, rfl, hitems⟩ := edgeList_items ha
    have hread := mapM_wrappedEdgeId hwords hitems
    change _ ↔ (wrappedEdgeIds (.array items)).map Entity.edges = some (.edges ids)
    rw [GraphBinding.Shown, ← hread, wrappedEdgeIds]
    rcases items.mapM wrappedEdgeId with _ | ids'
    · exact iff_of_false (fun h => by cases h.2) fun h => by cases h
    · cases ids' with
      | nil =>
        exact iff_of_false (fun h => h.1 (some.inj h.2).symm) fun h => by cases h
      | cons id ids' =>
        rw [some.injEq]
        constructor
        · rintro ⟨-, rfl⟩
          rfl
        · intro h
          obtain rfl := Entity.edges.inj (some.inj h)
          exact ⟨cons_ne_nil _ _, rfl⟩

/-- No map of a bound entity has a sort key. -/
theorem sameId_of_bound (hbound : a.isScalar = false) (ha : g.bindingValue a = some v) (w : Json) :
    itemwise sameId v w = true ∧ itemwise sameId w v = true := by
  have hmap : ∀ {m : List (String × Json)}, sortKey m = none → ∀ u : Json,
      sameId (.object m) u = true ∧ sameId u (.object m) = true := by
    intro m hm u
    cases u <;> simp [sameId, hm]
  cases a with
  | scalar u => cases hbound
  | node id =>
    obtain ⟨props, -, rfl⟩ := map_eq_some_iff.mp ha
    have hnode := hmap (m := [("__type__", .string "__Node__"), ("id", .number (idNumber id)),
      ("properties", props.value)]) rfl w
    cases w <;> exact hnode
  | edge id =>
    obtain ⟨⟨src, dst, props⟩, -, rfl⟩ := map_eq_some_iff.mp ha
    have hedge := hmap (m := [("__type__", .string "__Edge__"), ("endNode", .number (idNumber dst)),
      ("id", .number (idNumber id)), ("properties", props.value),
      ("startNode", .number (idNumber src))]) rfl w
    cases w <;> exact hedge
  | edgeList ids =>
    obtain ⟨items, rfl, hitems⟩ := edgeList_items ha
    have hitem : ∀ x ∈ items, ∀ u, sameId x u = true ∧ sameId u x = true := by
      intro x hx
      obtain ⟨id, -, hid⟩ : ∃ id ∈ ids, g.edgeValue id = some x := by
        obtain ⟨i, hi, rfl⟩ := mem_iff_getElem.mp hx
        have hi' : i < ids.length := hitems.length_eq ▸ hi
        exact ⟨ids[i], getElem_mem hi', hitems.get hi' hi⟩
      obtain ⟨⟨src, dst, props⟩, -, rfl⟩ := map_eq_some_iff.mp hid
      exact hmap rfl
    cases w with
    | array bs =>
      constructor
      · exact List.all_eq_true.mpr fun p hp => (hitem p.1 (of_mem_zip hp).1 p.2).1
      · exact List.all_eq_true.mpr fun p hp => (hitem p.2 (of_mem_zip hp).2 p.1).2
    | _ => exact ⟨rfl, rfl⟩

lemma edge_eq_of_agree {id id' : EdgeId} {x y : Json} (hx : g.edgeValue id = some x)
    (hy : g.edgeValue id' = some y) (hid : id < 2 ^ 64) (hid' : id' < 2 ^ 64)
    (h : agree x y = true) : id = id' := by
  obtain ⟨⟨src, dst, props⟩, -, rfl⟩ := map_eq_some_iff.mp hx
  obtain ⟨⟨src', dst', props'⟩, -, rfl⟩ := map_eq_some_iff.mp hy
  rw [agree_of_entityTag (t := false) rfl rfl] at h
  change Json.eqv _ _ = true at h
  simp only [Json.eqv, Json.eqvFields, Bool.and_eq_true] at h
  exact idNumber_inj hid hid' h.2.2.1.2

lemma node_eq_of_agree {id id' : NodeId} {x y : Json} (hx : g.nodeValue id = some x)
    (hy : g.nodeValue id' = some y) (hid : id < 2 ^ 64) (hid' : id' < 2 ^ 64)
    (h : agree x y = true) : id = id' := by
  obtain ⟨props, -, rfl⟩ := map_eq_some_iff.mp hx
  obtain ⟨props', -, rfl⟩ := map_eq_some_iff.mp hy
  rw [agree_of_entityTag (t := true) rfl rfl] at h
  change Json.eqv _ _ = true at h
  simp only [Json.eqv, Json.eqvFields, Bool.and_eq_true] at h
  exact idNumber_inj hid hid' h.2.1.2

lemma edges_eq_of_agree {ids ids' : List EdgeId} {as bs : List Json}
    (has : List.Forall₂ (fun id x => g.edgeValue id = some x) ids as)
    (hbs : List.Forall₂ (fun id x => g.edgeValue id = some x) ids' bs)
    (hids : ∀ id ∈ ids, id < 2 ^ 64) (hids' : ∀ id ∈ ids', id < 2 ^ 64)
    (h : List.Forall₂ (fun x y => agree x y = true) as bs) : ids = ids' := by
  induction h generalizing ids ids' with
  | nil =>
    cases has
    cases hbs
    rfl
  | cons hxy _ ih =>
    cases has with
    | cons hx has =>
      cases hbs with
      | cons hy hbs =>
        rw [edge_eq_of_agree hx hy (hids _ mem_cons_self) (hids' _ mem_cons_self) hxy,
          ih has hbs (fun id hid => hids id (mem_cons_of_mem _ hid))
            fun id hid => hids' id (mem_cons_of_mem _ hid)]

/-- What the value of an entity looks like. -/
def Entity.Shape : Entity → Json → Prop
  | node _, v => entityTag v = some true
  | edge _, v => entityTag v = some false
  | edges ids, v => ∃ items, v = .array items ∧ items.length = ids.length ∧
      ∀ x ∈ items, entityTag x = some false

/-- The tag of the value of an entity. -/
def Entity.tag : Entity → Option Bool
  | node _ => some true
  | edge _ => some false
  | edges _ => none

lemma Entity.Shape.tag_eq {e : Entity} (h : e.Shape v) : entityTag v = e.tag := by
  cases e with
  | edges ids =>
    obtain ⟨items, rfl, -⟩ := h
    rfl
  | _ => exact h

lemma entityTag_of_forall₂ {α : Type} {R : α → Json → Prop} {ids : List α} {items : List Json}
    (h : List.Forall₂ R ids items) (htag : ∀ id x, R id x → entityTag x = some false) :
    ∀ x ∈ items, entityTag x = some false := by
  induction h with
  | nil => exact fun x hx => nomatch hx
  | cons hx _ ih => exact forall_mem_cons.mpr ⟨htag _ _ hx, ih⟩

/-- An entity is read from a value. -/
def Entity.Reads : Entity → Json → Prop
  | node id, v => wrappedGraphId v = some (true, id)
  | edge id, v => wrappedGraphId v = some (false, id)
  | edges ids, v => ∃ items, v = .array items ∧
      List.Forall₂ (fun x id => wrappedGraphId x = some (false, id)) items ids

lemma reads_of_entityOf {e : Entity} (h : entityOf v = some e) : e.Reads v := by
  unfold entityOf at h
  split at h
  next id hread =>
    obtain rfl := some.inj h
    exact hread
  next id hread =>
    obtain rfl := some.inj h
    exact hread
  next =>
    obtain ⟨ids, hids, rfl⟩ := map_eq_some_iff.mp h
    cases v with
    | array items =>
      unfold wrappedEdgeIds at hids
      dsimp only at hids
      split at hids
      next ids' hitems =>
        split at hids
        next => cases hids
        next =>
          obtain rfl := some.inj hids
          refine ⟨items, rfl, (List.mapM_eq_some_iff.mp hitems).imp fun x id hx => ?_⟩
          unfold wrappedEdgeId at hx
          split at hx
          next hread => rw [hread, some.inj hx]
          next => cases hx
      next => cases hids
    | _ => cases hids

lemma Entity.Reads.shape {e : Entity} (h : e.Reads v) : e.Shape v := by
  cases e with
  | node id => exact entityTag_of_wrapped h
  | edge id => exact entityTag_of_wrapped h
  | edges ids =>
    obtain ⟨items, rfl, hitems⟩ := h
    exact ⟨items, rfl, hitems.length_eq,
      entityTag_of_forall₂ hitems.flip fun _ _ => entityTag_of_wrapped⟩

lemma shape_of_entity {e : Entity} (ha : g.bindingValue a = some v) (h : a.entity = some e) :
    e.Shape v := by
  cases a with
  | scalar u =>
    obtain rfl := some.inj ha
    exact (reads_of_entityOf h).shape
  | node id =>
    obtain rfl := some.inj h
    obtain ⟨props, -, rfl⟩ := map_eq_some_iff.mp ha
    rfl
  | edge id =>
    obtain rfl := some.inj h
    obtain ⟨e, -, rfl⟩ := map_eq_some_iff.mp ha
    rfl
  | edgeList ids =>
    obtain rfl := some.inj h
    obtain ⟨items, rfl, hitems⟩ := edgeList_items ha
    refine ⟨items, rfl, hitems.length_eq.symm, entityTag_of_forall₂ hitems fun id x hx => ?_⟩
    obtain ⟨e, -, rfl⟩ := map_eq_some_iff.mp hx
    rfl

/-- **Bound entities with equal values are one.** -/
theorem entity_of_bound (hbound : a.isScalar = false) (hbound' : b.isScalar = false)
    (hwords : a.Words) (hwords' : b.Words) (ha : g.bindingValue a = some v)
    (hb : g.bindingValue b = some w) (h : agree v w = true) : a.entity = b.entity := by
  have htag : ∀ {e e'}, a.entity = some e → b.entity = some e' → e.tag = e'.tag := by
    intro e e' he he'
    rw [← (shape_of_entity ha he).tag_eq, ← (shape_of_entity hb he').tag_eq]
    exact entityTag_of_agree h (sameId_of_itemwise (sameId_of_bound hbound ha w).1)
  cases a with
  | scalar u => cases hbound
  | node id =>
    cases b with
    | scalar u => cases hbound'
    | node id' => rw [node_eq_of_agree ha hb hwords hwords' h]
    | _ => cases htag rfl rfl
  | edge id =>
    cases b with
    | scalar u => cases hbound'
    | edge id' => rw [edge_eq_of_agree ha hb hwords hwords' h]
    | _ => cases htag rfl rfl
  | edgeList ids =>
    cases b with
    | scalar u => cases hbound'
    | edgeList ids' =>
      obtain ⟨as, rfl, has⟩ := edgeList_items ha
      obtain ⟨bs, rfl, hbs⟩ := edgeList_items hb
      rw [agree, agreeItems_iff] at h
      rw [edges_eq_of_agree has hbs hwords hwords' h]
    | _ => cases htag rfl rfl

lemma itemwise_of_entityTag {R : Json → Json → Bool} {t : Bool} (hv : entityTag v = some t) :
    itemwise R v w = R v w := by
  obtain ⟨m, rfl, -⟩ := of_entityTag hv
  cases w <;> rfl

/-- **Two values of one entity** are equal iff they have the same state. -/
theorem agree_of_entity (ha : g.bindingValue a = some v) (hb : g.bindingValue b = some w)
    (h : a.entity = b.entity) (hsome : a.entity.isSome) :
    agree v w = true ↔ itemwise sameState v w = true := by
  obtain ⟨e, he⟩ := isSome_iff_exists.mp hsome
  have hv := shape_of_entity ha he
  have hw := shape_of_entity hb (h ▸ he)
  cases e with
  | node id => rw [itemwise_of_entityTag hv, agree_of_entityTag hv hw]
  | edge id => rw [itemwise_of_entityTag hv, agree_of_entityTag hv hw]
  | edges ids =>
    obtain ⟨as, rfl, hlen, has⟩ := hv
    obtain ⟨bs, rfl, hlen', hbs⟩ := hw
    rw [agree, agreeItems_iff, itemwise_arrays (hlen.trans hlen'.symm)]
    constructor
    · exact fun h => forall₂_imp_mem h fun x hx y hy hxy =>
        agree_of_entityTag (has x hx) (hbs y hy) ▸ hxy
    · exact fun h => forall₂_imp_mem h fun x hx y hy hxy =>
        agree_of_entityTag (has x hx) (hbs y hy) ▸ hxy

lemma entityId_of_wrapped {m : List (String × Json)} {t : Bool} {id : ℕ}
    (h : wrappedGraphId (.object m) = some (t, id)) : entityId m = some id := by
  rw [wrappedGraphId_eq] at h
  obtain ⟨_, -, hid⟩ := bind_eq_some_iff.mp h
  obtain ⟨_, hid, heq⟩ := map_eq_some_iff.mp hid
  rw [← (Prod.mk.inj heq).2]
  exact hid

/-- Values that stand for the same node or relationship have the same id. -/
theorem sameId_of_wrapped {t : Bool} {id : ℕ} (h : wrappedGraphId v = some (t, id))
    (h' : wrappedGraphId w = some (t, id)) : sameId v w = true := by
  unfold sameId
  split
  next m m' => simp [entityId_of_wrapped h, entityId_of_wrapped h']
  next => rfl

/-- Values that stand for one entity have the same ids in every place. -/
theorem itemwise_sameId_of_entityOf {e : Entity} (h : entityOf v = some e)
    (h' : entityOf w = some e) :
    itemwise sameId v w = true := by
  have hv := reads_of_entityOf h
  have hw := reads_of_entityOf h'
  cases e with
  | node id => rw [itemwise_of_entityTag hv.shape, sameId_of_wrapped hv hw]
  | edge id => rw [itemwise_of_entityTag hv.shape, sameId_of_wrapped hv hw]
  | edges ids =>
    obtain ⟨as, rfl, has⟩ := hv
    obtain ⟨bs, rfl, hbs⟩ := hw
    rw [itemwise_arrays (has.length_eq.trans hbs.length_eq.symm)]
    clear h h'
    induction has generalizing bs with
    | nil =>
      cases hbs
      exact .nil
    | cons hx _ ih =>
      cases hbs with
      | cons hy hbs => exact .cons (sameId_of_wrapped hx hy) (ih _ hbs)

/-! ## The equivalence -/

lemma equivalent_of_agree (hv : v.wellFormed = true) (hw : w.wellFormed = true)
    (h : agree v w = true) : Equivalent v w := .inl ((cypherEq_iff_agree hv hw).mpr h)

lemma eq_scalar_of_isScalar (h : a.isScalar = true) (ha : g.bindingValue a = some v) :
    a = .scalar v := by
  cases a with
  | scalar u => exact congrArg _ (some.inj ha)
  | _ => cases h

lemma eq_scalar_of_number {x : Number} (h : g.bindingValue a = some (.number x)) :
    a = .scalar (.number x) := by
  cases a with
  | scalar u => rw [some.inj h]
  | node id =>
    obtain ⟨props, -, hv⟩ := map_eq_some_iff.mp h
    cases hv
  | edge id =>
    obtain ⟨e, -, hv⟩ := map_eq_some_iff.mp h
    cases hv
  | edgeList ids =>
    obtain ⟨items, -, hv⟩ := map_eq_some_iff.mp h
    cases hv

/-- NaN is no entity. -/
theorem entity_of_isNan (ha : g.bindingValue a = some v) (hnan : isNan v = true) :
    a.entity = none := by
  rw [eq_none_iff_forall_ne_some]
  intro e he
  have hshape := shape_of_entity ha he
  cases e with
  | node id =>
    obtain ⟨m, -, hnot, -⟩ := of_entityTag hshape
    cases hnan.symm.trans hnot
  | edge id =>
    obtain ⟨m, -, hnot, -⟩ := of_entityTag hshape
    cases hnan.symm.trans hnot
  | edges ids =>
    obtain ⟨items, rfl, -⟩ := hshape
    cases hnan

/-- **Numbers.** -/
theorem settled_numbers {x y : Number} :
    ((bindingForm (some (.scalar (.number x))) = bindingForm (some (.scalar (.number y)))) ↔
        Equivalent (.number x) (.number y)) ↔
      Settled (.scalar (.number x)) (.scalar (.number y)) (.number x) (.number y) := by
  have hequiv : Equivalent (.number x) (.number y) ↔ numberEq x y = true := by
    unfold Equivalent
    rw [cypherEq_numbers, some.injEq]
    exact or_iff_left fun h => by cases h.1
  have hforms : bindingForm (some (.scalar (.number x))) =
      bindingForm (some (.scalar (.number y))) ↔ numberEq x y = true ∧ SameNumber x y :=
    numberForm_eq_iff
  rw [hequiv, hforms]
  constructor
  · intro h
    refine ⟨?_, fun _ _ _ => rfl, fun _ _ _ => .inr rfl, ?_, ?_, ?_⟩
    · rintro x' y' hx hy heq
      obtain rfl := Json.number.inj hx
      obtain rfl := Json.number.inj hy
      exact (h.mpr heq).2
    · exact fun _ hsome => nomatch hsome
    · rintro (hsome | hsome)
      · cases hsome
      · cases hsome
    · exact fun hne => absurd rfl hne
  · intro h
    exact ⟨And.left, fun heq => ⟨heq, h.numbers x y rfl rfl heq⟩⟩

section Settled

variable (hwords : a.Words) (hwords' : b.Words) (ha : g.bindingValue a = some v)
  (hb : g.bindingValue b = some w) (hv : v.wellFormed = true) (hw : w.wellFormed = true)
  (hnot : ∀ x y, v = .number x → w ≠ .number y)

include hwords hwords' ha hb

/-- Where the conditions hold, equal values stand for one entity. -/
theorem Settled.entity_eq (h : Settled a b v w) (hsome : a.entity.isSome ∨ b.entity.isSome)
    (hagree : agree v w = true) : a.entity = b.entity := by
  cases hscalar : a.isScalar with
  | false =>
    cases hscalar' : b.isScalar with
    | false => exact entity_of_bound hscalar hscalar' hwords hwords' ha hb hagree
    | true =>
      have hshown := h.shown (by rw [hscalar, hscalar']; exact Bool.false_ne_true) hagree
      rw [← (shown_iff hwords ha).mp hshown.1, ← (shown_iff hwords' hb).mp hshown.2]
      exact entityOf_of_agree hagree (h.ids hsome hagree)
  | true =>
    cases hscalar' : b.isScalar with
    | false =>
      have hshown := h.shown (by rw [hscalar, hscalar']; exact Bool.false_ne_true.symm) hagree
      rw [← (shown_iff hwords ha).mp hshown.1, ← (shown_iff hwords' hb).mp hshown.2]
      exact entityOf_of_agree hagree (h.ids hsome hagree)
    | true =>
      obtain rfl := eq_scalar_of_isScalar hscalar ha
      obtain rfl := eq_scalar_of_isScalar hscalar' hb
      exact entityOf_of_agree hagree (h.ids hsome hagree)

include hv hw hnot

lemma forms_iff_of_settled (h : Settled a b v w) :
    bindingForm (some a) = bindingForm (some b) ↔ Equivalent v w := by
  rw [forms_eq_iff ha hb, cellForm_eq_iff hnot]
  constructor
  · rintro ⟨hentity, hvalue⟩
    cases hsome : a.entity with
    | none =>
      obtain rfl := hvalue hsome
      rcases h.known hsome (hentity ▸ hsome) rfl with hnan | hknown
      · exact .inr ⟨hnan, rfl⟩
      · exact equivalent_of_agree hv hv ((agree_self v).trans hknown)
    | some e =>
      have hsome' : a.entity.isSome := by rw [hsome]; rfl
      exact equivalent_of_agree hv hw
        ((agree_of_entity ha hb hentity hsome').mpr (h.state hentity hsome'))
  · rintro (heq | ⟨hnan, rfl⟩)
    · have hagree := (cypherEq_iff_agree hv hw).mp heq
      by_cases hsome : a.entity.isSome ∨ b.entity.isSome
      · have hentity := h.entity_eq hwords hwords' ha hb hsome hagree
        refine ⟨hentity, fun hnone => ?_⟩
        rw [← hentity, or_self_iff, hnone] at hsome
        cases hsome
      · rw [not_or, not_isSome_iff_eq_none, not_isSome_iff_eq_none] at hsome
        have hinside := h.inside hsome.1 hsome.2 hagree
        have halike : alike v w = true := by
          unfold alikeInside at hinside
          split at hinside
          next x y => exact absurd rfl (hnot x y rfl)
          next => exact hinside
        exact ⟨hsome.1.trans hsome.2.symm, fun _ => eq_of_alike hagree halike⟩
    · exact ⟨(entity_of_isNan ha hnan).trans (entity_of_isNan hb hnan).symm, fun _ => rfl⟩

lemma settled_of_forms_iff
    (h : bindingForm (some a) = bindingForm (some b) ↔ Equivalent v w) : Settled a b v w := by
  rw [forms_eq_iff ha hb, cellForm_eq_iff hnot] at h
  have hequal : agree v w = true → a.entity = b.entity ∧ (a.entity = none → v = w) :=
    fun hagree => h.mpr (equivalent_of_agree hv hw hagree)
  refine ⟨fun x y hx hy => absurd hy (hnot x y hx), fun hnone _ hagree => ?_,
    fun hnone hnone' hvw => ?_,
    fun hentity hsome => ?_, fun hsome hagree => ?_, fun hne hagree => ?_⟩
  · obtain rfl := (hequal hagree).2 hnone
    unfold alikeInside
    split
    next => rfl
    next => exact alike_self v
  · rcases h.mp ⟨hnone.trans hnone'.symm, fun _ => hvw⟩ with heq | ⟨hnan, -⟩
    · subst hvw
      rw [cypherEq_iff_agree hv hv, agree_self] at heq
      exact .inr heq
    · exact .inl hnan
  · rcases h.mp ⟨hentity, fun hnone => by rw [hnone] at hsome; cases hsome⟩ with heq | ⟨hnan, -⟩
    · exact (agree_of_entity ha hb hentity hsome).mp ((cypherEq_iff_agree hv hw).mp heq)
    · rw [entity_of_isNan ha hnan] at hsome
      cases hsome
  · cases hscalar : a.isScalar with
    | false => exact (sameId_of_bound hscalar ha w).1
    | true =>
      cases hscalar' : b.isScalar with
      | false => exact (sameId_of_bound hscalar' hb v).2
      | true =>
        obtain rfl := eq_scalar_of_isScalar hscalar ha
        obtain rfl := eq_scalar_of_isScalar hscalar' hb
        have hentity : entityOf v = entityOf w := (hequal hagree).1
        obtain ⟨e, he⟩ : ∃ e, entityOf v = some e := by
          rcases hsome with hsome | hsome
          · exact isSome_iff_exists.mp hsome
          · exact isSome_iff_exists.mp (hentity ▸ hsome)
        exact itemwise_sameId_of_entityOf he (hentity ▸ he)
  · -- One of the two is bound, and the other reads it from an equal value.
    have hread : entityOf v = entityOf w := by
      refine entityOf_of_agree hagree ?_
      cases hscalar : a.isScalar with
      | false => exact (sameId_of_bound hscalar ha w).1
      | true =>
        have hscalar' : b.isScalar = false := by
          rw [hscalar, ne_eq, eq_comm, Bool.not_eq_true] at hne
          exact hne
        exact (sameId_of_bound hscalar' hb v).2
    rw [shown_iff hwords ha, shown_iff hwords' hb]
    have hentity := (hequal hagree).1
    cases a with
    | scalar u =>
      obtain rfl := some.inj ha
      exact ⟨rfl, hread.symm.trans hentity⟩
    | _ =>
      cases b with
      | scalar u' =>
        obtain rfl := some.inj hb
        exact ⟨hread.trans hentity.symm, rfl⟩
      | _ => exact absurd rfl hne

end Settled

/-- Keys tell values apart as equality does exactly under the condition. -/
theorem forms_iff_settled (hwords : a.Words) (hwords' : b.Words) (ha : g.bindingValue a = some v)
    (hb : g.bindingValue b = some w) (hv : v.wellFormed = true) (hw : w.wellFormed = true) :
    ((bindingForm (some a) = bindingForm (some b)) ↔ Equivalent v w) ↔ Settled a b v w := by
  by_cases hnumbers : ∃ x y, v = .number x ∧ w = .number y
  · obtain ⟨x, y, rfl, rfl⟩ := hnumbers
    obtain rfl := eq_scalar_of_number ha
    obtain rfl := eq_scalar_of_number hb
    exact settled_numbers
  · have hnot : ∀ x y, v = .number x → w ≠ .number y := fun x y hx hy => hnumbers ⟨x, y, hx, hy⟩
    exact ⟨settled_of_forms_iff hwords hwords' ha hb hv hw hnot,
      forms_iff_of_settled hwords hwords' ha hb hv hw hnot⟩

end Condition

/-! ## Keys -/

/-- **Keys and equality.** The key of a binding tells it apart as equality does exactly where the
two values are settled, and the key of a row or a group shows the keys of its cells. -/
theorem keys_iff (ft : FloatTexts) :
    (∀ (g : Entities) (a b : GraphBinding) (v w : Json), a.Words → b.Words →
      g.bindingValue a = some v → g.bindingValue b = some w →
      v.wellFormed = true → w.wellFormed = true →
      (((canonicalBindingKey ft (some a) = canonicalBindingKey ft (some b)) ↔ Equivalent v w) ↔
        Settled a b v w)) ∧
    (∀ values values', canonicalRowKey ft values = canonicalRowKey ft values' ↔
      values.map (canonicalCellKey ft) = values'.map (canonicalCellKey ft)) ∧
    (∀ row row', starRowKey ft row = starRowKey ft row' ↔
      row.map (canonicalBindingKey ft) = row'.map (canonicalBindingKey ft)) ∧
    (∀ row row', row.length = row'.length → (distinctKey ft row = distinctKey ft row' ↔
      row.map (canonicalBindingKey ft) = row'.map (canonicalBindingKey ft))) ∧
    ∀ values values', values.length = values'.length →
      (groupKey ft values = groupKey ft values' ↔
        values.map (canonicalCellKey ft) = values'.map (canonicalCellKey ft)) := by
  refine ⟨fun g a b v w hwords hwords' ha hb hv hw => ?_, fun _ _ => canonicalRowKey_eq_iff,
    fun _ _ => starRowKey_eq_iff, fun _ _ => distinctKey_eq_iff, fun _ _ => groupKey_eq_iff⟩
  rw [canonicalBindingKey_eq_iff]
  exact forms_iff_settled hwords hwords' ha hb hv hw

/-- The only node, without properties. -/
def oneNode : Entities where
  nodeProps id := if id = 1 then some ⟨.object [], Json.wellFormed_empty⟩ else none
  edge _ := none

/-- The value of that node. -/
def wrappedNode : Json :=
  .object [("__type__", .string "__Node__"), ("id", .number (.posInt 1 F64.one_fits)),
    ("properties", .object [])]

/-- A node has the key of its wrapped form. -/
theorem keys_iff_node :
    canonicalBindingKey bitsTexts (some (.node 1)) =
      canonicalBindingKey bitsTexts (some (.scalar wrappedNode)) ↔
    Equivalent wrappedNode wrappedNode := by
  refine ((keys_iff bitsTexts).1 oneNode (.node 1) (.scalar wrappedNode) wrappedNode wrappedNode
    F64.one_fits trivial rfl rfl (by decide) (by decide)).mpr ⟨?_, ?_, ?_,
      ?_, ?_, ?_⟩
  · intro x y hx
    cases hx
  · intro h
    cases h
  · intro h
    cases h
  · intro _ _
    decide +kernel
  · intro _ _
    decide +kernel
  · intro _ _
    exact ⟨show 1 < 2 ^ 63 by decide, trivial⟩

/-- An integer ties with a double that rounds it, but has a key of its own. -/
theorem not_keys_iff_equivalent :
    ¬ ∀ (ft : FloatTexts) (g : Entities) (a b : GraphBinding) (v w : Json),
      g.bindingValue a = some v → g.bindingValue b = some w → v ≠ .null → w ≠ .null →
      v.wellFormed = true → w.wellFormed = true →
      (canonicalBindingKey ft (some a) = canonicalBindingKey ft (some b) ↔ Equivalent v w) := by
  intro h
  let odd : Json := .number (.posInt (2 ^ 53 + 1) (by decide))
  let double : Json := .number (.float ⟨false, 1076, 0, by decide, by decide⟩)
  have hiff := h bitsTexts oneNode (.scalar odd) (.scalar double) odd double rfl rfl
    (by decide) (by decide) (by decide) (by decide)
  have hequal : Equivalent odd double := .inl (by decide +kernel)
  have hkeys := hiff.mpr hequal
  rw [canonicalBindingKey_eq_iff] at hkeys
  exact absurd hkeys (by decide +kernel)

end IssunDB.Cypher
