import IssunDB.Lib.Table

/-!
# Dense indices

Entity ids to the slots of the arrays that hold their data, the inverse of the list of ids. The
property columns and the adjacency snapshot both use it.

* `DenseIndex.get_fromIds`: the index of a list of distinct ids inverts the list;
* `DenseIndex.indexes_push`: an id that is pushed gets the next slot.
-/

namespace IssunDB

open List Option

/-- Entity ids to slots, the inverse of the list of ids. Ids without gaps need no table. -/
inductive DenseIndex where
  | contiguous (first n : ℕ)
  | map (slots : Table ℕ ℕ)

namespace DenseIndex

/-- The slot of an id. -/
def get (index : DenseIndex) (id : ℕ) : Option ℕ :=
  match index with
  | contiguous first n => if first ≤ id ∧ id - first < n then some (id - first) else none
  | map slots => slots.get id

def tableOf (ids : List ℕ) : Table ℕ ℕ :=
  ids.zipIdx.foldl (fun slots e => slots.put e.1 e.2) .empty

def fromIds (ids : List ℕ) : DenseIndex :=
  let first := ids.head?.getD 0
  if ids.length < 2 ^ 32 ∧ ids = (List.range ids.length).map (first + ·) then
    contiguous first ids.length
  else map (tableOf ids)

/-- Give the next slot to an id. -/
def push (index : DenseIndex) (id : ℕ) : DenseIndex :=
  match index with
  | contiguous first n =>
    if first + n = id ∧ n < 2 ^ 32 - 1 then contiguous first (n + 1)
    else map ((tableOf ((List.range n).map (first + ·))).put id n)
  | map slots => map (slots.put id slots.keys.card)

/-- The index gives each id of the list its position. -/
def Indexes (index : DenseIndex) (ids : List ℕ) : Prop :=
  ids.Nodup ∧ ∀ id d, index.get id = some d ↔ ids[d]? = some id

lemma tableOf_concat (ids : List ℕ) (id : ℕ) :
    tableOf (ids ++ [id]) = (tableOf ids).put id ids.length := by
  simp [tableOf, zipIdx_append, foldl_append]

variable {ids : List ℕ}

lemma getElem?_concat {id id' d : ℕ} :
    (ids ++ [id])[d]? = some id' ↔ ids[d]? = some id' ∨ (d = ids.length ∧ id' = id) := by
  rcases Nat.lt_trichotomy d ids.length with hd | rfl | hd
  · rw [getElem?_append_left hd]
    exact (or_iff_left fun h => absurd h.1 (Nat.ne_of_lt hd)).symm
  · simp [eq_comm]
  · have hne : d ≠ ids.length := Nat.ne_of_gt hd
    rw [getElem?_eq_none (by simp; omega), getElem?_eq_none (by omega)]
    simp [hne]

lemma get_tableOf (hids : ids.Nodup) (id d : ℕ) :
    (tableOf ids).get id = some d ↔ ids[d]? = some id := by
  induction ids using List.reverseRecOn generalizing d with
  | nil => simp [tableOf]
  | append_singleton ids last ih =>
    obtain ⟨hnodup, -, hlast⟩ := nodup_append.mp hids
    have hnot : last ∉ ids := fun hmem => hlast last hmem last (mem_singleton_self _) rfl
    rw [tableOf_concat, Table.get_put, getElem?_concat]
    split
    next heq =>
      subst heq
      have hnone : ∀ d, ids[d]? ≠ some id := fun d hd => hnot (mem_of_getElem? hd)
      simp [hnone, eq_comm]
    next hne => simp [ih hnodup, hne]

lemma getElem?_range_eq_some {n d d' : ℕ} :
    (List.range n)[d]? = some d' ↔ d < n ∧ d = d' := by
  rw [List.getElem?_eq_some_iff]
  simp

lemma indexes_fromIds (hids : ids.Nodup) : (fromIds ids).Indexes ids := by
  refine ⟨hids, fun id d => ?_⟩
  unfold fromIds
  dsimp only
  split
  next h =>
    -- the ids are those from the first one on
    set first := ids.head?.getD 0
    rw [h.2]
    simp only [get, length_map, length_range, getElem?_map, map_eq_some_iff]
    constructor
    · intro heq
      split at heq
      next hle =>
        obtain rfl := some.inj heq
        exact ⟨id - first, by simp [hle.2], by omega⟩
      next => cases heq
    · rintro ⟨d', hd', rfl⟩
      obtain ⟨hlt, rfl⟩ : d < ids.length ∧ d = d' := by
        rw [getElem?_range_eq_some] at hd'
        exact hd'
      simp [hlt]
  next => exact get_tableOf hids id d

lemma Indexes.isSome_get {index : DenseIndex} (h : index.Indexes ids) (id : ℕ) :
    (index.get id).isSome ↔ id ∈ ids := by
  rw [isSome_iff_exists, mem_iff_getElem?]
  exact exists_congr fun d => h.2 id d

lemma indexes_push {index : DenseIndex} (h : index.Indexes ids) {id : ℕ} (hid : id ∉ ids) :
    (index.push id).Indexes (ids ++ [id]) := by
  have hnodup : (ids ++ [id]).Nodup := by
    refine h.1.append (nodup_singleton id) ?_
    intro id' hid' hmem
    exact hid (mem_singleton.mp hmem ▸ hid')
  have hnone : index.get id = none := by
    rw [← not_isSome_iff_eq_none, h.isSome_get]
    exact hid
  -- whatever the representation, the id goes to the next slot
  have hput : ∀ slots : Table ℕ ℕ, (∀ id', slots.get id' = index.get id') →
      ∀ id' d, (slots.put id ids.length).get id' = some d ↔ (ids ++ [id])[d]? = some id' := by
    intro slots hslots id' d
    rw [Table.get_put, getElem?_concat, ← h.2 id' d]
    split
    next heq => simp [heq, hnone, eq_comm]
    next hne => simp [hslots, hne]
  refine ⟨hnodup, ?_⟩
  cases index with
  | contiguous first n =>
    have hids : ids = (List.range n).map (first + ·) := by
      refine ext_getElem? fun d => Option.ext fun id' => ?_
      rw [← h.2 id' d]
      simp only [get, getElem?_map, map_eq_some_iff, getElem?_range_eq_some]
      constructor
      · intro heq
        split at heq
        next hle =>
          obtain rfl := some.inj heq
          exact ⟨_, ⟨hle.2, rfl⟩, by omega⟩
        next => cases heq
      · rintro ⟨d', ⟨hlt, rfl⟩, rfl⟩
        simp [hlt]
    have hlen : ids.length = n := by simp [hids]
    unfold push
    dsimp only
    split
    next hnext =>
      intro id' d
      rw [getElem?_concat, ← h.2 id' d, hlen]
      simp only [get]
      split <;> split <;> simp <;> omega
    next =>
      intro id' d
      have htable : ∀ id', (tableOf ((List.range n).map (first + ·))).get id' =
          (contiguous first n).get id' := by
        intro id'
        rw [← hids]
        refine Option.ext fun d => ?_
        rw [get_tableOf h.1, h.2]
      have := hput _ htable id' d
      rwa [hlen] at this
  | map slots =>
    have hcard : slots.keys.card = ids.length := by
      have hkeys : slots.keys = ids.toFinset := by
        ext id'
        rw [Table.mem_keys, List.mem_toFinset]
        exact h.isSome_get id'
      rw [hkeys, toFinset_card_of_nodup h.1]
    unfold push
    dsimp only
    rw [hcard]
    exact hput slots fun _ => rfl

lemma get_tableOf_of_mem (ids : List ℕ) (id : ℕ) :
    (∀ d, (tableOf ids).get id = some d → ids[d]? = some id) ∧
      (id ∈ ids → ((tableOf ids).get id).isSome) := by
  induction ids using List.reverseRecOn with
  | nil =>
    constructor
    · intro d hget
      cases hget
    · intro hmem
      cases hmem
  | append_singleton ids last ih =>
    rw [tableOf_concat]
    constructor
    · intro d hget
      rw [Table.get_put] at hget
      rw [getElem?_concat]
      split at hget
      next heq => exact Or.inr ⟨(some.inj hget).symm, heq⟩
      next => exact Or.inl (ih.1 d hget)
    · intro hmem
      rw [Table.get_put]
      split
      next => rfl
      next hne =>
        apply ih.2
        exact (mem_append.mp hmem).resolve_right fun h => hne (mem_singleton.mp h)

lemma get_fromIds_of_mem (ids : List ℕ) (id : ℕ) :
    (∀ d, (fromIds ids).get id = some d → ids[d]? = some id) ∧
      (id ∈ ids → ((fromIds ids).get id).isSome) := by
  by_cases hcontiguous : ids.length < 2 ^ 32 ∧
      ids = (List.range ids.length).map ((ids.head?.getD 0) + ·)
  · have hids : ids.Nodup := by
      rw [hcontiguous.2]
      exact nodup_range.map fun a b h => Nat.add_left_cancel h
    have h := indexes_fromIds hids
    exact ⟨fun d => (h.2 id d).mp, (h.isSome_get id).mpr⟩
  · rw [fromIds, if_neg hcontiguous]
    exact get_tableOf_of_mem ids id

lemma get_fromIds (hids : ids.Nodup) (id d : ℕ) :
    (fromIds ids).get id = some d ↔ ids[d]? = some id := (indexes_fromIds hids).2 id d

end DenseIndex

end IssunDB
