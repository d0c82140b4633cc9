import IssunDB.Lib.Table

/-!
# Keyed lists with slots

A list of keyed values in no particular order, with the position of each key. Replacing, appending
and removing take one step each: a removal moves the last entry into the place it leaves.

* `get_upsert`, `get_remove` — the operations do what those of a table do.
* `mem_entries_iff`, `nodup_entries` — the entries are the bindings, each once.
-/

/-- Keyed values with the position of each key. -/
structure Slots (K V : Type) [DecidableEq K] where
  entries : List (K × V)
  slot : Table K ℕ
  /-- The recorded positions are those of the entries. -/
  slot_iff : ∀ k i, slot.get k = some i ↔ ∃ v, entries[i]? = some (k, v)

namespace Slots

open List Option

variable {K V : Type} [DecidableEq K]

/-- No entry. -/
def empty : Slots K V where
  entries := []
  slot := .empty
  slot_iff := by simp

/-- The value of a key. -/
def get (s : Slots K V) (k : K) : Option V :=
  (s.slot.get k).bind fun i => (s.entries[i]?).map Prod.snd

variable {s : Slots K V} {k : K}

lemma getElem?_of_slot {i : ℕ} (h : s.slot.get k = some i) :
    ∃ v, s.entries[i]? = some (k, v) ∧ s.get k = some v := by
  obtain ⟨v, hv⟩ := (s.slot_iff k i).mp h
  refine ⟨v, hv, ?_⟩
  rw [get, h, bind_some, hv]
  rfl

lemma get_of_slot_none (h : s.slot.get k = none) : s.get k = none := by
  rw [get, h]
  rfl

/-- Two entries of one key are the same entry. -/
theorem index_unique {v v' : V} {i j : ℕ} (hi : s.entries[i]? = some (k, v))
    (hj : s.entries[j]? = some (k, v')) : i = j := by
  have hsi := (s.slot_iff k i).mpr ⟨v, hi⟩
  have hsj := (s.slot_iff k j).mpr ⟨v', hj⟩
  rw [hsi] at hsj
  exact some.inj hsj

lemma get_iff {v : V} :
    s.get k = some v ↔ ∃ i : ℕ, s.entries[i]? = some (k, v) := by
  constructor
  · intro h
    rcases hs : s.slot.get k with _ | i
    · rw [get_of_slot_none hs] at h
      cases h
    · obtain ⟨v', hv', hget⟩ := getElem?_of_slot hs
      rw [hget] at h
      obtain rfl := some.inj h
      exact ⟨i, hv'⟩
  · rintro ⟨i, hi⟩
    obtain ⟨v', hv', hget⟩ := getElem?_of_slot ((s.slot_iff k i).mpr ⟨v, hi⟩)
    rw [hi] at hv'
    cases hv'
    exact hget

theorem mem_entries_iff {v : V} :
    (k, v) ∈ s.entries ↔ s.get k = some v := by
  rw [get_iff, mem_iff_getElem?]

/-- What a search over the entries with a kept key lists. -/
theorem mem_map_filter {β : Type} {keep : K → Bool} {f : K × V → β} {b : β} :
    b ∈ (s.entries.filter fun e => keep e.1).map f ↔
      ∃ k v, s.get k = some v ∧ keep k ∧ b = f (k, v) := by
  rw [List.mem_map]
  constructor
  · rintro ⟨⟨k, v⟩, hmem, rfl⟩
    obtain ⟨hentry, hkeep⟩ := mem_filter.mp hmem
    exact ⟨k, v, mem_entries_iff.mp hentry, hkeep, rfl⟩
  · rintro ⟨k, v, hget, hkeep, rfl⟩
    exact ⟨(k, v), mem_filter.mpr ⟨mem_entries_iff.mpr hget, hkeep⟩, rfl⟩

lemma nodup_keys (s : Slots K V) : (s.entries.map Prod.fst).Nodup := by
  rw [nodup_iff_injective_get]
  intro i j h
  simp only [get_eq_getElem, getElem_map] at h
  have hi : (i : ℕ) < s.entries.length := by simpa using i.isLt
  have hj : (j : ℕ) < s.entries.length := by simpa using j.isLt
  apply Fin.ext
  have hgi : s.entries[(i : ℕ)]? = some (s.entries[(i : ℕ)].1, s.entries[(i : ℕ)].2) :=
    getElem?_eq_getElem hi
  have hgj : s.entries[(j : ℕ)]? = some (s.entries[(j : ℕ)].1, s.entries[(j : ℕ)].2) :=
    getElem?_eq_getElem hj
  rw [← h] at hgj
  exact index_unique hgi hgj

theorem nodup_entries (s : Slots K V) : s.entries.Nodup := s.nodup_keys.of_map _

/-! ## Replacing and appending -/

/-- Replace the value of a key, or append it. -/
def upsert (s : Slots K V) (k : K) (v : V) : Slots K V :=
  match h : s.slot.get k with
  | some i =>
    { entries := s.entries.set i (k, v)
      slot := s.slot
      slot_iff := by
        intro k' j
        obtain ⟨v₀, hv₀, -⟩ := getElem?_of_slot h
        have hi : i < s.entries.length := (List.getElem?_eq_some_iff.mp hv₀).1
        rw [s.slot_iff, getElem?_set]
        by_cases hj : i = j
        · subst hj
          rw [if_pos rfl, if_pos hi, hv₀]
          simp only [some.injEq, Prod.mk.injEq, exists_and_left, exists_eq', and_true]
        · rw [if_neg hj] }
  | none =>
    { entries := s.entries ++ [(k, v)]
      slot := s.slot.put k s.entries.length
      slot_iff := by
        intro k' j
        have hnew : ∀ (j : ℕ) v', s.entries[j]? ≠ some (k, v') := by
          intro j v' hj
          rw [(s.slot_iff k j).mpr ⟨v', hj⟩] at h
          cases h
        rw [Table.get_put, getElem?_append]
        by_cases hk : k' = k
        · subst hk
          rw [if_pos rfl]
          split
          · rename_i hj
            constructor
            · rintro heq
              have := some.inj heq
              omega
            · rintro ⟨v', hv'⟩
              exact absurd hv' (hnew j v')
          · rename_i hj
            rw [getElem?_singleton]
            constructor
            · rintro heq
              obtain rfl := some.inj heq
              exact ⟨v, by simp⟩
            · rintro ⟨v', hv'⟩
              split at hv'
              · congr 1
                omega
              · cases hv'
        · rw [if_neg hk, s.slot_iff]
          split
          · rfl
          · rename_i hj
            rw [getElem?_eq_none (by omega), getElem?_singleton]
            constructor
            · rintro ⟨v', hv'⟩
              cases hv'
            · rintro ⟨v', hv'⟩
              split at hv'
              · cases hv'
                exact absurd rfl hk
              · cases hv' }

theorem get_upsert (s : Slots K V) (k k' : K) (v : V) :
    (s.upsert k v).get k' = if k' = k then some v else s.get k' := by
  ext v'
  rw [← mem_entries_iff]
  unfold upsert
  split
  · rename_i i h
    obtain ⟨v₀, hv₀, -⟩ := getElem?_of_slot h
    have hi : i < s.entries.length := (List.getElem?_eq_some_iff.mp hv₀).1
    show (k', v') ∈ s.entries.set i (k, v) ↔ _
    rw [mem_iff_getElem?]
    split
    · rename_i hk
      subst hk
      constructor
      · rintro ⟨j, hj⟩
        by_cases hij : i = j
        · subst hij
          rw [getElem?_set_self hi] at hj
          cases hj
          rfl
        · rw [getElem?_set_ne hij] at hj
          exact absurd (index_unique hv₀ hj) hij
      · rintro heq
        cases heq
        exact ⟨i, by rw [getElem?_set_self hi]⟩
    · rename_i hk
      rw [get_iff]
      apply exists_congr
      intro j
      by_cases hij : i = j
      · subst hij
        rw [getElem?_set_self hi, hv₀]
        simp [Ne.symm hk]
      · rw [getElem?_set_ne hij]
  · rename_i h
    show (k', v') ∈ s.entries ++ [(k, v)] ↔ _
    rw [mem_append, mem_entries_iff, mem_singleton, Prod.mk.injEq]
    split
    · rename_i hk
      subst hk
      rw [get_of_slot_none h]
      simp [eq_comm]
    · rename_i hk
      simp [hk]

/-! ## Removing -/

/-- Remove the entry at a position by moving the last one there. -/
def swapRemove {α : Type} (l : List α) (i : ℕ) : List α :=
  match l.getLast? with
  | some last => (l.set i last).dropLast
  | none => []

lemma getElem?_swapRemove {α : Type} {l : List α} {i : ℕ} (hi : i < l.length) (j : ℕ) :
    (swapRemove l i)[j]? =
      if j < l.length - 1 then (if j = i then l[l.length - 1]? else l[j]?) else none := by
  unfold swapRemove
  rw [getLast?_eq_getElem?]
  have hlast : l.length - 1 < l.length := by omega
  rw [getElem?_eq_getElem hlast]
  dsimp only
  rw [getElem?_dropLast, List.length_set]
  split
  · rw [getElem?_set]
    by_cases hj : j = i
    · rw [if_pos hj.symm, if_pos hi, if_pos hj]
    · rw [if_neg (Ne.symm hj), if_neg hj]
  · rfl

/-- The positions after the entry at `i` is removed. -/
def removeSlot (s : Slots K V) (k : K) (i : ℕ) : Table K ℕ :=
  -- The entry that moved, unless the last one was removed.
  if i = s.entries.length - 1 then s.slot.erase k
  else match (swapRemove s.entries i)[i]? with
    | some moved => (s.slot.erase k).put moved.1 i
    | none => s.slot.erase k

lemma removeSlot_iff {i : ℕ} (h : s.slot.get k = some i) (k' : K) (j : ℕ) :
    (s.removeSlot k i).get k' = some j ↔ ∃ v, (swapRemove s.entries i)[j]? = some (k', v) := by
  obtain ⟨v₀, hv₀, -⟩ := getElem?_of_slot h
  have hi : i < s.entries.length := (List.getElem?_eq_some_iff.mp hv₀).1
  have hlt : ∀ {j : ℕ} {x : K × V}, s.entries[j]? = some x → j < s.entries.length :=
    fun hj => (List.getElem?_eq_some_iff.mp hj).1
  rw [getElem?_swapRemove hi]
  unfold removeSlot
  split
  · rename_i hlast
    rw [Table.get_erase]
    by_cases hk : k' = k
    · subst hk
      simp only [if_true, reduceCtorEq, false_iff, not_exists]
      intro v hv
      split at hv
      · rename_i hj
        rw [if_neg (by omega)] at hv
        have := index_unique hv₀ hv
        omega
      · cases hv
    · rw [if_neg hk, s.slot_iff]
      apply exists_congr
      intro v
      by_cases hj : j < s.entries.length - 1
      · rw [if_pos hj, if_neg (by omega)]
      · rw [if_neg hj]
        simp only [reduceCtorEq, iff_false]
        intro hv
        have := hlt hv
        obtain rfl : j = i := by omega
        rw [hv₀] at hv
        cases hv
        exact hk rfl
  · rename_i hlast
    have hi' : i < s.entries.length - 1 := by omega
    rw [getElem?_swapRemove hi, if_pos hi', if_pos rfl]
    have hmoved : s.entries.length - 1 < s.entries.length := by omega
    rcases hm : s.entries[s.entries.length - 1]? with _ | ⟨m, vm⟩
    · rw [getElem?_eq_getElem hmoved] at hm
      cases hm
    have hmk : m ≠ k := by
      rintro rfl
      have := index_unique hv₀ hm
      omega
    dsimp only
    rw [Table.get_put, Table.get_erase]
    by_cases hk : k' = m
    · subst hk
      rw [if_pos rfl]
      constructor
      · intro heq
        obtain rfl := some.inj heq
        exact ⟨vm, by rw [if_pos hi', if_pos rfl]⟩
      · rintro ⟨v, hv⟩
        split at hv
        · rename_i hj
          by_cases hji : j = i
          · rw [hji]
          · rw [if_neg hji] at hv
            have := index_unique hm hv
            omega
        · cases hv
    · rw [if_neg hk]
      by_cases hkk : k' = k
      · subst hkk
        simp only [if_true, reduceCtorEq, false_iff, not_exists]
        intro v hv
        split at hv
        · by_cases hji : j = i
          · rw [if_pos hji] at hv
            cases hv
            exact hk rfl
          · rw [if_neg hji] at hv
            exact hji (index_unique hv hv₀)
        · cases hv
      · rw [if_neg hkk, s.slot_iff]
        apply exists_congr
        intro v
        by_cases hji : j = i
        · subst hji
          rw [if_pos hi', if_pos rfl, hv₀]
          simp [Ne.symm hk, Ne.symm hkk]
        · rw [if_neg hji]
          by_cases hj : j < s.entries.length - 1
          · rw [if_pos hj]
          · rw [if_neg hj]
            simp only [reduceCtorEq, iff_false]
            intro hv
            have := hlt hv
            obtain rfl : j = s.entries.length - 1 := by omega
            rw [hm] at hv
            cases hv
            exact hk rfl

def remove (s : Slots K V) (k : K) : Slots K V :=
  match h : s.slot.get k with
  | none => s
  | some i =>
    { entries := swapRemove s.entries i
      slot := s.removeSlot k i
      slot_iff := removeSlot_iff h }

theorem get_remove (s : Slots K V) (k k' : K) :
    (s.remove k).get k' = if k' = k then none else s.get k' := by
  unfold remove
  split
  · rename_i h
    split
    · rename_i hk
      rw [hk, get_of_slot_none h]
    · rfl
  · rename_i i h
    obtain ⟨v₀, hv₀, -⟩ := getElem?_of_slot h
    have hi : i < s.entries.length := (List.getElem?_eq_some_iff.mp hv₀).1
    ext v
    rw [get_iff]
    show (∃ j : ℕ, (swapRemove s.entries i)[j]? = some (k', v)) ↔ _
    simp only [getElem?_swapRemove hi]
    split
    · rename_i hk
      subst hk
      simp only [reduceCtorEq, iff_false, not_exists]
      intro j hv
      split at hv
      · by_cases hji : j = i
        · rw [if_pos hji] at hv
          have := index_unique hv₀ hv
          omega
        · rw [if_neg hji] at hv
          exact hji (index_unique hv hv₀)
      · cases hv
    · rename_i hk
      rw [get_iff]
      constructor
      · rintro ⟨j, hv⟩
        split at hv
        · by_cases hji : j = i
          · rw [if_pos hji] at hv
            exact ⟨_, hv⟩
          · rw [if_neg hji] at hv
            exact ⟨_, hv⟩
        · cases hv
      · rintro ⟨j, hv⟩
        have hj : j < s.entries.length := (List.getElem?_eq_some_iff.mp hv).1
        have hji : j ≠ i := by
          rintro rfl
          rw [hv₀] at hv
          cases hv
          exact hk rfl
        by_cases hlast : j = s.entries.length - 1
        · -- The last entry is found where the removed one was.
          refine ⟨i, ?_⟩
          rw [if_pos (by omega), if_pos rfl, ← hlast, hv]
        · refine ⟨j, ?_⟩
          rw [if_pos (by omega), if_neg hji, hv]

/-! ## Selections of entries -/

/-- Two lists with the same bindings under the selected keys have the same selected entries, in some
order. -/
theorem filter_entries_perm {s t : Slots K V} {p q : K → Bool}
    (h : ∀ k v, s.get k = some v ∧ p k ↔ t.get k = some v ∧ q k) :
    (s.entries.filter fun e => p e.1).Perm (t.entries.filter fun e => q e.1) := by
  rw [perm_ext_iff_of_nodup (s.nodup_entries.filter _) (t.nodup_entries.filter _)]
  rintro ⟨k, v⟩
  rw [mem_filter, mem_filter, mem_entries_iff, mem_entries_iff]
  exact h k v

lemma entries_eq_nil_iff : s.entries = [] ↔ ∀ k, s.get k = none := by
  constructor
  · intro h k
    rw [eq_none_iff_forall_ne_some]
    intro v hv
    rw [← mem_entries_iff, h] at hv
    cases hv
  · intro h
    rw [eq_nil_iff_forall_not_mem]
    rintro ⟨k, v⟩ hmem
    rw [mem_entries_iff, h] at hmem
    cases hmem

end Slots
