import Mathlib

/-!
# Finite tables with ordered iteration

A key-value table of an ordered store: a partial function together with the finite set of the
keys it is defined on. Lookups and updates are pointwise, so the lemmas below are those of
`Function.update`; iteration walks the keys in ascending order, as a B-tree cursor does.

A duplicate table, several values under one key, is a `Finset` of pairs; `Finset.ascending`
lists a finite set in order. It equals Mathlib's `Finset.sort`, with insertion sort as the
algorithm so that closed terms reduce.
-/

namespace Finset

variable {α : Type*} [LinearOrder α]

def ascending (s : Finset α) : List α :=
  Quot.liftOn s.1 (List.insertionSort (· ≤ ·)) fun _ _ h =>
    List.Perm.eq_of_pairwise' (List.pairwise_insertionSort _ _) (List.pairwise_insertionSort _ _)
      (((List.perm_insertionSort _ _).trans h).trans (List.perm_insertionSort _ _).symm)

lemma ascending_eq_sort (s : Finset α) : s.ascending = s.sort := by
  obtain ⟨⟨l⟩, hl⟩ := s
  exact (List.mergeSort_eq_insertionSort (r := (· ≤ ·)) l).symm

@[simp]
lemma mem_ascending {s : Finset α} {a : α} : a ∈ s.ascending ↔ a ∈ s := by
  simp [ascending_eq_sort]

@[simp]
lemma length_ascending (s : Finset α) : s.ascending.length = s.card := by
  simp [ascending_eq_sort]

lemma ascending_nodup (s : Finset α) : s.ascending.Nodup := by
  simp [ascending_eq_sort]

lemma ascending_pairwise_lt (s : Finset α) : s.ascending.Pairwise (· < ·) := by
  rw [ascending_eq_sort]
  exact (sortedLT_sort s).pairwise

/-- A strictly increasing list is the ascending listing of its elements. -/
theorem ascending_eq_of_pairwise_lt {s : Finset α} {l : List α} (hl : l.Pairwise (· < ·))
    (hmem : ∀ a, a ∈ l ↔ a ∈ s) : s.ascending = l :=
  (List.Pairwise.eq_of_mem_iff s.ascending_pairwise_lt hl fun a => by simp [hmem])

/-- The values a set of pairs holds under one key. -/
def under {β : Type*} [DecidableEq β] (s : Finset (α × β)) (a : α) : Finset β :=
  (s.filter (·.1 = a)).image Prod.snd

@[simp]
lemma mem_under {β : Type*} [DecidableEq β] {s : Finset (α × β)} {a : α} {b : β} :
    b ∈ s.under a ↔ (a, b) ∈ s := by
  simp [under]

section Under

variable {β : Type*} [DecidableEq β] (s : Finset (α × β)) (a : α) (b : β)

lemma under_insert_self : (insert (a, b) s).under a = insert b (s.under a) := by
  ext b'
  simp

lemma under_insert_of_ne {a' : α} (h : a' ≠ a) : (insert (a, b) s).under a' = s.under a' := by
  ext b'
  simp [h]

lemma under_erase_self : (s.erase (a, b)).under a = (s.under a).erase b := by
  ext b'
  simp

lemma under_erase_of_ne {a' : α} (h : a' ≠ a) : (s.erase (a, b)).under a' = s.under a' := by
  ext b'
  simp [h]

end Under

end Finset

/-- A finite partial map: the value under each key and the set of keys that hold one. -/
structure Table (K V : Type) where
  /-- The value stored under a key. -/
  get : K → Option V
  /-- The keys that hold a value. -/
  keys : Finset K
  mem_keys : ∀ k, k ∈ keys ↔ (get k).isSome

namespace Table

open List Option

variable {K V : Type}

attribute [simp] Table.mem_keys

@[ext]
lemma ext {t u : Table K V} (h : ∀ k, t.get k = u.get k) : t = u := by
  obtain ⟨f, s, hs⟩ := t
  obtain ⟨g, r, hr⟩ := u
  obtain rfl : f = g := funext h
  obtain rfl : s = r := Finset.ext fun k => by rw [hs, hr]
  rfl

def empty : Table K V where
  get _ := none
  keys := ∅
  mem_keys k := by simp

instance : Inhabited (Table K V) := ⟨empty⟩

@[simp]
lemma get_empty (k : K) : (empty : Table K V).get k = none := rfl

section Update

variable [DecidableEq K]

/-- Store `v` under `k`, replacing what was there. -/
def put (t : Table K V) (k : K) (v : V) : Table K V where
  get k' := if k' = k then some v else t.get k'
  keys := insert k t.keys
  mem_keys k' := by by_cases h : k' = k <;> simp [h]

/-- Remove the entry under `k`. -/
def erase (t : Table K V) (k : K) : Table K V where
  get k' := if k' = k then none else t.get k'
  keys := t.keys.erase k
  mem_keys k' := by by_cases h : k' = k <;> simp [h]

lemma get_put (t : Table K V) (k k' : K) (v : V) :
    (t.put k v).get k' = if k' = k then some v else t.get k' := rfl

lemma get_erase (t : Table K V) (k k' : K) :
    (t.erase k).get k' = if k' = k then none else t.get k' := rfl

@[simp]
lemma get_put_self (t : Table K V) (k : K) (v : V) : (t.put k v).get k = some v := by
  simp [get_put]

@[simp]
lemma get_put_of_ne (t : Table K V) {k k' : K} (v : V) (h : k' ≠ k) :
    (t.put k v).get k' = t.get k' := by
  simp [get_put, h]

lemma isSome_get_put {t : Table K V} {k k' : K} {v : V} (h : (t.get k').isSome) :
    ((t.put k v).get k').isSome := by
  rw [get_put]
  split
  · rfl
  · exact h

@[simp]
lemma get_erase_self (t : Table K V) (k : K) : (t.erase k).get k = none := by
  simp [get_erase]

@[simp]
lemma get_erase_of_ne (t : Table K V) {k k' : K} (h : k' ≠ k) :
    (t.erase k).get k' = t.get k' := by
  simp [get_erase, h]

@[simp]
lemma keys_put (t : Table K V) (k : K) (v : V) : (t.put k v).keys = insert k t.keys := rfl

@[simp]
lemma keys_erase (t : Table K V) (k : K) : (t.erase k).keys = t.keys.erase k := rfl

lemma erase_of_get_none (t : Table K V) {k : K} (h : t.get k = none) : t.erase k = t := by
  ext1 k'
  by_cases hk : k' = k
  · subst hk; simp [h]
  · simp [hk]

end Update

/-- Folding over entries with distinct keys updates the value of each of them once. -/
theorem get_foldl_put [DecidableEq K] {W : Type} (f : W → Option V → V) {l : List (K × W)}
    (hl : (l.map Prod.fst).Nodup) (t : Table K V) (k : K) :
    (∀ w, (k, w) ∈ l → (l.foldl (fun t e => t.put e.1 (f e.2 (t.get e.1))) t).get k =
      some (f w (t.get k))) ∧
    (k ∉ l.map Prod.fst → (l.foldl (fun t e => t.put e.1 (f e.2 (t.get e.1))) t).get k =
    t.get k) := by
  induction l generalizing t with
  | nil => simp
  | cons e l ih =>
    obtain ⟨k', w'⟩ := e
    obtain ⟨hnot, hl⟩ := nodup_cons.mp hl
    obtain ⟨hmem, hout⟩ := ih hl (t.put k' (f w' (t.get k')))
    refine ⟨fun w hw => ?_, fun hk => ?_⟩
    · rw [foldl_cons]
      rcases mem_cons.mp hw with heq | hin
      · obtain ⟨rfl, rfl⟩ := Prod.mk.injEq .. ▸ heq
        rw [hout hnot, get_put_self]
      · have hne : k ≠ k' := by
          rintro rfl
          exact hnot (List.mem_map.mpr ⟨(k, w), hin, rfl⟩)
        rw [hmem w hin, get_put_of_ne _ _ hne]
    · rw [map_cons, mem_cons, not_or] at hk
      rw [foldl_cons, hout hk.2, get_put_of_ne _ _ hk.1]

/-- Apply a function to every value. -/
def map {W : Type} (f : V → W) (t : Table K V) : Table K W where
  get k := (t.get k).map f
  keys := t.keys
  mem_keys k := by simp

@[simp]
lemma get_map {W : Type} (f : V → W) (t : Table K V) (k : K) :
    (t.map f).get k = (t.get k).map f := rfl

/-- Remove every entry whose key satisfies `P`. -/
def eraseIf (t : Table K V) (P : K → Prop) [DecidablePred P] : Table K V where
  get k := if P k then none else t.get k
  keys := t.keys.filter (¬P ·)
  mem_keys k := by
    by_cases h : P k
    · simp [h]
    · simp [h]

lemma get_eraseIf (t : Table K V) (P : K → Prop) [DecidablePred P] (k : K) :
    (t.eraseIf P).get k = if P k then none else t.get k := rfl

/-- Table equality is decided on the keys. -/
instance [DecidableEq K] [DecidableEq V] : DecidableEq (Table K V) := fun t u =>
  decidable_of_iff (t.keys = u.keys ∧ ∀ k ∈ t.keys, t.get k = u.get k) (by
    constructor
    · rintro ⟨hkeys, hget⟩
      ext1 k
      by_cases hk : k ∈ t.keys
      · exact hget k hk
      · have hk' : k ∉ u.keys := hkeys ▸ hk
        simp only [mem_keys, Bool.not_eq_true, isSome_eq_false_iff,
          isNone_iff_eq_none] at hk hk'
        rw [hk, hk']
    · rintro rfl
      exact ⟨rfl, fun _ _ => rfl⟩)

section Iterate

variable [LinearOrder K]

/-- The entries in ascending key order. -/
def toList (t : Table K V) : List (K × V) :=
  t.keys.ascending.filterMap fun k => (t.get k).map (k, ·)

@[simp]
lemma mem_toList {t : Table K V} {k : K} {v : V} : (k, v) ∈ t.toList ↔ t.get k = some v := by
  simp only [toList, mem_filterMap, Finset.mem_ascending, mem_keys, map_eq_some_iff,
    Prod.mk.injEq]
  constructor
  · rintro ⟨k', -, v', hv, rfl, rfl⟩
    exact hv
  · intro h
    exact ⟨k, by simp [h], v, h, rfl, rfl⟩

lemma map_fst_toList (t : Table K V) : t.toList.map Prod.fst = t.keys.ascending := by
  rw [toList, map_filterMap]
  refine (filterMap_congr (g := some) fun k hk => ?_).trans (filterMap_some)
  obtain ⟨v, hv⟩ := isSome_iff_exists.mp ((t.mem_keys k).mp (Finset.mem_ascending.mp hk))
  simp [hv]

end Iterate

end Table
