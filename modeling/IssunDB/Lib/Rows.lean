import Mathlib

/-!
# Rows packed into one list

A table of rows is stored as the concatenation of its rows together with the offsets at which the
rows start, so that row `i` is what lies between offsets `i` and `i + 1`.

## Main results

* `rowAt_offsets`: the packed rows are read back;
* `offsets_tally_pushRows`: counting the pushes of each row gives the offsets of the rows;
* `rewriteRows_flatten`: rewriting the rows in place, one after another, rewrites the table;
* `scatter_eq`: the counting sort that places each item at the cursor of its key lists the items
  by key, those of one key in their order.
-/

variable {α : Type*}

/-- The offsets at which runs of the given lengths start, and the end of the last run. -/
def offsets (counts : List ℕ) : List ℕ := counts.scanl (· + ·) 0

@[simp]
lemma length_offsets (counts : List ℕ) : (offsets counts).length = counts.length + 1 := by
  simp [offsets]

variable {i : ℕ} {rows : List (List α)} {n : ℕ} {items : List (ℕ × α)}

lemma getD_offsets {counts : List ℕ} (h : i ≤ counts.length) :
    (offsets counts).getD i 0 = (counts.take i).sum := by
  have hlt : i < (offsets counts).length := by
    rw [length_offsets]
    omega
  rw [List.getD_eq_getElem _ _ hlt]
  simp only [offsets, List.getElem_scanl]
  rw [List.sum_eq_foldl]

lemma getD_offsets_of_lt {counts : List ℕ} (h : counts.length < i) :
    (offsets counts).getD i 0 = 0 := by
  rw [List.getD_eq_default]
  rw [length_offsets]
  omega

/-- The elements from position `ptr[i]` up to `ptr[i + 1]`. -/
def rowAt (ptr : List ℕ) (l : List α) (i : ℕ) : List α :=
  l.extract (ptr.getD i 0) (ptr.getD (i + 1) 0)

def rowOffsets (rows : List (List α)) : List ℕ := offsets (rows.map List.length)

lemma getD_rowOffsets (h : i ≤ rows.length) :
    (rowOffsets rows).getD i 0 = (rows.take i).flatten.length := by
  rw [rowOffsets, getD_offsets (by simpa using h), ← List.map_take, ← List.length_flatten]

lemma rowOffsets_concat (rows : List (List α)) (row : List α) :
    rowOffsets (rows ++ [row]) = rowOffsets rows ++ [rows.flatten.length + row.length] := by
  rw [rowOffsets, offsets, List.map_append, List.scanl_append, List.length_flatten,
    List.sum_eq_foldl]
  rfl

theorem rowAt_offsets (rows : List (List α)) (i : ℕ) :
    rowAt (rowOffsets rows) rows.flatten i = rows.getD i [] := by
  rw [rowAt, List.extract_eq_take_drop]
  rcases lt_or_ge i rows.length with h | h
  · have hi : i ≤ (rows.map List.length).length := by
      rw [List.length_map]
      omega
    have hi' : i + 1 ≤ (rows.map List.length).length := by
      rw [List.length_map]
      omega
    rw [rowOffsets, getD_offsets hi, getD_offsets hi', List.getD_eq_getElem _ _ h, ← List.drop_take]
    exact List.drop_take_succ_flatten_eq_getElem rows i h
  · have hlt : (rows.map List.length).length < i + 1 := by
      rw [List.length_map]
      omega
    rw [List.getD_eq_default _ _ h, rowOffsets, getD_offsets_of_lt hlt]
    simp

lemma getElem?_flatten_rowOffsets {row : List α} (hrow : rows[i]? = some row) {o : ℕ}
    (ho : o < row.length) :
    rows.flatten[(rowOffsets rows).getD i 0 + o]? = row[o]? := by
  have hget : rows.getD i [] = row := by
    rw [List.getD_eq_getElem?_getD, hrow, Option.getD_some]
  have h := rowAt_offsets rows i
  rw [rowAt, List.extract_eq_take_drop, hget] at h
  have hlen : o < (rowOffsets rows).getD (i + 1) 0 - (rowOffsets rows).getD i 0 := by
    apply lt_of_lt_of_le ho
    rw [← h, List.length_take]
    exact min_le_left _ _
  conv_rhs => rw [← h]
  rw [List.getElem?_take_of_lt hlen, List.getElem?_drop]

/-! ## Rewriting rows in place -/

/-- The list with the elements from `start` on overwritten. -/
def overwrite (l : List α) (start : ℕ) (row : List α) : List α :=
  l.take start ++ row ++ l.drop (start + row.length)

lemma overwrite_append {before row row' after : List α} (h : row'.length = row.length) :
    overwrite (before ++ row ++ after) before.length row' = before ++ row' ++ after := by
  rw [overwrite, h]
  congr 1
  · rw [List.append_assoc, List.take_left]
  · rw [← List.length_append, List.drop_left]

/-- Overwrite each row by its image, one after another. -/
def rewriteRows (f : List α → List α) (ptr : List ℕ) (n : ℕ) (l : List α) : List α :=
  (List.range n).foldl (fun l i => overwrite l (ptr.getD i 0) (f (rowAt ptr l i))) l

lemma rewriteRows_succ (f : List α → List α) (ptr : List ℕ) (n : ℕ) (l : List α) :
    rewriteRows f ptr (n + 1) l =
      overwrite (rewriteRows f ptr n l) (ptr.getD n 0)
      (f (rowAt ptr (rewriteRows f ptr n l) n)) := by
  rw [rewriteRows, List.range_succ, List.foldl_append]
  rfl

theorem rewriteRows_flatten {f : List α → List α} (hf : ∀ row, (f row).length = row.length)
    (rows : List (List α)) :
    rewriteRows f (rowOffsets rows) rows.length rows.flatten = (rows.map f).flatten := by
  -- After `k` steps the first `k` rows are rewritten.
  have hrun : ∀ k ≤ rows.length, rewriteRows f (rowOffsets rows) k rows.flatten =
      ((rows.take k).map f ++ rows.drop k).flatten := by
    intro k hk
    induction k with
    | zero => simp [rewriteRows]
    | succ k ih =>
      have hlt : k < rows.length := hk
      have hlen : (((rows.take k).map f).flatten).length = (rows.take k).flatten.length := by
        rw [List.length_flatten, List.length_flatten, List.map_map]
        congr 1
        exact List.map_congr_left fun row _ => hf row
      have hoffsets : rowOffsets rows = rowOffsets ((rows.take k).map f ++ rows.drop k) := by
        have hmap : ((rows.take k).map f).map List.length = (rows.take k).map List.length := by
          rw [List.map_map]
          exact List.map_congr_left fun row _ => hf row
        rw [rowOffsets, rowOffsets, List.map_append, hmap, ← List.map_append, List.take_append_drop]
      have hrow : rowAt (rowOffsets rows) (((rows.take k).map f ++ rows.drop k).flatten) k =
          rows[k] := by
        rw [hoffsets, rowAt_offsets, List.getD_append_right _ _ _ _ (by simp),
          List.length_map, List.length_take, min_eq_left hlt.le, Nat.sub_self,
          List.drop_eq_getElem_cons hlt]
        rfl
      rw [rewriteRows_succ, ih hlt.le, hrow, getD_rowOffsets hlt.le, List.drop_eq_getElem_cons hlt,
        List.flatten_append, List.flatten_cons, ← List.append_assoc, ← hlen,
        overwrite_append (hf _), List.take_succ_eq_append_getElem hlt]
      simp only [List.map_append, List.map_cons, List.map_nil, List.flatten_append,
        List.flatten_cons, List.flatten_nil, List.append_nil, List.append_assoc]
  have h := hrun rows.length le_rfl
  simpa using h

/-! ## Counting sort -/

/-- How often each key below `n` occurs, counted one by one. -/
def tally (n : ℕ) (keys : List ℕ) : List ℕ :=
  keys.foldl (fun counts k => counts.modify k (· + 1)) (List.replicate n 0)

lemma tally_eq (n : ℕ) (keys : List ℕ) : tally n keys = (List.range n).map (keys.count ·) := by
  have hrun : ∀ counts : List ℕ, keys.foldl (fun counts k => counts.modify k (· + 1)) counts =
      counts.mapIdx fun k c => c + keys.count k := by
    induction keys with
    | nil =>
      intro counts
      apply List.ext_getElem <;> simp
    | cons key keys ih =>
      intro counts
      rw [List.foldl_cons, ih]
      apply List.ext_getElem (by simp)
      intro k h₁ h₂
      rw [List.getElem_mapIdx, List.getElem_mapIdx, List.getElem_modify, List.count_cons]
      by_cases hk : key = k
      · simp [hk]
        omega
      · simp [hk]
  rw [tally, hrun]
  apply List.ext_getElem (by simp)
  intro k h₁ h₂
  simp

/-- Place each item at the cursor of its key and move the cursor on. -/
def scatter (items : List (ℕ × α)) (cursor : List ℕ) (out : List α) : List ℕ × List α :=
  items.foldl (fun s item => (s.1.modify item.1 (· + 1), s.2.set (s.1.getD item.1 0) item.2))
    (cursor, out)

/-- The blocks of the keys below `n`, in order. -/
private def blocks (n : ℕ) (block : ℕ → List α) : List α := (List.range n).flatMap block

private lemma blocks_congr {block block' : ℕ → List α} (h : ∀ k < n, block k = block' k) :
    blocks n block = blocks n block' := by
  apply List.flatMap_congr
  intro k hk
  exact h k (List.mem_range.mp hk)

/-- Setting a slot of one block leaves the others. -/
private theorem set_blocks {n key : ℕ} (hkey : key < n) {block : ℕ → List α} {placed free : List α}
    {x : α} (hblock : block key = placed ++ x :: free) (a : α) :
    (blocks n block).set ((blocks key block).length + placed.length) a =
      blocks n (Function.update block key (placed ++ a :: free)) := by
  have hsplit : List.range n = List.range key ++ key :: List.range' (key + 1) (n - key - 1) := by
    have happend := List.range'_append_1 (s := 0) (m := key) (n := n - key)
    rw [Nat.zero_add, Nat.add_sub_cancel' hkey.le] at happend
    rw [List.range_eq_range', List.range_eq_range', ← happend, ← List.range'_succ]
    congr 2
    omega
  have hbefore : (List.range key).flatMap (Function.update block key (placed ++ a :: free)) =
      (List.range key).flatMap block := by
    apply List.flatMap_congr
    intro k hk
    rw [Function.update_of_ne (List.mem_range.mp hk).ne]
  have hafter : (List.range' (key + 1) (n - key - 1)).flatMap
      (Function.update block key (placed ++ a :: free)) =
        (List.range' (key + 1) (n - key - 1)).flatMap block := by
    apply List.flatMap_congr
    intro k hk
    have hlt := (List.mem_range'_1.mp hk).1
    rw [Function.update_of_ne (by omega)]
  rw [blocks, blocks, blocks, hsplit, List.flatMap_append, List.flatMap_append, List.flatMap_cons,
    List.flatMap_cons, hbefore, hafter, Function.update_self, hblock]
  simp

/-- While items are placed, every block holds what was placed and as many free slots as items of
its key are left. -/
private theorem scatter_blocks (hkeys : ∀ p ∈ items, p.1 < n) {placed free : ℕ → List α}
    {cursor : List ℕ} (hlen : n ≤ cursor.length)
    (hfree : ∀ k < n, (free k).length = (items.map Prod.fst).count k)
    (hcursor : ∀ k < n, cursor.getD k 0 = (blocks k fun j => placed j ++ free j).length +
        (placed k).length) :
    (scatter items cursor (blocks n fun k => placed k ++ free k)).2 =
      blocks n fun k => placed k ++ (items.filter (·.1 = k)).map Prod.snd := by
  induction items generalizing placed free cursor with
  | nil =>
    apply blocks_congr
    intro k hk
    rw [List.length_eq_zero_iff.mp (hfree k hk)]
    simp
  | cons item items ih =>
    obtain ⟨key, a⟩ := item
    have hkey : key < n := hkeys _ (List.mem_cons_self)
    have hpos : 0 < (free key).length := by
      rw [hfree key hkey]
      simp
    obtain ⟨x, rest, hrest⟩ := List.exists_cons_of_length_pos hpos
    -- The block of the key gains the item and loses a free slot.
    have hset : (blocks n fun k => placed k ++ free k).set (cursor.getD key 0) a =
        blocks n fun k => Function.update placed key (placed key ++ [a]) k ++
          Function.update free key rest k := by
      rw [hcursor key hkey, set_blocks hkey (by rw [hrest])]
      apply blocks_congr
      intro k hk
      by_cases hkk : k = key
      · subst hkk
        simp
      · simp [Function.update_of_ne hkk]
    have hstep : scatter ((key, a) :: items) cursor (blocks n fun k => placed k ++ free k) =
        scatter items (cursor.modify key (· + 1))
          ((blocks n fun k => placed k ++ free k).set (cursor.getD key 0) a) := rfl
    have hsize : ∀ k, (Function.update placed key (placed key ++ [a]) k ++
        Function.update free key rest k).length = (placed k ++ free k).length := by
      intro k
      by_cases hkk : k = key
      · subst hkk
        simp [hrest]
      · simp [Function.update_of_ne hkk]
    have hblocks : ∀ k, (blocks k fun j => Function.update placed key (placed key ++ [a]) j ++
        Function.update free key rest j).length =
        (blocks k fun j => placed j ++ free j).length := by
      intro k
      rw [blocks, blocks, List.length_flatMap, List.length_flatMap]
      congr 1
      exact List.map_congr_left fun j _ => hsize j
    rw [hstep, hset, ih (fun p hp => hkeys p (List.mem_cons_of_mem _ hp)) (by simpa using hlen)]
    · apply blocks_congr
      intro k hk
      by_cases hkk : k = key
      · subst hkk
        simp
      · simp [Function.update_of_ne hkk, Ne.symm hkk]
    · intro k hk
      have h := hfree k hk
      by_cases hkk : k = key
      · subst hkk
        simp [hrest] at h ⊢
        omega
      · simpa [Function.update_of_ne hkk, Ne.symm hkk] using h
    · intro k hk
      have hlt : k < cursor.length := by omega
      have h := hcursor k hk
      rw [List.getD_eq_getElem _ _ hlt] at h
      rw [hblocks, List.getD_eq_getElem _ _ (by simpa using hlt), List.getElem_modify, h]
      by_cases hkk : k = key
      · subst hkk
        simp
        omega
      · simp [Function.update_of_ne hkk, Ne.symm hkk]

private lemma blocks_replicate (n : ℕ) (count : ℕ → ℕ) (x : α) :
    blocks n (fun k => List.replicate (count k) x) =
      List.replicate ((List.range n).map count).sum x := by
  induction n with
  | zero => rfl
  | succ n ih =>
    rw [blocks, List.range_succ, List.flatMap_append, ← blocks, ih]
    simp [List.replicate_append_replicate]

/-- The keys below `n` are counted once each. -/
theorem sum_count {keys : List ℕ} (hkeys : ∀ k ∈ keys, k < n) :
    ((List.range n).map (keys.count ·)).sum = keys.length := by
  have h : ∑ k ∈ Finset.range n, (keys : Multiset ℕ).count k = (keys : Multiset ℕ).card :=
    Multiset.sum_count_eq_card (by simpa using hkeys)
  have hsum : ∑ k ∈ Finset.range n, (keys : Multiset ℕ).count k =
      ((List.range n).map (keys.count ·)).sum := by
    simp [Finset.sum, Finset.range, Multiset.range]
  rw [← hsum, h, Multiset.coe_card]

/-- The counting sort lists the items by key, those of one key in their order. -/
theorem scatter_eq (hkeys : ∀ p ∈ items, p.1 < n) (x : α) :
    (scatter items (offsets (tally n (items.map Prod.fst)))
      (List.replicate items.length x)).2 =
      (List.range n).flatMap fun k => (items.filter (·.1 = k)).map Prod.snd := by
  have hkeys' : ∀ k ∈ items.map Prod.fst, k < n := by
    intro k hk
    obtain ⟨p, hp, rfl⟩ := List.mem_map.mp hk
    exact hkeys p hp
  have hcounts : ∀ k, blocks k (fun j => List.replicate ((items.map Prod.fst).count j) x) =
      List.replicate ((List.range k).map ((items.map Prod.fst).count ·)).sum x :=
    fun k => blocks_replicate k _ x
  have hout : List.replicate items.length x =
      blocks n fun k => [] ++ List.replicate ((items.map Prod.fst).count k) x := by
    simp only [List.nil_append]
    rw [hcounts, sum_count hkeys', List.length_map]
  rw [hout, scatter_blocks hkeys]
  · simp [blocks]
  · simp [tally_eq]
  · simp
  · intro k hk
    rw [tally_eq, getD_offsets (by simpa using hk.le), ← List.map_take, List.take_range,
      min_eq_left hk.le]
    simp [hcounts]

/-- The items of each key below `n`, in their order. -/
def keyedRows (n : ℕ) (items : List (ℕ × α)) : List (List α) :=
  (List.range n).map fun k => (items.filter (·.1 = k)).map Prod.snd

@[simp]
lemma length_keyedRows (n : ℕ) (items : List (ℕ × α)) : (keyedRows n items).length = n := by
  simp [keyedRows]

lemma getD_keyedRows {n k : ℕ} (h : k < n) (items : List (ℕ × α)) :
    (keyedRows n items).getD k [] = (items.filter (·.1 = k)).map Prod.snd := by
  rw [List.getD_eq_getElem?_getD, keyedRows, List.getElem?_map, List.getElem?_range h]
  rfl

lemma offsets_tally (n : ℕ) (items : List (ℕ × α)) :
    offsets (tally n (items.map Prod.fst)) = rowOffsets (keyedRows n items) := by
  rw [rowOffsets, tally_eq, keyedRows, List.map_map]
  congr 1
  apply List.map_congr_left
  intro k _
  rw [List.count, List.countP_map, Function.comp_apply, List.length_map,
    ← List.countP_eq_length_filter]
  rfl

lemma scatter_keyedRows (hkeys : ∀ p ∈ items, p.1 < n) (x : α) :
    (scatter items (rowOffsets (keyedRows n items)) (List.replicate items.length x)).2 =
      (keyedRows n items).flatten := by
  rw [← offsets_tally, scatter_eq hkeys, List.flatMap_def]
  rfl

lemma getD_rowOffsets_keyedRows (hkeys : ∀ p ∈ items, p.1 < n) :
    (rowOffsets (keyedRows n items)).getD n 0 = items.length := by
  have hkeys' : ∀ k ∈ items.map Prod.fst, k < n := by
    intro k hk
    obtain ⟨p, hp, rfl⟩ := List.mem_map.mp hk
    exact hkeys p hp
  have hlen : (tally n (items.map Prod.fst)).length = n := by simp [tally_eq]
  rw [← offsets_tally, getD_offsets hlen.ge, List.take_of_length_le hlen.le, tally_eq,
    sum_count hkeys', List.length_map]

/-! ## Pushing rows in order -/

def pushRows (rows : List (List α)) : List (ℕ × α) :=
  rows.zipIdx.flatMap fun p => p.1.map fun a => (p.2, a)

lemma pushRows_append (rows : List (List α)) (row : List α) :
    pushRows (rows ++ [row]) = pushRows rows ++ row.map fun a => (rows.length, a) := by
  simp [pushRows, List.zipIdx_append]

lemma pushRows_map_range (n : ℕ) (f : ℕ → List α) :
    pushRows ((List.range n).map f) = (List.range n).flatMap fun i => (f i).map fun a =>
    (i, a) := by
  induction n with
  | zero => rfl
  | succ n ih =>
    rw [List.range_succ, List.map_append, List.flatMap_append, List.map_singleton,
      List.flatMap_singleton, pushRows_append, ih, List.length_map, List.length_range]

@[simp]
lemma map_snd_pushRows (rows : List (List α)) : (pushRows rows).map Prod.snd = rows.flatten := by
  induction rows using List.reverseRecOn with
  | nil => rfl
  | append_singleton rows row ih =>
    rw [pushRows_append, List.map_append, ih]
    simp

lemma length_pushRows (rows : List (List α)) :
    (pushRows rows).length = rows.flatten.length := by
  rw [← map_snd_pushRows, List.length_map]

lemma fst_lt_of_mem_pushRows {p : ℕ × α} (h : p ∈ pushRows rows) :
    p.1 < rows.length := by
  obtain ⟨q, hq, hp⟩ := List.mem_flatMap.mp h
  obtain ⟨a, -, rfl⟩ := List.mem_map.mp hp
  exact (List.mem_zipIdx' hq).1

lemma filter_pushRows (rows : List (List α)) (i : ℕ) :
    (pushRows rows).filter (·.1 = i) = (rows.getD i []).map fun a => (i, a) := by
  induction rows using List.reverseRecOn with
  | nil => simp [pushRows]
  | append_singleton rows row ih =>
    rw [pushRows_append, List.filter_append, ih]
    rcases lt_trichotomy i rows.length with hlt | rfl | hgt
    · have hnone : (row.map fun a => (rows.length, a)).filter (·.1 = i) = [] := by
        rw [List.filter_eq_nil_iff]
        intro p hp
        obtain ⟨a, -, rfl⟩ := List.mem_map.mp hp
        simpa using hlt.ne'
      rw [hnone, List.append_nil, List.getD_append _ _ _ _ hlt]
    · have hall : (row.map fun a => (rows.length, a)).filter (·.1 = rows.length) =
          row.map fun a => (rows.length, a) := by
        rw [List.filter_eq_self]
        intro p hp
        obtain ⟨a, -, rfl⟩ := List.mem_map.mp hp
        simp
      rw [hall, List.getD_eq_default _ _ le_rfl, List.getD_append_right _ _ _ _ le_rfl]
      simp
    · have hnone : (row.map fun a => (rows.length, a)).filter (·.1 = i) = [] := by
        rw [List.filter_eq_nil_iff]
        intro p hp
        obtain ⟨a, -, rfl⟩ := List.mem_map.mp hp
        simpa using hgt.ne
      rw [hnone, List.getD_eq_default _ _ hgt.le, List.getD_eq_default]
      · rfl
      · rw [List.length_append]
        exact hgt

theorem offsets_tally_pushRows (rows : List (List α)) :
    offsets (tally rows.length ((pushRows rows).map Prod.fst)) = rowOffsets rows := by
  rw [rowOffsets, tally_eq]
  congr 1
  apply List.ext_getElem (by simp)
  intro i h₁ h₂
  have hi : i < rows.length := by simpa using h₂
  have hcount : ((pushRows rows).map Prod.fst).count i =
      ((pushRows rows).filter (·.1 = i)).length := by
    rw [List.count, List.countP_map, List.countP_eq_length_filter]
    rfl
  rw [List.getElem_map, List.getElem_map, List.getElem_range, hcount, filter_pushRows,
    List.length_map, List.getD_eq_getElem _ _ hi]

/-- Reading positions one by one lists the elements with their positions. -/
theorem filterMap_range' {β : Type*} (l : List α) (start len : ℕ) (f : ℕ → α → β) :
    (List.range' start len).filterMap (fun k => l[k]?.map (f k)) =
      (((l.drop start).take len).zipIdx start).map fun p => f p.2 p.1 := by
  induction len generalizing start with
  | zero => simp
  | succ len ih =>
    rw [List.range'_succ]
    rcases lt_or_ge start l.length with h | h
    · rw [List.filterMap_cons_some (b := f start l[start]) (by simp [h]), ih,
        List.drop_eq_getElem_cons h, List.take_succ_cons, List.zipIdx_cons, List.map_cons]
    · rw [List.filterMap_cons_none (by simp [h]), ih, List.drop_eq_nil_of_le h,
        List.drop_eq_nil_of_le (by omega)]
      simp

/-- Reading packed rows by position lists the pushes with their positions. -/
theorem flatMap_rows_zipIdx {β : Type*} (rows : List (List α)) (f : ℕ → ℕ → α → β) :
    ((List.range rows.length).flatMap fun i =>
      (List.range' ((rowOffsets rows).getD i 0)
        ((rowOffsets rows).getD (i + 1) 0 - (rowOffsets rows).getD i 0)).filterMap
          fun k => rows.flatten[k]?.map (f i k)) =
      (pushRows rows).zipIdx.map fun p => f p.1.1 p.2 p.1.2 := by
  have hrun : ∀ k ≤ rows.length, ((List.range k).flatMap fun i =>
      (List.range' ((rowOffsets rows).getD i 0)
        ((rowOffsets rows).getD (i + 1) 0 - (rowOffsets rows).getD i 0)).filterMap
          fun k => rows.flatten[k]?.map (f i k)) =
        (pushRows (rows.take k)).zipIdx.map fun p => f p.1.1 p.2 p.1.2 := by
    intro k hk
    induction k with
    | zero => simp [pushRows]
    | succ k ih =>
      have hlt : k < rows.length := hk
      have hrow : (rows.flatten.drop ((rowOffsets rows).getD k 0)).take
          ((rowOffsets rows).getD (k + 1) 0 - (rowOffsets rows).getD k 0) = rows[k] := by
        have h := rowAt_offsets rows k
        rwa [rowAt, List.extract_eq_take_drop, List.getD_eq_getElem _ _ hlt] at h
      rw [List.range_succ, List.flatMap_append, ih hlt.le, List.flatMap_singleton,
        filterMap_range', hrow, List.take_succ_eq_append_getElem hlt, pushRows_append,
        List.zipIdx_append, List.map_append, getD_rowOffsets hlt.le, length_pushRows,
        List.zipIdx_map, List.map_map]
      simp [min_eq_left hlt.le, Function.comp_def]
  have h := hrun rows.length le_rfl
  rwa [List.take_length] at h

/-! ## Filling slots by key -/

def fillSlot {γ : Type*} (values : List γ) : Option (ℕ × γ) → List γ
  | none => values
  | some (slot, value) => values.set slot value

/-- Filling the slots of all keys, in any order, gives every element the value of its key. -/
theorem foldl_fillSlot {κ γ : Type*} [DecidableEq κ] {l : List α} {key : α → κ}
    (hnodup : (l.map key).Nodup) {slot : κ → Option (ℕ × γ)} {value : κ → γ} {keys : List κ}
    (hslot : ∀ k ∈ keys, ∃ i a, slot k = some (i, value k) ∧ l[i]? = some a ∧ key a = k)
    (hkeys : ∀ a ∈ l, key a ∈ keys) (default : γ) :
    keys.foldl (fun values k => fillSlot values (slot k)) (List.replicate l.length default) =
      l.map fun a => value (key a) := by
  let filled (seen : List κ) : List γ :=
    l.map fun a => if key a ∈ seen then value (key a) else default
  -- After some keys, exactly the slots of these are filled.
  have hrun : ∀ ks seen : List κ, (∀ k ∈ ks, k ∈ keys) →
      ks.foldl (fun values k => fillSlot values (slot k)) (filled seen) = filled (seen ++ ks) := by
    intro ks
    induction ks with
    | nil => simp
    | cons k ks ih =>
      intro seen hks
      obtain ⟨i, a, hi, hat, rfl⟩ := hslot k (hks k List.mem_cons_self)
      obtain ⟨hlt, hia⟩ := List.getElem?_eq_some_iff.mp hat
      have hset : (filled seen).set i (value (key a)) = filled (seen ++ [key a]) := by
        apply List.ext_getElem (by simp [filled])
        intro j h₁ h₂
        have hj : j < l.length := by simpa [filled] using h₂
        rw [List.getElem_set, List.getElem_map, List.getElem_map]
        by_cases hij : i = j
        · subst hij
          simp [hia]
        · have hne : key l[j] ≠ key a := by
            intro heq
            apply hij
            have hi' : i < (l.map key).length := by simpa using hlt
            have hj' : j < (l.map key).length := by simpa using hj
            have hsame : (l.map key)[i] = (l.map key)[j] := by simp [hia, heq]
            exact hnodup.getElem_inj_iff.mp hsame
          simp [hij, hne]
      rw [List.foldl_cons, hi]
      show ks.foldl _ ((filled seen).set i (value (key a))) = _
      rw [hset, ih _ fun k' hk' => hks k' (List.mem_cons_of_mem _ hk')]
      simp
  have hstart : List.replicate l.length default = filled [] := by
    simp [filled, List.map_const']
  rw [hstart, hrun keys [] fun k hk => hk, List.nil_append]
  apply List.map_congr_left
  intro a ha
  rw [if_pos (hkeys a ha)]

/-! ## Orders and concatenations -/

/-- A list in the order `R` is in the order `Q` iff `Q` implies `R` on its elements. -/
theorem pairwise_iff_of_pairwise {α : Type*} {l : List α} {R Q : α → α → Prop}
    (h : l.Pairwise R) (hR : ∀ a b, R a b → ¬ R b a) (hQ : ∀ a b, Q a b → ¬ Q b a)
    (htotal : ∀ a ∈ l, ∀ b ∈ l, R a b → Q a b ∨ Q b a) :
    l.Pairwise Q ↔ ∀ a ∈ l, ∀ b ∈ l, Q a b → R a b := by
  constructor
  · intro hpairwise a ha b hb hab
    have hboth : l.Pairwise fun a b => (R a b ∧ Q a b) ∨ (R b a ∧ Q b a) :=
      h.imp₂ (fun _ _ h h' => Or.inl ⟨h, h'⟩) hpairwise
    have hsymm : Std.Symm fun a b => (R a b ∧ Q a b) ∨ (R b a ∧ Q b a) := ⟨fun _ _ => Or.symm⟩
    have hne : a ≠ b := by
      rintro rfl
      exact hQ a a hab hab
    rcases hboth.forall ha hb hne with h | h
    · exact h.1
    · exact absurd h.2 (hQ a b hab)
  · intro himp
    refine h.imp_of_mem ?_
    intro a b ha hb hab
    rcases htotal a ha b hb hab with hq | hq
    · exact hq
    · exact absurd (himp b hb a ha hq) (hR a b hab)

/-- Concatenations of lists of the same lengths are equal iff the lists are. -/
theorem flatMap_eq_iff {α β : Type*} {l : List α} {f g : α → List β}
    (h : ∀ a ∈ l, (f a).length = (g a).length) :
    l.flatMap f = l.flatMap g ↔ ∀ a ∈ l, f a = g a := by
  induction l with
  | nil => simp
  | cons a l ih =>
    rw [List.flatMap_cons, List.flatMap_cons, List.forall_mem_cons,
      ← ih fun b hb => h b (List.mem_cons_of_mem _ hb)]
    constructor
    · exact fun heq => List.append_inj heq (h a List.mem_cons_self)
    · rintro ⟨h₁, h₂⟩
      rw [h₁, h₂]
