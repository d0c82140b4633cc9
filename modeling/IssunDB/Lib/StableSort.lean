import IssunDB.Lib.Sorting

/-!
# Stable sorts of few values and of filtered lists

* `stableSort_filter` — sorting what passes a test is sorting everything and then testing;
* `take_stableSort_filter` — where the values that pass come before all others, the first of them
  are the first of all;
* `stableSort_pair`, `stableSort_three`, `stableSort_four` — a few values, by any comparator;
* `topN_one` — a buffer for one value keeps the best value so far.
-/

section StableSort

variable {α : Type*} {cmp : α → α → Ordering} {T : Set α} {l : List α}

/-! ## Filtering -/

/-- Decorations that grow along the list break ties as the places do. -/
theorem stableSort_decorated (h : ComparesOn cmp T) {z : List (α × ℕ)} (hz : ∀ p ∈ z, p.1 ∈ T)
    (hgrow : z.Pairwise fun p q => p.2 < q.2) :
    (stableSort (fun a b => (cmp a.1 b.1).then (compare a.2 b.2)) z).map Prod.fst =
      stableSort cmp (z.map Prod.fst) := by
  let order := fun a b : α × ℕ => (cmp a.1 b.1).then (compare a.2 b.2)
  let byPlace := fun a b : (α × ℕ) × ℕ => (cmp a.1.1 b.1.1).then (compare a.2 b.2)
  have hsame : ∀ a ∈ z.zipIdx, ∀ b ∈ z.zipIdx, (byPlace a b).isLE = (order a.1 b.1).isLE := by
    intro a ha b hb
    obtain ⟨a, i⟩ := a
    obtain ⟨b, j⟩ := b
    have hi := List.mem_zipIdx_iff_getElem?.mp ha
    have hj := List.mem_zipIdx_iff_getElem?.mp hb
    obtain ⟨hilt, hia⟩ := List.getElem?_eq_some_iff.mp hi
    obtain ⟨hjlt, hjb⟩ := List.getElem?_eq_some_iff.mp hj
    have hcompare : compare i j = compare a.2 b.2 := by
      rcases Nat.lt_trichotomy i j with hlt | heq | hgt
      · have hdec := List.pairwise_iff_getElem.mp hgrow i j hilt hjlt hlt
        rw [hia, hjb] at hdec
        rw [Nat.compare_eq_lt.mpr hlt, Nat.compare_eq_lt.mpr hdec]
      · subst heq
        have hab : a = b := hia.symm.trans hjb
        rw [hab, Nat.compare_eq_eq.mpr rfl, Nat.compare_eq_eq.mpr rfl]
      · have hdec := List.pairwise_iff_getElem.mp hgrow j i hjlt hilt hgt
        rw [hia, hjb] at hdec
        rw [Nat.compare_eq_gt.mpr hgt, Nat.compare_eq_gt.mpr hdec]
    show ((cmp a.1 b.1).then (compare i j)).isLE = ((cmp a.1 b.1).then (compare a.2 b.2)).isLE
    rw [hcompare]
  have hfst : stableSort order z = (stableSort byPlace z.zipIdx).map Prod.fst := by
    have hmap := List.map_mergeSort (f := Prod.fst) (r := fun a b => (byPlace a b).isLE)
      (s := fun a b => (order a b).isLE) hsame
    rw [List.zipIdx_map_fst] at hmap
    exact hmap.symm
  have hzip : (z.map Prod.fst).zipIdx = z.zipIdx.map fun a => (a.1.1, a.2) := by
    rw [List.zipIdx_map]
    rfl
  have hplace : stableSort order (z.map Prod.fst).zipIdx =
      (stableSort byPlace z.zipIdx).map fun a => (a.1.1, a.2) := by
    rw [hzip]
    exact (List.map_mergeSort (f := fun a : (α × ℕ) × ℕ => (a.1.1, a.2))
      (r := fun a b => (byPlace a b).isLE) (s := fun a b => (order a b).isLE)
      fun _ _ _ _ => rfl).symm
  have hz' : ∀ a ∈ z.map Prod.fst, a ∈ T := by
    intro a ha
    obtain ⟨p, hp, rfl⟩ := List.mem_map.mp ha
    exact hz p hp
  rw [← stableSort_zipIdx h hz', hplace, hfst, List.map_map, List.map_map]
  rfl

/-- Where only equal values tie, there is one sorted order of them. -/
theorem stableSort_filter_of_strict (h : ComparesOn cmp T)
    (hstrict : ∀ a ∈ T, ∀ b ∈ T, cmp a b = .eq → a = b) (hl : ∀ a ∈ l, a ∈ T) (p : α → Bool) :
    (stableSort cmp l).filter p = stableSort cmp (l.filter p) := by
  have hfilter : ∀ a ∈ l.filter p, a ∈ T := fun a ha => hl a (List.mem_of_mem_filter ha)
  apply List.Perm.eq_of_pairwise _ ((sortedBy_stableSort h hl).sublist List.filter_sublist)
    (sortedBy_stableSort h hfilter)
  · exact ((perm_stableSort cmp l).filter p).trans (perm_stableSort cmp _).symm
  · intro a b ha hb hab hba
    have ha' := hl a ((perm_stableSort cmp l).mem_iff.mp (List.mem_of_mem_filter ha))
    have hb' := hfilter b ((perm_stableSort cmp _).mem_iff.mp hb)
    exact hstrict a ha' b hb' (h.eq_of_isLE ha' hb' hab hba)

/-- **Sorting what passes a test is sorting everything and then testing.** -/
theorem stableSort_filter (h : ComparesOn cmp T) (hl : ∀ a ∈ l, a ∈ T) (p : α → Bool) :
    (stableSort cmp l).filter p = stableSort cmp (l.filter p) := by
  let order := fun a b : α × ℕ => (cmp a.1 b.1).then (compare a.2 b.2)
  let V : Set (α × ℕ) := {a | a ∈ l.zipIdx}
  have hV : ComparesOn order V :=
    (h.comap fun a ha => hl _ (List.fst_mem_of_mem_zipIdx ha)).lex
      (ComparesOn.ofKey Prod.snd fun _ _ _ _ => rfl)
  have hstrict : ∀ a ∈ V, ∀ b ∈ V, order a b = .eq → a = b := by
    intro a ha b hb hab
    have hplace : a.2 = b.2 :=
      Std.LawfulEqOrd.compare_eq_iff_eq.mp (Ordering.then_eq_eq.mp hab).2
    have hsome := List.mem_zipIdx_iff_getElem?.mp ha
    rw [hplace, List.mem_zipIdx_iff_getElem?.mp hb] at hsome
    exact Prod.ext (Option.some.inj hsome).symm hplace
  have hfilter := stableSort_filter_of_strict hV hstrict (l := l.zipIdx) (fun a ha => ha)
    fun a => p a.1
  have hgrow : (l.zipIdx.filter fun a => p a.1).Pairwise fun a b => a.2 < b.2 := by
    apply List.Pairwise.sublist List.filter_sublist
    rw [← List.pairwise_map (f := Prod.snd), List.zipIdx_map_snd]
    exact List.pairwise_lt_range'
  have hmap : (l.zipIdx.filter fun a => p a.1).map Prod.fst = l.filter p := by
    have hcomm := List.filter_map (f := (Prod.fst : α × ℕ → α)) (p := p) (l := l.zipIdx)
    rw [List.zipIdx_map_fst] at hcomm
    exact hcomm.symm
  have hmem : ∀ a ∈ l.zipIdx.filter (fun a => p a.1), a.1 ∈ T := fun a ha =>
    hl _ (List.fst_mem_of_mem_zipIdx (List.mem_of_mem_filter ha))
  calc (stableSort cmp l).filter p
      = ((stableSort order l.zipIdx).map Prod.fst).filter p := by rw [stableSort_zipIdx h hl]
    _ = ((stableSort order l.zipIdx).filter fun a => p a.1).map Prod.fst := List.filter_map
    _ = (stableSort order (l.zipIdx.filter fun a => p a.1)).map Prod.fst := by rw [hfilter]
    _ = stableSort cmp (l.filter p) := by rw [stableSort_decorated h hmem hgrow, hmap]

/-- A list in which no value that fails comes before one that passes. -/
theorem eq_filter_append {p : α → Bool}
    (h : l.Pairwise fun a b => p b = true → p a = true) :
    l = l.filter p ++ l.filter fun a => !p a := by
  induction l with
  | nil => rfl
  | cons a l ih =>
    obtain ⟨ha, hl⟩ := List.pairwise_cons.mp h
    cases hpa : p a with
    | true =>
      rw [List.filter_cons_of_pos hpa, List.filter_cons_of_neg (by simp [hpa]), List.cons_append,
        ← ih hl]
    | false =>
      have hnone : l.filter p = [] := by
        rw [List.filter_eq_nil_iff]
        intro b hb hpb
        rw [ha b hb hpb] at hpa
        cases hpa
      have hall : (l.filter fun a => !p a) = l := by
        rw [List.filter_eq_self]
        intro b hb
        rw [List.filter_eq_nil_iff] at hnone
        simpa using hnone b hb
      rw [List.filter_cons_of_neg (by simp [hpa]), List.filter_cons_of_pos (by simp [hpa]), hnone,
        hall, List.nil_append]

/-- **The first of the values that pass are the first of all**, where these come before the others
and are enough. -/
theorem take_stableSort_filter (h : ComparesOn cmp T) (hl : ∀ a ∈ l, a ∈ T) {p : α → Bool}
    (hfirst : ∀ a ∈ l, ∀ b ∈ l, p a = true → p b = false → cmp a b = .lt) {k : ℕ}
    (hk : k ≤ (l.filter p).length) :
    (stableSort cmp (l.filter p)).take k = (stableSort cmp l).take k := by
  have hmem : ∀ a ∈ stableSort cmp l, a ∈ l := fun a ha => (perm_stableSort cmp l).mem_iff.mp ha
  have hsorted : (stableSort cmp l).Pairwise fun a b => p b = true → p a = true := by
    refine (sortedBy_stableSort h hl).imp_of_mem fun {a b} ha hb hab hpb => ?_
    by_contra hpa
    have hlt := hfirst b (hmem b hb) a (hmem a ha) hpb (Bool.eq_false_iff.mpr hpa)
    rw [h.swap b (hl b (hmem b hb)) a (hl a (hmem a ha)), hlt] at hab
    cases hab
  have hlen : k ≤ (stableSort cmp (l.filter p)).length := by
    rwa [(perm_stableSort cmp _).length_eq]
  rw [eq_filter_append hsorted, stableSort_filter h hl, List.take_append_of_le_length hlen]

/-! ## A few values -/

section Few

variable {a b c d e : α}

theorem stableSort_pair :
    stableSort cmp [a, b] = if (cmp a b).isLE then [a, b] else [b, a] := by
  unfold stableSort
  rw [List.mergeSort]
  simp only [List.MergeSort.Internal.splitInTwo_fst, List.MergeSort.Internal.splitInTwo_snd]
  rw [show [a, b].take (([a, b].length + 1) / 2) = [a] from by simp,
    show [a, b].drop (([a, b].length + 1) / 2) = [b] from by simp, List.mergeSort_singleton,
    List.mergeSort_singleton, List.cons_merge_cons]
  split
  · rw [List.nil_merge]
  · simp

theorem stableSort_three : stableSort cmp [a, b, c] =
    List.merge (stableSort cmp [a, b]) [c] fun a b => (cmp a b).isLE := by
  unfold stableSort
  rw [List.mergeSort]
  simp only [List.MergeSort.Internal.splitInTwo_fst, List.MergeSort.Internal.splitInTwo_snd]
  rw [show [a, b, c].take (([a, b, c].length + 1) / 2) = [a, b] from by simp,
    show [a, b, c].drop (([a, b, c].length + 1) / 2) = [c] from by simp, List.mergeSort_singleton]

theorem stableSort_four : stableSort cmp [a, b, c, d] =
    List.merge (stableSort cmp [a, b]) (stableSort cmp [c, d]) fun a b => (cmp a b).isLE := by
  unfold stableSort
  rw [List.mergeSort]
  simp only [List.MergeSort.Internal.splitInTwo_fst, List.MergeSort.Internal.splitInTwo_snd]
  rw [show [a, b, c, d].take (([a, b, c, d].length + 1) / 2) = [a, b] from by simp,
    show [a, b, c, d].drop (([a, b, c, d].length + 1) / 2) = [c, d] from by simp]

/-- Four values of which the first two are one, in a row by the comparator. -/
theorem stableSort_head (hab : (cmp a b).isLE) (hbc : (cmp b c).isLE) :
    (stableSort cmp [a, a, b, c]).take 1 = [a] := by
  rw [stableSort_four, stableSort_pair, ite_self, stableSort_pair, if_pos hbc, List.cons_merge_cons,
    if_pos hab]
  rfl

/-- The first two of four values, where these are in order and come before the third. -/
theorem take_two_stableSort (hab : (cmp a b).isLE) (hcd : (cmp c d).isLE) (hac : (cmp a c).isLE)
    (hbc : (cmp b c).isLE) : (stableSort cmp [a, b, c, d]).take 2 = [a, b] := by
  rw [stableSort_four, stableSort_pair, if_pos hab, stableSort_pair, if_pos hcd,
    List.cons_merge_cons, if_pos hac, List.cons_merge_cons, if_pos hbc]
  rfl

end Few

/-! ## Small buffers -/

section Buffer

variable {a b c d e : α}

/-- The better of two values, the first one where they tie. -/
def better (cmp : α → α → Ordering) (a b : α) : α := if (cmp a b).isLE then a else b

/-- A buffer for one value holds the best value so far. -/
theorem foldl_topNStep_one (a : α) (l : List α) :
    l.foldl (topNStep cmp 1) [a] = [l.foldl (better cmp) a] := by
  induction l generalizing a with
  | nil => rfl
  | cons b l ih =>
    have hstep : topNStep cmp 1 [a] b = [better cmp a b] := by
      unfold topNStep better
      rw [if_pos (by simp), List.singleton_append, stableSort_pair]
      split <;> rfl
    rw [List.foldl_cons, List.foldl_cons, hstep, ih]

theorem topN_one (a : α) (l : List α) : topN cmp 1 (a :: l) = [l.foldl (better cmp) a] := by
  have hfirst : topNStep cmp 1 [] a = [a] := by
    unfold topNStep
    rw [if_neg (by simp)]
    rfl
  unfold topN stableSort
  rw [List.foldl_cons, hfirst, foldl_topNStep_one, List.mergeSort_singleton]
  rfl

/-- A buffer for two values that is not full yet. -/
theorem topNStep_two_push (hl : l.length < 3) : topNStep cmp 2 l a = l ++ [a] := by
  unfold topNStep
  rw [if_neg (by rw [List.length_append, List.length_singleton]; omega)]

/-- Four values of which the first two are the best trim the buffer to these two. -/
lemma foldl_topNStep_two (hab : (cmp a b).isLE) (hcd : (cmp c d).isLE) (hac : (cmp a c).isLE)
    (hbc : (cmp b c).isLE) (l : List α) :
    ([a, b, c, d] ++ l).foldl (topNStep cmp 2) [] = l.foldl (topNStep cmp 2) [a, b] := by
  have htrim : topNStep cmp 2 [a, b, c] d = [a, b] := by
    unfold topNStep
    rw [if_pos (by simp)]
    exact take_two_stableSort hab hcd hac hbc
  rw [List.foldl_append, List.foldl_cons, topNStep_two_push (by simp), List.foldl_cons,
    topNStep_two_push (by simp), List.foldl_cons, topNStep_two_push (by simp)]
  exact congrArg (fun buffer => l.foldl (topNStep cmp 2) buffer) htrim

lemma topN_two_of_four (hab : (cmp a b).isLE) (hcd : (cmp c d).isLE) (hac : (cmp a c).isLE)
    (hbc : (cmp b c).isLE) : topN cmp 2 [a, b, c, d] = [a, b] := by
  have hbuffer := foldl_topNStep_two hab hcd hac hbc []
  rw [List.append_nil] at hbuffer
  unfold topN
  rw [hbuffer, List.foldl_nil, stableSort_pair, if_pos hab]
  rfl

/-- The fifth of five values, where the buffer is trimmed before it comes and it comes before the
first. -/
theorem topN_two_of_five (hab : (cmp a b).isLE) (hcd : (cmp c d).isLE) (hac : (cmp a c).isLE)
    (hbc : (cmp b c).isLE) (hae : ¬(cmp a e).isLE) : topN cmp 2 [a, b, c, d, e] = [e, a] := by
  have hbuffer : [a, b, c, d, e].foldl (topNStep cmp 2) [] = [a, b, e] := by
    rw [show [a, b, c, d, e] = [a, b, c, d] ++ [e] from rfl,
      foldl_topNStep_two hab hcd hac hbc, List.foldl_cons, topNStep_two_push (by simp)]
    rfl
  unfold topN
  rw [hbuffer, stableSort_three, stableSort_pair, if_pos hab, List.cons_merge_cons, if_neg hae]
  simp

end Buffer

end StableSort
