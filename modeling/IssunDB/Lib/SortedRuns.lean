import Mathlib.Data.List.Nodup
import Mathlib.Data.List.Pairwise
import Mathlib.Algebra.BigOperators.Group.Finset.Basic

/-!
# Runs of equal keys in sorted lists

A list of keyed elements that ascends by key falls into runs of equal keys. `runs` walks the runs
of one list, `commonRuns` merges two lists and keeps the keys that both have.

* `mem_runs`, `mem_commonRuns`: a run is the part of the list that has its key;
* `sum_runs`, `sum_commonRuns`: a sum over runs is a sum over keys.
-/

variable {κ α β : Type*} [LinearOrder κ]

def AscendingKeys (l : List (κ × α)) : Prop := l.Pairwise fun x y => x.1 ≤ y.1

variable {l : List (κ × α)} {x : κ × α} {k : κ}

lemma AscendingKeys.tail (h : AscendingKeys (x :: l)) :
    AscendingKeys l := h.of_cons

def ofKey (l : List (κ × α)) (k : κ) : List (κ × α) := l.filter (·.1 = k)

lemma ofKey_eq_nil : ofKey l k = [] ↔ k ∉ l.map Prod.fst := by
  rw [ofKey, List.filter_eq_nil_iff, List.mem_map, not_exists]
  apply forall_congr'
  intro x
  simp

lemma ofKey_cons_of_ne (h : k ≠ x.1) (l : List (κ × α)) :
    ofKey (x :: l) k = ofKey l k :=
  List.filter_cons_of_neg (by simpa using Ne.symm h)

lemma AscendingKeys.takeWhile_eq (h : AscendingKeys l) (hk : ∀ x ∈ l, k ≤ x.1) :
    l.takeWhile (·.1 = k) = ofKey l k := by
  induction l with
  | nil => rfl
  | cons x l ih =>
    by_cases hx : x.1 = k
    · have hrest := ih h.tail fun y hy => hk y (List.mem_cons_of_mem _ hy)
      rw [List.takeWhile_cons_of_pos (by simpa using hx), ofKey,
        List.filter_cons_of_pos (by simpa using hx), hrest, ofKey]
    · -- the first key is past `k`, and so are all later ones
      have hlt : k < x.1 := lt_of_le_of_ne (hk x List.mem_cons_self) (Ne.symm hx)
      rw [List.takeWhile_cons_of_neg (by simpa using hx), eq_comm, ofKey_eq_nil]
      intro hmem
      obtain ⟨y, hy, rfl⟩ := List.mem_map.mp hmem
      rcases List.mem_cons.mp hy with rfl | hy
      · exact hx rfl
      · exact absurd ((List.pairwise_cons.mp h).1 y hy) (not_le.mpr hlt)

lemma AscendingKeys.dropWhile_eq (h : AscendingKeys l) (hk : ∀ x ∈ l, k ≤ x.1) :
    l.dropWhile (·.1 = k) = l.filter fun x => k < x.1 := by
  induction l with
  | nil => rfl
  | cons x l ih =>
    by_cases hx : x.1 = k
    · have hrest := ih h.tail fun y hy => hk y (List.mem_cons_of_mem _ hy)
      rw [List.dropWhile_cons_of_pos (by simpa using hx), hrest,
        List.filter_cons_of_neg (by simp [hx])]
    · have hlt : k < x.1 := lt_of_le_of_ne (hk x List.mem_cons_self) (Ne.symm hx)
      rw [List.dropWhile_cons_of_neg (by simpa using hx), eq_comm, List.filter_eq_self]
      intro y hy
      rw [decide_eq_true_eq]
      rcases List.mem_cons.mp hy with rfl | hy
      · exact hlt
      · exact lt_of_lt_of_le hlt ((List.pairwise_cons.mp h).1 y hy)

lemma AscendingKeys.filter (h : AscendingKeys l) (p : κ × α → Bool) :
    AscendingKeys (l.filter p) := List.Pairwise.filter p h

lemma AscendingKeys.head_run (h : AscendingKeys (x :: l)) :
    x :: l.takeWhile (·.1 = x.1) = ofKey (x :: l) x.1 ∧
      l.dropWhile (·.1 = x.1) = (x :: l).filter fun y => x.1 < y.1 := by
  have hk := (List.pairwise_cons.mp h).1
  constructor
  · rw [h.tail.takeWhile_eq hk, ofKey, ofKey, List.filter_cons_of_pos (by simp)]
  · rw [h.tail.dropWhile_eq hk, List.filter_cons_of_neg (by simp)]

lemma ofKey_filter_lt (l : List (κ × α)) {k k' : κ} (h : k < k') :
    ofKey (l.filter fun x => k < x.1) k' = ofKey l k' := by
  rw [ofKey, ofKey, List.filter_filter]
  apply List.filter_congr
  intro x _
  by_cases hx : x.1 = k'
  · simp [hx, h]
  · simp [hx]

lemma mem_keys_filter_lt {b k : κ} :
    k ∈ (l.filter fun x => b < x.1).map Prod.fst ↔ k ∈ l.map Prod.fst ∧ b < k := by
  simp only [List.mem_map, List.mem_filter, decide_eq_true_eq]
  constructor
  · rintro ⟨x, ⟨hx, hlt⟩, rfl⟩
    exact ⟨⟨x, hx, rfl⟩, hlt⟩
  · rintro ⟨⟨x, hx, rfl⟩, hlt⟩
    exact ⟨x, ⟨hx, hlt⟩, rfl⟩

lemma AscendingKeys.head_le (h : AscendingKeys (x :: l)) (hk : k ∈ (x :: l).map Prod.fst) :
    x.1 ≤ k := by
  obtain ⟨y, hy, rfl⟩ := List.mem_map.mp hk
  rcases List.mem_cons.mp hy with rfl | hy
  · exact le_rfl
  · exact (List.pairwise_cons.mp h).1 y hy

/-! ## One list -/

def runs : List (κ × α) → List (κ × List (κ × α))
  | [] => []
  | x :: l => (x.1, x :: l.takeWhile (·.1 = x.1)) :: runs (l.dropWhile (·.1 = x.1))
termination_by l => l.length
decreasing_by
  exact Nat.lt_succ_of_le (List.dropWhile_sublist _).length_le

/-- The runs are the parts of the list with one key, by ascending key. -/
theorem runs_spec (h : AscendingKeys l) :
    ∃ keys : List κ, runs l = keys.map (fun k => (k, ofKey l k)) ∧ keys.Pairwise (· < ·) ∧
      ∀ k, k ∈ keys ↔ k ∈ l.map Prod.fst := by
  induction l using runs.induct with
  | case1 => exact ⟨[], by simp [runs]⟩
  | case2 x l ih =>
    obtain ⟨hrun, hrest⟩ := h.head_run
    rw [hrest] at ih
    obtain ⟨keys, hruns, hpairwise, hmem⟩ := ih (h.filter _)
    have hkeys : ∀ k, k ∈ keys ↔ k ∈ (x :: l).map Prod.fst ∧ x.1 < k := by
      intro k
      rw [hmem, mem_keys_filter_lt]
    refine ⟨x.1 :: keys, ?_,
      List.pairwise_cons.mpr ⟨fun k hk => ((hkeys k).mp hk).2, hpairwise⟩, ?_⟩
    · rw [runs, hrun, hrest, hruns, List.map_cons]
      congr 1
      apply List.map_congr_left
      intro k hk
      rw [ofKey_filter_lt _ ((hkeys k).mp hk).2]
    · intro k
      rw [List.mem_cons, hkeys]
      constructor
      · rintro (rfl | ⟨hk, -⟩)
        · exact List.mem_map_of_mem List.mem_cons_self
        · exact hk
      · intro hk
        rcases (h.head_le hk).eq_or_lt with heq | hlt
        · exact Or.inl heq.symm
        · exact Or.inr ⟨hk, hlt⟩

theorem sum_runs {M : Type*} [AddCommMonoid M] (h : AscendingKeys l) {S : Finset κ}
    (hS : ∀ k ∈ l.map Prod.fst, k ∈ S) (f : κ → List (κ × α) → M) (hf : ∀ k, f k [] = 0) :
    ((runs l).map fun r => f r.1 r.2).sum = ∑ k ∈ S, f k (ofKey l k) := by
  obtain ⟨keys, hruns, hpairwise, hmem⟩ := runs_spec h
  rw [hruns, List.map_map, Function.comp_def, ← List.sum_toFinset _ (hpairwise.imp fun h => h.ne)]
  apply Finset.sum_subset
  · intro k hk
    exact hS k ((hmem k).mp (List.mem_toFinset.mp hk))
  · intro k _ hk
    rw [List.mem_toFinset, hmem, ← ofKey_eq_nil] at hk
    rw [hk, hf]

/-! ## Two lists -/

/-- The keys that two ascending lists share, with the run of each list. -/
def commonRuns : List (κ × α) → List (κ × β) → List (κ × List (κ × α) × List (κ × β))
  | x :: js, y :: ks =>
    if x.1 < y.1 then commonRuns js (y :: ks)
    else if y.1 < x.1 then commonRuns (x :: js) ks
    else (x.1, x :: js.takeWhile (·.1 = x.1), y :: ks.takeWhile (·.1 = x.1)) ::
      commonRuns (js.dropWhile (·.1 = x.1)) (ks.dropWhile (·.1 = x.1))
  | _, _ => []
termination_by js ks => js.length + ks.length
decreasing_by
  · simp
  · simp
  · have h₁ := (List.dropWhile_sublist (fun z : κ × α => decide (z.1 = x.1)) (l := js)).length_le
    have h₂ := (List.dropWhile_sublist (fun z : κ × β => decide (z.1 = x.1)) (l := ks)).length_le
    simp only [List.length_cons]
    omega

/-- Merging two ascending lists visits the keys that both have, in ascending order. -/
theorem commonRuns_spec {js : List (κ × α)} {ks : List (κ × β)} (hj : AscendingKeys js)
    (hk : AscendingKeys ks) :
    ∃ keys : List κ, commonRuns js ks = keys.map (fun k => (k, ofKey js k, ofKey ks k)) ∧
      keys.Pairwise (· < ·) ∧ ∀ k, k ∈ keys ↔ k ∈ js.map Prod.fst ∧ k ∈ ks.map Prod.fst := by
  induction js, ks using commonRuns.induct with
  | case1 x js y ks hlt ih =>
    obtain ⟨keys, hruns, hpairwise, hmem⟩ := ih hj.tail hk
    have hne : ∀ k ∈ (y :: ks).map Prod.fst, k ≠ x.1 :=
      fun k hin => (lt_of_lt_of_le hlt (hk.head_le hin)).ne'
    refine ⟨keys, ?_, hpairwise, ?_⟩
    · rw [commonRuns, if_pos hlt, hruns]
      apply List.map_congr_left
      intro k hin
      rw [ofKey_cons_of_ne (hne k ((hmem k).mp hin).2)]
    · intro k
      rw [hmem, List.map_cons (l := js), List.mem_cons (l := js.map Prod.fst)]
      apply and_congr_left
      intro hin
      exact (or_iff_right (hne k hin)).symm
  | case2 x js y ks hle hlt ih =>
    obtain ⟨keys, hruns, hpairwise, hmem⟩ := ih hj hk.tail
    have hne : ∀ k ∈ (x :: js).map Prod.fst, k ≠ y.1 :=
      fun k hin => (lt_of_lt_of_le hlt (hj.head_le hin)).ne'
    refine ⟨keys, ?_, hpairwise, ?_⟩
    · rw [commonRuns, if_neg hle, if_pos hlt, hruns]
      apply List.map_congr_left
      intro k hin
      rw [ofKey_cons_of_ne (hne k ((hmem k).mp hin).1) ks]
    · intro k
      rw [hmem, List.map_cons (l := ks), List.mem_cons (l := ks.map Prod.fst)]
      apply and_congr_right
      intro hin
      exact (or_iff_right (hne k hin)).symm
  | case3 x js y ks hle hge ih =>
    have heq : y.1 = x.1 := le_antisymm (not_lt.mp hle) (not_lt.mp hge)
    obtain ⟨hrunj, hrestj⟩ := hj.head_run
    obtain ⟨hrunk, hrestk⟩ := hk.head_run
    rw [heq] at hrunk hrestk
    rw [hrestj, hrestk] at ih
    obtain ⟨keys, hruns, hpairwise, hmem⟩ := ih (hj.filter _) (hk.filter _)
    have hkeys : ∀ k, k ∈ keys ↔
        (k ∈ (x :: js).map Prod.fst ∧ k ∈ (y :: ks).map Prod.fst) ∧ x.1 < k := by
      intro k
      rw [hmem, mem_keys_filter_lt, mem_keys_filter_lt]
      tauto
    refine ⟨x.1 :: keys, ?_,
      List.pairwise_cons.mpr ⟨fun k hk => ((hkeys k).mp hk).2, hpairwise⟩, ?_⟩
    · rw [commonRuns, if_neg hle, if_neg hge, hrunj, hrunk, hrestj, hrestk, hruns, List.map_cons]
      congr 1
      apply List.map_congr_left
      intro k hin
      rw [ofKey_filter_lt _ ((hkeys k).mp hin).2, ofKey_filter_lt _ ((hkeys k).mp hin).2]
    · intro k
      rw [List.mem_cons, hkeys]
      constructor
      · rintro (rfl | ⟨hin, -⟩)
        · exact ⟨List.mem_map_of_mem List.mem_cons_self,
            heq ▸ List.mem_map_of_mem List.mem_cons_self⟩
        · exact hin
      · intro hin
        rcases (hj.head_le hin.1).eq_or_lt with hx | hlt
        · exact Or.inl hx.symm
        · exact Or.inr ⟨hin, hlt⟩
  | case4 js ks hnil =>
    refine ⟨[], ?_, List.Pairwise.nil, ?_⟩
    · rw [commonRuns, List.map_nil]
      exact hnil
    · intro k
      match js, ks, hnil with
      | [], _, _ => simp
      | _ :: _, [], _ => simp
      | x :: js, y :: ks, hnil => exact absurd rfl (hnil x js y ks rfl)

theorem sum_commonRuns {M : Type*} [AddCommMonoid M] {js : List (κ × α)} {ks : List (κ × β)}
    (hj : AscendingKeys js) (hk : AscendingKeys ks) {S : Finset κ}
    (hS : ∀ k ∈ js.map Prod.fst, k ∈ S) (f : κ → List (κ × α) → List (κ × β) → M)
    (hf : ∀ k r r', r = [] ∨ r' = [] → f k r r' = 0) :
    ((commonRuns js ks).map fun c => f c.1 c.2.1 c.2.2).sum =
      ∑ k ∈ S, f k (ofKey js k) (ofKey ks k) := by
  obtain ⟨keys, hruns, hpairwise, hmem⟩ := commonRuns_spec hj hk
  rw [hruns, List.map_map, Function.comp_def, ← List.sum_toFinset _ (hpairwise.imp fun h => h.ne)]
  apply Finset.sum_subset
  · intro k hin
    exact hS k ((hmem k).mp (List.mem_toFinset.mp hin)).1
  · intro k _ hin
    rw [List.mem_toFinset, hmem, not_and_or, ← ofKey_eq_nil, ← ofKey_eq_nil] at hin
    exact hf k _ _ hin
