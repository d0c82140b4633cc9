import Mathlib.Algebra.BigOperators.Group.List.Basic
import Mathlib.Algebra.Ring.Int.Defs
import Mathlib.Data.Int.Order.Basic

/-!
# Sums with bounded partial sums

Integers are added one after the other, and every partial sum has to stay between two bounds. It
does so in every order of the integers iff the positive and the negative integers do so each by
themselves (`forall_perm_checkedSum_iff`).
-/

section PartialSums

variable {lo hi : ℤ}

/-- The sum from `s` on, where every partial sum is within the bounds. -/
def checkedSum (lo hi : ℤ) : ℤ → List ℤ → Option ℤ
  | s, [] => some s
  | s, x :: l => if lo ≤ s + x ∧ s + x ≤ hi then checkedSum lo hi (s + x) l else none

def posSum (l : List ℤ) : ℤ := (l.map (max 0)).sum

def negSum (l : List ℤ) : ℤ := (l.map (min 0)).sum

@[simp]
lemma posSum_cons (x : ℤ) (l : List ℤ) : posSum (x :: l) = max 0 x + posSum l := by
  simp [posSum]

@[simp]
lemma negSum_cons (x : ℤ) (l : List ℤ) : negSum (x :: l) = min 0 x + negSum l := by
  simp [negSum]

lemma posSum_nonneg (l : List ℤ) : 0 ≤ posSum l := by
  induction l with
  | nil => exact le_rfl
  | cons x l ih =>
    rw [posSum_cons]
    omega

lemma negSum_nonpos (l : List ℤ) : negSum l ≤ 0 := by
  induction l with
  | nil => exact le_rfl
  | cons x l ih =>
    rw [negSum_cons]
    omega

variable {l l' : List ℤ}

lemma posSum_perm (h : l.Perm l') : posSum l = posSum l' := (h.map _).sum_eq

lemma negSum_perm (h : l.Perm l') : negSum l = negSum l' := (h.map _).sum_eq

/-- Fewer integers have a smaller positive sum. -/
theorem posSum_le_of_sublist (h : l.Sublist l') : posSum l ≤ posSum l' := by
  induction h with
  | slnil => exact le_rfl
  | cons x _ ih =>
    rw [posSum_cons]
    omega
  | cons_cons x _ ih =>
    rw [posSum_cons, posSum_cons]
    omega

/-- Fewer integers have a negative sum nearer to zero. -/
theorem negSum_le_of_sublist (h : l.Sublist l') : negSum l' ≤ negSum l := by
  induction h with
  | slnil => exact le_rfl
  | cons x _ ih =>
    rw [negSum_cons]
    omega
  | cons_cons x _ ih =>
    rw [negSum_cons, negSum_cons]
    omega

lemma checkedSum_eq {s t : ℤ} {l : List ℤ} (h : checkedSum lo hi s l = some t) :
    t = s + l.sum ∧ (lo ≤ s → s ≤ hi → lo ≤ t ∧ t ≤ hi) := by
  induction l generalizing s with
  | nil =>
    obtain rfl := Option.some.inj h
    exact ⟨by simp, fun hlo hhi => ⟨hlo, hhi⟩⟩
  | cons x l ih =>
    rw [checkedSum] at h
    split at h
    next hx =>
      obtain ⟨rfl, hbounds⟩ := ih h
      exact ⟨by rw [List.sum_cons, add_assoc], fun _ _ => hbounds hx.1 hx.2⟩
    next => cases h

lemma checkedSum_append (s : ℤ) (l l' : List ℤ) : checkedSum lo hi s (l ++ l') =
    (checkedSum lo hi s l).bind fun t => checkedSum lo hi t l' := by
  induction l generalizing s with
  | nil => rfl
  | cons x l ih =>
    rw [List.cons_append, checkedSum, checkedSum]
    split
    next => exact ih _
    next => rfl

lemma checkedSum_of_bounds {s : ℤ} {l : List ℤ} (hlo : lo ≤ s + negSum l)
    (hhi : s + posSum l ≤ hi) : checkedSum lo hi s l = some (s + l.sum) := by
  induction l generalizing s with
  | nil => simp [checkedSum]
  | cons x l ih =>
    rw [negSum_cons] at hlo
    rw [posSum_cons] at hhi
    have hpos := posSum_nonneg l
    have hneg := negSum_nonpos l
    rw [checkedSum, if_pos (by omega), ih (by omega) (by omega), List.sum_cons, add_assoc]

lemma posSum_eq_sum_filter (l : List ℤ) : posSum l = (l.filter fun x => 0 < x).sum := by
  induction l with
  | nil => rfl
  | cons x l ih =>
    rw [posSum_cons, ih, List.filter_cons]
    by_cases hx : 0 < x
    · simp [hx, max_eq_right hx.le]
    · simp [hx, max_eq_left (not_lt.mp hx)]

lemma negSum_eq_sum_filter (l : List ℤ) : negSum l = (l.filter fun x => x < 0).sum := by
  induction l with
  | nil => rfl
  | cons x l ih =>
    rw [negSum_cons, ih, List.filter_cons]
    by_cases hx : x < 0
    · simp [hx, min_eq_right hx.le]
    · simp [hx, min_eq_left (not_lt.mp hx)]

/-- **Every order.** -/
theorem forall_perm_checkedSum_iff (h0 : lo ≤ 0 ∧ 0 ≤ hi) {l : List ℤ} :
    (∀ l' : List ℤ, l'.Perm l → checkedSum lo hi 0 l' = some l.sum) ↔
      lo ≤ negSum l ∧ posSum l ≤ hi := by
  constructor
  · intro h
    -- an order in which the integers with a property come first
    have hfirst : ∀ p : ℤ → Bool, lo ≤ (l.filter p).sum ∧ (l.filter p).sum ≤ hi := by
      intro p
      have hsum := h _ (List.filter_append_perm p l)
      rw [checkedSum_append] at hsum
      rcases hpart : checkedSum lo hi 0 (l.filter p) with _ | t
      · rw [hpart] at hsum
        cases hsum
      · obtain ⟨rfl, hbounds⟩ := checkedSum_eq hpart
        rw [zero_add] at hbounds
        exact hbounds h0.1 h0.2
    rw [posSum_eq_sum_filter, negSum_eq_sum_filter]
    exact ⟨(hfirst _).1, (hfirst _).2⟩
  · rintro ⟨hlo, hhi⟩ l' hperm
    rw [checkedSum_of_bounds, zero_add, hperm.sum_eq]
    · rwa [zero_add, negSum_perm hperm]
    · rwa [zero_add, posSum_perm hperm]

end PartialSums
