import Mathlib.Data.List.Sort
import Mathlib.Order.Lattice

/-!
# Selecting the least elements

The `k` least elements of a list, by partitioning at the `k`-th place and sorting what is in front
of it. How the partition and the sort order the elements on the way is left open: over a linear
order the result is the same.

* `Selecting.least_eq` — the `k` least elements are the first ones of the sorted list.
-/

/-- Partitioning at a place, and sorting, with no promise about the order beyond that. -/
structure Selecting (α : Type) [LinearOrder α] where
  selectNth : ℕ → List α → List α
  perm_selectNth : ∀ i l, (selectNth i l).Perm l
  /-- Nothing in front of the place is greater than what comes after it. -/
  partition : ∀ i l, i < l.length → ∀ a ∈ (selectNth i l).take (i + 1),
    ∀ b ∈ (selectNth i l).drop (i + 1), a ≤ b
  sort : List α → List α
  perm_sort : ∀ l, (sort l).Perm l
  sorted_sort : ∀ l, (sort l).Pairwise (· ≤ ·)

namespace Selecting

open List

variable {α : Type} [LinearOrder α] (S : Selecting α)

/-- The `k` least elements. -/
def least (k : ℕ) (l : List α) : List α :=
  S.sort (if k < l.length then (S.selectNth (k - 1) l).take k else l)

lemma sort_eq (l : List α) : S.sort l = l.insertionSort (· ≤ ·) :=
  List.Perm.eq_of_pairwise' (S.sorted_sort l) (pairwise_insertionSort _ l)
    ((S.perm_sort l).trans (perm_insertionSort _ l).symm)

/-- **The least elements are the first ones of the sorted list.** -/
theorem least_eq {k : ℕ} (hk : 0 < k) (l : List α) :
    S.least k l = (l.insertionSort (· ≤ ·)).take k := by
  unfold least
  split
  next hlt =>
    obtain ⟨i, rfl⟩ : ∃ i, k = i + 1 := ⟨k - 1, by omega⟩
    rw [Nat.add_sub_cancel]
    have hparts := S.partition i l (by omega)
    let front := (S.selectNth i l).take (i + 1)
    let back := (S.selectNth i l).drop (i + 1)
    have hperm : (S.sort front ++ S.sort back).Perm l := by
      refine ((S.perm_sort front).append (S.perm_sort back)).trans ?_
      rw [take_append_drop]
      exact S.perm_selectNth i l
    have hsorted : (S.sort front ++ S.sort back).Pairwise (· ≤ ·) := by
      refine pairwise_append.mpr ⟨S.sorted_sort _, S.sorted_sort _, fun a ha b hb => ?_⟩
      exact hparts a ((S.perm_sort front).mem_iff.mp ha) b ((S.perm_sort back).mem_iff.mp hb)
    have hwhole : l.insertionSort (· ≤ ·) = S.sort front ++ S.sort back :=
      List.Perm.eq_of_pairwise' (pairwise_insertionSort _ l) hsorted
        ((perm_insertionSort _ l).trans hperm.symm)
    have hlength : (S.sort front).length = i + 1 := by
      rw [(S.perm_sort front).length_eq, length_take, (S.perm_selectNth i l).length_eq]
      omega
    rw [hwhole, take_left' hlength]
  next hle =>
    rw [S.sort_eq, take_of_length_le]
    rw [length_insertionSort]
    omega

end Selecting

def Selecting.sorting (α : Type) [LinearOrder α] : Selecting α where
  selectNth _ l := l.insertionSort (· ≤ ·)
  perm_selectNth _ l := List.perm_insertionSort _ l
  partition i l _ a ha b hb := by
    have hsorted := List.pairwise_insertionSort (· ≤ ·) l
    rw [← List.take_append_drop (i + 1) (l.insertionSort (· ≤ ·)), List.pairwise_append] at hsorted
    exact hsorted.2.2 a ha b hb
  sort l := l.insertionSort (· ≤ ·)
  perm_sort l := List.perm_insertionSort _ l
  sorted_sort l := List.pairwise_insertionSort _ l
