import Mathlib.Algebra.BigOperators.Ring.Finset
import Mathlib.Algebra.Order.BigOperators.Group.Finset
import Mathlib.Data.Finset.Card
import Mathlib.Data.Finset.Prod

/-!
# Counting short walks in a directed multigraph

Edges have a source and a target; parallel edges and self-loops are allowed. A walk uses no edge
twice.

* `card_wedges`: walks of two edges, counted through the middle vertex as a product less the loops
  that could fill both places;
* `card_triangles`: closed walks of three edges, counted cell by cell.
-/

open Finset

variable {V E : Type*} [DecidableEq V] [DecidableEq E] (src dst : E → V)

/-- The walks of two edges, the first in `A` and the second in `B`. -/
def wedges (A B : Finset E) : Finset (E × E) :=
  (A ×ˢ B).filter fun p => dst p.1 = src p.2 ∧ p.1 ≠ p.2

/-- The edges from one vertex to another. -/
def between (A : Finset E) (a b : V) : Finset E := A.filter fun e => src e = a ∧ dst e = b

/-- The closed walks of three edges, the first in `A`, the second in `B` and the third in `C`. -/
def triangles (A B C : Finset E) : Finset (E × E × E) :=
  (A ×ˢ B ×ˢ C).filter fun (e₁, e₂, e₃) => dst e₁ = src e₂ ∧ dst e₂ = src e₃ ∧ dst e₃ = src e₁ ∧
    e₁ ≠ e₂ ∧ e₁ ≠ e₃ ∧ e₂ ≠ e₃

/-- The closed walks of three edges through three given vertices. Only loops can fill two places. -/
def triangleCell (A B C : Finset E) (a b c : V) : ℕ :=
  if a = b ∧ c = a then
    ((between src dst A a b ×ˢ between src dst B b c ×ˢ between src dst C c a).filter
      fun (e₁, e₂, e₃) => e₁ ≠ e₂ ∧ e₁ ≠ e₃ ∧ e₂ ≠ e₃).card
  else
    (between src dst A a b).card * (between src dst B b c).card * (between src dst C c a).card

variable {src dst}

/-- The loops that fill both places are not more than the pairs they are taken from. -/
theorem card_between_self_le (A B : Finset E) (b : V) :
    (between src dst (A ∩ B) b b).card ≤
      (A.filter (dst · = b)).card * (B.filter (src · = b)).card := by
  rw [← card_product]
  apply card_le_card_of_injOn fun e => (e, e)
  · intro e he
    obtain ⟨hmem, hsrc, hdst⟩ := mem_filter.mp he
    obtain ⟨hA, hB⟩ := mem_inter.mp hmem
    exact mem_product.mpr ⟨mem_filter.mpr ⟨hA, hdst⟩, mem_filter.mpr ⟨hB, hsrc⟩⟩
  · intro e _ e' _ h
    exact congrArg Prod.fst h

/-- The walks through one middle vertex: all pairs, less the loops paired with themselves. -/
theorem card_wedges_through (A B : Finset E) (b : V) :
    ((wedges src dst A B).filter fun p => dst p.1 = b).card =
      (A.filter (dst · = b)).card * (B.filter (src · = b)).card -
        (between src dst (A ∩ B) b b).card := by
  let pairs := A.filter (dst · = b) ×ˢ B.filter (src · = b)
  have hloops : (pairs.filter fun p => p.1 = p.2).card = (between src dst (A ∩ B) b b).card := by
    symm
    apply card_bij fun e _ => (e, e)
    · intro e he
      obtain ⟨hmem, hsrc, hdst⟩ := mem_filter.mp he
      obtain ⟨hA, hB⟩ := mem_inter.mp hmem
      exact mem_filter.mpr
        ⟨mem_product.mpr ⟨mem_filter.mpr ⟨hA, hdst⟩, mem_filter.mpr ⟨hB, hsrc⟩⟩, rfl⟩
    · intro e _ e' _ h
      exact congrArg Prod.fst h
    · rintro ⟨e, e'⟩ he
      obtain ⟨hmem, heq⟩ := mem_filter.mp he
      obtain rfl : e = e' := heq
      obtain ⟨h₁, h₂⟩ := mem_product.mp hmem
      obtain ⟨hA, hdst⟩ := mem_filter.mp h₁
      obtain ⟨hB, hsrc⟩ := mem_filter.mp h₂
      exact ⟨e, mem_filter.mpr ⟨mem_inter.mpr ⟨hA, hB⟩, hsrc, hdst⟩, rfl⟩
  have hwedges : (wedges src dst A B).filter (fun p => dst p.1 = b) =
      pairs.filter fun p => ¬ p.1 = p.2 := by
    ext ⟨e, e'⟩
    simp only [wedges, pairs, mem_filter, mem_product]
    grind
  have hsplit := card_filter_add_card_filter_not (s := pairs) fun p => p.1 = p.2
  rw [hwedges, ← hloops, ← card_product]
  change _ = pairs.card - _
  omega

/-- The walks of two edges, summed over the middle vertex. -/
theorem card_wedges {A B : Finset E} {S : Finset V} (h : ∀ e ∈ A, dst e ∈ S) :
    (wedges src dst A B).card =
      ∑ b ∈ S, ((A.filter (dst · = b)).card * (B.filter (src · = b)).card -
        (between src dst (A ∩ B) b b).card) := by
  have hmaps : ∀ p ∈ wedges src dst A B, dst p.1 ∈ S := by
    intro p hp
    exact h _ (mem_product.mp (mem_filter.mp hp).1).1
  rw [card_eq_sum_card_fiberwise hmaps]
  exact sum_congr rfl fun b _ => card_wedges_through A B b

/-- The products over the middle vertices are bounded by the product of the totals. -/
theorem sum_mul_card_le (A B : Finset E) (S : Finset V) :
    ∑ b ∈ S, (A.filter (dst · = b)).card * (B.filter (src · = b)).card ≤ A.card * B.card := by
  calc ∑ b ∈ S, (A.filter (dst · = b)).card * (B.filter (src · = b)).card
      ≤ ∑ b ∈ S, (A.filter (dst · = b)).card * B.card :=
        sum_le_sum fun b _ => Nat.mul_le_mul_left _ (card_filter_le _ _)
    _ = (∑ b ∈ S, (A.filter (dst · = b)).card) * B.card := (sum_mul ..).symm
    _ ≤ A.card * B.card := by
        apply Nat.mul_le_mul_right
        rw [← card_biUnion]
        · apply card_le_card
          intro e he
          obtain ⟨b, -, hb⟩ := mem_biUnion.mp he
          exact (mem_filter.mp hb).1
        · intro b _ b' _ hne
          apply disjoint_filter.mpr
          intro e _ hb hb'
          exact hne (hb ▸ hb')

omit [DecidableEq E] in
lemma mem_between {A : Finset E} {a b : V} {e : E} :
    e ∈ between src dst A a b ↔ e ∈ A ∧ src e = a ∧ dst e = b := mem_filter

/-- The closed walks of three edges, summed over the vertices. -/
theorem card_triangles {A B C : Finset E} {S : Finset V} (hA : ∀ e ∈ A, src e ∈ S ∧ dst e ∈ S)
    (hB : ∀ e ∈ B, dst e ∈ S) :
    (triangles src dst A B C).card =
      ∑ a ∈ S, ∑ b ∈ S, ∑ c ∈ S, triangleCell src dst A B C a b c := by
  have hmaps : ∀ p ∈ triangles src dst A B C,
      ((src p.1, dst p.1, dst p.2.1) : V × V × V) ∈ S ×ˢ S ×ˢ S := by
    rintro ⟨e₁, e₂, e₃⟩ hp
    obtain ⟨hmem, -⟩ := mem_filter.mp hp
    obtain ⟨h₁, h₂, -⟩ : e₁ ∈ A ∧ e₂ ∈ B ∧ e₃ ∈ C := by simpa only [mem_product] using hmem
    exact mem_product.mpr ⟨(hA e₁ h₁).1, mem_product.mpr ⟨(hA e₁ h₁).2, hB e₂ h₂⟩⟩
  rw [card_eq_sum_card_fiberwise hmaps, sum_product]
  apply sum_congr rfl
  intro a _
  rw [sum_product]
  apply sum_congr rfl
  intro b _
  apply sum_congr rfl
  intro c _
  unfold triangleCell
  split
  next hloop =>
    congr 1
    ext ⟨e₁, e₂, e₃⟩
    simp only [triangles, mem_filter, mem_product, mem_between, Prod.mk.injEq]
    grind
  next hne =>
    -- Two equal edges would be a loop, and then all three vertices are one.
    rw [Nat.mul_assoc, ← card_product, ← card_product]
    congr 1
    ext ⟨e₁, e₂, e₃⟩
    simp only [triangles, mem_filter, mem_product, mem_between, Prod.mk.injEq]
    constructor
    · grind
    · rintro ⟨⟨h₁, ha, hb⟩, ⟨h₂, hb', hc⟩, h₃, hc', ha'⟩
      refine ⟨⟨⟨h₁, h₂, h₃⟩, by rw [hb, hb'], by rw [hc, hc'], by rw [ha', ha], ?_, ?_, ?_⟩, ha, hb,
        hc⟩
      all_goals
        rintro rfl
        apply hne
        grind
