import IssunDB.Lib.BreadthFirst
import Mathlib

/-!
# Residual networks

A residual network over a finite set of nodes holds one amount per ordered pair of nodes, what more
may be sent from the first to the second. Against the capacities it stands for the flow
`c u v - r u v`.

* `IsResidual.pushAll`: sending an amount along a path keeps a residual network and adds the amount
  to its value;
* `IsResidual.value_le_cut`: the value is at most the capacity of any cut;
* `IsResidual.value_eq_cut`: it equals that of a cut that nothing more can be sent across.
-/

namespace Flow

open Finset

variable {V : Type} [DecidableEq V]

/-- Send `b` more over one pair of nodes. -/
def push (r : V → V → ℤ) (b : ℤ) (e : V × V) (u v : V) : ℤ :=
  if (u, v) = e then r u v - b else if (v, u) = e then r u v + b else r u v

/-- Send `b` more over each pair of a list. -/
def pushAll (r : V → V → ℤ) (b : ℤ) (es : List (V × V)) : V → V → ℤ :=
  es.foldl (fun r e => push r b e) r

def outflow (N : Finset V) (c r : V → V → ℤ) (u : V) : ℤ := ∑ v ∈ N, (c u v - r u v)

/-- The capacity of the pairs that leave a set of nodes. -/
def cut (N : Finset V) (c : V → V → ℤ) (T : Finset V) : ℤ := ∑ u ∈ T, ∑ v ∈ N \ T, c u v

/-- The residual network of a flow of the given value from `s` to `t`. -/
structure IsResidual (N : Finset V) (c : V → V → ℤ) (s t : V) (r : V → V → ℤ) (value : ℤ) :
    Prop where
  nonneg : ∀ u v, 0 ≤ r u v
  /-- What flows one way does not flow the other. -/
  pair : ∀ u v, r u v + r v u = c u v + c v u
  conserve : ∀ u ∈ N, u ≠ s → u ≠ t → outflow N c r u = 0
  value_eq : outflow N c r s = value

variable {N : Finset V} {c r : V → V → ℤ} {s t : V} {value b : ℤ}

variable {e : V × V} {es : List (V × V)}

lemma push_pair (he : e.1 ≠ e.2) (u v : V) :
    push r b e u v + push r b e v u = r u v + r v u := by
  obtain ⟨p, q⟩ := e
  dsimp only at he
  simp only [push, Prod.mk.injEq]
  by_cases h₁ : u = p ∧ v = q
  · obtain ⟨rfl, rfl⟩ := h₁
    simp [he, he.symm]
  · by_cases h₂ : v = p ∧ u = q
    · obtain ⟨rfl, rfl⟩ := h₂
      simp [he, he.symm]
    · simp [h₁, h₂]

/-- A push takes the amount out of the first node and into the second. -/
theorem outflow_push (he : e.1 ≠ e.2) (h₁ : e.1 ∈ N) (h₂ : e.2 ∈ N) (u : V) :
    outflow N c (push r b e) u =
      outflow N c r u + (if u = e.1 then b else 0) - (if u = e.2 then b else 0) := by
  obtain ⟨p, q⟩ := e
  dsimp only at he h₁ h₂ ⊢
  have hterm : ∀ v, c u v - push r b (p, q) u v = (c u v - r u v) +
      ((if v = q then if u = p then b else 0 else 0) - if v = p then if u = q then b else 0 else 0)
      := by
    intro v
    simp only [push, Prod.mk.injEq]
    by_cases hu : u = p
    · subst hu
      by_cases hv : v = q
      · subst hv
        simp [he]
        ring
      · simp [hv, he]
    · by_cases hu' : u = q
      · subst hu'
        by_cases hv : v = p
        · subst hv
          simp [he.symm]
          ring
        · simp [hv, he.symm]
      · simp [hu, hu']
  have hterms : ∑ v ∈ N, ((if v = q then if u = p then b else 0 else 0) -
      if v = p then if u = q then b else 0 else 0) =
        (if u = p then b else 0) - if u = q then b else 0 := by
    rw [sum_sub_distrib, sum_ite_eq', sum_ite_eq', if_pos h₂, if_pos h₁]
  rw [outflow, sum_congr rfl fun v _ => hterm v, sum_add_distrib, hterms, outflow]
  ring

lemma pushAll_cons (r : V → V → ℤ) (b : ℤ) (e : V × V) (es : List (V × V)) :
    pushAll r b (e :: es) = pushAll (push r b e) b es := rfl

lemma pushAll_pair (hes : ∀ e ∈ es, e.1 ≠ e.2) (u v : V) :
    pushAll r b es u v + pushAll r b es v u = r u v + r v u := by
  induction es generalizing r with
  | nil => rfl
  | cons e es ih =>
    rw [pushAll_cons, ih fun e' he' => hes e' (List.mem_cons_of_mem _ he'),
      push_pair (hes e List.mem_cons_self)]

/-- A push takes nothing from the other pairs. -/
theorem le_push {e e' : V × V} (hne : e' ≠ e) (hb : 0 ≤ b) :
    r e'.1 e'.2 ≤ push r b e e'.1 e'.2 := by
  rw [push, if_neg (show ¬(e'.1, e'.2) = e from hne)]
  split <;> omega

lemma push_nonneg (hb : 0 ≤ b) (he : b ≤ r e.1 e.2) (hr : ∀ u v, 0 ≤ r u v) (u v : V) :
    0 ≤ push r b e u v := by
  have huv := hr u v
  rw [push]
  split
  next heq =>
    subst heq
    exact sub_nonneg.mpr he
  next => split <;> omega

/-- Sending no more over a pair than it has left, once, leaves no negative amount. -/
theorem pushAll_nonneg (hnodup : es.Nodup) (hb : 0 ≤ b) (hes : ∀ e ∈ es, b ≤ r e.1 e.2)
    (hr : ∀ u v, 0 ≤ r u v) (u v : V) : 0 ≤ pushAll r b es u v := by
  induction es generalizing r with
  | nil => exact hr u v
  | cons e es ih =>
    obtain ⟨hnot, hnodup⟩ := List.nodup_cons.mp hnodup
    rw [pushAll_cons]
    apply ih hnodup
    · intro e' he'
      have hne : e' ≠ e := fun heq => hnot (heq ▸ he')
      exact (hes e' (List.mem_cons_of_mem _ he')).trans (le_push hne hb)
    · exact push_nonneg hb (hes e List.mem_cons_self) hr

/-- Along a path only the two ends change their balance. -/
theorem outflow_pushAll (hback : Backtrace s t es) (hes : ∀ e ∈ es, e.1 ≠ e.2 ∧ e.1 ∈ N ∧ e.2 ∈ N)
    (u : V) :
    outflow N c (pushAll r b es) u =
      outflow N c r u + (if u = s then b else 0) - (if u = t then b else 0) := by
  induction hback generalizing r with
  | nil => simp [pushAll]
  | @cons p v es _ ih =>
    obtain ⟨hne, hp, hv⟩ := hes (p, v) List.mem_cons_self
    rw [pushAll_cons, ih fun e' he' => hes e' (List.mem_cons_of_mem _ he'), outflow_push hne hp hv]
    ring

namespace IsResidual

omit [DecidableEq V] in
lemma start (hc : ∀ u v, 0 ≤ c u v) (s t : V) : IsResidual N c s t c 0 where
  nonneg := hc
  pair _ _ := rfl
  conserve _ _ _ _ := by simp [outflow]
  value_eq := by simp [outflow]

/-- Sending an amount along a path from `s` to `t` adds it to the value. -/
theorem pushAll (h : IsResidual N c s t r value) (hst : s ≠ t) {es : List (V × V)}
    (hback : Backtrace s t es) (hnodup : es.Nodup)
    (hes : ∀ e ∈ es, e.1 ≠ e.2 ∧ e.1 ∈ N ∧ e.2 ∈ N) (hb : 0 ≤ b) (hle : ∀ e ∈ es, b ≤ r e.1 e.2) :
    IsResidual N c s t (pushAll r b es) (value + b) where
  nonneg := pushAll_nonneg hnodup hb hle h.nonneg
  pair u v := (pushAll_pair (fun e he => (hes e he).1) u v).trans (h.pair u v)
  conserve u hu hus hut := by
    rw [outflow_pushAll hback hes, h.conserve u hu hus hut, if_neg hus, if_neg hut]
    rfl
  value_eq := by
    rw [outflow_pushAll hback hes, h.value_eq, if_pos rfl, if_neg hst, sub_zero]

variable {T : Finset V}

/-- What leaves the nodes of a cut leaves the source. -/
theorem value_eq_across (h : IsResidual N c s t r value) (hT : T ⊆ N) (hs : s ∈ T) (ht : t ∉ T) :
    value = ∑ u ∈ T, ∑ v ∈ N \ T, (c u v - r u v) := by
  have hout : ∑ u ∈ T, outflow N c r u = value := by
    rw [← h.value_eq, sum_eq_single_of_mem s hs]
    intro u hu hne
    exact h.conserve u (hT hu) hne fun heq => ht (heq ▸ hu)
  -- Inside the cut the two directions of a pair cancel.
  have hinside : ∑ u ∈ T, ∑ v ∈ T, (c u v - r u v) = 0 := by
    have hswap : ∑ u ∈ T, ∑ v ∈ T, (c u v - r u v) = ∑ u ∈ T, ∑ v ∈ T, (c v u - r v u) :=
      sum_comm
    have hcancel : ∑ u ∈ T, ∑ v ∈ T, (c u v - r u v) + ∑ u ∈ T, ∑ v ∈ T, (c v u - r v u) = 0 := by
      rw [← sum_add_distrib]
      apply sum_eq_zero
      intro u _
      rw [← sum_add_distrib]
      apply sum_eq_zero
      intro v _
      have := h.pair u v
      omega
    omega
  have hsplit : ∑ u ∈ T, outflow N c r u =
      ∑ u ∈ T, ∑ v ∈ N \ T, (c u v - r u v) + ∑ u ∈ T, ∑ v ∈ T, (c u v - r u v) := by
    rw [← sum_add_distrib]
    apply sum_congr rfl
    intro u _
    exact (sum_sdiff hT).symm
  rw [← hout, hsplit, hinside, add_zero]

lemma value_le_cut (h : IsResidual N c s t r value) (hT : T ⊆ N) (hs : s ∈ T) (ht : t ∉ T) :
    value ≤ cut N c T := by
  rw [h.value_eq_across hT hs ht]
  apply sum_le_sum
  intro u _
  apply sum_le_sum
  intro v _
  have := h.nonneg u v
  omega

lemma value_eq_cut (h : IsResidual N c s t r value) (hT : T ⊆ N) (hs : s ∈ T) (ht : t ∉ T)
    (hfull : ∀ u ∈ T, ∀ v ∈ N \ T, r u v = 0) : value = cut N c T := by
  rw [h.value_eq_across hT hs ht]
  apply sum_congr rfl
  intro u hu
  apply sum_congr rfl
  intro v hv
  rw [hfull u hu v hv, sub_zero]

end IsResidual

end Flow
