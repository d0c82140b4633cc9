import Mathlib

/-!
# Bounded reachability

`within step start k` is the set of what lies at most `k` steps from the set `start`. It grows with
`k`, and stops growing at the first `k` at which it is closed under steps.
-/

variable {α : Type*}

/-- What lies within `k` steps of `start`. -/
def within (step : α → α → Prop) (start : Set α) : ℕ → Set α
  | 0 => start
  | k + 1 => within step start k ∪ {b | ∃ a ∈ within step start k, step a b}

variable {step : α → α → Prop} {start : Set α}

lemma mem_within_succ {k : ℕ} {b : α} :
    b ∈ within step start (k + 1) ↔
      b ∈ within step start k ∨ ∃ a ∈ within step start k, step a b := Iff.rfl

lemma within_mono {k m : ℕ} (h : k ≤ m) : within step start k ⊆ within step start m := by
  induction h with
  | refl => exact subset_rfl
  | step _ ih => exact ih.trans Set.subset_union_left

/-- Once nothing new is one step away, more steps add nothing. -/
theorem within_eq_of_closed {k m : ℕ} (h : k ≤ m)
    (hclosed : ∀ a ∈ within step start k, ∀ b, step a b → b ∈ within step start k) :
    within step start m = within step start k := by
  induction h with
  | refl => rfl
  | step _ ih =>
    refine Set.Subset.antisymm ?_ (ih ▸ Set.subset_union_left)
    rintro b (hb | ⟨a, ha, hab⟩)
    · exact ih ▸ hb
    · exact hclosed a (ih ▸ ha) b hab

lemma within_empty (k : ℕ) : within step ∅ k = ∅ :=
  within_eq_of_closed (Nat.zero_le k) fun _ ha => ha.elim

/-- Reachability is carried along a relation of names that matches starts and steps. -/
theorem mem_within_of_names {β : Type*} (name : α → β → Prop) {step' : β → β → Prop}
    {start' : Set β} (hstart : ∀ b, b ∈ start' ↔ ∃ a ∈ start, name a b)
    (hstep : ∀ a b b', name a b → (step' b b' ↔ ∃ a', step a a' ∧ name a' b'))
    (hnamed : ∀ a a', step a a' → ∃ b, name a b)
    (k : ℕ) (b : β) : b ∈ within step' start' k ↔ ∃ a ∈ within step start k, name a b := by
  induction k generalizing b with
  | zero => exact hstart b
  | succ k ih =>
    rw [mem_within_succ]
    constructor
    · rintro (hb | ⟨c, hc, hcb⟩)
      · obtain ⟨a, ha, hab⟩ := (ih b).mp hb
        exact ⟨a, Or.inl ha, hab⟩
      · obtain ⟨a, ha, hac⟩ := (ih c).mp hc
        obtain ⟨a', haa', hab⟩ := (hstep a c b hac).mp hcb
        exact ⟨a', Or.inr ⟨a, ha, haa'⟩, hab⟩
    · rintro ⟨a', ha' | ⟨a, ha, haa'⟩, hab⟩
      · exact Or.inl ((ih b).mpr ⟨a', ha', hab⟩)
      · obtain ⟨c, hac⟩ := hnamed a a' haa'
        exact Or.inr ⟨c, (ih c).mpr ⟨a, ha, hac⟩, (hstep a c b hac).mpr ⟨a', haa', hab⟩⟩

lemma within_succ_of_frontier {k : ℕ} (frontier : Set α)
    (hfrontier : frontier ⊆ within step start k)
    (hclosed : ∀ a ∈ within step start k, a ∉ frontier → ∀ b, step a b → b ∈ within step start k) :
    within step start (k + 1) = within step start k ∪ {b | ∃ a ∈ frontier, step a b} := by
  ext b
  rw [mem_within_succ]
  constructor
  · rintro (hb | ⟨a, ha, hab⟩)
    · exact .inl hb
    · by_cases hfront : a ∈ frontier
      · exact .inr ⟨a, hfront, hab⟩
      · exact .inl (hclosed a ha hfront b hab)
  · rintro (hb | ⟨a, ha, hab⟩)
    · exact .inl hb
    · exact .inr ⟨a, hfrontier ha, hab⟩
