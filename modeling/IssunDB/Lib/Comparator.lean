import Mathlib.Data.Set.Basic
import Mathlib.Tactic.Common

/-!
# Comparators on a set

A three-way comparison is often lawful on the values at hand only, not on every value of their
type. `ComparesOn cmp T` says that `cmp` is a total preorder on the set `T`; a comparison built from
others (`comap`, `lex`, `ranked`, `lists`) is lawful where its parts are.
-/

/-- On `T`, swapping the arguments swaps the answer and being at most is transitive. -/
structure ComparesOn {α : Type*} (cmp : α → α → Ordering) (T : Set α) : Prop where
  swap : ∀ a ∈ T, ∀ b ∈ T, cmp b a = (cmp a b).swap
  trans : ∀ a ∈ T, ∀ b ∈ T, ∀ c ∈ T, (cmp a b).isLE → (cmp b c).isLE → (cmp a c).isLE

namespace ComparesOn

open List

variable {α β κ : Type*} {cmp cmp' : α → α → Ordering} {T : Set α}

/-- The comparison of the members of the set as a type. -/
theorem transCmp (h : ComparesOn cmp T) : Std.TransCmp fun a b : T => cmp a b where
  eq_swap {a b} := h.swap b b.2 a a.2
  isLE_trans {a b c} hab hbc := h.trans a a.2 b b.2 c c.2 hab hbc

lemma mono {U : Set α} (h : ComparesOn cmp T) (hU : U ⊆ T) : ComparesOn cmp U where
  swap a ha b hb := h.swap a (hU ha) b (hU hb)
  trans a ha b hb c hc := h.trans a (hU ha) b (hU hb) c (hU hc)

lemma congr (h : ComparesOn cmp T) (hcmp : ∀ a ∈ T, ∀ b ∈ T, cmp' a b = cmp a b) :
    ComparesOn cmp' T where
  swap a ha b hb := by
    rw [hcmp a ha b hb, hcmp b hb a ha]
    exact h.swap a ha b hb
  trans a ha b hb c hc := by
    rw [hcmp a ha b hb, hcmp b hb c hc, hcmp a ha c hc]
    exact h.trans a ha b hb c hc

lemma self (h : ComparesOn cmp T) {a : α} (ha : a ∈ T) : cmp a a = .eq := by
  have hcmp := h.transCmp
  exact @Std.ReflCmp.compare_self _ (fun a b : T => cmp a b) inferInstance ⟨a, ha⟩

section Triples

variable (h : ComparesOn cmp T) {a b c : α} (ha : a ∈ T) (hb : b ∈ T) (hc : c ∈ T)
include h ha hb

lemma isLE_total : (cmp a b).isLE ∨ (cmp b a).isLE := by
  rw [h.swap a ha b hb]
  cases cmp a b <;> simp

lemma eq_of_isLE (hab : (cmp a b).isLE) (hba : (cmp b a).isLE) : cmp a b = .eq := by
  rw [h.swap a ha b hb] at hba
  exact Ordering.eq_eq_of_isLE_of_isLE_swap hab hba

include hc

/-- Values that tie compare alike with everything. -/
theorem congr_left (hab : cmp a b = .eq) : cmp a c = cmp b c := by
  exact @Std.TransCmp.congr_left _ (fun a b : T => cmp a b) h.transCmp ⟨a, ha⟩ ⟨b, hb⟩ ⟨c, hc⟩ hab

lemma congr_right (hbc : cmp b c = .eq) : cmp a b = cmp a c := by
  exact @Std.TransCmp.congr_right _ (fun a b : T => cmp a b) h.transCmp ⟨a, ha⟩ ⟨b, hb⟩ ⟨c, hc⟩ hbc

lemma lt_of_lt_of_isLE (hab : cmp a b = .lt) (hbc : (cmp b c).isLE) : cmp a c = .lt := by
  exact @Std.TransCmp.lt_of_lt_of_isLE _ (fun a b : T => cmp a b) h.transCmp ⟨a, ha⟩ ⟨b, hb⟩ ⟨c,
    hc⟩ hab hbc

end Triples

/-! ## Building comparators -/

lemma ties (h : ∀ a ∈ T, ∀ b ∈ T, cmp a b = .eq) : ComparesOn cmp T where
  swap a ha b hb := by
    rw [h a ha b hb, h b hb a ha]
    rfl
  trans a ha b hb c hc _ _ := by
    rw [h a ha c hc]
    rfl

lemma ofKey [Ord κ] [Std.TransOrd κ] (key : α → κ)
    (h : ∀ a ∈ T, ∀ b ∈ T, cmp a b = compare (key a) (key b)) :
    ComparesOn cmp T where
  swap a ha b hb := by
    rw [h a ha b hb, h b hb a ha]
    exact Std.OrientedOrd.eq_swap
  trans a ha b hb c hc := by
    rw [h a ha b hb, h b hb c hc, h a ha c hc]
    exact Std.TransOrd.isLE_trans

theorem comap {U : Set β} {f : β → α} (h : ComparesOn cmp T) (hf : ∀ b ∈ U, f b ∈ T) :
    ComparesOn (fun b b' => cmp (f b) (f b')) U where
  swap b hb b' hb' := h.swap _ (hf b hb) _ (hf b' hb')
  trans b hb b' hb' b'' hb'' := h.trans _ (hf b hb) _ (hf b' hb') _ (hf b'' hb'')

lemma reverse (h : ComparesOn cmp T) : ComparesOn (fun a b => (cmp a b).swap) T where
  swap a ha b hb := congrArg Ordering.swap (h.swap a ha b hb)
  trans a ha b hb c hc hab hbc := by
    rw [← h.swap a ha b hb] at hab
    rw [← h.swap b hb c hc] at hbc
    rw [← h.swap a ha c hc]
    exact h.trans c hc b hb a ha hbc hab

/-- One comparator, and another one where the first sees no difference. -/
theorem lex (h : ComparesOn cmp T) (h' : ComparesOn cmp' T) :
    ComparesOn (fun a b => (cmp a b).then (cmp' a b)) T where
  swap a ha b hb := by
    rw [h.swap a ha b hb, h'.swap a ha b hb, Ordering.swap_then]
  trans a ha b hb c hc hab hbc := by
    rw [Ordering.isLE_then_iff_or] at hab hbc ⊢
    rcases hab with hab | ⟨hab, hab'⟩
    · exact .inl
        (h.lt_of_lt_of_isLE ha hb hc hab (by rcases hbc with hbc | ⟨hbc, -⟩ <;> rw [hbc] <;> rfl))
    · rw [h.congr_left ha hb hc hab]
      exact hbc.imp_right fun ⟨hbc, hbc'⟩ => ⟨hbc, h'.trans a ha b hb c hc hab' hbc'⟩

theorem ranked (rank : α → ℕ)
    (h : ∀ r, ComparesOn cmp {a | a ∈ T ∧ rank a = r})
    (hne : ∀ a ∈ T, ∀ b ∈ T, rank a ≠ rank b → cmp a b = compare (rank a) (rank b)) :
    ComparesOn cmp T where
  swap a ha b hb := by
    by_cases hr : rank a = rank b
    · exact (h (rank b)).swap a ⟨ha, hr⟩ b ⟨hb, rfl⟩
    · rw [hne a ha b hb hr, hne b hb a ha (Ne.symm hr)]
      exact Std.OrientedOrd.eq_swap
  trans a ha b hb c hc hab hbc := by
    have hle : ∀ x ∈ T, ∀ y ∈ T, (cmp x y).isLE → rank x ≤ rank y := by
      intro x hx y hy hxy
      by_cases hr : rank x = rank y
      · exact hr.le
      · rw [hne x hx y hy hr] at hxy
        exact Nat.isLE_compare.mp hxy
    have hab' := hle a ha b hb hab
    have hbc' := hle b hb c hc hbc
    by_cases hr : rank a = rank c
    · have hrb : rank b = rank c := by omega
      exact (h (rank c)).trans a ⟨ha, hr⟩ b ⟨hb, hrb⟩ c ⟨hc, rfl⟩ hab hbc
    · rw [hne a ha c hc hr]
      exact Nat.isLE_compare.mpr (by omega)

/-- Lists, by their first difference, the shorter one first where there is none. -/
theorem lists (h : ComparesOn cmp T) :
    ComparesOn (List.compareLex cmp) {l | ∀ a ∈ l, a ∈ T} where
  swap a ha b hb := by
    induction a generalizing b with
    | nil => cases b <;> rfl
    | cons x xs ih =>
      cases b with
      | nil => rfl
      | cons y ys =>
        rw [List.compareLex_cons_cons, List.compareLex_cons_cons, Ordering.swap_then,
          h.swap x (ha x mem_cons_self) y (hb y mem_cons_self),
          ih (fun a hmem => ha a (mem_cons_of_mem _ hmem)) ys
            fun b hmem => hb b (mem_cons_of_mem _ hmem)]
  trans a ha b hb c hc hab hbc := by
    induction a generalizing b c with
    | nil => exact List.isLE_compareLex_nil_left
    | cons x xs ih =>
      cases b with
      | nil => cases hab
      | cons y ys =>
        cases c with
        | nil => cases hbc
        | cons z zs =>
          have hx := ha x mem_cons_self
          have hy := hb y mem_cons_self
          have hz := hc z mem_cons_self
          rw [List.compareLex_cons_cons, Ordering.isLE_then_iff_or] at hab hbc ⊢
          rcases hab with hab | ⟨hab, hab'⟩
          · exact .inl (h.lt_of_lt_of_isLE hx hy hz hab (by
              rcases hbc with hbc | ⟨hbc, -⟩ <;> rw [hbc] <;> rfl))
          · rw [h.congr_left hx hy hz hab]
            exact hbc.imp_right fun ⟨hbc, hbc'⟩ => ⟨hbc,
              ih (fun a hmem => ha a (mem_cons_of_mem _ hmem)) ys
                (fun b hmem => hb b (mem_cons_of_mem _ hmem)) zs
                (fun c hmem => hc c (mem_cons_of_mem _ hmem)) hab' hbc'⟩

end ComparesOn
