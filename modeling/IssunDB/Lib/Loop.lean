import Mathlib.Order.Lattice.Nat
import Mathlib.Data.List.GetD
import Mathlib.Data.List.Induction
import Mathlib.Logic.Relation
import Mathlib.Tactic.Common

/-!
# Loops

A loop takes steps until there is none. `runSteps` runs it under a bound on the steps, and `Returns`
says that every large enough bound gives the same result. A loop that steps to a state without a
next step returns that state. The arrays that such a loop keeps are lists, read with a default and
written at a position (`List.getD_set`).
-/

namespace List

variable {α : Type*}

/-- Reading after a write in range. -/
theorem getD_set {l : List α} {i : ℕ} (hi : i < l.length) (a d : α) (j : ℕ) :
    (l.set i a).getD j d = if j = i then a else l.getD j d := by
  rw [getD_eq_getElem?_getD, getD_eq_getElem?_getD, getElem?_set]
  by_cases hij : i = j
  · subst hij
    simp [hi]
  · simp [hij, Ne.symm hij]

lemma getD_replicate_self (n : ℕ) (a : α) (i : ℕ) : (replicate n a).getD i a = a := by
  rw [getD_eq_getElem?_getD, getElem?_replicate]
  split <;> rfl

end List

variable {σ α β : Type*}

/-- Every large enough bound gives the result. -/
def Returns (run : ℕ → Option α) (a : α) : Prop := ∃ fuel₀, ∀ fuel, fuel₀ ≤ fuel → run fuel = some a

namespace Returns

variable {run : ℕ → Option α} {a b : α}

lemma unique (ha : Returns run a) (hb : Returns run b) : a = b := by
  obtain ⟨fuel₁, h₁⟩ := ha
  obtain ⟨fuel₂, h₂⟩ := hb
  have heq := (h₁ (max fuel₁ fuel₂) (le_max_left ..)).symm.trans (h₂ _ (le_max_right ..))
  exact Option.some.inj heq

lemma const (a : α) : Returns (fun _ => some a) a := ⟨0, fun _ _ => rfl⟩

lemma map (h : Returns run a) (f : α → β) : Returns (fun fuel => (run fuel).map f) (f a) := by
  obtain ⟨fuel₀, h⟩ := h
  refine ⟨fuel₀, fun fuel hfuel => ?_⟩
  show (run fuel).map f = some (f a)
  rw [h fuel hfuel, Option.map_some]

lemma bind (h : Returns run a) (next : ℕ → α → Option β) {c : β}
    (hnext : Returns (fun fuel => next fuel a) c) :
    Returns (fun fuel => (run fuel).bind (next fuel)) c := by
  obtain ⟨fuel₁, h₁⟩ := h
  obtain ⟨fuel₂, h₂⟩ := hnext
  refine ⟨max fuel₁ fuel₂, fun fuel hfuel => ?_⟩
  show (run fuel).bind (next fuel) = some c
  rw [h₁ fuel (le_trans (le_max_left ..) hfuel), Option.bind_some]
  exact h₂ fuel (le_trans (le_max_right ..) hfuel)

end Returns

def runSteps (step : σ → Option σ) : (fuel : ℕ) → σ → Option σ
  | 0, _ => none
  | fuel + 1, st =>
    match step st with
    | none => some st
    | some st' => runSteps step fuel st'

/-- Some number of steps leads from one state to the other. -/
abbrev StepsTo (step : σ → Option σ) : σ → σ → Prop :=
  Relation.ReflTransGen fun st st' => step st = some st'

variable {step : σ → Option σ} {s t : σ}

lemma StepsTo.returns (h : StepsTo step s t) (hdone : step t = none) :
    Returns (fun fuel => runSteps step fuel s) t := by
  induction h using Relation.ReflTransGen.head_induction_on with
  | refl =>
    refine ⟨1, fun fuel hfuel => ?_⟩
    obtain ⟨fuel, rfl⟩ := Nat.exists_eq_add_of_le' hfuel
    show runSteps step (fuel + 1) t = some t
    rw [runSteps, hdone]
  | @head s s' hstep _ ih =>
    obtain ⟨fuel₀, ih⟩ := ih
    refine ⟨fuel₀ + 1, fun fuel hfuel => ?_⟩
    obtain ⟨fuel, rfl⟩ := Nat.exists_eq_add_of_le' (Nat.le_of_add_left_le hfuel)
    show runSteps step (fuel + 1) s = some t
    rw [runSteps, hstep]
    exact ih fuel (by omega)

/-- A state reached within the bound is returned under every larger bound. -/
theorem runSteps_mono {fuel fuel' : ℕ} (h : runSteps step fuel s = some t) (hle : fuel ≤ fuel') :
    runSteps step fuel' s = some t := by
  induction fuel generalizing fuel' s with
  | zero => cases h
  | succ fuel ih =>
    obtain ⟨fuel', rfl⟩ := Nat.exists_eq_add_of_le' (Nat.le_of_add_left_le hle)
    rw [runSteps] at h ⊢
    revert h
    cases step s with
    | none => exact id
    | some st' => exact fun h => ih h (by omega)

lemma runSteps_eq_none {Inv : σ → Prop}
    (hstep : ∀ s, Inv s → ∃ t, step s = some t ∧ Inv t) (hs : Inv s) (fuel : ℕ) :
    runSteps step fuel s = none := by
  induction fuel generalizing s with
  | zero => rfl
  | succ fuel ih =>
    obtain ⟨t, hnext, ht⟩ := hstep s hs
    rw [runSteps, hnext]
    exact ih ht

lemma exists_stepsTo_of_measure (Inv : σ → Prop) (measure : σ → ℕ)
    (hstep : ∀ s t, Inv s → step s = some t → Inv t ∧ measure t < measure s) (hs : Inv s) :
    ∃ t, StepsTo step s t ∧ step t = none ∧ Inv t := by
  induction hm : measure s using Nat.strong_induction_on generalizing s with
  | _ m ih =>
    cases hnext : step s with
    | none => exact ⟨s, .refl, hnext, hs⟩
    | some t =>
      obtain ⟨ht, hless⟩ := hstep s t hs hnext
      obtain ⟨r, hsteps, hdone, hr⟩ := ih (measure t) (hm ▸ hless) ht rfl
      exact ⟨r, .head hnext hsteps, hdone, hr⟩

lemma exists_returns_foldlM {f : ℕ → σ → α → Option σ} (P : List α → σ → Prop) {l : List α}
    (hstep : ∀ done a st, a ∈ l → P done st →
      ∃ st', Returns (fun fuel => f fuel st a) st' ∧ P (done ++ [a]) st') (hs : P [] s) :
    ∃ t, Returns (fun fuel => l.foldlM (f fuel) s) t ∧ P l t := by
  induction l using List.reverseRecOn with
  | nil => exact ⟨s, .const s, hs⟩
  | append_singleton l a ih =>
    obtain ⟨t, hrun, ht⟩ := ih fun done b st hb => hstep done b st (List.mem_append_left _ hb)
    obtain ⟨t', hlast, ht'⟩ := hstep l a t (List.mem_append_right _ (List.mem_singleton_self a)) ht
    refine ⟨t', ?_, ht'⟩
    have hall := hrun.bind (fun fuel st => f fuel st a) hlast
    have heq : ∀ fuel, (l ++ [a]).foldlM (f fuel) s =
        (l.foldlM (f fuel) s).bind fun st => f fuel st a := by
      intro fuel
      rw [List.foldlM_append]
      refine congrArg _ (funext fun st => ?_)
      exact bind_pure (f fuel st a)
    simp only [heq]
    exact hall
