import Mathlib.Logic.Function.Basic
import Mathlib.Data.Option.Basic
import Mathlib.Data.Nat.Notation

/-!
# Interleavings

A system of threads is given by what each label does to the shared state. A label names the thread
and the step it takes, and has no result where the step is not enabled. A run is a list of labels,
so that every interleaving of every number of threads is one.

* `Interleaving.run` — the state after a run, if every step was enabled;
* `Interleaving.Meets` — every step of a run satisfies a condition on the state before it;
* `Interleaving.run_induction` — what each step preserves holds after every run.
-/

namespace IssunDB

namespace Interleaving

variable {S L : Type} {step : L → S → Option S}

def run (step : L → S → Option S) : List L → S → Option S
  | [], s => some s
  | l :: ls, s => (step l s).bind (run step ls)

/-- Every step of a run satisfies `C` in the state that it is taken in. -/
def Meets (step : L → S → Option S) (C : L → S → Prop) : List L → S → Prop
  | [], _ => True
  | l :: ls, s => C l s ∧ (step l s).elim True (Meets step C ls)

variable {ls : List L} {C : L → S → Prop}

lemma run_cons_eq_some {l : L} {s s' : S} :
    run step (l :: ls) s = some s' ↔ ∃ s₁, step l s = some s₁ ∧ run step ls s₁ = some s' :=
  Option.bind_eq_some_iff

/-- A condition that every step satisfies is met by every run. -/
theorem meets_of_forall (h : ∀ l s, C l s) (ls : List L) (s : S) :
    Meets step C ls s := by
  induction ls generalizing s with
  | nil => trivial
  | cons l ls ih =>
    refine ⟨h l s, ?_⟩
    cases step l s with
    | none => trivial
    | some s' => exact ih s'

/-- Whether every step of a run passes a test on the state before it. -/
def check (step : L → S → Option S) (c : L → S → Bool) : List L → S → Bool
  | [], _ => true
  | l :: ls, s => c l s && (step l s).elim true (check step c ls)

/-- A run whose steps pass a test meets the conditions that the test decides. -/
theorem meets_of_check {c : L → S → Bool} (h : ∀ l s, c l s = true → C l s) {s : S}
    (hcheck : check step c ls s = true) : Meets step C ls s := by
  induction ls generalizing s with
  | nil => trivial
  | cons l ls ih =>
    obtain ⟨hl, hrest⟩ := Bool.and_eq_true_iff.mp hcheck
    refine ⟨h l s hl, ?_⟩
    cases hstep : step l s with
    | none => trivial
    | some s' =>
      rw [hstep] at hrest
      exact ih hrest

/-- **Run.** What every step that satisfies the condition preserves holds after every run whose
steps satisfy it. -/
theorem run_induction {I : S → Prop} (hstep : ∀ {l s s'}, C l s → I s → step l s = some s' → I s')
    {s s' : S} (hmeets : Meets step C ls s) (hs : I s) (hrun : run step ls s = some s') : I s' := by
  induction ls generalizing s with
  | nil => exact Option.some.inj hrun ▸ hs
  | cons l ls ih =>
    obtain ⟨s₁, hl, hls⟩ := run_cons_eq_some.mp hrun
    obtain ⟨hC, hrest⟩ := hmeets
    rw [hl] at hrest
    exact ih hrest (hstep hC hs hl) hls

end Interleaving

/-! ## Threads -/

abbrev Threads (P : Type) := ℕ → P

namespace Threads

variable {P : Type} {pc : Threads P} {t t' : ℕ} {p : P}

/-- Thread `t` moves to `p`. -/
def move (pc : Threads P) (t : ℕ) (p : P) : Threads P := Function.update pc t p

@[simp] lemma move_self : pc.move t p t = p := Function.update_self ..

lemma move_of_ne (h : t' ≠ t) : pc.move t p t' = pc t' := Function.update_of_ne h ..

/-- What holds of the thread that moves and of every other one holds of all. -/
theorem forall_move {Q : ℕ → P → Prop} (hself : Q t p) (hother : ∀ t', t' ≠ t → Q t' (pc t')) :
    ∀ t', Q t' (pc.move t p t') := by
  intro t'
  by_cases h : t' = t
  · subst h
    rwa [move_self]
  · rw [move_of_ne h]
    exact hother t' h

end Threads

end IssunDB
