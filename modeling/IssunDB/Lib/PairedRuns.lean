import Mathlib.Data.List.Basic

/-!
# Paired runs

Two interpreters of the same list of instructions, with a third that runs both and stops where they
differ. The interpreters are steps `σ → ι → Except ε σ`, run by `List.foldlM`.

* `foldlM_weaken` — an interpreter that succeeds on more runs has the same results;
* `foldlM_invariant` — what every step preserves holds after a run;
* `foldlM_compare` — either the third interpreter succeeds, or the results are apart.
-/

namespace IssunDB.PairedRuns

variable {σ ι ε : Type}

variable {f : σ → ι → Except ε σ} {l : List ι}

lemma foldlM_cons_ok {i : ι} {s b : σ} (h : (i :: l).foldlM f s = .ok b) :
    ∃ a, f s i = .ok a ∧ l.foldlM f a = .ok b := by
  rw [List.foldlM_cons] at h
  rcases hf : f s i with e | a
  · rw [hf] at h
    cases h
  · rw [hf] at h
    exact ⟨a, rfl, h⟩

lemma foldlM_cons_of_ok {i : ι} {s a : σ} (h : f s i = .ok a) :
    (i :: l).foldlM f s = l.foldlM f a := by
  rw [List.foldlM_cons, h]
  rfl

/-- An interpreter that succeeds where another does, with the same results, does so on runs. -/
theorem foldlM_weaken {c f : σ → ι → Except ε σ} (h : ∀ s i a, c s i = .ok a → f s i = .ok a)
    {s b : σ} (hc : l.foldlM c s = .ok b) : l.foldlM f s = .ok b := by
  induction l generalizing s with
  | nil => exact hc
  | cons i l ih =>
    obtain ⟨a, ha, hl⟩ := foldlM_cons_ok hc
    rw [foldlM_cons_of_ok (h s i a ha)]
    exact ih hl

/-- What every step preserves holds after a run. -/
theorem foldlM_invariant {I : List ι → σ → Prop}
    (h : ∀ done s i a, I done s → f s i = .ok a → I (done ++ [i]) a) {s b : σ} {done : List ι}
    (hs : I done s) (hf : l.foldlM f s = .ok b) : I (done ++ l) b := by
  induction l generalizing s done with
  | nil =>
    obtain rfl : s = b := Except.ok.inj hf
    rwa [List.append_nil]
  | cons i l ih =>
    obtain ⟨a, ha, hl⟩ := foldlM_cons_ok hf
    have hb := ih (h done s i a hs ha) hl
    rwa [List.append_assoc, List.singleton_append] at hb

/-- **Two runs that never differ are one run.** The states of two interpreters are equal, and the
comparing interpreter reaches them too, until a step brings them apart; from then on they stay
so. -/
theorem foldlM_compare {f g c : σ → ι → Except ε σ} {I : σ → Prop} {Apart : σ → σ → Prop}
    (hstep : ∀ s i a b, I s → f s i = .ok a → g s i = .ok b → (c s i = .ok a ∧ a = b ∧ I a) ∨
      Apart a b)
    (hkeep : ∀ s s' i a b, Apart s s' → f s i = .ok a → g s' i = .ok b → Apart a b) {s a b : σ}
    (hs : I s) (hf : l.foldlM f s = .ok a) (hg : l.foldlM g s = .ok b) :
    l.foldlM c s = .ok a ∨ Apart a b := by
  induction l generalizing s with
  | nil => exact .inl hf
  | cons i l ih =>
    obtain ⟨x, hx, hfl⟩ := foldlM_cons_ok hf
    obtain ⟨y, hy, hgl⟩ := foldlM_cons_ok hg
    rcases hstep s i x y hs hx hy with ⟨hc, rfl, hx'⟩ | hapart
    · rw [foldlM_cons_of_ok hc]
      exact ih hx' hfl hgl
    · -- the rest of both runs keeps the states apart
      refine .inr ?_
      clear ih hf hg hx hy
      induction l generalizing x y with
      | nil =>
        obtain rfl := Except.ok.inj hfl
        obtain rfl := Except.ok.inj hgl
        exact hapart
      | cons j l ih =>
        obtain ⟨x', hx', hfl'⟩ := foldlM_cons_ok hfl
        obtain ⟨y', hy', hgl'⟩ := foldlM_cons_ok hgl
        exact ih x' hfl' y' hgl' (hkeep x y j x' y' hapart hx' hy')

end IssunDB.PairedRuns
