import IssunDB.Temporal.Parsing

/-!
# Calls that return

A call returns when it ends with a value or an error (`Returns`). A call without errors is given by
when it returns and by its value then (`Yields`), and so are the calls made of such calls.
-/

namespace IssunDB.Temporal

open Texts

/-- The call ends with a value or an error. -/
def Returns {α : Type} (r : Run α) : Prop := r ≠ .error .abort

/-- An integer of type `i64`. -/
def Fits (i : ℤ) : Prop := -2 ^ 63 ≤ i ∧ i < 2 ^ 63

section Returns

variable {α β : Type}

@[simp] lemma returns_ok (a : α) : Returns (.ok a : Run α) := fun h => nomatch h

@[simp] lemma returns_fail (message : String) : Returns (fail message : Run α) := by
  intro h
  cases Except.error.inj h

@[simp] lemma returns_error (message : String) :
    Returns (.error (.error message) : Run α) := returns_fail message

@[simp] lemma not_returns_abort : ¬ Returns (.error .abort : Run α) := fun h => h rfl

@[simp] lemma returns_bind {r : Run α} {f : α → Run β} :
    Returns (r >>= f) ↔ Returns r ∧ ∀ a, r = .ok a → Returns (f a) := by
  cases r with
  | error e =>
    refine ⟨fun h => ⟨fun he => h ?_, fun a ha => nomatch ha⟩, fun h he => h.1 ?_⟩
    · obtain rfl := Except.error.inj he
      rfl
    · obtain rfl := Except.error.inj he
      rfl
  | ok a =>
    refine ⟨fun h => ⟨returns_ok a, fun b hb => ?_⟩, fun h => h.2 a rfl⟩
    obtain rfl := Except.ok.inj hb
    exact h

@[simp] lemma returns_orAbort {o : Option α} : Returns (orAbort o) ↔ o.isSome := by
  cases o with
  | none => exact iff_of_false not_returns_abort Bool.false_ne_true
  | some a => exact iff_of_true (returns_ok a) rfl

@[simp] lemma returns_sliceAt {n : ℕ} {s : List Char} : Returns (sliceAt n s) ↔ (cut n s).isSome :=
  returns_orAbort

@[simp] lemma returns_elim_fail {o : Option α} {message : String} :
    Returns (o.elim (fail message) .ok) := by
  cases o with
  | none => exact returns_fail message
  | some a => exact returns_ok a

lemma checkedI64_eq_ok {i j : ℤ} : checkedI64 i = .ok j ↔ Fits i ∧ i = j := by
  unfold checkedI64
  split
  next h => exact ⟨fun heq => ⟨h, Except.ok.inj heq⟩, fun heq => congrArg _ heq.2⟩
  next h => exact iff_of_false (fun heq => nomatch heq) fun heq => h heq.1

@[simp] lemma returns_checkedI64 {i : ℤ} : Returns (checkedI64 i) ↔ Fits i := by
  unfold checkedI64
  split
  next h => exact iff_of_true (returns_ok i) h
  next h => exact iff_of_false not_returns_abort h

lemma checkedI64_of_fits {i : ℤ} (h : Fits i) : checkedI64 i = .ok i :=
  checkedI64_eq_ok.mpr ⟨h, rfl⟩

lemma ok_bind (a : α) (f : α → Run β) : ((.ok a : Run α) >>= f) = f a := rfl

@[simp] lemma returns_checkedI64_bind {i : ℤ} {f : ℤ → Run α} :
    Returns (checkedI64 i >>= f) ↔ Fits i ∧ Returns (f i) := by
  rw [returns_bind, returns_checkedI64]
  refine and_congr_right fun h => ⟨fun hall => hall i (checkedI64_eq_ok.mpr ⟨h, rfl⟩), ?_⟩
  rintro hf j hj
  obtain ⟨-, rfl⟩ := checkedI64_eq_ok.mp hj
  exact hf

/-- The call has the value `a` where `P` holds, and aborts where it does not. -/
structure Yields (r : Run α) (P : Prop) (a : α) : Prop where
  value : P → r = .ok a
  abort : ¬ P → r = .error .abort

namespace Yields

variable {r : Run α} {f : α → Run β} {P Q : Prop} {a : α} {b : β}

lemma returns (h : Yields r P a) : Returns r ↔ P := by
  refine ⟨fun hret => by_contra fun hP => hret (h.abort hP), fun hP => ?_⟩
  rw [h.value hP]
  exact returns_ok a

lemma eq_of_ok {c : α} (h : Yields r P a) (hc : r = .ok c) : P ∧ c = a := by
  have hP : P := by
    rw [← h.returns, hc]
    exact returns_ok c
  exact ⟨hP, Except.ok.inj (hc.symm.trans (h.value hP))⟩

lemma congr (h : Yields r P a) (hiff : P ↔ Q) : Yields r Q a :=
  ⟨fun hQ => h.value (hiff.mpr hQ), fun hQ => h.abort fun hP => hQ (hiff.mp hP)⟩

lemma ok (a : α) : Yields (.ok a) True a := ⟨fun _ => rfl, fun h => absurd trivial h⟩

lemma checkedI64 (i : ℤ) : Yields (checkedI64 i) (Fits i) i :=
  ⟨checkedI64_of_fits, fun h => if_neg h⟩

/-- A step after a call. -/
theorem bind (h : Yields r P a) (hf : P → Yields (f a) Q b) : Yields (r >>= f) (P ∧ Q) b := by
  refine ⟨fun hPQ => ?_, fun hnot => ?_⟩
  · rw [h.value hPQ.1, ok_bind]
    exact (hf hPQ.1).value hPQ.2
  · by_cases hP : P
    · rw [h.value hP, ok_bind]
      exact (hf hP).abort fun hQ => hnot ⟨hP, hQ⟩
    · rw [h.abort hP]
      rfl

lemma returns_bind (h : Yields r P a) : Returns (r >>= f) ↔ P ∧ Returns (f a) := by
  rw [Temporal.returns_bind, h.returns]
  refine and_congr_right fun hP => ⟨fun hall => hall a (h.value hP), fun hf b hb => ?_⟩
  rw [(h.eq_of_ok hb).2]
  exact hf

lemma map (h : Yields r P a) (g : α → β) : Yields (r.map g) P (g a) := by
  refine ⟨fun hP => ?_, fun hP => ?_⟩
  · rw [h.value hP]
    rfl
  · rw [h.abort hP]
    rfl

end Yields

/-- A call on an optional argument that is there. -/
theorem mapM_some (g : α → Run β) (a : α) : (some a).mapM g = (g a).map some := rfl

end Returns

end IssunDB.Temporal
