import Mathlib.Tactic.Common

/-!
# State and errors

Computations that read and write a state and may fail, where a failure keeps the writes made
before it. This is the shape of code that mutates a transaction step by step and returns early
on an error: the caller decides whether the half-done state is thrown away.

The rules come in two forms. `bind_eq_ok` and the lemmas after it take a success apart, one step at
a time. `Keeps f m` says that `m` leaves the part `f` of the state alone, whether it succeeds or
fails; it is proved one bind at a time, and over a list by an invariant. `Along R m` says the same
of a preorder `R` that `m` moves the state along.
-/

/-- A computation over states `σ` with errors `ε`. The final state is returned in both cases. -/
def Exec (ε σ α : Type) : Type := σ → Except ε α × σ

namespace Exec

variable {ε σ τ α β γ : Type}

instance : Monad (Exec ε σ) where
  pure a := fun s => (.ok a, s)
  bind m f := fun s =>
    match m s with
    | (.ok a, s') => f a s'
    | (.error e, s') => (.error e, s')

/-- The current state. -/
def get : Exec ε σ σ := fun s => (.ok s, s)

/-- A part of the current state. -/
def gets (f : σ → α) : Exec ε σ α := fun s => (.ok (f s), s)

/-- Replace the state by its image. -/
def modify (f : σ → σ) : Exec ε σ Unit := fun s => (.ok (), f s)

/-- A step that computes a result and a new state and cannot fail. -/
def state (f : σ → α × σ) : Exec ε σ α := fun s => (.ok (f s).1, (f s).2)

/-- Fail, keeping the state. -/
def throw (e : ε) : Exec ε σ α := fun s => (.error e, s)

/-- A check that reads the state and writes nothing. -/
def check (f : σ → Except ε α) : Exec ε σ α := fun s => (f s, s)

/-- Run `m` on the part of the state that `proj` selects and `put` writes back. -/
def zoom (proj : τ → σ) (put : τ → σ → τ) (m : Exec ε σ α) : Exec ε τ α := fun t =>
  ((m (proj t)).1, put t (m (proj t)).2)

@[simp]
lemma pure_apply (a : α) (s : σ) : (pure a : Exec ε σ α) s = (.ok a, s) := rfl

@[simp]
lemma get_apply (s : σ) : (get : Exec ε σ σ) s = (.ok s, s) := rfl

@[simp]
lemma gets_apply (f : σ → α) (s : σ) : (gets f : Exec ε σ α) s = (.ok (f s), s) := rfl

@[simp]
lemma modify_apply (f : σ → σ) (s : σ) : (modify f : Exec ε σ Unit) s = (.ok (), f s) := rfl

@[simp]
lemma state_apply (f : σ → α × σ) (s : σ) :
    (state f : Exec ε σ α) s = (.ok (f s).1, (f s).2) := rfl

@[simp]
lemma throw_apply (e : ε) (s : σ) : (throw e : Exec ε σ α) s = (.error e, s) := rfl

@[simp]
lemma check_apply (f : σ → Except ε α) (s : σ) : (check f : Exec ε σ α) s = (f s, s) := rfl

lemma bind_apply (m : Exec ε σ α) (f : α → Exec ε σ β) (s : σ) :
    (m >>= f) s =
      match m s with
      | (.ok a, s') => f a s'
      | (.error e, s') => (.error e, s') := rfl

variable {f : α → Exec ε σ β} {m : Exec ε σ α} {s s' : σ}

@[simp]
lemma bind_apply_ok {a : α} (h : m s = (.ok a, s')) : (m >>= f) s = f a s' := by
  simp [bind_apply, h]

lemma bind_apply_error {e : ε} (h : m s = (.error e, s')) : (m >>= f) s = (.error e, s') := by
  simp [bind_apply, h]

lemma state_bind (f : σ → α × σ) (k : α → Exec ε σ β) (s : σ) :
    (state f >>= k) s = k (f s).1 (f s).2 := rfl

lemma get_bind (k : σ → Exec ε σ β) (s : σ) : (get >>= k) s = k s s := rfl

lemma modify_bind (f : σ → σ) (k : Unit → Exec ε σ β) (s : σ) :
    (modify f >>= k) s = k () (f s) := rfl

/-- A sequence that succeeds is a success of both parts. -/
theorem bind_eq_ok {b : β} :
    (m >>= f) s = (.ok b, s') ↔ ∃ a t, m s = (.ok a, t) ∧ f a t = (.ok b, s') := by
  rw [bind_apply]
  rcases h : m s with ⟨_ | a, t⟩
  · simp
  · simp

/-- A step on a part of the state succeeds iff the step does. -/
theorem zoom_eq_ok {proj : τ → σ} {put : τ → σ → τ} {t t' : τ} {a : α} :
    zoom proj put m t = (.ok a, t') ↔ ∃ s, m (proj t) = (.ok a, s) ∧ t' = put t s := by
  unfold zoom
  constructor
  · intro h
    obtain ⟨h1, h2⟩ := Prod.mk.injEq .. ▸ h
    exact ⟨(m (proj t)).2, Prod.ext h1 rfl, h2.symm⟩
  · rintro ⟨s, hm, rfl⟩
    rw [hm]

/-- A walk of a list of steps succeeds iff the first step and the walk of the rest do. -/
theorem forM_cons_eq_ok {k : α → Exec ε σ PUnit} {a : α} {l : List α} {u : PUnit} :
    (a :: l).forM k s = (.ok u, s') ↔ ∃ t, k a s = (.ok u, t) ∧ l.forM k t = (.ok u, s') := by
  change (k a >>= fun _ => l.forM k) s = _ ↔ _
  rw [bind_eq_ok]
  exact ⟨fun ⟨_, t, h, h'⟩ => ⟨t, h, h'⟩, fun ⟨t, h, h'⟩ => ⟨u, t, h, h'⟩⟩

lemma forM_nil_eq_ok {k : α → Exec ε σ PUnit} {u : PUnit} :
    ([] : List α).forM k s = (.ok u, s') ↔ s' = s := by
  change (pure PUnit.unit : Exec ε σ PUnit) s = _ ↔ _
  rw [pure_apply]
  exact ⟨fun h => (congrArg Prod.snd h).symm, fun h => h ▸ rfl⟩

/-! ## Parts of the state a computation leaves alone -/

/-- `m` leaves the part `f` of the state unchanged. -/
def Keeps (f : σ → β) (m : Exec ε σ α) : Prop := ∀ s, f (m s).2 = f s

namespace Keeps

variable {f : σ → γ}

lemma pure (a : α) : Keeps f (pure a : Exec ε σ α) := fun _ => rfl

lemma gets (g : σ → α) : Keeps f (Exec.gets g : Exec ε σ α) := fun _ => rfl

lemma throw (e : ε) : Keeps f (Exec.throw e : Exec ε σ α) := fun _ => rfl

lemma check (g : σ → Except ε α) : Keeps f (Exec.check g : Exec ε σ α) := fun _ => rfl

lemma modify {g : σ → σ} (h : ∀ s, f (g s) = f s) : Keeps f (Exec.modify g : Exec ε σ Unit) := h

lemma state {g : σ → α × σ} (h : ∀ s, f (g s).2 = f s) : Keeps f (Exec.state g : Exec ε σ α) := h

lemma bind {m : Exec ε σ α} {k : α → Exec ε σ β} (hm : Keeps f m) (hk : ∀ a, Keeps f (k a)) :
    Keeps f (m >>= k) := by
  intro s
  rw [bind_apply]
  have hs := hm s
  rcases h : m s with ⟨_ | a, t⟩
  · rw [h] at hs
    exact hs
  · rw [h] at hs
    exact (hk a t).trans hs

lemma forM {l : List α} {k : α → Exec ε σ PUnit} (hk : ∀ a, Keeps f (k a)) :
    Keeps f (l.forM k) := by
  induction l with
  | nil => exact pure _
  | cons a l ih => exact bind (hk a) fun _ => ih

/-- What every step of a fold over a list leaves alone, the fold leaves alone. -/
theorem foldl_of_mem {g : σ → α → σ} {l : List α} (h : ∀ s, ∀ a ∈ l, f (g s a) = f s) (s : σ) :
    f (l.foldl g s) = f s := by
  induction l generalizing s with
  | nil => rfl
  | cons a l ih =>
    have hrest : ∀ s, ∀ b ∈ l, f (g s b) = f s := fun s b hb => h s b (List.mem_cons_of_mem _ hb)
    exact (ih hrest (g s a)).trans (h s a List.mem_cons_self)

lemma foldl {g : σ → α → σ} (h : ∀ s a, f (g s a) = f s) (l : List α) (s : σ) :
    f (l.foldl g s) = f s := foldl_of_mem (fun s a _ => h s a) s

end Keeps

/-- What holds at the start of a fold and is kept by every step holds at its end. -/
theorem foldl_induction {g : σ → α → σ} (P : σ → Prop) (h : ∀ s a, P s → P (g s a)) {l : List α}
    {s : σ} (hs : P s) : P (l.foldl g s) := by
  induction l generalizing s with
  | nil => exact hs
  | cons a l ih => exact ih (h s a hs)

/-! ## Relations a computation follows -/

/-- `m` moves the state along the relation `R`, whether it succeeds or fails. -/
def Along (R : σ → σ → Prop) (m : Exec ε σ α) : Prop := ∀ s, R s (m s).2

namespace Along

variable {R : σ → σ → Prop}

lemma modify {g : σ → σ} (h : ∀ s, R s (g s)) : Along R (Exec.modify g : Exec ε σ Unit) := h

lemma state {g : σ → α × σ} (h : ∀ s, R s (g s).2) : Along R (Exec.state g : Exec ε σ α) := h

section Refl

variable [Std.Refl R]

lemma pure (a : α) : Along R (pure a : Exec ε σ α) := fun s => Std.Refl.refl s

lemma get : Along R (Exec.get : Exec ε σ σ) := fun s => Std.Refl.refl s

lemma throw (e : ε) : Along R (Exec.throw e : Exec ε σ α) := fun s => Std.Refl.refl s

lemma check (g : σ → Except ε α) : Along R (Exec.check g : Exec ε σ α) :=
  fun s => Std.Refl.refl s

end Refl

variable [IsTrans σ R]

lemma bind {m : Exec ε σ α} {k : α → Exec ε σ β} (hm : Along R m) (hk : ∀ a, Along R (k a)) :
    Along R (m >>= k) := by
  intro s
  rw [bind_apply]
  have hs := hm s
  rcases h : m s with ⟨_ | a, t⟩
  · rw [h] at hs
    exact hs
  · rw [h] at hs
    exact Trans.trans hs (hk a t)

variable [Std.Refl R]

lemma forM {l : List α} {k : α → Exec ε σ PUnit} (hk : ∀ a, Along R (k a)) :
    Along R (l.forM k) := by
  induction l with
  | nil => exact pure _
  | cons a l ih => exact bind (hk a) fun _ => ih

/-- What every step of a fold follows, the fold follows. -/
theorem foldl {g : σ → α → σ} (h : ∀ s a, R s (g s a)) (l : List α) (s : σ) :
    R s (l.foldl g s) := by
  induction l generalizing s with
  | nil => exact Std.Refl.refl s
  | cons a l ih => exact Trans.trans (h s a) (ih (g s a))

end Along

end Exec
