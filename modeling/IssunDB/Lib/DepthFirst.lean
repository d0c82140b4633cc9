import IssunDB.Lib.Loop

/-!
# Depth-first enumeration with an explicit stack

A depth-first enumeration walks the children of a point one after another. It passes over some, it
emits a result at a target, and it enters every other child before it goes on with the next one.
The recursion is the relation `Enumerates`. The loop keeps a stack with the children each frame has
left, and undoes the entry of a point when it leaves its frame.

`Enumerates.returns` states that the loop returns what the recursion emits, in its order.
-/

/-- What a depth-first enumeration of points `α` is made of, along a trail `σ`. -/
structure Enumeration (α σ ω : Type*) where
  /-- The children of a point, in the order they are walked. -/
  next : α → List α
  /-- A child that is passed over. -/
  skip : σ → α → Bool
  /-- A child that is emitted and not entered. -/
  target : α → Bool
  /-- The trail inside a child. -/
  enter : σ → α → σ
  /-- The trail after leaving a child. -/
  leave : σ → σ
  /-- What a target emits. -/
  emit : σ → α → ω

namespace Enumeration

variable {α σ ω : Type*}

/-- The state of the loop. -/
structure State (α σ ω : Type*) where
  trail : σ
  /-- The children each frame has left, the deepest frame first. -/
  stack : List (List α)
  found : List ω

variable (D : Enumeration α σ ω)

/-- One round of the loop. The trail of the outermost frame is never undone. -/
def step (st : State α σ ω) : Option (State α σ ω) :=
  match st.stack with
  | [] => none
  | [] :: [] => some { st with stack := [] }
  | [] :: stack => some { st with trail := D.leave st.trail, stack }
  | (v :: vs) :: stack =>
    if D.skip st.trail v then some { st with stack := vs :: stack }
    else if D.target v then
      some { st with stack := vs :: stack, found := st.found ++ [D.emit st.trail v] }
    else some { st with trail := D.enter st.trail v, stack := D.next v :: vs :: stack }

/-- Enumerate from the children of the start. -/
def run (fuel : ℕ) (trail : σ) (start : List α) : Option (List ω) :=
  (runSteps D.step fuel ⟨trail, [start], []⟩).map (·.found)

/-- The recursive enumeration of a list of children emits the results. -/
inductive Enumerates : σ → List α → List ω → Prop
  | nil (trail : σ) : Enumerates trail [] []
  | skip {trail : σ} {v : α} {vs : List α} {out : List ω} (hskip : D.skip trail v = true)
      (hrest : Enumerates trail vs out) : Enumerates trail (v :: vs) out
  | target {trail : σ} {v : α} {vs : List α} {out : List ω} (hskip : D.skip trail v = false)
      (htarget : D.target v = true) (hrest : Enumerates trail vs out) :
      Enumerates trail (v :: vs) (D.emit trail v :: out)
  | enter {trail : σ} {v : α} {vs : List α} {inner out : List ω} (hskip : D.skip trail v = false)
      (htarget : D.target v = false) (hleave : D.leave (D.enter trail v) = trail)
      (hinner : Enumerates (D.enter trail v) (D.next v) inner) (hrest : Enumerates trail vs out) :
      Enumerates trail (v :: vs) (inner ++ out)

variable {D}

variable {out : List ω} {trail : σ}

/-- The loop works off the top frame as the recursion does, and leaves the rest of the stack. -/
theorem Enumerates.stepsTo {vs : List α} (h : D.Enumerates trail vs out) (stack : List (List α))
    (found : List ω) :
    StepsTo D.step ⟨trail, vs :: stack, found⟩ ⟨trail, [] :: stack, found ++ out⟩ := by
  induction h generalizing stack found with
  | nil trail =>
    rw [List.append_nil]
  | skip hskip _ ih =>
    refine .head ?_ (ih stack found)
    simp [step, hskip]
  | @target trail v vs out hskip htarget _ ih =>
    have hrest := ih stack (found ++ [D.emit trail v])
    rw [List.append_assoc, List.singleton_append] at hrest
    refine .head ?_ hrest
    simp [step, hskip, htarget]
  | @enter trail v vs inner out hskip htarget hleave _ _ ihInner ih =>
    have hrest := ih stack (found ++ inner)
    rw [List.append_assoc] at hrest
    refine .head (b := ⟨D.enter trail v, D.next v :: vs :: stack, found⟩) ?_
      ((ihInner (vs :: stack) found).trans (.head ?_ hrest))
    · simp [step, hskip, htarget]
    · simp [step, hleave]

/-- More fuel does not change the results. -/
theorem run_mono {start : List α} {fuel fuel' : ℕ} (h : D.run fuel trail start = some out)
    (hle : fuel ≤ fuel') :
    D.run fuel' trail start = some out := by
  obtain ⟨st, hst, rfl⟩ := Option.map_eq_some_iff.mp h
  exact Option.map_eq_some_iff.mpr ⟨st, runSteps_mono hst hle, rfl⟩

theorem Enumerates.returns {vs : List α} (h : D.Enumerates trail vs out) :
    Returns (fun fuel => D.run fuel trail vs) out := by
  have hsteps : StepsTo D.step ⟨trail, [vs], []⟩ ⟨trail, [], out⟩ :=
    (h.stepsTo [] []).tail rfl
  exact (hsteps.returns rfl).map (·.found)

end Enumeration
