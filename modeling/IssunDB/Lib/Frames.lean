import Mathlib.Algebra.BigOperators.Group.Finset.Basic
import Mathlib.Algebra.GroupWithZero.Nat
import Mathlib.Logic.Relation

/-!
# Frames of a depth-first search

A frame is a node with the part of its row that the search has left. `Scanned` says which edges the
search has looked at: all edges of a node without a frame, and those before what its frame has left.

`workLeft` bounds the number of rounds a search has to go.
-/

variable {α : Type*}

/-- A node reaches another along rows. -/
abbrev Reaches (row : α → List α) : α → α → Prop := Relation.ReflTransGen fun a b => b ∈ row a

/-- The search has looked at the edge from `x` to `y`. -/
def Scanned (row : α → List α) (frames : List (α × List α)) (x y : α) : Prop :=
  y ∈ row x ∧ ∀ rest, (x, rest) ∈ frames → ∃ pre, row x = pre ++ rest ∧ y ∈ pre

variable {row : α → List α} {frames : List (α × List α)} {x y u v : α} {vs : List α}

/-- Going on in a row looks at one edge. -/
theorem scanned_advance (hu : u ∉ frames.map Prod.fst) (hrow : ∃ pre, row u = pre ++ v :: vs) :
    Scanned row ((u, vs) :: frames) x y ↔
      Scanned row ((u, v :: vs) :: frames) x y ∨ (x = u ∧ y = v) := by
  obtain ⟨pre, hpre⟩ := hrow
  have hnot : ∀ rest, (u, rest) ∉ frames := fun rest h => hu (List.mem_map_of_mem h)
  by_cases hx : x = u
  · subst hx
    simp only [Scanned, List.mem_cons, Prod.mk.injEq, true_and, hnot, or_false, forall_eq]
    constructor
    · rintro ⟨hy, pre', hpre', hmem⟩
      have hsplit : pre' = pre ++ [v] := by
        refine List.append_cancel_right (?_ : pre' ++ vs = (pre ++ [v]) ++ vs)
        rw [← hpre', hpre, List.append_assoc, List.singleton_append]
      rw [hsplit, List.mem_append, List.mem_singleton] at hmem
      rcases hmem with hmem | rfl
      · exact Or.inl ⟨hy, pre, hpre, hmem⟩
      · exact Or.inr rfl
    · rintro (⟨hy, pre', hpre', hmem⟩ | rfl)
      · refine ⟨hy, pre' ++ [v], ?_, List.mem_append_left _ hmem⟩
        rw [hpre', List.append_assoc, List.singleton_append]
      · refine ⟨?_, pre ++ [y], ?_, List.mem_append_right _ (List.mem_singleton_self y)⟩
        · rw [hpre]
          exact List.mem_append_right _ List.mem_cons_self
        · rw [hpre, List.append_assoc, List.singleton_append]
  · simp [Scanned, hx]

/-- No edge of a node with a new frame is looked at. -/
theorem scanned_push (hv : v ∉ frames.map Prod.fst) :
    Scanned row ((v, row v) :: frames) x y ↔ x ≠ v ∧ Scanned row frames x y := by
  by_cases hx : x = v
  · subst hx
    simp only [Scanned, List.mem_cons, ne_eq, not_true_eq_false, false_and, iff_false, not_and]
    intro _ hall
    obtain ⟨pre, hpre, hmem⟩ := hall (row x) (Or.inl rfl)
    rw [List.self_eq_append_left.mp hpre] at hmem
    exact List.not_mem_nil hmem
  · simp [Scanned, hx]

/-- A frame without anything left can be dropped. -/
theorem scanned_pop : Scanned row ((u, []) :: frames) x y ↔ Scanned row frames x y := by
  constructor
  · rintro ⟨hy, hall⟩
    exact ⟨hy, fun rest h => hall rest (List.mem_cons_of_mem _ h)⟩
  · rintro ⟨hy, hall⟩
    refine ⟨hy, fun rest h => ?_⟩
    rcases List.mem_cons.mp h with heq | h
    · obtain ⟨rfl, rfl⟩ := Prod.mk.inj heq
      exact ⟨row x, (List.append_nil _).symm, hy⟩
    · exact hall rest h

/-- All edges of a node without a frame are looked at. -/
theorem scanned_of_notMem (hx : x ∉ frames.map Prod.fst) (hy : y ∈ row x) :
    Scanned row frames x y :=
  ⟨hy, fun _ h => absurd (List.mem_map_of_mem h) hx⟩

/-- The rounds left: two more than its row for a node not visited yet, one more than what is left
for a frame. -/
def workLeft (row : α → List α) (unvisited : Finset α) (frames : List (α × List α)) : ℕ :=
  (∑ v ∈ unvisited, ((row v).length + 2)) + (frames.map fun f => f.2.length + 1).sum

lemma workLeft_advance (row : α → List α) (unvisited : Finset α) (u v : α) (vs : List α)
    (frames : List (α × List α)) :
    workLeft row unvisited ((u, vs) :: frames) <
      workLeft row unvisited ((u, v :: vs) :: frames) := by
  simp only [workLeft, List.map_cons, List.sum_cons, List.length_cons]
  omega

lemma workLeft_push [DecidableEq α] {unvisited : Finset α} (hv : v ∈ unvisited)
    (frames : List (α × List α)) :
    workLeft row (unvisited.erase v) ((v, row v) :: frames) < workLeft row unvisited frames := by
  have hsum := Finset.add_sum_erase unvisited (fun v => (row v).length + 2) hv
  simp only [workLeft, List.map_cons, List.sum_cons]
  omega

lemma workLeft_pop (row : α → List α) (unvisited : Finset α) (f : α × List α)
    (frames : List (α × List α)) :
    workLeft row unvisited frames < workLeft row unvisited (f :: frames) := by
  simp only [workLeft, List.map_cons, List.sum_cons]
  omega
