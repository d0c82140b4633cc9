import IssunDB.Lib.Loop
import IssunDB.Lib.Table

/-!
# Union-find in a table

The parent of a node is an entry of a table; a node without an entry, or with itself as its parent,
is a root. `find` climbs to the root of a node and then points every node it passed at the root.
`union` makes one root the parent of the other.

Parents follow no order of the nodes. What makes a climb end is a depth that falls with each parent
(`Rooted`), which every operation keeps or adjusts.
-/

namespace UnionTable

variable {K : Type} [LinearOrder K]

/-- The parent of a node that is not a root. -/
def above (parent : Table K K) (x : K) : Option K := (parent.get x).filter (· ≠ x)

/-- Point a node at the root and go on to what its parent was. -/
def compressStep (root : K) (st : Table K K × K) : Option (Table K K × K) :=
  (above st.1 st.2).map fun p => (st.1.put st.2 root, p)

/-- Climb to the root of a node, and climb again to point what is passed at the root. -/
def find (fuel : ℕ) (parent : Table K K) (u : K) : Option (Table K K × K) := do
  let root ← runSteps (above parent) fuel u
  let (parent, _) ← runSteps (compressStep root) fuel (parent, u)
  some (parent, root)

/-- Link the roots of two nodes, if they are not one. -/
def union (fuel : ℕ) (parent : Table K K) (u v : K) : Option (Table K K × Bool) := do
  let (parent, rootU) ← find fuel parent u
  let (parent, rootV) ← find fuel parent v
  if rootU ≠ rootV then some (parent.put rootU rootV, true) else some (parent, false)

/-- Enter a node as its own parent, unless it has an entry. -/
def enter (parent : Table K K) (x : K) : Table K K :=
  if parent.get x = none then parent.put x x else parent

/-- The nodes climb to these roots, along falling depths. -/
structure Rooted (parent : Table K K) (root : K → K) (depth : K → ℕ) : Prop where
  root_above : ∀ x p, above parent x = some p → root p = root x
  depth_lt : ∀ x p, above parent x = some p → depth p < depth x
  root_self : ∀ x, above parent x = none → root x = x

variable {parent : Table K K} {root : K → K} {depth : K → ℕ}

lemma above_put (x r y : K) :
    above (parent.put x r) y = if y = x then (if r = x then none else some r)
    else above parent y := by
  rw [above, Table.get_put]
  split
  next h =>
    subst h
    by_cases hr : r = y <;> simp [hr]
  next => rfl

lemma above_enter (x y : K) : above (enter parent x) y = above parent y := by
  rw [enter]
  split
  next hnone =>
    rw [above_put, if_pos rfl]
    split
    next h => rw [h, above, hnone, Option.filter_none]
    next => rfl
  next => rfl

namespace Rooted

lemma empty : Rooted (.empty : Table K K) id fun _ => 0 where
  root_above x p h := by simp [above] at h
  depth_lt x p h := by simp [above] at h
  root_self _ _ := rfl

variable (h : Rooted parent root depth)
include h

lemma enter (x : K) : Rooted (enter parent x) root depth where
  root_above y p hy := h.root_above y p (above_enter x y ▸ hy)
  depth_lt y p hy := h.depth_lt y p (above_enter x y ▸ hy)
  root_self y hy := h.root_self y (above_enter x y ▸ hy)

lemma above_root (x : K) : above parent (root x) = none := by
  induction hd : depth x using Nat.strong_induction_on generalizing x with
  | _ d ih =>
    cases hx : above parent x with
    | none => rwa [h.root_self x hx]
    | some p =>
      rw [← h.root_above x p hx]
      exact ih (depth p) (hd ▸ h.depth_lt x p hx) p rfl

lemma root_root (x : K) : root (root x) = root x := h.root_self _ (h.above_root x)

lemma depth_root_lt {x p : K} (hx : above parent x = some p) : depth (root x) < depth x := by
  induction hd : depth x using Nat.strong_induction_on generalizing x p with
  | _ d ih =>
    have hlt : depth p < d := hd ▸ h.depth_lt x p hx
    rw [← h.root_above x p hx]
    cases hp : above parent p with
    | none => rwa [h.root_self p hp]
    | some q => exact (ih (depth p) hlt hp rfl).trans hlt

lemma returns_climb (u : K) : Returns (fun fuel => runSteps (above parent) fuel u) (root u) := by
  obtain ⟨t, hsteps, hdone, ht⟩ : ∃ t, StepsTo (above parent) u t ∧ above parent t = none ∧
      root t = root u := exists_stepsTo_of_measure (fun x => root x = root u) depth
    (fun x p hx hstep => ⟨(h.root_above x p hstep).trans hx, h.depth_lt x p hstep⟩) rfl
  have heq : t = root u := (h.root_self t hdone).symm.trans ht
  exact heq ▸ hsteps.returns hdone

/-- Pointing a node at its root leaves every root. -/
theorem compress {x p : K} (hx : above parent x = some p) :
    Rooted (parent.put x (root x)) root depth := by
  have hne : root x ≠ x := fun heq => by
    have hroot := h.above_root x
    rw [heq, hx] at hroot
    cases hroot
  have habove : ∀ y q, above (parent.put x (root x)) y = some q →
      (y = x ∧ q = root x) ∨ above parent y = some q := by
    intro y q hy
    rw [above_put, if_neg hne] at hy
    split at hy
    next heq => exact .inl ⟨heq, (Option.some.inj hy).symm⟩
    next => exact .inr hy
  refine ⟨fun y q hy => ?_, fun y q hy => ?_, fun y hy => ?_⟩
  · rcases habove y q hy with ⟨rfl, rfl⟩ | hold
    · exact h.root_root y
    · exact h.root_above y q hold
  · rcases habove y q hy with ⟨rfl, rfl⟩ | hold
    · exact h.depth_root_lt hx
    · exact h.depth_lt y q hold
  · rw [above_put, if_neg hne] at hy
    split at hy
    next => cases hy
    next => exact h.root_self y hy

theorem find (u : K) :
    ∃ parent', Returns (fun fuel => find fuel parent u) (parent', root u) ∧
      Rooted parent' root depth := by
  obtain ⟨⟨parent', x⟩, hsteps, hdone, hrooted, -⟩ : ∃ st, StepsTo (compressStep (root u))
      (parent, u) st ∧ compressStep (root u) st = none ∧ Rooted st.1 root depth ∧
      root st.2 = root u := exists_stepsTo_of_measure
    (fun st : Table K K × K => Rooted st.1 root depth ∧ root st.2 = root u) (fun st => depth st.2)
    (fun st t hst hstep => by
      obtain ⟨p, hp, rfl⟩ := Option.map_eq_some_iff.mp hstep
      obtain ⟨hrooted, hroot⟩ := hst
      have hcompress := hrooted.compress hp
      rw [hroot] at hcompress
      exact ⟨⟨hcompress, (hrooted.root_above _ p hp).trans hroot⟩, hrooted.depth_lt _ p hp⟩)
    ⟨h, rfl⟩
  refine ⟨parent', ?_, hrooted⟩
  exact (h.returns_climb u).bind _ ((hsteps.returns hdone).bind _ (.const _))

/-- A union says whether the roots were two, and makes them one. -/
theorem union (u v : K) :
    ∃ parent' depth', Returns (fun fuel => union fuel parent u v) (parent',
    decide (root u ≠ root v)) ∧
      Rooted parent' (fun x => if root x = root u then root v else root x) depth' := by
  obtain ⟨parent₁, hu, h₁⟩ := h.find u
  obtain ⟨parent₂, hv, h₂⟩ := h₁.find v
  by_cases hne : root u = root v
  · have hsame : (fun x => if root x = root u then root v else root x) = root := by
      funext x
      split
      next heq => exact hne ▸ heq.symm
      next => rfl
    refine ⟨parent₂, depth, ?_, by rwa [hsame]⟩
    refine hu.bind _ (hv.bind _ ?_)
    simp only [hne, ne_eq, not_true_eq_false, if_false, decide_false]
    exact .const _
  · refine ⟨parent₂.put (root u) (root v),
      fun x => if root x = root u then depth x + depth (root v) + 1 else depth x, ?_, ?_⟩
    · refine hu.bind _ (hv.bind _ ?_)
      simp only [hne, ne_eq, not_false_eq_true, if_true, decide_true]
      exact .const _
    · -- The tree of the first root moves below the second, deeper than it was.
      have habove : ∀ x p, above (parent₂.put (root u) (root v)) x = some p →
          (x = root u ∧ p = root v) ∨ above parent₂ x = some p := by
        intro x p hx
        rw [above_put, if_neg (Ne.symm hne)] at hx
        split at hx
        next heq => exact .inl ⟨heq, (Option.some.inj hx).symm⟩
        next => exact .inr hx
      refine ⟨fun x p hx => ?_, fun x p hx => ?_, fun x hx => ?_⟩
      · rcases habove x p hx with ⟨rfl, rfl⟩ | hold
        · simp only [h.root_root, if_true]
          split <;> rfl
        · simp only [h₂.root_above x p hold]
      · rcases habove x p hx with ⟨rfl, rfl⟩ | hold
        · simp only [h.root_root, if_true, Ne.symm hne, if_false]
          omega
        · have := h₂.depth_lt x p hold
          simp only [h₂.root_above x p hold]
          split <;> omega
      · rw [above_put, if_neg (Ne.symm hne)] at hx
        split at hx
        next => cases hx
        next hx' =>
          have hself := h₂.root_self x hx
          simp only [hself, hx', if_false]

end Rooted

end UnionTable
