import IssunDB.Lib.Loop
import Mathlib

/-!
# Union-find on an ordered forest

A parent array in which no parent exceeds its child. `find` climbs to the root of a node by path
halving, `union` links the larger of two roots under the smaller.

* `find_eq`: with more fuel than the node's index, `find` returns the root, and the array it leaves
  has the same roots;
* `Joins.union`: uniting the two ends of a pair keeps the invariant that the roots are those of the
  equivalence the pairs generate.
-/

namespace UnionFind

open List

def parentOf (parent : List ℕ) (x : ℕ) : ℕ := parent.getD x 0

/-- Climb to the root, pointing each node passed at its grandparent. -/
def find : (fuel : ℕ) → List ℕ → ℕ → Option (List ℕ × ℕ)
  | 0, _, _ => none
  | fuel + 1, parent, node =>
    if parentOf parent node = node then some (parent, node)
    else
      let grandparent := parentOf parent (parentOf parent node)
      find fuel (parent.set node grandparent) grandparent

/-- Link the roots of two nodes, toward the smaller. -/
def union (fuel : ℕ) (parent : List ℕ) (u v : ℕ) : Option (List ℕ) := do
  let (parent, a) ← find fuel parent u
  let (parent, b) ← find fuel parent v
  if a = b then some parent
  else if a < b then some (parent.set b a)
  else some (parent.set a b)

/-- The root above a node: the first node of its chain whose parent is not smaller. -/
def rootOf (parent : List ℕ) (x : ℕ) : ℕ :=
  if _h : parentOf parent x < x then rootOf parent (parentOf parent x) else x
termination_by x

/-- A parent array over `n` nodes in which no parent exceeds its child. -/
structure Forest (n : ℕ) (parent : List ℕ) : Prop where
  length_eq : parent.length = n
  parent_le : ∀ x < n, parentOf parent x ≤ x

variable {n : ℕ} {parent : List ℕ}

lemma parentOf_set {x v : ℕ} (hx : x < parent.length) (y : ℕ) :
    parentOf (parent.set x v) y = if y = x then v else parentOf parent y :=
  List.getD_set hx v 0 y

lemma rootOf_le (x : ℕ) : rootOf parent x ≤ x := by
  fun_induction rootOf parent x with
  | case1 x h ih => exact ih.trans h.le
  | case2 x h => exact le_rfl

lemma rootOf_of_root {x : ℕ} (h : parentOf parent x = x) : rootOf parent x = x := by
  rw [rootOf, dif_neg (by omega)]

namespace Forest

lemma range (n : ℕ) : Forest n (List.range n) := by
  refine ⟨length_range, fun x hx => ?_⟩
  simp [parentOf, getD_eq_getElem?_getD, hx]

variable (h : Forest n parent)
include h

lemma rootOf_parent {x : ℕ} (hx : x < n) :
    rootOf parent (parentOf parent x) = rootOf parent x := by
  rcases (h.parent_le x hx).lt_or_eq with hlt | heq
  · conv_rhs => rw [rootOf, dif_pos hlt]
  · rw [heq]

lemma parent_rootOf {x : ℕ} (hx : x < n) : parentOf parent (rootOf parent x) = rootOf parent x := by
  induction x using Nat.strongRecOn with
  | ind x ih =>
    rcases (h.parent_le x hx).lt_or_eq with hlt | heq
    · rw [← h.rootOf_parent hx]
      exact ih _ hlt (hlt.trans hx)
    · rw [rootOf_of_root heq, heq]

lemma set {x v : ℕ} (hx : x < n) (hv : v ≤ x) : Forest n (parent.set x v) := by
  refine ⟨by rw [List.length_set, h.length_eq], fun y hy => ?_⟩
  rw [parentOf_set (by rwa [h.length_eq])]
  split
  next heq => exact heq ▸ hv
  next => exact h.parent_le y hy

/-- Pointing a node at a smaller node of its own tree leaves every root. -/
theorem rootOf_set_same {x v : ℕ} (hx : x < n) (hv : v < x)
    (hroot : rootOf parent v = rootOf parent x) (y : ℕ) (hy : y < n) :
    rootOf (parent.set x v) y = rootOf parent y := by
  have hset := h.set hx hv.le
  have hlen : x < parent.length := by rwa [h.length_eq]
  induction y using Nat.strongRecOn with
  | ind y ih =>
    rw [← hset.rootOf_parent hy, parentOf_set hlen]
    split
    next heq =>
      subst heq
      rw [ih v hv (hv.trans hy), hroot]
    next hne =>
      rcases (h.parent_le y hy).lt_or_eq with hlt | heq
      · rw [ih _ hlt (hlt.trans hy), h.rootOf_parent hy]
      · rw [heq, rootOf_of_root (by rw [parentOf_set hlen, if_neg hne, heq]), rootOf_of_root heq]

lemma rootOf_set_root {a b : ℕ} (hb : b < n) (hab : a < b) (ha : parentOf parent a = a)
    (hb' : parentOf parent b = b) (y : ℕ) (hy : y < n) :
    rootOf (parent.set b a) y = if rootOf parent y = b then a else rootOf parent y := by
  have hset := h.set hb hab.le
  have hlen : b < parent.length := by rwa [h.length_eq]
  induction y using Nat.strongRecOn with
  | ind y ih =>
    rw [← hset.rootOf_parent hy, parentOf_set hlen]
    split
    next heq =>
      subst heq
      rw [ih a hab (hab.trans hy), rootOf_of_root ha, rootOf_of_root hb', if_pos rfl,
        if_neg hab.ne]
    next hne =>
      rcases (h.parent_le y hy).lt_or_eq with hlt | heq
      · rw [ih _ hlt (hlt.trans hy), h.rootOf_parent hy]
      · rw [heq, rootOf_of_root (by rw [parentOf_set hlen, if_neg hne, heq]), rootOf_of_root heq,
          if_neg hne]

/-- With more fuel than the node's index, `find` reaches the root. The array changes, the roots do
not. -/
theorem find_eq {fuel x : ℕ} (hfuel : x < fuel) (hx : x < n) :
    ∃ parent', find fuel parent x = some (parent', rootOf parent x) ∧ Forest n parent' ∧
      ∀ y < n, rootOf parent' y = rootOf parent y := by
  induction fuel generalizing parent x with
  | zero => omega
  | succ fuel ih =>
    rw [find]
    split
    next hroot => exact ⟨parent, by rw [rootOf_of_root hroot], h, fun _ _ => rfl⟩
    next hne =>
      have hp : parentOf parent x < x := lt_of_le_of_ne (h.parent_le x hx) hne
      have hg : parentOf parent (parentOf parent x) < x :=
        (h.parent_le _ (hp.trans hx)).trans_lt hp
      have hsame : rootOf parent (parentOf parent (parentOf parent x)) = rootOf parent x := by
        rw [h.rootOf_parent (hp.trans hx), h.rootOf_parent hx]
      have hroots := h.rootOf_set_same hx hg hsame
      obtain ⟨parent', hfind, hforest, heq⟩ := ih (h.set hx hg.le)
        (show parentOf parent (parentOf parent x) < fuel by omega) (hg.trans hx)
      refine ⟨parent', ?_, hforest, fun y hy => (heq y hy).trans (hroots y hy)⟩
      rw [hfind, hroots _ (hg.trans hx), hsame]

end Forest

/-! ## The partition -/

/-- The roots of the forest are those of the equivalence that `r` generates. -/
structure Joins (n : ℕ) (r : ℕ → ℕ → Prop) (parent : List ℕ) : Prop extends Forest n parent where
  /-- Every node is joined to its root. -/
  sound : ∀ x < n, Relation.EqvGen r x (rootOf parent x)
  /-- Nodes that `r` joins have one root. -/
  complete : ∀ x y, r x y → rootOf parent x = rootOf parent y

namespace Joins

variable {r : ℕ → ℕ → Prop}

/-- With no pair, every node is its own root. -/
theorem range (n : ℕ) (hr : ∀ x y, ¬ r x y) : Joins n r (List.range n) where
  toForest := Forest.range n
  sound x hx := by
    rw [rootOf_of_root (by simp [parentOf, getD_eq_getElem?_getD, hx])]
    exact .refl x
  complete x y hxy := (hr x y hxy).elim

/-- Two nodes have one root just when `r` joins them. -/
theorem rootOf_eq_iff (h : Joins n r parent) {x y : ℕ} (hx : x < n) (hy : y < n) :
    rootOf parent x = rootOf parent y ↔ Relation.EqvGen r x y := by
  constructor
  · intro heq
    exact .trans _ _ _ (h.sound x hx) (heq ▸ .symm _ _ (h.sound y hy))
  · intro hxy
    clear hx hy
    induction hxy with
    | rel x y hxy => exact h.complete x y hxy
    | refl x => rfl
    | symm x y _ ih => exact ih.symm
    | trans x y z _ _ ih₁ ih₂ => exact ih₁.trans ih₂

lemma isLeast_rootOf (h : Joins n r parent) {x : ℕ} (hx : x < n) :
    IsLeast {y | y < n ∧ Relation.EqvGen r x y} (rootOf parent x) := by
  constructor
  · exact ⟨(rootOf_le x).trans_lt hx, h.sound x hx⟩
  · rintro y ⟨hy, hxy⟩
    rw [(h.rootOf_eq_iff hx hy).mpr hxy]
    exact rootOf_le y

lemma of_rootOf_eq (h : Joins n r parent) {parent' : List ℕ} (hforest : Forest n parent')
    (heq : ∀ y < n, rootOf parent' y = rootOf parent y) (hr : ∀ x y, r x y → x < n ∧ y < n) :
    Joins n r parent' where
  toForest := hforest
  sound x hx := by
    rw [heq x hx]
    exact h.sound x hx
  complete x y hxy := by
    rw [heq x (hr x y hxy).1, heq y (hr x y hxy).2]
    exact h.complete x y hxy

/-- Linking the roots of `u` and `v` joins the two. -/
theorem link (h : Joins n r parent) (hr : ∀ x y, r x y → x < n ∧ y < n) {u v a b : ℕ} (hu : u < n)
    (hv : v < n) (hab : a < b) (huv : (a = rootOf parent u ∧ b = rootOf parent v) ∨
      (a = rootOf parent v ∧ b = rootOf parent u)) :
    Joins n (fun x y => r x y ∨ (x = u ∧ y = v)) (parent.set b a) := by
  have hb : b < n := by
    rcases huv with ⟨-, rfl⟩ | ⟨-, rfl⟩
    · exact (rootOf_le v).trans_lt hv
    · exact (rootOf_le u).trans_lt hu
  have hroots : parentOf parent a = a ∧ parentOf parent b = b := by
    rcases huv with ⟨rfl, rfl⟩ | ⟨rfl, rfl⟩
    · exact ⟨h.parent_rootOf hu, h.parent_rootOf hv⟩
    · exact ⟨h.parent_rootOf hv, h.parent_rootOf hu⟩
  have hset := h.toForest.rootOf_set_root hb hab hroots.1 hroots.2
  have hmono : ∀ x y, Relation.EqvGen r x y →
      Relation.EqvGen (fun x y => r x y ∨ (x = u ∧ y = v)) x y :=
    Relation.EqvGen.mono fun _ _ => Or.inl
  -- The two roots are joined through `u` and `v`.
  have hjoin : Relation.EqvGen (fun x y => r x y ∨ (x = u ∧ y = v)) b a := by
    have hnew : Relation.EqvGen (fun x y => r x y ∨ (x = u ∧ y = v)) u v :=
      .rel _ _ (Or.inr ⟨rfl, rfl⟩)
    have hu' := hmono _ _ (h.sound u hu)
    have hv' := hmono _ _ (h.sound v hv)
    rcases huv with ⟨rfl, rfl⟩ | ⟨rfl, rfl⟩
    · exact .trans _ _ _ (.symm _ _ hv') (.trans _ _ _ (.symm _ _ hnew) hu')
    · exact .trans _ _ _ (.symm _ _ hu') (.trans _ _ _ hnew hv')
  refine ⟨h.toForest.set hb hab.le, fun x hx => ?_, ?_⟩
  · rw [hset x hx]
    split
    next heq => exact .trans _ _ _ (hmono _ _ (heq ▸ h.sound x hx)) hjoin
    next => exact hmono _ _ (h.sound x hx)
  · rintro x y (hxy | ⟨rfl, rfl⟩)
    · rw [hset x (hr x y hxy).1, hset y (hr x y hxy).2, h.complete x y hxy]
    · rw [hset x hu, hset y hv]
      rcases huv with ⟨rfl, rfl⟩ | ⟨rfl, rfl⟩
      · rw [if_pos rfl, if_neg hab.ne]
      · rw [if_pos rfl, if_neg hab.ne]

/-- Uniting two nodes joins them. -/
theorem union (h : Joins n r parent) (hr : ∀ x y, r x y → x < n ∧ y < n) {fuel u v : ℕ}
    (hfuel : n ≤ fuel) (hu : u < n) (hv : v < n) :
    ∃ parent', union fuel parent u v = some parent' ∧
      Joins n (fun x y => r x y ∨ (x = u ∧ y = v)) parent' := by
  obtain ⟨p₁, hfind₁, hforest₁, heq₁⟩ := h.toForest.find_eq (hu.trans_le hfuel) hu
  obtain ⟨p₂, hfind₂, hforest₂, heq₂⟩ := hforest₁.find_eq (hv.trans_le hfuel) hv
  have heq : ∀ y < n, rootOf p₂ y = rootOf parent y :=
    fun y hy => (heq₂ y hy).trans (heq₁ y hy)
  have hjoins := h.of_rootOf_eq hforest₂ heq hr
  have hrun : UnionFind.union fuel parent u v =
      if rootOf p₂ u = rootOf p₂ v then some p₂
      else if rootOf p₂ u < rootOf p₂ v then some (p₂.set (rootOf p₂ v) (rootOf p₂ u))
      else some (p₂.set (rootOf p₂ u) (rootOf p₂ v)) := by
    rw [UnionFind.union, hfind₁]
    change (find fuel p₁ v >>= _) = _
    rw [hfind₂, heq u hu, heq v hv, heq₁ v hv]
    rfl
  rw [hrun]
  split
  next hsame =>
    refine ⟨p₂, rfl, hjoins.toForest, fun x hx => ?_, ?_⟩
    · exact Relation.EqvGen.mono (fun _ _ => Or.inl) _ _ (hjoins.sound x hx)
    · rintro x y (hxy | ⟨rfl, rfl⟩)
      · exact hjoins.complete x y hxy
      · exact hsame
  next hne =>
    split
    next hlt => exact ⟨_, rfl, hjoins.link hr hu hv hlt (.inl ⟨rfl, rfl⟩)⟩
    next hge => exact ⟨_, rfl, hjoins.link hr hu hv (by omega) (.inr ⟨rfl, rfl⟩)⟩

/-- Uniting a list of pairs one after another joins them all. -/
theorem foldlM_union {fuel : ℕ} (hfuel : n ≤ fuel) (pairs : List (ℕ × ℕ))
    (hpairs : ∀ p ∈ pairs, p.1 < n ∧ p.2 < n) (h : Joins n r parent)
    (hr : ∀ x y, r x y → x < n ∧ y < n) :
    ∃ parent', pairs.foldlM (fun parent p => UnionFind.union fuel parent p.1 p.2) parent =
        some parent' ∧
      Joins n (fun x y => r x y ∨ (x, y) ∈ pairs) parent' := by
  induction pairs generalizing r parent with
  | nil => exact ⟨parent, rfl, by simpa using h⟩
  | cons p pairs ih =>
    obtain ⟨hu, hv⟩ := hpairs p mem_cons_self
    obtain ⟨p₁, hunion, hjoins⟩ := h.union hr hfuel hu hv
    obtain ⟨p₂, hrun, hall⟩ := ih (fun q hq => hpairs q (mem_cons_of_mem _ hq)) hjoins (by
      rintro x y (hxy | ⟨rfl, rfl⟩)
      · exact hr x y hxy
      · exact ⟨hu, hv⟩)
    refine ⟨p₂, ?_, ?_⟩
    · rw [foldlM_cons, hunion]
      exact hrun
    · convert hall using 3 with x y
      rw [mem_cons, or_assoc, Prod.ext_iff]

end Joins

end UnionFind
