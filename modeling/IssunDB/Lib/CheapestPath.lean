import IssunDB.Lib.Loop
import IssunDB.Lib.Table
import Mathlib.Algebra.Order.BigOperators.Group.Finset
import Mathlib.Order.BoundedOrder.Basic

/-!
# Cheapest paths with a priority queue

A search keeps a label for each node it has met, the node it came from, and a queue of the labels it
has still to follow. It takes a cheapest entry from the queue until the target comes out, and then
walks back along the nodes it came from.

Labels grow along an edge by an operation that is monotone and nothing else: it may round. The
search ends wherever the labels have a strictly monotone rank (`exists_search_end`), whatever the
weights; the walk back ends unless some walk comes back to a node with a smaller label
(`Settled.returns`); and where no edge makes a label smaller, the path found has the least label of
all walks (`findPath_spec`).
-/

/-- A priority queue of labelled nodes. Which of several cheapest entries comes out is left open. -/
structure PriorityQueue (C V : Type) [LinearOrder C] where
  Carrier : Type
  items : Carrier → List (C × V)
  empty : Carrier
  push : Carrier → C × V → Carrier
  pop : Carrier → Option ((C × V) × Carrier)
  items_empty : items empty = []
  items_push : ∀ q a, (items (push q a)).Perm (a :: items q)
  items_of_pop_none : ∀ q, pop q = none → items q = []
  items_of_pop_some : ∀ q a q', pop q = some (a, q') →
    (items q).Perm (a :: items q') ∧ ∀ b ∈ items q, a.1 ≤ b.1

/-- A graph whose edges change a label monotonically. -/
structure LabelGraph (V W C : Type) [LinearOrder C] where
  rows : V → List (V × W)
  zero : C
  add : C → W → C
  add_mono : ∀ {a b : C} (w : W), a ≤ b → add a w ≤ add b w

namespace PriorityQueue

open List Option

variable {C V : Type} [LinearOrder C] (Q : PriorityQueue C V)

variable {Q} in
lemma mem_push {q : Q.Carrier} {a b : C × V} :
    b ∈ Q.items (Q.push q a) ↔ b = a ∨ b ∈ Q.items q := by
  rw [(Q.items_push q a).mem_iff, mem_cons]

variable {a : C × V}

variable {Q} in
lemma mem_of_pop {q q' : Q.Carrier} (h : Q.pop q = some (a, q')) {b : C × V} :
    b ∈ Q.items q ↔ b = a ∨ b ∈ Q.items q' := by
  rw [(Q.items_of_pop_some q a q' h).1.mem_iff, mem_cons]

variable {Q} in
lemma length_of_pop {q q' : Q.Carrier} (h : Q.pop q = some (a, q')) :
    (Q.items q).length = (Q.items q').length + 1 := by
  rw [(Q.items_of_pop_some q a q' h).1.length_eq, length_cons]

def popFirst : List (C × V) → Option ((C × V) × List (C × V))
  | [] => none
  | a :: l =>
    match popFirst l with
    | none => some (a, l)
    | some (b, rest) => if a.1 ≤ b.1 then some (a, l) else some (b, a :: rest)

lemma eq_nil_of_popFirst {l : List (C × V)} (h : popFirst l = none) : l = [] := by
  cases l with
  | nil => rfl
  | cons a l =>
    rw [popFirst] at h
    split at h
    next => cases h
    next =>
      split at h
      next => cases h
      next => cases h

lemma popFirst_spec {l rest : List (C × V)} (h : popFirst l = some (a, rest)) :
    l.Perm (a :: rest) ∧ ∀ b ∈ l, a.1 ≤ b.1 := by
  induction l generalizing a rest with
  | nil => cases h
  | cons x l ih =>
    rw [popFirst] at h
    split at h
    next hnone =>
      obtain ⟨rfl, rfl⟩ := Prod.mk.inj (some.inj h)
      refine ⟨.refl _, fun b hb => ?_⟩
      rw [eq_nil_of_popFirst hnone, mem_singleton] at hb
      exact hb ▸ le_rfl
    next b rest' hsome =>
      obtain ⟨hperm, hleast⟩ := ih hsome
      split at h
      next hle =>
        obtain ⟨rfl, rfl⟩ := Prod.mk.inj (some.inj h)
        exact ⟨.refl _, forall_mem_cons.mpr ⟨le_rfl, fun c hc => hle.trans (hleast c hc)⟩⟩
      next hlt =>
        obtain ⟨rfl, rfl⟩ := Prod.mk.inj (some.inj h)
        refine ⟨(hperm.cons x).trans (.swap ..), forall_mem_cons.mpr ⟨?_, hleast⟩⟩
        exact (not_le.mp hlt).le

def ofLists : PriorityQueue C V where
  Carrier := List (C × V)
  items := id
  empty := []
  push q a := a :: q
  pop := popFirst
  items_empty := rfl
  items_push _ _ := .refl _
  items_of_pop_none _ h := eq_nil_of_popFirst h
  items_of_pop_some _ _ _ h := popFirst_spec h

end PriorityQueue

namespace LabelGraph

open List Option

variable {V W C : Type} [LinearOrder C] (G : LabelGraph V W C)

/-! ## Walks and their labels -/

/-- An edge leads from a labelled node to a labelled node. -/
def Leads (a b : V × C) : Prop := ∃ w, (b.1, w) ∈ G.rows a.1 ∧ b.2 = G.add a.2 w

/-- A walk leads from a labelled node to a labelled node. -/
abbrev Walks : V × C → V × C → Prop := Relation.ReflTransGen G.Leads

/-- Some walk from a node comes back to a node it was at with a smaller label. -/
def Improves (s : V) : Prop :=
  ∃ v c c', G.Walks (s, G.zero) (v, c) ∧ G.Walks (v, c) (v, c') ∧ c' < c

/-- A label the edges of a path can carry from its first node to its last. -/
inductive Along : C → List V → C → Prop
  | single (v : V) (c : C) : Along c [v] c
  | cons {u v : V} {w : W} {c c' : C} {l : List V} (hedge : (v, w) ∈ G.rows u)
      (htail : Along (G.add c w) (v :: l) c') : Along c (u :: v :: l) c'

variable {G}

lemma Along.walks {c c' : C} {l : List V} (h : G.Along c l c') {u v : V} (hu : l.head? = some u)
    (hv : l.getLast? = some v) : G.Walks (u, c) (v, c') := by
  induction h generalizing u with
  | single x c =>
    obtain rfl : x = u := some.inj hu
    obtain rfl : x = v := some.inj hv
    exact .refl
  | @cons x y w c c' l hedge _ ih =>
    obtain rfl : x = u := some.inj hu
    rw [getLast?_cons_cons] at hv
    exact .head ⟨w, hedge, rfl⟩ (ih rfl hv)

lemma Along.concat {c c' : C} {l : List V} (h : G.Along c l c') {u v : V} {w : W}
    (hu : l.getLast? = some u) (hedge : (v, w) ∈ G.rows u) :
    G.Along c (l ++ [v]) (G.add c' w) := by
  induction h with
  | single x c =>
    obtain rfl : x = u := some.inj hu
    exact .cons hedge (.single v _)
  | @cons x y w' c c' l hedge' _ ih =>
    rw [getLast?_cons_cons] at hu
    exact .cons hedge' (ih hu)

variable (G) in
/-- No edge makes a label smaller. -/
def Grows : Prop := ∀ u, ∀ e ∈ G.rows u, ∀ c, c ≤ G.add c e.2

lemma Walks.le (hgrows : G.Grows) {a b : V × C} (h : G.Walks a b) : a.2 ≤ b.2 := by
  induction h with
  | refl => exact le_rfl
  | @tail x y _ hlead ih =>
    obtain ⟨w, hedge, heq⟩ := hlead
    exact ih.trans (heq ▸ hgrows _ _ hedge _)

/-- Where no edge makes a label smaller, no walk does. -/
theorem not_improves (hgrows : G.Grows) (s : V) : ¬G.Improves s := by
  rintro ⟨v, c, c', -, hwalk, hlt⟩
  exact not_lt_of_ge (Walks.le hgrows hwalk) hlt

end LabelGraph

/-! ## The walk back -/

/-- A trail from a node back to the source, listed from the source. -/
inductive Trail {V : Type} (pred : V → Option V) (s : V) : V → List V → Prop
  | source : Trail pred s s [s]
  | step {v u : V} {l : List V} (hne : v ≠ s) (hpred : pred v =
    some u) (htrail : Trail pred s u l) :
      Trail pred s v (l ++ [v])

namespace Trail

open List Option

variable {V : Type} {pred pred' : V → Option V} {s v : V} {l l' : List V}

lemma unique (h : Trail pred s v l) (h' : Trail pred s v l') : l = l' := by
  induction h generalizing l' with
  | source =>
    cases h' with
    | source => rfl
    | step hne => exact absurd rfl hne
  | step hne hpred _ ih =>
    cases h' with
    | source => exact absurd rfl hne
    | step _ hpred' htrail' =>
      rw [hpred] at hpred'
      rw [ih (some.inj hpred' ▸ htrail')]

lemma getLast? (h : Trail pred s v l) : l.getLast? = some v := by
  cases h with
  | source => rfl
  | step => exact getLast?_concat ..

lemma head? (h : Trail pred s v l) : l.head? = some s := by
  induction h with
  | source => rfl
  | step _ _ _ ih => rw [head?_append, ih, some_or]

/-- Every node of a trail has the trail up to it. -/
theorem exists_prefix (h : Trail pred s v l) {x : V} (hx : x ∈ l) :
    ∃ l₁, l₁ <+: l ∧ Trail pred s x l₁ := by
  induction h with
  | source =>
    obtain rfl := mem_singleton.mp hx
    exact ⟨[x], prefix_refl _, .source⟩
  | @step v u l hne hpred htrail ih =>
    rcases mem_append.mp hx with hx | hx
    · obtain ⟨l₁, hpre, hl₁⟩ := ih hx
      exact ⟨l₁, hpre.trans (prefix_append ..), hl₁⟩
    · obtain rfl := mem_singleton.mp hx
      exact ⟨l ++ [x], prefix_refl _, .step hne hpred htrail⟩

/-- A trail visits no node twice: the trail of its last node would be shorter than itself. -/
theorem nodup (h : Trail pred s v l) : l.Nodup := by
  induction h with
  | source => exact nodup_singleton _
  | @step v u l hne hpred htrail ih =>
    refine nodup_append.mpr ⟨ih, nodup_singleton _, ?_⟩
    rintro x hx y hy rfl
    obtain rfl := mem_singleton.mp hy
    obtain ⟨l₁, hpre, hl₁⟩ := htrail.exists_prefix hx
    have hlen := hpre.length_le
    rw [hl₁.unique (.step hne hpred htrail), length_append, length_singleton] at hlen
    omega

/-- A node whose predecessor changes takes its trails with it. -/
theorem redirect {x : V} {lx : List V} (h : Trail pred s v l) (hx : Trail pred' s x lx)
    (hother : ∀ y, y ≠ x → pred' y = pred y) : ∃ l', Trail pred' s v l' := by
  induction h with
  | source => exact ⟨[s], .source⟩
  | @step v u l hne hpred _ ih =>
    by_cases hv : v = x
    · exact ⟨lx, hv ▸ hx⟩
    · obtain ⟨l', hl'⟩ := ih
      exact ⟨l' ++ [v], .step hne ((hother v hv).trans hpred) hl'⟩

/-- A trail that misses the node whose predecessor changes stays. -/
theorem congr {x : V} (h : Trail pred s v l) (hx : x ∉ l) (hother : ∀ y, y ≠ x → pred' y = pred y) :
    Trail pred' s v l := by
  induction h with
  | source => exact .source
  | @step v u l hne hpred _ ih =>
    have hv : v ≠ x := fun h => hx (h ▸ mem_append_right _ (mem_singleton_self v))
    exact .step hne ((hother v hv).trans hpred) (ih fun h => hx (mem_append_left _ h))

end Trail

def stepBack {V : Type} [DecidableEq V] (pred : Table V V) (s : V) : List V → Option (List V)
  | [] => none
  | cur :: path => if cur = s then none else (pred.get cur).map fun prev => prev :: cur :: path

lemma Trail.returns {V : Type} [DecidableEq V] {pred : Table V V} {s v : V} {l : List V}
    (h : Trail pred.get s v l) : Returns (fun fuel => runSteps (stepBack pred s) fuel [v]) l := by
  suffices ∀ rest, StepsTo (stepBack pred s) (v :: rest) (l ++ rest) by
    have hsteps := this []
    rw [List.append_nil] at hsteps
    refine hsteps.returns ?_
    obtain ⟨a, l, rfl⟩ := List.exists_cons_of_ne_nil (l := l) fun hnil => by
      have := h.head?
      rw [hnil] at this
      cases this
    obtain rfl : a = s := Option.some.inj h.head?
    rw [stepBack, if_pos rfl]
  induction h with
  | source => exact fun rest => .refl
  | @step v u l hne hpred _ ih =>
    intro rest
    have hstep : stepBack pred s (v :: rest) = some (u :: v :: rest) := by
      rw [stepBack, if_neg hne, hpred, Option.map_some]
    rw [List.append_assoc]
    exact .head hstep (ih (v :: rest))

/-! ## The search -/

/-- The labels, the predecessors and the queue of a search. -/
structure LabelState {V C : Type} [LinearOrder C] (Q : PriorityQueue C V) where
  dist : Table V C
  pred : Table V V
  heap : Q.Carrier

namespace LabelGraph

open List Option

variable {V W C : Type} [DecidableEq V] [LinearOrder C] [OrderTop C] (G : LabelGraph V W C)
  {Q : PriorityQueue C V}

/-- The label of a node; the largest one where it has none. -/
def label (st : LabelState Q) (v : V) : C := (st.dist.get v).getD ⊤

def relax (cost : C) (node : V) (st : LabelState Q) (e : V × W) : LabelState Q :=
  let next := G.add cost e.2
  if next < label st e.1 then
    ⟨st.dist.put e.1 next, st.pred.put e.1 node, Q.push st.heap (next, e.1)⟩
  else st

/-- Take the next entry out of the queue, unless it is the target's. -/
def searchStep (t : V) (st : LabelState Q) : Option (LabelState Q) :=
  match Q.pop st.heap with
  | none => none
  | some ((cost, node), heap) =>
    if node = t then none
    else if label st node < cost then some { st with heap }
    else some ((G.rows node).foldl (G.relax cost node) { st with heap })

def searchStart (Q : PriorityQueue C V) (s : V) : LabelState Q :=
  ⟨Table.empty.put s G.zero, .empty, Q.push Q.empty (G.zero, s)⟩

/-- Search from a source to a target: the path found and its label. The fuel bounds each of the two
loops. -/
def findPath (Q : PriorityQueue C V) (s t : V) (fuel : ℕ) : Option (Option (List V × C)) :=
  if s = t then some (some ([s], G.zero))
  else do
    let st ← runSteps (G.searchStep t) fuel (G.searchStart Q s)
    match Q.pop st.heap with
    | none => some none
    | some ((cost, _), _) =>
      let path ← runSteps (stepBack st.pred s) fuel [t]
      -- A predecessor that is missing would stop the walk before the source.
      if path.head? = some s then some (some (path, cost)) else none

variable {G}

variable {st : LabelState Q}

omit [DecidableEq V] in
lemma label_of_get {v : V} {c : C} (h : st.dist.get v = some c) :
    label st v = c := by
  rw [label, h, getD_some]

lemma label_put {x v : V} {c : C} {pred : Table V V} {heap : Q.Carrier} :
    label (⟨st.dist.put x c, pred, heap⟩ : LabelState Q) v = if v = x then c else label st v := by
  rw [label, Table.get_put]
  split
  next => rw [getD_some]
  next => rfl

lemma relax_of_lt {cost : C} {node : V} {e : V × W} (h : G.add cost e.2 < label st e.1) :
    G.relax cost node st e = ⟨st.dist.put e.1 (G.add cost e.2), st.pred.put e.1 node,
      Q.push st.heap (G.add cost e.2, e.1)⟩ := if_pos h

lemma relax_of_le {cost : C} {node : V} {e : V × W} (h : label st e.1 ≤ G.add cost e.2) :
    G.relax cost node st e = st := if_neg (not_lt.mpr h)

/-- A step takes an entry of another node out of the queue, and follows it unless the node has a
smaller label by now. -/
theorem searchStep_cases {t : V} {st st' : LabelState Q} (h : G.searchStep t st = some st') :
    ∃ cost node heap, Q.pop st.heap = some ((cost, node), heap) ∧ node ≠ t ∧
      ((label st node < cost ∧ st' = { st with heap }) ∨
        (cost ≤ label st node ∧
          st' = (G.rows node).foldl (G.relax cost node) { st with heap })) := by
  rw [searchStep] at h
  split at h
  next => cases h
  next cost node heap hpop =>
    refine ⟨cost, node, heap, hpop, ?_⟩
    split at h
    next => cases h
    next hne =>
      split at h
      next hlt => exact ⟨hne, .inl ⟨hlt, (some.inj h).symm⟩⟩
      next hge => exact ⟨hne, .inr ⟨not_lt.mp hge, (some.inj h).symm⟩⟩

lemma eq_of_searchStep_none {t : V} (h : G.searchStep t st = none) :
    Q.pop st.heap = none ∨ ∃ cost heap, Q.pop st.heap = some ((cost, t), heap) := by
  rw [searchStep] at h
  split at h
  next hnone => exact .inl hnone
  next cost node heap hpop =>
    split at h
    next heq => exact .inr ⟨cost, heap, heq ▸ hpop⟩
    next =>
      split at h
      next => cases h
      next => cases h

/-- What each relaxation keeps, the relaxations of a row keep. -/
theorem foldl_relax (cost : C) (node : V) (es : List (V × W)) (st : LabelState Q)
    (P : List (V × W) → LabelState Q → Prop)
    (hstep : ∀ done e st, e ∈ es → P done st → P (done ++ [e]) (G.relax cost node st e))
    (hst : P [] st) : P es (es.foldl (G.relax cost node) st) := by
  induction es using List.reverseRecOn with
  | nil => exact hst
  | append_singleton es e ih =>
    rw [foldl_append]
    have hprev := ih fun done e' st he => hstep done e' st (mem_append_left _ he)
    exact hstep es e _ (mem_append_right _ (mem_singleton_self e)) hprev

/-! ### The search ends -/

section Ends

variable (rank : C → ℕ) (nodes : Finset V)

/-- Twice what the labels can still fall, and the entries of the queue. -/
def pending (st : LabelState Q) : ℕ :=
  2 * ∑ v ∈ nodes, rank (label st v) + (Q.items st.heap).length

variable {rank nodes}

/-- A relaxation lowers a label by more than the entry it adds. -/
theorem pending_relax (hrank : StrictMono rank) {cost : C} {node : V} {st : LabelState Q}
    {e : V × W} (he : e.1 ∈ nodes) :
    pending rank nodes (G.relax cost node st e) ≤ pending rank nodes st := by
  rcases lt_or_ge (G.add cost e.2) (label st e.1) with hlt | hle
  · have hlength : (Q.items (Q.push st.heap (G.add cost e.2, e.1))).length =
        (Q.items st.heap).length + 1 := by
      rw [(Q.items_push _ _).length_eq, length_cons]
    have hsum : ∑ v ∈ nodes, rank (if v = e.1 then G.add cost e.2 else label st v) <
        ∑ v ∈ nodes, rank (label st v) := by
      refine Finset.sum_lt_sum (fun v _ => ?_) ⟨e.1, he, ?_⟩
      · split
        next heq => exact heq ▸ (hrank hlt).le
        next => exact le_rfl
      · rw [if_pos rfl]
        exact hrank hlt
    rw [relax_of_lt hlt]
    simp only [pending, label_put, hlength]
    omega
  · rw [relax_of_le hle]

theorem exists_search_end (hrank : StrictMono rank)
    (hrows : ∀ v ∈ nodes, ∀ e ∈ G.rows v, e.1 ∈ nodes) {s t : V} (hs : s ∈ nodes)
    (P : LabelState Q → Prop) (hstart : P (G.searchStart Q s))
    (hstep : ∀ st st', P st → G.searchStep t st = some st' → P st') :
    ∃ st, StepsTo (G.searchStep t) (G.searchStart Q s) st ∧ G.searchStep t st = none ∧ P st := by
  suffices ∃ st, StepsTo (G.searchStep t) (G.searchStart Q s) st ∧ G.searchStep t st = none ∧
      P st ∧ ∀ x ∈ Q.items st.heap, x.2 ∈ nodes by
    obtain ⟨st, hsteps, hdone, hP, -⟩ := this
    exact ⟨st, hsteps, hdone, hP⟩
  refine exists_stepsTo_of_measure (fun st => P st ∧ ∀ x ∈ Q.items st.heap, x.2 ∈ nodes)
    (pending rank nodes) ?_ ⟨hstart, ?_⟩
  · rintro st st' ⟨hP, hheap⟩ hnext
    refine ⟨⟨hstep st st' hP hnext, ?_⟩, ?_⟩ <;>
      obtain ⟨cost, node, heap, hpop, -, hcase⟩ := searchStep_cases hnext <;>
      have hnode : node ∈ nodes := hheap _ ((PriorityQueue.mem_of_pop hpop).mpr (.inl rfl))
    · have hrest : ∀ x ∈ Q.items heap, x.2 ∈ nodes :=
        fun x hx => hheap x ((PriorityQueue.mem_of_pop hpop).mpr (.inr hx))
      obtain ⟨-, rfl⟩ | ⟨-, rfl⟩ := hcase
      · exact hrest
      · refine foldl_relax _ _ _ _ (fun _ st => ∀ x ∈ Q.items st.heap, x.2 ∈ nodes) ?_ hrest
        intro _ e st he hst x hx
        rcases lt_or_ge (G.add cost e.2) (label st e.1) with hlt | hle
        · rw [relax_of_lt hlt] at hx
          rcases PriorityQueue.mem_push.mp hx with rfl | hx
          · exact hrows node hnode e he
          · exact hst x hx
        · exact hst x ((congrArg LabelState.heap (relax_of_le (G := G) hle)) ▸ hx)
    · have hless : pending rank nodes { st with heap } < pending rank nodes st := by
        have hlength := PriorityQueue.length_of_pop hpop
        show 2 * ∑ v ∈ nodes, rank (label st v) + (Q.items heap).length <
          2 * ∑ v ∈ nodes, rank (label st v) + (Q.items st.heap).length
        omega
      obtain ⟨-, rfl⟩ | ⟨-, rfl⟩ := hcase
      · exact hless
      · refine lt_of_le_of_lt ?_ hless
        refine foldl_relax _ _ _ _
          (fun _ st' => pending rank nodes st' ≤ pending rank nodes { st with heap }) ?_ le_rfl
        exact fun _ e st' he hst' => (pending_relax hrank (hrows node hnode e he)).trans hst'
  · intro x hx
    rcases PriorityQueue.mem_push.mp hx with rfl | hx
    · exact hs
    · rw [Q.items_empty] at hx
      cases hx

end Ends

/-! ### The walk back ends -/

section Back

variable (G) in
/-- Every label is that of a walk and has a trail back to the source, along which the labels fall by
no less than the edges tell. -/
structure Settled (s : V) (st : LabelState Q) : Prop where
  source : st.dist.get s = some G.zero
  walk : ∀ v c, st.dist.get v = some c → G.Walks (s, G.zero) (v, c)
  trail : ∀ v c, st.dist.get v = some c → ∃ l, Trail st.pred.get s v l
  drop : ∀ v u, st.pred.get v = some u → ∃ cu cv w,
    st.dist.get u = some cu ∧ st.dist.get v = some cv ∧ (v, w) ∈ G.rows u ∧ G.add cu w ≤ cv
  entry : ∀ c v, (c, v) ∈ Q.items st.heap → ∃ d ≤ c, st.dist.get v = some d

variable {s : V} {st : LabelState Q}

omit [OrderTop C] in
lemma settled_start : G.Settled s (G.searchStart Q s) where
  source := Table.get_put_self ..
  walk v c h := by
    obtain ⟨rfl, rfl⟩ : v = s ∧ G.zero = c := by simpa [searchStart, Table.get_put] using h
    exact .refl
  trail v c h := by
    obtain ⟨rfl, -⟩ : v = s ∧ G.zero = c := by simpa [searchStart, Table.get_put] using h
    exact ⟨[v], .source⟩
  drop v u h := by cases h
  entry c v h := by
    rcases PriorityQueue.mem_push.mp h with heq | h
    · obtain ⟨rfl, rfl⟩ := Prod.mk.inj heq
      exact ⟨_, le_rfl, Table.get_put_self ..⟩
    · rw [Q.items_empty] at h
      cases h

variable {l : List V}

omit [DecidableEq V] [OrderTop C] in
lemma Settled.exists_get (h : G.Settled s st) {v : V} (hl : Trail st.pred.get s v l) {x : V}
    (hx : x ∈ l) : ∃ c, st.dist.get x = some c := by
  induction hl with
  | source => exact ⟨_, mem_singleton.mp hx ▸ h.source⟩
  | @step v u l _ hpred _ ih =>
    rcases mem_append.mp hx with hx | hx
    · exact ih hx
    · obtain ⟨-, cv, -, -, hv, -⟩ := h.drop v u hpred
      exact ⟨cv, mem_singleton.mp hx ▸ hv⟩

omit [DecidableEq V] [OrderTop C] in
/-- The edges of a trail lead from each node of it to the last, below the last node's label. -/
theorem Settled.exists_walk (h : G.Settled s st) {v : V} (hl : Trail st.pred.get s v l) {x : V}
    (hx : x ∈ l) {cx cv : C} (hcx : st.dist.get x = some cx) (hcv : st.dist.get v = some cv) :
    ∃ c ≤ cv, G.Walks (x, cx) (v, c) := by
  induction hl generalizing cv with
  | source =>
    obtain rfl := mem_singleton.mp hx
    obtain rfl : cx = cv := some.inj (hcx.symm.trans hcv)
    exact ⟨cx, le_rfl, .refl⟩
  | @step v u l _ hpred _ ih =>
    rcases mem_append.mp hx with hx | hx
    · obtain ⟨cu, cv', w, hu, hv, hedge, hle⟩ := h.drop v u hpred
      obtain rfl : cv' = cv := some.inj (hv.symm.trans hcv)
      obtain ⟨c, hc, hwalk⟩ := ih hx hu
      exact ⟨G.add c w, (G.add_mono w hc).trans hle, hwalk.tail ⟨w, hedge, rfl⟩⟩
    · obtain rfl := mem_singleton.mp hx
      obtain rfl : cx = cv := some.inj (hcx.symm.trans hcv)
      exact ⟨cx, le_rfl, .refl⟩

omit [DecidableEq V] in
/-- A node whose label falls is not on the trail it falls from, or a walk comes back to it. -/
theorem Settled.not_mem_trail (h : G.Settled s st) (himp : ¬G.Improves s) {cost d : C} {node : V}
    {e : V × W} (hd : st.dist.get node = some d) (hle : d ≤ cost) (he : e ∈ G.rows node)
    (hlt : G.add cost e.2 < label st e.1) (hl : Trail st.pred.get s node l) :
    e.1 ∉ l := by
  intro hmem
  obtain ⟨cx, hcx⟩ := h.exists_get hl hmem
  obtain ⟨c, hc, hwalk⟩ := h.exists_walk hl hmem hcx hd
  rw [label_of_get hcx] at hlt
  refine himp ⟨e.1, cx, G.add c e.2, h.walk _ _ hcx, hwalk.tail ⟨e.2, he, rfl⟩, ?_⟩
  exact lt_of_le_of_lt (G.add_mono e.2 (hc.trans hle)) hlt

lemma Settled.relax (h : G.Settled s st) (himp : ¬G.Improves s) {cost : C} {node : V} {e : V × W}
    (hwalk : G.Walks (s, G.zero) (node, cost)) (hnode : ∃ d ≤ cost, st.dist.get node = some d)
    (he : e ∈ G.rows node) :
    G.Settled s (G.relax cost node st e) ∧
      ∃ d ≤ cost, (G.relax cost node st e).dist.get node = some d := by
  rcases lt_or_ge (G.add cost e.2) (label st e.1) with hlt | hge
  swap
  · rw [relax_of_le hge]
    exact ⟨h, hnode⟩
  obtain ⟨d, hle, hd⟩ := hnode
  obtain ⟨l, hl⟩ := h.trail node d hd
  have hmiss := h.not_mem_trail himp hd hle he hlt hl
  have hs : s ≠ e.1 := fun heq => hmiss (heq ▸ mem_of_head? hl.head?)
  have hne : node ≠ e.1 := fun heq => hmiss (heq ▸ mem_of_getLast? hl.getLast?)
  have hother : ∀ y, y ≠ e.1 → (st.pred.put e.1 node).get y = st.pred.get y :=
    fun y hy => Table.get_put_of_ne _ _ hy
  have hnew : Trail (st.pred.put e.1 node).get s e.1 (l ++ [e.1]) :=
    .step hs.symm (Table.get_put_self ..) (hl.congr hmiss hother)
  rw [relax_of_lt hlt]
  refine ⟨⟨?source, ?walk, ?trail, ?drop, ?entry⟩, d, hle, (Table.get_put_of_ne _ _ hne).trans hd⟩
  case source => exact (Table.get_put_of_ne _ _ hs).trans h.source
  case walk =>
    intro v c hv
    rw [Table.get_put] at hv
    split at hv
    next heq =>
      obtain rfl := some.inj hv
      exact heq ▸ hwalk.tail ⟨e.2, he, rfl⟩
    next => exact h.walk v c hv
  case trail =>
    intro v c hv
    rw [Table.get_put] at hv
    split at hv
    next heq => exact ⟨l ++ [e.1], heq ▸ hnew⟩
    next =>
      obtain ⟨lv, hlv⟩ := h.trail v c hv
      exact hlv.redirect hnew hother
  case drop =>
    intro v u hu
    rw [Table.get_put] at hu
    split at hu
    next heq =>
      obtain rfl := some.inj hu
      subst heq
      exact ⟨d, _, e.2, (Table.get_put_of_ne _ _ hne).trans hd, Table.get_put_self .., he,
        G.add_mono e.2 hle⟩
    next hv =>
      obtain ⟨cu, cv, w, hcu, hcv, hedge, hdrop⟩ := h.drop v u hu
      have hcv' := (Table.get_put_of_ne st.dist (G.add cost e.2) hv).trans hcv
      by_cases hue : u = e.1
      · subst hue
        rw [label_of_get hcu] at hlt
        exact ⟨_, cv, w, Table.get_put_self .., hcv', hedge, (G.add_mono w hlt.le).trans hdrop⟩
      · exact ⟨cu, cv, w, (Table.get_put_of_ne _ _ hue).trans hcu, hcv', hedge, hdrop⟩
  case entry =>
    intro c v hmem
    rcases PriorityQueue.mem_push.mp hmem with heq | hmem
    · obtain ⟨rfl, rfl⟩ := Prod.mk.inj heq
      exact ⟨_, le_rfl, Table.get_put_self ..⟩
    · obtain ⟨d', hd', hv⟩ := h.entry c v hmem
      by_cases hve : v = e.1
      · subst hve
        rw [label_of_get hv] at hlt
        exact ⟨_, hlt.le.trans hd', Table.get_put_self ..⟩
      · exact ⟨d', hd', (Table.get_put_of_ne _ _ hve).trans hv⟩

lemma Settled.step (h : G.Settled s st) (himp : ¬G.Improves s) {t : V} {st' : LabelState Q}
    (hnext : G.searchStep t st = some st') : G.Settled s st' := by
  obtain ⟨cost, node, heap, hpop, -, hcase⟩ := searchStep_cases hnext
  have hrest : G.Settled s { st with heap } := { h with
    entry := fun c v hmem => h.entry c v ((PriorityQueue.mem_of_pop hpop).mpr (.inr hmem)) }
  obtain ⟨-, rfl⟩ | ⟨hge, rfl⟩ := hcase
  · exact hrest
  · obtain ⟨d, hd, hnode⟩ := h.entry cost node ((PriorityQueue.mem_of_pop hpop).mpr (.inl rfl))
    -- The entry is not behind the node's label, so it is the node's label.
    obtain rfl : d = cost := le_antisymm hd (label_of_get hnode ▸ hge)
    refine And.left
      (foldl_relax _ _ _ _ (fun _ st => G.Settled s st ∧ ∃ c ≤ d, st.dist.get node = some c)
      ?_ ⟨hrest, d, le_rfl, hnode⟩)
    exact fun _ e st he hst => hst.1.relax himp (h.walk _ _ hnode) hst.2 he

end Back

/-! ### The path is a cheapest one -/

section Cheapest

variable {s t : V} {st : LabelState Q}

variable {e : V × W}

lemma label_relax_le {cost : C} {node : V} (v : V) :
    label (G.relax cost node st e) v ≤ label st v := by
  rcases lt_or_ge (G.add cost e.2) (label st e.1) with hlt | hge
  · rw [relax_of_lt hlt, label_put]
    split
    next heq => exact heq ▸ hlt.le
    next => exact le_rfl
  · rw [relax_of_le hge]

lemma label_relax_self {cost : C} {node : V} :
    label (G.relax cost node st e) e.1 ≤ G.add cost e.2 := by
  rcases lt_or_ge (G.add cost e.2) (label st e.1) with hlt | hge
  · rw [relax_of_lt hlt, label_put, if_pos rfl]
  · rwa [relax_of_le hge]

lemma mem_items_relax {cost : C} {node : V} {x : C × V} (h : x ∈ Q.items st.heap) :
    x ∈ Q.items (G.relax cost node st e).heap := by
  rcases lt_or_ge (G.add cost e.2) (label st e.1) with hlt | hge
  · rw [relax_of_lt hlt]
    exact PriorityQueue.mem_push.mpr (.inr h)
  · rwa [relax_of_le hge]

/-- A label that a relaxation sets goes into the queue. -/
theorem get_relax {cost d : C} {node v : V} (h : (G.relax cost node st e).dist.get v = some d) :
    st.dist.get v = some d ∨ (d, v) ∈ Q.items (G.relax cost node st e).heap := by
  rcases lt_or_ge (G.add cost e.2) (label st e.1) with hlt | hge
  · rw [relax_of_lt hlt] at h ⊢
    rw [Table.get_put] at h
    split at h
    next heq =>
      obtain rfl := some.inj h
      exact .inr (PriorityQueue.mem_push.mpr (.inl (heq ▸ rfl)))
    next => exact .inl h
  · rw [relax_of_le hge] at h
    exact .inl h

variable (G) in
/-- A label is in the queue, or the edges of its node are relaxed; the target's is in the queue. -/
structure Frontier (t : V) (st : LabelState Q) : Prop where
  relaxed : ∀ u d, st.dist.get u = some d →
    (d, u) ∈ Q.items st.heap ∨ ∀ e ∈ G.rows u, label st e.1 ≤ G.add d e.2
  target : ∀ d, st.dist.get t = some d → (d, t) ∈ Q.items st.heap

omit [OrderTop C] in
lemma mem_start {u : V} {d : C} (h : (G.searchStart Q s).dist.get u = some d) :
    (d, u) ∈ Q.items (G.searchStart Q s).heap := by
  obtain ⟨rfl, rfl⟩ : u = s ∧ G.zero = d := by simpa [searchStart, Table.get_put] using h
  exact PriorityQueue.mem_push.mpr (.inl rfl)

lemma frontier_start : G.Frontier t (G.searchStart Q s) where
  relaxed _ _ h := .inl (mem_start h)
  target _ h := mem_start h

lemma Frontier.step (h : G.Frontier t st) {st' : LabelState Q}
    (hnext : G.searchStep t st = some st') : G.Frontier t st' := by
  obtain ⟨cost, node, heap, hpop, hnt, hcase⟩ := searchStep_cases hnext
  -- An entry other than the one taken out stays.
  have hstay : ∀ {d u}, (d, u) ∈ Q.items st.heap → (d, u) ≠ (cost, node) →
      (d, u) ∈ Q.items heap := fun hmem hne =>
    ((PriorityQueue.mem_of_pop hpop).mp hmem).resolve_left hne
  have htarget : ∀ d, st.dist.get t = some d → (d, t) ∈ Q.items heap := fun d hd =>
    hstay (h.target d hd) fun heq => hnt (Prod.mk.inj heq).2.symm
  obtain ⟨hlt, rfl⟩ | ⟨hge, rfl⟩ := hcase
  · refine ⟨fun u d hd => (h.relaxed u d hd).imp_left fun hmem => hstay hmem fun heq => ?_, htarget⟩
    obtain ⟨rfl, rfl⟩ := Prod.mk.inj heq
    exact absurd (label_of_get hd) hlt.ne
  · have hrows := foldl_relax (G := G) cost node (G.rows node) { st with heap } (fun done st =>
        (∀ u d, st.dist.get u = some d → (d, u) ∈ Q.items st.heap ∨
          (u ≠ node ∧ ∀ e ∈ G.rows u, label st e.1 ≤ G.add d e.2) ∨
          (u = node ∧ cost ≤ d ∧ ∀ e ∈ done, label st e.1 ≤ G.add cost e.2)) ∧
        ∀ d, st.dist.get t = some d → (d, t) ∈ Q.items st.heap) ?_ ⟨?_, htarget⟩
    · refine ⟨fun u d hd => ?_, hrows.2⟩
      rcases hrows.1 u d hd with hmem | ⟨-, hall⟩ | ⟨rfl, hle, hall⟩
      · exact .inl hmem
      · exact .inr hall
      · exact .inr fun e he => (hall e he).trans (G.add_mono e.2 hle)
    · rintro done e st he ⟨hall, htarget⟩
      refine ⟨fun u d hd => ?_, fun d hd => (get_relax hd).elim
        (fun hd => mem_items_relax (htarget d hd)) id⟩
      rcases get_relax hd with hd | hmem
      · rcases hall u d hd with hmem | ⟨hu, hall⟩ | ⟨hu, hle, hall⟩
        · exact .inl (mem_items_relax hmem)
        · exact .inr (.inl ⟨hu, fun e he => (label_relax_le _).trans (hall e he)⟩)
        · refine .inr (.inr ⟨hu, hle, fun e' he' => ?_⟩)
          rcases mem_append.mp he' with he' | he'
          · exact (label_relax_le _).trans (hall e' he')
          · exact mem_singleton.mp he' ▸ label_relax_self
      · exact .inl hmem
    · intro u d hd
      by_cases hu : u = node
      · exact .inr (.inr ⟨hu, label_of_get (hu ▸ hd) ▸ hge, fun e he => absurd he not_mem_nil⟩)
      · rcases h.relaxed u d hd with hmem | hall
        · exact .inl (hstay hmem fun heq => hu (Prod.mk.inj heq).2)
        · exact .inr (.inl ⟨hu, hall⟩)

omit [DecidableEq V] in
/-- No walk to the target has a smaller label than every entry of the queue. -/
theorem Frontier.le (h : G.Frontier t st) (hst : G.Settled s st) (hgrows : G.Grows)
    {bound : C} (hbound : ∀ x ∈ Q.items st.heap, bound ≤ x.1) {c : C}
    (hwalk : G.Walks (s, G.zero) (t, c)) : bound ≤ c := by
  -- Along the walk, a node has a label no larger than the walk's until the queue is met.
  have hall : ∀ b, G.Walks (s, G.zero) b → bound ≤ b.2 ∨ ∃ d ≤ b.2, st.dist.get b.1 = some d := by
    intro b hb
    induction hb with
    | refl => exact .inr ⟨_, le_rfl, hst.source⟩
    | @tail x y _ hlead ih =>
      obtain ⟨w, hedge, heq⟩ := hlead
      have hgrow : x.2 ≤ y.2 := heq ▸ hgrows _ _ hedge _
      rcases ih with hle | ⟨d, hd, hx⟩
      · exact .inl (hle.trans hgrow)
      · rcases h.relaxed x.1 d hx with hmem | hrelaxed
        · exact .inl ((hbound _ hmem).trans (hd.trans hgrow))
        · have hle : label st y.1 ≤ y.2 :=
            (hrelaxed (y.1, w) hedge).trans (heq ▸ G.add_mono w hd)
          cases hy : st.dist.get y.1 with
          | none =>
            rw [label, hy, getD_none, top_le_iff] at hle
            exact .inl (hle ▸ le_top)
          | some d' => exact .inr ⟨d', label_of_get hy ▸ hle, rfl⟩
  rcases hall _ hwalk with hle | ⟨d, hd, ht⟩
  · exact hle
  · exact (hbound _ (h.target d ht)).trans hd

end Cheapest

/-! ### The path found -/

omit [DecidableEq V] [OrderTop C] in
/-- A trail carries a label no larger than that of its last node. -/
theorem Settled.exists_along {s : V} (h : G.Settled s st) {v : V} {l : List V}
    (hl : Trail st.pred.get s v l) {c : C} (hc : st.dist.get v = some c) :
    ∃ c' ≤ c, G.Along G.zero l c' := by
  induction hl generalizing c with
  | source =>
    obtain rfl : G.zero = c := some.inj (h.source.symm.trans hc)
    exact ⟨_, le_rfl, .single ..⟩
  | @step v u l _ hpred hl ih =>
    obtain ⟨cu, cv, w, hu, hv, hedge, hle⟩ := h.drop v u hpred
    obtain rfl : cv = c := some.inj (hv.symm.trans hc)
    obtain ⟨c', hc', halong⟩ := ih hu
    exact ⟨_, (G.add_mono w hc').trans hle, halong.concat hl.getLast? hedge⟩

variable (G) in
/-- A path from a source to a target that visits no node twice and carries a label. -/
structure SimplePath (s t : V) (l : List V) (c : C) : Prop where
  head : l.head? = some s
  last : l.getLast? = some t
  nodup : l.Nodup
  along : G.Along G.zero l c

variable {rank : C → ℕ} {nodes : Finset V}

/-- Unless a walk comes back with a smaller label, the search returns, and what it finds is a simple
path. Where no edge makes a label smaller, that path carries the label found, which is the least
of all walks. -/
theorem findPath_spec (hrank : StrictMono rank)
    (hrows : ∀ v ∈ nodes, ∀ e ∈ G.rows v, e.1 ∈ nodes) {s t : V} (hs : s ∈ nodes)
    (himp : ¬G.Improves s) :
    ∃ r, Returns (G.findPath Q s t) r ∧
      (∀ path cost, r = some (path, cost) → ∃ c ≤ cost, G.SimplePath s t path c) ∧
      (G.Grows →
        (∀ path cost, r = some (path, cost) → G.SimplePath s t path cost ∧
          ∀ c, G.Walks (s, G.zero) (t, c) → cost ≤ c) ∧
        (r = none → ∀ c, G.Walks (s, G.zero) (t, c) → c = ⊤)) := by
  by_cases hst : s = t
  · subst hst
    have hsingle : G.SimplePath s s [s] G.zero := ⟨rfl, rfl, nodup_singleton s, .single ..⟩
    refine ⟨some ([s], G.zero), ?_, ?_, fun hgrows => ⟨?_, nofun⟩⟩
    · exact ⟨0, fun fuel _ => by rw [findPath, if_pos rfl]⟩
    · intro path cost h
      obtain ⟨rfl, rfl⟩ := Prod.mk.inj (some.inj h)
      exact ⟨_, le_rfl, hsingle⟩
    · intro path cost h
      obtain ⟨rfl, rfl⟩ := Prod.mk.inj (some.inj h)
      exact ⟨hsingle, fun c hwalk => Walks.le hgrows hwalk⟩
  obtain ⟨st, hsteps, hdone, hsettled, hfront⟩ := exists_search_end (Q := Q) hrank hrows (t := t) hs
    (fun st => G.Settled s st ∧ G.Frontier t st) ⟨settled_start, frontier_start⟩
    fun st st' h hnext => ⟨h.1.step himp hnext, h.2.step hnext⟩
  have hsearch := hsteps.returns hdone
  have hfind : G.findPath Q s t = fun fuel => (runSteps (G.searchStep t) fuel
      (G.searchStart Q s)).bind fun st => match Q.pop st.heap with
        | none => some none
        | some ((cost, _), _) => (runSteps (stepBack st.pred s) fuel [t]).bind fun path =>
            if path.head? = some s then some (some (path, cost)) else none := by
    funext fuel
    rw [findPath, if_neg hst]
    rfl
  rw [hfind]
  rcases eq_of_searchStep_none hdone with hnone | ⟨cost, heap, hpop⟩
  · refine ⟨none, hsearch.bind _ ?_, nofun, fun hgrows => ⟨nofun, fun _ c hwalk => ?_⟩⟩
    · simp only [hnone]
      exact .const none
    · have hempty := Q.items_of_pop_none _ hnone
      refine top_le_iff.mp (hfront.le hsettled hgrows (fun x hx => ?_) hwalk)
      rw [hempty] at hx
      cases hx
  · obtain ⟨hperm, hleast⟩ := Q.items_of_pop_some _ _ _ hpop
    obtain ⟨d, hd, ht⟩ := hsettled.entry cost t ((PriorityQueue.mem_of_pop hpop).mpr (.inl rfl))
    obtain rfl : d = cost := le_antisymm hd (hleast _ (hfront.target d ht))
    obtain ⟨path, hpath⟩ := hsettled.trail t d ht
    obtain ⟨c, hc, halong⟩ := hsettled.exists_along hpath ht
    refine ⟨some (path, d), hsearch.bind _ ?_, fun path' cost' h => ?_,
      fun hgrows => ⟨fun path' cost' h =>
      ?_, nofun⟩⟩
    · simp only [hpop]
      refine hpath.returns.bind _ ?_
      simp only [hpath.head?, if_true]
      exact .const _
    · obtain ⟨rfl, rfl⟩ := Prod.mk.inj (some.inj h)
      exact ⟨c, hc, hpath.head?, hpath.getLast?, hpath.nodup, halong⟩
    · obtain ⟨rfl, rfl⟩ := Prod.mk.inj (some.inj h)
      have hmin : ∀ c, G.Walks (s, G.zero) (t, c) → d ≤ c :=
        fun c hwalk => hfront.le hsettled hgrows hleast hwalk
      obtain rfl : c = d := le_antisymm hc (hmin c (halong.walks hpath.head? hpath.getLast?))
      exact ⟨⟨hpath.head?, hpath.getLast?, hpath.nodup, halong⟩, hmin⟩

/-- More fuel does not change the result. -/
theorem findPath_mono {s t : V} {fuel fuel' : ℕ} {r : Option (List V × C)}
    (h : G.findPath Q s t fuel = some r) (hle : fuel ≤ fuel') :
    G.findPath Q s t fuel' = some r := by
  rw [findPath] at h ⊢
  split
  next hst => rwa [if_pos hst] at h
  next hst =>
    rw [if_neg hst] at h
    obtain ⟨st, hst, h⟩ := bind_eq_some_iff.mp h
    refine bind_eq_some_iff.mpr ⟨st, runSteps_mono hst hle, ?_⟩
    cases hpop : Q.pop st.heap with
    | none => rwa [hpop] at h
    | some e =>
      rw [hpop] at h
      obtain ⟨path, hpath, h⟩ := bind_eq_some_iff.mp h
      exact bind_eq_some_iff.mpr ⟨path, runSteps_mono hpath hle, h⟩

end LabelGraph
