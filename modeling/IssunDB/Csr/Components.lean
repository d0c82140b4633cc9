import IssunDB.Csr.Search
import IssunDB.Lib.Fallible
import IssunDB.Lib.UnionFind

/-!
# Weakly connected components

`connectedComponents` unites the two ends of every edge in a parent array over the dense indices,
toward the smaller root, and then maps the root of each node back to a node id.

`connectedComponents_spec` states that it ends, that two nodes get one component id just when a
path joins them in either direction, and that the id is the least node id of the component.
-/

namespace IssunDB

open List UnionFind

namespace CsrArrays

variable (S : CsrArrays)

/-- The component id of each node, in order. Looking up a root goes on halving paths. -/
def componentIds (fuel : ℕ) : (parent : List ℕ) → List ℕ → Option (List (NodeId × NodeId))
  | _, [] => some []
  | parent, d :: ds => do
    let (parent, root) ← find fuel parent d
    let rest ← componentIds fuel parent ds
    some ((S.denseToId.getD d 0, S.denseToId.getD root 0) :: rest)

/-- Weakly connected components by union-find over the adjacency, treating every edge as
undirected. The fuel bounds the steps of one climb. -/
def connectedComponents (fuel : ℕ) : Option (List (NodeId × NodeId)) :=
  let n := S.denseToId.length
  if n = 0 then some []
  else do
    let parent ← (List.range n).foldlM
      (fun parent u => (S.outRow u).foldlM (fun parent e => union fuel parent u e.col) parent)
      (List.range n)
    S.componentIds fuel parent (List.range n)

/-- A path joins two nodes if the direction of its edges is ignored. -/
def WeaklyJoined (a b : NodeId) : Prop := Relation.ReflTransGen (Relation.SymmGen S.OutStep) a b

end CsrArrays

namespace Snapshot

variable (S : Snapshot)

lemma weaklyJoined_eq : S.WeaklyJoined = Relation.EqvGen S.OutStep := by
  funext a b
  exact congrFun (congrFun (Relation.EqvGen.reflTransGen_symmGen _) a) b

/-- Nodes are joined just when their indices are. -/
theorem weaklyJoined_iff {u : ℕ} (hu : u < S.n) {b : NodeId} :
    S.WeaklyJoined (S.idOf u) b ↔ ∃ v < S.n, Relation.EqvGen S.DenseStep u v ∧ S.idOf v = b := by
  constructor
  · intro h
    rw [CsrArrays.WeaklyJoined] at h
    induction h with
    | refl => exact ⟨u, hu, .refl u, rfl⟩
    | tail _ hstep ih =>
      obtain ⟨v, hv, huv, rfl⟩ := ih
      rcases hstep with hstep | hstep <;> obtain ⟨x, y, hxy, hx, hy⟩ := S.outStep_iff.mp hstep
      · obtain rfl := (S.idOf_inj hxy.lt.1 hv).mp hx
        exact ⟨y, hxy.lt.2, .trans _ _ _ huv (.rel _ _ hxy), hy⟩
      · obtain rfl := (S.idOf_inj hxy.lt.2 hv).mp hy
        exact ⟨x, hxy.lt.1, .trans _ _ _ huv (.symm _ _ (.rel _ _ hxy)), hx⟩
  · rintro ⟨v, -, huv, rfl⟩
    rw [weaklyJoined_eq]
    clear hu
    induction huv with
    | rel x y hxy => exact .rel _ _ (S.outStep_iff.mpr ⟨x, y, hxy, rfl, rfl⟩)
    | refl x => exact .refl _
    | symm x y _ ih => exact .symm _ _ ih
    | trans x y z _ _ ih₁ ih₂ => exact .trans _ _ _ ih₁ ih₂

/-- With the roots of a forest, the ids are those of the roots. -/
theorem componentIds_eq {fuel : ℕ} (hfuel : S.n ≤ fuel) {parent : List ℕ} (h : Forest S.n parent)
    {ds : List ℕ} (hds : ∀ d ∈ ds, d < S.n) :
    S.componentIds fuel parent ds =
    some (ds.map fun d => (S.idOf d, S.idOf (rootOf parent d))) := by
  induction ds generalizing parent with
  | nil => rfl
  | cons d ds ih =>
    have hd := hds d mem_cons_self
    have hrest : ∀ d ∈ ds, d < S.n := fun d hd => hds d (mem_cons_of_mem _ hd)
    obtain ⟨parent', hfind, hforest, heq⟩ := h.find_eq (hd.trans_le hfuel) hd
    rw [CsrArrays.componentIds, hfind]
    change (S.componentIds fuel parent' ds >>= _) = _
    rw [ih hforest hrest]
    have htail : ds.map (fun d => (S.idOf d, S.idOf (rootOf parent' d))) =
        ds.map fun d => (S.idOf d, S.idOf (rootOf parent d)) :=
      map_congr_left fun d hd => by rw [heq d (hrest d hd)]
    rw [htail]
    rfl

/-- The pass over the rows unites the two ends of every edge. -/
theorem exists_joins {fuel : ℕ} (hfuel : S.n ≤ fuel) :
    ∃ parent, Joins S.n S.DenseStep parent ∧ S.connectedComponents fuel =
      some ((List.range S.n).map fun d => (S.idOf d, S.idOf (rootOf parent d))) := by
  let pairs : List (ℕ × ℕ) := (List.range S.n).flatMap fun u => (S.outRow u).map fun e => (u, e.col)
  have hmem : ∀ x y, (x, y) ∈ pairs ↔ S.DenseStep x y := by
    intro x y
    rw [← S.exists_mem_outRow, mem_flatMap]
    constructor
    · rintro ⟨u, -, h⟩
      obtain ⟨e, he, heq⟩ := mem_map.mp h
      obtain ⟨rfl, rfl⟩ := Prod.mk.inj heq
      exact ⟨e, he, rfl⟩
    · rintro ⟨e, he, rfl⟩
      have hlt := (S.exists_mem_outRow.mp ⟨e, he, rfl⟩).lt.1
      exact ⟨x, mem_range.mpr hlt, mem_map_of_mem he⟩
  have hnone : Joins S.n (fun _ _ => False) (List.range S.n) := .range S.n fun _ _ h => h
  obtain ⟨parent, hrun, hjoins⟩ := hnone.foldlM_union hfuel pairs
    (fun p hp => ((hmem p.1 p.2).mp hp).lt) fun _ _ h => h.elim
  have hjoins' : Joins S.n S.DenseStep parent := by
    convert hjoins using 3 with x y
    rw [false_or, hmem]
  refine ⟨parent, hjoins', ?_⟩
  rw [CsrArrays.connectedComponents]
  split
  next hempty =>
    have hn : S.n = 0 := hempty
    rw [hn]
    rfl
  next =>
    have hpass : (List.range S.n).foldlM (fun parent u =>
        (S.outRow u).foldlM (fun parent e => UnionFind.union fuel parent u e.col) parent)
          (List.range S.n) = some parent := by
      rw [← hrun]
      simp only [pairs, List.foldlM_flatMap, foldlM_map]
    change ((List.range S.n).foldlM _ (List.range S.n) >>= fun parent =>
      S.componentIds fuel parent (List.range S.n)) = _
    rw [hpass]
    exact S.componentIds_eq hfuel hjoins'.toForest fun d hd => mem_range.mp hd

end Snapshot

open Snapshot in
/-- The union-find ends, and what it returns is the partition into weakly connected components:
every node has one id, two nodes have the same id just when a path joins them in either direction,
and the id is the least node id of the component. -/
theorem Snapshot.connectedComponents_spec (S : Snapshot) :
    ∃ comps : List (NodeId × NodeId),
      (∀ fuel, S.n ≤ fuel → S.connectedComponents fuel = some comps) ∧
      comps.map Prod.fst = S.denseToId ∧
      (∀ a c b d, (a, c) ∈ comps → (b, d) ∈ comps → (c = d ↔ S.WeaklyJoined a b)) ∧
      ∀ a c, (a, c) ∈ comps → IsLeast {b | b ∈ S.denseToId ∧ S.WeaklyJoined a b} c := by
  obtain ⟨parent, hjoins, -⟩ := S.exists_joins le_rfl
  refine ⟨(List.range S.n).map fun d => (S.idOf d, S.idOf (rootOf parent d)), ?_, ?_, ?_, ?_⟩
  · intro fuel hfuel
    obtain ⟨parent', hjoins', hrun⟩ := S.exists_joins hfuel
    rw [hrun]
    congr 1
    apply map_congr_left
    intro d hd
    have hd := mem_range.mp hd
    rw [(hjoins'.isLeast_rootOf hd).unique (hjoins.isLeast_rootOf hd)]
  · rw [map_map]
    exact S.map_idOf_range
  · intro a c b d hac hbd
    obtain ⟨u, hu, heq⟩ := mem_map.mp hac
    obtain ⟨rfl, rfl⟩ := Prod.mk.inj heq
    obtain ⟨v, hv, heq⟩ := mem_map.mp hbd
    obtain ⟨rfl, rfl⟩ := Prod.mk.inj heq
    have hu := mem_range.mp hu
    have hv := mem_range.mp hv
    rw [S.idOf_inj ((rootOf_le u).trans_lt hu) ((rootOf_le v).trans_lt hv),
      hjoins.rootOf_eq_iff hu hv, S.weaklyJoined_iff hu]
    constructor
    · exact fun h => ⟨v, hv, h, rfl⟩
    · rintro ⟨v', hv', h, heq⟩
      exact (S.idOf_inj hv' hv).mp heq ▸ h
  · intro a c hac
    obtain ⟨u, hu, heq⟩ := mem_map.mp hac
    obtain ⟨rfl, rfl⟩ := Prod.mk.inj heq
    have hu := mem_range.mp hu
    obtain ⟨⟨hroot, hjoined⟩, hleast⟩ := hjoins.isLeast_rootOf hu
    constructor
    · exact ⟨S.idOf_mem hroot, (S.weaklyJoined_iff hu).mpr ⟨_, hroot, hjoined, rfl⟩⟩
    · rintro b ⟨-, hb⟩
      obtain ⟨v, hv, huv, rfl⟩ := (S.weaklyJoined_iff hu).mp hb
      exact S.idOf_le_idOf hv (hleast ⟨hv, huv⟩)

end IssunDB
