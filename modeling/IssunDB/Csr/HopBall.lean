import IssunDB.Csr.CheapestPaths
import IssunDB.Lib.DepthSearch

/-!
# The nodes within a number of hops

`dfs` walks the rows of the snapshot depth first and keeps the smallest depth at which it has met
each node. A node met again at a smaller depth is expanded again. `bfs` finds the same nodes level
by level, and nothing from a start that the snapshot does not have.

`dfs` has no such check: it meets its start before it looks for a row. `dfsExact_iff` says that the
two searches find the same nodes just when the start is a node of the snapshot.
-/

namespace IssunDB

namespace CsrArrays

variable (S : CsrArrays)

/-- Breadth-first search outward from `start`, up to `hops` levels. -/
def bfs (start : NodeId) (hops : ℕ) : List NodeId :=
  match S.idToDense.get start with
  | none => []
  | some dense =>
    let levels := (List.replicate S.denseToId.length none).set dense (some 0)
    S.reachedInOrder (S.searchLevels none hops 1 ⟨levels, [dense], false, 1⟩).levels

/-- The ids in the row of a node; a node without a dense index has no row. -/
def neighborsOf (node : NodeId) : List NodeId :=
  match S.idToDense.get node with
  | none => []
  | some dense => (S.outRow dense).map fun e => S.denseToId.getD e.col 0

/-- Visit a node at a depth with `left` levels below it. -/
def dfsRecurse (left : ℕ) (node : NodeId) (depth : ℕ) (st : DepthSearch NodeId) :
    DepthSearch NodeId :=
  DepthSearch.recurse S.neighborsOf left node depth st

/-- Depth-first search outward from `start`, up to `hops` levels deep. -/
def dfs (start : NodeId) (hops : ℕ) : List NodeId := (S.dfsRecurse hops start 0 .init).order

/-- A depth-first search lists each of the nodes within its hops once, and nothing else; so does a
breadth-first one. -/
structure DfsExact (start : NodeId) (hops : ℕ) : Prop where
  nodup : (S.dfs start hops).Nodup
  mem_iff : ∀ id, id ∈ S.dfs start hops ↔ id ∈ S.withinHops [start] hops
  mem_bfs : ∀ id, id ∈ S.dfs start hops ↔ id ∈ S.bfs start hops

end CsrArrays

namespace Snapshot

variable {S : Snapshot}

lemma mem_neighborsOf {u v : NodeId} : v ∈ S.neighborsOf u ↔ S.OutStep u v := by
  rw [outStep_iff_edgesFrom, CsrArrays.neighborsOf, CsrArrays.edgesFrom]
  cases S.idToDense.get u with
  | none => simp
  | some d => simp

/-! ## Breadth first -/

/-- A search from one node is the search from several seeds with that one alone. -/
theorem bfs_eq (start : NodeId) (hops : ℕ) :
    S.bfs start hops = (S.bfsMultiSource [start] hops none).1 := by
  rw [CsrArrays.bfs, CsrArrays.bfsMultiSource]
  by_cases hn : S.denseToId.length = 0
  · rw [if_pos (Or.inr hn)]
    cases hget : S.idToDense.get start with
    | none => rfl
    | some d =>
      have hlt : d < S.n := (List.getElem?_eq_some_iff.mp (S.get_idToDense.mp hget)).1
      exact absurd hn (by rw [n] at hlt; omega)
  · have hnot : ¬([start] = [] ∨ S.denseToId.length = 0) := by
      simpa using hn
    rw [if_neg hnot, CsrArrays.admitSeeds]
    cases hget : S.idToDense.get start with
    | none => rfl
    | some d =>
      have hfresh : ∀ n, (List.replicate n (none : Option ℕ)).getD d none = none := fun n => by
        rw [List.getD_eq_getElem?_getD, List.getElem?_replicate]
        split <;> rfl
      dsimp only
      rw [if_neg (not_not.mpr (hfresh _)), Option.any_none]
      simp [CsrArrays.admitSeeds]

lemma truncated_searchLevels (remaining hop : ℕ) (st : Search) :
    (S.searchLevels none remaining hop st).truncated = st.truncated := by
  induction remaining generalizing hop st with
  | zero => rfl
  | succ remaining ih =>
    rw [CsrArrays.searchLevels]
    dsimp only
    split
    next => rfl
    next => exact ih _ _

lemma truncated_admitSeeds (seeds : List NodeId) (st : Search) :
    (S.admitSeeds none seeds st).truncated = st.truncated := by
  induction seeds generalizing st with
  | nil => rfl
  | cons seed seeds ih =>
    rw [CsrArrays.admitSeeds]
    split
    next => exact ih st
    next =>
      split
      next => exact ih st
      next =>
        rw [if_neg (by simp)]
        exact ih _

/-- A search without a cap leaves nothing out. -/
theorem bfsMultiSource_untruncated (seeds : List NodeId) (hops : ℕ) :
    (S.bfsMultiSource seeds hops none).2 = false := by
  rw [CsrArrays.bfsMultiSource]
  dsimp only
  split
  next => rfl
  next =>
    split
    next => exact truncated_admitSeeds seeds _
    next => exact (truncated_searchLevels hops 1 _).trans (truncated_admitSeeds seeds _)

variable {id : NodeId} {hops : ℕ}

/-- Breadth-first search finds the nodes within the hops. -/
theorem mem_bfs {start : NodeId} :
    id ∈ S.bfs start hops ↔ id ∈ S.withinHops [start] hops := by
  obtain ⟨levels, truncated, hdone, heq⟩ := S.exists_searched [start] hops none
  obtain rfl : false = truncated :=
    (bfsMultiSource_untruncated [start] hops).symm.trans (congrArg Prod.snd heq)
  have hall : ∀ d ∈ within S.DenseStep (S.seedIndices [start]) hops, d ∈ marked levels := by
    intro d hd
    by_contra hmem
    cases hdone.flag.mpr ⟨d, hd, hmem⟩
  rw [bfs_eq, heq, mem_withinHops, S.mem_reachedInOrder hdone.length]
  exact exists_congr fun d => and_congr_left fun _ => ⟨hdone.reach d, hall d⟩

/-! ## Depth first -/

/-- Depth-first search finds what can be walked to, from any id at all. -/
theorem mem_dfs {start : NodeId} :
    id ∈ S.dfs start hops ↔ id ∈ within S.OutStep {start} hops := by
  have hstep : (fun u w => w ∈ S.neighborsOf u) = S.OutStep := by
    ext u w
    exact mem_neighborsOf
  have h := (DepthSearch.nodup_and_mem_order_search S.neighborsOf start hops).2 id
  rw [hstep] at h
  exact h

lemma start_mem_dfs (start : NodeId) (hops : ℕ) : start ∈ S.dfs start hops :=
  mem_dfs.mpr (within_mono (Nat.zero_le hops) rfl)

/-- Only nodes lie within reach of known seeds. -/
theorem mem_denseToId_of_mem_withinHops {seeds : List NodeId} (h : id ∈ S.withinHops seeds hops) :
    id ∈ S.denseToId := by
  obtain ⟨d, -, hd⟩ := (S.mem_withinHops seeds hops id).mp h
  exact List.mem_of_getElem? hd

/-- **Depth-first search.** `dfs` lists just the nodes within its hops, the ones that `bfs` finds,
if and only if its start is a node. -/
theorem dfsExact_iff (S : Snapshot) (start : NodeId) (hops : ℕ) :
    S.DfsExact start hops ↔ start ∈ S.denseToId := by
  have hwithin (hknown : start ∈ S.denseToId) :
      S.withinHops [start] hops = within S.OutStep {start} hops := by
    have hstart : {id | id ∈ [start] ∧ id ∈ S.denseToId} = ({start} : Set NodeId) := by
      ext id
      rw [Set.mem_ofPred_eq, List.mem_singleton, Set.mem_singleton_iff, and_iff_left_iff_imp]
      rintro rfl
      exact hknown
    rw [CsrArrays.withinHops, hstart]
  constructor
  · intro h
    -- The search lists its start, and only nodes are within the hops.
    exact mem_denseToId_of_mem_withinHops ((h.mem_iff start).mp (start_mem_dfs start hops))
  · intro hknown
    refine ⟨(DepthSearch.nodup_and_mem_order_search S.neighborsOf start hops).1, fun id => ?_,
      fun id => ?_⟩
    · rw [hwithin hknown]
      exact mem_dfs
    · rw [mem_bfs, hwithin hknown]
      exact mem_dfs

def singleNode : Snapshot := .ofRows [0] [[]] none (by decide)

/-- From an id that is no node, `dfs` lists that id and `bfs` nothing. -/
theorem dfs_unknownStart :
    singleNode.dfs 7 1 = [7] ∧ singleNode.bfs 7 1 = [] ∧ ¬ singleNode.DfsExact 7 1 := by
  have hdfs : singleNode.dfs 7 1 = [7] := by decide +kernel
  have hbfs : singleNode.bfs 7 1 = [] := by decide +kernel
  refine ⟨hdfs, hbfs, fun h => ?_⟩
  have hmem := (h.mem_bfs 7).mp (hdfs ▸ List.mem_singleton_self 7)
  rw [hbfs] at hmem
  cases hmem

end Snapshot

end IssunDB
