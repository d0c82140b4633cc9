import IssunDB.Adjacency
import IssunDB.DenseIndex
import IssunDB.Lib.Rows

/-!
# The adjacency snapshot

A snapshot holds the adjacency as packed rows over the dense indices of the nodes: `out` has the
destination, type and id of every edge, grouped by source, and `inc` lists the same edges grouped
by destination. `build` reads it from the adjacency table in one pass, sorts each row by edge id
and derives the incoming side by a counting sort.

The parallel arrays of the source are lists of records here: `out` is `col_idx`, `edge_type` and
`edge_id`, entry by entry, and `inc` is `in_col_idx`, `in_edge_type` and `in_pos`.

## Main results

* `CsrArrays.build_eq`: on a sound database the arrays are those of `layout`, the packed rows of
  the outgoing edges of each node in ascending order of their ids;
* `Snapshot.outRow_eq` and `Snapshot.inRow_eq`: a row lists the edges out of a node, or into it.
-/

namespace IssunDB

open List

/-- One position of the outgoing arrays. -/
structure OutEntry where
  /-- The dense index of the destination, `col_idx`. -/
  col : ℕ
  edgeType : TypeId
  edgeId : EdgeId
  deriving DecidableEq

/-- One position of the incoming arrays. -/
structure InEntry where
  /-- The dense index of the source, `in_col_idx`. -/
  col : ℕ
  edgeType : TypeId
  /-- The position of the same edge in the outgoing arrays. -/
  pos : ℕ
  deriving DecidableEq

/-- The arrays of a `CsrSnapshot` over plain numbers. `CsrSnapshot` is their fixed-width form, as
the cache file holds it. -/
structure CsrArrays where
  rowPtr : List ℕ
  out : List OutEntry
  /-- The weight of each outgoing entry, only on a snapshot built with weights. -/
  edgeWeight : Option (List F64)
  hasNegativeWeight : Bool
  inRowPtr : List ℕ
  inc : List InEntry
  denseToId : List NodeId
  idToDense : DenseIndex

namespace CsrArrays

/-- The array `col_idx`. -/
def colIdx (S : CsrArrays) : List ℕ := S.out.map (·.col)

/-- The array `edge_type`. -/
def edgeType (S : CsrArrays) : List TypeId := S.out.map (·.edgeType)

/-- The array `edge_id`. -/
def edgeId (S : CsrArrays) : List EdgeId := S.out.map (·.edgeId)

/-- The array `in_col_idx`. -/
def inColIdx (S : CsrArrays) : List ℕ := S.inc.map (·.col)

/-- The array `in_edge_type`. -/
def inEdgeType (S : CsrArrays) : List TypeId := S.inc.map (·.edgeType)

/-- The array `in_pos`. -/
def inPos (S : CsrArrays) : List ℕ := S.inc.map (·.pos)

/-- The outgoing entries of a node. -/
def outRow (S : CsrArrays) (i : ℕ) : List OutEntry := rowAt S.rowPtr S.out i

/-- The incoming entries of a node. -/
def inRow (S : CsrArrays) (i : ℕ) : List InEntry := rowAt S.inRowPtr S.inc i

end CsrArrays

/-! ## Building -/

/-- The weight a property blob carries: the first present of four keys, else `1.0`. -/
def weightInProps (p : Props) : F64 :=
  (((p.get "weight").orElse fun _ => (p.get "cost").orElse fun _ =>
    (p.get "capacity").orElse fun _ => p.get "cap").bind fun v =>
      match v with
      | .number x => some x.asF64
      | _ => none).getD (.ofNat 1 F64.one_fits)

/-- The weight of a stored edge, one if it has no record. -/
def weightOfEdge (s : Storage) (id : EdgeId) : F64 :=
  match s.tables.edges.get id with
  | none => .ofNat 1 F64.one_fits
  | some r => weightInProps r.props

def Storage.nodeIds (s : Storage) : List NodeId := s.tables.nodes.keys.ascending

def Adjacency.sources (a : Adjacency) : List NodeId := (a.outAdj.image Prod.fst).ascending

/-- What the pass over the outgoing adjacency pushes, with the dense index of the source. An entry
with an endpoint that has no record is skipped. -/
def outPushes (s : Storage) (index : DenseIndex) : List (ℕ × OutEntry) :=
  s.adj.sources.flatMap fun src =>
    match index.get src with
    | none => []
    | some srcD => (s.adj.entries src true).filterMap fun e =>
      (index.get e.other).map fun dstD => (srcD, ⟨dstD, e.edgeType, e.edgeId⟩)

/-- Restore the by-edge-id order inside a row. -/
def sortRow (row : List OutEntry) : List OutEntry :=
  if row.length < 2 ∨ (row.map (·.edgeId)).Pairwise (· ≤ ·) then row
  else row.mergeSort fun a b => a.edgeId ≤ b.edgeId

/-- Where the weight of a stored edge goes: its id is looked up in the row of its source. -/
def weightSlot (s : Storage) (rowPtr : List ℕ) (out : List OutEntry) (index : DenseIndex)
    (id : EdgeId) : Option (ℕ × F64) := do
  let r ← s.tables.edges.get id
  let srcD ← index.get r.src
  let offset ← (rowAt rowPtr out srcD).findIdx? (·.edgeId = id)
  some (rowPtr.getD srcD 0 + offset, weightInProps r.props)

/-- Read one weight per outgoing entry in a scan of the edges, `1.0` where no edge claims it. -/
def loadWeights (s : Storage) (rowPtr : List ℕ) (out : List OutEntry) (index : DenseIndex) :
    List F64 :=
  s.tables.edges.keys.ascending.foldl
    (fun weights id => fillSlot weights (weightSlot s rowPtr out index id))
    (List.replicate out.length (.ofNat 1 F64.one_fits))

/-- The counting sort of the outgoing arrays into the incoming ones. -/
def transpose (n : ℕ) (rowPtr : List ℕ) (out : List OutEntry) : List ℕ × List InEntry :=
  let inRowPtr := offsets (tally n (out.map (·.col)))
  let items := (List.range n).flatMap fun srcD =>
    (List.range' (rowPtr.getD srcD 0) (rowPtr.getD (srcD + 1) 0 - rowPtr.getD srcD 0)).filterMap
      fun k => out[k]?.map fun e => (e.col, (⟨srcD, e.edgeType, k⟩ : InEntry))
  (inRowPtr, (scatter items inRowPtr (List.replicate out.length ⟨0, 0, 0⟩)).2)

/-- Some weight is below zero. -/
def anyNegative (weights : Option (List F64)) : Bool :=
  weights.any fun ws => ws.any fun w => w.scaled < 0

/-- The error for an edge count `in_pos` cannot address. -/
def tooManyEdges (total : ℕ) : Error := .invalidArgument
  s!"the adjacency holds {total} edges, more than the {maxSnapshotEdges} a snapshot can index"

/-- `build_inner`. -/
def CsrArrays.build (s : Storage) (weighted : Bool) : Except Error CsrArrays :=
  let denseToId := s.nodeIds
  let n := denseToId.length
  let idToDense := DenseIndex.fromIds denseToId
  let pushes := outPushes s idToDense
  let rowPtr := offsets (tally n (pushes.map Prod.fst))
  let total := rowPtr.getD n 0
  if maxSnapshotEdges < total then .error (tooManyEdges total)
  else
    let out := rewriteRows sortRow rowPtr n (pushes.map Prod.snd)
    let edgeWeight := if weighted then some (loadWeights s rowPtr out idToDense) else none
    let incoming := transpose n rowPtr out
    .ok { rowPtr, out, edgeWeight, hasNegativeWeight := anyNegative edgeWeight
          inRowPtr := incoming.1, inc := incoming.2, denseToId, idToDense }

/-! ## The layout of a table of rows -/

namespace CsrArrays

/-- The snapshot with the given outgoing rows. -/
def layout (ids : List NodeId) (rows : List (List OutEntry)) (weights : Option (List F64)) :
    CsrArrays :=
  let incoming := transpose ids.length (rowOffsets rows) rows.flatten
  { rowPtr := rowOffsets rows
    out := rows.flatten
    edgeWeight := weights
    hasNegativeWeight := anyNegative weights
    inRowPtr := incoming.1
    inc := incoming.2
    denseToId := ids
    idToDense := .fromIds ids }

/-- The outgoing rows, one for each dense index. -/
def rows (S : CsrArrays) : List (List OutEntry) := (List.range S.denseToId.length).map S.outRow

lemma outRow_layout (ids : List NodeId) (rows : List (List OutEntry)) (weights : Option (List F64))
    (i : ℕ) : (layout ids rows weights).outRow i = rows.getD i [] :=
  rowAt_offsets rows i

lemma rows_layout {ids : List NodeId} {rows : List (List OutEntry)} (h : rows.length = ids.length)
    (weights : Option (List F64)) : (layout ids rows weights).rows = rows := by
  have hmap : (layout ids rows weights).rows = (List.range ids.length).map fun i =>
      rows.getD i [] :=
    map_congr_left fun i _ => outRow_layout ids rows weights i
  rw [hmap, ← h]
  apply ext_getElem (by simp)
  intro i h₁ h₂
  rw [getElem_map, getElem_range, getD_eq_getElem _ _ h₂]

end CsrArrays

lemma length_sortRow (row : List OutEntry) : (sortRow row).length = row.length := by
  unfold sortRow
  split
  · rfl
  · exact length_mergeSort _

lemma sortRow_perm (row : List OutEntry) : (sortRow row).Perm row := by
  unfold sortRow
  split
  · rfl
  · exact mergeSort_perm _ _

lemma sortRow_pairwise (row : List OutEntry) :
    (sortRow row).Pairwise fun a b => a.edgeId ≤ b.edgeId := by
  unfold sortRow
  split
  next h =>
    rcases h with hlen | hsorted
    · match row, hlen with
      | [], _ => exact List.Pairwise.nil
      | [a], _ => exact pairwise_singleton _ _
    · exact pairwise_map.mp hsorted
  next =>
    have h : (row.mergeSort fun a b : OutEntry => decide (a.edgeId ≤ b.edgeId)).Pairwise
        fun a b => decide (a.edgeId ≤ b.edgeId) :=
      pairwise_mergeSort (by simpa using fun a b c : OutEntry => Nat.le_trans)
        (by simpa using fun a b : OutEntry => Nat.le_total a.edgeId b.edgeId) row
    simpa using h

/-- The outgoing entries stored under a node, in table order. -/
def storedRow (s : Storage) (index : DenseIndex) (id : NodeId) : List OutEntry :=
  (s.adj.entries id true).filterMap fun e =>
    (index.get e.other).map fun dstD => ⟨dstD, e.edgeType, e.edgeId⟩

/-- The outgoing rows of a database, each in ascending order of the edge ids. -/
def Storage.outRows (s : Storage) : List (List OutEntry) :=
  s.nodeIds.map fun id => sortRow (storedRow s (.fromIds s.nodeIds) id)

@[simp]
lemma Storage.length_outRows (s : Storage) : s.outRows.length = s.nodeIds.length := by
  simp [Storage.outRows]

variable {s : Storage}

lemma Storage.mem_nodeIds {id : NodeId} :
    id ∈ s.nodeIds ↔ (s.tables.nodes.get id).isSome := by
  simp [Storage.nodeIds]

lemma Storage.nodeIds_nodup (s : Storage) : s.nodeIds.Nodup := Finset.ascending_nodup _

private lemma flatMap_filter {α β : Type*} {l : List α} {p : α → Bool} {g : α → List β}
    (h : ∀ a ∈ l, p a = false → g a = []) : (l.filter p).flatMap g = l.flatMap g := by
  induction l with
  | nil => rfl
  | cons a l ih =>
    have hrest := ih fun b hb => h b (mem_cons_of_mem _ hb)
    cases hp : p a with
    | true => rw [filter_cons_of_pos hp, flatMap_cons, flatMap_cons, hrest]
    | false =>
      rw [filter_cons_of_neg (by simp [hp]), flatMap_cons, h a mem_cons_self hp,
        hrest, nil_append]

/-- The pass over the adjacency table pushes the stored rows in the order of the nodes. -/
theorem outPushes_eq (h : s.AdjacencyAgrees) :
    outPushes s (.fromIds s.nodeIds) =
      pushRows (s.nodeIds.map (storedRow s (.fromIds s.nodeIds))) := by
  generalize hindex : DenseIndex.fromIds s.nodeIds = index
  let pushes (src : NodeId) : List (ℕ × OutEntry) :=
    match index.get src with
    | none => []
    | some srcD => (storedRow s index src).map fun e => (srcD, e)
  have hsources : ∀ src, src ∈ s.adj.sources ↔ s.adj.entries src true ≠ [] := by
    intro src
    rw [Adjacency.sources, Finset.mem_ascending, Finset.mem_image]
    constructor
    · rintro ⟨⟨src', e⟩, hmem, rfl⟩
      exact ne_nil_of_mem (Txn.mem_entries.mpr hmem)
    · intro hne
      obtain ⟨e, he⟩ := exists_mem_of_ne_nil _ hne
      exact ⟨(src, e), Txn.mem_entries.mp he, rfl⟩
  -- Every source has a record, so the sources are the nodes with entries.
  have hfilter : s.nodeIds.filter (· ∈ s.adj.sources) = s.adj.sources := by
    have hsorted := (Finset.ascending_pairwise_lt s.tables.nodes.keys).filter
      (· ∈ s.adj.sources)
    refine List.Pairwise.eq_of_mem_iff hsorted (Finset.ascending_pairwise_lt _) fun src => ?_
    change src ∈ s.nodeIds.filter (· ∈ s.adj.sources) ↔ src ∈ s.adj.sources
    rw [mem_filter, decide_eq_true_eq, and_iff_right_iff_imp]
    intro hsrc
    obtain ⟨e, he⟩ := exists_mem_of_ne_nil _ ((hsources src).mp hsrc)
    obtain ⟨r, hget, hentry⟩ := h.only true src e he
    have hr : r.src = src := congrArg Prod.fst hentry
    rw [Storage.mem_nodeIds, ← hr]
    exact (h.ends _ r hget).1
  have hpushes : outPushes s index = s.adj.sources.flatMap pushes := by
    apply flatMap_congr
    intro src _
    show _ = (match index.get src with
      | none => []
      | some srcD => (storedRow s index src).map fun e => (srcD, e))
    cases index.get src with
    | none => rfl
    | some srcD =>
      dsimp only
      rw [storedRow, map_filterMap]
      congr 1
      funext e
      rw [Option.map_map]
      rfl
  have hnodes : s.nodeIds.flatMap pushes = s.adj.sources.flatMap pushes := by
    rw [← hfilter]
    refine (flatMap_filter fun src _ hsrc => ?_).symm
    have hnil : s.adj.entries src true = [] := by
      by_contra hne
      simp [(hsources src).mpr hne] at hsrc
    show (match index.get src with
      | none => []
      | some srcD => (storedRow s index src).map fun e => (srcD, e)) = []
    rw [storedRow, hnil]
    cases index.get src <;> rfl
  rw [hpushes, ← hnodes, pushRows, zipIdx_map, flatMap_map]
  conv_lhs => rw [← zipIdx_map_fst 0 s.nodeIds, flatMap_map]
  apply flatMap_congr
  rintro ⟨id, d⟩ hmem
  have hget : index.get id = some d := by
    rw [← hindex, DenseIndex.get_fromIds s.nodeIds_nodup]
    exact mk_mem_zipIdx_iff_getElem?.mp hmem
  show (match index.get id with
    | none => []
    | some srcD => (storedRow s index id).map fun e => (srcD, e)) = _
  rw [hget]
  rfl

/-- An entry of a node's row is an edge out of the node. -/
theorem Storage.mem_storedRow (h : s.AdjacencyAgrees) {index : DenseIndex} {id : NodeId}
    {e : OutEntry} :
    e ∈ storedRow s index id ↔ ∃ r, s.tables.edges.get e.edgeId = some r ∧ r.src = id ∧
      r.edgeType = e.edgeType ∧ index.get r.dst = some e.col := by
  rw [storedRow, mem_filterMap]
  constructor
  · rintro ⟨entry, hentry, hmap⟩
    obtain ⟨d, hd, rfl⟩ := Option.map_eq_some_iff.mp hmap
    obtain ⟨r, hget, hr⟩ := h.only true id entry hentry
    have hsrc : r.src = id := congrArg Prod.fst hr
    have hother : r.dst = entry.other := congrArg (·.2.other) hr
    have htype : r.edgeType = entry.edgeType := congrArg (·.2.edgeType) hr
    exact ⟨r, hget, hsrc, htype, hother ▸ hd⟩
  · rintro ⟨⟨src, dst, ty, props⟩, hget, rfl, rfl, hd⟩
    have hcount := ((h.edge_iff _ _ _ _).mp ⟨props, hget⟩).1
    refine ⟨⟨e.edgeType, dst, e.edgeId⟩, count_pos_iff.mp ?_, ?_⟩
    · rw [hcount]
      exact Nat.one_pos
    rw [hd]
    rfl

lemma Storage.storedRow_nodup (h : s.AdjacencyAgrees) (index : DenseIndex) (id : NodeId) :
    ((storedRow s index id).map (·.edgeId)).Nodup := by
  have hentries : ((s.adj.entries id true).map (·.edgeId)).Nodup := by
    apply List.Nodup.map_on _ (Finset.ascending_nodup _)
    intro a ha b hb hab
    obtain ⟨r, hget, hr⟩ := h.only true id a ha
    obtain ⟨r', hget', hr'⟩ := h.only true id b hb
    rw [← hab, hget] at hget'
    obtain rfl := Option.some.inj hget'
    rw [← hab, hr] at hr'
    exact (Prod.mk.inj hr').2
  refine List.Nodup.sublist ?_ hentries
  rw [storedRow, map_filterMap]
  have hsub : ∀ l : List AdjEntry, (l.filterMap fun e => ((index.get e.other).map fun dstD =>
      (⟨dstD, e.edgeType, e.edgeId⟩ : OutEntry)).map (·.edgeId)).Sublist (l.map (·.edgeId)) := by
    intro l
    induction l with
    | nil => exact List.Sublist.refl _
    | cons e l ih =>
      cases hget : index.get e.other with
      | none =>
        rw [filterMap_cons_none (by simp [hget])]
        exact ih.cons _
      | some d =>
        rw [filterMap_cons_some (b := e.edgeId) (by simp [hget])]
        exact ih.cons_cons _
  exact hsub _

namespace Storage

variable {s : Storage} {row : List OutEntry}

/-- The row of the node with dense index `i`. -/
theorem getElem?_outRows {i : ℕ} (h : s.outRows[i]? = some row) : ∃ id, s.nodeIds[i]? = some id ∧
      row = sortRow (storedRow s (.fromIds s.nodeIds) id) := by
  rw [outRows, getElem?_map] at h
  obtain ⟨id, hid, rfl⟩ := Option.map_eq_some_iff.mp h
  exact ⟨id, hid, rfl⟩

/-- An entry of row `i` is an edge out of the node with that dense index. -/
theorem mem_outRows (h : s.AdjacencyAgrees) {i : ℕ} (hrow : s.outRows[i]? = some row)
    {e : OutEntry} :
    e ∈ row ↔ ∃ r, s.tables.edges.get e.edgeId = some r ∧ s.nodeIds[i]? = some r.src ∧
      r.edgeType = e.edgeType ∧ s.nodeIds[e.col]? = some r.dst := by
  obtain ⟨id, hid, rfl⟩ := getElem?_outRows hrow
  rw [(sortRow_perm _).mem_iff, mem_storedRow h]
  simp only [DenseIndex.get_fromIds s.nodeIds_nodup, hid, Option.some.injEq, eq_comm]

lemma outRows_ascending (h : s.AdjacencyAgrees) (hrow : row ∈ s.outRows) :
    row.Pairwise fun a b => a.edgeId < b.edgeId := by
  obtain ⟨id, -, rfl⟩ := mem_map.mp hrow
  have hnodup : ((sortRow (storedRow s (.fromIds s.nodeIds) id)).map (·.edgeId)).Nodup :=
    ((sortRow_perm _).map _).nodup_iff.mpr (storedRow_nodup h _ _)
  rw [List.Nodup, pairwise_map] at hnodup
  exact (sortRow_pairwise _).imp₂ (fun _ _ hle hne => lt_of_le_of_ne hle hne) hnodup

lemma outRows_disjoint (h : s.AdjacencyAgrees) {i j : ℕ} {row row' : List OutEntry}
    (hi : s.outRows[i]? = some row) (hj : s.outRows[j]? = some row') {a b : OutEntry} (ha : a ∈ row)
    (hb : b ∈ row') (hab : a.edgeId = b.edgeId) : i = j := by
  obtain ⟨r, hget, hsrc, -⟩ := (mem_outRows h hi).mp ha
  obtain ⟨r', hget', hsrc', -⟩ := (mem_outRows h hj).mp hb
  rw [← hab, hget] at hget'
  obtain rfl := Option.some.inj hget'
  exact (getElem?_inj (List.getElem?_eq_some_iff.mp hsrc).1 s.nodeIds_nodup).mp
    (hsrc.trans hsrc'.symm)

lemma outRows_nodup (h : s.AdjacencyAgrees) :
    (s.outRows.flatten.map (·.edgeId)).Nodup := by
  rw [map_flatten, nodup_flatten]
  constructor
  · intro ids hids
    obtain ⟨row, hrow, rfl⟩ := mem_map.mp hids
    rw [List.Nodup, pairwise_map]
    exact (outRows_ascending h hrow).imp fun hlt => hlt.ne
  · rw [pairwise_map, pairwise_iff_getElem]
    intro i j hi hj hij id hmem hmem'
    obtain ⟨a, ha, rfl⟩ := mem_map.mp hmem
    obtain ⟨b, hb, hab⟩ := mem_map.mp hmem'
    have := outRows_disjoint h (getElem?_eq_getElem hi) (getElem?_eq_getElem hj) ha hb
      hab.symm
    omega

end Storage

lemma exists_weightSlot (h : s.AdjacencyAgrees) {id : EdgeId}
    (hid : (s.tables.edges.get id).isSome) : ∃ slot e,
      weightSlot s (rowOffsets s.outRows) s.outRows.flatten (.fromIds s.nodeIds) id =
        some (slot, weightOfEdge s id) ∧
      s.outRows.flatten[slot]? = some e ∧ e.edgeId = id := by
  obtain ⟨r, hr⟩ := Option.isSome_iff_exists.mp hid
  obtain ⟨d, hd⟩ := mem_iff_getElem?.mp (Storage.mem_nodeIds.mpr (h.ends id r hr).1)
  obtain ⟨c, hc⟩ := mem_iff_getElem?.mp (Storage.mem_nodeIds.mpr (h.ends id r hr).2)
  have hlt : d < s.outRows.length := by
    rw [Storage.length_outRows]
    exact (List.getElem?_eq_some_iff.mp hd).1
  have hrow := getElem?_eq_getElem hlt
  have hmem : (⟨c, r.edgeType, id⟩ : OutEntry) ∈ s.outRows[d] :=
    (Storage.mem_outRows h hrow).mpr ⟨r, hr, hd, rfl, hc⟩
  obtain ⟨o, ho⟩ : ∃ o, s.outRows[d].findIdx? (·.edgeId = id) = some o := by
    rw [← Option.isSome_iff_exists, findIdx?_isSome, any_eq_true]
    exact ⟨_, hmem, decide_eq_true rfl⟩
  obtain ⟨holt, hoid, -⟩ := findIdx?_eq_some_iff_getElem.mp ho
  have hget : (DenseIndex.fromIds s.nodeIds).get r.src = some d :=
    (DenseIndex.get_fromIds s.nodeIds_nodup _ _).mpr hd
  have hat : rowAt (rowOffsets s.outRows) s.outRows.flatten d = s.outRows[d] := by
    rw [rowAt_offsets, getD_eq_getElem _ _ hlt]
  refine ⟨(rowOffsets s.outRows).getD d 0 + o, s.outRows[d][o], ?_, ?_, of_decide_eq_true hoid⟩
  · rw [weightSlot, hr, Option.bind_eq_bind, Option.bind_some, hget, Option.bind_eq_bind,
      Option.bind_some, hat, ho, weightOfEdge, hr]
    rfl
  · rw [getElem?_flatten_rowOffsets hrow holt, getElem?_eq_getElem holt]

/-- The rows of a database hold every stored edge once. -/
theorem Storage.length_flatten_outRows (h : s.AdjacencyAgrees) :
    s.outRows.flatten.length = s.tables.edges.keys.card := by
  rw [← length_map (fun e : OutEntry => e.edgeId),
    ← toFinset_card_of_nodup (Storage.outRows_nodup h)]
  congr 1
  ext id
  rw [mem_toFinset, mem_map, Table.mem_keys]
  constructor
  · rintro ⟨e, he, rfl⟩
    obtain ⟨row, hrow, he⟩ := mem_flatten.mp he
    obtain ⟨i, hi⟩ := mem_iff_getElem?.mp hrow
    obtain ⟨r, hget, -⟩ := (Storage.mem_outRows h hi).mp he
    rw [hget]
    rfl
  · intro hid
    obtain ⟨slot, e, -, hget, rfl⟩ := exists_weightSlot h hid
    exact ⟨e, mem_of_getElem? hget, rfl⟩

lemma loadWeights_eq (h : s.AdjacencyAgrees) :
    loadWeights s (rowOffsets s.outRows) s.outRows.flatten (.fromIds s.nodeIds) =
      s.outRows.flatten.map fun e => weightOfEdge s e.edgeId := by
  apply foldl_fillSlot (Storage.outRows_nodup h)
  · intro id hid
    exact exists_weightSlot h (by simpa using hid)
  · intro e he
    obtain ⟨row, hrow, he⟩ := mem_flatten.mp he
    obtain ⟨i, hi⟩ := mem_iff_getElem?.mp hrow
    obtain ⟨r, hr, -⟩ := (Storage.mem_outRows h hi).mp he
    simp [hr]

/-- The weights of the rows of a database, when they are asked for. -/
def Storage.outWeights (s : Storage) (weighted : Bool) : Option (List F64) :=
  if weighted then some (s.outRows.flatten.map fun e => weightOfEdge s e.edgeId) else none

/-- A build lays out the rows of the database, unless they are too many. -/
theorem CsrArrays.build_eq (h : s.AdjacencyAgrees) (weighted : Bool) :
    build s weighted =
      if maxSnapshotEdges < s.outRows.flatten.length then
        .error (tooManyEdges s.outRows.flatten.length)
      else .ok (layout s.nodeIds s.outRows (s.outWeights weighted)) := by
  let stored := s.nodeIds.map (storedRow s (.fromIds s.nodeIds))
  have hlen : stored.length = s.nodeIds.length := by simp [stored]
  have hsorted : stored.map sortRow = s.outRows := by
    rw [Storage.outRows, map_map]
    rfl
  have hoffsets : rowOffsets stored = rowOffsets s.outRows := by
    have hmap : (stored.map sortRow).map List.length = stored.map List.length := by
      rw [map_map]
      exact map_congr_left fun row _ => length_sortRow row
    rw [rowOffsets, rowOffsets, ← hsorted, hmap]
  have hptr : offsets (tally s.nodeIds.length
      ((outPushes s (.fromIds s.nodeIds)).map Prod.fst)) = rowOffsets s.outRows := by
    rw [outPushes_eq h, ← hlen, offsets_tally_pushRows, hoffsets]
  have hout : rewriteRows sortRow (rowOffsets s.outRows) s.nodeIds.length
      ((outPushes s (.fromIds s.nodeIds)).map Prod.snd) = s.outRows.flatten := by
    rw [outPushes_eq h, map_snd_pushRows, ← hoffsets, ← hlen, rewriteRows_flatten length_sortRow,
      hsorted]
  have htotal : (rowOffsets s.outRows).getD s.nodeIds.length 0 = s.outRows.flatten.length := by
    rw [← s.length_outRows, getD_rowOffsets le_rfl, take_length]
  show (if maxSnapshotEdges < (offsets (tally s.nodeIds.length
      ((outPushes s (.fromIds s.nodeIds)).map Prod.fst))).getD s.nodeIds.length 0 then
        Except.error (tooManyEdges ((offsets (tally s.nodeIds.length
          ((outPushes s (.fromIds s.nodeIds)).map Prod.fst))).getD s.nodeIds.length 0)) else _) = _
  rw [hptr, htotal]
  split
  · rfl
  · simp only [hout, loadWeights_eq h]
    rfl

/-! ## The incoming side -/

/-- The incoming rows: the pushes of a destination, each with its place. -/
def incomingRows (n : ℕ) (rows : List (List OutEntry)) : List (List InEntry) :=
  (List.range n).map fun j => ((pushRows rows).zipIdx.filter (·.1.2.col = j)).map fun p =>
    ⟨p.1.1, p.1.2.edgeType, p.2⟩

lemma getD_incomingRows {n j : ℕ} (h : j < n) (rows : List (List OutEntry)) :
    (incomingRows n rows).getD j [] = ((pushRows rows).zipIdx.filter (·.1.2.col = j)).map fun p =>
      ⟨p.1.1, p.1.2.edgeType, p.2⟩ := by
  rw [getD_eq_getElem?_getD, incomingRows, getElem?_map, getElem?_range h]
  rfl

/-- The counting sort lays out the incoming rows. -/
theorem transpose_eq (rows : List (List OutEntry))
    (hcols : ∀ e ∈ rows.flatten, e.col < rows.length) :
    transpose rows.length (rowOffsets rows) rows.flatten =
      (rowOffsets (incomingRows rows.length rows), (incomingRows rows.length rows).flatten) := by
  let items : List (ℕ × InEntry) :=
    (pushRows rows).zipIdx.map fun p => (p.1.2.col, ⟨p.1.1, p.1.2.edgeType, p.2⟩)
  have hitems := flatMap_rows_zipIdx rows fun srcD k (e : OutEntry) =>
    (e.col, (⟨srcD, e.edgeType, k⟩ : InEntry))
  have hlen : items.length = rows.flatten.length := by
    simp [items, length_pushRows]
  have hkeys : items.map Prod.fst = rows.flatten.map (·.col) := by
    rw [← map_snd_pushRows, map_map, map_map,
      ← zipIdx_map_fst 0 (pushRows rows), map_map]
    simp [Function.comp_def]
  have hlt : ∀ p ∈ items, p.1 < rows.length := by
    intro p hp
    have hmem : p.1 ∈ rows.flatten.map (·.col) := hkeys ▸ mem_map_of_mem hp
    obtain ⟨e, he, heq⟩ := mem_map.mp hmem
    exact heq ▸ hcols e he
  have hrows : incomingRows rows.length rows = keyedRows rows.length items := by
    apply map_congr_left
    intro j _
    rw [filter_map, map_map]
    rfl
  rw [transpose, hitems, hrows, ← offsets_tally, ← scatter_keyedRows hlt ⟨0, 0, 0⟩, hkeys, hlen,
    ← offsets_tally, hkeys]

/-! ## Well-formed snapshots -/

/-- An edge between dense indices. -/
structure DenseEdge where
  src : ℕ
  dst : ℕ
  edgeType : TypeId
  edgeId : EdgeId
  deriving DecidableEq

/-- The edges with both dense endpoints, in the order of their places. -/
def CsrArrays.edges (S : CsrArrays) : List DenseEdge :=
  (pushRows S.rows).map fun p => ⟨p.1, p.2.col, p.2.edgeType, p.2.edgeId⟩

/-- The arrays are the packed rows of a graph: they lay out the outgoing rows, every destination
is a node, and rows ascend by edge ids, which are distinct. -/
structure CsrArrays.WellFormed (S : CsrArrays) : Prop where
  ids_ascending : S.denseToId.Pairwise (· < ·)
  eq_layout : S = layout S.denseToId S.rows S.edgeWeight
  col_lt : ∀ e ∈ S.rows.flatten, e.col < S.denseToId.length
  row_ascending : ∀ row ∈ S.rows, row.Pairwise fun a b => a.edgeId < b.edgeId
  edgeId_nodup : (S.rows.flatten.map (·.edgeId)).Nodup
  size_le : S.rows.flatten.length ≤ maxSnapshotEdges

lemma CsrArrays.build_wellFormed (h : s.AdjacencyAgrees) {weighted : Bool} {S : CsrArrays}
    (hS : build s weighted = .ok S) : S.WellFormed := by
  rw [build_eq h] at hS
  split at hS
  · cases hS
  next hsize =>
    obtain rfl := Except.ok.inj hS
    have hrows := rows_layout s.length_outRows (s.outWeights weighted)
    have hids : (layout s.nodeIds s.outRows (s.outWeights weighted)).denseToId = s.nodeIds := rfl
    constructor
    · exact Finset.ascending_pairwise_lt _
    · rw [hrows]
      rfl
    · rw [hrows, hids]
      intro e he
      obtain ⟨row, hrow, he⟩ := mem_flatten.mp he
      obtain ⟨i, hi⟩ := mem_iff_getElem?.mp hrow
      obtain ⟨r, -, -, -, hcol⟩ := (Storage.mem_outRows h hi).mp he
      exact (List.getElem?_eq_some_iff.mp hcol).1
    · rw [hrows]
      exact fun row hrow => Storage.outRows_ascending h hrow
    · rw [hrows]
      exact Storage.outRows_nodup h
    · rw [hrows]
      exact not_lt.mp hsize

/-- A well-formed snapshot. -/
structure Snapshot extends CsrArrays where
  wellFormed : toCsrArrays.WellFormed

namespace Snapshot

variable (S : Snapshot)

/-- The number of nodes. -/
def n : ℕ := S.denseToId.length

lemma length_rows : S.rows.length = S.n := by
  simp [CsrArrays.rows, n]

lemma out_eq : S.out = S.rows.flatten := congrArg CsrArrays.out S.wellFormed.eq_layout

lemma idToDense_eq : S.idToDense = .fromIds S.denseToId :=
  congrArg CsrArrays.idToDense S.wellFormed.eq_layout

lemma denseToId_nodup : S.denseToId.Nodup := S.wellFormed.ids_ascending.imp fun h => h.ne

/-- The dense index inverts the node ids. -/
theorem get_idToDense {id d : ℕ} : S.idToDense.get id = some d ↔ S.denseToId[d]? = some id := by
  rw [idToDense_eq, DenseIndex.get_fromIds S.denseToId_nodup]

/-! ### Node ids -/

/-- The node at a dense index. -/
def idOf (d : ℕ) : NodeId := S.denseToId.getD d 0

variable {d : ℕ} {e : DenseEdge}

lemma getElem?_denseToId (h : d < S.n) : S.denseToId[d]? = some (S.idOf d) := by
  rw [idOf, getD_eq_getElem _ _ h]
  exact getElem?_eq_getElem h

lemma get_idToDense_idOf (h : d < S.n) : S.idToDense.get (S.idOf d) = some d :=
  S.get_idToDense.mpr (S.getElem?_denseToId h)

lemma idOf_eq_iff (hd : d < S.n) {id : NodeId} :
    S.idOf d = id ↔ S.idToDense.get id = some d := by
  rw [S.get_idToDense, S.getElem?_denseToId hd, Option.some.injEq]

lemma idOf_mem (hd : d < S.n) : S.idOf d ∈ S.denseToId :=
  mem_of_getElem? (S.getElem?_denseToId hd)

lemma exists_idOf {id : NodeId} (h : id ∈ S.denseToId) : ∃ d < S.n, S.idOf d = id := by
  obtain ⟨d, hd⟩ := mem_iff_getElem?.mp h
  have hlt : d < S.n := (List.getElem?_eq_some_iff.mp hd).1
  exact ⟨d, hlt, Option.some.inj ((S.getElem?_denseToId hlt).symm.trans hd)⟩

lemma idOf_lt_idOf {d d' : ℕ} (hd' : d' < S.n) (h : d < d') : S.idOf d < S.idOf d' := by
  rw [idOf, idOf, getD_eq_getElem _ _ (h.trans hd'), getD_eq_getElem _ _ hd']
  exact pairwise_iff_getElem.mp S.wellFormed.ids_ascending d d' (h.trans hd') hd' h

lemma idOf_le_idOf {d d' : ℕ} (hd' : d' < S.n) (h : d ≤ d') : S.idOf d ≤ S.idOf d' := by
  rcases h.lt_or_eq with hlt | rfl
  · exact (S.idOf_lt_idOf hd' hlt).le
  · exact le_rfl

lemma idOf_inj {d d' : ℕ} (hd : d < S.n) (hd' : d' < S.n) : S.idOf d = S.idOf d' ↔ d = d' := by
  refine ⟨fun h => ?_, congrArg _⟩
  apply (getElem?_inj hd S.denseToId_nodup).mp
  rw [S.getElem?_denseToId hd, S.getElem?_denseToId hd', h]

lemma map_idOf_range : (List.range S.n).map S.idOf = S.denseToId := by
  apply ext_getElem (by simp [n])
  intro d h₁ h₂
  rw [getElem_map, getElem_range, idOf, getD_eq_getElem _ _ h₂]

/-! ### Rows -/

lemma outRow_eq_getD (i : ℕ) : S.outRow i = S.rows.getD i [] := by
  have h := congrArg (fun T : CsrArrays => T.outRow i) S.wellFormed.eq_layout
  exact h.trans (CsrArrays.outRow_layout _ _ _ i)

/-- The outgoing entries of a node are the edges out of it. -/
theorem outRow_eq (i : ℕ) :
    (S.outRow i).map (fun e => (⟨i, e.col, e.edgeType, e.edgeId⟩ : DenseEdge)) =
      S.edges.filter (·.src = i) := by
  have h := filter_pushRows S.rows i
  rw [CsrArrays.edges, filter_map, outRow_eq_getD]
  change _ = ((pushRows S.rows).filter (·.1 = i)).map _
  rw [h, map_map]
  rfl

lemma length_edges : S.edges.length = S.out.length := by
  rw [CsrArrays.edges, length_map, length_pushRows, out_eq]

lemma length_edges_le : S.edges.length ≤ maxSnapshotEdges := by
  rw [length_edges, out_eq]
  exact S.wellFormed.size_le

/-- The outgoing entry at the position of an edge. -/
theorem out_eq_map : S.out = S.edges.map fun e => ⟨e.dst, e.edgeType, e.edgeId⟩ := by
  rw [CsrArrays.edges, map_map, out_eq, ← map_snd_pushRows]
  rfl

lemma edgeId_nodup : (S.edges.map (·.edgeId)).Nodup := by
  have h := S.wellFormed.edgeId_nodup
  rw [← map_snd_pushRows, map_map] at h
  rw [CsrArrays.edges, map_map]
  exact h

lemma edges_nodup : S.edges.Nodup := S.edgeId_nodup.of_map _

lemma src_lt (h : e ∈ S.edges) : e.src < S.n := by
  obtain ⟨p, hp, rfl⟩ := mem_map.mp h
  rw [← length_rows]
  exact fst_lt_of_mem_pushRows hp

lemma dst_lt (h : e ∈ S.edges) : e.dst < S.n := by
  obtain ⟨p, hp, rfl⟩ := mem_map.mp h
  apply S.wellFormed.col_lt
  rw [← map_snd_pushRows]
  exact mem_map_of_mem hp

/-- The incoming entries of a node are the edges into it, with their positions. -/
theorem inRow_eq (j : ℕ) :
    S.inRow j = (S.edges.zipIdx.filter (·.1.dst = j)).map fun p =>
      ⟨p.1.src, p.1.edgeType, p.2⟩ := by
  have htranspose := transpose_eq S.rows (by
    rw [length_rows]
    exact S.wellFormed.col_lt)
  rw [S.length_rows] at htranspose
  have hptr : S.inRowPtr = (transpose S.n (rowOffsets S.rows) S.rows.flatten).1 :=
    congrArg CsrArrays.inRowPtr S.wellFormed.eq_layout
  have hinc : S.inc = (transpose S.n (rowOffsets S.rows) S.rows.flatten).2 :=
    congrArg CsrArrays.inc S.wellFormed.eq_layout
  rw [CsrArrays.inRow, hptr, hinc, htranspose, rowAt_offsets]
  rcases lt_or_ge j S.n with hj | hj
  · rw [getD_incomingRows hj, CsrArrays.edges, zipIdx_map, filter_map, map_map]
    rfl
  · have hnone : S.edges.zipIdx.filter (·.1.dst = j) = [] := by
      rw [filter_eq_nil_iff]
      intro p hp
      have hlt := S.dst_lt (fst_mem_of_mem_zipIdx hp)
      simp only [decide_eq_true_eq]
      omega
    rw [hnone, getD_eq_default _ _ (by simpa [incomingRows] using hj)]
    rfl

/-! ### The edges as a set -/

def edgeSet : Finset DenseEdge := S.edges.toFinset

@[simp]
lemma mem_edgeSet : e ∈ S.edgeSet ↔ e ∈ S.edges := mem_toFinset

lemma card_edgeSet_le : S.edgeSet.card ≤ maxSnapshotEdges :=
  (toFinset_card_le _).trans S.length_edges_le

lemma countP_edges (p : DenseEdge → Bool) :
    S.edges.countP p = (S.edgeSet.filter fun e => p e).card := by
  rw [countP_eq_length_filter, ← toFinset_card_of_nodup (S.edges_nodup.filter _),
    toFinset_filter]
  rfl

lemma edges_eq_flatMap : S.edges = (List.range S.n).flatMap fun i =>
    (S.outRow i).map fun e => ⟨i, e.col, e.edgeType, e.edgeId⟩ := by
  rw [CsrArrays.edges, CsrArrays.rows, pushRows_map_range, map_flatMap]
  simp only [map_map]
  rfl

lemma countP_outRow (i : ℕ) (p : TypeId → ℕ → Bool) :
    ((S.outRow i).countP fun e => p e.edgeType e.col) =
      (S.edgeSet.filter fun e => e.src = i ∧ p e.edgeType e.dst).card := by
  have hrow : ((S.outRow i).countP fun e => p e.edgeType e.col) =
      ((S.outRow i).map (fun e => (⟨i, e.col, e.edgeType, e.edgeId⟩ : DenseEdge))).countP
        fun e => p e.edgeType e.dst := by
    rw [countP_map]
    rfl
  rw [hrow, outRow_eq, countP_filter, countP_edges]
  congr 1
  apply Finset.filter_congr
  intro e _
  simp [and_comm]

lemma countP_inRow (j : ℕ) (p : TypeId → ℕ → Bool) :
    ((S.inRow j).countP fun e => p e.edgeType e.col) =
      (S.edgeSet.filter fun e => e.dst = j ∧ p e.edgeType e.src).card := by
  have hzip : S.edges = S.edges.zipIdx.map Prod.fst := by simp
  have hrow : ((S.inRow j).countP fun e => p e.edgeType e.col) =
      S.edges.countP fun e => p e.edgeType e.src && e.dst = j := by
    rw [inRow_eq, countP_map, countP_filter, hzip, countP_map, ← hzip]
    rfl
  rw [hrow, countP_edges]
  congr 1
  apply Finset.filter_congr
  intro e _
  simp [and_comm]

/-! ### From rows -/

/-- The rows are those of a graph on the given nodes. -/
def RowsFit (ids : List NodeId) (rows : List (List OutEntry)) : Prop :=
  ids.Pairwise (· < ·) ∧ rows.length = ids.length ∧ (∀ e ∈ rows.flatten, e.col < ids.length) ∧
    (∀ row ∈ rows, row.Pairwise fun a b => a.edgeId < b.edgeId) ∧
    (rows.flatten.map (·.edgeId)).Nodup ∧ rows.flatten.length ≤ maxSnapshotEdges

instance (ids : List NodeId) (rows : List (List OutEntry)) : Decidable (RowsFit ids rows) :=
  inferInstanceAs (Decidable (_ ∧ _))

def ofRows (ids : List NodeId) (rows : List (List OutEntry)) (weights : Option (List F64))
    (h : RowsFit ids rows) : Snapshot where
  toCsrArrays := CsrArrays.layout ids rows weights
  wellFormed := by
    obtain ⟨hids, hlen, hcol, hrow, hedge, hsize⟩ := h
    have hrows : (CsrArrays.layout ids rows weights).rows = rows :=
      CsrArrays.rows_layout hlen weights
    constructor
    · exact hids
    · rw [hrows]
      rfl
    · rwa [hrows]
    · rwa [hrows]
    · rwa [hrows]
    · rwa [hrows]

lemma outRow_ofRows {ids : List NodeId} {rows : List (List OutEntry)} {weights : Option (List F64)}
    (h : RowsFit ids rows) (i : ℕ) : (ofRows ids rows weights h).outRow i = rows.getD i [] :=
  CsrArrays.outRow_layout ids rows weights i

end Snapshot

end IssunDB
