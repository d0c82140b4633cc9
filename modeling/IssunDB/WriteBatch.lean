import IssunDB.Storage

/-!
# The state of a write transaction

A transaction works on its own copy of the tables. Inside `Graph::update` it also has a batch
cache: `BatchMemo` holds the memoized lookups, the next ids and the count changes that are
written back at commit, and `AdjBuffer` the adjacency entries a bulk load has not written yet.
An auto-committing operation has no memo and an empty buffer, and goes to the tables directly.

`Working` is the part that the node and index code sees; `Txn` adds the adjacency tables and the
buffer, which only the edge operations and node deletion touch.
-/

namespace IssunDB

/-- The batch cache of one transaction, without its adjacency buffer. -/
structure BatchMemo where
  /-- Edge types looked up or created by this transaction. -/
  types : Table String TypeId
  /-- The next node id, once read from `meta`. -/
  nextNode : Option NodeId
  /-- The next edge id, once read from `meta`. -/
  nextEdge : Option EdgeId
  /-- Changes to the node counts. -/
  labelDeltas : Table LabelId ℤ
  /-- Changes to the edge counts. -/
  typeDeltas : Table TypeId ℤ
  /-- Declared edge indexes per type. -/
  edgeIndexes : Table TypeId (List (PropKeyId × IndexRole))
  /-- Nodes this transaction has proved to exist. -/
  knownNodes : Finset NodeId
  deriving DecidableEq

/-- The cache of a new transaction. -/
def BatchMemo.empty : BatchMemo where
  types := .empty
  nextNode := none
  nextEdge := none
  labelDeltas := .empty
  typeDeltas := .empty
  edgeIndexes := .empty
  knownNodes := ∅

/-- The adjacency buffer of a bulk-load transaction. -/
structure AdjBuffer where
  bulk : Bool
  pendingOut : List (NodeId × AdjEntry)
  pendingIn : List (NodeId × AdjEntry)
  deriving DecidableEq

def AdjBuffer.empty : AdjBuffer := ⟨false, [], []⟩

/-- The tables with the batch memo, if there is one. -/
structure Working where
  tables : Tables
  memo : Option BatchMemo
  deriving DecidableEq

/-- A write transaction. -/
structure Txn where
  work : Working
  adj : Adjacency
  buffer : AdjBuffer
  deriving DecidableEq

/-- Run a step on the tables alone. -/
def onTables {α : Type} (m : Exec Error Tables α) : Exec Error Working α :=
  Exec.zoom Working.tables (fun w s => { w with tables := s }) m

/-- Run a step on the tables and the memo. -/
def onWork {α : Type} (m : Exec Error Working α) : Exec Error Txn α :=
  Exec.zoom Txn.work (fun t w => { t with work := w }) m

/-- Add a change to a batched count. -/
def bumpDelta (deltas : Table ℕ ℤ) (key : ℕ) (delta : ℤ) : Table ℕ ℤ :=
  deltas.put key ((deltas.get key).getD 0 + delta)

namespace Working

/-! ## Ids and counts -/

/-- The next node id, counted in the memo of a batch. -/
def allocNodeId (w : Working) : NodeId × Working :=
  match w.memo with
  | some c =>
    let next := c.nextNode.getD w.tables.metaDb.nextNode
    (next, { w with memo := some { c with nextNode := some (next + 1) } })
  | none =>
    let next := w.tables.metaDb.nextNode
    (next, { w with tables := { w.tables with metaDb := { w.tables.metaDb with
      nextNode := next + 1 } } })

/-- The next edge id, counted in the memo of a batch. -/
def allocEdgeId (w : Working) : EdgeId × Working :=
  match w.memo with
  | some c =>
    let next := c.nextEdge.getD w.tables.metaDb.nextEdge
    (next, { w with memo := some { c with nextEdge := some (next + 1) } })
  | none =>
    let next := w.tables.metaDb.nextEdge
    (next, { w with tables := { w.tables with metaDb := { w.tables.metaDb with
      nextEdge := next + 1 } } })

/-- Change the count of a label, in the memo of a batch until it is flushed. -/
def bumpLabelCount (l : LabelId) (delta : ℤ) (w : Working) : Working :=
  match w.memo with
  | some c => { w with memo := some { c with labelDeltas := bumpDelta c.labelDeltas l delta } }
  | none => { w with tables := w.tables.adjustLabelCount l delta }

/-- Change the count of an edge type, in the memo of a batch until it is flushed. -/
def bumpTypeCount (t : TypeId) (delta : ℤ) (w : Working) : Working :=
  match w.memo with
  | some c => { w with memo := some { c with typeDeltas := bumpDelta c.typeDeltas t delta } }
  | none => { w with tables := w.tables.adjustTypeCount t delta }

/-- The pending change to a node count. -/
def labelCountDelta (w : Working) (l : LabelId) : ℤ :=
  (w.memo.bind fun c => c.labelDeltas.get l).getD 0

/-- The pending change to an edge count. -/
def typeCountDelta (w : Working) (t : TypeId) : ℤ :=
  (w.memo.bind fun c => c.typeDeltas.get t).getD 0

/-- The count of a label with what the batch has still to write. -/
def nodeCountByLabel (w : Working) (label : String) : ℕ :=
  let delta :=
    match w.tables.getLabel label with
    | some l => w.labelCountDelta l
    | none => 0
  ((w.tables.nodeCountByLabel label : ℤ) + delta).toNat

/-- The count of an edge type with what the batch has still to write. -/
def edgeCountByType (w : Working) (etype : String) : ℕ :=
  let delta :=
    match w.tables.getType etype with
    | some t => w.typeCountDelta t
    | none => 0
  ((w.tables.edgeCountByType etype : ℤ) + delta).toNat

/-! ## Memoized lookups -/

/-- Check that an endpoint exists; a batch remembers the nodes it has seen. -/
def proveNode (id : NodeId) : Exec Error Working PUnit := fun w =>
  match w.memo with
  | some c =>
    if id ∈ c.knownNodes then (.ok ⟨⟩, w)
    else if (w.tables.nodes.get id).isSome then
      (.ok ⟨⟩, { w with memo := some { c with knownNodes := insert id c.knownNodes } })
    else (.error (.nodeNotFound id), w)
  | none => if (w.tables.nodes.get id).isSome then (.ok ⟨⟩, w) else (.error (.nodeNotFound id), w)

/-- The id of an edge type, from the memo or from the registry. -/
def resolveType (etype : String) (w : Working) : TypeId × Working :=
  match w.memo with
  | some c =>
    match c.types.get etype with
    | some t => (t, w)
    | none =>
      let r := w.tables.getOrCreateType etype
      (r.1, { tables := r.2, memo := some { c with types := c.types.put etype r.1 } })
  | none =>
    let r := w.tables.getOrCreateType etype
    (r.1, { w with tables := r.2 })

/-- The declared indexes of an edge type, from the memo or from `meta`. -/
def activeEdgeIndexes (t : TypeId) (w : Working) : List (PropKeyId × IndexRole) × Working :=
  match w.memo with
  | some c =>
    match c.edgeIndexes.get t with
    | some active => (active, w)
    | none =>
      let active := w.tables.getActiveEdgeIndexes t
      (active, { w with memo := some { c with edgeIndexes := c.edgeIndexes.put t active } })
  | none => (w.tables.getActiveEdgeIndexes t, w)

/-- Forget which nodes were seen, after one was deleted. -/
def invalidateNodes (w : Working) : Working :=
  { w with memo := w.memo.map fun c => { c with knownNodes := ∅ } }

/-- Write the batched changes of label counts. -/
def flushLabelDeltas (deltas : List (LabelId × ℤ)) (s : Tables) : Tables :=
  deltas.foldl (fun s d => if d.2 = 0 then s else s.adjustLabelCount d.1 d.2) s

/-- Write the batched changes of edge type counts. -/
def flushTypeDeltas (deltas : List (TypeId × ℤ)) (s : Tables) : Tables :=
  deltas.foldl (fun s d => if d.2 = 0 then s else s.adjustTypeCount d.1 d.2) s

/-- Write the batched ids and counts to `meta`, ahead of the commit. -/
def flushCounters (w : Working) : Working :=
  match w.memo with
  | none => w
  | some c =>
    let s := w.tables
    let s := { s with metaDb := { s.metaDb with
      nextNode := c.nextNode.getD s.metaDb.nextNode
      nextEdge := c.nextEdge.getD s.metaDb.nextEdge } }
    let s := flushLabelDeltas c.labelDeltas.toList s
    let s := flushTypeDeltas c.typeDeltas.toList s
    { tables := s
      memo := some { c with
        nextNode := none
        nextEdge := none
        labelDeltas := .empty
        typeDeltas := .empty } }

end Working

/-! ## Adjacency -/

/-- The entries of one direction. -/
def Adjacency.side (a : Adjacency) (outgoing : Bool) : Finset (NodeId × AdjEntry) :=
  if outgoing then a.outAdj else a.inAdj

/-- The stored entries of a node in one direction, in duplicate order. -/
def Adjacency.entries (a : Adjacency) (n : NodeId) (outgoing : Bool) : List AdjEntry :=
  ((a.side outgoing).under n).ascending

/-- Buffered entries per direction before a bulk load writes them. -/
def adjFlushThreshold : ℕ := 2 ^ 22

namespace Txn

/-- Begin a transaction, with a batch cache (`Graph::update`) or without (auto-commit). -/
def begin (s : Storage) (memo : Option BatchMemo) : Txn where
  work := ⟨s.tables, memo⟩
  adj := s.adj
  buffer := .empty

/-- The tables as they stand in the transaction, without what is still batched. -/
def storage (t : Txn) : Storage := ⟨t.work.tables, t.adj⟩

/-- Whether adjacency entries wait in the buffer. -/
def hasPendingAdjacency (t : Txn) : Bool := !t.buffer.pendingOut.isEmpty

/-- The buffered entries of one node in one direction. -/
def pendingAdjOf (t : Txn) (n : NodeId) (outgoing : Bool) : List AdjEntry :=
  ((if outgoing then t.buffer.pendingOut else t.buffer.pendingIn).filter (·.1 = n)).map Prod.snd

/-- Write the buffered adjacency entries. -/
def flushAdjacency (t : Txn) : Txn :=
  { t with
    adj :=
      { outAdj := t.adj.outAdj ∪ t.buffer.pendingOut.toFinset
        inAdj := t.adj.inAdj ∪ t.buffer.pendingIn.toFinset }
    buffer := { t.buffer with pendingOut := [], pendingIn := [] } }

/-- Buffer both entries of a new edge, writing the buffer once it is full. -/
def deferAdj (src dst : NodeId) (ty : TypeId) (id : EdgeId) (t : Txn) : Txn :=
  let t := { t with buffer := { t.buffer with
    pendingOut := t.buffer.pendingOut ++ [(src, ⟨ty, dst, id⟩)]
    pendingIn := t.buffer.pendingIn ++ [(dst, ⟨ty, src, id⟩)] } }
  if adjFlushThreshold ≤ t.buffer.pendingOut.length then t.flushAdjacency else t

/-- Write both adjacency entries of an edge. -/
def appendAdj (src dst : NodeId) (ty : TypeId) (id : EdgeId) (t : Txn) : Txn :=
  { t with adj :=
    { outAdj := insert (src, ⟨ty, dst, id⟩) t.adj.outAdj
      inAdj := insert (dst, ⟨ty, src, id⟩) t.adj.inAdj } }

/-- Buffer adjacency entries from here on. -/
def beginBulkLoad (t : Txn) : Txn := { t with buffer := { t.buffer with bulk := true } }

/-- Bring the transaction's tables to the state to be committed. -/
def flush (t : Txn) : Txn :=
  let t := t.flushAdjacency
  { t with work := t.work.flushCounters }

end Txn

end IssunDB
