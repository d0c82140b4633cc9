import IssunDB.EdgeIndex
import IssunDB.NodeIndex
import IssunDB.WriteBatch

/-!
# Node and edge operations

The operations of the write path on a transaction, shared by the auto-committing methods and the
methods of a write transaction. They differ only in whether the transaction has a batch cache.
-/

namespace IssunDB

/-- The labels of a new node: ids with their names, each id once, in order of appearance. -/
structure ResolvedLabels where
  list : List (LabelId × String)
  nodup : (list.map Prod.fst).Nodup

namespace ResolvedLabels

/-- No label. -/
def nil : ResolvedLabels := ⟨[], List.nodup_nil⟩

/-- Add a label at the end, unless its id is there. -/
def push (r : ResolvedLabels) (l : LabelId) (name : String) : ResolvedLabels :=
  if h : l ∈ r.list.map Prod.fst then r
  else ⟨r.list ++ [(l, name)], by
    rw [List.map_append]
    exact r.nodup.append (List.nodup_singleton _) (by simpa using h)⟩

end ResolvedLabels

/-- Resolve label names to ids, registering new ones and dropping duplicates. -/
def Tables.resolveLabels : List String → ResolvedLabels → Tables → ResolvedLabels × Tables
  | [], r, s => (r, s)
  | name :: names, r, s =>
    let created := s.getOrCreateLabel name
    resolveLabels names (r.push created.1 name) created.2

namespace Working

variable [TextLib]

/-- File a node under a label and count it. -/
def linkLabel (l : LabelId) (n : NodeId) (w : Working) : Working :=
  bumpLabelCount l 1
    { w with tables := { w.tables with labelIdx := insert (l, n) w.tables.labelIdx } }

/-- Remove a node from under a label and count it off. -/
def unlinkLabel (l : LabelId) (n : NodeId) (w : Working) : Working :=
  bumpLabelCount l (-1)
    { w with tables := { w.tables with labelIdx := w.tables.labelIdx.erase (l, n) } }

/-- Write the record of a node. -/
def putNode (n : NodeId) (record : NodeRecord) (w : Working) : Working :=
  { w with tables := { w.tables with nodes := w.tables.nodes.put n record } }

/-- Write the record of an edge. -/
def putEdge (id : EdgeId) (record : EdgeRecord) (w : Working) : Working :=
  { w with tables := { w.tables with edges := w.tables.edges.put id record } }

/-- Index a new label of a node: label index, count, property indexes and text indexes. -/
def enterLabel (n : NodeId) (props : Props) (label : LabelId × String) :
    Exec Error Working PUnit := do
  Exec.modify (linkLabel label.1 n)
  onTables (Tables.indexNodeForLabel label.1 label.2 n props)

/-- Add a node: resolve its labels, write its record, index it under each label. -/
def addNodeInner (labels : List String) (props : Props) : Exec Error Working NodeId := do
  let resolved ← onTables (Exec.state (Tables.resolveLabels labels .nil))
  let n ← Exec.state allocNodeId
  Exec.modify (putNode n ⟨resolved.list.map Prod.fst, props, resolved.nodup⟩)
  resolved.list.forM (enterLabel n props)
  pure n

/-- Re-index a node under one of its labels. -/
def reindexLabel (n : NodeId) (old new : Props) (l : LabelId) : Exec Error Tables PUnit := do
  let s ← Exec.get
  let labelName := (s.labelName l).getD (toString l)
  Exec.modify (Tables.unindexNodeForLabel l n old)
  Tables.indexNodeForLabel l labelName n new

/-- Replace the properties of a node and its index entries with them. -/
def updateNodeImpl (n : NodeId) (props : Props) : Exec Error Working Unit := do
  let w ← Exec.get
  match w.tables.nodes.get n with
  | none => Exec.throw (.nodeNotFound n)
  | some record => do
    record.labels.forM fun l => onTables (reindexLabel n record.props props l)
    Exec.modify (putNode n { record with props := props })

/-- Give a node a label, which it may have already. -/
def addLabelInner (n : NodeId) (label : String) : Exec Error Working Unit := do
  let w ← Exec.get
  match w.tables.nodes.get n with
  | none => Exec.throw (.nodeNotFound n)
  | some record => do
    let l ← onTables (Exec.state (Tables.getOrCreateLabel label))
    if h : l ∈ record.labels then pure ()
    else do
      Exec.modify (putNode n
        { record with
          labels := record.labels ++ [l]
          nodup := record.nodup.append (List.nodup_singleton _) (by simpa using h) })
      enterLabel n record.props (l, label)

/-- Take a label off a node; nothing happens if it lacks it. -/
def removeLabelInner (n : NodeId) (label : String) (w : Working) : Working :=
  match w.tables.nodes.get n, w.tables.getLabel label with
  | some record, some l =>
    if l ∈ record.labels then
      let w := w.putNode n
        { record with labels := record.labels.erase l, nodup := record.nodup.erase l }
      let w := w.unlinkLabel l n
      { w with tables := w.tables.unindexNodeForLabel l n record.props }
    else w
  | _, _ => w

/-- Remove a node under one of its labels: property and text entries, label index and count. -/
def leaveLabel (n : NodeId) (props : Props) (w : Working) (l : LabelId) : Working :=
  unlinkLabel l n { w with tables := w.tables.unindexNodeForLabel l n props }

/-- Remove an edge record with its index entries and its count. -/
def dropEdge (id : EdgeId) (t : TypeId) (w : Working) : Working :=
  let s :=
    match w.tables.edges.get id with
    | some record => w.tables.deleteEdgeIndexEntries id record
    | none => w.tables
  bumpTypeCount t (-1) { w with tables := { s with edges := s.edges.erase id } }

/-- The part of an edge insertion before the adjacency is written. -/
def insertEdge (src dst : NodeId) (etype : String) (props : Props) :
    Exec Error Working (EdgeId × TypeId) := do
  proveNode src
  proveNode dst
  let t ← Exec.state (resolveType etype)
  let id ← Exec.state allocEdgeId
  let active ← Exec.state (activeEdgeIndexes t)
  onTables (Tables.writeEdgeIndexEntries active id t etype props)
  Exec.modify (putEdge id ⟨src, dst, t, props⟩)
  pure (id, t)

/-- Replace the properties of an edge and its index entries with them. -/
def updateEdgeImpl (id : EdgeId) (props : Props) : Exec Error Working Unit := do
  let w ← Exec.get
  match w.tables.edges.get id with
  | none => Exec.throw (.edgeNotFound id)
  | some record =>
    match w.tables.typeName record.edgeType with
    | none => Exec.throw (.corrupt "edge type name missing")
    | some etype => do
      onTables (Exec.modify (Tables.deleteEdgeIndexEntries id record))
      let s ← Exec.gets Working.tables
      onTables (Tables.writeEdgeIndexEntries (s.getActiveEdgeIndexes record.edgeType) id
        record.edgeType etype props)
      Exec.modify (putEdge id { record with props := props })

end Working

namespace Txn

variable [TextLib]

/-- Add an edge between existing nodes, with its two adjacency entries. -/
def addEdgeInner (src dst : NodeId) (etype : String) (props : Props) :
    Exec Error Txn (EdgeId × TypeId) := do
  let (id, ty) ← onWork (Working.insertEdge src dst etype props)
  Exec.modify fun t =>
    if t.buffer.bulk then t.deferAdj src dst ty id else t.appendAdj src dst ty id
  onWork (Exec.modify (Working.bumpTypeCount ty 1))
  pure (id, ty)

/-- Delete an edge with its adjacency and index entries. -/
def deleteEdgeInner (id : EdgeId) (t : Txn) : Option (NodeId × NodeId) × Txn :=
  match t.work.tables.edges.get id with
  | none => (none, t)
  | some record =>
    (some (record.src, record.dst),
      { t with
        work := t.work.dropEdge id record.edgeType
        adj :=
          { outAdj := t.adj.outAdj.erase (record.src, ⟨record.edgeType, record.dst, id⟩)
            inAdj := t.adj.inAdj.erase (record.dst, ⟨record.edgeType, record.src, id⟩) } })

/-- Remove one outgoing edge of a node that is being deleted. -/
def dropOutEdge (n : NodeId) (t : Txn) (entry : AdjEntry) : Txn :=
  { t with
    work := t.work.dropEdge entry.edgeId entry.edgeType
    adj := { t.adj with
      inAdj := t.adj.inAdj.erase (entry.other, ⟨entry.edgeType, n, entry.edgeId⟩) } }

/-- Remove one incoming edge of a node that is being deleted. -/
def dropInEdge (n : NodeId) (t : Txn) (entry : AdjEntry) : Txn :=
  { t with
    work := t.work.dropEdge entry.edgeId entry.edgeType
    adj := { t.adj with
      outAdj := t.adj.outAdj.erase (entry.other, ⟨entry.edgeType, n, entry.edgeId⟩) } }

/-- Remove a node with the last traces of it: what is left under it in the adjacency tables, its
vector and its record. -/
def eraseNode (n : NodeId) (t : Txn) : Txn :=
  { t with
    adj :=
      { outAdj := t.adj.outAdj.filter (·.1 ≠ n)
        inAdj := t.adj.inAdj.filter (·.1 ≠ n) }
    work := { t.work with tables := { t.work.tables with
      vectors := t.work.tables.vectors.erase n
      nodes := t.work.tables.nodes.erase n } } }

/-- Remove the index entries, label entries and counts of a node that is being deleted. -/
def leaveLabels (n : NodeId) (record : NodeRecord) (t : Txn) : Txn :=
  { t with work := record.labels.foldl (Working.leaveLabel n record.props) t.work }

/-- Remove the outgoing edges of a node that is being deleted. -/
def dropOutEdges (n : NodeId) (t : Txn) : Txn := (t.adj.entries n true).foldl (dropOutEdge n) t

/-- Remove the incoming edges of a node that is being deleted. A self-loop is gone from the
incoming side by now. -/
def dropInEdges (n : NodeId) (t : Txn) : Txn := (t.adj.entries n false).foldl (dropInEdge n) t

/-- Delete a node: its index entries, its edges in both directions, its record. -/
def deleteNodeInner (n : NodeId) (t : Txn) : Txn :=
  match t.work.tables.nodes.get n with
  | none => t
  | some record => (((t.leaveLabels n record).dropOutEdges n).dropInEdges n).eraseNode n

end Txn

end IssunDB
