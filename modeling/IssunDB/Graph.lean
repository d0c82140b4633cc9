import IssunDB.Operations
import IssunDB.Publish

/-!
# The graph handle

`Graph` is the committed database with the in-memory bookkeeping a committed write publishes to:
the write generation, the pending snapshot changes and the touch buffers of the node and edge
columns.

A mutation runs either by itself (`Graph.autoCommit`) or inside `Graph.update`, whose closure is
an interaction tree `Prog`: at each point it returns, or calls one operation of the write
transaction and continues with the result. Schema changes commit without publishing. Whether the
storage engine accepts a commit is an input of every step.
-/

namespace IssunDB

/-! ## Mutations -/

/-- The mutations available both by themselves and inside a transaction. -/
inductive Mutation where
  | addNode (label : String) (props : Props)
  | addNodeMulti (labels : List String) (props : Props)
  | updateNode (n : NodeId) (props : Props)
  | addLabel (n : NodeId) (label : String)
  | removeLabel (n : NodeId) (label : String)
  | deleteNode (n : NodeId)
  | addEdge (src dst : NodeId) (etype : String) (props : Props)
  | updateEdge (id : EdgeId) (props : Props)
  | deleteEdge (id : EdgeId)
  | putVectorBytes (n : NodeId) (bytes : List UInt8)
  | deleteVectorBytes (n : NodeId)
  | createNodeTextIndex (label property : String) (lang : Language)
  | dropNodeTextIndex (label property : String)
  deriving DecidableEq

namespace Mutation

/-- What a mutation returns. -/
def Result : Mutation → Type
  | addNode .. | addNodeMulti .. => NodeId
  | addEdge .. => EdgeId × TypeId
  | deleteEdge .. => Option (NodeId × NodeId)
  | _ => Unit

variable [TextLib]

/-- The mutation on an open transaction. -/
def exec : (m : Mutation) → Exec Error Txn m.Result
  | addNode label props => onWork (Working.addNodeInner [label] props)
  | addNodeMulti labels props => onWork (Working.addNodeInner labels props)
  | updateNode n props => onWork (Working.updateNodeImpl n props)
  | addLabel n label => onWork (Working.addLabelInner n label)
  | removeLabel n label => onWork (Exec.modify (Working.removeLabelInner n label))
  | deleteNode n => Exec.modify (Txn.deleteNodeInner n)
  | addEdge src dst etype props => Txn.addEdgeInner src dst etype props
  | updateEdge id props => onWork (Working.updateEdgeImpl id props)
  | deleteEdge id => Exec.state (Txn.deleteEdgeInner id)
  | putVectorBytes n bytes => onWork (onTables (Exec.modify fun s =>
      { s with vectors := s.vectors.put n bytes }))
  | deleteVectorBytes n => onWork (onTables (Exec.modify fun s =>
      { s with vectors := s.vectors.erase n }))
  | createNodeTextIndex label property lang =>
      onWork (onTables (Tables.createNodeTextIndex label property lang))
  | dropNodeTextIndex label property =>
      onWork (onTables (Exec.modify (Tables.dropNodeTextIndex label property)))

/-- What a transaction does before a deletion: forget the proved endpoints and write the
buffered adjacency, which the deletion walks. -/
def prepare : Mutation → Txn → Txn
  | deleteNode _, t => Txn.flushAdjacency { t with work := t.work.invalidateNodes }
  | deleteEdge _, t => t.flushAdjacency
  | _, t => t

/-- What a mutation leaves to be published. -/
def stage : (m : Mutation) → m.Result → GraphDelta → GraphDelta
  | addNode .., n, d => d.pushNode n
  | addNodeMulti .., n, d => d.pushNode n
  | updateNode n _, _, d => { d with updatedNodes := d.updatedNodes ++ [n] }
  | deleteNode _, _, d => { d with forceFull := true }
  | addEdge src dst _ _, (id, ty), d =>
      { d with addedEdges := d.addedEdges ++ [⟨src, dst, ty, id⟩] }
  | updateEdge id _, _, d => { d with updatedEdges := d.updatedEdges ++ [id] }
  | deleteEdge _, ends, d =>
      if (ends : Option (NodeId × NodeId)).isSome then { d with removedEdge := true } else d
  | _, _, d => d

/-- What an auto-committing mutation tells the adjacency snapshot; nothing for the mutations that
commit without publishing. -/
def change : (m : Mutation) → m.Result → Option CsrChange
  | addNode .., n | addNodeMulti .., n => some { CsrChange.none with addedNodes := [(n : NodeId)] }
  | updateNode .., _ | addLabel .., _ | removeLabel .., _ => some .none
  | deleteNode _, _ => some .fullMarker
  | addEdge src dst _ _, (id, ty) =>
      some { CsrChange.none with addedEdges := [⟨src, dst, ty, id⟩] }
  | updateEdge .., _ => some .edgesUpdatedOnly
  | deleteEdge _, ends =>
      some (if (ends : Option (NodeId × NodeId)).isSome then .fullMarker else .none)
  | putVectorBytes .., _ | deleteVectorBytes _, _ => none
  | createNodeTextIndex .., _ | dropNodeTextIndex .., _ => none

end Mutation

/-! ## The write transaction -/

/-- An open `Graph::update` transaction. -/
structure WriteTxn where
  txn : Txn
  mutationsCount : ℕ
  failed : Bool
  delta : GraphDelta
  deriving DecidableEq

/-- A directed neighbor, as a neighbor read returns it. -/
structure NeighborEntry where
  node : NodeId
  edge : EdgeId
  edgeType : TypeId
  deriving DecidableEq

/-- An adjacency entry as a neighbor. -/
def AdjEntry.neighbor (e : AdjEntry) : NeighborEntry := ⟨e.other, e.edgeId, e.edgeType⟩

/-- The refusal to commit after a failed write. -/
def failedWrite : Error := .invalidArgument "transaction contains a failed write"

/-- The reads of a write transaction. -/
inductive Read where
  | getNode (n : NodeId)
  | getEdge (id : EdgeId)
  | nodeLabels (n : NodeId)
  | outNeighbors (n : NodeId)
  | inNeighbors (n : NodeId)
  | allNeighbors (n : NodeId)
  | nodesByLabel (label : String)
  | edgesByType (etype : String)
  | labelName (id : LabelId)
  | typeName (id : TypeId)
  | nodeCountByLabel (label : String)
  | edgeCountByType (etype : String)
  | allNodes
  | hasNodeTextIndex (label property : String)
  deriving DecidableEq

/-- What a read returns. A directed neighbor is marked `true` when it is outgoing. -/
def Read.Result : Read → Type
  | getNode _ => Option NodeRecord
  | getEdge _ => Option EdgeRecord
  | nodeLabels _ => List String
  | outNeighbors _ | inNeighbors _ => List NeighborEntry
  | allNeighbors _ => List (NeighborEntry × Bool)
  | nodesByLabel _ => List NodeId
  | edgesByType _ => List EdgeId
  | labelName _ | typeName _ => Option String
  | nodeCountByLabel _ | edgeCountByType _ => ℕ
  | allNodes => List NodeId
  | hasNodeTextIndex .. => Bool

namespace Txn

/-- The stored entries plus the buffered ones, in the order the store returns them once
written. -/
def neighborsWithPending (t : Txn) (n : NodeId) (outgoing : Bool) : List NeighborEntry :=
  let stored := t.adj.entries n outgoing
  if t.hasPendingAdjacency then
    ((stored ++ t.pendingAdjOf n outgoing).insertionSort (· ≤ ·)).map AdjEntry.neighbor
  else stored.map AdjEntry.neighbor

/-- Both directions of a node. -/
def allNeighbors (t : Txn) (n : NodeId) : List (NeighborEntry × Bool) :=
  (t.neighborsWithPending n true).map (·, true) ++ (t.neighborsWithPending n false).map (·, false)

/-- The answer to a read, from the working copy. -/
def read (t : Txn) : (r : Read) → r.Result
  | .getNode n => t.work.tables.nodes.get n
  | .getEdge id => t.work.tables.edges.get id
  | .nodeLabels n =>
    match t.work.tables.nodes.get n with
    | some record => record.labels.filterMap t.work.tables.labelName
    | none => ([] : List String)
  | .outNeighbors n => t.neighborsWithPending n true
  | .inNeighbors n => t.neighborsWithPending n false
  | .allNeighbors n => t.allNeighbors n
  | .nodesByLabel label => t.work.tables.nodesByLabel label
  | .edgesByType etype => t.work.tables.edgesByType etype
  | .labelName id => t.work.tables.labelName id
  | .typeName id => t.work.tables.typeName id
  | .nodeCountByLabel label => t.work.nodeCountByLabel label
  | .edgeCountByType etype => t.work.edgeCountByType etype
  | .allNodes => t.work.tables.nodes.keys.ascending
  | .hasNodeTextIndex label property => t.work.tables.hasNodeTextIndex label property

end Txn

namespace WriteTxn

/-- A write transaction on the committed state. -/
def begin (s : Storage) : WriteTxn where
  txn := .begin s (some .empty)
  mutationsCount := 0
  failed := false
  delta := .empty

variable [TextLib]

/-- Run a mutation; a failure bars the transaction from committing. -/
def runMutation (m : Mutation) : Exec Error WriteTxn m.Result := fun w =>
  match m.exec (m.prepare w.txn) with
  | (.ok r, t) =>
    (.ok r, { w with
      txn := t
      mutationsCount := w.mutationsCount + 1
      delta := m.stage r w.delta })
  | (.error e, t) => (.error e, { w with txn := t })

/-- `WriteTxn::mutate`: refuse after a failed mutation, and remember a failure. -/
def mutate {α : Type} (f : Exec Error WriteTxn α) : Exec Error WriteTxn α := fun w =>
  if w.failed then (.error failedWrite, w)
  else
    match f w with
    | (.ok a, w) => (.ok a, { w with failed := false })
    | (.error e, w) => (.error e, { w with failed := true })

end WriteTxn

/-! ## Closures -/

/-- One operation of a write transaction. -/
inductive TxnOp where
  | mutation (m : Mutation)
  | read (r : Read)
  | beginBulkLoad
  deriving DecidableEq

/-- What an operation returns. -/
def TxnOp.Result : TxnOp → Type
  | mutation m => m.Result
  | read r => r.Result
  | beginBulkLoad => Unit

/-- Perform an operation. -/
def TxnOp.exec [TextLib] : (op : TxnOp) → Exec Error WriteTxn op.Result
  | mutation m => WriteTxn.mutate (WriteTxn.runMutation m)
  | read r => fun w => (.ok (w.txn.read r), w)
  | beginBulkLoad => Exec.modify fun w => { w with txn := w.txn.beginBulkLoad }

/-- A closure of `Graph::update`: it returns, or calls an operation and goes on with the
result, which may be an error it catches. -/
inductive Prog (α : Type) where
  | done (result : Except Error α)
  | call (op : TxnOp) (next : Except Error op.Result → Prog α)

def Prog.run [TextLib] {α : Type} : Prog α → Exec Error WriteTxn α
  | done result, w => (result, w)
  | call op next, w => (next (op.exec w).1).run (op.exec w).2

/-! ## The graph -/

/-- The committed database with the bookkeeping of its caches. -/
structure Graph where
  /-- What the last commit left on disk. -/
  storage : Storage
  /-- Counts the published mutations, from one. -/
  writeGen : ℕ
  /-- What the next refresh of the snapshot has to take in. -/
  pending : PendingChanges
  /-- The nodes whose cached columns are out of date. -/
  nodeColumns : ColumnsDelta
  /-- The edges whose cached columns are out of date. -/
  edgeColumns : ColumnsDelta
  deriving DecidableEq

/-- A new database. Its snapshot is unbuilt, so the write generation starts at one. -/
def Graph.empty : Graph where
  storage := .empty
  writeGen := 1
  pending := .empty
  nodeColumns := .empty
  edgeColumns := .empty

namespace Graph

/-- Advance the persisted write generation. -/
def bumpCommitGen (s : Storage) : Storage :=
  { s with tables := { s.tables with metaDb := { s.tables.metaDb with
    commitGen := s.tables.metaDb.commitGen + 1 } } }

/-- Commit a working copy and publish `count` mutations. `commit` is the storage engine's
answer. -/
def commitAndPublish (commit : Except Error Unit) (s : Storage) (count : ℕ) (change : CsrChange)
    (g : Graph) : Except Error Graph :=
  let s := if 0 < count then bumpCommitGen s else s
  match commit with
  | .error e => .error e
  | .ok () =>
    .ok { g with
      storage := s
      pending := g.pending.record g.writeGen change
      writeGen := g.writeGen + count }

/-- Tell the columns what an auto-committed mutation touched. -/
def recordColumns : (m : Mutation) → m.Result → Graph → Graph
  | .addNode .., n, g => { g with nodeColumns := g.nodeColumns.recordTouched n }
  | .addNodeMulti .., n, g => { g with nodeColumns := g.nodeColumns.recordTouched n }
  | .updateNode n _, _, g => { g with nodeColumns := g.nodeColumns.recordTouched n }
  | .deleteNode _, _, g =>
    { g with
      nodeColumns := g.nodeColumns.recordForceFull
      edgeColumns := g.edgeColumns.recordForceFull }
  | .addEdge .., (id, _), g => { g with edgeColumns := g.edgeColumns.recordTouched id }
  | .updateEdge id _, _, g => { g with edgeColumns := g.edgeColumns.recordTouched id }
  | .deleteEdge _, ends, g =>
    if (ends : Option (NodeId × NodeId)).isSome then
      { g with edgeColumns := g.edgeColumns.recordForceFull }
    else g
  | _, _, g => g

/-- Tell the columns what a transaction touched. -/
def recordDelta (d : GraphDelta) (g : Graph) : Graph :=
  { g with
    nodeColumns :=
      if d.forceFull then g.nodeColumns.recordForceFull
      else (g.nodeColumns.recordTouchedMany d.addedNodes).recordTouchedMany d.updatedNodes
    edgeColumns :=
      if d.forceFull ∨ d.removedEdge then g.edgeColumns.recordForceFull
      else
        (g.edgeColumns.recordTouchedMany (d.addedEdges.map AddedEdge.edgeId)).recordTouchedMany
          d.updatedEdges }

variable [TextLib]

/-- Run a mutation in a transaction of its own. -/
def autoCommit (commit : Except Error Unit) (m : Mutation) (g : Graph) :
    Except Error m.Result × Graph :=
  match m.exec (.begin g.storage none) with
  | (.error e, _) => (.error e, g)
  | (.ok r, t) =>
    match m.change r with
    | none =>
      match commit with
      | .error e => (.error e, g)
      | .ok () => (.ok r, { g with storage := t.storage })
    | some change =>
      match commitAndPublish commit t.storage 1 change g with
      | .error e => (.error e, g)
      | .ok g => (.ok r, recordColumns m r g)

/-- `Graph::update`: run a closure in one transaction. -/
def update {α : Type} (commit : Except Error Unit) (p : Prog α) (g : Graph) :
    Except Error α × Graph :=
  match p.run (.begin g.storage) with
  | (.error e, _) => (.error e, g)
  | (.ok a, w) =>
    if w.failed then (.error failedWrite, g)
    else
      match commitAndPublish commit w.txn.flush.storage w.mutationsCount w.delta.change g with
      | .error e => (.error e, g)
      | .ok g => (.ok a, recordDelta w.delta g)

/-! ## Schema changes and runs -/

/-- The operations that declare and drop property indexes and constraints. They exist outside
transactions only. -/
inductive Ddl where
  | createNodeIndex (label property : String) (role : IndexRole)
  | dropNodeIndex (label property : String) (role : IndexRole)
  | createEdgeIndex (etype property : String) (role : IndexRole)
  | dropEdgeIndex (etype property : String) (role : IndexRole)
  | setLabelAutoIndex (label : String) (enabled : Bool)
  deriving DecidableEq

/-- A schema change on the tables. -/
def Ddl.exec : Ddl → Exec Error Tables Unit
  | createNodeIndex label property role => Tables.createNodeIndex label property role
  | dropNodeIndex label property role => Exec.modify (Tables.dropNodeIndex label property role)
  | createEdgeIndex etype property role => Tables.createEdgeIndex etype property role
  | dropEdgeIndex etype property role => Exec.modify (Tables.dropEdgeIndex etype property role)
  | setLabelAutoIndex label enabled => Exec.modify (Tables.setLabelAutoIndex label enabled)

/-- Run a schema change in a transaction of its own. It commits without publishing. -/
def schemaChange (commit : Except Error Unit) (d : Ddl) (g : Graph) : Except Error Unit × Graph :=
  match d.exec g.storage.tables with
  | (.error e, _) => (.error e, g)
  | (.ok (), s) =>
    match commit with
    | .error e => (.error e, g)
    | .ok () => (.ok (), { g with storage := { g.storage with tables := s } })

/-- One write operation on the graph, with the storage engine's answer to its commit. -/
inductive Action where
  | mutation (m : Mutation) (commit : Except Error Unit)
  | ddl (d : Ddl) (commit : Except Error Unit)
  | update (p : Prog Unit) (commit : Except Error Unit)

/-- Carry out an action as a transaction of its own. -/
def perform : Action → Graph → Except Error Unit × Graph
  | .mutation m commit, g => ((g.autoCommit commit m).1.map fun _ => (), (g.autoCommit commit m).2)
  | .ddl d commit, g => g.schemaChange commit d
  | .update p commit, g => g.update commit p

/-- Perform a list of operations in order. -/
def run (actions : List Action) (g : Graph) : Graph :=
  actions.foldl (fun g a => (perform a g).2) g

end Graph

end IssunDB
