import IssunDB.Schema

/-!
# What a committed write publishes

A write tells the adjacency snapshot what it changed (`CsrChange`, kept in `PendingChanges` until
a refresh absorbs it) and the property columns which records they have to read again
(`ColumnsDelta`). `GraphDelta` stages both inside a transaction.
-/

namespace IssunDB

/-- One edge added by a committed write. -/
structure AddedEdge where
  src : NodeId
  dst : NodeId
  edgeType : TypeId
  edgeId : EdgeId
  deriving DecidableEq

/-- The structural effect of one committed write on the adjacency snapshot. -/
structure CsrChange where
  addedNodes : List NodeId
  addedEdges : List AddedEdge
  edgesUpdated : Bool
  full : Bool
  deriving DecidableEq

namespace CsrChange

/-- A write without structural effect. -/
def none : CsrChange := ⟨[], [], false, false⟩

/-- A write the snapshot cannot absorb. -/
def fullMarker : CsrChange := { none with full := true }

def edgesUpdatedOnly : CsrChange := { none with edgesUpdated := true }

/-- Nothing changed. -/
def isEmpty (c : CsrChange) : Bool :=
  c.addedNodes.isEmpty && c.addedEdges.isEmpty && !c.edgesUpdated && !c.full

end CsrChange

/-- The largest number of edges of a snapshot, `MAX_SNAPSHOT_EDGES`. -/
def maxSnapshotEdges : ℕ := 2 ^ 32 - 1

/-- Added edges held before a refresh builds from storage instead. -/
def incrementalMaxEdges : ℕ := 2 ^ 20

/-- Committed changes the snapshot has not absorbed, each tagged with the write generation before
its commit was counted. -/
structure PendingChanges where
  batches : List (ℕ × CsrChange)
  totalEdges : ℕ
  deriving DecidableEq

namespace PendingChanges

/-- Nothing is pending. -/
def empty : PendingChanges := ⟨[], 0⟩

/-- Append a change. One full marker replaces everything once a removal, or too many edges, make
a build from storage necessary. -/
def record (tag : ℕ) (change : CsrChange) (p : PendingChanges) : PendingChanges :=
  if change.isEmpty then p
  else if change.full ∨ incrementalMaxEdges < p.totalEdges + change.addedEdges.length then
    ⟨[(tag, .fullMarker)], 0⟩
  else ⟨p.batches ++ [(tag, change)], p.totalEdges + change.addedEdges.length⟩

end PendingChanges

/-- Records the property columns have to read again. -/
structure ColumnsDelta where
  touched : List ℕ
  forceFull : Bool
  deriving DecidableEq

namespace ColumnsDelta

/-- The columns are current. -/
def empty : ColumnsDelta := ⟨[], false⟩

def recordTouchedMany (ids : List ℕ) (d : ColumnsDelta) : ColumnsDelta :=
  if d.forceFull then d else { d with touched := d.touched ++ ids }

def recordTouched (id : ℕ) (d : ColumnsDelta) : ColumnsDelta := d.recordTouchedMany [id]

def recordForceFull (_ : ColumnsDelta) : ColumnsDelta := ⟨[], true⟩

end ColumnsDelta

/-- Changes staged inside one transaction. -/
structure GraphDelta where
  addedNodes : List NodeId
  updatedNodes : List NodeId
  addedEdges : List AddedEdge
  updatedEdges : List EdgeId
  removedEdge : Bool
  forceFull : Bool
  deriving DecidableEq

namespace GraphDelta

/-- Nothing is staged. -/
def empty : GraphDelta := ⟨[], [], [], [], false, false⟩

def pushNode (n : NodeId) (d : GraphDelta) : GraphDelta :=
  { d with addedNodes := d.addedNodes ++ [n] }

/-- What the transaction tells the adjacency snapshot. -/
def change (d : GraphDelta) : CsrChange :=
  if d.forceFull ∨ d.removedEdge then .fullMarker
  else
    { addedNodes := d.addedNodes
      addedEdges := d.addedEdges
      edgesUpdated := !d.updatedEdges.isEmpty
      full := false }

end GraphDelta

end IssunDB
