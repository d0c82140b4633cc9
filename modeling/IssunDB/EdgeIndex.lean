import IssunDB.PropIndex

/-!
# Edge property index and constraints

Edges are indexed under a declared index or constraint of their type only; there is no
auto-index. Dropping a declaration removes all its entries.
-/

namespace IssunDB.Tables

/-- Another edge than `id` has an entry for an encoding that counts as equal to `e`. -/
def edgePropTaken (s : Tables) (t : TypeId) (p : PropKeyId) (e : Encoded) (id : EdgeId) : Bool :=
  ∃ e' ∈ propertyLookupEncodings e, ∃ entry ∈ s.edgePropIdx,
    entry.1 = t ∧ entry.2.1 = p ∧ entry.2.2.1 = e' ∧ entry.2.2.2 ≠ id

/-- Another edge of the type than `id` stores an equal value. -/
def edgeValueTaken (s : Tables) (etype propName : String) (val : Json) (id : EdgeId) : Bool :=
  (s.edgesByType etype).any fun other =>
    other ≠ id && holdsValue ((s.edges.get other).bind fun r => r.props.get propName) val

/-- Enforce a unique constraint for one value of an edge, through the index if the value has an
encoding and by a scan of the type otherwise. -/
def checkEdgePropertyUnique (t : TypeId) (etype : String) (p : PropKeyId) (propName : String)
    (val : Json) (id : EdgeId) (s : Tables) : Except Error Unit :=
  let taken :=
    match encodePropertyValue val with
    | some e => s.edgePropTaken t p e id
    | none => s.edgeValueTaken etype propName val id
  if taken then .error (.uniqueConstraintViolation etype propName val) else .ok ()

/-- File an edge under one declared property, if the role lets it. -/
def indexDeclaredEdgeProp (t : TypeId) (etype : String) (id : EdgeId) (props : Props) :
    PropKeyId × IndexRole → Exec Error Tables PUnit :=
  indexDeclared etype props
    (fun p propName val => checkEdgePropertyUnique t etype p propName val id)
    (fun p e => putEdgeProp t p e id)

/-- File an edge under all declared properties of its type. -/
def writeEdgeIndexEntries (active : List (PropKeyId × IndexRole)) (id : EdgeId) (t : TypeId)
    (etype : String) (props : Props) : Exec Error Tables PUnit :=
  active.forM (indexDeclaredEdgeProp t etype id props)

/-- Remove an edge from under one declared property. -/
def deleteEdgeIndexEntry (id : EdgeId) (record : EdgeRecord) (s : Tables)
    (active : PropKeyId × IndexRole) : Tables :=
  match s.propKeyName active.1 with
  | none => s
  | some propName =>
    match (record.props.get propName).bind encodePropertyValue with
    | some e => s.deleteEdgeProp record.edgeType active.1 e id
    | none => s

/-- Remove an edge from under all declared properties of its type. -/
def deleteEdgeIndexEntries (id : EdgeId) (record : EdgeRecord) (s : Tables) : Tables :=
  (s.getActiveEdgeIndexes record.edgeType).foldl (deleteEdgeIndexEntry id record) s

/-! ## Declaring and dropping -/

/-- The properties of an edge. -/
def edgeProps (s : Tables) (id : EdgeId) : Option Props := (s.edges.get id).map EdgeRecord.props

/-- Declare a property and file every edge of the type under it. -/
def createEdgeIndex (etype property : String) (role : IndexRole) : Exec Error Tables Unit := do
  let t ← Exec.state (getOrCreateType etype)
  let p ← Exec.state (getOrCreatePropKey property)
  let s ← Exec.get
  match s.metaDb.idxEdge.get (t, p) with
  | some existing =>
    if existing = role then pure () else Exec.throw (roleConflict etype property existing role)
  | none => do
    let ids := s.edgesByType etype
    Exec.check (checkBackfill etype property role .edgeNotFound edgeProps ids [])
    Exec.modify fun s =>
      { s with metaDb := { s.metaDb with idxEdge := s.metaDb.idxEdge.put (t, p) role } }
    ids.forM (backfillEntry property .edgeNotFound edgeProps (putEdgeProp t p))

/-- Drop a declaration with its entries. -/
def dropEdgeIndex (etype property : String) (role : IndexRole) (s : Tables) : Tables :=
  let (t, s) := s.getOrCreateType etype
  let (p, s) := s.getOrCreatePropKey property
  if s.metaDb.idxEdge.get (t, p) = some role then
    { s with
      edgePropIdx := s.edgePropIdx.filter fun e => ¬(e.1 = t ∧ e.2.1 = p)
      metaDb := { s.metaDb with idxEdge := s.metaDb.idxEdge.erase (t, p) } }
  else s

end IssunDB.Tables
