import IssunDB.PropIndex
import IssunDB.TextIndex

/-!
# Node property index and constraints

`indexNodeForLabel` writes the property-index and full-text entries of one node under one label,
checking the declared constraints on the way; `unindexNodeForLabel` removes them. A property is
indexed when an index or constraint is declared on it, or when the label has not opted out of the
auto-index.

Declaring an index scans the label's existing nodes; dropping one removes null-valued entries
only, because the auto-index is taken to own the others.
-/

namespace IssunDB

namespace Tables

/-- Another node than `n` has an entry for an encoding that counts as equal to `e`. -/
def nodePropTaken (s : Tables) (l : LabelId) (p : PropKeyId) (e : Encoded) (n : NodeId) : Bool :=
  ∃ e' ∈ propertyLookupEncodings e, ∃ entry ∈ s.nodePropIdx,
    entry.1 = l ∧ entry.2.1 = p ∧ entry.2.2.1 = e' ∧ entry.2.2.2 ≠ n

/-- Another node of the label than `n` stores an equal value. -/
def nodeValueTaken (s : Tables) (labelName propName : String) (val : Json) (n : NodeId) : Bool :=
  (s.nodesByLabel labelName).any fun other =>
    other ≠ n && holdsValue ((s.nodes.get other).bind fun r => r.props.get propName) val

/-- Enforce a unique constraint for one value of a node, through the index if the value has an
encoding and by a scan of the label otherwise. -/
def checkNodePropertyUnique (l : LabelId) (labelName : String) (p : PropKeyId) (propName : String)
    (val : Json) (n : NodeId) (s : Tables) : Except Error Unit :=
  let taken :=
    match encodePropertyValue val with
    | some e => s.nodePropTaken l p e n
    | none => s.nodeValueTaken labelName propName val n
  if taken then .error (.uniqueConstraintViolation labelName propName val) else .ok ()

/-- File a node under one declared property, if the role lets it. -/
def indexDeclaredProp (l : LabelId) (labelName : String) (n : NodeId) (props : Props) :
    PropKeyId × IndexRole → Exec Error Tables PUnit :=
  indexDeclared labelName props
    (fun p propName val => checkNodePropertyUnique l labelName p propName val n)
    (fun p e => putNodeProp l p e n)

/-- File a node under one property that is not declared. -/
def autoIndexField (l : LabelId) (n : NodeId) (declared : List String) (s : Tables)
    (field : String × Json) : Tables :=
  if field.2 = .null ∨ field.1 ∈ declared then s
  else
    match encodePropertyValue field.2 with
    | none => s
    | some e =>
      let (p, s) := s.getOrCreatePropKey field.1
      s.putNodeProp l p e n

/-- File a node under all properties that are not declared, unless the label has opted out. -/
def autoIndexFields (l : LabelId) (n : NodeId) (props : Props) (declared : List String)
    (s : Tables) : Tables :=
  if s.labelAutoIndexDisabled l then s else props.fields.foldl (autoIndexField l n declared) s

/-- Remove a node from under one declared property. -/
def unindexDeclaredProp (l : LabelId) (n : NodeId) (props : Props) (s : Tables)
    (active : PropKeyId × IndexRole) : Tables :=
  match s.propKeyName active.1 with
  | none => s
  | some propName =>
    match (props.get propName).bind encodePropertyValue with
    | some e => s.deleteNodeProp l active.1 e n
    | none => s

/-- Remove a node from under one of its properties. -/
def unindexField (l : LabelId) (n : NodeId) (s : Tables) (field : String × Json) : Tables :=
  if field.2 = .null then s
  else
    match encodePropertyValue field.2, s.getPropKey field.1 with
    | some e, some p => s.deleteNodeProp l p e n
    | _, _ => s

/-- Delete every property-index entry of a node under one label. An opted-out label is taken to
have no auto-index entries. -/
def unindexProps (l : LabelId) (n : NodeId) (props : Props) (s : Tables) : Tables :=
  let s := (s.getActiveNodeIndexes l).foldl (unindexDeclaredProp l n props) s
  if s.labelAutoIndexDisabled l then s else props.fields.foldl (unindexField l n) s

section Maintain

variable [TextLib]

/-- Write every property-index and full-text entry of a node under one label, with the
constraint checks. -/
def indexNodeForLabel (l : LabelId) (labelName : String) (n : NodeId) (props : Props) :
    Exec Error Tables Unit := do
  let s ← Exec.get
  let active := s.getActiveNodeIndexes l
  let declared := active.filterMap fun a => s.propKeyName a.1
  active.forM (indexDeclaredProp l labelName n props)
  Exec.modify (autoIndexFields l n props declared)
  Exec.modify (indexNodeFts n l props)

/-- Remove all property and text entries of a node under a label. -/
def unindexNodeForLabel (l : LabelId) (n : NodeId) (props : Props) (s : Tables) : Tables :=
  (s.unindexProps l n props).deleteNodeFts n l props

end Maintain

/-! ## Declaring and dropping -/

/-- The properties of a node. -/
def nodeProps (s : Tables) (n : NodeId) : Option Props := (s.nodes.get n).map NodeRecord.props

/-- Declare a property and file every node of the label under it. -/
def createNodeIndex (label property : String) (role : IndexRole) : Exec Error Tables Unit := do
  let l ← Exec.state (getOrCreateLabel label)
  let p ← Exec.state (getOrCreatePropKey property)
  let s ← Exec.get
  match s.metaDb.idxNode.get (l, p) with
  | some existing =>
    if existing = role then pure () else Exec.throw (roleConflict label property existing role)
  | none => do
    let ids := s.nodesByLabel label
    Exec.check (checkBackfill label property role .nodeNotFound nodeProps ids [])
    Exec.modify fun s =>
      { s with metaDb := { s.metaDb with idxNode := s.metaDb.idxNode.put (l, p) role } }
    ids.forM (backfillEntry property .nodeNotFound nodeProps (putNodeProp l p))

/-- Drop a declared index or constraint with its null-valued entries. -/
def dropNodeIndex (label property : String) (role : IndexRole) (s : Tables) : Tables :=
  let (l, s) := s.getOrCreateLabel label
  let (p, s) := s.getOrCreatePropKey property
  if s.metaDb.idxNode.get (l, p) = some role then
    { s with
      nodePropIdx := s.nodePropIdx.filter fun e =>
        ¬(e.1 = l ∧ e.2.1 = p ∧ e.2.2.1 = [encodedNull])
      metaDb := { s.metaDb with idxNode := s.metaDb.idxNode.erase (l, p) } }
  else s

/-- Write or delete the auto-index entry of one property of one node. -/
def switchField (enabled : Bool) (l : LabelId) (declared : List PropKeyId) (n : NodeId)
    (s : Tables) (field : String × Json) : Tables :=
  if field.2 = .null then s
  else
    match encodePropertyValue field.2 with
    | none => s
    | some e =>
      if enabled then
        let (p, s) := s.getOrCreatePropKey field.1
        if p ∈ declared then s else s.putNodeProp l p e n
      else
        match s.getPropKey field.1 with
        | none => s
        | some p => if p ∈ declared then s else s.deleteNodeProp l p e n

/-- File a node under its undeclared properties, or remove it from under them. -/
def switchNode (enabled : Bool) (l : LabelId) (declared : List PropKeyId) (s : Tables)
    (n : NodeId) : Tables :=
  match s.nodes.get n with
  | none => s
  | some record => record.props.fields.foldl (switchField enabled l declared n) s

/-- Turn the index over all properties of a label on or off. -/
def setLabelAutoIndex (label : String) (enabled : Bool) (s : Tables) : Tables :=
  let (l, s) := s.getOrCreateLabel label
  if enabled ≠ s.labelAutoIndexDisabled l then s
  else
    let declared := (s.getActiveNodeIndexes l).map Prod.fst
    let s := (s.nodesByLabel label).foldl (switchNode enabled l declared) s
    { s with metaDb := { s.metaDb with
        autoIndexOff :=
          if enabled then s.metaDb.autoIndexOff.erase l else insert l s.metaDb.autoIndexOff } }

end Tables

end IssunDB
