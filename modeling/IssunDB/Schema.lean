import IssunDB.Encoding

/-!
# Identifiers, records and errors

The record types of the store, the adjacency entry with its duplicate order, index roles and
text-index languages. Ids are unbounded naturals. The ids of nodes and edges are 64 bits wide in
the source; those of labels, types and property keys are cut to 32 bits, so that every result
about names assumes a store with fewer than `2 ^ 32` of each kind.
-/

namespace IssunDB

/-- The id of a node. -/
abbrev NodeId := ℕ

/-- The id of an edge. -/
abbrev EdgeId := ℕ

/-- The id of a label, below `2 ^ 32`. -/
abbrev LabelId := ℕ

/-- The id of an edge type, below `2 ^ 32`. -/
abbrev TypeId := ℕ

/-- The id of a property key, below `2 ^ 32`. -/
abbrev PropKeyId := ℕ

/-- One adjacency value: the edge's type, the node at the other end and the edge. -/
structure AdjEntry where
  edgeType : TypeId
  other : NodeId
  edgeId : EdgeId
  deriving DecidableEq

namespace AdjEntry

/-- The twenty raw bytes, each field little-endian. -/
def asBytes (e : AdjEntry) : List UInt8 :=
  toLeBytes 4 e.edgeType ++ toLeBytes 8 e.other ++ toLeBytes 8 e.edgeId

/-- The raw bytes, then the fields: ids that fit their width are already told apart by the
bytes. -/
def sortKey (e : AdjEntry) : List ℕ ×ₗ ℕ ×ₗ ℕ ×ₗ ℕ :=
  toLex (e.asBytes.map UInt8.toNat, toLex (e.edgeType, toLex (e.other, e.edgeId)))

lemma sortKey_injective : Function.Injective sortKey := by
  rintro ⟨a, b, c⟩ ⟨a', b', c'⟩ h
  have := congrArg (fun k => (ofLex k).2) h
  simpa [sortKey] using this

/-- The order of duplicates under one key: lexicographic over the raw bytes. -/
instance : LinearOrder AdjEntry := LinearOrder.lift' sortKey sortKey_injective

end AdjEntry

/-- A stored node: its labels in insertion order, each once, and its properties. -/
structure NodeRecord where
  labels : List LabelId
  props : Props
  nodup : labels.Nodup
  deriving DecidableEq

/-- A stored edge. -/
structure EdgeRecord where
  src : NodeId
  dst : NodeId
  edgeType : TypeId
  props : Props
  deriving DecidableEq

/-- What an index declaration enforces, the flags byte of its `meta` entry. -/
inductive IndexRole where
  /-- A plain property index, `0x00`. -/
  | index
  /-- A unique constraint, `0x01`. -/
  | unique
  /-- A required constraint, `0x02`. -/
  | required
  deriving DecidableEq

namespace IndexRole

/-- The role as the error messages name it, `index_role_name`. -/
def roleName : IndexRole → String
  | index => "property index"
  | unique => "unique constraint"
  | required => "required constraint"

end IndexRole

/-- Languages of a text index. -/
inductive Language where
  | english
  | spanish
  | french
  | german
  | italian
  | portuguese
  deriving DecidableEq

namespace Language

/-- The byte stored for the language. -/
def toU8 : Language → UInt8
  | english => 1
  | spanish => 2
  | french => 3
  | german => 4
  | italian => 5
  | portuguese => 6

/-- The language of a stored byte. -/
def fromU8 (b : UInt8) : Language :=
  if b = 2 then spanish
  else if b = 3 then french
  else if b = 4 then german
  else if b = 5 then italian
  else if b = 6 then portuguese
  else english

@[simp]
lemma fromU8_toU8 (lang : Language) : fromU8 lang.toU8 = lang := by
  cases lang <;> rfl

end Language

/-- Errors of the write path. A unique violation carries the offending value, which the source
renders as text. -/
inductive Error where
  | storage
  | nodeNotFound (id : NodeId)
  | edgeNotFound (id : EdgeId)
  | corrupt (what : String)
  | invalidArgument (message : String)
  | uniqueConstraintViolation (owner property : String) (value : Json)
  | requiredConstraintViolation (owner property : String)
  deriving DecidableEq

end IssunDB
