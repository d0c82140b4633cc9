import IssunDB.Lib.Exec
import IssunDB.Lib.Registry
import IssunDB.Schema

/-!
# The store

The tables of one database. `MetaDb` is the string-keyed `meta` table, split by key family:
counters, name registries, index declarations, the auto-index opt-outs, record counts and
full-text statistics. `Tables` adds the record tables and every secondary index; `Adjacency`
holds the two adjacency tables, which only the edge operations touch.

Composite keys are tuples: their fixed-width parts make the byte keys of the source injective. A
duplicate table is a finite set of pairs.
-/

namespace IssunDB

/-- A set of decimal ids in the order of their decimal texts, as a scan of textual keys lists
them. -/
def byDecimal (s : Finset ℕ) : List ℕ :=
  s.ascending.insertionSort fun a b => Nat.toDigits 10 a ≤ Nat.toDigits 10 b

@[simp]
lemma mem_byDecimal {s : Finset ℕ} {a : ℕ} : a ∈ byDecimal s ↔ a ∈ s := by
  rw [byDecimal, (List.perm_insertionSort _ _).mem_iff, Finset.mem_ascending]

/-- The property-key registry with its reverse table, `prop_key:` and `prop_key_name:`. -/
structure PropKeys where
  registry : Registry
  names : Table PropKeyId String
  names_iff : ∀ id name, names.get id = some name ↔ registry.get name = some id

namespace PropKeys

instance : DecidableEq PropKeys := fun k k' =>
  decidable_of_iff (k.registry = k'.registry ∧ k.names = k'.names) (by
    cases k
    cases k'
    simp)

/-- No property key is registered. -/
def empty : PropKeys where
  registry := .empty
  names := .empty
  names_iff := by simp [Registry.empty, Registry.get]

/-- The id of a property key. -/
def get (k : PropKeys) (name : String) : Option PropKeyId := k.registry.get name

/-- The id of a property key, allocated with both entries if there is none. -/
def getOrCreate (k : PropKeys) (name : String) : PropKeyId × PropKeys :=
  match h : k.get name with
  | some id => (id, k)
  | none =>
    ((k.registry.getOrCreate name).1,
      { registry := (k.registry.getOrCreate name).2
        names := k.names.put (k.registry.getOrCreate name).1 name
        names_iff := by
          have hnext : (k.registry.getOrCreate name).1 = k.registry.next :=
            Registry.getOrCreate_fst_of_none h
          have hself := k.registry.get_getOrCreate_self name
          intro id name'
          by_cases hid : id = (k.registry.getOrCreate name).1
          · subst hid
            rw [Table.get_put_self]
            constructor
            · intro hn
              rw [← Option.some.inj hn, hself]
            · intro hn
              rw [Registry.get_inj hself hn]
          · rw [Table.get_put_of_ne _ _ hid, k.names_iff]
            by_cases hn : name' = name
            · subst hn
              rw [hself, show k.registry.get name' = none from h]
              simp [Ne.symm hid]
            · rw [Registry.get_getOrCreate_of_ne _ hn] })

lemma registry_getOrCreate (k : PropKeys) (name : String) :
    (k.getOrCreate name).2.registry = (k.registry.getOrCreate name).2 := by
  unfold getOrCreate
  split
  next id h => rw [Registry.getOrCreate_of_get h]
  next => rfl

@[simp]
lemma get_getOrCreate_self (k : PropKeys) (name : String) :
    (k.getOrCreate name).2.get name = some (k.getOrCreate name).1 := by
  unfold getOrCreate
  split
  next id h => exact h
  next => exact k.registry.get_getOrCreate_self name

lemma extends_getOrCreate (k : PropKeys) (name : String) :
    k.registry.Extends (k.getOrCreate name).2.registry := by
  rw [registry_getOrCreate]
  exact k.registry.extends_getOrCreate name

end PropKeys

/-- The `meta` table, by key family. A counter that was never written is zero. -/
structure MetaDb where
  nextNode : NodeId
  nextEdge : EdgeId
  commitGen : ℕ
  labels : Registry
  types : Registry
  propKeys : PropKeys
  /-- Declared node indexes, `idx_meta:node:`. -/
  idxNode : Table (LabelId × PropKeyId) IndexRole
  /-- Declared edge indexes, `idx_meta:edge:`. -/
  idxEdge : Table (TypeId × PropKeyId) IndexRole
  /-- Labels that opted out of the auto-index. -/
  autoIndexOff : Finset LabelId
  /-- Node counts, `stats:l:`. -/
  statsLabel : Table LabelId ℕ
  /-- Edge counts, `stats:t:`. -/
  statsType : Table TypeId ℕ
  /-- Active text indexes with their language byte, `fts_meta:node:`. -/
  ftsMeta : Table (LabelId × PropKeyId) UInt8
  /-- Documents per text index. -/
  ftsN : Table (LabelId × PropKeyId) ℕ
  /-- Tokens per text index. -/
  ftsSumDl : Table (LabelId × PropKeyId) ℕ
  deriving DecidableEq

/-- Every table but the adjacency tables. -/
structure Tables where
  nodes : Table NodeId NodeRecord
  edges : Table EdgeId EdgeRecord
  labelIdx : Finset (LabelId × NodeId)
  nodePropIdx : Finset (LabelId × PropKeyId × Encoded × NodeId)
  edgePropIdx : Finset (TypeId × PropKeyId × Encoded × EdgeId)
  vectors : Table NodeId (List UInt8)
  ftsPostings : Finset (LabelId × PropKeyId × String × NodeId × ℕ)
  ftsDocs : Table (LabelId × PropKeyId × NodeId) ℕ
  metaDb : MetaDb
  deriving DecidableEq

/-- The adjacency tables. -/
structure Adjacency where
  outAdj : Finset (NodeId × AdjEntry)
  inAdj : Finset (NodeId × AdjEntry)
  deriving DecidableEq

/-- A database. -/
structure Storage where
  tables : Tables
  adj : Adjacency
  deriving DecidableEq

/-- The `meta` table of a new database. -/
def MetaDb.empty : MetaDb where
  nextNode := 0
  nextEdge := 0
  commitGen := 0
  labels := .empty
  types := .empty
  propKeys := .empty
  idxNode := .empty
  idxEdge := .empty
  autoIndexOff := ∅
  statsLabel := .empty
  statsType := .empty
  ftsMeta := .empty
  ftsN := .empty
  ftsSumDl := .empty

/-- A new database. -/
def Storage.empty : Storage where
  tables :=
    { nodes := .empty
      edges := .empty
      labelIdx := ∅
      nodePropIdx := ∅
      edgePropIdx := ∅
      vectors := .empty
      ftsPostings := ∅
      ftsDocs := .empty
      metaDb := .empty }
  adj := ⟨∅, ∅⟩

namespace Tables

/-! ## Registries -/

/-- The id of a label, allocated if it is new. -/
def getOrCreateLabel (name : String) (s : Tables) : LabelId × Tables :=
  let r := s.metaDb.labels.getOrCreate name
  (r.1, { s with metaDb := { s.metaDb with labels := r.2 } })

/-- The id of an edge type, registering the name if it is new. -/
def getOrCreateType (name : String) (s : Tables) : TypeId × Tables :=
  let r := s.metaDb.types.getOrCreate name
  (r.1, { s with metaDb := { s.metaDb with types := r.2 } })

/-- The id of a property key, registering the name if it is new. -/
def getOrCreatePropKey (name : String) (s : Tables) : PropKeyId × Tables :=
  let r := s.metaDb.propKeys.getOrCreate name
  (r.1, { s with metaDb := { s.metaDb with propKeys := r.2 } })

/-- The id of a label, if it is registered. -/
def getLabel (s : Tables) (name : String) : Option LabelId := s.metaDb.labels.get name

/-- The id of an edge type, if it is registered. -/
def getType (s : Tables) (name : String) : Option TypeId := s.metaDb.types.get name

/-- The id of a property key, if it is registered. -/
def getPropKey (s : Tables) (name : String) : Option PropKeyId := s.metaDb.propKeys.get name

/-- The name under which a label was registered. -/
def labelName (s : Tables) (id : LabelId) : Option String := s.metaDb.labels.nameOf id

/-- The name under which an edge type was registered. -/
def typeName (s : Tables) (id : TypeId) : Option String := s.metaDb.types.nameOf id

/-- The name of a property key by a scan of the registry. -/
def propKeyName (s : Tables) (id : PropKeyId) : Option String :=
  s.metaDb.propKeys.registry.nameOf id

/-- The name of a property key by the direct table of names. -/
def getPropKeyName (s : Tables) (id : PropKeyId) : Option String :=
  s.metaDb.propKeys.names.get id

/-! ## Counts -/

/-- Change the stored count of a label; it never falls below zero. -/
def adjustLabelCount (l : LabelId) (delta : ℤ) (s : Tables) : Tables :=
  { s with metaDb := { s.metaDb with
      statsLabel := s.metaDb.statsLabel.put l
        (((s.metaDb.statsLabel.get l).getD 0 : ℤ) + delta).toNat } }

/-- The stored count of a label. -/
def getLabelCount (s : Tables) (l : LabelId) : ℕ := (s.metaDb.statsLabel.get l).getD 0

/-- Change the stored count of an edge type; it never falls below zero. -/
def adjustTypeCount (t : TypeId) (delta : ℤ) (s : Tables) : Tables :=
  { s with metaDb := { s.metaDb with
      statsType := s.metaDb.statsType.put t
        (((s.metaDb.statsType.get t).getD 0 : ℤ) + delta).toNat } }

/-- The stored count of an edge type. -/
def getTypeCount (s : Tables) (t : TypeId) : ℕ := (s.metaDb.statsType.get t).getD 0

/-- `node_count_by_label` on the stored counts. -/
def nodeCountByLabel (s : Tables) (label : String) : ℕ :=
  match s.getLabel label with
  | some l => s.getLabelCount l
  | none => 0

/-- `edge_count_by_type` on the stored counts. -/
def edgeCountByType (s : Tables) (etype : String) : ℕ :=
  match s.getType etype with
  | some t => s.getTypeCount t
  | none => 0

/-! ## Scans -/

/-- The nodes of a label in ascending order, by the label index. -/
def nodesByLabel (s : Tables) (label : String) : List NodeId :=
  match s.getLabel label with
  | some l => (s.labelIdx.under l).ascending
  | none => []

/-- The edges of a type in ascending order, by a scan of the records. -/
def edgesByType (s : Tables) (etype : String) : List EdgeId :=
  match s.getType etype with
  | some t => (s.edges.toList.filter fun e => e.2.edgeType = t).map Prod.fst
  | none => []

/-- The declared properties of a label with their roles, in the order of their keys as text. -/
def getActiveNodeIndexes (s : Tables) (l : LabelId) : List (PropKeyId × IndexRole) :=
  (byDecimal (s.metaDb.idxNode.keys.under l)).filterMap fun p =>
    (s.metaDb.idxNode.get (l, p)).map (p, ·)

/-- The declared properties of an edge type with their roles, in the order of their keys as text. -/
def getActiveEdgeIndexes (s : Tables) (t : TypeId) : List (PropKeyId × IndexRole) :=
  (byDecimal (s.metaDb.idxEdge.keys.under t)).filterMap fun p =>
    (s.metaDb.idxEdge.get (t, p)).map (p, ·)

/-- Whether a label has opted out of the index over all properties. -/
def labelAutoIndexDisabled (s : Tables) (l : LabelId) : Bool := l ∈ s.metaDb.autoIndexOff

/-- File a node under the value of a property. -/
def putNodeProp (l : LabelId) (p : PropKeyId) (e : Encoded) (n : NodeId) (s : Tables) : Tables :=
  { s with nodePropIdx := insert (l, p, e, n) s.nodePropIdx }

/-- Remove a node from under the value of a property. -/
def deleteNodeProp (l : LabelId) (p : PropKeyId) (e : Encoded) (n : NodeId) (s : Tables) :
    Tables :=
  { s with nodePropIdx := s.nodePropIdx.erase (l, p, e, n) }

/-- File an edge under the value of a property. -/
def putEdgeProp (t : TypeId) (p : PropKeyId) (e : Encoded) (id : EdgeId) (s : Tables) : Tables :=
  { s with edgePropIdx := insert (t, p, e, id) s.edgePropIdx }

/-- Remove an edge from under the value of a property. -/
def deleteEdgeProp (t : TypeId) (p : PropKeyId) (e : Encoded) (id : EdgeId) (s : Tables) :
    Tables :=
  { s with edgePropIdx := s.edgePropIdx.erase (t, p, e, id) }

variable {p : PropKeyId} {s : Tables}

lemma mem_getActiveNodeIndexes {l : LabelId} {r : IndexRole} :
    (p, r) ∈ s.getActiveNodeIndexes l ↔ s.metaDb.idxNode.get (l, p) = some r := by
  simp only [getActiveNodeIndexes, List.mem_filterMap, mem_byDecimal, Finset.mem_under,
    Table.mem_keys, Option.map_eq_some_iff, Prod.mk.injEq]
  constructor
  · rintro ⟨p', -, r', h, rfl, rfl⟩
    exact h
  · intro h
    exact ⟨p, by simp [h], r, h, rfl, rfl⟩

lemma mem_getActiveEdgeIndexes {t : TypeId} {r : IndexRole} :
    (p, r) ∈ s.getActiveEdgeIndexes t ↔ s.metaDb.idxEdge.get (t, p) = some r := by
  simp only [getActiveEdgeIndexes, List.mem_filterMap, mem_byDecimal, Finset.mem_under,
    Table.mem_keys, Option.map_eq_some_iff, Prod.mk.injEq]
  constructor
  · rintro ⟨p', -, r', h, rfl, rfl⟩
    exact h
  · intro h
    exact ⟨p, by simp [h], r, h, rfl, rfl⟩

lemma propKeyName_eq_some {name : String} :
    s.propKeyName p = some name ↔ s.getPropKey name = some p :=
  Registry.nameOf_eq_some

lemma getPropKeyName_eq_some {name : String} :
    s.getPropKeyName p = some name ↔ s.getPropKey name = some p :=
  s.metaDb.propKeys.names_iff p name

end Tables

end IssunDB
