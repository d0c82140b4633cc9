import IssunDB.Adjacency
import IssunDB.Vector.Backend

/-!
# The vector index of a graph

The embeddings of a graph are stored as bytes next to the records. A search runs on an in-memory
index, which is built from the stored bytes when it is first needed and kept up by every upsert and
removal after that. Core deletions remove the bytes of a node and do not reach the index.

Every operation that writes is given the storage engine's answer to its commit.
-/

namespace IssunDB.Vector

/-! ## The index -/

/-- The state of an index: no vector yet, or vectors of `dims` components. -/
inductive Inner where
  | empty
  | ready (index : ExactBackend) (dims : ℕ)

/-- `VectorIndex`. -/
structure VectorIndex where
  opts : VectorIndexOptions
  inner : Inner

namespace VectorIndex

/-- `VectorIndex::new_with_options`. -/
def new (opts : VectorIndexOptions) : VectorIndex := ⟨opts, .empty⟩

/-- Insert or replace the embedding of a node. The first one fixes the dimension. -/
def upsert (n : NodeId) (v : List F32) (idx : VectorIndex) : Except VectorError VectorIndex :=
  if v.length = 0 then .error (.indexFault .emptyEmbedding)
  else
    match idx.inner with
    | .empty => do
      let index ← (ExactBackend.new v.length idx.opts).upsert n v
      return { idx with inner := .ready index v.length }
    | .ready index d =>
      if v.length ≠ d then .error (.dimensionMismatch d v.length)
      else do
        let index ← index.upsert n v
        return { idx with inner := .ready index d }

/-- Whether the index holds no vector. -/
def isEmpty (idx : VectorIndex) : Bool :=
  match idx.inner with
  | .empty => true
  | .ready index _ => index.len = 0

/-- Drop the vector of a node. -/
def remove (n : NodeId) (idx : VectorIndex) : VectorIndex :=
  match idx.inner with
  | .empty => idx
  | .ready index d => { idx with inner := .ready (index.remove n) d }

variable [Distance]

/-- The `k` nearest neighbors. -/
def search (idx : VectorIndex) (q : List F32) (k : ℕ) : Except VectorError (List Hit) :=
  match idx.inner with
  | .empty => .ok []
  | .ready index _ => index.search q k

/-- The `k` nearest neighbors that satisfy a predicate. -/
def searchFiltered (idx : VectorIndex) (q : List F32) (k : ℕ) (predicate : NodeId → Bool) :
    Except VectorError (List Hit) :=
  match idx.inner with
  | .empty => .ok []
  | .ready index _ => index.searchFiltered q k predicate

end VectorIndex

/-! ## Stored bytes -/

/-- `encode_vector`. -/
def encodeVector (v : List F32) : Except VectorError (List UInt8) :=
  if v = [] then .error (.indexFault .emptyEmbedding)
  else
    match v.findIdx? (!F32.isFinite ·) with
    | some position => .error (.indexFault (.notFinite position (v.getD position 0)))
    | none => .ok (Word.toBytes v)

/-- `decode_vector`. -/
def decodeVector (bytes : List UInt8) : Except VectorError (List F32) :=
  if bytes.length % 4 ≠ 0 then .error (.indexFault (.storedLength bytes.length))
  else .ok (Word.ofBytes (bytes.length / 4) bytes)

lemma decodeVector_encodeVector {v : List F32} {bytes : List UInt8}
    (h : encodeVector v = .ok bytes) : decodeVector bytes = .ok v := by
  unfold encodeVector at h
  split at h
  · cases h
  · split at h
    · cases h
    · cases h
      have hlen : (Word.toBytes v).length = v.length * 4 := Word.length_toBytes v
      rw [decodeVector, hlen, if_neg (by simp), Nat.mul_div_cancel _ (by norm_num),
        Word.ofBytes_toBytes]

/-- The tags of a configuration, `encode_config`. -/
def encodeConfig (opts : VectorIndexOptions) : List UInt8 :=
  [match opts.metric with
    | .cosine => 0
    | .l2 => 1
    | .dot => 2,
   match opts.quantization with
    | .float32 => 0
    | .float16 => 1
    | .int8 => 2]

/-- `decode_config`. -/
def decodeConfig (bytes : List UInt8) : Except VectorError VectorIndexOptions :=
  match bytes with
  | [metric, quant] => do
    let metric ← match metric with
      | 0 => pure VectorMetric.cosine
      | 1 => pure .l2
      | 2 => pure .dot
      | other => .error (.indexFault (.metricTag other))
    let quantization ← match quant with
      | 0 => pure VectorQuantization.float32
      | 1 => pure .float16
      | 2 => pure .int8
      | other => .error (.indexFault (.quantizationTag other))
    return ⟨metric, quantization⟩
  | _ => .error (.indexFault (.configLength bytes.length))

lemma decodeConfig_encodeConfig (opts : VectorIndexOptions) :
    decodeConfig (encodeConfig opts) = .ok opts := by
  obtain ⟨metric, quantization⟩ := opts
  cases metric <;> cases quantization <;> rfl

/-! ## The graph -/

/-- A graph with its vector configuration, as stored, and its in-memory index, if that is built. -/
structure VectorGraph where
  graph : Graph
  config : Option (List UInt8)
  cache : Option VectorIndex

/-- A computation on the graph. -/
abbrev VectorM (α : Type) := Exec VectorError VectorGraph α

namespace VectorGraph

/-- A new database. -/
def empty : VectorGraph := ⟨.empty, none, none⟩

/-- The same database after it was closed and opened: nothing is left in memory. -/
def reopen (g : VectorGraph) : VectorGraph := { g with cache := none }

def stored (g : VectorGraph) : Table NodeId (List UInt8) := g.graph.storage.tables.vectors

def nodeExists (g : VectorGraph) (n : NodeId) : Bool :=
  (g.graph.storage.tables.nodes.get n).isSome

/-- `load_config`, with the default where nothing is stored. -/
def effectiveConfig (g : VectorGraph) : Except VectorError VectorIndexOptions :=
  match g.config with
  | some bytes => decodeConfig bytes
  | none => .ok .default

/-- `build_index`. -/
def buildIndex (g : VectorGraph) (opts : VectorIndexOptions) : Except VectorError VectorIndex :=
  g.stored.toList.foldlM (fun idx entry => do
    let v ← decodeVector entry.2
    idx.upsert entry.1 v) (.new opts)

/-- `get_or_init_cache`. -/
def getOrInitCache : VectorM VectorIndex := fun g =>
  match g.cache with
  | some idx => (.ok idx, g)
  | none =>
    match g.effectiveConfig >>= g.buildIndex with
    | .ok idx => (.ok idx, { g with cache := some idx })
    | .error e => (.error e, g)

def setCache (idx : VectorIndex) : VectorM Unit :=
  Exec.modify fun g => { g with cache := some idx }

/-- `put_vector_config`. -/
def putVectorConfig (commit : Except Error Unit) (opts : VectorIndexOptions) : VectorM Unit :=
  fun g =>
    match commit with
    | .ok () => (.ok (), { g with config := some (encodeConfig opts) })
    | .error e => (.error (.storage e), g)

variable [TextLib]

def core (commit : Except Error Unit) (m : Mutation) : VectorM m.Result := fun g =>
  ((g.graph.autoCommit commit m).1.mapError .storage,
    { g with graph := (g.graph.autoCommit commit m).2 })

/-- `put_vector_bytes`. -/
def putVectorBytes (commit : Except Error Unit) (n : NodeId) (bytes : List UInt8) : VectorM Unit :=
  core commit (.putVectorBytes n bytes)

/-- `delete_vector_bytes`. -/
def deleteVectorBytes (commit : Except Error Unit) (n : NodeId) : VectorM Unit :=
  core commit (.deleteVectorBytes n)

/-- `configure_vector_index`. -/
def configureVectorIndex (commit : Except Error Unit) (opts : VectorIndexOptions) :
    VectorM Unit := do
  let effective ← Exec.check effectiveConfig
  if effective = opts then pure ()
  else do
    let g ← Exec.get
    if g.stored.keys = ∅ then do
      putVectorConfig commit opts
      setCache (.new opts)
    else Exec.throw (.alreadyConfigured effective opts)

/-- `reindex_vector_index`. -/
def reindexVectorIndex (commit : Except Error Unit) (opts : VectorIndexOptions) : VectorM Unit := do
  let rebuilt ← Exec.check fun g => g.buildIndex opts
  putVectorConfig commit opts
  setCache rebuilt

/-- `upsert_vector`. -/
def upsertVector (commit : Except Error Unit) (n : NodeId) (v : List F32) : VectorM Unit := do
  Exec.check fun g => if g.nodeExists n then .ok () else .error (.nodeNotFound n)
  let bytes ← Exec.check fun _ => encodeVector v
  let idx ← getOrInitCache
  let idx ← Exec.check fun _ => idx.upsert n v
  setCache idx
  putVectorBytes commit n bytes

/-- `remove_vector`. -/
def removeVector (commit : Except Error Unit) (n : NodeId) : VectorM Unit := do
  let idx ← getOrInitCache
  setCache (idx.remove n)
  deleteVectorBytes commit n

end VectorGraph

/-! ## Search -/

/-- `VectorSearchOptions`. -/
structure VectorSearchOptions where
  k : ℕ
  label : Option String
  properties : Option (List (String × Json))
  rescoreFactor : Option ℕ

namespace VectorSearchOptions

/-- Whether the options restrict the nodes. -/
def hasFilters (opts : VectorSearchOptions) : Bool :=
  opts.label.isSome || opts.properties.any (· ≠ [])

/-- The rescore factor, one by default: this backend keeps full precision. -/
def factor (opts : VectorSearchOptions) : ℕ := opts.rescoreFactor.getD 1

/-- How many hits are fetched. -/
def fetchK (opts : VectorSearchOptions) : ℕ :=
  if 1 < opts.factor then opts.k * opts.factor else opts.k

end VectorSearchOptions

namespace VectorGraph

def hasLabel (g : VectorGraph) (n : NodeId) (label : String) : Bool :=
  match g.graph.storage.tables.getLabel label with
  | some l => (l, n) ∈ g.graph.storage.tables.labelIdx
  | none => false

/-- `node_prop_json`. A missing property is null. -/
def nodePropJson (g : VectorGraph) (n : NodeId) (key : String) : Option Json :=
  (g.graph.storage.tables.nodes.get n).map fun record => (record.props.get key).getD .null

/-- The node satisfies the filters of the search. -/
def matchesFilters (g : VectorGraph) (opts : VectorSearchOptions) (n : NodeId) : Bool :=
  opts.label.all (g.hasLabel n) && (opts.properties.getD []).all fun filter =>
    (g.nodePropJson n filter.1).any (·.eqv filter.2)

variable [Distance]

/-- Search without filters: drop the hits of deleted nodes and widen the window until enough hits
remain or the index is exhausted. Doubling the window exhausts it within `fuel` rounds, if `fuel` is
the number of its entries. -/
def searchLive (g : VectorGraph) (idx : VectorIndex) (q : List F32) (fetchK : ℕ) :
    ℕ → ℕ → Except VectorError (List Hit)
  | 0, want => do
    let raw ← idx.search q want
    return raw.filter fun hit => g.nodeExists hit.node
  | fuel + 1, want => do
    let raw ← idx.search q want
    let live := raw.filter fun hit => g.nodeExists hit.node
    if fetchK ≤ live.length ∨ raw.length < want then return live
    else searchLive g idx q fetchK fuel (want * 2)

/-- The distance of a hit to the stored vector of its node, if there is one. -/
def rescore (g : VectorGraph) (q : List F32) (metric : VectorMetric) (hit : Hit) :
    Except VectorError Hit :=
  match g.stored.get hit.node with
  | some bytes => do
    let v ← decodeVector bytes
    return ⟨hit.node, Distance.exactDistance q v metric⟩
  | none => .ok hit

/-- The number of vectors in the index. -/
def entryCount (idx : VectorIndex) : ℕ :=
  match idx.inner with
  | .empty => 0
  | .ready index _ => index.len

/-- The hits before they are rescored. A filter is evaluated while the index is searched. -/
def fetchHits (g : VectorGraph) (idx : VectorIndex) (q : List F32) (opts : VectorSearchOptions) :
    Except VectorError (List Hit) :=
  if opts.hasFilters then idx.searchFiltered q opts.fetchK (g.matchesFilters opts)
  else searchLive g idx q opts.fetchK (entryCount idx) (max opts.fetchK 1)

/-- Rank the hits by their distance to the stored vectors, if more were fetched for that. -/
def rescoreHits (g : VectorGraph) (idx : VectorIndex) (q : List F32) (opts : VectorSearchOptions)
    (hits : List Hit) : Except VectorError (List Hit) :=
  if 1 < opts.factor ∧ hits ≠ [] then do
    let rescored ← hits.mapM (g.rescore q idx.opts.metric)
    return rescored.insertionSort (· ≤ ·)
  else .ok hits

/-- The part of `vector_search_with` after the index is built. -/
def searchIndex (g : VectorGraph) (idx : VectorIndex) (q : List F32) (opts : VectorSearchOptions) :
    Except VectorError (List Hit) :=
  if idx.isEmpty then .error .emptyIndex
  else do
    let hits ← g.fetchHits idx q opts
    let final ← g.rescoreHits idx q opts hits
    return final.take opts.k

/-- `vector_search_with`. -/
def vectorSearchWith (q : List F32) (opts : VectorSearchOptions) : VectorM (List Hit) := do
  let idx ← getOrInitCache
  Exec.check fun g => g.searchIndex idx q opts

end VectorGraph

end IssunDB.Vector
