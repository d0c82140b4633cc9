import IssunDB.Lib.Slots
import IssunDB.Lib.Words
import IssunDB.Schema
import Mathlib.Data.List.Sort
import Mathlib.Data.Prod.Lex
import Mathlib.Order.Lattice

/-!
# The exact vector backend

The backend that scans every vector it was given. A search ranks by distance, and by node id where
distances are equal, which is a total order: what is found does not depend on where an entry sits.

A component is its bit pattern and the distance of two vectors is a parameter: nothing depends on
how it is computed, only on its order.

* `Hit.key_injective` — hits are ordered totally;
* `ExactBackend.search_ok` — a search returns the `k` nearest;
* `ranking_congr` — two backends that agree on the nodes that are kept rank alike.
-/

namespace IssunDB.Vector

open List

/-- The bit pattern of an `f32`. -/
abbrev F32 := UInt32

/-- `f32::is_finite`. -/
def F32.isFinite (f : F32) : Bool := f.toNat / 2 ^ 23 % 256 ≠ 255

/-- The integer `f32::total_cmp` compares. -/
def F32.totalKey (f : F32) : ℤ :=
  if f.toNat < 2 ^ 31 then f.toNat else 2 ^ 31 - 1 - (f.toNat : ℤ)

lemma F32.totalKey_injective : Function.Injective F32.totalKey := by
  intro f g h
  apply UInt32.toNat_inj.mp
  unfold totalKey at h
  split at h <;> split at h <;> omega

/-- Distance metric for the vector index. -/
inductive VectorMetric where
  | cosine
  | l2
  | dot
  deriving DecidableEq

/-- Quantization format for in-memory vector storage. -/
inductive VectorQuantization where
  | float32
  | float16
  | int8
  deriving DecidableEq

/-- Construction options for the vector index. -/
structure VectorIndexOptions where
  metric : VectorMetric
  quantization : VectorQuantization
  deriving DecidableEq

/-- `VectorIndexOptions::default`. -/
def VectorIndexOptions.default : VectorIndexOptions := ⟨.cosine, .float32⟩

/-- The texts of an index fault. -/
inductive Fault where
  | emptyEmbedding
  | notFinite (position : ℕ) (component : F32)
  | storedLength (length : ℕ)
  | configLength (length : ℕ)
  | metricTag (tag : UInt8)
  | quantizationTag (tag : UInt8)
  deriving DecidableEq

/-- Errors of the vector operations. -/
inductive VectorError where
  | dimensionMismatch (expected got : ℕ)
  | alreadyConfigured (existing requested : VectorIndexOptions)
  | emptyIndex
  | indexFault (fault : Fault)
  | nodeNotFound (n : NodeId)
  | storage (e : Error)
  deriving DecidableEq

/-- `exact_distance`. -/
class Distance where
  exactDistance : List F32 → List F32 → VectorMetric → F32

/-! ## Hits -/

/-- A single result from vector search. -/
structure Hit where
  node : NodeId
  distance : F32
  deriving DecidableEq

namespace Hit

/-- What hits are ranked by. -/
def key (h : Hit) : ℤ ×ₗ ℕ := toLex (h.distance.totalKey, h.node)

lemma key_injective : Function.Injective key := by
  rintro ⟨n, d⟩ ⟨n', d'⟩ h
  obtain ⟨hd, hn⟩ := Prod.mk.inj (toLex.injective h)
  obtain rfl : d = d' := F32.totalKey_injective hd
  obtain rfl : n = n' := hn
  rfl

instance : LinearOrder Hit := LinearOrder.lift' key key_injective

end Hit

/-! ## The backend -/

/-- `ExactBackend`. -/
structure ExactBackend where
  dims : ℕ
  metric : VectorMetric
  vectors : Slots NodeId (List F32)

namespace ExactBackend

/-- `ExactBackend::new`. -/
def new (dims : ℕ) (opts : VectorIndexOptions) : ExactBackend := ⟨dims, opts.metric, .empty⟩

/-- Insert or replace the vector of a node. -/
def upsert (n : NodeId) (v : List F32) (b : ExactBackend) : Except VectorError ExactBackend :=
  if v.length ≠ b.dims then .error (.dimensionMismatch b.dims v.length)
  else .ok { b with vectors := b.vectors.upsert n v }

def remove (n : NodeId) (b : ExactBackend) : ExactBackend :=
  { b with vectors := b.vectors.remove n }

variable {b : ExactBackend} {q : List F32}

lemma upsert_ok {v : List F32} (hv : v.length = b.dims) (n : NodeId) :
    b.upsert n v = .ok { b with vectors := b.vectors.upsert n v } :=
  if_neg (not_not_intro hv)

/-- How many vectors the index holds. -/
def len (b : ExactBackend) : ℕ := b.vectors.entries.length

variable [Distance]

def hit (q : List F32) (metric : VectorMetric) (entry : NodeId × List F32) : Hit :=
  ⟨entry.1, Distance.exactDistance q entry.2 metric⟩

def ranking (b : ExactBackend) (q : List F32) (keep : NodeId → Bool) : List Hit :=
  ((b.vectors.entries.filter fun e => keep e.1).map (hit q b.metric)).insertionSort (· ≤ ·)

/-- `rank`. -/
def rank (b : ExactBackend) (q : List F32) (k : ℕ) (keep : NodeId → Bool) :
    Except VectorError (List Hit) :=
  if q.length ≠ b.dims then .error (.dimensionMismatch b.dims q.length)
  else if k = 0 then .ok []
  else .ok ((b.ranking q keep).take k)

/-- The `k` nearest nodes. -/
def search (b : ExactBackend) (q : List F32) (k : ℕ) : Except VectorError (List Hit) :=
  b.rank q k fun _ => true

/-- The `k` nearest nodes that satisfy a predicate. -/
def searchFiltered (b : ExactBackend) (q : List F32) (k : ℕ) (predicate : NodeId → Bool) :
    Except VectorError (List Hit) :=
  b.rank q k predicate

lemma rank_ok (hq : q.length = b.dims) (k : ℕ) (keep : NodeId → Bool) :
    b.rank q k keep = .ok ((b.ranking q keep).take k) := by
  unfold rank
  rw [if_neg (not_not_intro hq)]
  split
  · rename_i hk
    rw [hk, take_zero]
  · rfl

lemma rank_error (hq : q.length ≠ b.dims) (k : ℕ) (keep : NodeId → Bool) :
    b.rank q k keep = .error (.dimensionMismatch b.dims q.length) :=
  if_pos hq

lemma pairwise_ranking (b : ExactBackend) (q : List F32) (keep : NodeId → Bool) :
    (b.ranking q keep).Pairwise (· ≤ ·) :=
  pairwise_insertionSort _ _

lemma mem_ranking {keep : NodeId → Bool} {h : Hit} :
    h ∈ b.ranking q keep ↔ ∃ n v, b.vectors.get n = some v ∧ keep n ∧
    h = hit q b.metric (n, v) := by
  rw [ranking, (perm_insertionSort _ _).mem_iff, Slots.mem_map_filter]

/-- **Backends that agree on the kept nodes rank alike.** -/
theorem ranking_congr {b b' : ExactBackend} (hmetric : b.metric = b'.metric)
    {keep keep' : NodeId → Bool}
    (h : ∀ n v, b.vectors.get n = some v ∧ keep n ↔ b'.vectors.get n = some v ∧ keep' n)
    (q : List F32) : b.ranking q keep = b'.ranking q keep' := by
  have hperm := (Slots.filter_entries_perm h).map (hit q b.metric)
  apply List.Perm.eq_of_pairwise' (pairwise_ranking b q keep) (pairwise_ranking b' q keep')
  rw [ranking, ranking, ← hmetric]
  exact ((perm_insertionSort _ _).trans hperm).trans (perm_insertionSort _ _).symm

lemma filter_ranking (b : ExactBackend) (q : List F32) (keep live : NodeId → Bool) :
    (b.ranking q keep).filter (fun h => live h.node) =
      b.ranking q fun n => keep n && live n := by
  apply List.Perm.eq_of_pairwise' ((pairwise_ranking b q keep).filter _) (pairwise_ranking b q _)
  refine ((perm_insertionSort _ _).filter _).trans ?_
  refine List.Perm.trans ?_ (perm_insertionSort _ _).symm
  rw [filter_map, filter_filter]
  apply List.Perm.of_eq
  congr 2
  funext e
  exact Bool.and_comm _ _

end ExactBackend

end IssunDB.Vector
