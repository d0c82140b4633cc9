import IssunDB.Lib.Selection
import IssunDB.Vector.Restart

/-!
# The nearest live matches

Exact vector search over distances in any total order. The backend partitions at the `k`-th place
and sorts what is in front of it. Core deletions do not reach the index, so a search without filters
drops the hits of deleted nodes, and doubles its window until enough hits remain. All products
saturate.

* `ExactBackend.run_spec` — the backend after any sequence of upserts and removals;
* `windowLoop_ok` — the window search ends, and finds the nearest nodes that exist;
* `searchIndex_nearest` — what a search returns.
-/

namespace IssunDB.Vector

open List Option

/-! ## The backend -/

namespace ExactBackend

/-- An operation on the backend. -/
inductive Op where
  | upsert (n : NodeId) (v : List F32)
  | remove (n : NodeId)

/-- Perform an operation. An upsert that is refused changes nothing. -/
def Op.run : Op → ExactBackend → ExactBackend
  | .upsert n v, b => (b.upsert n v).toOption.getD b
  | .remove n, b => b.remove n

/-- Perform a sequence of operations. -/
def run (ops : List Op) (b : ExactBackend) : ExactBackend := ops.foldl (fun b op => op.run b) b

/-- The vector that a sequence of operations leaves for a node. -/
def Op.latest (dims : ℕ) (n : NodeId) (old : Option (List F32)) : Op → Option (List F32)
  | .upsert m v => if m = n ∧ v.length = dims then some v else old
  | .remove m => if m = n then none else old

lemma run_step (op : Op) (b : ExactBackend) :
    (op.run b).dims = b.dims ∧ (op.run b).metric = b.metric ∧
      ∀ n, (op.run b).vectors.get n = op.latest b.dims n (b.vectors.get n) := by
  cases op with
  | upsert m v =>
    by_cases hv : v.length = b.dims
    · have hrun : (Op.upsert m v).run b = { b with vectors := b.vectors.upsert m v } := by
        rw [Op.run, upsert_ok hv]
        rfl
      rw [hrun]
      refine ⟨rfl, rfl, fun n => ?_⟩
      rw [Op.latest, Slots.get_upsert]
      simp only [hv, and_true, eq_comm]
    · have hrun : (Op.upsert m v).run b = b := by
        rw [Op.run, ExactBackend.upsert, if_pos hv]
        rfl
      rw [hrun]
      refine ⟨rfl, rfl, fun n => ?_⟩
      rw [Op.latest, if_neg fun h => hv h.2]
  | remove m =>
    refine ⟨rfl, rfl, fun n => ?_⟩
    rw [Op.latest]
    exact (Slots.get_remove b.vectors m n).trans (if_congr eq_comm rfl rfl)

/-- **Every sequence of operations.** The slots are those of the entries, each node has one entry,
and the entries are the vectors that the sequence leaves. -/
theorem run_spec (ops : List Op) (dims : ℕ) (opts : VectorIndexOptions) :
    (run ops (.new dims opts)).dims = dims ∧ (run ops (.new dims opts)).metric = opts.metric ∧
      (∀ n i, (run ops (.new dims opts)).vectors.slot.get n = some i ↔
        ∃ v, (run ops (.new dims opts)).vectors.entries[i]? = some (n, v)) ∧
      ((run ops (.new dims opts)).vectors.entries.map Prod.fst).Nodup ∧
      ∀ n v, (n, v) ∈ (run ops (.new dims opts)).vectors.entries ↔
        ops.foldl (fun old op => op.latest dims n old) none = some v := by
  have hrun : ∀ (ops : List Op) (b : ExactBackend), (run ops b).dims = b.dims ∧
      (run ops b).metric = b.metric ∧ ∀ n, (run ops b).vectors.get n =
        ops.foldl (fun old op => op.latest b.dims n old) (b.vectors.get n) := by
    intro ops
    induction ops with
    | nil => exact fun b => ⟨rfl, rfl, fun _ => rfl⟩
    | cons op ops ih =>
      intro b
      obtain ⟨hdims, hmetric, hget⟩ := run_step op b
      obtain ⟨hdims', hmetric', hget'⟩ := ih (op.run b)
      refine ⟨hdims'.trans hdims, hmetric'.trans hmetric, fun n => ?_⟩
      rw [foldl_cons, ← hget, ← hdims]
      exact hget' n
  obtain ⟨hdims, hmetric, hget⟩ := hrun ops (.new dims opts)
  refine ⟨hdims, hmetric, fun n i => Slots.slot_iff _ n i, Slots.nodup_keys _, fun n v => ?_⟩
  rw [Slots.mem_entries_iff, hget]
  rfl

end ExactBackend

namespace Nearest

/-! ## Hits -/

/-- `exact_distance`, with values in any order. -/
class Metric (D : Type) where
  exactDistance : List F32 → List F32 → VectorMetric → D

/-- A result, with a distance in any order. -/
structure Hit (D : Type) where
  node : NodeId
  distance : D
  deriving DecidableEq

section Search

variable {D : Type} [LinearOrder D]

namespace Hit

/-- What hits are ranked by. -/
def key (h : Hit D) : D ×ₗ ℕ := toLex (h.distance, h.node)

omit [LinearOrder D] in
lemma key_injective : Function.Injective (key (D := D)) := by
  rintro ⟨n, d⟩ ⟨n', d'⟩ h
  obtain ⟨rfl, rfl⟩ := Prod.mk.inj (toLex.injective h)
  rfl

instance : LinearOrder (Hit D) := LinearOrder.lift' key key_injective

end Hit

/-! ## Search -/

variable [Metric D] (S : Selecting (Hit D))

def hit (q : List F32) (metric : VectorMetric) (entry : NodeId × List F32) : Hit D :=
  ⟨entry.1, Metric.exactDistance q entry.2 metric⟩

/-- `rank`. -/
def rank (b : ExactBackend) (q : List F32) (k : ℕ) (keep : NodeId → Bool) :
    Except VectorError (List (Hit D)) :=
  if q.length ≠ b.dims then .error (.dimensionMismatch b.dims q.length)
  else if k = 0 then .ok []
  else .ok (S.least k ((b.vectors.entries.filter fun e => keep e.1).map (hit q b.metric)))

/-- The `k` nearest neighbors that satisfy a predicate. -/
def searchFiltered (idx : VectorIndex) (q : List F32) (k : ℕ) (predicate : NodeId → Bool) :
    Except VectorError (List (Hit D)) :=
  match idx.inner with
  | .empty => .ok []
  | .ready index _ => rank S index q k predicate

/-- The `k` nearest neighbors. -/
def search (idx : VectorIndex) (q : List F32) (k : ℕ) : Except VectorError (List (Hit D)) :=
  searchFiltered S idx q k fun _ => true

/-- `usize::saturating_mul`. -/
def saturatingMul (a b : ℕ) : ℕ := min (a * b) (2 ^ 64 - 1)

/-- How many hits are fetched. -/
def fetchK (opts : VectorSearchOptions) : ℕ :=
  if 1 < opts.factor then saturatingMul opts.k opts.factor else opts.k

/-- The loop that widens the window, for at most `fuel` rounds. -/
def windowLoop (g : VectorGraph) (idx : VectorIndex) (q : List F32) (fetchK : ℕ) :
    ℕ → ℕ → Option (Except VectorError (List (Hit D)))
  | 0, _ => none
  | fuel + 1, want =>
    match search S idx q want with
    | .error e => some (.error e)
    | .ok raw =>
      let live := raw.filter fun hit => g.nodeExists hit.node
      if fetchK ≤ live.length ∨ raw.length < want then some (.ok live)
      else windowLoop g idx q fetchK fuel (saturatingMul want 2)

def fetchHits (g : VectorGraph) (idx : VectorIndex) (q : List F32) (opts : VectorSearchOptions)
    (fuel : ℕ) : Option (Except VectorError (List (Hit D))) :=
  if opts.hasFilters then some (searchFiltered S idx q (fetchK opts) (g.matchesFilters opts))
  else windowLoop S g idx q (fetchK opts) fuel (max (fetchK opts) 1)

/-- The distance of a hit to the stored vector of its node, if there is one. -/
def rescore (g : VectorGraph) (q : List F32) (metric : VectorMetric) (hit : Hit D) :
    Except VectorError (Hit D) :=
  match g.stored.get hit.node with
  | some bytes => (decodeVector bytes).map fun v => ⟨hit.node, Metric.exactDistance q v metric⟩
  | none => .ok hit

/-- Rank the hits by their distance to the stored vectors, if more were fetched for that. -/
def rescoreHits (g : VectorGraph) (idx : VectorIndex) (q : List F32) (opts : VectorSearchOptions)
    (hits : List (Hit D)) : Except VectorError (List (Hit D)) :=
  if 1 < opts.factor ∧ hits ≠ [] then (hits.mapM (rescore g q idx.opts.metric)).map S.sort
  else .ok hits

/-- The part of `vector_search_with` after the index is at hand. -/
def searchIndex (g : VectorGraph) (idx : VectorIndex) (q : List F32) (opts : VectorSearchOptions)
    (fuel : ℕ) : Option (Except VectorError (List (Hit D))) :=
  if idx.isEmpty then some (.error .emptyIndex)
  else (fetchHits S g idx q opts fuel).map fun fetched =>
    fetched.bind fun hits => (rescoreHits S g idx q opts hits).map (·.take opts.k)

/-- `vector_search_with`. -/
def vectorSearchWith (q : List F32) (opts : VectorSearchOptions) (fuel : ℕ) (g : VectorGraph) :
    Option (Except VectorError (List (Hit D))) :=
  match VectorGraph.getOrInitCache g with
  | (.error e, _) => some (.error e)
  | (.ok idx, g) => searchIndex S g idx q opts fuel

/-! ## Rankings -/

def ranking (b : ExactBackend) (q : List F32) (keep : NodeId → Bool) : List (Hit D) :=
  ((b.vectors.entries.filter fun e => keep e.1).map (hit q b.metric)).insertionSort (· ≤ ·)

variable {S} {b : ExactBackend} {q : List F32} {keep : NodeId → Bool}

lemma rank_ok (hq : q.length = b.dims) (k : ℕ) :
    rank S b q k keep = .ok ((ranking b q keep).take k) := by
  unfold rank
  rw [if_neg (not_not_intro hq)]
  split
  next hk => rw [hk, take_zero]
  next hk => rw [S.least_eq (Nat.pos_of_ne_zero hk), ranking]

lemma pairwise_ranking (b : ExactBackend) (q : List F32) (keep : NodeId → Bool) :
    (ranking (D := D) b q keep).Pairwise (· ≤ ·) :=
  pairwise_insertionSort _ _

lemma mem_ranking {h : Hit D} :
    h ∈ ranking b q keep ↔ ∃ n v, b.vectors.get n = some v ∧ keep n ∧
    h = hit q b.metric (n, v) := by
  rw [ranking, (perm_insertionSort _ _).mem_iff, Slots.mem_map_filter]

lemma nodup_ranking (b : ExactBackend) (q : List F32) (keep : NodeId → Bool) :
    ((ranking (D := D) b q keep).map Hit.node).Nodup := by
  refine (((perm_insertionSort _ _).map Hit.node).nodup_iff).mpr ?_
  rw [List.map_map]
  exact b.vectors.nodup_keys.sublist (filter_sublist.map Prod.fst)

lemma filter_ranking (b : ExactBackend) (q : List F32) (keep live : NodeId → Bool) :
    (ranking (D := D) b q keep).filter (fun h => live h.node) =
      ranking b q fun n => keep n && live n := by
  refine List.Perm.eq_of_pairwise' ((pairwise_ranking b q keep).filter _)
    (pairwise_ranking b q _) ?_
  refine ((perm_insertionSort _ _).filter _).trans
    (List.Perm.trans (List.Perm.of_eq ?_) (perm_insertionSort _ _).symm)
  rw [List.filter_map, List.filter_filter]
  congr 2
  funext e
  exact Bool.and_comm _ _

lemma length_ranking_true (b : ExactBackend) (q : List F32) :
    (ranking (D := D) b q fun _ => true).length = b.len := by
  rw [ranking, length_insertionSort, length_map, filter_true, ExactBackend.len]

/-! ## The window -/

variable {g : VectorGraph} {idx : VectorIndex} {d : ℕ}

/-- **The window search ends**, as the window doubles until it is longer than the index, and finds
the nearest nodes that exist. -/
theorem windowLoop_ok (hinner : idx.inner = .ready b d) (hq : q.length = b.dims)
    (hlen : b.len < 2 ^ 64 - 1) (fetchK : ℕ) {want fuel : ℕ} (hwant : 0 < want)
    (hfuel : b.len < want * 2 ^ fuel) :
    ∃ m, min fetchK b.len ≤ m ∧ windowLoop S g idx q fetchK (fuel + 1) want =
      some (.ok ((ranking b q g.nodeExists).take m)) := by
  have hraw : ∀ want, search S idx q want = .ok ((ranking b q fun _ => true).take want) := by
    intro want
    unfold search searchFiltered
    rw [hinner]
    exact rank_ok hq want
  induction fuel generalizing want with
  | zero =>
    -- The window is longer than the index.
    rw [windowLoop, hraw]
    dsimp only
    rw [pow_zero, mul_one] at hfuel
    have hall : (ranking (D := D) b q fun _ => true).take want = ranking b q fun _ => true :=
      take_of_length_le (by rw [length_ranking_true]; omega)
    rw [hall, if_pos (.inr (by rw [length_ranking_true]; exact hfuel)), filter_ranking]
    refine ⟨max (min fetchK b.len) (ranking (D := D) b q g.nodeExists).length, le_max_left _ _, ?_⟩
    rw [take_of_length_le (le_max_right _ _)]
    simp only [Bool.true_and]
  | succ fuel ih =>
    rw [windowLoop, hraw]
    dsimp only
    split
    next hstop =>
      have hprefix := (List.take_prefix want (ranking (D := D) b q fun _ => true)).filter
        fun h => g.nodeExists h.node
      rw [filter_ranking] at hprefix
      simp only [Bool.true_and] at hprefix
      rcases hstop with henough | hshort
      · exact ⟨_, (min_le_left _ _).trans henough,
          congrArg (fun hits => some (Except.ok hits)) (prefix_iff_eq_take.mp hprefix)⟩
      · have hall : (ranking (D := D) b q fun _ => true).take want = ranking b q fun _ => true := by
          rw [length_take] at hshort
          exact take_of_length_le (by omega)
        rw [hall, filter_ranking]
        refine ⟨max (min fetchK b.len) (ranking (D := D) b q g.nodeExists).length,
          le_max_left _ _, ?_⟩
        rw [take_of_length_le (le_max_right _ _)]
        simp only [Bool.true_and]
    next =>
      refine @ih (saturatingMul want 2) (lt_min (by omega) (by norm_num)) ?_
      -- A window that saturates is longer than the index.
      unfold saturatingMul
      rcases le_total (want * 2) (2 ^ 64 - 1) with hle | hge
      · rw [min_eq_left hle, mul_assoc, ← pow_succ']
        exact hfuel
      · rw [min_eq_right hge]
        exact hlen.trans_le (Nat.le_mul_of_pos_right _ (Nat.two_pow_pos fuel))

/-! ## Rescoring -/

/-- The stored vectors of live nodes are those that the index holds for them. -/
def Agrees (g : VectorGraph) (b : ExactBackend) : Prop :=
  ∀ n v bytes, g.nodeExists n → b.vectors.get n = some v → g.stored.get n = some bytes →
    decodeVector bytes = .ok v

/-- An index that fits a graph agrees with it. -/
theorem agrees_of_fits {d' : ℕ} (h : g.Fits d idx) (hinner : idx.inner = .ready b d') :
    Agrees g b := by
  intro n v bytes hlive hget hbytes
  have hentry := h.entry n hlive
  unfold VectorIndex.entry VectorGraph.embedding at hentry
  rw [hinner, hbytes, bind_some] at hentry
  replace hentry : some v = (decodeVector bytes).toOption := hget.symm.trans hentry
  rcases hdecode : decodeVector bytes with e | v'
  · rw [hdecode] at hentry
    cases hentry
  · rw [hdecode] at hentry
    rw [some.inj hentry]

/-- Rescoring finds the distances of the index again. -/
theorem mapM_rescore (h : Agrees g b) {hits : List (Hit D)}
    (hhits : ∀ h ∈ hits, h ∈ ranking b q g.nodeExists) :
    hits.mapM (rescore g q b.metric) = .ok hits := by
  induction hits with
  | nil => rfl
  | cons first hits ih =>
    obtain ⟨n, v, hget, hlive, rfl⟩ := mem_ranking.mp (hhits first mem_cons_self)
    have hone : rescore g q b.metric (hit (D := D) q b.metric (n, v)) =
        .ok (hit q b.metric (n, v)) := by
      unfold rescore
      rw [show (hit (D := D) q b.metric (n, v)).node = n from rfl]
      split
      next bytes hbytes =>
        rw [h n v bytes hlive hget hbytes]
        rfl
      next => rfl
    rw [mapM_cons, hone, ih fun h hmem => hhits h (mem_cons_of_mem _ hmem)]
    rfl

lemma rescoreHits_ok {opts : VectorSearchOptions} (hmetric : idx.opts.metric = b.metric)
    (hagrees : 1 < opts.factor → Agrees g b) {hits : List (Hit D)} (hsorted : hits.Pairwise (· ≤ ·))
    (hhits : ∀ h ∈ hits, h ∈ ranking b q g.nodeExists) :
    rescoreHits S g idx q opts hits = .ok hits := by
  unfold rescoreHits
  split
  next hrescore =>
    rw [hmetric, mapM_rescore (hagrees hrescore.1) hhits]
    exact congrArg Except.ok ((S.sort_eq hits).trans hsorted.insertionSort_eq)
  next => rfl

/-! ## The result -/

/-- The nodes of the index that are kept. -/
def matching (b : ExactBackend) (keep : NodeId → Bool) : Finset NodeId :=
  (b.vectors.entries.map Prod.fst).toFinset.filter fun n => keep n

def distanceTo (b : ExactBackend) (q : List F32) (n : NodeId) : Option D :=
  (b.vectors.get n).map fun v => Metric.exactDistance q v b.metric

omit [Metric D] in
/-- The `k` nearest of some nodes, nearest first and each once. -/
structure NearestK (k : ℕ) (distance : NodeId → Option D) (all : Finset NodeId)
    (hits : List (Hit D)) :
    Prop where
  length : hits.length = min k all.card
  measured : ∀ h ∈ hits, h.node ∈ all ∧ distance h.node = some h.distance
  nodup : (hits.map Hit.node).Nodup
  ascending : hits.Pairwise (· < ·)
  nearest : ∀ n ∈ all, n ∉ hits.map Hit.node → ∀ d, distance n = some d → ∀ h ∈ hits, h < ⟨n, d⟩

lemma mem_matching {n : NodeId} : n ∈ matching b keep ↔ (b.vectors.get n).isSome ∧ keep n := by
  rw [matching, Finset.mem_filter, List.mem_toFinset, List.mem_map, isSome_iff_exists]
  refine and_congr_left fun _ => ⟨?_, ?_⟩
  · rintro ⟨⟨n, v⟩, hmem, rfl⟩
    exact ⟨v, Slots.mem_entries_iff.mp hmem⟩
  · rintro ⟨v, hget⟩
    exact ⟨(n, v), Slots.mem_entries_iff.mpr hget, rfl⟩

/-- **The first hits of a ranking are the nearest.** -/
theorem nearestK_take_ranking (b : ExactBackend) (q : List F32) (keep : NodeId → Bool) (k : ℕ) :
    NearestK k (distanceTo (D := D) b q) (matching b keep) ((ranking b q keep).take k) := by
  have hnodes : ((ranking (D := D) b q keep).map Hit.node).toFinset = matching b keep := by
    ext n
    rw [List.mem_toFinset, List.mem_map, mem_matching, isSome_iff_exists]
    constructor
    · rintro ⟨h, hmem, rfl⟩
      obtain ⟨n, v, hget, hkeep, rfl⟩ := mem_ranking.mp hmem
      exact ⟨⟨v, hget⟩, hkeep⟩
    · rintro ⟨⟨v, hget⟩, hkeep⟩
      exact ⟨hit q b.metric (n, v), mem_ranking.mpr ⟨n, v, hget, hkeep, rfl⟩, rfl⟩
  have hnodup := nodup_ranking (D := D) b q keep
  have hascending : (ranking (D := D) b q keep).Pairwise (· < ·) :=
    ((pairwise_ranking b q keep).and (List.Nodup.of_map _ hnodup)).imp
      fun h => lt_of_le_of_ne h.1 h.2
  refine ⟨?_, fun h hmem => ?_, hnodup.sublist ((take_sublist _ _).map _),
    hascending.sublist (take_sublist _ _), fun n hn hout d hd h hmem => ?_⟩
  · rw [length_take, ← hnodes, toFinset_card_of_nodup hnodup, length_map]
  · obtain ⟨n, v, hget, hkeep, rfl⟩ := mem_ranking.mp (mem_of_mem_take hmem)
    refine
      ⟨mem_matching.mpr ⟨by rw [show (hit (D := D) q b.metric (n, v)).node = n from rfl, hget]; rfl,
      hkeep⟩, ?_⟩
    unfold distanceTo
    rw [show (hit (D := D) q b.metric (n, v)).node = n from rfl, hget]
    rfl
  · -- An omitted node is ranked behind the hits.
    obtain ⟨⟨v, hget⟩, hkeep⟩ := (mem_matching.mp hn).imp_left isSome_iff_exists.mp
    have hvalue : d = Metric.exactDistance q v b.metric := by
      unfold distanceTo at hd
      rw [hget] at hd
      exact (some.inj hd).symm
    have hranked : (⟨n, d⟩ : Hit D) ∈ ranking b q keep :=
      mem_ranking.mpr ⟨n, v, hget, hkeep, by rw [hvalue]; rfl⟩
    rw [← take_append_drop k (ranking b q keep)] at hranked hascending
    rcases mem_append.mp hranked with htake | hdrop
    · exact absurd (List.mem_map_of_mem htake) hout
    · exact (pairwise_append.mp hascending).2.2 h hmem _ hdrop

/-- What a search keeps: the nodes that exist and satisfy the filters. -/
def keeps (g : VectorGraph) (opts : VectorSearchOptions) (n : NodeId) : Bool :=
  g.nodeExists n && g.matchesFilters opts n

/-- The two paths of a search keep the same. -/
theorem keeps_eq (hsound : g.graph.storage.Sound) (opts : VectorSearchOptions) :
    g.keeps opts = keeps g opts := by
  funext n
  have hexists : g.keeps opts n = true → g.nodeExists n = true :=
    VectorGraph.nodeExists_of_keeps hsound
  unfold VectorGraph.keeps at hexists ⊢
  unfold keeps
  split
  next hfilters =>
    rw [if_pos hfilters] at hexists
    cases hmatch : g.matchesFilters opts n with
    | false => exact (Bool.and_false _).symm
    | true => rw [hexists hmatch, Bool.true_and]
  next hnone =>
    -- Without filters every node satisfies them.
    have hall : g.matchesFilters opts n = true := by
      unfold VectorGraph.matchesFilters
      unfold VectorSearchOptions.hasFilters at hnone
      rw [Bool.or_eq_true, not_or] at hnone
      obtain ⟨hlabel, hproperties⟩ := hnone
      rw [not_isSome_iff_eq_none.mp hlabel, all_none, Bool.true_and]
      rcases hp : opts.properties with _ | filters
      · rfl
      · rw [hp, any_some] at hproperties
        obtain rfl : filters = [] := by simpa using hproperties
        rfl
    rw [hall, Bool.and_true]

lemma fetchHits_ok (hsound : g.graph.storage.Sound) (hinner : idx.inner = .ready b d)
    (hq : q.length = b.dims) (hlen : b.len < 2 ^ 64 - 1) (opts : VectorSearchOptions) {fuel : ℕ}
    (hfuel : b.len < fuel) :
    ∃ m, min opts.k b.len ≤ m ∧ fetchHits S g idx q opts fuel =
      some (.ok ((ranking b q (keeps g opts)).take m)) := by
  have hk : min opts.k b.len ≤ min (fetchK opts) b.len := by
    unfold fetchK saturatingMul
    split
    next hfactor =>
      have hmul : opts.k ≤ opts.k * opts.factor := Nat.le_mul_of_pos_right _ (by omega)
      omega
    next => exact le_refl _
  rw [← keeps_eq hsound]
  unfold fetchHits
  split
  next hfilters =>
    have hkeeps : g.keeps opts = g.matchesFilters opts := funext fun n => if_pos hfilters
    refine ⟨fetchK opts, hk.trans (min_le_left _ _), ?_⟩
    rw [hkeeps]
    unfold searchFiltered
    rw [hinner]
    exact congrArg some (rank_ok hq _)
  next hfilters =>
    have hkeeps : g.keeps opts = g.nodeExists := funext fun n => if_neg hfilters
    obtain ⟨rounds, rfl⟩ : ∃ rounds, fuel = rounds + 1 := ⟨fuel - 1, by omega⟩
    have hwide : b.len < max (fetchK opts) 1 * 2 ^ rounds := by
      calc b.len ≤ rounds := Nat.lt_succ_iff.mp hfuel
        _ < 2 ^ rounds := Nat.lt_two_pow_self
        _ ≤ max (fetchK opts) 1 * 2 ^ rounds := Nat.le_mul_of_pos_left _ (by omega)
    rw [hkeeps]
    obtain ⟨m, hm, hloop⟩ := windowLoop_ok (S := S) (g := g) hinner hq hlen (fetchK opts)
      (lt_max_of_lt_right one_pos) hwide
    exact ⟨m, hk.trans hm, hloop⟩

/-- **What a search returns.** -/
theorem searchIndex_nearest (hsound : g.graph.storage.Sound) (hinner : idx.inner = .ready b d)
    (hmetric : idx.opts.metric = b.metric) (hne : b.vectors.entries ≠ []) (hq : q.length = b.dims)
    (hlen : b.len < 2 ^ 64 - 1) {opts : VectorSearchOptions} (hagrees : 1 < opts.factor →
        Agrees g b)
    {fuel : ℕ} (hfuel : b.len < fuel) :
    ∃ hits : List (Hit D), searchIndex S g idx q opts fuel = some (.ok hits) ∧
      NearestK opts.k (distanceTo b q) (matching b (keeps g opts)) hits := by
  have hnonempty : idx.isEmpty = false := by
    unfold VectorIndex.isEmpty
    rw [hinner]
    exact decide_eq_false fun hzero => hne (length_eq_zero_iff.mp hzero)
  obtain ⟨m, hm, hfetch⟩ := fetchHits_ok (S := S) hsound hinner hq hlen opts hfuel
  have hrescore : rescoreHits S g idx q opts ((ranking b q (keeps g opts)).take m) =
      .ok ((ranking b q (keeps g opts)).take m) := by
    refine rescoreHits_ok hmetric hagrees ((pairwise_ranking b q _).sublist (take_sublist _ _))
      fun h hmem => ?_
    obtain ⟨n, v, hget, hkeep, rfl⟩ := mem_ranking.mp (mem_of_mem_take hmem)
    exact mem_ranking.mpr ⟨n, v, hget, (Bool.and_eq_true_iff.mp hkeep).1, rfl⟩
  refine ⟨(ranking b q (keeps g opts)).take opts.k, ?_, nearestK_take_ranking b q _ _⟩
  have hcut : ((ranking (D := D) b q (keeps g opts)).take m).take opts.k =
      (ranking b q (keeps g opts)).take opts.k := by
    have hshort : (ranking (D := D) b q (keeps g opts)).length ≤ b.len := by
      rw [ranking, length_insertionSort, length_map]
      exact length_filter_le _ _
    rw [take_take, take_eq_take_iff]
    omega
  unfold searchIndex
  rw [hnonempty, if_neg Bool.false_ne_true, hfetch, map_some]
  change some (Except.map _ (rescoreHits S g idx q opts _)) = _
  rw [hrescore]
  exact congrArg (fun hits => some (Except.ok hits)) hcut

variable [TextLib]

/-- The index in memory agrees with every graph that exact calls reach. -/
theorem agrees_run [Distance] (ops : List VectorGraph.Op) (hexact : VectorGraph.Exact ops .empty)
    (hcache : (VectorGraph.run ops .empty).cache = some idx) (hinner : idx.inner = .ready b d) :
    Agrees (VectorGraph.run ops .empty) b := by
  obtain ⟨d', hd⟩ := VectorGraph.consistent_empty.run hexact
  exact agrees_of_fits (hd.cache idx hcache) hinner

/-- **Exact vector search.** After any sequence of upserts and removals every node of the index has
one entry, at its slot, with the vector that the sequence leaves for it. A search over any reached
graph ends and returns the nearest of the nodes that still exist and satisfy the filters. -/
theorem vectorSearchWith_nearest (S : Selecting (Hit D)) (ops : List ExactBackend.Op) (dims : ℕ)
    (indexOpts : VectorIndexOptions) (actions : List Graph.Action) (config : Option (List UInt8)) :
    let b := ExactBackend.run ops (.new dims indexOpts)
    let g : VectorGraph := ⟨Graph.run actions .empty, config, some ⟨indexOpts, .ready b dims⟩⟩
    ((∀ n i, b.vectors.slot.get n = some i ↔ ∃ v, b.vectors.entries[i]? = some (n, v)) ∧
      (b.vectors.entries.map Prod.fst).Nodup ∧
      ∀ n v, (n, v) ∈ b.vectors.entries ↔
        ops.foldl (fun old op => op.latest dims n old) none = some v) ∧
    (b.vectors.entries ≠ [] → b.len < 2 ^ 64 - 1 → ∀ q, q.length = dims →
    ∀ opts : VectorSearchOptions,
      (1 < opts.factor → Agrees g b) → ∀ fuel, b.len < fuel →
        ∃ hits, vectorSearchWith S q opts fuel g = some (.ok hits) ∧
          NearestK opts.k (distanceTo b q) (matching b (keeps g opts)) hits) := by
  intro b g
  obtain ⟨hdims, hmetric, hspec⟩ := ExactBackend.run_spec ops dims indexOpts
  refine ⟨hspec, fun hne hlen q hq opts hagrees fuel hfuel => ?_⟩
  exact searchIndex_nearest (S := S) (g := g) (Graph.sound_run actions) rfl hmetric.symm hne
    (hq.trans hdims.symm) hlen
    hagrees hfuel

end Search

section Example

attribute [local instance] TextLib.ascii

@[reducible]
def Metric.firstComponent : Metric ℤ :=
  ⟨fun q v _ => |((q.headD 0).toNat : ℤ) - ((v.headD 0).toNat : ℤ)|⟩

attribute [local instance] Metric.firstComponent

/-- Three nodes with vectors, the nearest of which is deleted. -/
def ghosted : List Graph.Action :=
  [.mutation (.addNode "A" ⟨.object [], Json.wellFormed_empty⟩) (.ok ()),
    .mutation (.addNode "A" ⟨.object [], Json.wellFormed_empty⟩) (.ok ()),
    .mutation (.addNode "A" ⟨.object [], Json.wellFormed_empty⟩) (.ok ()),
    .mutation (.putVectorBytes 0 [9, 0, 0, 0]) (.ok ()),
    .mutation (.putVectorBytes 2 [6, 0, 0, 0]) (.ok ()), .mutation (.deleteNode 1) (.ok ())]

/-- The vectors of the three nodes. -/
def ghostedOps : List ExactBackend.Op :=
  [.upsert 0 [7], .upsert 1 [5], .upsert 3 [8], .upsert 2 [6], .remove 3, .upsert 0 [9]]

lemma agrees_ghosted : Agrees ⟨Graph.run ghosted .empty, none, some ⟨.default, .ready
    (ExactBackend.run ghostedOps (.new 1 .default)) 1⟩⟩
      (ExactBackend.run ghostedOps (.new 1 .default)) := by
  have hall : ∀ e ∈ (ExactBackend.run ghostedOps (.new 1 .default)).vectors.entries,
      ((Graph.run ghosted .empty).storage.tables.vectors.get e.1).all
        (fun bytes => decide (decodeVector bytes = .ok e.2)) = true := by
    decide +kernel
  intro n v bytes _ hget hbytes
  have hone := hall (n, v) (Slots.mem_entries_iff.mpr hget)
  change ((Graph.run ghosted .empty).storage.tables.vectors.get n) = some bytes at hbytes
  rw [hbytes] at hone
  exact of_decide_eq_true hone

/-- The two nodes that are left are found, with rescoring. -/
theorem vectorSearchWith_nearest_ghosted :
    ∃ hits, vectorSearchWith (.sorting (Hit ℤ)) [5] ⟨2, none, none, some 2⟩ 4
        ⟨Graph.run ghosted .empty, none, some ⟨.default, .ready
          (ExactBackend.run ghostedOps (.new 1 .default)) 1⟩⟩ = some (.ok hits) ∧
      hits.length = 2 := by
  obtain ⟨hits, hrun, hk⟩ := (vectorSearchWith_nearest (.sorting (Hit ℤ)) ghostedOps 1 .default
    ghosted none).2 (by decide +kernel) (by decide +kernel) [5] rfl ⟨2, none, none, some 2⟩
      (fun _ => agrees_ghosted) 4 (by decide +kernel)
  refine ⟨hits, hrun, ?_⟩
  rw [hk.length]
  decide +kernel

end Example

end Nearest

end IssunDB.Vector
