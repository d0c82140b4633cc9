import IssunDB.Vector.Index

/-!
# What the index in memory mirrors

An index fits a graph when it holds the stored embedding of every node that exists. What it holds
for other nodes is free, and so is the order of its entries: an index that was kept up since the
database was created fits, and so does one that was just built from the stored bytes.

* `VectorGraph.buildIndex_fits` — an index built from the stored bytes fits;
* `Fits.searchIndex_eq`, `Fits.upsert_eq` — two indexes that fit answer alike.
-/

namespace IssunDB.Vector

open List Option

namespace VectorIndex

/-- The embedding an index holds for a node. -/
def entry (idx : VectorIndex) (n : NodeId) : Option (List F32) :=
  match idx.inner with
  | .empty => none
  | .ready index _ => index.vectors.get n

/-- The vectors of an index, if it holds any, have `d` components. -/
def Sized (d : ℕ) (idx : VectorIndex) : Prop :=
  match idx.inner with
  | .empty => True
  | .ready index dims => dims = d ∧ index.dims = d ∧ index.metric = idx.opts.metric

/-- The index has never held a vector. -/
def Unused (idx : VectorIndex) : Prop := idx.inner = .empty

@[simp]
lemma sized_new (d : ℕ) (opts : VectorIndexOptions) : (new opts).Sized d := trivial

@[simp]
lemma entry_new (opts : VectorIndexOptions) (n : NodeId) : (new opts).entry n = none := rfl

variable {idx : VectorIndex} {d : ℕ}

lemma Unused.sized (h : idx.Unused) (d : ℕ) : idx.Sized d := by
  unfold Sized
  rw [show idx.inner = .empty from h]
  trivial

lemma Unused.entry_eq_none (h : idx.Unused) (n : NodeId) :
    idx.entry n = none := by
  unfold entry
  rw [show idx.inner = .empty from h]

/-- An index that was used is over a backend. -/
theorem exists_ready (hsized : idx.Sized d) (h : ¬ idx.Unused) :
    ∃ index : ExactBackend, idx.inner = .ready index d ∧ index.dims = d ∧
      index.metric = idx.opts.metric := by
  rcases hinner : idx.inner with _ | ⟨index, dims⟩
  · exact absurd hinner h
  · unfold Sized at hsized
    rw [hinner] at hsized
    obtain ⟨rfl, hdims, hmetric⟩ := hsized
    exact ⟨index, rfl, hdims, hmetric⟩

lemma entry_ready {index : ExactBackend} (h : idx.inner = .ready index d) (n : NodeId) :
    idx.entry n = index.vectors.get n := by
  unfold entry
  rw [h]

/-- An embedding of the right dimension is accepted. -/
theorem upsert_spec (hsized : idx.Sized d) (n : NodeId) {v : List F32} (hd : 0 < d)
    (hv : v.length = d) :
    ∃ idx', idx.upsert n v = .ok idx' ∧ idx'.Sized d ∧ idx'.opts = idx.opts ∧ ¬ idx'.Unused ∧
      ∀ m, idx'.entry m = if m = n then some v else idx.entry m := by
  have hne : v.length ≠ 0 := by omega
  by_cases hunused : idx.Unused
  · -- The first embedding fixes the dimension.
    refine ⟨{ idx with inner := .ready { ExactBackend.new v.length idx.opts with
      vectors := (ExactBackend.new v.length idx.opts).vectors.upsert n v } v.length }, ?_,
      ⟨hv, hv, rfl⟩, rfl, ?_, fun m => ?_⟩
    · unfold upsert
      rw [if_neg hne, show idx.inner = .empty from hunused]
      dsimp only
      rw [ExactBackend.upsert_ok (b := ExactBackend.new v.length idx.opts) rfl]
      rfl
    · intro h
      cases h
    · rw [hunused.entry_eq_none]
      show (Slots.empty.upsert n v).get m = _
      rw [Slots.get_upsert]
      rfl
  · obtain ⟨index, hinner, hdims, hmetric⟩ := exists_ready hsized hunused
    refine ⟨{ idx with inner := .ready { index with vectors := index.vectors.upsert n v } d }, ?_,
      ⟨rfl, hdims, hmetric⟩, rfl, ?_, fun m => ?_⟩
    · unfold upsert
      rw [if_neg hne, hinner]
      dsimp only
      rw [if_neg (not_not_intro hv), ExactBackend.upsert_ok (hv.trans hdims.symm)]
      rfl
    · intro h
      cases h
    · rw [entry_ready hinner]
      exact Slots.get_upsert index.vectors n m v

/-- An embedding of another dimension is refused by an index in use. -/
theorem upsert_mismatch (hsized : idx.Sized d) (h : ¬ idx.Unused) (n : NodeId) {v : List F32}
    (hne : v.length ≠ 0) (hv : v.length ≠ d) :
    idx.upsert n v = .error (.dimensionMismatch d v.length) := by
  obtain ⟨index, hinner, -, -⟩ := exists_ready hsized h
  unfold upsert
  rw [if_neg hne, hinner]
  exact if_pos hv

/-- A removal forgets one node. -/
theorem remove_spec (hsized : idx.Sized d) (n : NodeId) :
    (idx.remove n).Sized d ∧ (idx.remove n).opts = idx.opts ∧
      ((idx.remove n).Unused ↔ idx.Unused) ∧
      ∀ m, (idx.remove n).entry m = if m = n then none else idx.entry m := by
  by_cases hunused : idx.Unused
  · have hremove : idx.remove n = idx := by
      unfold remove
      rw [show idx.inner = .empty from hunused]
    rw [hremove]
    refine ⟨hsized, rfl, Iff.rfl, fun m => ?_⟩
    rw [hunused.entry_eq_none, ite_self]
  · obtain ⟨index, hinner, hdims, hmetric⟩ := exists_ready hsized hunused
    have hremove : idx.remove n = { idx with inner := .ready (index.remove n) d } := by
      unfold remove
      rw [hinner]
    rw [hremove]
    refine ⟨⟨rfl, hdims, hmetric⟩, rfl, ⟨fun h => ?_, fun h => absurd h hunused⟩, fun m => ?_⟩
    · cases h
    · rw [entry_ready hinner]
      exact Slots.get_remove index.vectors n m

end VectorIndex

/-! ## Stored embeddings -/

namespace VectorGraph

def embedding (g : VectorGraph) (n : NodeId) : Option (List F32) :=
  (g.stored.get n).bind fun bytes => (decodeVector bytes).toOption

/-- Every stored embedding is that of a node that exists and has `d` components. -/
def Embeds (g : VectorGraph) (d : ℕ) : Prop :=
  ∀ n bytes, g.stored.get n = some bytes →
    g.nodeExists n ∧ ∃ v, decodeVector bytes = .ok v ∧ v.length = d

variable {g : VectorGraph} {d : ℕ}

variable {n : NodeId} {idx : VectorIndex} {opts : VectorIndexOptions} {index : ExactBackend}
  {q : List F32}

lemma Embeds.embedding_iff (h : g.Embeds d) :
    (g.embedding n).isSome ↔ (g.stored.get n).isSome := by
  unfold embedding
  rcases hget : g.stored.get n with _ | bytes
  · rfl
  · obtain ⟨-, v, hv, -⟩ := h n bytes hget
    simp [hv, Except.toOption]

/-- An index fits a graph: it has the effective options, it has been used iff an embedding is
stored, it holds the stored embedding of every node that exists, and nothing for a node to come. -/
structure Fits (g : VectorGraph) (d : ℕ) (idx : VectorIndex) : Prop where
  opts : g.effectiveConfig = .ok idx.opts
  sized : idx.Sized d
  unused_iff : idx.Unused ↔ ∀ n, g.stored.get n = none
  entry : ∀ n, g.nodeExists n → idx.entry n = g.embedding n
  bounded : ∀ n, g.graph.storage.tables.metaDb.nextNode ≤ n → idx.entry n = none

/-! ## Building -/

/-- What a build has read so far. -/
structure Built (g : VectorGraph) (d : ℕ) (opts : VectorIndexOptions)
    (l : List (NodeId × List UInt8))
    (idx : VectorIndex) : Prop where
  opts : idx.opts = opts
  sized : idx.Sized d
  unused_iff : idx.Unused ↔ l = []
  entry : ∀ n, idx.entry n = if n ∈ l.map Prod.fst then g.embedding n else none

/-- **Build step.** -/
theorem Built.step {l : List (NodeId × List UInt8)} (h : Built g d opts l idx) (hd : 0 < d)
    (hembeds : g.Embeds d) {bytes : List UInt8} (hget : g.stored.get n = some bytes) :
    ∃ v idx', decodeVector bytes = .ok v ∧ idx.upsert n v = .ok idx' ∧
      Built g d opts (l ++ [(n, bytes)]) idx' := by
  obtain ⟨-, v, hv, hlen⟩ := hembeds n bytes hget
  obtain ⟨idx', hup, hsized, hopts, hused, hentry⟩ := VectorIndex.upsert_spec h.sized n hd hlen
  refine ⟨v, idx', hv, hup, hopts.trans h.opts, hsized, ?_, fun m => ?_⟩
  · simp [hused]
  · rw [hentry, h.entry, map_append, map_singleton]
    by_cases hm : m = n
    · have hstored : g.embedding n = some v := by
        unfold embedding
        rw [hget, bind_some, hv]
        rfl
      rw [if_pos hm, if_pos (by simp [hm]), hm, hstored]
    · rw [if_neg hm]
      simp only [mem_append, mem_singleton, hm, or_false]

/-- **Build run.** -/
theorem Built.run (hd : 0 < d) (hembeds : g.Embeds d) (rest : List (NodeId × List UInt8))
    (hrest : ∀ e ∈ rest, g.stored.get e.1 = some e.2) :
    ∀ {l : List (NodeId × List UInt8)} {idx : VectorIndex}, Built g d opts l idx →
      ∃ idx', rest.foldlM (fun idx entry => do
          let v ← decodeVector entry.2
          idx.upsert entry.1 v) idx = .ok idx' ∧ Built g d opts (l ++ rest) idx' := by
  induction rest with
  | nil =>
    intro l idx h
    exact ⟨idx, rfl, by rwa [append_nil]⟩
  | cons e rest ih =>
    intro l idx h
    obtain ⟨v, idx₁, hv, hup, h₁⟩ := h.step hd hembeds (hrest e mem_cons_self)
    obtain ⟨idx', hfold, h'⟩ := ih (fun e he => hrest e (mem_cons_of_mem _ he)) h₁
    refine ⟨idx', ?_, by rwa [append_cons]⟩
    rw [foldlM_cons, hv]
    show idx.upsert e.1 v >>= _ = _
    rw [hup]
    exact hfold

/-- **An index built from the stored bytes fits.** -/
theorem buildIndex_fits (hd : 0 < d) (hembeds : g.Embeds d)
    (hlt : ∀ n, g.nodeExists n → n < g.graph.storage.tables.metaDb.nextNode)
    (hopts : g.effectiveConfig = .ok opts) :
    ∃ idx, g.buildIndex opts = .ok idx ∧ g.Fits d idx := by
  have hnil : Built g d opts [] (.new opts) :=
    ⟨rfl, VectorIndex.sized_new d opts, ⟨fun _ => rfl, fun _ => rfl⟩, fun _ => rfl⟩
  obtain ⟨idx, hbuild, hbuilt⟩ := Built.run hd hembeds g.stored.toList
    (fun e he => Table.mem_toList.mp he) hnil
  rw [nil_append] at hbuilt
  have hmem : ∀ n, n ∈ g.stored.toList.map Prod.fst ↔ (g.stored.get n).isSome := by
    intro n
    rw [Table.map_fst_toList, Finset.mem_ascending, Table.mem_keys]
  have hentry : ∀ n, idx.entry n = g.embedding n := by
    intro n
    rw [hbuilt.entry]
    split
    · rfl
    next hnot =>
      rw [hmem, ← hembeds.embedding_iff, not_isSome_iff_eq_none] at hnot
      exact hnot.symm
  refine ⟨idx, hbuild, hopts.trans (congrArg Except.ok hbuilt.opts.symm), hbuilt.sized, ?_,
    fun n _ => hentry n, fun n hn => ?_⟩
  · rw [hbuilt.unused_iff, eq_nil_iff_forall_not_mem]
    constructor
    · intro h n
      rw [eq_none_iff_forall_ne_some]
      intro bytes hget
      exact h (n, bytes) (Table.mem_toList.mpr hget)
    · rintro h ⟨n, bytes⟩ hin
      rw [Table.mem_toList, h n] at hin
      cases hin
  · rw [hentry, ← not_isSome_iff_eq_none, hembeds.embedding_iff]
    intro hsome
    obtain ⟨bytes, hget⟩ := isSome_iff_exists.mp hsome
    exact absurd (hlt n (hembeds n bytes hget).1) (not_lt.mpr hn)

/-! ## Answers -/

/-- **Two indexes that fit take the same upserts.** -/
theorem Fits.upsert_eq {idx idx' : VectorIndex} (h : g.Fits d idx) (h' : g.Fits d idx') (hd : 0 < d)
    (n : NodeId) (v : List F32) :
    (idx.upsert n v).map (fun _ => ()) = (idx'.upsert n v).map fun _ => () := by
  by_cases hne : v.length = 0
  · rw [VectorIndex.upsert, VectorIndex.upsert, if_pos hne, if_pos hne]
  · have hiff : idx.Unused ↔ idx'.Unused := h.unused_iff.trans h'.unused_iff.symm
    by_cases hunused : idx.Unused
    · -- Both take an embedding of any dimension.
      have hpos : 0 < v.length := by omega
      obtain ⟨i, hi, -⟩ := VectorIndex.upsert_spec (hunused.sized v.length) n hpos rfl
      obtain ⟨i', hi', -⟩ := VectorIndex.upsert_spec ((hiff.mp hunused).sized v.length) n hpos rfl
      rw [hi, hi']
      rfl
    · by_cases hv : v.length = d
      · obtain ⟨i, hi, -⟩ := VectorIndex.upsert_spec h.sized n hd hv
        obtain ⟨i', hi', -⟩ := VectorIndex.upsert_spec h'.sized n hd hv
        rw [hi, hi']
        rfl
      · rw [VectorIndex.upsert_mismatch h.sized hunused n hne hv,
          VectorIndex.upsert_mismatch h'.sized (hunused ∘ hiff.mpr) n hne hv]

def keeps (g : VectorGraph) (opts : VectorSearchOptions) (n : NodeId) : Bool :=
  if opts.hasFilters then g.matchesFilters opts n else g.nodeExists n

lemma nodeExists_of_keeps (hsound : g.graph.storage.Sound) {opts : VectorSearchOptions}
    (h : g.keeps opts n) : g.nodeExists n := by
  unfold keeps at h
  split at h
  next hfilters =>
    unfold matchesFilters at h
    obtain ⟨hlabel, hprops⟩ := Bool.and_eq_true_iff.mp h
    rcases Bool.or_eq_true_iff.mp hfilters with hsome | hany
    · -- The label index has entries of stored nodes only.
      obtain ⟨label, hl⟩ := isSome_iff_exists.mp hsome
      rw [hl, all_some, hasLabel] at hlabel
      split at hlabel
      next l hget =>
        obtain ⟨record, hrecord, -⟩ :=
          (hsound.work.nodes.labelIdx_iff l n).mp (of_decide_eq_true hlabel)
        unfold nodeExists
        rw [show g.graph.storage.tables.nodes.get n = some record from hrecord]
        rfl
      next => cases hlabel
    · -- A missing node has no property, not even null.
      rcases hp : opts.properties with _ | _ | ⟨filter, filters⟩
      · rw [hp] at hany
        cases hany
      · rw [hp] at hany
        simp at hany
      · rw [hp, getD_some, all_cons] at hprops
        obtain ⟨hfilter, -⟩ := Bool.and_eq_true_iff.mp hprops
        unfold nodePropJson at hfilter
        unfold nodeExists
        rcases hrecord : g.graph.storage.tables.nodes.get n with _ | record
        · rw [hrecord] at hfilter
          cases hfilter
        · rfl
  next => exact h

variable [Distance]

/-- Dropping hits from a window of a ranking leaves a window of what is left. -/
theorem filter_take_ranking (index : ExactBackend) (q : List F32) (live : NodeId → Bool)
    (want : ℕ) :
    (((index.ranking q fun _ => true).take want).filter fun h => live h.node) =
      (index.ranking q live).take
        (((index.ranking q fun _ => true).take want).filter fun h => live h.node).length := by
  have hprefix := (List.take_prefix want (index.ranking q fun _ => true)).filter
    fun h => live h.node
  rw [ExactBackend.filter_ranking] at hprefix
  exact prefix_iff_eq_take.mp hprefix

lemma length_ranking_true (index : ExactBackend) (q : List F32) :
    (index.ranking q fun _ => true).length = index.len := by
  rw [ExactBackend.ranking, length_insertionSort, length_map, filter_true,
    ExactBackend.len]

/-- The window search finds the nearest existing nodes: it stops when enough hits remain, or when
the window is longer than the index. -/
theorem searchLive_ok (hinner : idx.inner = .ready index d) (hq : q.length = index.dims)
    (fetchK fuel : ℕ) :
    ∀ {want : ℕ}, index.len < want * 2 ^ fuel → ∃ m, fetchK ≤ m ∧
      g.searchLive idx q fetchK fuel want = .ok ((index.ranking q g.nodeExists).take m) := by
  have hraw : ∀ want, idx.search q want = .ok ((index.ranking q fun _ => true).take want) := by
    intro want
    unfold VectorIndex.search
    rw [hinner]
    exact ExactBackend.rank_ok hq want _
  -- A window longer than the index holds everything.
  have hwhole : ∀ {want : ℕ}, ((index.ranking q fun _ => true).take want).length < want →
      (((index.ranking q fun _ => true).take want).filter fun h => g.nodeExists h.node) =
        (index.ranking q g.nodeExists).take (max fetchK (index.ranking q g.nodeExists).length) := by
    intro want hshort
    rw [length_take] at hshort
    rw [take_of_length_le (by omega), ExactBackend.filter_ranking,
      take_of_length_le (le_max_right _ _)]
    simp only [Bool.true_and]
  induction fuel with
  | zero =>
    intro want hlt
    refine ⟨max fetchK (index.ranking q g.nodeExists).length, le_max_left _ _, ?_⟩
    rw [searchLive, hraw]
    show Except.ok _ = _
    rw [hwhole]
    rw [length_take, length_ranking_true]
    omega
  | succ fuel ih =>
    intro want hlt
    set raw := (index.ranking q fun _ => true).take want with hdef
    have hstep : g.searchLive idx q fetchK (fuel + 1) want =
        if fetchK ≤ (raw.filter fun h => g.nodeExists h.node).length ∨ raw.length < want then
          .ok (raw.filter fun h => g.nodeExists h.node)
        else g.searchLive idx q fetchK fuel (want * 2) := by
      rw [searchLive, hraw]
      rfl
    rw [hstep]
    split
    next hstop =>
      by_cases hshort : raw.length < want
      · exact ⟨_, le_max_left _ _, congrArg Except.ok (hwhole hshort)⟩
      · exact ⟨_, hstop.resolve_right hshort, congrArg Except.ok (filter_take_ranking ..)⟩
    next =>
      apply ih
      rwa [mul_assoc, ← pow_succ']

lemma searchLive_error (hinner : idx.inner = .ready index d) (hq : q.length ≠ index.dims)
    (fetchK fuel want : ℕ) :
    g.searchLive idx q fetchK fuel want = .error (.dimensionMismatch index.dims q.length) := by
  have hraw : idx.search q want = .error (.dimensionMismatch index.dims q.length) := by
    unfold VectorIndex.search
    rw [hinner]
    exact ExactBackend.rank_error hq want _
  cases fuel <;> rw [searchLive, hraw] <;> rfl

/-- Rescoring finds the distances a full-precision backend ranks by. -/
theorem Fits.mapM_rescore (h : g.Fits d idx) (hinner : idx.inner = .ready index d) {hits : List Hit}
    (hhits : ∀ hit ∈ hits, hit ∈ index.ranking q g.nodeExists) :
    hits.mapM (g.rescore q idx.opts.metric) = .ok hits := by
  obtain ⟨index', hinner', -, hmetric⟩ := VectorIndex.exists_ready h.sized (by
    intro hunused
    rw [show idx.inner = .empty from hunused] at hinner
    cases hinner)
  obtain rfl : index = index' := by
    rw [hinner] at hinner'
    cases hinner'
    rfl
  induction hits with
  | nil => rfl
  | cons hit hits ih =>
    obtain ⟨n, v, hget, hlive, rfl⟩ := ExactBackend.mem_ranking.mp (hhits hit mem_cons_self)
    have hstored : g.embedding n = some v := by
      rw [← h.entry n hlive, VectorIndex.entry, hinner]
      exact hget
    have hone : g.rescore q idx.opts.metric (ExactBackend.hit q index.metric (n, v)) =
        .ok (ExactBackend.hit q index.metric (n, v)) := by
      unfold embedding at hstored
      rcases hbytes : g.stored.get n with _ | bytes
      · rw [hbytes] at hstored
        cases hstored
      rw [hbytes, bind_some] at hstored
      rcases hdecode : decodeVector bytes with e | v'
      · rw [hdecode] at hstored
        cases hstored
      rw [hdecode] at hstored
      obtain rfl : v' = v := some.inj hstored
      unfold rescore
      rw [show (ExactBackend.hit q index.metric (n, v')).node = n from rfl, hbytes]
      show (decodeVector bytes >>= _) = _
      rw [hdecode, hmetric]
      rfl
    rw [mapM_cons, hone, ih fun hit hmem => hhits hit (mem_cons_of_mem _ hmem)]
    rfl

omit [Distance] in
/-- An index over a backend that fits has an entry. -/
theorem Fits.isEmpty_eq_false (h : g.Fits d idx) (hembeds : g.Embeds d)
    (hinner : idx.inner = .ready index d) : idx.isEmpty = false := by
  have hused : ¬ idx.Unused := by
    intro hunused
    rw [show idx.inner = .empty from hunused] at hinner
    cases hinner
  obtain ⟨n, bytes, hget⟩ : ∃ n bytes, g.stored.get n = some bytes := by
    by_contra hnone
    push Not at hnone
    exact hused (h.unused_iff.mpr fun n => eq_none_iff_forall_ne_some.mpr (hnone n))
  -- A stored embedding belongs to a node that exists, so the index holds it.
  have hsome : (index.vectors.get n).isSome := by
    rw [← VectorIndex.entry_ready hinner, h.entry n (hembeds n bytes hget).1,
      hembeds.embedding_iff, hget]
    rfl
  unfold VectorIndex.isEmpty
  rw [hinner]
  apply decide_eq_false
  intro hlen
  have hnil : index.vectors.entries = [] := length_eq_zero_iff.mp hlen
  rw [Slots.entries_eq_nil_iff.mp hnil n] at hsome
  cases hsome

/-- As many of the nearest nodes are fetched as the search returns. -/
theorem fetchHits_ok (hinner : idx.inner = .ready index d) (hq : q.length = index.dims)
    (opts : VectorSearchOptions) :
    ∃ m, opts.k ≤ m ∧ g.fetchHits idx q opts = .ok ((index.ranking q (g.keeps opts)).take m) := by
  have hk : opts.k ≤ opts.fetchK := by
    unfold VectorSearchOptions.fetchK
    split
    next hfactor => exact Nat.le_mul_of_pos_right _ (by omega)
    next => exact le_refl _
  unfold fetchHits
  split
  next hfilters =>
    have hkeeps : g.keeps opts = g.matchesFilters opts := by
      funext n
      exact if_pos hfilters
    refine ⟨opts.fetchK, hk, ?_⟩
    rw [hkeeps]
    unfold VectorIndex.searchFiltered
    rw [hinner]
    exact ExactBackend.rank_ok hq _ _
  next hfilters =>
    have hkeeps : g.keeps opts = g.nodeExists := by
      funext n
      exact if_neg hfilters
    have hcount : entryCount idx = index.len := by
      unfold entryCount
      rw [hinner]
    have hwide : index.len < max opts.fetchK 1 * 2 ^ index.len :=
      Nat.lt_two_pow_self.trans_le (Nat.le_mul_of_pos_left _ (by omega))
    rw [hkeeps, hcount]
    obtain ⟨m, hm, hlive⟩ := searchLive_ok hinner hq opts.fetchK _ hwide
    exact ⟨m, hk.trans hm, hlive⟩

lemma fetchHits_error (hinner : idx.inner = .ready index d) (hq : q.length ≠ index.dims)
    (opts : VectorSearchOptions) :
    g.fetchHits idx q opts = .error (.dimensionMismatch index.dims q.length) := by
  unfold fetchHits
  split
  · unfold VectorIndex.searchFiltered
    rw [hinner]
    exact ExactBackend.rank_error hq _ _
  · exact searchLive_error hinner hq _ _ _

lemma Fits.rescoreHits_eq (h : g.Fits d idx) (hinner : idx.inner = .ready index d)
    {opts : VectorSearchOptions} {hits : List Hit} (hsorted : hits.Pairwise (· ≤ ·))
    (hhits : ∀ hit ∈ hits, hit ∈ index.ranking q g.nodeExists) :
    g.rescoreHits idx q opts hits = .ok hits := by
  unfold rescoreHits
  split
  · rw [h.mapM_rescore hinner hhits]
    show Except.ok (hits.insertionSort (· ≤ ·)) = _
    rw [hsorted.insertionSort_eq]
  · rfl

/-- **What a search answers**: an error of the dimension, or the `k` nearest nodes it keeps. -/
theorem Fits.searchIndex_ready (h : g.Fits d idx) (hsound : g.graph.storage.Sound)
    (hembeds : g.Embeds d) (hinner : idx.inner = .ready index d) (hdims : index.dims = d)
    (q : List F32) (opts : VectorSearchOptions) :
    g.searchIndex idx q opts =
      if q.length ≠ d then .error (.dimensionMismatch d q.length)
      else .ok ((index.ranking q (g.keeps opts)).take opts.k) := by
  unfold searchIndex
  rw [h.isEmpty_eq_false hembeds hinner, if_neg (by simp)]
  split
  next hq =>
    rw [fetchHits_error hinner (by rwa [hdims]), hdims]
    rfl
  next hq =>
    obtain ⟨m, hk, hfetch⟩ := fetchHits_ok (g := g) hinner
      ((not_not.mp hq).trans hdims.symm) opts
    have hrescore : g.rescoreHits idx q opts ((index.ranking q (g.keeps opts)).take m) =
        .ok ((index.ranking q (g.keeps opts)).take m) := by
      apply h.rescoreHits_eq hinner
      · exact (ExactBackend.pairwise_ranking index q _).sublist (take_sublist _ _)
      · intro hit hmem
        obtain ⟨n, v, hget, hkeep, rfl⟩ := ExactBackend.mem_ranking.mp (mem_of_mem_take hmem)
        exact ExactBackend.mem_ranking.mpr ⟨n, v, hget, nodeExists_of_keeps hsound hkeep, rfl⟩
    rw [hfetch]
    show (g.rescoreHits idx q opts _ >>= _) = _
    rw [hrescore]
    show Except.ok ((List.take m _).take opts.k) = _
    rw [take_take, min_eq_left hk]

/-- **Two indexes that fit answer a search alike.** -/
theorem Fits.searchIndex_eq {idx idx' : VectorIndex} (h : g.Fits d idx) (h' : g.Fits d idx')
    (hsound : g.graph.storage.Sound) (hembeds : g.Embeds d) (q : List F32)
    (opts : VectorSearchOptions) : g.searchIndex idx q opts = g.searchIndex idx' q opts := by
  have hiff : idx.Unused ↔ idx'.Unused := h.unused_iff.trans h'.unused_iff.symm
  by_cases hunused : idx.Unused
  · have hempty : ∀ {i : VectorIndex}, i.Unused → g.searchIndex i q opts = .error .emptyIndex := by
      intro i hi
      have : i.isEmpty = true := by
        unfold VectorIndex.isEmpty
        rw [show i.inner = .empty from hi]
      unfold searchIndex
      rw [this]
      rfl
    rw [hempty hunused, hempty (hiff.mp hunused)]
  · obtain ⟨index, hinner, hdims, hmetric⟩ := VectorIndex.exists_ready h.sized hunused
    obtain ⟨index', hinner', hdims', hmetric'⟩ :=
      VectorIndex.exists_ready h'.sized (hunused ∘ hiff.mpr)
    have hopts : idx.opts = idx'.opts := by
      have := h.opts.symm.trans h'.opts
      exact Except.ok.inj this
    have hranking : index.ranking q (g.keeps opts) = index'.ranking q (g.keeps opts) := by
      apply ExactBackend.ranking_congr (by rw [hmetric, hmetric', hopts])
      intro n v
      apply and_congr_left
      intro hkeep
      have hlive := nodeExists_of_keeps hsound hkeep
      rw [← VectorIndex.entry_ready hinner, ← VectorIndex.entry_ready hinner', h.entry n hlive,
        h'.entry n hlive]
    rw [h.searchIndex_ready hsound hembeds hinner hdims,
      h'.searchIndex_ready hsound hembeds hinner' hdims', hranking]

end VectorGraph

end IssunDB.Vector
