import IssunDB.Csr.Snapshot
import IssunDB.Lib.Reach

/-!
# Breadth-first search from several seeds

`bfsMultiSource` marks the dense index of every node it reaches with its level, one frontier after
another, and stops marking once `maxNodes` nodes are marked. The cap cuts while seeding, before a
frontier and inside one; what was marked beyond it is unmarked again.

The invariant of the search (`Searching`) is that an uncut search has marked exactly what lies
within the current number of steps, and a cut one is at its cap with something left out. It gives
`bfsMultiSource_spec`: the result ascends, is within reach, respects the cap, and the flag says
whether anything within reach is missing.
-/

namespace IssunDB

open List

/-- The level of each dense index; `none` is `UNREACHED`. -/
abbrev Levels := List (Option ℕ)

/-- Mark an unreached destination at `hop` and queue it. -/
def visit (hop : ℕ) (st : Levels × List ℕ) (v : ℕ) : Levels × List ℕ :=
  if st.1.getD v none = none then (st.1.set v (some hop), st.2 ++ [v]) else st

/-- Put an index back to unreached. -/
def unmark (levels : Levels) (vs : List ℕ) : Levels :=
  vs.foldl (fun levels v => levels.set v none) levels

/-- The state of a search. -/
structure Search where
  levels : Levels
  frontier : List ℕ
  truncated : Bool
  visited : ℕ

namespace CsrArrays

variable (S : CsrArrays)

/-- Advance one level: mark every unreached destination of the frontier and return them in
ascending order. -/
def expandFrontier (frontier : List ℕ) (hop : ℕ) (levels : Levels) : Levels × List ℕ :=
  let r := frontier.foldl (fun st u => (S.outRow u).foldl (fun st e => visit hop st e.col) st)
    (levels, [])
  (r.1, r.2.mergeSort (· ≤ ·))

def reachedInOrder (levels : Levels) : List NodeId :=
  (levels.zipIdx.filter (·.1.isSome)).map fun p => S.denseToId.getD p.2 0

/-- Mark the known seeds, each once, until the cap is reached. -/
def admitSeeds (maxNodes : Option ℕ) : List NodeId → Search → Search
  | [], st => st
  | seed :: seeds, st =>
    match S.idToDense.get seed with
    | none => admitSeeds maxNodes seeds st
    | some dense =>
      if st.levels.getD dense none ≠ none then admitSeeds maxNodes seeds st
      else if maxNodes.any (· ≤ st.visited) then { st with truncated := true }
      else admitSeeds maxNodes seeds
        { st with
          levels := st.levels.set dense (some 0)
          frontier := st.frontier ++ [dense]
          visited := st.visited + 1 }

/-- Expand `remaining` more levels from level `hop` on. -/
def searchLevels (maxNodes : Option ℕ) : (remaining hop : ℕ) → Search → Search
  | 0, _, st => st
  | remaining + 1, hop, st =>
    let (levels, next) := S.expandFrontier st.frontier hop st.levels
    if next = [] then { st with levels }
    else
      match maxNodes with
      | none => searchLevels maxNodes remaining (hop + 1)
          { st with levels, frontier := next, visited := st.visited + next.length }
      | some max =>
        if max ≤ st.visited then { st with levels := unmark levels next, truncated := true }
        else if max < st.visited + next.length then
          { st with levels := unmark levels (next.drop (max - st.visited)), truncated := true }
        else searchLevels maxNodes remaining (hop + 1)
          { st with levels, frontier := next, visited := st.visited + next.length }

/-- Breadth-first search outward from several seeds: the nodes within `hops` outgoing steps, and
whether the cap cut any of them off. -/
def bfsMultiSource (seeds : List NodeId) (hops : ℕ) (maxNodes : Option ℕ) : List NodeId × Bool :=
  let n := S.denseToId.length
  if seeds = [] ∨ n = 0 then ([], false)
  else
    let seeded := S.admitSeeds maxNodes seeds ⟨List.replicate n none, [], false, 0⟩
    if seeded.visited = 0 then ([], seeded.truncated)
    else
      let done := S.searchLevels maxNodes hops 1
        { seeded with frontier := seeded.frontier.mergeSort (· ≤ ·) }
      (S.reachedInOrder done.levels, done.truncated)

/-- There is an edge from one node id to another. -/
def OutStep (a b : NodeId) : Prop :=
  ∃ e ∈ S.edges, S.denseToId[e.src]? = some a ∧ S.denseToId[e.dst]? = some b

/-- The node ids within `hops` outgoing steps of a known seed. -/
def withinHops (seeds : List NodeId) (hops : ℕ) : Set NodeId :=
  within S.OutStep {id | id ∈ seeds ∧ id ∈ S.denseToId} hops

end CsrArrays

/-! ## Marks -/

/-- The dense indices with a level. -/
def marked (levels : Levels) : Finset ℕ :=
  (Finset.range levels.length).filter fun d => (levels.getD d none).isSome

variable {levels : Levels}

lemma mem_marked {d : ℕ} : d ∈ marked levels ↔ (levels.getD d none).isSome := by
  rw [marked, Finset.mem_filter, Finset.mem_range, and_iff_right_iff_imp]
  intro h
  by_contra hge
  rw [getD_eq_default _ _ (by omega)] at h
  cases h

lemma getD_eq_none_iff {d : ℕ} :
    levels.getD d none = none ↔ d ∉ marked levels := by
  rw [mem_marked, Option.not_isSome_iff_eq_none]

lemma notMem_marked_iff {d : ℕ} {Q : ℕ → Prop} (h : ∀ j, levels.getD d none = some j ↔ Q j) :
    d ∉ marked levels ↔ ∀ j, ¬Q j := by
  rw [← getD_eq_none_iff, Option.eq_none_iff_forall_ne_some]
  exact forall_congr' fun j => not_congr (h j)

lemma marked_replicate (n : ℕ) : marked (List.replicate n none) = ∅ := by
  ext d
  rw [mem_marked, getD_eq_getElem?_getD, getElem?_replicate]
  split <;> simp

lemma marked_set_some {d : ℕ} (hd : d < levels.length) (hop : ℕ) :
    marked (levels.set d (some hop)) = insert d (marked levels) := by
  ext v
  rw [Finset.mem_insert, mem_marked, mem_marked, getD_eq_getElem?_getD, getElem?_set,
    getD_eq_getElem?_getD]
  by_cases hv : d = v
  · subst hv
    simp [hd]
  · simp [hv, Ne.symm hv]

lemma marked_set_none (levels : Levels) (d : ℕ) :
    marked (levels.set d none) = (marked levels).erase d := by
  ext v
  rw [Finset.mem_erase, mem_marked, mem_marked, getD_eq_getElem?_getD, getElem?_set,
    getD_eq_getElem?_getD]
  by_cases hv : d = v
  · subst hv
    by_cases hd : d < levels.length <;> simp [hd]
  · simp [hv, Ne.symm hv]

@[simp]
lemma length_unmark (levels : Levels) (vs : List ℕ) :
    (unmark levels vs).length = levels.length := by
  induction vs generalizing levels with
  | nil => rfl
  | cons v vs ih => exact (ih _).trans (List.length_set ..)

lemma marked_unmark (levels : Levels) (vs : List ℕ) :
    marked (unmark levels vs) = marked levels \ vs.toFinset := by
  induction vs generalizing levels with
  | nil => simp [unmark]
  | cons v vs ih =>
    have hstep : unmark levels (v :: vs) = unmark (levels.set v none) vs := rfl
    rw [hstep, ih, marked_set_none, toFinset_cons]
    ext d
    simp
    tauto

/-- Visiting marks the targets and queues those that were not marked, each once. -/
theorem foldl_visit (hop : ℕ) {targets : List ℕ} (queue : List ℕ)
    (htargets : ∀ v ∈ targets, v < levels.length) :
    ∃ new, targets.foldl (visit hop) (levels, queue) =
        ((targets.foldl (visit hop) (levels, queue)).1, queue ++ new) ∧
      (targets.foldl (visit hop) (levels, queue)).1.length = levels.length ∧
      marked (targets.foldl (visit hop) (levels, queue)).1 = marked levels ∪ targets.toFinset ∧
      new.Nodup ∧ ∀ v, v ∈ new ↔ v ∈ targets ∧ v ∉ marked levels := by
  induction targets generalizing levels queue with
  | nil => exact ⟨[], by simp⟩
  | cons v targets ih =>
    have hv : v < levels.length := htargets v mem_cons_self
    have hrest : ∀ w ∈ targets, w < levels.length :=
      fun w hw => htargets w (mem_cons_of_mem _ hw)
    rw [foldl_cons, visit]
    split
    next hnone =>
      have hunmarked := getD_eq_none_iff.mp hnone
      obtain ⟨new, hqueue, hlen, hmarked, hnodup, hmem⟩ := ih
        (queue ++ [v]) (show ∀ w ∈ targets, w < (levels.set v (some hop)).length by simpa
          using hrest)
      rw [marked_set_some hv] at hmarked hmem
      refine ⟨v :: new, ?_, by simpa using hlen, ?_, ?_, ?_⟩
      · rw [hqueue]
        simp
      · rw [hmarked]
        ext w
        simp
      · exact nodup_cons.mpr ⟨fun h => by simpa using ((hmem v).mp h).2, hnodup⟩
      · intro w
        rw [mem_cons, mem_cons, hmem, Finset.mem_insert]
        by_cases hw : w = v
        · subst hw
          simp [hunmarked]
        · simp [hw]
    next hsome =>
      have hin : v ∈ marked levels := by
        by_contra hnot
        exact hsome (getD_eq_none_iff.mpr hnot)
      obtain ⟨new, hqueue, hlen, hmarked, hnodup, hmem⟩ := ih queue hrest
      refine ⟨new, hqueue, hlen, ?_, hnodup, ?_⟩
      · rw [hmarked]
        ext w
        simp
        rintro rfl
        exact Or.inl hin
      · intro w
        rw [hmem, mem_cons]
        by_cases hw : w = v
        · subst hw
          simp [hin]
        · simp [hw]

/-- Visiting levels the targets that had no level, and leaves every other level. -/
theorem getD_foldl_visit (hop : ℕ) {targets : List ℕ} (levels : Levels) (queue : List ℕ)
    (htargets : ∀ v ∈ targets, v < levels.length) (d : ℕ) :
    (targets.foldl (visit hop) (levels, queue)).1.getD d none =
      if d ∈ targets ∧ levels.getD d none = none then some hop else levels.getD d none := by
  induction targets generalizing levels queue with
  | nil => simp
  | cons v targets ih =>
    have hv : v < levels.length := htargets v mem_cons_self
    have hrest : ∀ w ∈ targets, w < levels.length :=
      fun w hw => htargets w (mem_cons_of_mem _ hw)
    rw [foldl_cons, visit]
    split
    next hnone =>
      have hset : (levels.set v (some hop)).getD d none =
          if d = v then some hop else levels.getD d none := by
        rw [getD_eq_getElem?_getD, getElem?_set, getD_eq_getElem?_getD]
        by_cases hd : v = d
        · subst hd
          simp [hv]
        · simp [hd, Ne.symm hd]
      rw [ih _ _ (by simpa using hrest), hset]
      by_cases hd : d = v
      · subst hd
        simp only [getD_eq_getElem?_getD] at *
        simp [hnone]
      · simp [hd]
    next hsome =>
      rw [ih _ _ hrest]
      by_cases hd : d = v
      · subst hd
        simp only [getD_eq_getElem?_getD] at *
        simp [hsome]
      · simp [hd]
/-! ## One level -/

namespace Snapshot

variable (S : Snapshot)

/-- There is an edge between two dense indices. -/
def DenseStep (a b : ℕ) : Prop := ∃ e ∈ S.edges, e.src = a ∧ e.dst = b

variable {u v : ℕ}

lemma exists_mem_outRow : (∃ e ∈ S.outRow u, e.col = v) ↔ S.DenseStep u v := by
  constructor
  · rintro ⟨e, he, rfl⟩
    have hmem : (⟨u, e.col, e.edgeType, e.edgeId⟩ : DenseEdge) ∈ S.edges.filter (·.src = u) := by
      rw [← outRow_eq]
      exact mem_map_of_mem he
    exact ⟨_, mem_of_mem_filter hmem, rfl, rfl⟩
  · rintro ⟨e, he, rfl, rfl⟩
    have hmem : e ∈ S.edges.filter (·.src = e.src) :=
      mem_filter.mpr ⟨he, decide_eq_true rfl⟩
    rw [← outRow_eq] at hmem
    obtain ⟨e', he', heq⟩ := mem_map.mp hmem
    exact ⟨e', he', congrArg DenseEdge.dst heq⟩

lemma DenseStep.lt (h : S.DenseStep u v) : u < S.n ∧ v < S.n := by
  obtain ⟨e, he, rfl, rfl⟩ := h
  exact ⟨S.src_lt he, S.dst_lt he⟩

lemma outStep_iff {a b : NodeId} :
    S.OutStep a b ↔ ∃ u v, S.DenseStep u v ∧ S.idOf u = a ∧ S.idOf v = b := by
  constructor
  · rintro ⟨e, he, hsrc, hdst⟩
    refine ⟨e.src, e.dst, ⟨e, he, rfl, rfl⟩, ?_, ?_⟩
    · exact Option.some.inj ((S.getElem?_denseToId (S.src_lt he)).symm.trans hsrc)
    · exact Option.some.inj ((S.getElem?_denseToId (S.dst_lt he)).symm.trans hdst)
  · rintro ⟨u, v, ⟨e, he, rfl, rfl⟩, rfl, rfl⟩
    exact ⟨e, he, S.getElem?_denseToId (S.src_lt he), S.getElem?_denseToId (S.dst_lt he)⟩

lemma outStep_idOf (hu : u < S.n) (hv : v < S.n) :
    S.OutStep (S.idOf u) (S.idOf v) ↔ S.DenseStep u v := by
  rw [outStep_iff]
  constructor
  · rintro ⟨u', v', hstep, hu', hv'⟩
    obtain rfl := (S.idOf_inj hstep.lt.1 hu).mp hu'
    obtain rfl := (S.idOf_inj hstep.lt.2 hv).mp hv'
    exact hstep
  · exact fun h => ⟨u, v, h, rfl, rfl⟩

/-- The destinations of a frontier, edge by edge. -/
def targets (frontier : List ℕ) : List ℕ := frontier.flatMap fun u => (S.outRow u).map (·.col)

lemma mem_targets {frontier : List ℕ} {v : ℕ} :
    v ∈ S.targets frontier ↔ ∃ u ∈ frontier, S.DenseStep u v := by
  rw [targets, mem_flatMap]
  simp only [mem_map, exists_mem_outRow]

lemma targets_lt {frontier : List ℕ} {v : ℕ} (h : v ∈ S.targets frontier) : v < S.n := by
  obtain ⟨u, -, huv⟩ := S.mem_targets.mp h
  exact huv.lt.2

lemma expandFrontier_eq (frontier : List ℕ) (hop : ℕ) (levels : Levels) :
    S.expandFrontier frontier hop levels =
      (((S.targets frontier).foldl (visit hop) (levels, [])).1,
        ((S.targets frontier).foldl (visit hop) (levels, [])).2.mergeSort (· ≤ ·)) := by
  rw [CsrArrays.expandFrontier, targets, foldl_flatMap]
  simp only [foldl_map]

lemma expandFrontier_spec {levels : Levels} (hlen : levels.length = S.n) (frontier : List ℕ)
    (hop : ℕ) :
    (S.expandFrontier frontier hop levels).1.length = S.n ∧
      marked (S.expandFrontier frontier hop levels).1 =
        marked levels ∪ (S.expandFrontier frontier hop levels).2.toFinset ∧
      (S.expandFrontier frontier hop levels).2.Nodup ∧
      ∀ v, v ∈ (S.expandFrontier frontier hop levels).2 ↔
        (∃ u ∈ frontier, S.DenseStep u v) ∧ v ∉ marked levels := by
  have hlt : ∀ v ∈ S.targets frontier, v < levels.length := fun v hv => hlen ▸ S.targets_lt hv
  obtain ⟨new, hqueue, hlen', hmarked, hnodup, hmem⟩ := foldl_visit hop [] hlt
  rw [expandFrontier_eq]
  dsimp only
  have hperm := mergeSort_perm ([] ++ new) (· ≤ ·)
  rw [hqueue]
  dsimp only
  have hin : ∀ v, v ∈ ([] ++ new).mergeSort (· ≤ ·) ↔
      (∃ u ∈ frontier, S.DenseStep u v) ∧ v ∉ marked levels := by
    intro v
    rw [hperm.mem_iff, nil_append, hmem, mem_targets]
  refine ⟨hlen'.trans hlen, ?_, hperm.nodup_iff.mpr hnodup, hin⟩
  rw [hmarked]
  ext v
  rw [Finset.mem_union, Finset.mem_union, mem_toFinset, mem_toFinset, hin, mem_targets]
  tauto

/-- The new nodes get the level, the others keep theirs. -/
theorem getD_expandFrontier {levels : Levels} (hlen : levels.length = S.n) (frontier : List ℕ)
    (hop d : ℕ) :
    (S.expandFrontier frontier hop levels).1.getD d none =
      if d ∈ (S.expandFrontier frontier hop levels).2 then some hop else levels.getD d none := by
  obtain ⟨-, -, -, hmem⟩ := S.expandFrontier_spec hlen frontier hop
  have hnew : d ∈ (S.expandFrontier frontier hop levels).2 ↔
      d ∈ S.targets frontier ∧ levels.getD d none = none := by
    rw [hmem, mem_targets, getD_eq_none_iff]
  simp only [hnew]
  rw [expandFrontier_eq]
  exact getD_foldl_visit hop levels [] (fun v hv => hlen ▸ S.targets_lt hv) d

lemma expandFrontier_ascending {levels : Levels} (hlen : levels.length = S.n)
    (frontier : List ℕ) (hop : ℕ) :
    (S.expandFrontier frontier hop levels).2.Pairwise (· < ·) := by
  have hsorted : (S.expandFrontier frontier hop levels).2.Pairwise (· ≤ ·) := by
    rw [expandFrontier_eq]
    exact pairwise_mergeSort' (· ≤ ·) _
  have hnodup := (S.expandFrontier_spec hlen frontier hop).2.2.1
  exact hsorted.imp₂ (fun _ _ hle hne => lt_of_le_of_ne hle hne) hnodup

/-! ## The search -/

/-- A search between two levels: an uncut one has marked exactly what is within `k` steps and has
still to expand the frontier only; a cut one is at its cap and misses something. -/
structure Searching (start : Set ℕ) (hops : ℕ) (maxNodes : Option ℕ) (k : ℕ) (st : Search) :
    Prop where
  length : st.levels.length = S.n
  visited : st.visited = (marked st.levels).card
  cap : ∀ m, maxNodes = some m → st.visited ≤ m
  frontier : ∀ v ∈ st.frontier, v ∈ marked st.levels
  reach : ∀ v ∈ marked st.levels, v ∈ within S.DenseStep start k
  whole : st.truncated = false → (∀ v ∈ within S.DenseStep start k, v ∈ marked st.levels) ∧
    ∀ a ∈ marked st.levels, a ∉ st.frontier → ∀ b, S.DenseStep a b → b ∈ marked st.levels
  cut : st.truncated = true → (∃ m, maxNodes = some m ∧ m ≤ st.visited) ∧
    ∃ d ∈ within S.DenseStep start hops, d ∉ marked st.levels

/-- A finished search: what it marked is within reach and within the cap, it is flagged iff it
misses something, and only the cap makes it miss something. -/
structure Searched (start : Set ℕ) (hops : ℕ) (maxNodes : Option ℕ) (levels : Levels)
    (truncated : Bool) : Prop where
  length : levels.length = S.n
  cap : ∀ m, maxNodes = some m → (marked levels).card ≤ m
  reach : ∀ v ∈ marked levels, v ∈ within S.DenseStep start hops
  flag : truncated = true ↔ ∃ d ∈ within S.DenseStep start hops, d ∉ marked levels
  full : truncated = true → ∃ m, maxNodes = some m ∧ (marked levels).card = m

variable {S}

/-- A cut search has as many nodes as the cap admits. -/
theorem Searching.full {start : Set ℕ} {hops k : ℕ} {maxNodes : Option ℕ} {st : Search}
    (h : S.Searching start hops maxNodes k st) (ht : st.truncated = true) :
    ∃ m, maxNodes = some m ∧ (marked st.levels).card = m := by
  obtain ⟨⟨m, hm, hle⟩, -⟩ := h.cut ht
  exact ⟨m, hm, h.visited ▸ (h.cap m hm).antisymm hle⟩

lemma Searching.searched {start : Set ℕ} {hops : ℕ} {maxNodes : Option ℕ} {st : Search}
    (h : S.Searching start hops maxNodes hops st) :
    S.Searched start hops maxNodes st.levels st.truncated where
  length := h.length
  cap m hm := h.visited ▸ h.cap m hm
  reach := h.reach
  flag := by
    constructor
    · exact fun ht => (h.cut ht).2
    · rintro ⟨d, hd, hnot⟩
      by_contra hf
      exact hnot ((h.whole (by simpa using hf)).1 d hd)
  full := h.full

/-- What expanding the frontier of a search between two levels yields. -/
structure Expanded (S : Snapshot) (start : Set ℕ) (k : ℕ) (st : Search) (levels : Levels)
    (next : List ℕ) : Prop where
  length : levels.length = S.n
  marked : marked levels = IssunDB.marked st.levels ∪ next.toFinset
  nodup : next.Nodup
  mem : ∀ v, v ∈ next ↔ (∃ u ∈ st.frontier, S.DenseStep u v) ∧ v ∉ IssunDB.marked st.levels
  card : (IssunDB.marked levels).card = st.visited + next.length
  reach : ∀ v ∈ next, v ∈ within S.DenseStep start (k + 1)

variable {start : Set ℕ} {hops k : ℕ} {maxNodes : Option ℕ} {st : Search} {levels : Levels}
  {next : List ℕ}

lemma Searching.expanded (h : S.Searching start hops maxNodes k st) (hop : ℕ) :
    S.Expanded start k st (S.expandFrontier st.frontier hop st.levels).1
      (S.expandFrontier st.frontier hop st.levels).2 := by
  obtain ⟨hlen, hmarked, hnodup, hmem⟩ := S.expandFrontier_spec h.length st.frontier hop
  refine ⟨hlen, hmarked, hnodup, hmem, ?_, fun v hv => ?_⟩
  · have hdisjoint : Disjoint (IssunDB.marked st.levels)
        (S.expandFrontier st.frontier hop st.levels).2.toFinset := by
      rw [Finset.disjoint_right]
      intro v hv
      exact ((hmem v).mp (mem_toFinset.mp hv)).2
    rw [hmarked, Finset.card_union_of_disjoint hdisjoint, toFinset_card_of_nodup hnodup,
      h.visited]
  · obtain ⟨⟨u, hu, huv⟩, -⟩ := (hmem v).mp hv
    exact Or.inr ⟨u, h.reach u (h.frontier u hu), huv⟩

namespace Expanded

/-- An uncut search has marked, or found next, whatever is one step from a mark. -/
theorem closed (he : S.Expanded start k st levels next) (h : S.Searching start hops maxNodes k st)
    (huncut : st.truncated = false) {a b : ℕ} (ha : a ∈ IssunDB.marked st.levels)
    (hab : S.DenseStep a b) : b ∈ IssunDB.marked levels := by
  rw [he.marked, Finset.mem_union, mem_toFinset]
  by_cases hb : b ∈ IssunDB.marked st.levels
  · exact Or.inl hb
  · by_cases hfrontier : a ∈ st.frontier
    · exact Or.inr ((he.mem b).mpr ⟨⟨a, hfrontier, hab⟩, hb⟩)
    · exact absurd ((h.whole huncut).2 a ha hfrontier b hab) hb

/-- With nothing new one step away the search is finished: more levels would add nothing. -/
theorem exhausted (he : S.Expanded start k st levels []) (h : S.Searching start hops maxNodes k st)
    (hk : k ≤ hops) : S.Searched start hops maxNodes levels st.truncated := by
  have hsame : IssunDB.marked levels = IssunDB.marked st.levels := by
    rw [he.marked]
    simp
  refine ⟨he.length, fun m hm => ?_, fun v hv => within_mono hk (h.reach v (hsame ▸ hv)), ?_,
    fun ht => hsame ▸ h.full ht⟩
  · rw [hsame, ← h.visited]
    exact h.cap m hm
  · rw [hsame]
    constructor
    · exact fun ht => (h.cut ht).2
    · rintro ⟨d, hd, hnot⟩
      by_contra hf
      have huncut : st.truncated = false := by simpa using hf
      have hall := (h.whole huncut).1
      have hstop : within S.DenseStep start hops = within S.DenseStep start k := by
        apply within_eq_of_closed hk
        intro a ha b hab
        apply h.reach
        rw [← hsame]
        exact he.closed h huncut (hall a ha) hab
      exact hnot (hall d (hstop ▸ hd))

/-- A level that fits is kept whole. -/
theorem advance (he : S.Expanded start k st levels next) (h : S.Searching start hops maxNodes k st)
    (hnonempty : next ≠ []) (hcap : ∀ m, maxNodes = some m → st.visited + next.length ≤ m) :
    S.Searching start hops maxNodes (k + 1)
      { st with levels, frontier := next, visited := st.visited + next.length } := by
  have huncut : st.truncated = false := by
    by_contra ht
    obtain ⟨⟨m, hm, hle⟩, -⟩ := h.cut (by simpa using ht)
    have := hcap m hm
    have := length_pos_iff.mpr hnonempty
    omega
  have hall := (h.whole huncut).1
  refine ⟨he.length, he.card.symm, hcap, fun v hv => ?_, fun v hv => ?_, fun _ => ⟨?_, ?_⟩,
    fun ht => ?_⟩
  · rw [he.marked]
    exact Finset.mem_union_right _ (mem_toFinset.mpr hv)
  · rw [he.marked, Finset.mem_union, mem_toFinset] at hv
    exact hv.elim (fun hv => Or.inl (h.reach v hv)) (he.reach v)
  · rintro v (hv | ⟨a, ha, hav⟩)
    · rw [he.marked]
      exact Finset.mem_union_left _ (hall v hv)
    · exact he.closed h huncut (hall a ha) hav
  · intro a ha hnot b hab
    rw [he.marked, Finset.mem_union, mem_toFinset] at ha
    exact he.closed h huncut (ha.resolve_right hnot) hab
  · rw [show st.truncated = true from ht] at huncut
    cases huncut

/-- At the cap a level is unmarked again, and misses. -/
theorem cutFull {m : ℕ} (he : S.Expanded start k st levels next)
    (h : S.Searching start hops (some m) k st) (hk : k < hops) (hnonempty : next ≠ [])
    (hfull : m ≤ st.visited) : S.Searched start hops (some m) (unmark levels next) true := by
  have hsame : IssunDB.marked (unmark levels next) = IssunDB.marked st.levels := by
    rw [marked_unmark, he.marked, Finset.union_sdiff_cancel_right]
    rw [Finset.disjoint_right]
    intro v hv
    exact ((he.mem v).mp (mem_toFinset.mp hv)).2
  obtain ⟨v, hv⟩ := exists_mem_of_ne_nil _ hnonempty
  refine ⟨by simpa using he.length, fun m hm => ?_,
    fun w hw => within_mono hk.le (h.reach w (hsame ▸ hw)),
    iff_of_true rfl ⟨v, within_mono hk (he.reach v hv), ?_⟩, fun _ => ⟨m, rfl, ?_⟩⟩
  · rw [hsame, ← h.visited]
    exact h.cap m hm
  · rw [hsame]
    exact ((he.mem v).mp hv).2
  · rw [hsame, ← h.visited]
    exact (h.cap m rfl).antisymm hfull

/-- A level that fits in part is kept up to the cap, and misses the rest. -/
theorem cutPartial {m : ℕ} (he : S.Expanded start k st levels next)
    (h : S.Searching start hops (some m) k st) (hk : k < hops) (hroom : st.visited < m)
    (hover : m < st.visited + next.length) :
    S.Searched start hops (some m) (unmark levels (next.drop (m - st.visited))) true := by
  have hsub : (next.drop (m - st.visited)).toFinset ⊆ IssunDB.marked levels := by
    intro w hw
    rw [he.marked]
    apply Finset.mem_union_right
    rw [mem_toFinset] at hw ⊢
    exact mem_of_mem_drop hw
  have hdropped : (next.drop (m - st.visited)).Nodup := he.nodup.sublist (drop_sublist _ _)
  have hcount : (IssunDB.marked (unmark levels (next.drop (m - st.visited)))).card = m := by
    rw [marked_unmark, Finset.card_sdiff_of_subset hsub, he.card,
      toFinset_card_of_nodup hdropped, length_drop]
    omega
  obtain ⟨v, hv⟩ : ∃ v, v ∈ next.drop (m - st.visited) := by
    apply exists_mem_of_ne_nil
    rw [Ne, drop_eq_nil_iff]
    omega
  have hvnext := mem_of_mem_drop hv
  refine ⟨by simpa using he.length, fun m' hm => ?_, fun w hw => ?_,
    iff_of_true rfl ⟨v, within_mono hk (he.reach v hvnext), ?_⟩, fun _ => ⟨m, rfl, hcount⟩⟩
  · obtain rfl := Option.some.inj hm
    exact hcount.le
  · rw [marked_unmark, he.marked, Finset.mem_sdiff, Finset.mem_union, mem_toFinset] at hw
    exact hw.1.elim (fun hw => within_mono hk.le (h.reach w hw))
      fun hw => within_mono hk (he.reach w hw)
  · rw [marked_unmark, Finset.mem_sdiff, mem_toFinset]
    exact fun hin => hin.2 hv

end Expanded

lemma Searching.searchLevels {remaining : ℕ} (h : S.Searching start hops maxNodes k st)
    (hk : k + remaining = hops) (hop : ℕ) :
    S.Searched start hops maxNodes (S.searchLevels maxNodes remaining hop st).levels
      (S.searchLevels maxNodes remaining hop st).truncated := by
  induction remaining generalizing k hop st with
  | zero =>
    obtain rfl : k = hops := hk
    exact h.searched
  | succ remaining ih =>
    have he := h.expanded hop
    rw [CsrArrays.searchLevels]
    generalize S.expandFrontier st.frontier hop st.levels = r at he ⊢
    obtain ⟨levels, next⟩ := r
    dsimp only at he ⊢
    split
    next hnil =>
      subst hnil
      exact he.exhausted h (by omega)
    next hnonempty =>
      cases maxNodes with
      | none => exact ih (he.advance h hnonempty (by simp)) (by omega) _
      | some m =>
        dsimp only
        split
        next hfull => exact he.cutFull h (by omega) hnonempty hfull
        next hroom =>
          split
          next hover => exact he.cutPartial h (by omega) (not_le.mp hroom) hover
          next hfits =>
            refine ih (he.advance h hnonempty fun m' hm => ?_) (by omega) _
            obtain rfl := Option.some.inj hm
            omega

/-! ## Seeding -/

lemma searching_admitSeeds (hops : ℕ) {seeds : List NodeId}
    (hlen : st.levels.length = S.n) (hvisited : st.visited = (IssunDB.marked st.levels).card)
    (hcap : ∀ m, maxNodes = some m → st.visited ≤ m)
    (hfrontier : ∀ v, v ∈ st.frontier ↔ v ∈ IssunDB.marked st.levels)
    (hstart : ∀ v ∈ IssunDB.marked st.levels, v ∈ start) (huncut : st.truncated = false)
    (hseeds : ∀ seed ∈ seeds, ∀ d, S.idToDense.get seed = some d → d ∈ start)
    (hleft : ∀ d ∈ start, d ∉ IssunDB.marked st.levels →
      ∃ seed ∈ seeds, S.idToDense.get seed = some d) :
    S.Searching start hops maxNodes 0 (S.admitSeeds maxNodes seeds st) := by
  induction seeds generalizing st with
  | nil =>
    refine ⟨hlen, hvisited, hcap, fun v hv => (hfrontier v).mp hv, hstart, fun _ => ⟨?_, ?_⟩,
      fun ht => ?_⟩
    · intro v hv
      by_contra hnot
      obtain ⟨seed, hseed, -⟩ := hleft v hv hnot
      cases hseed
    · exact fun a ha hnot => absurd ((hfrontier a).mpr ha) hnot
    · rw [show st.truncated = true from ht] at huncut
      cases huncut
  | cons seed seeds ih =>
    have hrest : ∀ seed' ∈ seeds, ∀ d, S.idToDense.get seed' = some d → d ∈ start :=
      fun seed' hs => hseeds seed' (mem_cons_of_mem _ hs)
    rw [CsrArrays.admitSeeds]
    split
    next hunknown =>
      refine ih hlen hvisited hcap hfrontier hstart huncut hrest fun d hd hnot => ?_
      obtain ⟨seed', hs, hget⟩ := hleft d hd hnot
      rcases mem_cons.mp hs with rfl | hs
      · rw [hunknown] at hget
        cases hget
      · exact ⟨seed', hs, hget⟩
    next dense hknown =>
      have hdense : dense ∈ start := hseeds seed mem_cons_self dense hknown
      have hlt : dense < st.levels.length := by
        rw [hlen]
        exact (List.getElem?_eq_some_iff.mp (S.get_idToDense.mp hknown)).1
      split
      next hseen =>
        have hin : dense ∈ IssunDB.marked st.levels := by
          by_contra hnot
          exact hseen (getD_eq_none_iff.mpr hnot)
        refine ih hlen hvisited hcap hfrontier hstart huncut hrest fun d hd hnot => ?_
        obtain ⟨seed', hs, hget⟩ := hleft d hd hnot
        rcases mem_cons.mp hs with rfl | hs
        · obtain rfl := Option.some.inj (hknown.symm.trans hget)
          exact absurd hin hnot
        · exact ⟨seed', hs, hget⟩
      next hnew =>
        have hnot : dense ∉ IssunDB.marked st.levels := getD_eq_none_iff.mp (not_ne_iff.mp hnew)
        split
        next hfull =>
          -- The cap leaves this seed out.
          obtain ⟨m, hm, hle⟩ : ∃ m, maxNodes = some m ∧ m ≤ st.visited := by
            simpa [Option.any_eq_true] using hfull
          refine ⟨hlen, hvisited, hcap, fun v hv => (hfrontier v).mp hv, hstart, fun hf => ?_,
            fun _ => ⟨⟨m, hm, hle⟩, dense, within_mono (Nat.zero_le _) hdense, hnot⟩⟩
          cases hf
        next hroom =>
          have hmarked := marked_set_some hlt 0
          apply ih
          · simpa using hlen
          · dsimp only
            rw [hmarked, Finset.card_insert_of_notMem hnot, hvisited]
          · intro m hm
            have : ¬ m ≤ st.visited := by
              intro hle
              exact hroom (by simp [hm, hle])
            dsimp only
            omega
          · intro v
            dsimp only
            rw [hmarked, mem_append, Finset.mem_insert, hfrontier]
            simp [or_comm]
          · intro v hv
            rw [hmarked, Finset.mem_insert] at hv
            exact hv.elim (fun hv => hv ▸ hdense) (hstart v)
          · exact huncut
          · exact hrest
          · intro d hd hnotd
            rw [hmarked, Finset.mem_insert, not_or] at hnotd
            obtain ⟨seed', hs, hget⟩ := hleft d hd hnotd.2
            rcases mem_cons.mp hs with rfl | hs
            · exact absurd (Option.some.inj (hget.symm.trans hknown)) hnotd.1
            · exact ⟨seed', hs, hget⟩

/-- A search that marked no seed has nothing to expand. -/
theorem Searching.searched_of_empty (h : S.Searching start hops maxNodes 0 st)
    (hmarked : IssunDB.marked st.levels = ∅) :
    S.Searched start hops maxNodes st.levels st.truncated where
  length := h.length
  cap := by simp [hmarked]
  reach := by simp [hmarked]
  flag := by
    constructor
    · exact fun ht => (h.cut ht).2
    · rintro ⟨d, hd, -⟩
      by_contra hf
      have hstart : start = ∅ := by
        rw [Set.eq_empty_iff_forall_notMem]
        intro v hv
        have hin := (h.whole (by simpa using hf)).1 v hv
        rw [hmarked] at hin
        cases hin
      rw [hstart, within_empty] at hd
      exact hd
  full := h.full

lemma Searching.sortFrontier (h : S.Searching start hops maxNodes k st) :
    S.Searching start hops maxNodes k { st with frontier := st.frontier.mergeSort (· ≤ ·) } := by
  have hmem : ∀ v, v ∈ st.frontier.mergeSort (· ≤ ·) ↔ v ∈ st.frontier :=
    fun v => (mergeSort_perm st.frontier (· ≤ ·)).mem_iff
  refine ⟨h.length, h.visited, h.cap, fun v hv => h.frontier v ((hmem v).mp hv), h.reach,
    fun huncut => ⟨(h.whole huncut).1, fun a ha hnot => ?_⟩, h.cut⟩
  exact (h.whole huncut).2 a ha fun hin => hnot ((hmem a).mpr hin)

/-! ## Results by node id -/

variable (S)

def seedIndices (seeds : List NodeId) : Set ℕ := {d | ∃ seed ∈ seeds, S.idToDense.get seed = some d}

lemma mem_withinHops (seeds : List NodeId) (hops : ℕ) (id : NodeId) :
    id ∈ S.withinHops seeds hops ↔
      ∃ d ∈ within S.DenseStep (S.seedIndices seeds) hops, S.denseToId[d]? = some id := by
  apply mem_within_of_names fun d id => S.denseToId[d]? = some id
  · intro id
    constructor
    · rintro ⟨hseed, hknown⟩
      obtain ⟨d, hd⟩ := mem_iff_getElem?.mp hknown
      exact ⟨d, ⟨id, hseed, S.get_idToDense.mpr hd⟩, hd⟩
    · rintro ⟨d, ⟨seed, hseed, hget⟩, hd⟩
      obtain rfl := Option.some.inj ((S.get_idToDense.mp hget).symm.trans hd)
      exact ⟨hseed, mem_of_getElem? hd⟩
  · intro d id id' hd
    constructor
    · rintro ⟨e, he, hsrc, hdst⟩
      have hlt : e.src < S.denseToId.length := S.src_lt he
      have heq : e.src = d :=
        (getElem?_inj hlt S.denseToId_nodup).mp (hsrc.trans hd.symm)
      exact ⟨e.dst, ⟨e, he, heq, rfl⟩, hdst⟩
    · rintro ⟨d', ⟨e, he, rfl, rfl⟩, hd'⟩
      exact ⟨e, he, hd, hd'⟩
  · rintro d d' ⟨e, he, rfl, -⟩
    exact ⟨_, getElem?_eq_getElem (S.src_lt he)⟩

lemma exists_id_of_within {seeds : List NodeId} {hops d : ℕ}
    (h : d ∈ within S.DenseStep (S.seedIndices seeds) hops) : ∃ id, S.denseToId[d]? = some id := by
  induction hops with
  | zero =>
    obtain ⟨seed, -, hget⟩ := h
    exact ⟨seed, S.get_idToDense.mp hget⟩
  | succ hops ih =>
    rcases h with h | ⟨a, -, e, he, -, rfl⟩
    · exact ih h
    · exact ⟨_, getElem?_eq_getElem (S.dst_lt he)⟩

/-- The result lists the marked indices in order. -/
theorem reachedInOrder_eq {levels : Levels} (hlen : levels.length = S.n) :
    S.reachedInOrder levels = ((List.range S.n).filter (· ∈ IssunDB.marked levels)).map
      fun d => S.denseToId.getD d 0 := by
  have hzip : levels.zipIdx = (List.range S.n).map fun d => (levels.getD d none, d) := by
    apply ext_getElem (by simp [hlen])
    intro d h₁ h₂
    have hd : d < levels.length := by simpa using h₁
    rw [getElem_zipIdx, getElem_map, getElem_range, getD_eq_getElem _ _ hd,
      Nat.zero_add]
  rw [CsrArrays.reachedInOrder, hzip, filter_map, map_map]
  have hfilter : (List.range S.n).filter
      ((fun p : Option ℕ × ℕ => p.1.isSome) ∘ fun d => (levels.getD d none, d)) =
        (List.range S.n).filter (· ∈ IssunDB.marked levels) := by
    apply filter_congr
    intro d _
    simp [mem_marked]
  rw [hfilter]
  rfl

lemma mem_reachedInOrder {levels : Levels} (hlen : levels.length = S.n) {id : NodeId} :
    id ∈ S.reachedInOrder levels ↔ ∃ d ∈ IssunDB.marked levels, S.denseToId[d]? = some id := by
  rw [reachedInOrder_eq S hlen, mem_map]
  simp only [mem_filter, mem_range, decide_eq_true_eq]
  constructor
  · rintro ⟨d, ⟨hlt, hd⟩, rfl⟩
    refine ⟨d, hd, ?_⟩
    rw [getD_eq_getElem _ _ hlt]
    exact getElem?_eq_getElem hlt
  · rintro ⟨d, hd, hid⟩
    obtain ⟨hlt, heq⟩ := List.getElem?_eq_some_iff.mp hid
    exact ⟨d, ⟨hlt, hd⟩, (getD_eq_getElem _ _ hlt).trans heq⟩

lemma reachedInOrder_ascending {levels : Levels} (hlen : levels.length = S.n) :
    (S.reachedInOrder levels).Pairwise (· < ·) := by
  rw [reachedInOrder_eq S hlen, pairwise_map]
  have hrange : ((List.range S.n).filter (· ∈ IssunDB.marked levels)).Pairwise (· < ·) :=
    pairwise_lt_range.filter _
  apply hrange.imp_of_mem
  intro a b ha hb hab
  have hlt : ∀ d ∈ (List.range S.n).filter (· ∈ IssunDB.marked levels), d < S.denseToId.length :=
    fun d hd => mem_range.mp (mem_of_mem_filter hd)
  rw [getD_eq_getElem _ _ (hlt a ha), getD_eq_getElem _ _ (hlt b hb)]
  exact pairwise_iff_getElem.mp S.wellFormed.ids_ascending a b (hlt a ha) (hlt b hb) hab

lemma length_reachedInOrder {levels : Levels} (hlen : levels.length = S.n) :
    (S.reachedInOrder levels).length = (IssunDB.marked levels).card := by
  have hset : ((List.range S.n).filter (· ∈ IssunDB.marked levels)).toFinset =
      IssunDB.marked levels := by
    ext d
    rw [mem_toFinset, mem_filter, mem_range, decide_eq_true_eq,
      and_iff_right_iff_imp, IssunDB.marked, Finset.mem_filter, Finset.mem_range, hlen]
    exact fun h => h.1
  have hcard := toFinset_card_of_nodup
    (nodup_range.filter (p := (· ∈ IssunDB.marked levels)) (l := List.range S.n))
  rw [hset] at hcard
  rw [reachedInOrder_eq S hlen, length_map, hcard]

lemma exists_searched (seeds : List NodeId) (hops : ℕ) (maxNodes : Option ℕ) :
    ∃ levels truncated, S.Searched (S.seedIndices seeds) hops maxNodes levels truncated ∧
      S.bfsMultiSource seeds hops maxNodes = (S.reachedInOrder levels, truncated) := by
  have hempty : marked (List.replicate S.n none) = ∅ := marked_replicate S.n
  have hnone : S.reachedInOrder (List.replicate S.n none) = [] := by
    apply eq_nil_of_length_eq_zero
    rw [length_reachedInOrder S (by simp), hempty, Finset.card_empty]
  have hseeded : S.Searching (S.seedIndices seeds) hops maxNodes 0
      (S.admitSeeds maxNodes seeds ⟨List.replicate S.n none, [], false, 0⟩) := by
    apply searching_admitSeeds
    · simp
    · rw [hempty]
      rfl
    · exact fun m _ => Nat.zero_le m
    · simp [hempty]
    · simp [hempty]
    · rfl
    · exact fun seed hseed d hd => ⟨seed, hseed, hd⟩
    · rintro d ⟨seed, hseed, hd⟩ -
      exact ⟨seed, hseed, hd⟩
  rw [CsrArrays.bfsMultiSource]
  dsimp only
  split
  next htrivial =>
    refine ⟨_, false, ⟨by simp, by simp [hempty], by simp [hempty], iff_of_false (by simp) ?_,
      fun ht => by cases ht⟩, Prod.ext hnone.symm rfl⟩
    rintro ⟨d, hd, -⟩
    have hstart : S.seedIndices seeds = ∅ := by
      rw [Set.eq_empty_iff_forall_notMem]
      rintro d ⟨seed, hseed, hget⟩
      rcases htrivial with rfl | hn
      · cases hseed
      · have := (List.getElem?_eq_some_iff.mp (S.get_idToDense.mp hget)).1
        omega
    rw [hstart, within_empty] at hd
    exact hd
  next =>
    split
    next hzero =>
      have hmarked := Finset.card_eq_zero.mp (hseeded.visited.symm.trans hzero)
      refine ⟨_, _, hseeded.searched_of_empty hmarked, Prod.ext (Eq.symm ?_) rfl⟩
      apply eq_nil_of_length_eq_zero
      rw [length_reachedInOrder S hseeded.length, hmarked, Finset.card_empty]
    next => exact ⟨_, _, hseeded.sortFrontier.searchLevels (Nat.zero_add hops) 1, rfl⟩

end Snapshot

/-- **Multi-source search.** The result of a search ascends and is within `hops` outgoing steps of
a known seed, it never exceeds the cap, and it is flagged iff something within reach is missing.
Only the cap makes something miss: a flagged result has as many nodes as the cap admits. -/
theorem Snapshot.bfsMultiSource_spec (S : Snapshot) (seeds : List NodeId) (hops : ℕ)
    (maxNodes : Option ℕ) :
    (S.bfsMultiSource seeds hops maxNodes).1.Pairwise (· < ·) ∧
      (∀ id ∈ (S.bfsMultiSource seeds hops maxNodes).1, id ∈ S.withinHops seeds hops) ∧
      (∀ m, maxNodes = some m → (S.bfsMultiSource seeds hops maxNodes).1.length ≤ m) ∧
      ((S.bfsMultiSource seeds hops maxNodes).2 = true ↔
        ∃ id ∈ S.withinHops seeds hops, id ∉ (S.bfsMultiSource seeds hops maxNodes).1) ∧
      ((S.bfsMultiSource seeds hops maxNodes).2 = true →
        ∃ m, maxNodes = some m ∧ (S.bfsMultiSource seeds hops maxNodes).1.length = m) := by
  obtain ⟨levels, truncated, hdone, heq⟩ := S.exists_searched seeds hops maxNodes
  rw [heq]
  refine ⟨S.reachedInOrder_ascending hdone.length, fun id hid => ?_, fun m hm => ?_, ?_,
    fun ht => ?_⟩
  · obtain ⟨d, hd, hget⟩ := (S.mem_reachedInOrder hdone.length).mp hid
    exact (S.mem_withinHops seeds hops id).mpr ⟨d, hdone.reach d hd, hget⟩
  · rw [S.length_reachedInOrder hdone.length]
    exact hdone.cap m hm
  · dsimp only
    rw [hdone.flag]
    constructor
    · rintro ⟨d, hd, hnot⟩
      obtain ⟨id, hid⟩ := S.exists_id_of_within hd
      refine ⟨id, (S.mem_withinHops seeds hops id).mpr ⟨d, hd, hid⟩, fun hin => hnot ?_⟩
      obtain ⟨d', hd', hid'⟩ := (S.mem_reachedInOrder hdone.length).mp hin
      have hlt := (List.getElem?_eq_some_iff.mp hid').1
      obtain rfl := (getElem?_inj hlt S.denseToId_nodup).mp (hid'.trans hid.symm)
      exact hd'
    · rintro ⟨id, hid, hnot⟩
      obtain ⟨d, hd, hget⟩ := (S.mem_withinHops seeds hops id).mp hid
      exact ⟨d, hd, fun hin => hnot ((S.mem_reachedInOrder hdone.length).mpr ⟨d, hin, hget⟩)⟩
  · rw [S.length_reachedInOrder hdone.length]
    exact hdone.full ht

end IssunDB
