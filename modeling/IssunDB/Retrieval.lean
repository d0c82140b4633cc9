import IssunDB.Csr.Expand
import IssunDB.Lib.Reach
import IssunDB.Text.Scorers
import IssunDB.Vector.Index

/-!
# Retrieved subgraphs

`bfsMultiSourceUndirected` admits the seeds that exist, and then hop by hop the nodes at the other
end of an edge of either direction, until `maxNodes` nodes are admitted. `retrieveWith` and
`retrieveHybrid` start it from search results and add the edges between the nodes found.

* `Expansion.Searching` — the invariant: an uncut search has admitted exactly what lies within the
  current number of steps, and a cut one leaves something out;
* `bfsMultiSourceUndirected_spec` — what comes out of it;
* `retrieved_exact` — expansions, and the subgraphs of what the searches find.
-/

namespace IssunDB.Retrieval

open List IssunDB.Vector Text

/-- `RetrievalError`. -/
inductive RetrievalError where
  | core (e : Error)
  | vector (e : VectorError)
  | noQuery
  | text (e : TextError)

/-- A subgraph. Its nodes and edges have no order; here they ascend. -/
structure Subgraph where
  nodes : List NodeId
  edges : List EdgeId
  scores : Table NodeId F32
  truncated : Bool

/-! ## Expansion -/

/-- The state of an expansion. -/
structure Expansion where
  visited : Finset NodeId
  frontier : List NodeId
  truncated : Bool

section Definitions

variable (s : Storage)

/-- `node_exists`. -/
def nodeExists (n : NodeId) : Bool := (s.tables.nodes.get n).isSome

/-- Admit the seeds that exist, each once, until the cap is reached. -/
def admitSeeds (maxNodes : Option ℕ) : List NodeId → Expansion → Expansion
  | [], st => st
  | seed :: seeds, st =>
    if seed ∈ st.visited ∨ nodeExists s seed = false then admitSeeds maxNodes seeds st
    else if maxNodes.any (· ≤ st.visited.card) then { st with truncated := true }
    else admitSeeds maxNodes seeds
      { st with visited := insert seed st.visited, frontier := st.frontier ++ [seed] }

/-- The nodes that a frontier meets in either direction and that were not admitted before. Each of
the two expansions may find the snapshot stale. -/
def discover (stale : Bool → Bool) (st : Expansion) : Except Error (Finset NodeId) := do
  let out ← s.expandBulk (stale false) st.frontier none false
  let inc ← s.expandBulk (stale true) st.frontier none true
  return ((out ++ inc).map fun t => t.2.2).toFinset \ st.visited

/-- Expand `remaining` more hops, the first of them being the hop number `hop`. -/
def expandHops (stale : ℕ → Bool → Bool) (maxNodes : Option ℕ) :
    (remaining hop : ℕ) → Expansion → Except Error Expansion
  | 0, _, st => .ok st
  | remaining + 1, hop, st => (discover s (stale hop) st).bind fun discovered =>
    let next := discovered.ascending
    if next = [] then .ok st
    else if maxNodes.any (· ≤ st.visited.card) then .ok { st with truncated := true }
    else if maxNodes.any (· < st.visited.card + next.length) then
      let kept := next.take (maxNodes.getD 0 - st.visited.card)
      .ok { st with visited := st.visited ∪ kept.toFinset, truncated := true }
    else expandHops stale maxNodes remaining (hop + 1)
      { st with visited := st.visited ∪ next.toFinset, frontier := next }

/-- `bfs_multi_source_undirected`. -/
def bfsMultiSourceUndirected (stale : ℕ → Bool → Bool) (seeds : List NodeId) (hops : ℕ)
    (maxNodes : Option ℕ) : Except Error (List NodeId × Bool) := do
  let st := admitSeeds s maxNodes seeds ⟨∅, [], false⟩
  if st.visited = ∅ then return ([], st.truncated)
  let st ← expandHops s stale maxNodes hops 0 st
  return (st.visited.ascending, st.truncated)

/-- `induced_edges`. -/
def inducedEdges (nodes : List NodeId) : List EdgeId :=
  (nodes.flatMap fun n => ((s.adj.entries n true).filter fun ne => ne.other ∈ nodes).map
    fun ne => ne.edgeId).toFinset.ascending

/-- There is an edge between two nodes, in either direction. -/
def Adjacent (a b : NodeId) : Prop :=
  ∃ id r, s.tables.edges.get id = some r ∧ (r.src = a ∧ r.dst = b ∨ r.src = b ∧ r.dst = a)

/-- What lies within `hops` steps, in any direction, of a seed that exists. -/
def ball (seeds : List NodeId) (hops : ℕ) : Set NodeId :=
  within (Adjacent s) {n | n ∈ seeds ∧ nodeExists s n = true} hops

/-- What an expansion promises of the nodes it returns and of its flag. -/
structure Expands (seeds : List NodeId) (hops : ℕ) (maxNodes : Option ℕ) (nodes : List NodeId)
    (truncated : Bool) : Prop where
  ascending : nodes.Pairwise (· < ·)
  reached : ∀ n ∈ nodes, n ∈ ball s seeds hops
  capped : ∀ m ∈ maxNodes, nodes.length ≤ m
  /-- A seed is not left out for one behind it. -/
  seedsInOrder : ∀ front seed back, seeds = front ++ seed :: back → seed ∉ front → seed ∈ nodes →
    ∀ n ∈ front, nodeExists s n = true → n ∈ nodes
  /-- A seed is not left out for a node that is no seed. -/
  seedsFirst : (∃ seed ∈ seeds, nodeExists s seed = true ∧ seed ∉ nodes) → ∀ n ∈ nodes, n ∈ seeds
  flagged : truncated = true ↔ ∃ n ∈ ball s seeds hops, n ∉ nodes
  /-- Nothing is left out but for the cap. -/
  cut : truncated = true → ∃ m ∈ maxNodes, nodes.length = m

end Definitions

/-! ## One hop -/

section Hop

variable {s : Storage} (h : s.AdjacencyAgrees)

include h

/-- Whichever way an expansion is read, it has the edges of its sources. -/
theorem mem_of_expandBulk {stale incoming : Bool} {sources : List NodeId}
    {l : List (NodeId × EdgeId × NodeId)} (hl : s.expandBulk stale sources none incoming = .ok l)
    (x : NodeId × EdgeId × NodeId) :
    x ∈ l ↔ ∃ src ∈ sources, x ∈ s.expandInOrder none incoming src := by
  have htype : s.tables.resolveType none = some none := rfl
  rw [Storage.expandBulk, htype] at hl
  dsimp only at hl
  split at hl
  next =>
    rw [← Except.ok.inj hl, Storage.expandPoint, mem_flatMap]
    exact exists_congr fun src => and_congr_right fun _ => mem_pointRow h
  next =>
    obtain ⟨S, hS⟩ : ∃ S, CsrArrays.build s false = .ok S := by
      rcases hbuild : CsrArrays.build s false with e | S
      · rw [hbuild] at hl
        cases hl
      · exact ⟨S, rfl⟩
    obtain ⟨-, hrows⟩ := (build_map_eq_ok_iff h).mp hl
    rw [← hrows S hS, expandRows_eq, mem_flatMap]
    exact exists_congr fun src => and_congr_right fun _ => mem_csrRow h hS

/-- An expansion succeeds if the edges fit into a snapshot. -/
theorem exists_expandBulk (hsize : s.tables.edges.keys.card ≤ maxSnapshotEdges)
    (stale incoming : Bool)
    (sources : List NodeId) : ∃ l, s.expandBulk stale sources none incoming = .ok l := by
  have htype : s.tables.resolveType none = some none := rfl
  rw [Storage.expandBulk, htype]
  dsimp only
  split
  next => exact ⟨_, rfl⟩
  next =>
    rw [CsrArrays.build_eq h, Storage.length_flatten_outRows h, if_neg (not_lt.mpr hsize)]
    exact ⟨_, rfl⟩

/-- An expansion of both directions discovers what is adjacent to the frontier and new. -/
theorem mem_of_discover {stale : Bool → Bool} {st : Expansion} {discovered : Finset NodeId}
    (hd : discover s stale st = .ok discovered) (n : NodeId) :
    n ∈ discovered ↔ (∃ a ∈ st.frontier, Adjacent s a n) ∧ n ∉ st.visited := by
  unfold discover at hd
  rcases hout : s.expandBulk (stale false) st.frontier none false with e | out
  · rw [hout] at hd
    exact nomatch hd
  rcases hinc : s.expandBulk (stale true) st.frontier none true with e | inc
  · rw [hout, hinc] at hd
    exact nomatch hd
  rw [hout, hinc] at hd
  rw [← Except.ok.inj hd, Finset.mem_sdiff, mem_toFinset, mem_map]
  refine and_congr_left fun _ => ?_
  simp only [mem_append, mem_of_expandBulk h hout, mem_of_expandBulk h hinc, mem_expandInOrder]
  constructor
  · rintro ⟨x, ⟨a, ha, r, hget, hr, hx⟩ | ⟨a, ha, r, hget, hr, hx⟩, rfl⟩
    all_goals
      have hnear := of_decide_eq_true (Bool.and_eq_true_iff.mp hr).1
      refine ⟨a, ha, x.2.1, r, hget, ?_⟩
      rw [hx]
    · exact .inl ⟨hnear, rfl⟩
    · exact .inr ⟨rfl, hnear⟩
  · rintro ⟨a, ha, id, r, hget, ⟨hsrc, hdst⟩ | ⟨hsrc, hdst⟩⟩
    · refine ⟨(a, id, n), .inl ⟨a, ha, r, hget, ?_, ?_⟩, rfl⟩
      · exact Bool.and_eq_true_iff.mpr ⟨decide_eq_true hsrc, rfl⟩
      · exact Prod.ext rfl (Prod.ext rfl hdst.symm)
    · refine ⟨(a, id, n), .inr ⟨a, ha, r, hget, ?_, ?_⟩, rfl⟩
      · exact Bool.and_eq_true_iff.mpr ⟨decide_eq_true hdst, rfl⟩
      · exact Prod.ext rfl (Prod.ext rfl hsrc.symm)

lemma exists_discover (hsize : s.tables.edges.keys.card ≤ maxSnapshotEdges) (stale : Bool → Bool)
    (st : Expansion) : ∃ discovered, discover s stale st = .ok discovered := by
  obtain ⟨out, hout⟩ := exists_expandBulk h hsize (stale false) false st.frontier
  obtain ⟨inc, hinc⟩ := exists_expandBulk h hsize (stale true) true st.frontier
  unfold discover
  rw [hout, hinc]
  exact ⟨_, rfl⟩

end Hop

/-! ## Seeds -/

def AtCap (maxNodes : Option ℕ) (st : Expansion) : Prop := ∃ m ∈ maxNodes, m ≤ st.visited.card

lemma any_le_iff {maxNodes : Option ℕ} {i : ℕ} :
    maxNodes.any (· ≤ i) = true ↔ ∃ m ∈ maxNodes, m ≤ i := by
  cases maxNodes with
  | none => simp
  | some m => simp

lemma any_lt_iff {maxNodes : Option ℕ} {i : ℕ} :
    maxNodes.any (· < i) = true ↔ ∃ m ∈ maxNodes, m < i := by
  cases maxNodes with
  | none => simp
  | some m => simp

section Seeds

variable {s : Storage} {maxNodes : Option ℕ}

/-- What admitting seeds has done with a list of them. -/
structure Admitted (s : Storage) (maxNodes : Option ℕ) (seeds : List NodeId) (st : Expansion)
    (front back : List NodeId) (st' : Expansion) : Prop where
  split : seeds = front ++ back
  visited : ∀ n, n ∈ st'.visited ↔ n ∈ st.visited ∨ n ∈ front ∧ nodeExists s n = true
  frontier : ∀ n, n ∈ st'.frontier ↔ n ∈ st.frontier ∨ n ∈ st'.visited ∧ n ∉ st.visited
  capped : (∀ m ∈ maxNodes, st.visited.card ≤ m) → ∀ m ∈ maxNodes, st'.visited.card ≤ m
  /-- Either all seeds were looked at, or one that exists is left out at the cap. -/
  rest : back = [] ∧ st'.truncated = st.truncated ∨
    (∃ seed tail, back = seed :: tail ∧ nodeExists s seed = true ∧ seed ∉ st'.visited) ∧
      AtCap maxNodes st' ∧ st'.truncated = true

lemma admitSeeds_admitted (maxNodes : Option ℕ) (seeds : List NodeId) (st : Expansion) :
    ∃ front back, Admitted s maxNodes seeds st front back (admitSeeds s maxNodes seeds st) := by
  induction seeds generalizing st with
  | nil =>
    refine ⟨[], [], rfl, ?_, ?_, fun h => h, .inl ⟨rfl, rfl⟩⟩
    · simp [admitSeeds]
    · simp [admitSeeds]
  | cons seed seeds ih =>
    rw [admitSeeds]
    split
    next hskip =>
      -- A seed that is admitted already or that no node holds changes nothing.
      obtain ⟨front, back, ha⟩ := ih st
      refine ⟨seed :: front, back, by rw [ha.split]; rfl, fun n => ?_, ha.frontier,
        ha.capped, ha.rest⟩
      rw [ha.visited, mem_cons]
      by_cases hn : n = seed
      · subst hn
        rcases hskip with hin | hnone
        · simp [hin]
        · simp [hnone]
      · simp [hn]
    next hnew =>
      rw [not_or] at hnew
      have hexists : nodeExists s seed = true := by simpa using hnew.2
      split
      next hcap =>
        refine ⟨[], seed :: seeds, rfl, ?_, ?_, fun h => h,
          .inr ⟨⟨seed, seeds, rfl, hexists, hnew.1⟩, ?_, rfl⟩⟩
        · simp
        · simp
        · exact any_le_iff.mp hcap
      next hcap =>
        obtain ⟨front, back, ha⟩ := ih
          { st with visited := insert seed st.visited, frontier := st.frontier ++ [seed] }
        refine ⟨seed :: front, back, by rw [ha.split]; rfl, fun n => ?_, fun n => ?_,
          fun hle => ?_, ha.rest⟩
        · rw [ha.visited, Finset.mem_insert, mem_cons]
          by_cases hn : n = seed
          · subst hn
            simp [hexists]
          · simp [hn]
        · have hin : seed ∈ (admitSeeds s maxNodes seeds
              { st with
                visited := insert seed st.visited, frontier := st.frontier ++ [seed] }).visited :=
            (ha.visited seed).mpr (.inl (Finset.mem_insert_self _ _))
          rw [ha.frontier, mem_append, mem_singleton, Finset.mem_insert]
          by_cases hn : n = seed
          · subst hn
            simp [hin, hnew.1]
          · simp [hn]
        · refine ha.capped fun m hm => ?_
          rw [Finset.card_insert_of_notMem hnew.1]
          by_contra hlt
          exact hcap (any_le_iff.mpr ⟨m, hm, by omega⟩)

end Seeds

/-! ## Hops -/

/-- An uncut expansion has admitted what lies within `k` steps, and nothing outside of its frontier
has a step that leads out. -/
structure Searching (s : Storage) (seeds : List NodeId) (maxNodes : Option ℕ) (k : ℕ)
    (st : Expansion) : Prop where
  visited : (st.visited : Set NodeId) = ball s seeds k
  frontier : ∀ n ∈ st.frontier, n ∈ st.visited
  closed : ∀ a ∈ st.visited, a ∉ st.frontier → ∀ b, Adjacent s a b → b ∈ st.visited
  capped : ∀ m ∈ maxNodes, st.visited.card ≤ m
  uncut : st.truncated = false

/-- What an expansion is in the end. -/
structure Expanded (s : Storage) (seeds : List NodeId) (hops : ℕ) (maxNodes : Option ℕ)
    (st : Expansion) : Prop where
  reached : ∀ n ∈ st.visited, n ∈ ball s seeds hops
  capped : ∀ m ∈ maxNodes, st.visited.card ≤ m
  flagged : st.truncated = true ↔ ∃ n ∈ ball s seeds hops, n ∉ st.visited
  full : st.truncated = true → AtCap maxNodes st

section Hops

variable {s : Storage} {seeds : List NodeId} {maxNodes : Option ℕ} {k hops : ℕ} {st st' : Expansion}

lemma Searching.atCap (h : Searching s seeds maxNodes k st) (hcut : st.truncated = true) :
    AtCap maxNodes st :=
  absurd (h.uncut.symm.trans hcut) Bool.false_ne_true

lemma Searching.expanded (h : Searching s seeds maxNodes hops st) :
    Expanded s seeds hops maxNodes st where
  reached n hn := h.visited ▸ Finset.mem_coe.mpr hn
  capped := h.capped
  flagged := by
    rw [h.uncut, ← h.visited]
    simp
  full := h.atCap

/-- The nodes within one step more are those admitted and those discovered. -/
theorem Searching.ball_succ (h : Searching s seeds maxNodes k st) {discovered : Finset NodeId}
    (hd : ∀ n, n ∈ discovered ↔ (∃ a ∈ st.frontier, Adjacent s a n) ∧ n ∉ st.visited) :
    ball s seeds (k + 1) = ↑(st.visited ∪ discovered) := by
  have hmem : ∀ n, n ∈ st.visited ↔ n ∈ ball s seeds k :=
    fun n => by rw [← h.visited, Finset.mem_coe]
  rw [ball, within_succ_of_frontier {n | n ∈ st.frontier}
    (fun n hn => (hmem n).mp (h.frontier n hn))
    (fun a ha hfront b hab => (hmem b).mp (h.closed a ((hmem a).mpr ha) hfront b hab))]
  ext n
  rw [Set.mem_union, Finset.mem_coe, Finset.mem_union, hd, hmem]
  exact ⟨fun hn => hn.elim .inl fun hstep => (em _).imp id fun hnot => ⟨hstep, hnot⟩,
    fun hn => hn.imp id And.left⟩

/-- Where not all that was discovered fits, what is kept fills the room. -/
theorem card_union_take {visited discovered : Finset NodeId} {m : ℕ}
    (hnew : Disjoint visited discovered) (hroom : visited.card ≤ m)
    (hover : m < visited.card + discovered.card) :
    (visited ∪ (discovered.ascending.take (m - visited.card)).toFinset).card = m := by
  have hsub : (discovered.ascending.take (m - visited.card)).toFinset ⊆ discovered :=
    fun n hn => Finset.mem_ascending.mp (mem_of_mem_take (mem_toFinset.mp hn))
  have hnodup := discovered.ascending_nodup.sublist (take_sublist (m - visited.card) _)
  rw [Finset.card_union_of_disjoint (hnew.mono_right hsub), toFinset_card_of_nodup hnodup,
    length_take, Finset.length_ascending]
  omega

lemma expandHops_expanded (hs : s.AdjacencyAgrees) (stale : ℕ → Bool → Bool) {remaining hop : ℕ}
    (h : Searching s seeds maxNodes k st) (hk : k + remaining = hops)
    (hrun : expandHops s stale maxNodes remaining hop st = .ok st') :
    Expanded s seeds hops maxNodes st' ∧ st.visited ⊆ st'.visited := by
  induction remaining generalizing k hop st with
  | zero =>
    obtain rfl := Except.ok.inj hrun
    obtain rfl : k = hops := hk
    exact ⟨h.expanded, subset_rfl⟩
  | succ remaining ih =>
    rw [expandHops] at hrun
    rcases hd : discover s (stale hop) st with e | discovered
    · rw [hd] at hrun
      exact nomatch hrun
    rw [hd] at hrun
    have hmem := mem_of_discover hs hd
    have hball := h.ball_succ hmem
    have hmore : ball s seeds (k + 1) ⊆ ball s seeds hops := within_mono (by omega)
    -- Whatever is discovered lies within the hops, and so does what is kept of it.
    have hwithin : ∀ n ∈ st.visited ∪ discovered, n ∈ ball s seeds hops := by
      intro n hn
      exact hmore (hball ▸ Finset.mem_coe.mpr hn)
    change (if discovered.ascending = [] then _ else _) = _ at hrun
    split at hrun
    next hnone =>
      -- Nothing new: more hops add nothing either.
      obtain rfl := Except.ok.inj hrun
      have hempty : discovered = ∅ := by
        rw [← Finset.card_eq_zero, ← Finset.length_ascending, hnone]
        rfl
      have hclosed : ∀ a ∈ ball s seeds k, ∀ b, Adjacent s a b → b ∈ ball s seeds k := by
        intro a ha b hab
        have hb : b ∈ ball s seeds (k + 1) := .inr ⟨a, ha, hab⟩
        rw [hball, hempty, Finset.union_empty, h.visited] at hb
        exact hb
      have hsame : ball s seeds hops = ball s seeds k := within_eq_of_closed (by omega) hclosed
      refine ⟨⟨fun n hn => ?_, h.capped, ?_, h.atCap⟩, subset_rfl⟩
      · rw [hsame, ← h.visited]
        exact hn
      · rw [h.uncut, hsame, ← h.visited]
        simp
    next hsome =>
      obtain ⟨new, hnew⟩ := exists_mem_of_ne_nil _ hsome
      rw [Finset.mem_ascending] at hnew
      split at hrun
      next hfull =>
        -- The cap was reached before: what was discovered is left out.
        obtain rfl := Except.ok.inj hrun
        refine ⟨⟨fun n hn => hwithin n (Finset.mem_union_left _ hn), h.capped, iff_of_true rfl ?_,
          fun _ => any_le_iff.mp hfull⟩, subset_rfl⟩
        exact ⟨new, hwithin new (Finset.mem_union_right _ hnew), ((hmem new).mp hnew).2⟩
      next hfull =>
        split at hrun
        next hover =>
          -- Of what was discovered as much is kept as fits.
          obtain rfl := Except.ok.inj hrun
          obtain ⟨m, hm, hlt⟩ := any_lt_iff.mp hover
          obtain rfl : maxNodes = some m := hm
          have hroom : ¬m ≤ st.visited.card := fun hle => hfull (any_le_iff.mpr ⟨m, rfl, hle⟩)
          let kept := discovered.ascending.take (m - st.visited.card)
          have hkept : ∀ n ∈ kept, n ∈ discovered :=
            fun n hn => Finset.mem_ascending.mp (mem_of_mem_take hn)
          have hcard : (st.visited ∪ kept.toFinset).card = m :=
            card_union_take (Finset.disjoint_right.mpr fun n hn => ((hmem n).mp hn).2)
              (not_le.mp hroom).le (Finset.length_ascending discovered ▸ hlt)
          refine ⟨⟨fun n hn => hwithin n ?_, fun m' hm' => ?_, iff_of_true rfl ?_,
            fun _ => ⟨m, rfl, hcard.ge⟩⟩, Finset.subset_union_left⟩
          · exact Finset.union_subset_union_right
              (fun n hn => hkept n (mem_toFinset.mp hn)) hn
          · obtain rfl : m = m' := Option.some.inj hm'
            exact hcard.le
          · -- There are more nodes than are kept.
            obtain ⟨n, hn, hout⟩ := Finset.exists_mem_notMem_of_card_lt_card
              (s := st.visited ∪ kept.toFinset) (t := st.visited ∪ discovered) (by
                rw [hcard, Finset.card_union_of_disjoint
                  (Finset.disjoint_right.mpr fun n hn => ((hmem n).mp hn).2),
                  ← Finset.length_ascending discovered]
                exact hlt)
            exact ⟨n, hwithin n hn, hout⟩
        next hfits =>
          have hset : discovered.ascending.toFinset = discovered := by
            ext n
            rw [mem_toFinset, Finset.mem_ascending]
          have hnext : Searching s seeds maxNodes (k + 1)
              { st with visited := st.visited ∪ discovered.ascending.toFinset,
                        frontier := discovered.ascending } := by
            rw [hset]
            refine ⟨hball.symm, fun n hn => ?_, fun a ha hfront b hab => ?_,
              fun m hm => ?_, h.uncut⟩
            · exact Finset.mem_union_right _ (Finset.mem_ascending.mp hn)
            · rw [Finset.mem_ascending] at hfront
              have hold : a ∈ st.visited := (Finset.mem_union.mp ha).resolve_right hfront
              by_cases hstep : a ∈ st.frontier ∧ b ∉ st.visited
              · exact Finset.mem_union_right _ ((hmem b).mpr ⟨⟨a, hstep.1, hab⟩, hstep.2⟩)
              · refine Finset.mem_union_left _ ?_
                by_contra hb
                exact hb (h.closed a hold (fun hin => hstep ⟨hin, hb⟩) b hab)
            · refine (Finset.card_union_le _ _).trans ?_
              by_contra hgt
              refine hfits (any_lt_iff.mpr ⟨m, hm, ?_⟩)
              rw [Finset.length_ascending]
              omega
          obtain ⟨hexp, hsub⟩ := ih hnext (by omega) hrun
          exact ⟨hexp, Finset.subset_union_left.trans hsub⟩

/-- An expansion that has reached its cap admits nothing more. -/
theorem expandHops_atCap (stale : ℕ → Bool → Bool) {remaining hop : ℕ} (hcap : AtCap maxNodes st)
    (hcut : st.truncated = true) (hrun : expandHops s stale maxNodes remaining hop st = .ok st') :
    st' = st := by
  cases remaining with
  | zero => exact (Except.ok.inj hrun).symm
  | succ remaining =>
    rw [expandHops] at hrun
    rcases hd : discover s (stale hop) st with e | discovered
    · rw [hd] at hrun
      exact nomatch hrun
    rw [hd] at hrun
    change (if discovered.ascending = [] then _ else _) = _ at hrun
    rw [if_pos (any_le_iff.mpr hcap)] at hrun
    split at hrun
    next => exact (Except.ok.inj hrun).symm
    next =>
      rw [← Except.ok.inj hrun, ← hcut]

lemma exists_expandHops (hs : s.AdjacencyAgrees)
    (hsize : s.tables.edges.keys.card ≤ maxSnapshotEdges) (stale : ℕ → Bool → Bool)
    (maxNodes : Option ℕ) (remaining hop : ℕ) (st : Expansion) :
    ∃ st', expandHops s stale maxNodes remaining hop st = .ok st' := by
  induction remaining generalizing hop st with
  | zero => exact ⟨st, rfl⟩
  | succ remaining ih =>
    rw [expandHops]
    obtain ⟨discovered, hd⟩ := exists_discover hs hsize (stale hop) st
    rw [hd]
    change ∃ st', (if discovered.ascending = [] then _ else _) = _
    split
    · exact ⟨_, rfl⟩
    split
    · exact ⟨_, rfl⟩
    split
    · exact ⟨_, rfl⟩
    · exact ih _ _

end Hops

/-! ## The expansion from seeds -/

section Expansion

variable {s : Storage} {seeds : List NodeId} {hops : ℕ} {maxNodes : Option ℕ}
  {front back : List NodeId} {st : Expansion}

/-- When no seed is left out, the expansion starts with all that exist. -/
theorem Admitted.searching (ha : Admitted s maxNodes seeds ⟨∅, [], false⟩ front [] st)
    (huncut : st.truncated = false) : Searching s seeds maxNodes 0 st := by
  have hfront : front = seeds := by rw [ha.split, append_nil]
  have hall : ∀ n, n ∈ st.frontier ↔ n ∈ st.visited := fun n => by
    rw [ha.frontier]
    simp
  refine ⟨?_, fun n hn => (hall n).mp hn, fun a hin hout => absurd ((hall a).mpr hin) hout,
    ha.capped fun m _ => Nat.zero_le m, huncut⟩
  ext n
  rw [Finset.mem_coe, ha.visited, hfront]
  simp [ball, within]

/-- What is returned after `st` seeds were admitted and `st'` is found in the end. -/
theorem expands_of_expanded {st' : Expansion}
    (ha : Admitted s maxNodes seeds ⟨∅, [], false⟩ front back st)
    (hexp : Expanded s seeds hops maxNodes st') (hsub : st.visited ⊆ st'.visited)
    (hcut : back ≠ [] → st' = st) :
    Expands s seeds hops maxNodes st'.visited.ascending st'.truncated := by
  -- Of the seeds in `front` those that exist are returned.
  have hfront : ∀ n ∈ front, nodeExists s n = true → n ∈ st'.visited :=
    fun n hn hexists => hsub ((ha.visited n).mpr (.inr ⟨hn, hexists⟩))
  have hcutOff : ∀ n ∈ st'.visited, back ≠ [] → n ∈ front := by
    intro n hn hback
    rw [hcut hback, ha.visited] at hn
    exact (hn.resolve_left (Finset.notMem_empty n)).1
  refine ⟨Finset.ascending_pairwise_lt _, fun n hn => hexp.reached n (Finset.mem_ascending.mp hn),
    fun m hm => ?_, fun pre seed post hsplit hnew hseed n hn hexists => ?_, ?_, ?_,
    fun htrunc => ?_⟩
  · rw [Finset.length_ascending]
    exact hexp.capped m hm
  · rw [Finset.mem_ascending] at hseed ⊢
    refine hfront n ?_ hexists
    by_cases hback : back = []
    · rw [← append_nil front, ← hback, ← ha.split, hsplit]
      exact mem_append_left _ hn
    · -- The seed is in `front`, and so is what stands before it.
      have hin := hcutOff seed hseed hback
      have heq : front ++ back = pre ++ seed :: post := ha.split.symm.trans hsplit
      rcases append_eq_append_iff.mp heq with ⟨mid, hpre, -⟩ | ⟨mid, hfrontEq, -⟩
      · exact absurd (hpre ▸ mem_append_left _ hin) hnew
      · rw [hfrontEq]
        exact mem_append_left _ hn
  · rintro ⟨seed, hseed, hexists, hout⟩ n hn
    rw [Finset.mem_ascending] at hn hout
    have hback : back ≠ [] := by
      rintro rfl
      rw [ha.split, append_nil] at hseed
      exact hout (hfront seed hseed hexists)
    rw [ha.split]
    exact mem_append_left _ (hcutOff n hn hback)
  · rw [hexp.flagged]
    simp only [Finset.mem_ascending]
  · obtain ⟨m, hm, hle⟩ := hexp.full htrunc
    rw [Finset.length_ascending]
    exact ⟨m, hm, (hexp.capped m hm).antisymm hle⟩

lemma bfsMultiSourceUndirected_expands (hs : s.AdjacencyAgrees) {stale : ℕ → Bool → Bool}
    {r : List NodeId × Bool} (hrun : bfsMultiSourceUndirected s stale seeds hops maxNodes = .ok r) :
    Expands s seeds hops maxNodes r.1 r.2 := by
  obtain ⟨front, back, ha⟩ := admitSeeds_admitted (s := s) maxNodes seeds ⟨∅, [], false⟩
  unfold bfsMultiSourceUndirected at hrun
  generalize admitSeeds s maxNodes seeds ⟨∅, [], false⟩ = st at ha hrun
  change (if st.visited = ∅ then _ else _) = _ at hrun
  have hball : ∀ n ∈ st.visited, n ∈ ball s seeds 0 := by
    intro n hn
    obtain ⟨hin, hexists⟩ := ((ha.visited n).mp hn).resolve_left (Finset.notMem_empty n)
    exact ⟨ha.split ▸ mem_append_left _ hin, hexists⟩
  have hzero : ball s seeds 0 ⊆ ball s seeds hops := within_mono (Nat.zero_le hops)
  rcases ha.rest with ⟨rfl, huncut⟩ | ⟨⟨seed, tail, hback, hexists, hout⟩, hcap, hcut⟩
  · have hsearch := ha.searching huncut
    split at hrun
    next hnone =>
      obtain rfl := Except.ok.inj hrun
      have hempty : ball s seeds hops = ∅ := by
        have hstart : {n | n ∈ seeds ∧ nodeExists s n = true} = ∅ := by
          have hvisited : (st.visited : Set NodeId) = {n | n ∈ seeds ∧ nodeExists s n = true} :=
            hsearch.visited
          rw [← hvisited, hnone, Finset.coe_empty]
        rw [ball, hstart, within_empty]
      have hexp : Expanded s seeds hops maxNodes st := by
        refine ⟨fun n hn => hzero (hball n hn), hsearch.capped, ?_, hsearch.atCap⟩
        rw [huncut, hempty]
        simp
      have hexpands := expands_of_expanded ha hexp subset_rfl (fun hne => absurd rfl hne)
      rw [hnone] at hexpands
      exact hexpands
    next =>
      rcases hhops : expandHops s stale maxNodes hops 0 st with e | st'
      · rw [hhops] at hrun
        exact nomatch hrun
      rw [hhops] at hrun
      obtain rfl := Except.ok.inj hrun
      obtain ⟨hexp, hsub⟩ := expandHops_expanded hs stale hsearch (Nat.zero_add hops) hhops
      exact expands_of_expanded ha hexp hsub (fun hne => absurd rfl hne)
  · -- A seed is left out, so nothing is admitted any more.
    have hexp : Expanded s seeds hops maxNodes st := by
      refine ⟨fun n hn => hzero (hball n hn), ha.capped fun m _ => Nat.zero_le m,
        iff_of_true hcut ⟨seed, hzero ⟨?_, hexists⟩, hout⟩, fun _ => hcap⟩
      rw [ha.split, hback]
      exact mem_append_right _ mem_cons_self
    have hexpands := expands_of_expanded ha hexp subset_rfl fun _ => rfl
    split at hrun
    next hnone =>
      obtain rfl := Except.ok.inj hrun
      rw [hnone] at hexpands
      exact hexpands
    next =>
      rcases hhops : expandHops s stale maxNodes hops 0 st with e | st'
      · rw [hhops] at hrun
        exact nomatch hrun
      rw [hhops] at hrun
      obtain rfl := Except.ok.inj hrun
      rw [expandHops_atCap stale hcap hcut hhops]
      exact hexpands

/-- An expansion succeeds if the edges fit into a snapshot. -/
theorem exists_bfsMultiSourceUndirected (hs : s.AdjacencyAgrees)
    (hsize : s.tables.edges.keys.card ≤ maxSnapshotEdges) (stale : ℕ → Bool → Bool)
    (seeds : List NodeId) (hops : ℕ) (maxNodes : Option ℕ) :
    ∃ r, bfsMultiSourceUndirected s stale seeds hops maxNodes = .ok r := by
  unfold bfsMultiSourceUndirected
  generalize admitSeeds s maxNodes seeds ⟨∅, [], false⟩ = st
  change ∃ r, (if st.visited = ∅ then _ else _) = _
  split
  · exact ⟨_, rfl⟩
  · obtain ⟨st', hst'⟩ := exists_expandHops hs hsize stale maxNodes hops 0 st
    rw [hst']
    exact ⟨_, rfl⟩

end Expansion

/-! ## Edges -/

/-- The edges of a subgraph are those between its nodes. -/
theorem mem_inducedEdges {s : Storage} (hs : s.AdjacencyAgrees) {nodes : List NodeId}
    {id : EdgeId} :
    id ∈ inducedEdges s nodes ↔
      ∃ r, s.tables.edges.get id = some r ∧ r.src ∈ nodes ∧ r.dst ∈ nodes := by
  rw [inducedEdges, Finset.mem_ascending, mem_toFinset, mem_flatMap]
  simp only [mem_map, mem_filter, decide_eq_true_eq, mem_entries_iff hs]
  constructor
  · rintro ⟨n, hn, ne, ⟨⟨r, hget, hentry⟩, hother⟩, rfl⟩
    obtain ⟨rfl, hne⟩ := Prod.mk.inj hentry
    refine ⟨r, hget, hn, ?_⟩
    rw [← hne] at hother
    exact hother
  · rintro ⟨r, hget, hsrc, hdst⟩
    exact ⟨r.src, hsrc, ⟨r.edgeType, r.dst, id⟩, ⟨⟨r, hget, rfl⟩, hdst⟩, rfl⟩

lemma inducedEdges_nodup (s : Storage) (nodes : List NodeId) : (inducedEdges s nodes).Nodup :=
  Finset.ascending_nodup _

/-! ## Retrieval -/

/-- What is computed with scores. -/
structure Floats where
  /-- `as f32` of an unsigned integer. -/
  ofNat : ℕ → F32
  add : F32 → F32 → F32
  sub : F32 → F32 → F32
  mul : F32 → F32 → F32
  div : F32 → F32 → F32
  partialCmp : F32 → F32 → Option Ordering

/-- `<=` of scores. -/
def Floats.le (F : Floats) (x y : F32) : Bool :=
  F.partialCmp x y = some .lt ∨ F.partialCmp x y = some .eq

/-- The searches that a retrieval starts from. -/
structure Searches (K : Type) where
  vectorSearch : List F32 → ℕ → Except VectorError (List Hit)
  vectorSearchWith : List F32 → VectorSearchOptions → Except VectorError (List Hit)
  textSearch : String → TextSearchOptions K → Except TextError (List (TextHit K))

/-- `RetrieveOptions`. -/
structure RetrieveOptions where
  k : ℕ
  hops : ℕ
  maxDistance : F32
  maxNodes : Option ℕ

/-- `FusionStrategy`. -/
inductive FusionStrategy where
  | rrf (k : ℕ)
  | weightedSum (vectorWeight textWeight : F32)

/-- `HybridRetrieveOptions`. -/
structure HybridRetrieveOptions where
  vectorK : ℕ
  textK : ℕ
  textLabel : Option String
  textProperty : Option String
  hops : ℕ
  maxDistance : F32
  maxNodes : Option ℕ
  vectorLabel : Option String
  fusion : FusionStrategy

section Retrieve

variable {K : Type} (F : Floats) (E : Searches K) (s : Storage) (stale : ℕ → Bool → Bool)

/-- How both retrievals end: expand the seeds, keep the scores of the nodes found and add the edges
between them. -/
def subgraphOf (seeds : List NodeId) (hops : ℕ) (maxNodes : Option ℕ) (scores : Table NodeId F32) :
    Except RetrievalError Subgraph :=
  if seeds = [] then .ok ⟨[], [], .empty, false⟩
  else
    match bfsMultiSourceUndirected s stale seeds hops maxNodes with
    | .error e => .error (.core e)
    | .ok (nodes, truncated) =>
      .ok ⟨nodes, inducedEdges s nodes, scores.eraseIf fun n => n ∉ nodes, truncated⟩

/-- The hits that are near enough. -/
def nearHits (maxDistance : F32) (hits : List Hit) : List Hit :=
  hits.filter fun hit => F.le hit.distance maxDistance

/-- The distance of each hit; of a node that is hit twice, the last one. -/
def hitScores (hits : List Hit) : Table NodeId F32 :=
  hits.foldl (fun t hit => t.put hit.node hit.distance) .empty

/-- `retrieve_with`. -/
def retrieveWith (q : List F32) (opts : RetrieveOptions) : Except RetrievalError Subgraph := do
  let hits ← (E.vectorSearch q opts.k).mapError .vector
  let near := nearHits F opts.maxDistance hits
  subgraphOf s stale (near.map fun hit => hit.node) opts.hops opts.maxNodes (hitScores near)

def vectorActive (q : List F32) (opts : HybridRetrieveOptions) : Bool :=
  decide (0 < opts.vectorK) && !q.isEmpty

def textActive (query : String) (opts : HybridRetrieveOptions) : Bool :=
  decide (0 < opts.textK) && !query.isEmpty

/-- The vector hits, if the vectors are searched. An index without vectors has none, if the text is
searched too. -/
def vectorHits (q : List F32) (query : String) (opts : HybridRetrieveOptions) :
    Except RetrievalError (List Hit) :=
  if vectorActive q opts then
    match E.vectorSearchWith q ⟨opts.vectorK, opts.vectorLabel, none, none⟩ with
    | .ok hits => .ok hits
    | .error e => if e = .emptyIndex ∧ textActive query opts then .ok [] else .error (.vector e)
  else .ok []

/-- The text hits, if the text is searched. -/
def textHits (query : String) (opts : HybridRetrieveOptions) :
    Except RetrievalError (List (TextHit K)) :=
  if textActive query opts then
    (E.textSearch query ⟨opts.textLabel, opts.textProperty, opts.textK, none, none⟩).mapError .text
  else .ok []

/-- The rank of each vector hit that is near enough, among all of them. -/
def vectorRanks (maxDistance : F32) (hits : List Hit) : Table NodeId ℕ :=
  (hits.zipIdx.filter fun p => F.le p.1.distance maxDistance).foldl
    (fun t p => t.put p.1.node p.2) .empty

/-- The rank of each text hit. -/
def textRanks (hits : List (TextHit K)) : Table NodeId ℕ :=
  hits.zipIdx.foldl (fun t p => t.put p.1.node p.2) .empty

/-- The score of a node with these ranks. -/
def fusedScore (opts : HybridRetrieveOptions) (vectorRank textRank : Option ℕ) : F32 :=
  match opts.fusion with
  | .rrf k =>
    let share (rank : Option ℕ) : F32 := (rank.map fun r =>
      F.div (F.ofNat 1) (F.add (F.add (F.ofNat k) (F.ofNat r)) (F.ofNat 1))).getD (F.ofNat 0)
    F.add (share vectorRank) (share textRank)
  | .weightedSum vectorWeight textWeight =>
    let share (total : ℕ) (rank : Option ℕ) : F32 := (rank.map fun r =>
      F.div (F.sub (F.ofNat (max total 1)) (F.ofNat r)) (F.ofNat (max total 1))).getD (F.ofNat 0)
    F.add (F.mul vectorWeight (share opts.vectorK vectorRank))
      (F.mul textWeight (share opts.textK textRank))

/-- The scores of the nodes that either search ranks. -/
def fuse (opts : HybridRetrieveOptions) (vecRanks txtRanks : Table NodeId ℕ) : Table NodeId F32 :=
  (vecRanks.keys ∪ txtRanks.keys).ascending.foldl
    (fun t n => t.put n (fusedScore F opts (vecRanks.get n) (txtRanks.get n))) .empty

/-- The better score first, and the smaller id among equals. -/
def seedOrder (a b : NodeId × F32) : Ordering :=
  ((F.partialCmp b.2 a.2).getD .eq).then (compare a.1 b.1)

/-- The nodes with a score, the best first. -/
def rankedSeeds (fused : Table NodeId F32) : List NodeId :=
  (fused.toList.mergeSort fun a b => seedOrder F a b ≠ .gt).map fun r => r.1

/-- `retrieve_hybrid`. -/
def retrieveHybrid (q : List F32) (textQuery : String) (opts : HybridRetrieveOptions) :
    Except RetrievalError Subgraph := do
  if !vectorActive q opts && !textActive textQuery opts then .error .noQuery
  else
    let vec ← vectorHits E q textQuery opts
    let txt ← textHits E textQuery opts
    let fused := fuse F opts (vectorRanks F opts.maxDistance vec) (textRanks txt)
    subgraphOf s stale (rankedSeeds F fused) opts.hops opts.maxNodes fused

/-- What a retrieval that starts with `seeds` promises: what their expansion finds, the edges
between its nodes, each once, and the scores of its nodes. -/
structure Subgraph.Exact (seeds : List NodeId) (hops : ℕ) (maxNodes : Option ℕ)
    (scores : Table NodeId F32) (sub : Subgraph) : Prop where
  expands : Expands s seeds hops maxNodes sub.nodes sub.truncated
  edges_nodup : sub.edges.Nodup
  mem_edges : ∀ id, id ∈ sub.edges ↔
    ∃ r, s.tables.edges.get id = some r ∧ r.src ∈ sub.nodes ∧ r.dst ∈ sub.nodes
  scored : ∀ n, sub.scores.get n = if n ∈ sub.nodes then scores.get n else none

/-- What `retrieve_with` promises: the subgraph of the hits that are near enough. -/
def Retrieves (q : List F32) (opts : RetrieveOptions) (sub : Subgraph) : Prop :=
  ∃ hits, E.vectorSearch q opts.k = .ok hits ∧
    sub.Exact s ((nearHits F opts.maxDistance hits).map fun hit => hit.node) opts.hops opts.maxNodes
      (hitScores (nearHits F opts.maxDistance hits))

/-- What `retrieve_hybrid` promises: the subgraph of the nodes that either search finds, near enough
if by its vector, the best score first. -/
def RetrievesHybrid (q : List F32) (textQuery : String) (opts : HybridRetrieveOptions)
    (sub : Subgraph) : Prop :=
  ∃ vec txt, vectorHits E q textQuery opts = .ok vec ∧ textHits E textQuery opts = .ok txt ∧
    let fused := fuse F opts (vectorRanks F opts.maxDistance vec) (textRanks txt)
    (∀ n, n ∈ rankedSeeds F fused ↔
      (∃ hit ∈ nearHits F opts.maxDistance vec, hit.node = n) ∨ ∃ hit ∈ txt, hit.node = n) ∧
    (rankedSeeds F fused).Nodup ∧
    sub.Exact s (rankedSeeds F fused) opts.hops opts.maxNodes fused

end Retrieve

section Exact

variable {K : Type} {s : Storage} {stale : ℕ → Bool → Bool} {F : Floats} {E : Searches K}
  {sub : Subgraph}

lemma subgraphOf_exact (hs : s.AdjacencyAgrees) {seeds : List NodeId} {hops : ℕ}
    {maxNodes : Option ℕ} {scores : Table NodeId F32}
    (h : subgraphOf s stale seeds hops maxNodes scores = .ok sub) :
    sub.Exact s seeds hops maxNodes scores := by
  unfold subgraphOf at h
  split at h
  next hnone =>
    subst hnone
    obtain rfl := Except.ok.inj h
    have hbfs : bfsMultiSourceUndirected s stale [] hops maxNodes = .ok ([], false) := rfl
    refine ⟨bfsMultiSourceUndirected_expands hs hbfs, nodup_nil, fun id => ?_, fun n => rfl⟩
    simp
  next =>
    rcases hbfs : bfsMultiSourceUndirected s stale seeds hops maxNodes with e | ⟨nodes, truncated⟩
    · rw [hbfs] at h
      cases h
    rw [hbfs] at h
    obtain rfl := Except.ok.inj h
    refine ⟨bfsMultiSourceUndirected_expands hs hbfs, inducedEdges_nodup s nodes,
      fun id => mem_inducedEdges hs, fun n => ?_⟩
    rw [Table.get_eraseIf]
    exact ite_not (n ∈ nodes) none (scores.get n)

lemma exists_subgraphOf (hs : s.AdjacencyAgrees)
    (hsize : s.tables.edges.keys.card ≤ maxSnapshotEdges) (seeds : List NodeId) (hops : ℕ)
    (maxNodes : Option ℕ) (scores : Table NodeId F32) :
    ∃ sub, subgraphOf s stale seeds hops maxNodes scores = .ok sub := by
  unfold subgraphOf
  split
  next => exact ⟨_, rfl⟩
  next =>
    obtain ⟨r, hr⟩ := exists_bfsMultiSourceUndirected hs hsize stale seeds hops maxNodes
    rw [hr]
    exact ⟨_, rfl⟩

lemma retrieveWith_retrieves (hs : s.AdjacencyAgrees) {q : List F32} {opts : RetrieveOptions}
    (h : retrieveWith F E s stale q opts = .ok sub) : Retrieves F E s q opts sub := by
  unfold retrieveWith at h
  rcases hhits : E.vectorSearch q opts.k with e | hits
  · rw [hhits] at h
    exact nomatch h
  · rw [hhits] at h
    exact ⟨hits, hhits, subgraphOf_exact hs h⟩

lemma exists_retrieveWith (hs : s.AdjacencyAgrees)
    (hsize : s.tables.edges.keys.card ≤ maxSnapshotEdges) {q : List F32} {opts : RetrieveOptions}
    {hits : List Hit} (hhits : E.vectorSearch q opts.k = .ok hits) :
    ∃ sub, retrieveWith F E s stale q opts = .ok sub := by
  unfold retrieveWith
  rw [hhits]
  exact exists_subgraphOf hs hsize _ _ _ _

/-- Of a list of ranked hits, those are ranked that are in the list. -/
theorem mem_keys_foldl_put {α : Type} (node : α → NodeId) (l : List (α × ℕ)) (t : Table NodeId ℕ)
    (n : NodeId) : n ∈ (l.foldl (fun t p => t.put (node p.1) p.2) t).keys ↔
      (∃ p ∈ l, node p.1 = n) ∨ n ∈ t.keys := by
  induction l generalizing t with
  | nil => simp
  | cons p l ih =>
    rw [foldl_cons, ih, Table.keys_put, Finset.mem_insert, exists_mem_cons_iff, or_assoc,
      or_left_comm, @eq_comm _ n]

/-- A hit is in a list iff it is there with a rank. -/
theorem exists_mem_zipIdx_fst {α : Type} {P : α → Prop} (l : List α) :
    (∃ p ∈ l.zipIdx, P p.1) ↔ ∃ x ∈ l, P x := by
  conv_rhs => rw [← zipIdx_map_fst 0 l]
  simp only [mem_map, exists_exists_and_eq_and]

lemma mem_keys_vectorRanks {maxDistance : F32} {hits : List Hit} {n : NodeId} :
    n ∈ (vectorRanks F maxDistance hits).keys ↔
      ∃ hit ∈ nearHits F maxDistance hits, hit.node = n := by
  rw [vectorRanks, mem_keys_foldl_put Hit.node]
  simp only [nearHits, mem_filter, and_assoc]
  exact (or_iff_left (Finset.notMem_empty n)).trans
    (exists_mem_zipIdx_fst (P := fun hit => F.le hit.distance maxDistance ∧ hit.node = n) hits)

lemma mem_keys_textRanks {hits : List (TextHit K)} {n : NodeId} :
    n ∈ (textRanks hits).keys ↔ ∃ hit ∈ hits, hit.node = n := by
  rw [textRanks, mem_keys_foldl_put TextHit.node]
  exact (or_iff_left (Finset.notMem_empty n)).trans
    (exists_mem_zipIdx_fst (P := fun hit => hit.node = n) hits)

lemma mem_keys_fuse {opts : HybridRetrieveOptions} {vecRanks txtRanks : Table NodeId ℕ}
    {n : NodeId} :
    n ∈ (fuse F opts vecRanks txtRanks).keys ↔ n ∈ vecRanks.keys ∨ n ∈ txtRanks.keys := by
  rw [fuse, ← Finset.mem_union, ← Finset.mem_ascending (s := vecRanks.keys ∪ txtRanks.keys)]
  have hkeys : ∀ (l : List NodeId) (t : Table NodeId F32), n ∈ (l.foldl (fun t n =>
      t.put n (fusedScore F opts (vecRanks.get n) (txtRanks.get n))) t).keys ↔
        n ∈ l ∨ n ∈ t.keys := by
    intro l
    induction l with
    | nil => simp
    | cons m l ih =>
      intro t
      rw [foldl_cons, ih, Table.keys_put, Finset.mem_insert, mem_cons, or_assoc,
        or_left_comm]
  exact (hkeys _ .empty).trans (or_iff_left (Finset.notMem_empty n))

lemma rankedSeeds_perm (fused : Table NodeId F32) :
    (rankedSeeds F fused).Perm fused.keys.ascending := by
  rw [← Table.map_fst_toList]
  exact (mergeSort_perm _ _).map _

lemma retrieveHybrid_retrieves (hs : s.AdjacencyAgrees) {q : List F32} {textQuery : String}
    {opts : HybridRetrieveOptions} (h : retrieveHybrid F E s stale q textQuery opts = .ok sub) :
    RetrievesHybrid F E s q textQuery opts sub := by
  unfold retrieveHybrid at h
  split at h
  next => exact nomatch h
  next =>
    rcases hvec : vectorHits E q textQuery opts with e | vec
    · rw [hvec] at h
      exact nomatch h
    rcases htxt : textHits E textQuery opts with e | txt
    · rw [hvec, htxt] at h
      exact nomatch h
    rw [hvec, htxt] at h
    refine ⟨vec, txt, hvec, htxt, fun n => ?_, ?_, subgraphOf_exact hs h⟩
    · rw [(rankedSeeds_perm _).mem_iff, Finset.mem_ascending, mem_keys_fuse, mem_keys_vectorRanks,
        mem_keys_textRanks]
    · exact (rankedSeeds_perm _).nodup_iff.mpr (Finset.ascending_nodup _)

lemma exists_retrieveHybrid (hs : s.AdjacencyAgrees)
    (hsize : s.tables.edges.keys.card ≤ maxSnapshotEdges) {q : List F32} {textQuery : String}
    {opts : HybridRetrieveOptions} (hactive : vectorActive q opts ∨ textActive textQuery opts)
    {vec : List Hit} (hvec : vectorHits E q textQuery opts = .ok vec) {txt : List (TextHit K)}
    (htxt : textHits E textQuery opts = .ok txt) :
    ∃ sub, retrieveHybrid F E s stale q textQuery opts = .ok sub := by
  unfold retrieveHybrid
  rw [if_neg (by simpa [or_iff_not_imp_left] using hactive), hvec, htxt]
  exact exists_subgraphOf hs hsize _ _ _ _

end Exact

section

variable [TextLib]

/-- **Retrieved subgraphs.** After every run, whether or not each expansion finds the snapshot
stale: for all seeds, hops and caps the expansion succeeds if the edges fit into a snapshot, and
what it returns is exact up to the cap. Whatever the searches find and however scores are computed,
a retrieval succeeds if its searches do and the edges fit, and what it returns is the expansion of
what they found, with exactly the edges between its nodes and the scores of its nodes. -/
theorem retrieved_exact (actions : List Graph.Action) (stale : ℕ → Bool → Bool) :
    let s := (Graph.run actions .empty).storage
    (∀ seeds hops maxNodes,
      (s.tables.edges.keys.card ≤ maxSnapshotEdges →
        ∃ r, bfsMultiSourceUndirected s stale seeds hops maxNodes = .ok r) ∧
      ∀ r, bfsMultiSourceUndirected s stale seeds hops maxNodes = .ok r →
        Expands s seeds hops maxNodes r.1 r.2) ∧
    ∀ (K : Type) (F : Floats) (E : Searches K) (q : List F32),
      (∀ opts, (∀ hits, E.vectorSearch q opts.k = .ok hits →
          s.tables.edges.keys.card ≤ maxSnapshotEdges →
          ∃ sub, retrieveWith F E s stale q opts = .ok sub) ∧
        ∀ sub, retrieveWith F E s stale q opts = .ok sub → Retrieves F E s q opts sub) ∧
      ∀ textQuery opts, (∀ vec txt, vectorActive q opts ∨ textActive textQuery opts →
          vectorHits E q textQuery opts = .ok vec → textHits E textQuery opts = .ok txt →
          s.tables.edges.keys.card ≤ maxSnapshotEdges →
          ∃ sub, retrieveHybrid F E s stale q textQuery opts = .ok sub) ∧
        ∀ sub, retrieveHybrid F E s stale q textQuery opts = .ok sub →
          RetrievesHybrid F E s q textQuery opts sub := by
  have hs := Graph.adjacencyAgrees_run actions
  refine ⟨fun seeds hops maxNodes => ⟨fun hsize => ?_, fun r => ?_⟩, fun K F E q =>
    ⟨fun opts => ⟨fun hits hhits hsize => ?_, fun sub => ?_⟩, fun textQuery opts =>
      ⟨fun vec txt hactive hvec htxt hsize => ?_, fun sub => ?_⟩⟩⟩
  · exact exists_bfsMultiSourceUndirected hs hsize stale seeds hops maxNodes
  · exact bfsMultiSourceUndirected_expands hs
  · exact exists_retrieveWith hs hsize hhits
  · exact retrieveWith_retrieves hs
  · exact exists_retrieveHybrid hs hsize hactive hvec htxt
  · exact retrieveHybrid_retrieves hs

end

section

attribute [local instance] TextLib.ascii

/-- Scores that are compared as integers. -/
def plainFloats : Floats where
  ofNat n := n.toUInt32
  add x y := x + y
  sub x y := x - y
  mul x y := x * y
  div x y := x / y
  partialCmp x y := some (compare x.toNat y.toNat)

/-- Node 2 is near, node 1 is far, and a text is found in node 0. -/
def fixedSearches : Searches ℕ where
  vectorSearch _ _ := .ok [⟨2, 1⟩, ⟨1, 9⟩]
  vectorSearchWith _ _ := .ok [⟨2, 1⟩, ⟨1, 9⟩]
  textSearch _ _ := .ok [⟨0, 5, "A", "name"⟩]

/-- From one of two far ends, with room for two nodes, the other end is cut off; so it is for a
retrieval that starts there, and for one that starts at the source and one end. -/
theorem retrieved_exact_crossedEdges :
    let s := (Graph.run Graph.crossedEdges .empty).storage
    let opts : RetrieveOptions := ⟨2, 2, 4, some 2⟩
    let hybrid : HybridRetrieveOptions := ⟨2, 1, none, none, 1, 4, some 2, none, .rrf 60⟩
    (bfsMultiSourceUndirected s (fun _ _ => true) [2, 7, 2] 2 (some 2) = .ok ([0, 2], true) ∧
      Expands s [2, 7, 2] 2 (some 2) [0, 2] true) ∧
    (∃ sub, retrieveWith plainFloats fixedSearches s (fun _ _ => true) [0] opts = .ok sub ∧
      sub.nodes = [0, 2] ∧ sub.edges = [0] ∧ sub.scores.get 2 = some 1 ∧ sub.truncated = true ∧
      Retrieves plainFloats fixedSearches s [0] opts sub) ∧
    ∃ sub, retrieveHybrid plainFloats fixedSearches s (fun _ _ => true) [0] "a" hybrid = .ok sub ∧
      sub.nodes = [0, 2] ∧ sub.edges = [0] ∧ sub.truncated = true ∧
      RetrievesHybrid plainFloats fixedSearches s [0] "a" hybrid sub := by
  intro s opts hybrid
  have h := retrieved_exact Graph.crossedEdges fun _ _ => true
  have hrun : bfsMultiSourceUndirected s (fun _ _ => true) [2, 7, 2] 2 (some 2) =
      .ok ([0, 2], true) := by
    decide +kernel
  have hsize : s.tables.edges.keys.card ≤ maxSnapshotEdges := by
    decide +kernel
  refine ⟨⟨hrun, (h.1 _ _ _).2 _ hrun⟩, ?_, ?_⟩
  · obtain ⟨sub, hsub⟩ := ((h.2 ℕ plainFloats fixedSearches [0]).1 opts).1 _ rfl hsize
    have hout : (retrieveWith plainFloats fixedSearches s (fun _ _ => true) [0] opts).toOption.map
        (fun sub => (sub.nodes, sub.edges, sub.scores.get 2, sub.truncated)) =
          some ([0, 2], [0], some 1, true) := by
      decide +kernel
    rw [hsub] at hout
    obtain ⟨hnodes, hedges, hscore, htruncated⟩ : _ ∧ _ ∧ _ ∧ _ := by
      simpa only [Except.toOption, Option.map_some, Option.some.injEq, Prod.mk.injEq] using hout
    exact ⟨sub, hsub, hnodes, hedges, hscore, htruncated,
      ((h.2 ℕ plainFloats fixedSearches [0]).1 opts).2 sub hsub⟩
  · let fused := fuse plainFloats hybrid (vectorRanks plainFloats 4 [⟨2, 1⟩, ⟨1, 9⟩])
      (textRanks [(⟨0, 5, "A", "name"⟩ : TextHit ℕ)])
    obtain ⟨sub, hsub⟩ := ((h.2 ℕ plainFloats fixedSearches [0]).2 "a" hybrid).1 _ _ (by decide)
      rfl rfl hsize
    have hout : (retrieveHybrid plainFloats fixedSearches s (fun _ _ => true) [0] "a"
        hybrid).toOption.map (fun sub => (sub.nodes, sub.edges, sub.truncated)) =
          some ([0, 2], [0], true) := by
      have hseeds : rankedSeeds plainFloats fused = [0, 2] := by
        rw [rankedSeeds, mergeSort_of_pairwise (by decide +kernel)]
        decide +kernel
      change (subgraphOf s _ (rankedSeeds plainFloats fused) 1 (some 2) fused).toOption.map _ = _
      rw [hseeds]
      decide +kernel
    rw [hsub] at hout
    obtain ⟨hnodes, hedges, htruncated⟩ : _ ∧ _ ∧ _ := by
      simpa only [Except.toOption, Option.map_some, Option.some.injEq, Prod.mk.injEq] using hout
    exact ⟨sub, hsub, hnodes, hedges, htruncated,
      ((h.2 ℕ plainFloats fixedSearches [0]).2 "a" hybrid).2 sub hsub⟩

end

end IssunDB.Retrieval
