import IssunDB.Csr.MaximumFlow
import IssunDB.Csr.SimplePaths
import IssunDB.Lib.CheapestPath
import IssunDB.Lib.Deviations
import IssunDB.Lib.RunningSum
import IssunDB.Lib.Sorting

/-!
# The cheapest paths between two nodes

`shortestPathTopK` lists the `k` cheapest simple paths between two nodes: a search with a priority
queue finds the first, and each further one is the cheapest of a pool of deviations from those found
so far. The weight of an edge is a property of it, any number the user stored.

* `topKEnds_iff`: the query returns, with an error for every reachable negative cycle, just when no
  such cycle is reachable;
* `shortestPathTopK_exact`: where the weights are non-negative integers and all together are at most
  `2 ^ 53`, the paths listed are the cheapest ones.
-/

namespace IssunDB

open List Option

/-- The double `1.0`. -/
def unitWeight : Amount := 2 ^ 1074

lemma unitWeight_pos : (0 : ℤ) < 2 ^ 1074 := by positivity

/-- The weight an edge carries under a property; `1.0` where there is no edge or no number. -/
def weightUnder (s : Tables) (property : String) (id : EdgeId) : Amount :=
  match s.edges.get id with
  | none => unitWeight
  | some r =>
    match r.props.get property with
    | some (.number x) => x.asF64.scaled
    | _ => unitWeight

abbrev CostedPath := List NodeId × Option RunningSum

/-- Descending order by cost and then by path. Costs that are not numbers tie with all others. -/
def candidateCmp (a b : CostedPath) : Ordering :=
  let byCost := do some (compare (← b.2).val (← a.2).val)
  (byCost.getD .eq).then (List.compareLex compare b.1 a.1)

/-- Add a candidate unless its path is one already. -/
def addCandidate (candidates : List CostedPath) (c : CostedPath) : List CostedPath :=
  if candidates.any (·.1 = c.1) then candidates else candidates ++ [c]

/-- The edges that paths with the given root take out of its last node. -/
def blockedEdges (found : List CostedPath) (root : List NodeId) (j : ℕ) :
    Option (List (NodeId × NodeId)) :=
  ((found.map (·.1)).filter fun p => j < p.length ∧ p.take (j + 1) = root).mapM fun p => do
    some (← p[j]?, ← p[j + 1]?)

namespace CsrArrays

variable (S : CsrArrays)

/-- The edges out of a node, each with the node it leads to. -/
def edgesFrom (u : NodeId) : List (NodeId × EdgeId) :=
  match S.idToDense.get u with
  | none => []
  | some d => (S.outRow d).map fun e => (S.denseToId.getD e.col 0, e.edgeId)

variable (s : Tables) (property : String)

/-- The graph a search runs on: the edges that are not blocked, with their weights. -/
def labelGraph (blockedNodes : List NodeId) (blockedEdges : List (NodeId × NodeId)) :
    LabelGraph NodeId Amount RunningSum where
  rows node := ((S.edgesFrom node).filter fun e =>
    e.1 ∉ blockedNodes ∧ (node, e.1) ∉ blockedEdges).map fun e => (e.1, weightUnder s property e.2)
  zero := .zero
  add := .add
  add_mono := RunningSum.add_mono

/-- The least weight of the parallel edges from one node to another. -/
def cheapestEdge (u v : NodeId) : Option Amount :=
  (S.edgesFrom u).foldl (fun least e =>
    if e.1 = v then
      let weight := weightUnder s property e.2
      if least.all (weight < ·) then some weight else least
    else least) none

/-- The cost of a root, by the cheapest edge of each step. -/
def rootCost (root : List NodeId) : RunningSum :=
  (root.zip root.tail).foldl
    (fun cost e => cost.add ((S.cheapestEdge s property e.1 e.2).getD unitWeight)) .zero

variable (Q : PriorityQueue RunningSum NodeId) (dst : NodeId)

/-- Search for the cheapest deviation from the paths found at the `j`-th node of one of them. -/
def deviate (fuel : ℕ) (found : List CostedPath) (prevPath : List NodeId)
    (candidates : List CostedPath) (j : ℕ) : Option (List CostedPath) := do
  let spur ← prevPath[j]?
  let root := prevPath.take (j + 1)
  let edges ← blockedEdges found root j
  match ← (S.labelGraph s property (root.filter (· ≠ spur)) edges).findPath Q spur dst fuel with
  | none => some candidates
  | some (spurPath, spurCost) =>
    some (addCandidate candidates
      (root ++ spurPath.tail, (S.rootCost s property root).plus spurCost))

/-- The candidates that branch off the last path found, at each of its nodes but the last. -/
def deviations (fuel : ℕ) (found : List CostedPath) (prevPath : List NodeId)
    (candidates : List CostedPath) : Option (List CostedPath) :=
  (List.range (prevPath.length - 1)).foldlM (S.deviate s property Q dst fuel found prevPath)
    candidates

/-- Find further paths until there are enough or no candidate is left. -/
def topKFrom (fuel : ℕ) :
    (left : ℕ) → (found candidates : List CostedPath) → Option (List CostedPath)
  | 0, found, _ => some found
  | left + 1, found, candidates => do
    let prev ← found.getLast?
    let candidates ← S.deviations s property Q dst fuel found prev.1 candidates
    let sorted := stableSort candidateCmp candidates
    match sorted.getLast? with
    | none => some found
    | some best => topKFrom fuel left (found ++ [best]) sorted.dropLast

/-- Yen's `k` shortest loopless paths. The fuel bounds each of the searches. -/
def shortestPathTopK (src : NodeId) (k : ℕ) (fuel : ℕ) : Option (Except Error (List CostedPath)) :=
  if k = 0 then some (.ok [])
  else do
    match ← (S.labelGraph s property [] []).findPath Q src dst fuel with
    | none => some (.ok [])
    | some (path, cost) =>
      return .ok (← S.topKFrom s property Q dst fuel (k - 1) [(path, some cost)] [])

end CsrArrays

/-! ## The edges by node ids -/

namespace Snapshot

variable {S : Snapshot} {s : Tables} {property : String}

variable {u v : NodeId}

lemma mem_edgesFrom {id : EdgeId} : (v, id) ∈ S.edgesFrom u ↔
    ∃ e ∈ S.edges, S.idOf e.src = u ∧ S.idOf e.dst = v ∧ e.edgeId = id := by
  rw [CsrArrays.edgesFrom]
  constructor
  · intro h
    split at h
    next => cases h
    next d hd =>
      obtain ⟨e, he, heq⟩ := List.mem_map.mp h
      have hlt : d < S.n := (List.getElem?_eq_some_iff.mp (S.get_idToDense.mp hd)).1
      have hmem : (⟨d, e.col, e.edgeType, e.edgeId⟩ : DenseEdge) ∈ S.edges.filter (·.src = d) := by
        rw [← S.outRow_eq]
        exact List.mem_map_of_mem he
      obtain ⟨hcol, hid⟩ := Prod.mk.inj heq
      exact ⟨_, (mem_filter.mp hmem).1, (S.idOf_eq_iff hlt).mpr hd, hcol, hid⟩
  · rintro ⟨e, he, rfl, rfl, rfl⟩
    rw [S.get_idToDense_idOf (S.src_lt he)]
    have hmem : e ∈ S.edges.filter (·.src = e.src) :=
      mem_filter.mpr ⟨he, decide_eq_true rfl⟩
    rw [← S.outRow_eq] at hmem
    obtain ⟨entry, hentry, heq⟩ := List.mem_map.mp hmem
    refine List.mem_map.mpr ⟨entry, hentry, ?_⟩
    rw [← heq]
    rfl

lemma outStep_iff_edgesFrom : S.OutStep u v ↔ ∃ id, (v, id) ∈ S.edgesFrom u := by
  rw [outStep_iff]
  constructor
  · rintro ⟨_, _, ⟨e, he, rfl, rfl⟩, rfl, rfl⟩
    exact ⟨e.edgeId, mem_edgesFrom.mpr ⟨e, he, rfl, rfl, rfl⟩⟩
  · rintro ⟨id, h⟩
    obtain ⟨e, he, rfl, rfl, -⟩ := mem_edgesFrom.mp h
    exact ⟨_, _, ⟨e, he, rfl, rfl⟩, rfl, rfl⟩

variable {blockedNodes : List NodeId} {blockedEdges : List (NodeId × NodeId)}

variable (S) in
/-- An edge that a search with blocked nodes and edges follows. -/
def OpenStep (blockedNodes : List NodeId) (blockedEdges : List (NodeId × NodeId)) (u v : NodeId) :
    Prop :=
  S.OutStep u v ∧ v ∉ blockedNodes ∧ (u, v) ∉ blockedEdges

lemma mem_rows {w : Amount} :
    (v, w) ∈ (S.labelGraph s property blockedNodes blockedEdges).rows u ↔
      v ∉ blockedNodes ∧ (u, v) ∉ blockedEdges ∧
        ∃ id, (v, id) ∈ S.edgesFrom u ∧ weightUnder s property id = w := by
  simp only [CsrArrays.labelGraph, List.mem_map, mem_filter, decide_eq_true_eq, Prod.mk.injEq,
    Prod.exists]
  constructor
  · rintro ⟨v, id, ⟨hmem, hnode, hedge⟩, rfl, rfl⟩
    exact ⟨hnode, hedge, id, hmem, rfl⟩
  · rintro ⟨hnode, hedge, id, hmem, rfl⟩
    exact ⟨v, id, ⟨hmem, hnode, hedge⟩, rfl, rfl⟩

lemma openStep_of_mem_rows {w : Amount}
    (h : (v, w) ∈ (S.labelGraph s property blockedNodes blockedEdges).rows u) :
    S.OpenStep blockedNodes blockedEdges u v := by
  obtain ⟨hnode, hedge, id, hmem, -⟩ := mem_rows.mp h
  exact ⟨outStep_iff_edgesFrom.mpr ⟨id, hmem⟩, hnode, hedge⟩

lemma rows_closed (src : NodeId) : ∀ u ∈ insert src S.denseToId.toFinset,
    ∀ e ∈ (S.labelGraph s property blockedNodes blockedEdges).rows u,
      e.1 ∈ insert src S.denseToId.toFinset := by
  intro u _ e he
  obtain ⟨-, -, id, hmem, -⟩ := mem_rows.mp he
  obtain ⟨d, hd, -, heq, -⟩ := mem_edgesFrom.mp hmem
  refine Finset.mem_insert_of_mem (List.mem_toFinset.mpr ?_)
  exact heq ▸ S.idOf_mem (S.dst_lt hd)

lemma Walks.of_blocked {a b : NodeId × RunningSum}
    (h : (S.labelGraph s property blockedNodes blockedEdges).Walks a b) :
    (S.labelGraph s property [] []).Walks a b := by
  refine Relation.ReflTransGen.mono ?_ _ _ h
  rintro x y ⟨w, hedge, heq⟩
  obtain ⟨-, -, hmem⟩ := mem_rows.mp hedge
  exact ⟨w, mem_rows.mpr ⟨not_mem_nil, not_mem_nil, hmem⟩, heq⟩

lemma Along.isChain {c c' : RunningSum} {p : List NodeId}
    (h : (S.labelGraph s property blockedNodes blockedEdges).Along c p c') :
    p.IsChain (S.OpenStep blockedNodes blockedEdges) := by
  induction h with
  | single v c => exact .singleton v
  | cons hedge _ ih => exact .cons_cons (openStep_of_mem_rows hedge) ih

/-! ## Deviations -/

lemma mapM_eq_map {α β : Type} {f : α → Option β} {g : α → β} {l : List α}
    (h : ∀ a ∈ l, f a = some (g a)) : l.mapM f = some (l.map g) := by
  induction l with
  | nil => rfl
  | cons a l ih =>
    rw [mapM_cons, h a mem_cons_self, ih fun b hb => h b (mem_cons_of_mem a hb)]
    rfl

lemma blockedEdges_spec {found : List CostedPath} {src dst spur : NodeId} {prev : List NodeId}
    {j : ℕ} (hfound : ∀ p ∈ found.map (·.1), p ∈ simplePaths S.OutStep src dst)
    (hprev : prev ∈ simplePaths S.OutStep src dst) (hj : j + 1 < prev.length)
    (hspur : prev[j]? = some spur) :
    ∃ edges, IssunDB.blockedEdges found (prev.take (j + 1)) j = some edges ∧
      ∀ u v, (u, v) ∈ edges ↔
        u = spur ∧ ∃ q ∈ found.map (·.1), prev.take (j + 1) ++ [v] <+: q := by
  set root := prev.take (j + 1) with hroot
  have hlength : root.length = j + 1 := by
    rw [hroot, length_take]
    omega
  have hlast : root[j]? = some spur := by
    rw [hroot, getElem?_take_of_lt (Nat.lt_succ_self j), hspur]
  -- A path found with the root goes on after it, as no path is a part of another.
  have hgoes : ∀ q ∈ found.map (·.1), q.take (j + 1) = root → ∃ v, root ++ [v] <+: q := by
    intro q hq htake
    have hpre : root <+: q := htake ▸ take_prefix _ _
    obtain ⟨r, rfl⟩ := hpre
    cases r with
    | nil =>
      rw [append_nil] at hq
      have hsame := prefixFree_simplePaths.eq_of_prefix root (hfound root hq) prev hprev
        (List.take_prefix _ _)
      rw [← hsame, hlength] at hj
      omega
    | cons v r => exact ⟨v, r, by rw [append_assoc]; rfl⟩
  have hget : ∀ q v, root ++ [v] <+: q → q.take (j + 1) = root ∧ q[j]? = some spur ∧
      q[j + 1]? = some v := by
    rintro _ v ⟨r, rfl⟩
    rw [append_assoc]
    refine ⟨?_, ?_, ?_⟩
    · rw [← hlength, take_left]
    · rw [getElem?_append_left (by omega), hlast]
    · rw [getElem?_append_right (by omega), hlength, Nat.sub_self]
      rfl
  refine ⟨_, mapM_eq_map (g := fun q => (q.getD j 0, q.getD (j + 1) 0)) ?_, fun u v => ?_⟩
  · intro q hq
    obtain ⟨hmem, htest⟩ := mem_filter.mp hq
    obtain ⟨-, htake⟩ := of_decide_eq_true htest
    obtain ⟨v, hv⟩ := hgoes q hmem htake
    obtain ⟨-, hu, hv⟩ := hget q v hv
    rw [getD_eq_getElem?_getD, getD_eq_getElem?_getD, hu, hv]
    rfl
  · rw [List.mem_map]
    constructor
    · rintro ⟨q, hq, heq⟩
      obtain ⟨hmem, htest⟩ := mem_filter.mp hq
      obtain ⟨-, htake⟩ := of_decide_eq_true htest
      obtain ⟨x, hx⟩ := hgoes q hmem htake
      obtain ⟨-, hu, hv⟩ := hget q x hx
      rw [getD_eq_getElem?_getD, getD_eq_getElem?_getD, hu, hv] at heq
      obtain ⟨rfl, rfl⟩ := Prod.mk.inj heq
      exact ⟨rfl, q, hmem, hx⟩
    · rintro ⟨rfl, q, hmem, hx⟩
      obtain ⟨htake, hu, hv⟩ := hget q v hx
      refine ⟨q, mem_filter.mpr ⟨hmem, decide_eq_true ⟨?_, htake⟩⟩, ?_⟩
      · obtain ⟨hlt, -⟩ := List.getElem?_eq_some_iff.mp hu
        exact hlt
      · rw [getD_eq_getElem?_getD, getD_eq_getElem?_getD, hu, hv]
        rfl

variable (S s property) in
/-- A walk comes back to a node with a smaller running sum, in the search from a node that `src`
reaches. With sums that are exact this is a cycle of negative weight that `src` reaches. -/
def NegativeCycle (src : NodeId) : Prop :=
  ∃ u, Relation.ReflTransGen S.OutStep src u ∧ (S.labelGraph s property [] []).Improves u

lemma IsWalk.reaches {src u : NodeId} {p : List NodeId} (h : IsWalk S.OutStep src u p) :
    Relation.ReflTransGen S.OutStep src u := by
  obtain ⟨hhead, hlast, hchain⟩ := h
  cases p with
  | nil => cases hhead
  | cons a l =>
    obtain rfl := some.inj hhead
    exact relationReflTransGen_of_exists_isChain_cons l hchain
      (some.inj ((getLast?_eq_getLast_of_ne_nil (cons_ne_nil a l)).symm.trans hlast))

/-- What a search between two nodes finds: a simple path, the cheapest one where no weight is
negative. -/
structure Finds (S : Snapshot) (s : Tables) (property : String) (blockedNodes : List NodeId)
    (blockedEdges : List (NodeId × NodeId)) (spur dst : NodeId)
      (r : Option (List NodeId × RunningSum)) : Prop where
  simple : ∀ path cost, r = some (path, cost) →
    path ∈ simplePaths (S.OpenStep blockedNodes blockedEdges) spur dst
  cheapest : (S.labelGraph s property blockedNodes blockedEdges).Grows →
    ∀ path cost, r = some (path, cost) →
      (S.labelGraph s property blockedNodes blockedEdges).Along .zero path cost ∧
      ∀ c, (S.labelGraph s property blockedNodes blockedEdges).Walks (spur, .zero) (dst, c) →
        cost ≤ c
  absent : (S.labelGraph s property blockedNodes blockedEdges).Grows → r = none →
    ∀ c, (S.labelGraph s property blockedNodes blockedEdges).Walks (spur, .zero) (dst, c) → c = ⊤

variable (S s property blockedNodes blockedEdges) in
lemma exists_finds (Q : PriorityQueue RunningSum NodeId) {spur : NodeId} (dst : NodeId)
    (hcycle : ¬(S.labelGraph s property [] []).Improves spur) :
    ∃ r, Returns ((S.labelGraph s property blockedNodes blockedEdges).findPath Q spur dst) r ∧
      S.Finds s property blockedNodes blockedEdges spur dst r := by
  have hblocked : ¬(S.labelGraph s property blockedNodes blockedEdges).Improves spur := by
    rintro ⟨v, c, c', hwalk, hback, hlt⟩
    exact hcycle ⟨v, c, c', Walks.of_blocked hwalk, Walks.of_blocked hback, hlt⟩
  obtain ⟨r, hrun, hsimple, hgrows⟩ := LabelGraph.findPath_spec (Q := Q) (t := dst)
    RunningSum.rank_strictMono (rows_closed spur) (Finset.mem_insert_self spur _) hblocked
  refine ⟨r, hrun, fun path cost h => ?_, fun hg path cost h => ?_, fun hg => (hgrows hg).2⟩
  · obtain ⟨c, -, hpath⟩ := hsimple path cost h
    exact ⟨⟨hpath.head, hpath.last, Along.isChain hpath.along⟩, hpath.nodup⟩
  · obtain ⟨hpath, hleast⟩ := (hgrows hg).1 path cost h
    exact ⟨hpath.along, hleast⟩

/-- The candidates after a search for a deviation. -/
def withDeviation (S : CsrArrays) (s : Tables) (property : String) (root : List NodeId)
    (candidates : List CostedPath) : Option (List NodeId × RunningSum) → List CostedPath
  | none => candidates
  | some (path, cost) =>
    addCandidate candidates (root ++ path.tail, (S.rootCost s property root).plus cost)

variable (S s property) in
/-- One search for a deviation: it returns, and searches the paths that leave those found at its
root. -/
theorem exists_deviate (Q : PriorityQueue RunningSum NodeId) {found : List CostedPath}
    {src dst : NodeId} {prev : List NodeId} {j : ℕ}
    (hfound : ∀ p ∈ found.map (·.1), p ∈ simplePaths S.OutStep src dst)
    (hprev : prev ∈ simplePaths S.OutStep src dst) (hj : j + 1 < prev.length)
    (hcycle : ¬S.NegativeCycle s property src) :
    ∃ spur nodes edges r, prev[j]? = some spur ∧ spur ≠ dst ∧
      prev.take (j + 1) ∈ simplePaths S.OutStep src spur ∧
      (∀ candidates, Returns
        (fun fuel => S.deviate s property Q dst fuel found prev candidates j)
        (withDeviation S.toCsrArrays s property (prev.take (j + 1)) candidates r)) ∧
      S.Finds s property nodes edges spur dst r ∧
      ∀ u v, S.OpenStep nodes edges u v ↔
        SpurStep S.OutStep (found.map (·.1)) (prev.take (j + 1)) spur u v := by
  have hspur : prev[j]? = some prev[j] := getElem?_eq_getElem (by omega)
  generalize prev[j] = spur at hspur
  have hroot := take_mem_simplePaths hprev hspur
  have hne : spur ≠ dst := by
    rintro rfl
    have hlast := hprev.1.last
    rw [getLast?_eq_getElem?] at hlast
    obtain ⟨hlt, -⟩ := List.getElem?_eq_some_iff.mp hspur
    have := (getElem?_inj hlt hprev.2).mp (hspur.trans hlast.symm)
    omega
  obtain ⟨edges, hedges, hmem⟩ := blockedEdges_spec hfound hprev hj hspur
  obtain ⟨r, hrun, hfinds⟩ := exists_finds S s property
    ((prev.take (j + 1)).filter (· ≠ spur)) edges Q dst
    fun himp => hcycle ⟨spur, IsWalk.reaches hroot.1, himp⟩
  refine ⟨spur, _, edges, r, hspur, hne, hroot, fun candidates => ?_, hfinds, fun u v => ?_⟩
  · have hdeviate : ∀ fuel, S.deviate s property Q dst fuel found prev candidates j =
        ((S.labelGraph s property ((prev.take (j + 1)).filter (· ≠ spur)) edges).findPath Q spur dst
          fuel).map (withDeviation S.toCsrArrays s property (prev.take (j + 1)) candidates) := by
      intro fuel
      simp only [CsrArrays.deviate, hspur, hedges, bind_eq_bind, bind_some]
      cases LabelGraph.findPath _ Q spur dst fuel with
      | none => rfl
      | some r => cases r <;> rfl
    simp only [hdeviate]
    exact hrun.map _
  · rw [OpenStep, SpurStep, hmem, mem_filter, decide_eq_true_eq, not_and, not_not, not_and,
      not_exists]
    simp only [not_and]

/-! ## The whole query -/

lemma mem_addCandidate {candidates : List CostedPath} {c x : CostedPath}
    (h : x ∈ addCandidate candidates c) : x = c ∨ x ∈ candidates := by
  rw [addCandidate] at h
  split at h
  next => exact .inr h
  next => exact (mem_append.mp h).symm.imp_left mem_singleton.mp

/-- Paths that are found keep a property that finding one more from the pool keeps; with enough
paths or an empty pool the query returns. -/
theorem exists_topKFrom (Q : PriorityQueue RunningSum NodeId) {dst : NodeId}
    (Inv Mid : List CostedPath → List CostedPath → Prop)
    (hdeviations : ∀ found candidates, Inv found candidates → ∃ prev, found.getLast? = some prev ∧
      ∃ pool,
      Returns (fun fuel => S.deviations s property Q dst fuel found prev.1 candidates) pool ∧
        Mid found pool)
    (hlist : ∀ found pool rest best, Mid found pool → pool.Perm (best :: rest) →
      (stableSort candidateCmp pool).getLast? = some best → Inv (found ++ [best]) rest)
    (left : ℕ) {found candidates : List CostedPath} (h : Inv found candidates) :
    ∃ out, Returns (fun fuel => S.topKFrom s property Q dst fuel left found candidates) out ∧
      ((out.length = found.length + left ∧ ∃ pool, Inv out pool) ∨
        (out.length ≤ found.length + left ∧ Mid out [])) := by
  induction left generalizing found candidates with
  | zero => exact ⟨found, .const found, .inl ⟨rfl, candidates, h⟩⟩
  | succ left ih =>
    obtain ⟨prev, hprev, pool, hrun, hmid⟩ := hdeviations found candidates h
    have hloop : ∀ fuel, S.topKFrom s property Q dst fuel (left + 1) found candidates =
        (S.deviations s property Q dst fuel found prev.1 candidates).bind fun pool =>
          match (stableSort candidateCmp pool).getLast? with
          | none => some found
          | some best => S.topKFrom s property Q dst fuel left (found ++ [best])
              (stableSort candidateCmp pool).dropLast := by
      intro fuel
      rw [CsrArrays.topKFrom, hprev]
      rfl
    simp only [hloop]
    have hperm := perm_stableSort candidateCmp pool
    cases hlast : (stableSort candidateCmp pool).getLast? with
    | none =>
      rw [getLast?_eq_none_iff.mp hlast] at hperm
      obtain rfl := nil_perm.mp hperm
      refine ⟨found, hrun.bind _ ?_, .inr ⟨by omega, hmid⟩⟩
      simp only [hlast]
      exact .const found
    | some best =>
      have hsplit : stableSort candidateCmp pool =
          (stableSort candidateCmp pool).dropLast ++ [best] :=
        (dropLast_append_getLast? best hlast).symm
      have hpool : pool.Perm (best :: (stableSort candidateCmp pool).dropLast) := by
        refine hperm.symm.trans ?_
        rw [hsplit, dropLast_concat]
        exact perm_append_singleton ..
      obtain ⟨out, hout, hresult⟩ := ih (hlist _ _ _ best hmid hpool hlast)
      refine ⟨out, hrun.bind _ ?_, ?_⟩
      · simp only [hlast]
        exact hout
      · rw [length_append, length_singleton, Nat.add_assoc, Nat.add_comm 1] at hresult
        exact hresult

/-- The paths found and the candidates are simple paths, and some path is found. -/
structure Simple (S : Snapshot) (src dst : NodeId) (found candidates : List CostedPath) : Prop where
  ne_nil : found ≠ []
  found : ∀ p ∈ found.map (·.1), p ∈ simplePaths S.OutStep src dst
  pool : ∀ p ∈ candidates.map (·.1), p ∈ simplePaths S.OutStep src dst

variable {src dst : NodeId}

lemma Finds.deviates {nodes : List NodeId} {edges : List (NodeId × NodeId)} {spur : NodeId}
    {r : Option (List NodeId × RunningSum)} {listed : List (List NodeId)} {root : List NodeId}
    (h : S.Finds s property nodes edges spur dst r)
    (hstep : ∀ u v, S.OpenStep nodes edges u v ↔ SpurStep S.OutStep listed root spur u v)
    (hroot : root ∈ simplePaths S.OutStep src spur) (hne : spur ≠ dst) {path : List NodeId}
    {cost : RunningSum} (hr : r = some (path, cost)) :
    root ++ path.tail ∈ simplePaths S.OutStep src dst ∧
    Deviates listed root (root ++ path.tail) := by
  have hsame : S.OpenStep nodes edges = SpurStep S.OutStep listed root spur :=
    funext fun u => funext fun v => propext (hstep u v)
  exact (mem_simplePaths_and_deviates hroot hne).mpr ⟨path, hsame ▸ h.simple path cost hr, rfl⟩

lemma Simple.deviations (Q : PriorityQueue RunningSum NodeId)
    (hcycle : ¬S.NegativeCycle s property src) {found candidates : List CostedPath}
    (h : S.Simple src dst found candidates) :
    ∃ prev, found.getLast? = some prev ∧ ∃ pool,
      Returns (fun fuel => S.deviations s property Q dst fuel found prev.1 candidates) pool ∧
        S.Simple src dst found pool := by
  have hlast := getLast?_eq_getLast_of_ne_nil h.ne_nil
  generalize found.getLast h.ne_nil = prev at hlast
  have hprev := h.found prev.1 (List.mem_map_of_mem (mem_of_getLast? hlast))
  refine ⟨prev, hlast, ?_⟩
  refine exists_returns_foldlM (fun _ pool => S.Simple src dst found pool) ?_ h
  intro _ j pool hj hpool
  have hlt : j + 1 < prev.1.length := by
    have := mem_range.mp hj
    omega
  obtain ⟨spur, nodes, edges, r, -, hne, hroot, hrun, hfinds, hstep⟩ :=
    exists_deviate S s property Q h.found hprev hlt hcycle
  refine ⟨_, hrun pool, { hpool with pool := fun p hp => ?_ }⟩
  cases r with
  | none => exact hpool.pool p hp
  | some r =>
    obtain ⟨x, hx, rfl⟩ := List.mem_map.mp hp
    rcases mem_addCandidate hx with rfl | hx
    · exact (hfinds.deviates hstep hroot hne rfl).1
    · exact hpool.pool _ (List.mem_map_of_mem hx)

lemma Simple.list {found pool rest : List CostedPath} {best : CostedPath}
    (h : S.Simple src dst found pool) (hperm : pool.Perm (best :: rest)) :
    S.Simple src dst (found ++ [best]) rest := by
  have hmem : ∀ x ∈ best :: rest, x.1 ∈ simplePaths S.OutStep src dst :=
    fun x hx => h.pool _ (List.mem_map_of_mem (hperm.mem_iff.mpr hx))
  refine ⟨append_ne_nil_of_right_ne_nil _ (cons_ne_nil best []), fun p hp => ?_,
    fun p hp => ?_⟩
  · rw [map_append] at hp
    rcases mem_append.mp hp with hp | hp
    · exact h.found p hp
    · obtain rfl := mem_singleton.mp hp
      exact hmem best mem_cons_self
  · obtain ⟨x, hx, rfl⟩ := List.mem_map.mp hp
    exact hmem x (mem_cons_of_mem _ hx)

variable (S s property) in
/-- The query returns, and reports an error where a negative cycle is reachable from `src`. -/
def TopKEnds (Q : PriorityQueue RunningSum NodeId) (src dst : NodeId) (k : ℕ) : Prop :=
  ∃ out, Returns (fun fuel => S.shortestPathTopK s property Q dst src k fuel) out ∧
    (S.NegativeCycle s property src → ∃ e, out = .error e)

/-- The query never reports an error. -/
theorem ok_of_shortestPathTopK {Q : PriorityQueue RunningSum NodeId} {k fuel : ℕ}
    {out : Except Error (List CostedPath)}
    (h : S.shortestPathTopK s property Q dst src k fuel = some out) : ∃ found, out = .ok found := by
  rw [CsrArrays.shortestPathTopK] at h
  split at h
  next => exact ⟨_, (some.inj h).symm⟩
  next =>
    obtain ⟨r, -, h⟩ := bind_eq_some_iff.mp h
    cases r with
    | none => exact ⟨_, (some.inj h).symm⟩
    | some r =>
      obtain ⟨found, -, h⟩ := bind_eq_some_iff.mp h
      exact ⟨found, (some.inj h).symm⟩

variable (S s property) in
/-- The query is empty, or continues a path that the first search finds. -/
theorem shortestPathTopK_cases (Q : PriorityQueue RunningSum NodeId) (src dst : NodeId)
    (hcycle : ¬S.NegativeCycle s property src) {k : ℕ} (hk : k ≠ 0) :
    ∃ r, S.Finds s property [] [] src dst r ∧
      match r with
      | none => Returns (fun fuel => S.shortestPathTopK s property Q dst src k fuel) (.ok [])
      | some (path, cost) => ∀ out,
          Returns (fun fuel =>
          S.topKFrom s property Q dst fuel (k - 1) [(path, some cost)] []) out →
          Returns (fun fuel => S.shortestPathTopK s property Q dst src k fuel) (.ok out) := by
  obtain ⟨r, hrun, hfinds⟩ := exists_finds S s property [] [] Q dst
    fun himp => hcycle ⟨src, .refl, himp⟩
  have hquery : ∀ fuel, S.shortestPathTopK s property Q dst src k fuel =
      ((S.labelGraph s property [] []).findPath Q src dst fuel).bind fun r => match r with
        | none => some (.ok [])
        | some (path, cost) =>
          (S.topKFrom s property Q dst fuel (k - 1) [(path, some cost)] []).map Except.ok := by
    intro fuel
    rw [CsrArrays.shortestPathTopK, if_neg hk]
    refine congrArg _ (funext fun r => ?_)
    cases r with
    | none => rfl
    | some r => exact (map_eq_bind ..).symm
  simp only [hquery]
  refine ⟨r, hfinds, ?_⟩
  cases r with
  | none => exact hrun.bind _ (.const _)
  | some r => exact fun out hout => hrun.bind _ (hout.map Except.ok)

lemma openStep_nil : S.OpenStep [] [] = S.OutStep := by
  funext u v
  simp [OpenStep]

section

attribute [local instance] TextLib.ascii

/-- Four nodes. A cycle of weight `-2` is on the way from the first to the last. -/
def cycleOnTheWay : List Graph.Action :=
  let cost (x : Number) : Props := ⟨.object [("cost", .number x)], rfl⟩
  let minus (i : ℤ) (h : -2 ^ 63 ≤ i ∧ i < 0) : Number := .negInt i h
  [.mutation (.addNode "A" ⟨.object [], Json.wellFormed_empty⟩) (.ok ()),
    .mutation (.addNode "A" ⟨.object [], Json.wellFormed_empty⟩) (.ok ()),
    .mutation (.addNode "A" ⟨.object [], Json.wellFormed_empty⟩) (.ok ()),
    .mutation (.addNode "A" ⟨.object [], Json.wellFormed_empty⟩) (.ok ()),
    .mutation (.addEdge 0 1 "T" (cost (.posInt 0 F64.zero_fits))) (.ok ()),
    .mutation (.addEdge 1 2 "T" (cost (minus (-1) (by decide)))) (.ok ()),
    .mutation (.addEdge 2 1 "T" (cost (minus (-1) (by decide)))) (.ok ()),
    .mutation (.addEdge 2 3 "T" (cost (minus (-100) (by decide)))) (.ok ())]

end

end Snapshot

/-! ## Integer weights -/

/-- The weight of an edge where no rounding takes place. -/
def exactWeight (s : Tables) (property : String) (id : EdgeId) : ℤ :=
  match s.edges.get id with
  | none => unitWeight
  | some r =>
    match r.props.get property with
    | some (.number x) => x.scaled
    | _ => unitWeight

lemma weightUnder_of_integer {s : Tables} {property : String} {id : EdgeId} {w : ℕ}
    (h : exactWeight s property id = w * 2 ^ 1074) (hw : w ≤ 2 ^ 53) :
    weightUnder s property id = w * 2 ^ 1074 := by
  unfold exactWeight at h
  unfold weightUnder
  split at h
  next => exact h
  next =>
    split at h
    next x _ => exact (x.asF64_of_integer h).2 (Nat.cast_nonneg w) (by omega)
    next => exact h

namespace Snapshot

variable (S : Snapshot) (w : EdgeId → ℕ)

/-- The least weight among the edges from one node to another. -/
def pairWeight (u v : NodeId) : ℕ :=
  (((S.edgesFrom u).filter (·.1 = v)).map fun e => w e.2).min?.getD 0

/-- The weight of a path of nodes. -/
def pathWeight (p : List NodeId) : ℕ := ((p.zip p.tail).map fun e => S.pairWeight w e.1 e.2).sum

def rowWeight (u : NodeId) : ℕ := ((S.edgesFrom u).map fun e => w e.2).sum

def totalWeight : ℕ := (S.edges.map fun e => w e.edgeId).sum

variable {S w}

lemma pathWeight_cons_cons (u v : NodeId) (l : List NodeId) :
    S.pathWeight w (u :: v :: l) = S.pairWeight w u v + S.pathWeight w (v :: l) := by
  simp only [pathWeight, tail_cons, zip_cons_cons, map_cons, sum_cons]

variable {spur : NodeId} {u v : NodeId} {p : List NodeId} {root : List NodeId}

lemma pathWeight_append {root l : List NodeId} (h : root.getLast? = some spur) :
    S.pathWeight w (root ++ l) = S.pathWeight w root + S.pathWeight w (spur :: l) := by
  induction root with
  | nil => cases h
  | cons u root ih =>
    cases root with
    | nil =>
      obtain rfl : u = spur := some.inj h
      exact (Nat.zero_add _).symm
    | cons v root =>
      rw [getLast?_cons_cons] at h
      rw [pathWeight_cons_cons, Nat.add_assoc, ← ih h]
      exact pathWeight_cons_cons u v _

lemma pairWeight_le {id : EdgeId} (h : (v, id) ∈ S.edgesFrom u) :
    S.pairWeight w u v ≤ w id := by
  have hmem : w id ∈ ((S.edgesFrom u).filter (·.1 = v)).map fun e => w e.2 :=
    List.mem_map.mpr ⟨(v, id), mem_filter.mpr ⟨h, decide_eq_true rfl⟩, rfl⟩
  rw [pairWeight]
  cases hmin : (((S.edgesFrom u).filter (·.1 = v)).map fun e => w e.2).min? with
  | none =>
    rw [min?_eq_none_iff.mp hmin] at hmem
    cases hmem
  | some m => exact (min?_eq_some_iff.mp hmin).2 _ hmem

lemma exists_pairWeight (h : S.OutStep u v) :
    ∃ id, (v, id) ∈ S.edgesFrom u ∧ w id = S.pairWeight w u v := by
  obtain ⟨id, hid⟩ := outStep_iff_edgesFrom.mp h
  have hmem : w id ∈ ((S.edgesFrom u).filter (·.1 = v)).map fun e => w e.2 :=
    List.mem_map.mpr ⟨(v, id), mem_filter.mpr ⟨hid, decide_eq_true rfl⟩, rfl⟩
  rw [pairWeight]
  cases hmin : (((S.edgesFrom u).filter (·.1 = v)).map fun e => w e.2).min? with
  | none =>
    rw [min?_eq_none_iff.mp hmin] at hmem
    cases hmem
  | some m =>
    obtain ⟨⟨x, id'⟩, hx, rfl⟩ := List.mem_map.mp (min?_eq_some_iff.mp hmin).1
    obtain ⟨hx, hv⟩ := mem_filter.mp hx
    exact ⟨id', of_decide_eq_true hv ▸ hx, rfl⟩

lemma pairWeight_le_rowWeight (h : S.OutStep u v) :
    S.pairWeight w u v ≤ S.rowWeight w u := by
  obtain ⟨id, hmem, heq⟩ := exists_pairWeight (w := w) h
  rw [← heq]
  exact single_le_sum (fun _ _ => Nat.zero_le _) _
    (List.mem_map_of_mem (f := fun e => w e.2) hmem)

lemma pathWeight_le_rows (h : p.IsChain S.OutStep) :
    S.pathWeight w p ≤ (p.map (S.rowWeight w)).sum := by
  induction h with
  | nil => exact le_rfl
  | singleton u => exact Nat.zero_le _
  | cons_cons hstep _ ih =>
    rw [pathWeight_cons_cons, map_cons, sum_cons]
    exact Nat.add_le_add (pairWeight_le_rowWeight hstep) ih

lemma rowWeight_eq (u : NodeId) :
    S.rowWeight w u = ((S.edges.filter fun e => S.idOf e.src = u).map fun e => w e.edgeId).sum := by
  rw [rowWeight, CsrArrays.edgesFrom]
  cases hd : S.idToDense.get u with
  | none =>
    have hnone : S.edges.filter (fun e => S.idOf e.src = u) = [] := by
      refine filter_eq_nil_iff.mpr fun e he htest => ?_
      have := S.get_idToDense_idOf (S.src_lt he)
      rw [of_decide_eq_true htest, hd] at this
      cases this
    rw [hnone]
    rfl
  | some d =>
    have hlt : d < S.n := (List.getElem?_eq_some_iff.mp (S.get_idToDense.mp hd)).1
    have hfilter : S.edges.filter (fun e => S.idOf e.src = u) = S.edges.filter (·.src = d) := by
      refine filter_congr fun e he => decide_eq_decide.mpr ?_
      rw [← (S.idOf_eq_iff hlt).mpr hd]
      exact S.idOf_inj (S.src_lt he) hlt
    rw [hfilter, ← S.outRow_eq, List.map_map, List.map_map]
    rfl

/-- The rows of distinct nodes have no edge in common. -/
theorem sum_rowWeight_le (h : p.Nodup) :
    (p.map (S.rowWeight w)).sum ≤ S.totalWeight w := by
  have hall : ∀ es : List DenseEdge, ∑ u ∈ p.toFinset,
      ((es.filter fun e => S.idOf e.src = u).map fun e => w e.edgeId).sum ≤
        (es.map fun e => w e.edgeId).sum := by
    intro es
    induction es with
    | nil => simp
    | cons e es ih =>
      have hcons : ∀ u, (((e :: es).filter fun e => S.idOf e.src = u).map fun e => w e.edgeId).sum =
          (if S.idOf e.src = u then w e.edgeId else 0) +
            ((es.filter fun e => S.idOf e.src = u).map fun e => w e.edgeId).sum := by
        intro u
        by_cases hu : S.idOf e.src = u <;> simp [hu]
      simp only [hcons, Finset.sum_add_distrib, Finset.sum_ite_eq, map_cons, sum_cons]
      refine Nat.add_le_add ?_ ih
      split
      next => exact le_rfl
      next => exact Nat.zero_le _
  rw [← sum_toFinset _ h]
  simp only [rowWeight_eq]
  exact hall S.edges

lemma pathWeight_le_total (h : p.IsChain S.OutStep) (hnodup : p.Nodup) :
    S.pathWeight w p ≤ S.totalWeight w :=
  (pathWeight_le_rows h).trans (sum_rowWeight_le hnodup)

/-! ## Exact costs -/

variable {s : Tables} {property : String} {dst : NodeId}

variable (S w s property) in
/-- The weights are non-negative integers that together need no more than 53 bits. -/
structure SmallWeights : Prop where
  exact : ∀ e ∈ S.edges, exactWeight s property e.edgeId = w e.edgeId * 2 ^ 1074
  total_le : S.totalWeight w ≤ 2 ^ 53

/-- The cost is the number of that many units of weight. -/
def Costs (cost : RunningSum) (m : ℕ) : Prop := cost.val = m * 2 ^ 1074

lemma SmallWeights.weightUnder (h : S.SmallWeights w s property) {id : EdgeId}
    (hmem : (v, id) ∈ S.edgesFrom u) : IssunDB.weightUnder s property id = w id * 2 ^ 1074 := by
  obtain ⟨e, he, -, -, rfl⟩ := mem_edgesFrom.mp hmem
  apply weightUnder_of_integer (h.exact e he)
  have hle : w e.edgeId ≤ S.totalWeight w :=
    single_le_sum (fun _ _ => Nat.zero_le _) _
      (List.mem_map_of_mem (f := fun e : DenseEdge => w e.edgeId) he)
  exact hle.trans h.total_le

variable {blockedNodes : List NodeId} {blockedEdges : List (NodeId × NodeId)}

lemma SmallWeights.grows (h : S.SmallWeights w s property) :
    (S.labelGraph s property blockedNodes blockedEdges).Grows := by
  intro u e he c
  obtain ⟨-, -, id, hmem, heq⟩ := mem_rows.mp he
  refine c.le_add ?_
  rw [← heq, h.weightUnder hmem]
  exact mul_nonneg (Nat.cast_nonneg _) unitWeight_pos.le

lemma SmallWeights.exists_along (h : S.SmallWeights w s property) {c c' : RunningSum}
    (halong : (S.labelGraph s property blockedNodes blockedEdges).Along c p c') {i : ℕ}
    (hc : Costs c i) (hle : i + (p.map (S.rowWeight w)).sum ≤ 2 ^ 53) :
    ∃ m, Costs c' (i + m) ∧ S.pathWeight w p ≤ m := by
  induction halong generalizing i with
  | single v c => exact ⟨0, hc, le_rfl⟩
  | @cons u v weight c c' l hedge _ ih =>
    obtain ⟨-, -, id, hmem, rfl⟩ := mem_rows.mp hedge
    have hrow : w id ≤ S.rowWeight w u :=
      single_le_sum (fun _ _ => Nat.zero_le _) _
        (List.mem_map_of_mem (f := fun e : NodeId × EdgeId => w e.2) hmem)
    rw [map_cons, sum_cons] at hle
    have hnext : Costs (c.add (IssunDB.weightUnder s property id)) (i + w id) := by
      rw [h.weightUnder hmem]
      exact RunningSum.val_add hc (by omega)
    obtain ⟨m, hm, hpath⟩ := ih hnext (by omega)
    refine ⟨w id + m, ?_, ?_⟩
    · rwa [← Nat.add_assoc]
    · rw [pathWeight_cons_cons]
      exact Nat.add_le_add (pairWeight_le hmem) hpath

lemma SmallWeights.along (h : S.SmallWeights w s property) (hne : p ≠ [])
    (hchain : p.IsChain (S.OpenStep blockedNodes blockedEdges)) {c : RunningSum} {i : ℕ}
    (hc : Costs c i) (hle : i + S.pathWeight w p ≤ 2 ^ 53) :
    ∃ c', (S.labelGraph s property blockedNodes blockedEdges).Along c p c' ∧
      Costs c' (i + S.pathWeight w p) := by
  induction hchain generalizing c i with
  | nil => exact absurd rfl hne
  | singleton v => exact ⟨c, .single v c, hc⟩
  | @cons_cons u v l hstep _ ih =>
    obtain ⟨id, hmem, hid⟩ := exists_pairWeight (w := w) hstep.1
    rw [pathWeight_cons_cons] at hle ⊢
    have hnext : Costs (c.add (IssunDB.weightUnder s property id)) (i + w id) := by
      rw [h.weightUnder hmem]
      exact RunningSum.val_add hc (by omega)
    obtain ⟨c', halong, hc'⟩ := ih (cons_ne_nil _ _) hnext (by omega)
    refine ⟨c', .cons (mem_rows.mpr ⟨hstep.2.1, hstep.2.2, id, hmem, rfl⟩) halong, ?_⟩
    rwa [hid, Nat.add_assoc] at hc'

lemma costs_zero : Costs .zero 0 := by
  rw [Costs, Nat.cast_zero, zero_mul]
  rfl

lemma Costs.le_iff {c d : RunningSum} {m n : ℕ} (hc : Costs c m) (hd : Costs d n) :
    c ≤ d ↔ m ≤ n := by
  rw [RunningSum.le_def, hc, hd]
  constructor
  · intro h
    exact Nat.cast_le.mp (le_of_mul_le_mul_right h unitWeight_pos)
  · intro h
    exact mul_le_mul_of_nonneg_right (Nat.cast_le.mpr h) unitWeight_pos.le

lemma Costs.ne_top {c : RunningSum} {m : ℕ} (hc : Costs c m) (hm : m ≤ 2 ^ 53) : c ≠ ⊤ := by
  rintro rfl
  have hlarge : (m : ℤ) * 2 ^ 1074 < F64.infinity := by
    calc (m : ℤ) * 2 ^ 1074 ≤ 2 ^ 53 * 2 ^ 1074 :=
          mul_le_mul_of_nonneg_right (by omega) unitWeight_pos.le
      _ = 2 ^ 1127 := by rw [← pow_add]
      _ < F64.infinity := by
        rw [F64.infinity]
        exact pow_lt_pow_right₀ (by decide) (by decide)
  exact hlarge.ne (hc.symm.trans RunningSum.val_top)

lemma Finds.exact {r : Option (List NodeId × RunningSum)}
    (hfinds : S.Finds s property blockedNodes blockedEdges spur dst r)
    (h : S.SmallWeights w s property) :
    (∀ path cost, r = some (path, cost) → Costs cost (S.pathWeight w path) ∧
      ∀ q ∈ simplePaths (S.OpenStep blockedNodes blockedEdges) spur dst,
        S.pathWeight w path ≤ S.pathWeight w q) ∧
    (r = none → simplePaths (S.OpenStep blockedNodes blockedEdges) spur dst = ∅) := by
  have hopen : ∀ q ∈ simplePaths (S.OpenStep blockedNodes blockedEdges) spur dst,
      (q.map (S.rowWeight w)).sum ≤ 2 ^ 53 ∧ ∃ c,
        (S.labelGraph s property blockedNodes blockedEdges).Walks (spur, .zero) (dst, c) ∧
          Costs c (S.pathWeight w q) ∧ S.pathWeight w q ≤ 2 ^ 53 := by
    intro q hq
    have hrows := (sum_rowWeight_le (w := w) hq.2).trans h.total_le
    have hle := (pathWeight_le_rows (w := w) (hq.1.chain.imp fun _ _ h => h.1)).trans hrows
    obtain ⟨c, halong, hc⟩ := h.along hq.1.ne_nil hq.1.chain costs_zero (by omega)
    rw [Nat.zero_add] at hc
    exact ⟨hrows, c, halong.walks hq.1.head hq.1.last, hc, hle⟩
  constructor
  · intro path cost hr
    have hpath := hfinds.simple path cost hr
    obtain ⟨halong, hleast⟩ := hfinds.cheapest h.grows path cost hr
    obtain ⟨hrows, c, hwalk, hc, -⟩ := hopen path hpath
    obtain ⟨m, hm, hge⟩ := h.exists_along halong costs_zero (by omega)
    rw [Nat.zero_add] at hm
    obtain rfl : m = S.pathWeight w path :=
      le_antisymm ((hm.le_iff hc).mp (hleast c hwalk)) hge
    refine ⟨hm, fun q hq => ?_⟩
    obtain ⟨-, c', hwalk', hc', -⟩ := hopen q hq
    exact (hm.le_iff hc').mp (hleast c' hwalk')
  · intro hr
    refine Set.eq_empty_of_forall_notMem fun q hq => ?_
    obtain ⟨-, c, hwalk, hc, hle⟩ := hopen q hq
    exact hc.ne_top hle (hfinds.absent h.grows hr c hwalk)

lemma SmallWeights.cheapestEdge (h : S.SmallWeights w s property) (hstep : S.OutStep u v) :
    S.cheapestEdge s property u v = some ((S.pairWeight w u v : ℤ) * 2 ^ 1074) := by
  let pick (least : Option Amount) (e : NodeId × EdgeId) : Option Amount :=
    if e.1 = v then
      let weight := IssunDB.weightUnder s property e.2
      if least.all (weight < ·) then some weight else least
    else least
  have hpick : ∀ least id, (v, id) ∈ S.edgesFrom u → pick least (v, id) =
      if least.all ((w id : ℤ) * 2 ^ 1074 < ·) then some ((w id : ℤ) * 2 ^ 1074) else least := by
    intro least id hmem
    rw [← h.weightUnder hmem]
    exact if_pos rfl
  -- What the scan holds is the least weight seen so far.
  have hscan : ∀ es : List (NodeId × EdgeId), (∀ e ∈ es, e ∈ S.edgesFrom u) →
      (es.foldl pick none = none ∧ ∀ e ∈ es, e.1 ≠ v) ∨
        ∃ id, (v, id) ∈ es ∧ es.foldl pick none = some ((w id : ℤ) * 2 ^ 1074) ∧
          ∀ e ∈ es, e.1 = v → w id ≤ w e.2 := by
    intro es hes
    induction es using List.reverseRecOn with
    | nil => exact .inl ⟨rfl, nofun⟩
    | append_singleton es e ih =>
      have hprev := ih fun e' he' => hes e' (mem_append_left _ he')
      have hmem : e ∈ S.edgesFrom u := hes e (mem_append_right _ (mem_singleton_self e))
      rw [foldl_append, foldl_cons, foldl_nil]
      by_cases hv : e.1 = v
      · obtain ⟨x, id⟩ := e
        obtain rfl : x = v := hv
        have hself : (x, id) ∈ es ++ [(x, id)] := mem_append_right _ mem_cons_self
        right
        rcases hprev with ⟨hnone, hno⟩ | ⟨id', hid', hsome, hleast⟩
        · refine ⟨id, hself, ?_, fun e' he' hv' => ?_⟩
          · rw [hnone, hpick _ id hmem]
            exact if_pos rfl
          · rcases mem_append.mp he' with he' | he'
            · exact absurd hv' (hno e' he')
            · exact mem_singleton.mp he' ▸ le_rfl
        · by_cases hlt : w id < w id'
          · refine ⟨id, hself, ?_, fun e' he' hv' => ?_⟩
            · have : (w id : ℤ) * 2 ^ 1074 < (w id' : ℤ) * 2 ^ 1074 :=
                mul_lt_mul_of_pos_right (Nat.cast_lt.mpr hlt) unitWeight_pos
              rw [hsome, hpick _ id hmem, all_some]
              exact if_pos (decide_eq_true this)
            · rcases mem_append.mp he' with he' | he'
              · exact hlt.le.trans (hleast e' he' hv')
              · exact mem_singleton.mp he' ▸ le_rfl
          · refine ⟨id', mem_append_left _ hid', ?_, fun e' he' hv' => ?_⟩
            · have : ¬(w id : ℤ) * 2 ^ 1074 < (w id' : ℤ) * 2 ^ 1074 := by
                rw [not_lt]
                exact mul_le_mul_of_nonneg_right (Nat.cast_le.mpr (not_lt.mp hlt)) unitWeight_pos.le
              rw [hsome, hpick _ id hmem, all_some]
              exact if_neg fun htest => this (of_decide_eq_true htest)
            · rcases mem_append.mp he' with he' | he'
              · exact hleast e' he' hv'
              · exact mem_singleton.mp he' ▸ not_lt.mp hlt
      · have hskip : ∀ least, pick least e = least := fun least => if_neg hv
        rw [hskip]
        refine hprev.imp (fun ⟨hnone, hno⟩ => ⟨hnone, fun e' he' => ?_⟩)
          fun ⟨id, hid, hsome, hleast⟩ => ⟨id, mem_append_left _ hid, hsome, fun e' he' hv' => ?_⟩
        · rcases mem_append.mp he' with he' | he'
          · exact hno e' he'
          · exact mem_singleton.mp he' ▸ hv
        · rcases mem_append.mp he' with he' | he'
          · exact hleast e' he' hv'
          · exact absurd (mem_singleton.mp he' ▸ hv') hv
  obtain ⟨id, hmem, hid⟩ := exists_pairWeight (w := w) hstep
  rcases hscan (S.edgesFrom u) fun _ he => he with ⟨-, hno⟩ | ⟨id', hid', hsome, hleast⟩
  · exact absurd rfl (hno _ hmem)
  · have heq : w id' = S.pairWeight w u v :=
      le_antisymm (hid ▸ hleast _ hmem rfl) (pairWeight_le hid')
    have hcheapest : S.cheapestEdge s property u v = (S.edgesFrom u).foldl pick none := rfl
    rw [← heq, hcheapest, hsome]

lemma SmallWeights.rootCost (h : S.SmallWeights w s property) (hchain : root.IsChain S.OutStep)
    (hle : S.pathWeight w root ≤ 2 ^ 53) :
    Costs (S.rootCost s property root) (S.pathWeight w root) := by
  suffices ∀ (c : RunningSum) (i : ℕ), Costs c i → i + S.pathWeight w root ≤ 2 ^ 53 →
      Costs ((root.zip root.tail).foldl
        (fun cost e => cost.add ((S.cheapestEdge s property e.1 e.2).getD unitWeight)) c)
        (i + S.pathWeight w root) by
    have hcosts := this .zero 0 costs_zero (by omega)
    rwa [Nat.zero_add] at hcosts
  clear hle
  induction hchain with
  | nil => exact fun c i hc _ => hc
  | singleton v => exact fun c i hc _ => hc
  | @cons_cons u v l hstep _ ih =>
    intro c i hc hle
    rw [pathWeight_cons_cons] at hle ⊢
    rw [← Nat.add_assoc]
    refine ih _ _ ?_ (by omega)
    show Costs (c.add ((S.cheapestEdge s property u v).getD unitWeight)) _
    rw [h.cheapestEdge hstep, getD_some]
    exact RunningSum.val_add hc (by omega)

/-! ## The cheapest paths are listed -/

variable (S w) in
def Priced (c : CostedPath) : Prop := ∃ cost, c.2 = some cost ∧ Costs cost (S.pathWeight w c.1)

variable {src : NodeId} {found pool rest : List CostedPath} {best : CostedPath}

variable (S w src dst) in
/-- The paths found and the candidates, before the deviations from the last path found are searched
for: those from the prefixes of the others are in the pool. -/
structure Listing (found pool : List CostedPath) : Prop where
  ne_nil : found ≠ []
  ranked :
    Ranked (simplePaths S.OutStep src dst) (S.pathWeight w) (found.map (·.1)) (pool.map (·.1))
  priced : ∀ c ∈ found ++ pool, S.Priced w c
  covers : ∀ prev, found.getLast? = some prev → ∀ root ≠ [],
    (∃ q ∈ found.map (·.1), root <+: q) → ¬root <+: prev.1 →
      Covers (simplePaths S.OutStep src dst) (S.pathWeight w) (found.map (·.1))
      (pool.map (·.1)) root

variable (S w src dst) in
/-- The paths found and the candidates after it. -/
structure Pooled (found pool : List CostedPath) : Prop where
  ne_nil : found ≠ []
  ranked :
    Ranked (simplePaths S.OutStep src dst) (S.pathWeight w) (found.map (·.1)) (pool.map (·.1))
  priced : ∀ c ∈ found ++ pool, S.Priced w c
  covers : ∀ root ≠ [], (∃ q ∈ found.map (·.1), root <+: q) →
    Covers (simplePaths S.OutStep src dst) (S.pathWeight w) (found.map (·.1)) (pool.map (·.1)) root

lemma subset_addCandidate (candidates : List CostedPath) (c : CostedPath) :
    candidates ⊆ addCandidate candidates c := by
  intro x hx
  rw [addCandidate]
  split
  next => exact hx
  next => exact mem_append_left _ hx

lemma mem_map_addCandidate (candidates : List CostedPath) (c : CostedPath) :
    c.1 ∈ (addCandidate candidates c).map (·.1) := by
  rw [addCandidate]
  split
  next h =>
    obtain ⟨x, hx, heq⟩ := List.any_eq_true.mp h
    exact of_decide_eq_true heq ▸ List.mem_map_of_mem hx
  next => exact List.mem_map_of_mem (mem_append_right _ (mem_singleton_self c))

lemma Ranked.addCandidate {paths : Set (List NodeId)} {weight : List NodeId → ℕ}
    {listed : List (List NodeId)} {c : CostedPath}
    (h : Ranked paths weight listed (pool.map (·.1))) (hc : c.1 ∈ paths) (hnew : c.1 ∉ listed) :
    Ranked paths weight listed ((addCandidate pool c).map (·.1)) := by
  rw [IssunDB.addCandidate]
  split
  next => exact h
  next hfresh =>
    rw [map_append]
    refine h.add hc hnew fun hmem => hfresh ?_
    obtain ⟨x, hx, heq⟩ := List.mem_map.mp hmem
    exact List.any_eq_true.mpr ⟨x, hx, decide_eq_true heq⟩

/-- A search at one root puts a cheapest deviation from it into the pool. -/
theorem SmallWeights.covers (h : S.SmallWeights w s property) {nodes : List NodeId}
    {edges : List (NodeId × NodeId)} {r : Option (List NodeId × RunningSum)}
    (hroot : root ∈ simplePaths S.OutStep src spur) (hne : spur ≠ dst)
    (hfinds : S.Finds s property nodes edges spur dst r)
    (hstep : ∀ u v, S.OpenStep nodes edges u v ↔
        SpurStep S.OutStep (found.map (·.1)) root spur u v) :
    Covers (simplePaths S.OutStep src dst) (S.pathWeight w) (found.map (·.1))
      ((withDeviation S.toCsrArrays s property root pool r).map (·.1)) root := by
  have hsame : S.OpenStep nodes edges = SpurStep S.OutStep (found.map (·.1)) root spur :=
    funext fun u => funext fun v => propext (hstep u v)
  obtain ⟨hsome, hnone⟩ := hfinds.exact h
  rw [hsame] at hsome hnone
  intro q hq hdev
  obtain ⟨q', hq', rfl⟩ := (mem_simplePaths_and_deviates hroot hne).mp ⟨hq, hdev⟩
  cases r with
  | none =>
    rw [hnone rfl] at hq'
    exact absurd hq' (Set.notMem_empty q')
  | some r =>
    obtain ⟨path, cost⟩ := r
    obtain ⟨-, hleast⟩ := hsome path cost rfl
    obtain ⟨-, hdev'⟩ := hfinds.deviates hstep hroot hne rfl
    refine ⟨root ++ path.tail, mem_map_addCandidate _ _, hdev', ?_⟩
    have hspur : ∀ {p : List NodeId}, p.head? = some spur →
        S.pathWeight w (root ++ p.tail) = S.pathWeight w root + S.pathWeight w p := by
      intro p hp
      obtain ⟨l, rfl⟩ : ∃ l, p = spur :: l := by
        cases p with
        | nil => cases hp
        | cons x l => exact ⟨l, congrArg (· :: l) (some.inj hp)⟩
      exact pathWeight_append hroot.1.last
    rw [hspur (hfinds.simple path cost rfl).1.head, hspur hq'.1.head]
    exact Nat.add_le_add_left (hleast q' hq') _

lemma SmallWeights.priced (h : S.SmallWeights w s property) {nodes : List NodeId}
    {edges : List (NodeId × NodeId)} {path : List NodeId} {cost : RunningSum}
    {listed : List (List NodeId)} (hroot : root ∈ simplePaths S.OutStep src spur) (hne : spur ≠ dst)
    (hfinds : S.Finds s property nodes edges spur dst (some (path, cost)))
    (hstep : ∀ u v, S.OpenStep nodes edges u v ↔ SpurStep S.OutStep listed root spur u v) :
    S.Priced w (root ++ path.tail, (S.rootCost s property root).plus cost) := by
  obtain ⟨hpath, -⟩ := hfinds.deviates hstep hroot hne rfl
  obtain ⟨hcost, -⟩ := (hfinds.exact h).1 path cost rfl
  have htotal := (pathWeight_le_total (w := w) hpath.1.chain hpath.2).trans h.total_le
  have hsum : S.pathWeight w (root ++ path.tail) = S.pathWeight w root + S.pathWeight w path := by
    have hhead := (hfinds.simple path cost rfl).1.head
    obtain ⟨l, rfl⟩ : ∃ l, path = spur :: l := by
      cases path with
      | nil => cases hhead
      | cons x l => exact ⟨l, congrArg (· :: l) (some.inj hhead)⟩
    exact pathWeight_append hroot.1.last
  have hrootCost := h.rootCost hroot.1.chain (by omega)
  have hfinite : cost.infinite = false := by
    have htop := hcost.ne_top (by omega)
    have hnonneg : 0 ≤ cost.val := by
      rw [hcost]
      exact mul_nonneg (Nat.cast_nonneg _) unitWeight_pos.le
    refine decide_eq_false (not_or.mpr ⟨fun heq => ?_, fun heq => ?_⟩)
    · have := F64.infinity_pos
      omega
    · exact htop (RunningSum.val_injective (heq.trans RunningSum.val_top.symm))
  refine ⟨(S.rootCost s property root).add cost.val, ?_, ?_⟩
  · show RunningSum.plus _ cost = _
    rw [RunningSum.plus, hfinite]
    rfl
  · show Costs _ (S.pathWeight w (root ++ path.tail))
    rw [hsum, hcost]
    exact RunningSum.val_add hrootCost (by omega)

lemma SmallWeights.not_negativeCycle (h : S.SmallWeights w s property) :
    ¬S.NegativeCycle s property src := by
  rintro ⟨u, -, himp⟩
  exact LabelGraph.not_improves h.grows u himp

lemma Listing.deviations (Q : PriorityQueue RunningSum NodeId) (h : S.SmallWeights w s property)
    (hlisting : S.Listing w dst src found pool) :
    ∃ prev, found.getLast? = some prev ∧ ∃ pool',
      Returns (fun fuel => S.deviations s property Q dst fuel found prev.1 pool) pool' ∧
        S.Pooled w dst src found pool' := by
  have hlast := getLast?_eq_getLast_of_ne_nil hlisting.ne_nil
  generalize found.getLast hlisting.ne_nil = prev at hlast
  have hprevMem : prev.1 ∈ found.map (·.1) := List.mem_map_of_mem (mem_of_getLast? hlast)
  have hprev := hlisting.ranked.listed_mem prev.1 hprevMem
  let Progress (done : List ℕ) (pool : List CostedPath) : Prop :=
    Ranked (simplePaths S.OutStep src dst) (S.pathWeight w) (found.map (·.1)) (pool.map (·.1)) ∧
    (∀ c ∈ found ++ pool, S.Priced w c) ∧
    (∀ root ≠ [], (∃ q ∈ found.map (·.1), root <+: q) → ¬root <+: prev.1 →
      Covers (simplePaths S.OutStep src dst) (S.pathWeight w) (found.map (·.1))
        (pool.map (·.1)) root) ∧
    ∀ j ∈ done, Covers (simplePaths S.OutStep src dst) (S.pathWeight w) (found.map (·.1))
      (pool.map (·.1)) (prev.1.take (j + 1))
  have hturn : ∀ done j pool, j ∈ List.range (prev.1.length - 1) → Progress done pool →
      ∃ pool', Returns (fun fuel => S.deviate s property Q dst fuel found prev.1 pool j) pool' ∧
        Progress (done ++ [j]) pool' := by
    intro done j pool hj hpool
    obtain ⟨hranked, hpriced, hcovers, hdone⟩ := hpool
    have hlt : j + 1 < prev.1.length := by
      have := mem_range.mp hj
      omega
    obtain ⟨spur, nodes, edges, r, -, hne, hroot, hrun, hfinds, hstep⟩ :=
      exists_deviate S s property Q hranked.listed_mem hprev hlt
        h.not_negativeCycle
    have hsub : pool ⊆ withDeviation S.toCsrArrays s property (prev.1.take (j + 1)) pool r := by
      cases r with
      | none => exact fun x hx => hx
      | some r => exact subset_addCandidate _ _
    have hmapSub := map_subset (·.1) hsub
    refine ⟨_, hrun pool, ?_, fun c hc => ?_, fun root hroot hex hpre =>
      (hcovers root hroot hex hpre).mono hmapSub, fun i hi => ?_⟩
    · cases r with
      | none => exact hranked
      | some r =>
        obtain ⟨hpath, hdev⟩ := hfinds.deviates hstep hroot hne rfl
        exact Ranked.addCandidate hranked hpath hdev.not_mem
    · rcases mem_append.mp hc with hc | hc
      · exact hpriced c (mem_append_left _ hc)
      · cases r with
        | none => exact hpriced c (mem_append_right _ hc)
        | some r =>
          rcases mem_addCandidate hc with rfl | hc
          · exact h.priced hroot hne hfinds hstep
          · exact hpriced c (mem_append_right _ hc)
    · rcases mem_append.mp hi with hi | hi
      · exact (hdone i hi).mono hmapSub
      · obtain rfl := mem_singleton.mp hi
        exact h.covers hroot hne hfinds hstep
  obtain ⟨pool', hrun, hranked, hpriced, hcovers, hdone⟩ := exists_returns_foldlM Progress hturn
    ⟨hlisting.ranked, hlisting.priced, hlisting.covers prev hlast,
      fun j hj => absurd hj not_mem_nil⟩
  refine ⟨prev, hlast, pool', hrun, hlisting.ne_nil, hranked, hpriced, fun root hroot hex => ?_⟩
  by_cases hpre : root <+: prev.1
  · by_cases heq : root = prev.1
    · -- Nothing goes on after a whole path.
      intro q hq hdev
      have hwhole := prefixFree_simplePaths.eq_of_prefix _ hprev q hq (heq ▸ hdev.prefix)
      exact absurd (hwhole ▸ hprevMem) hdev.not_mem
    · have hlen := hpre.length_le
      have hpos := length_pos_of_ne_nil hroot
      have hlt : root.length < prev.1.length :=
        lt_of_le_of_ne hlen fun hsame => heq (hpre.eq_of_length hsame)
      have htake : prev.1.take (root.length - 1 + 1) = root := by
        rw [Nat.sub_add_cancel hpos]
        exact (prefix_iff_eq_take.mp hpre).symm
      have hcover := hdone (root.length - 1) (mem_range.mpr (by omega))
      rwa [htake] at hcover
  · exact hcovers root hroot hex hpre

lemma comparesOn_candidateCmp : ComparesOn candidateCmp {c | c.2.isSome} := by
  have hcost :
      ComparesOn (fun a b : CostedPath => compare (a.2.elim 0 (·.val)) (b.2.elim 0 (·.val)))
      {c | c.2.isSome} := .ofKey (fun c : CostedPath => c.2.elim (0 : ℤ) (·.val)) fun _ _ _ _ => rfl
  have hnat : ComparesOn (compare : ℕ → ℕ → Ordering) Set.univ := .ofKey id fun _ _ _ _ => rfl
  have hpath : ComparesOn (fun a b : CostedPath => List.compareLex compare a.1 b.1)
      {c | c.2.isSome} := hnat.lists.comap fun _ _ _ _ => Set.mem_univ _
  have hswap : ∀ {cmp : CostedPath → CostedPath → Ordering}, ComparesOn cmp {c | c.2.isSome} →
      ComparesOn (fun a b => cmp b a) {c | c.2.isSome} := fun h =>
    h.reverse.congr fun a ha b hb => h.swap a ha b hb
  refine ((hswap hcost).lex (hswap hpath)).congr fun a ha b hb => ?_
  obtain ⟨x, hx⟩ := isSome_iff_exists.mp ha
  obtain ⟨y, hy⟩ := isSome_iff_exists.mp hb
  rw [candidateCmp, hx, hy]
  rfl

lemma le_of_getLast?_stableSort (hpriced : ∀ c ∈ pool, S.Priced w c)
    (hlast : (stableSort candidateCmp pool).getLast? = some best) :
    ∀ c ∈ pool, S.pathWeight w best.1 ≤ S.pathWeight w c.1 := by
  intro c hc
  have hperm := perm_stableSort candidateCmp pool
  have hbest : best ∈ pool := hperm.mem_iff.mp (mem_of_getLast? hlast)
  obtain ⟨x, hx, hxCost⟩ := hpriced c hc
  obtain ⟨y, hy, hyCost⟩ := hpriced best hbest
  have hsorted : SortedBy candidateCmp (stableSort candidateCmp pool) := by
    refine sortedBy_stableSort comparesOn_candidateCmp fun c hc => ?_
    obtain ⟨cost, hcost, -⟩ := hpriced c hc
    exact isSome_iff_exists.mpr ⟨cost, hcost⟩
  have hsplit : (stableSort candidateCmp pool).dropLast ++ [best] =
      stableSort candidateCmp pool := dropLast_append_getLast? best hlast
  have hmem : c ∈ (stableSort candidateCmp pool).dropLast ++ [best] := by
    rw [hsplit]
    exact hperm.mem_iff.mpr hc
  rcases mem_append.mp hmem with hmem | hmem
  · rw [SortedBy, ← hsplit] at hsorted
    have hle := (pairwise_append.mp hsorted).2.2 c hmem best (mem_singleton_self best)
    rw [candidateCmp, hx, hy] at hle
    have hcmp : (compare y.val x.val).isLE := by
      rcases Ordering.isLE_then_iff_or.mp hle with hlt | ⟨heq, -⟩
      · exact Ordering.isLE_iff_ne_gt.mpr fun hgt => absurd (hlt.symm.trans hgt) (by decide)
      · exact Ordering.isLE_iff_ne_gt.mpr fun hgt => absurd (heq.symm.trans hgt) (by decide)
    exact (hyCost.le_iff hxCost).mp (Int.isLE_compare.mp hcmp)
  · exact (mem_singleton.mp hmem) ▸ le_rfl

lemma Pooled.list (h : S.Pooled w dst src found pool) (hperm : pool.Perm (best :: rest))
    (hlast : (stableSort candidateCmp pool).getLast? = some best) :
    S.Listing w dst src (found ++ [best]) rest := by
  have hleast := le_of_getLast?_stableSort
    (fun c hc => h.priced c (mem_append_right found hc)) hlast
  have hne : found.map (·.1) ≠ [] := by
    rw [ne_eq, map_eq_nil_iff]
    exact h.ne_nil
  obtain ⟨hranked, hcovers⟩ := h.ranked.list prefixFree_simplePaths hne h.covers
    (hperm.map (·.1)) (by
      intro q hq
      obtain ⟨c, hc, rfl⟩ := List.mem_map.mp hq
      exact hleast c hc)
  have hmap : (found ++ [best]).map (·.1) = found.map (·.1) ++ [best.1] := map_append
  refine ⟨append_ne_nil_of_right_ne_nil _ (cons_ne_nil best []), ?_, fun c hc => ?_,
    fun prev hprev root hroot hex hpre => ?_⟩
  · rw [hmap]
    exact hranked
  · rcases mem_append.mp hc with hc | hc
    · rcases mem_append.mp hc with hc | hc
      · exact h.priced c (mem_append_left _ hc)
      · refine h.priced c (mem_append_right _ (hperm.mem_iff.mpr ?_))
        exact mem_singleton.mp hc ▸ mem_cons_self
    · exact h.priced c (mem_append_right _ (hperm.mem_iff.mpr (mem_cons_of_mem _ hc)))
  · rw [getLast?_concat] at hprev
    obtain rfl := some.inj hprev
    rw [hmap] at hex ⊢
    exact hcovers root hroot hex hpre

variable (S w s property) in
/-- The query lists the cheapest simple paths: as many as were asked for or as there are, each once,
in ascending order of weight, each with its weight, and none that is left out is cheaper. -/
def ListsCheapest (Q : PriorityQueue RunningSum NodeId) (src dst : NodeId) (k : ℕ) : Prop :=
  ∃ found, Returns (fun fuel => S.shortestPathTopK s property Q dst src k fuel) (.ok found) ∧
    (found.length : ℕ∞) = min (k : ℕ∞) (simplePaths S.OutStep src dst).encard ∧
    (found.map (·.1)).Nodup ∧
    (∀ c ∈ found, c.1 ∈ simplePaths S.OutStep src dst ∧ S.Priced w c) ∧
    found.Pairwise (fun c d => S.pathWeight w c.1 ≤ S.pathWeight w d.1) ∧
    ∀ q ∈ simplePaths S.OutStep src dst, q ∉ found.map (·.1) →
      ∀ c ∈ found, S.pathWeight w c.1 ≤ S.pathWeight w q

/-- **The query for the `k` cheapest paths is exact** where the weights are non-negative integers
that together are at most `2 ^ 53`. -/
theorem shortestPathTopK_exact (h : S.SmallWeights w s property)
    (Q : PriorityQueue RunningSum NodeId) (src dst : NodeId) (k : ℕ) :
    S.ListsCheapest w s property Q src dst k := by
  by_cases hk : k = 0
  · subst hk
    refine ⟨[], ⟨0, fun fuel _ => if_pos rfl⟩, (inf_eq_left.mpr zero_le).symm, nodup_nil,
      fun c hc => absurd hc not_mem_nil, .nil, fun _ _ _ c hc => absurd hc not_mem_nil⟩
  obtain ⟨r, hfinds, hquery⟩ := shortestPathTopK_cases S s property Q src dst
    h.not_negativeCycle hk
  obtain ⟨hsome, hnone⟩ := hfinds.exact h
  rw [openStep_nil] at hsome hnone
  cases r with
  | none =>
    have hempty := hnone rfl
    refine ⟨[], hquery, ?_, nodup_nil, fun c hc => absurd hc not_mem_nil, .nil,
      fun _ _ _ c hc => absurd hc not_mem_nil⟩
    rw [hempty, Set.encard_empty]
    exact (inf_eq_right.mpr zero_le).symm
  | some r =>
    obtain ⟨path, cost⟩ := r
    have hpath := hfinds.simple path cost rfl
    rw [openStep_nil] at hpath
    obtain ⟨hcost, hleast⟩ := hsome path cost rfl
    have hstart : S.Listing w dst src [(path, some cost)] [] := by
      refine ⟨cons_ne_nil _ _, .singleton hpath hleast, fun c hc => ?_,
        fun prev hprev root _ hex hpre => ?_⟩
      · obtain rfl := mem_singleton.mp hc
        exact ⟨cost, rfl, hcost⟩
      · obtain ⟨q, hq, hpre'⟩ := hex
        obtain rfl := mem_singleton.mp hq
        obtain rfl := some.inj hprev
        exact absurd hpre' hpre
    obtain ⟨out, hout, hresult⟩ := exists_topKFrom Q (S.Listing w dst src) (S.Pooled w dst src)
      (fun _ _ hlisting => hlisting.deviations Q h) (fun _ _ _ _ hpooled => hpooled.list) (k - 1)
      hstart
    rw [length_singleton, Nat.add_sub_cancel' (Nat.one_le_iff_ne_zero.mpr hk)] at hresult
    obtain ⟨hranked, hpriced, hall⟩ : (∃ pool, Ranked (simplePaths S.OutStep src dst)
        (S.pathWeight w) (out.map (·.1)) pool) ∧ (∀ c ∈ out, S.Priced w c) ∧
        ((out.map (·.1)).length = k ∨ ((out.map (·.1)).length ≤ k ∧
          ∀ q ∈ simplePaths S.OutStep src dst, q ∈ out.map (·.1))) := by
      rw [length_map]
      rcases hresult with ⟨hlen, pool, hlisting⟩ | ⟨hlen, hpooled⟩
      · exact ⟨⟨_, hlisting.ranked⟩, fun c hc => hlisting.priced c (mem_append_left _ hc),
          .inl hlen⟩
      · refine ⟨⟨_, hpooled.ranked⟩, fun c hc => hpooled.priced c (mem_append_left _ hc),
          .inr ⟨hlen, fun q hq => ?_⟩⟩
        refine hpooled.ranked.complete prefixFree_simplePaths ?_ hpooled.covers hq
        rw [ne_eq, map_eq_nil_iff]
        exact hpooled.ne_nil
    obtain ⟨pool, hranked⟩ := hranked
    refine ⟨out, hquery out hout, ?_, hranked.listed_nodup, fun c hc =>
      ⟨hranked.listed_mem _ (List.mem_map_of_mem hc), hpriced c hc⟩,
      (pairwise_map (R := fun p q => S.pathWeight w p ≤ S.pathWeight w q)).mp hranked.ascending,
      fun q hq hmem c hc =>
      hranked.least _ (List.mem_map_of_mem hc) q hq hmem⟩
    rw [← length_eq_min hranked.listed_mem hranked.listed_nodup hall, length_map]

section

attribute [local instance] TextLib.ascii

lemma toll_fits : 3 < 2 ^ 64 := by
  decide

lemma priced_wellFormed {cost toll : ℕ} (hcost : cost < 2 ^ 64) (htoll : toll < 2 ^ 64) :
    (Json.object [("cost", .number (.posInt cost hcost)),
      ("toll", .number (.posInt toll htoll))]).wellFormed = true := by
  have horder : "cost" < "toll" := by decide
  simp only [Json.wellFormed, Json.wellFormedFields, Bool.and_true, decide_eq_true_eq]
  exact pairwise_pair.mpr horder

/-- Three nodes on a path of two edges. -/
def longPath : List Graph.Action :=
  let bare : Props := ⟨.object [], Json.wellFormed_empty⟩
  let first : Props := ⟨.object [("cost", .number (.posInt (2 ^ 53) F64.limit_fits)),
    ("toll", .number (.posInt 3 toll_fits))], priced_wellFormed _ _⟩
  let second : Props := ⟨.object [("cost", .number (.posInt 1 F64.one_fits)),
    ("toll", .number (.posInt 1 F64.one_fits))], priced_wellFormed F64.one_fits F64.one_fits⟩
  [.mutation (.addNode "A" bare) (.ok ()), .mutation (.addNode "A" bare) (.ok ()),
    .mutation (.addNode "A" bare) (.ok ()), .mutation (.addEdge 0 1 "T" first) (.ok ()),
    .mutation (.addEdge 1 2 "T" second) (.ok ())]

/-- The costs of the edges of `longPath`. -/
def longPathCost (id : EdgeId) : ℕ := if id = 0 then 2 ^ 53 else 1

/-- The tolls of the edges of `longPath`. -/
def longPathToll (id : EdgeId) : ℕ := if id = 0 then 3 else 1

/-- The cost of the path is `2 ^ 53`, as `2 ^ 53 + 1` is not a double. -/
theorem topK_longPath :
    ∃ h : (Graph.run longPath .empty).storage.outRows.flatten.length ≤ maxSnapshotEdges,
      (∀ e ∈ (StoredSnapshot.ofRun longPath false h).edges,
        exactWeight (Graph.run longPath .empty).storage.tables "cost" e.edgeId =
          longPathCost e.edgeId * 2 ^ 1074) ∧
      ¬(StoredSnapshot.ofRun longPath false h).ListsCheapest longPathCost
        (Graph.run longPath .empty).storage.tables "cost" .ofLists 0 2 1 := by
  have hsize : (Graph.run longPath .empty).storage.outRows.flatten.length ≤ maxSnapshotEdges := by
    decide +kernel
  let S : CsrArrays := CsrArrays.layout (Graph.run longPath .empty).storage.nodeIds
    (Graph.run longPath .empty).storage.outRows none
  let G : LabelGraph NodeId Amount RunningSum :=
    S.labelGraph (Graph.run longPath .empty).storage.tables "cost" [] []
  have hexact : ∀ e ∈ S.edges,
      exactWeight (Graph.run longPath .empty).storage.tables "cost" e.edgeId =
        longPathCost e.edgeId * 2 ^ 1074 := by
    decide +kernel
  have hfind : (G.findPath .ofLists 0 2 10).map (Option.map fun r => (r.1, r.2.val)) =
      some (some ([0, 1, 2], 2 ^ 53 * 2 ^ 1074)) := by
    decide +kernel
  have hweight : ((([0, 1, 2] : List NodeId).zip [1, 2]).map fun e =>
      (((S.edgesFrom e.1).filter (·.1 = e.2)).map fun e => longPathCost e.2).min?.getD 0).sum =
        2 ^ 53 + 1 := by
    decide +kernel
  refine ⟨hsize, hexact, ?_⟩
  obtain ⟨r, hr, hfacts⟩ := map_eq_some_iff.mp hfind
  obtain ⟨⟨path, cost⟩, rfl, hpair⟩ := map_eq_some_iff.mp hfacts
  obtain ⟨rfl, hcost⟩ := Prod.mk.inj hpair
  rintro ⟨found, ⟨fuel₀, hreturns⟩, -, -, hpriced, -⟩
  have hrun := hreturns (max 10 fuel₀) (le_max_right ..)
  obtain ⟨r', hr', hrest⟩ := bind_eq_some_iff.mp hrun
  obtain rfl : some ([0, 1, 2], cost) = r' :=
    some.inj ((LabelGraph.findPath_mono hr (le_max_left ..)).symm.trans hr')
  obtain rfl : [([0, 1, 2], some cost)] = found := Except.ok.inj (some.inj hrest)
  obtain ⟨-, cost', hsome, hval⟩ := hpriced _ mem_cons_self
  obtain rfl := some.inj hsome
  have hsum : (StoredSnapshot.ofRun longPath false hsize).pathWeight longPathCost [0, 1, 2] =
      2 ^ 53 + 1 := hweight
  have hval' : cost.val = ((2 ^ 53 + 1 : ℕ) : ℤ) * 2 ^ 1074 := hsum ▸ hval
  rw [hcost] at hval'
  exact absurd hval' (by decide +kernel)

theorem shortestPathTopK_longPath :
    ∃ h : (Graph.run longPath .empty).storage.outRows.flatten.length ≤ maxSnapshotEdges,
      (StoredSnapshot.ofRun longPath false h).ListsCheapest longPathToll
        (Graph.run longPath .empty).storage.tables "toll" .ofLists 0 2 4 := by
  have hsize : (Graph.run longPath .empty).storage.outRows.flatten.length ≤ maxSnapshotEdges := by
    decide +kernel
  let S : CsrArrays := CsrArrays.layout (Graph.run longPath .empty).storage.nodeIds
    (Graph.run longPath .empty).storage.outRows none
  have hexact : ∀ e ∈ S.edges,
      exactWeight (Graph.run longPath .empty).storage.tables "toll" e.edgeId =
        longPathToll e.edgeId * 2 ^ 1074 := by
    decide +kernel
  have htotal : (S.edges.map fun e => longPathToll e.edgeId).sum = 4 := by
    decide +kernel
  have hsmall : (StoredSnapshot.ofRun longPath false hsize).SmallWeights longPathToll
      (Graph.run longPath .empty).storage.tables "toll" := by
    refine ⟨hexact, ?_⟩
    show (S.edges.map fun e => longPathToll e.edgeId).sum ≤ 2 ^ 53
    rw [htotal]
    decide
  exact ⟨hsize, shortestPathTopK_exact hsmall .ofLists 0 2 4⟩

end

end Snapshot

end IssunDB
