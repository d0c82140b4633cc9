import IssunDB.Csr.CheapestPaths
import IssunDB.Csr.Components
import IssunDB.Lib.SpanningForest
import IssunDB.Lib.UnionTable

/-!
# Spanning forests

`spanningForest` reads a weight per edge, sorts the edges by it and takes each edge whose ends a
union-find over the node ids does not have in one tree yet.

The weights are doubles. `spanningForest_exact` says that the edges taken are a spanning forest of
least weight (or of greatest), for the weights as they are read. Integers are read exactly as far as
53 bits go; two larger ones can be read as one double, and then the sort keeps them in the order of
the edges.
-/

namespace IssunDB

open List UnionTable

/-- An edge with its ends and its weight. -/
structure WeightedEdge where
  id : EdgeId
  src : NodeId
  dst : NodeId
  weight : Amount

namespace CsrArrays

variable (S : CsrArrays) (s : Tables) (property : String)

def weightedEdges : List WeightedEdge :=
  (List.range S.denseToId.length).flatMap fun i => (S.outRow i).map fun e =>
    ⟨e.edgeId, S.denseToId.getD i 0, S.denseToId.getD e.col 0, weightUnder s property e.edgeId⟩

def takeEdge (fuel : ℕ) (st : Table NodeId NodeId × List EdgeId) (e : WeightedEdge) :
    Option (Table NodeId NodeId × List EdgeId) := do
  let parent := enter (enter st.1 e.src) e.dst
  let (parent, united) ← union fuel parent e.src e.dst
  some (parent, if united then st.2 ++ [e.id] else st.2)

/-- The edges of a minimum or maximum spanning forest. The fuel bounds the steps of one climb. -/
def spanningForest (maximum : Bool) (fuel : ℕ) : Option (List EdgeId) := do
  let edges := (S.weightedEdges s property).mergeSort fun a b =>
    if maximum then b.weight ≤ a.weight else a.weight ≤ b.weight
  let (_, forest) ← edges.foldlM (takeEdge fuel) (.empty, [])
  some forest

end CsrArrays

namespace Snapshot

variable (S : Snapshot) (s : Tables) (property : String) (maximum : Bool)

/-- The node an edge leaves. -/
def srcOf (e : DenseEdge) : NodeId := S.idOf e.src

/-- The node an edge enters. -/
def dstOf (e : DenseEdge) : NodeId := S.idOf e.dst

def edgesOf (ids : List EdgeId) : Finset DenseEdge := S.edgeSet.filter fun e => e.edgeId ∈ ids

/-- A set of edges without a cycle that joins just the nodes of each weak component. -/
structure SpansForest (F : Finset DenseEdge) : Prop where
  subset : F ⊆ S.edgeSet
  acyclic : SpanningForest.Acyclic S.srcOf S.dstOf F
  joined_iff : ∀ a b, SpanningForest.Joined S.srcOf S.dstOf F a b ↔ S.WeaklyJoined a b

/-- The ids of the edges of an optimal spanning forest, each once. -/
structure OptimalForest (w : EdgeId → ℤ) (ids : List EdgeId) : Prop where
  nodup : ids.Nodup
  known : ∀ id ∈ ids, ∃ e ∈ S.edges, e.edgeId = id
  spans : S.SpansForest (S.edgesOf ids)
  optimal : ∀ F, S.SpansForest F → if maximum then
    ∑ e ∈ F, w e.edgeId ≤ ∑ e ∈ S.edgesOf ids, w e.edgeId
    else ∑ e ∈ S.edgesOf ids, w e.edgeId ≤ ∑ e ∈ F, w e.edgeId

variable {S s property maximum}

/-! ## The edges -/

lemma joined_edgeSet {a b : NodeId} :
    SpanningForest.Joined S.srcOf S.dstOf S.edgeSet a b ↔ S.WeaklyJoined a b := by
  rw [weaklyJoined_eq]
  constructor
  · intro h
    induction h with
    | rel a b h =>
      obtain ⟨e, he, hends⟩ := h
      have hstep : S.OutStep (S.srcOf e) (S.dstOf e) :=
        S.outStep_iff.mpr ⟨e.src, e.dst, ⟨e, S.mem_edgeSet.mp he, rfl, rfl⟩, rfl, rfl⟩
      rcases hends with ⟨rfl, rfl⟩ | ⟨rfl, rfl⟩
      · exact .rel _ _ hstep
      · exact .symm _ _ (.rel _ _ hstep)
    | refl a => exact .refl a
    | symm a b _ ih => exact .symm _ _ ih
    | trans a b c _ _ ih₁ ih₂ => exact .trans _ _ _ ih₁ ih₂
  · intro h
    induction h with
    | rel a b h =>
      obtain ⟨x, y, ⟨e, he, rfl, rfl⟩, rfl, rfl⟩ := S.outStep_iff.mp h
      exact .rel _ _ ⟨e, S.mem_edgeSet.mpr he, .inl ⟨rfl, rfl⟩⟩
    | refl a => exact .refl a
    | symm a b _ ih => exact ih.symm
    | trans a b c _ _ ih₁ ih₂ => exact ih₁.trans ih₂

lemma spansForest_iff {F : Finset DenseEdge} :
    S.SpansForest F ↔ SpanningForest.IsSpanningForest S.srcOf S.dstOf S.edgeSet F := by
  constructor
  · exact fun h => ⟨h.subset, h.acyclic, fun a b => (h.joined_iff a b).trans joined_edgeSet.symm⟩
  · exact fun h => ⟨h.subset, h.acyclic, fun a b => (h.joined_iff a b).trans joined_edgeSet⟩

variable (S s property) in
/-- An edge as the kernel has it. -/
def weighted (e : DenseEdge) : WeightedEdge :=
  ⟨e.edgeId, S.srcOf e, S.dstOf e, weightUnder s property e.edgeId⟩

lemma weightedEdges_eq : S.weightedEdges s property = S.edges.map (S.weighted s property) := by
  rw [edges_eq_flatMap, map_flatMap, CsrArrays.weightedEdges]
  apply flatMap_congr
  intro i _
  rw [map_map]
  rfl

variable (s property maximum) in
def sortWeight (e : DenseEdge) : ℤ :=
  if maximum then -weightUnder s property e.edgeId else weightUnder s property e.edgeId

variable (S s property maximum) in
def sortedEdges : List DenseEdge :=
  S.edges.mergeSort fun a b => sortWeight s property maximum a ≤ sortWeight s property maximum b

lemma sortedEdges_perm : (S.sortedEdges s property maximum).Perm S.edges :=
  mergeSort_perm _ _

lemma sortedEdges_nodup : (S.sortedEdges s property maximum).Nodup :=
  sortedEdges_perm.nodup_iff.mpr S.edges_nodup

lemma toFinset_sortedEdges : (S.sortedEdges s property maximum).toFinset = S.edgeSet :=
  toFinset_eq_of_perm _ _ sortedEdges_perm

lemma sortedEdges_pairwise : (S.sortedEdges s property maximum).Pairwise fun a b =>
    sortWeight s property maximum a ≤ sortWeight s property maximum b := by
  have h := @pairwise_mergeSort _
    (fun a b => decide (sortWeight s property maximum a ≤ sortWeight s property maximum b))
    (fun a b c hab hbc => by
      rw [decide_eq_true_eq] at *
      exact hab.trans hbc)
    (fun a b => by simpa using le_total _ _) S.edges
  exact h.imp fun hab => of_decide_eq_true hab

lemma mergeSort_weightedEdges :
    ((S.weightedEdges s property).mergeSort fun a b =>
      if maximum then decide (b.weight ≤ a.weight) else decide (a.weight ≤ b.weight)) =
        (S.sortedEdges s property maximum).map (S.weighted s property) := by
  rw [weightedEdges_eq, sortedEdges, map_mergeSort]
  intro a _ b _
  rw [sortWeight, sortWeight]
  cases maximum with
  | false => rfl
  | true => exact decide_eq_decide.mpr neg_le_neg_iff

/-! ## The loop -/

/-- The trees of the union-find are what the taken edges join, and these are the greedy ones of the
edges tried. -/
structure Taken (S : Snapshot) (tried : List DenseEdge) (st : Table NodeId NodeId × List EdgeId) :
    Prop where
  forest_eq : st.2 = (SpanningForest.greedy S.srcOf S.dstOf ∅ tried).map (·.edgeId)
  trees : ∃ root depth, Rooted st.1 root depth ∧ ∀ a b, root a = root b ↔
    SpanningForest.Joined S.srcOf S.dstOf
      (SpanningForest.greedy S.srcOf S.dstOf ∅ tried).toFinset a b

lemma taken_nil : Taken S [] (.empty, []) where
  forest_eq := rfl
  trees := ⟨id, fun _ => 0, .empty, fun _ _ => SpanningForest.joined_empty.symm⟩

lemma Taken.takeEdge {tried : List DenseEdge} {st : Table NodeId NodeId × List EdgeId}
    (h : Taken S tried st) (e : DenseEdge) :
    ∃ st', Returns (fun fuel => CsrArrays.takeEdge fuel st (S.weighted s property e)) st' ∧
      Taken S (tried ++ [e]) st' := by
  obtain ⟨root, depth, hrooted, hroot⟩ := h.trees
  obtain ⟨parent', depth', hunion, hrooted'⟩ :=
    ((hrooted.enter (S.srcOf e)).enter (S.dstOf e)).union (S.srcOf e) (S.dstOf e)
  refine ⟨_, hunion.bind _ (.const _), ?_⟩
  have hends := hroot (S.srcOf e) (S.dstOf e)
  rw [← Finset.empty_union (SpanningForest.greedy S.srcOf S.dstOf ∅ tried).toFinset] at hends
  by_cases hjoined : root (S.srcOf e) = root (S.dstOf e)
  · -- One tree already: the edge is left out.
    have hgreedy := SpanningForest.greedy_concat_of_joined (hends.mp hjoined)
    refine ⟨?_, root, depth', ?_, ?_⟩
    · simp [hjoined, hgreedy, h.forest_eq]
    · have hsame : (fun x => if root x = root (S.srcOf e) then root (S.dstOf e) else root x) =
          root := by
        funext x
        split
        next heq => rw [heq, hjoined]
        next => rfl
      rwa [hsame] at hrooted'
    · rwa [hgreedy]
  · have hnot := fun hin => hjoined (hends.mpr hin)
    have hgreedy := SpanningForest.greedy_concat_of_not_joined hnot
    refine ⟨?_, _, depth', hrooted', fun a b => ?_⟩
    · simp [hjoined, hgreedy, h.forest_eq, weighted]
    · rw [hgreedy, toFinset_append, toFinset_cons, toFinset_nil, insert_empty_eq,
        Finset.union_comm, ← Finset.insert_eq, SpanningForest.joined_insert, ← hroot, ← hroot,
        ← hroot, ← hroot, ← hroot]
      -- Only the tree of the source is renamed.
      by_cases ha : root a = root (S.srcOf e) <;> by_cases hb : root b = root (S.srcOf e) <;>
        simp only [ha, hb, if_true, if_false] <;> grind

/-- The loop ends with the greedy edges. -/
theorem returns_spanningForest : Returns (fun fuel => S.spanningForest s property maximum fuel)
    ((SpanningForest.greedy S.srcOf S.dstOf ∅ (S.sortedEdges s property maximum)).map
      (·.edgeId)) := by
  obtain ⟨⟨parent, forest⟩, hrun, htaken⟩ := exists_returns_foldlM
    (f := fun fuel st e => CsrArrays.takeEdge fuel st (S.weighted s property e))
    (Taken S) (fun tried e st _ h => h.takeEdge e)
    (l := S.sortedEdges s property maximum) taken_nil
  have hmap : ∀ fuel, (((S.weightedEdges s property).mergeSort fun a b =>
      if maximum then decide (b.weight ≤ a.weight) else decide (a.weight ≤ b.weight)).foldlM
        (CsrArrays.takeEdge fuel) (.empty, [])) = (S.sortedEdges s property maximum).foldlM
          (fun st e => CsrArrays.takeEdge fuel st (S.weighted s property e)) (.empty, []) := by
    intro fuel
    rw [mergeSort_weightedEdges, foldlM_map]
  obtain rfl : forest = _ := htaken.forest_eq
  have hresult := hrun.bind (fun _ st => some st.2) (.const _)
  simp only [← hmap] at hresult
  exact hresult

/-! ## Optimality -/

lemma edgesOf_map {es : List DenseEdge} (hsub : ∀ e ∈ es, e ∈ S.edges) :
    S.edgesOf (es.map (·.edgeId)) = es.toFinset := by
  ext e
  rw [edgesOf, Finset.mem_filter, S.mem_edgeSet, mem_toFinset, mem_map]
  constructor
  · rintro ⟨he, f, hf, heq⟩
    exact inj_on_of_nodup_map S.edgeId_nodup (hsub f hf) he heq ▸ hf
  · exact fun he => ⟨hsub e he, e, he, rfl⟩

lemma optimalForest_greedy : S.OptimalForest maximum (weightUnder s property)
    ((SpanningForest.greedy S.srcOf S.dstOf ∅ (S.sortedEdges s property maximum)).map
      (·.edgeId)) := by
  have hsublist : (SpanningForest.greedy S.srcOf S.dstOf ∅
      (S.sortedEdges s property maximum)).Sublist _ :=
    SpanningForest.greedy_sublist ∅ (S.sortedEdges s property maximum)
  have hsub : ∀ e ∈ SpanningForest.greedy S.srcOf S.dstOf ∅ (S.sortedEdges s property maximum),
      e ∈ S.edges := fun e he => sortedEdges_perm.mem_iff.mp (hsublist.mem he)
  have hnodup := hsublist.nodup sortedEdges_nodup
  refine ⟨?_, fun id hid => ?_, ?_, fun F hF => ?_⟩
  · exact hnodup.map_on fun e he f hf heq =>
      inj_on_of_nodup_map S.edgeId_nodup (hsub e he) (hsub f hf) heq
  · obtain ⟨e, he, rfl⟩ := mem_map.mp hid
    exact ⟨e, hsub e he, rfl⟩
  · rw [edgesOf_map hsub, spansForest_iff]
    have h : SpanningForest.IsSpanningForest S.srcOf S.dstOf _ _ :=
      SpanningForest.isSpanningForest_greedy (S.sortedEdges s property maximum)
    rwa [toFinset_sortedEdges] at h
  · have hset : (S.sortedEdges s property maximum).toFinset = S.edgeSet := toFinset_sortedEdges
    rw [spansForest_iff, ← hset] at hF
    have hle := SpanningForest.sum_greedy_le_of_isSpanningForest
      (w := sortWeight s property maximum) hF sortedEdges_pairwise
    rw [← sum_toFinset _ hnodup] at hle
    rw [edgesOf_map hsub]
    cases maximum with
    | false => exact hle
    | true =>
      have hneg : ∀ F : Finset DenseEdge, F.sum (sortWeight s property true) =
          -∑ e ∈ F, weightUnder s property e.edgeId := fun F => Finset.sum_neg_distrib _
      rw [hneg, hneg] at hle
      exact neg_le_neg_iff.mp hle

lemma OptimalForest.of_mul {w w' : EdgeId → ℤ} {ids : List EdgeId} {unit : ℤ} (hunit : 0 < unit)
    (h : S.OptimalForest maximum w ids) (hw : ∀ e ∈ S.edges, w e.edgeId = w' e.edgeId * unit) :
    S.OptimalForest maximum w' ids where
  nodup := h.nodup
  known := h.known
  spans := h.spans
  optimal F hF := by
    have hsum : ∀ {F : Finset DenseEdge}, F ⊆ S.edgeSet →
        ∑ e ∈ F, w e.edgeId = (∑ e ∈ F, w' e.edgeId) * unit := by
      intro F hsub
      rw [Finset.sum_mul]
      exact Finset.sum_congr rfl fun e he => hw e (S.mem_edgeSet.mp (hsub he))
    have hbest := h.optimal F hF
    rw [hsum hF.subset, hsum h.spans.subset] at hbest
    cases maximum with
    | false => exact le_of_mul_le_mul_right hbest hunit
    | true => exact le_of_mul_le_mul_right hbest hunit

end Snapshot

/-- An integer of at most 53 bits is read exactly. -/
theorem weightUnder_of_small {s : Tables} {property : String} {id : EdgeId} {i : ℤ}
    (h : exactWeight s property id = i * 2 ^ 1074) (hi : i.natAbs ≤ 2 ^ 53) :
    weightUnder s property id = i * 2 ^ 1074 := by
  have hnumber : ∀ x : Number, x.scaled = i * 2 ^ 1074 → x.asF64.scaled = i * 2 ^ 1074 := by
    intro x hx
    by_cases hpos : 0 ≤ i
    · exact (x.asF64_of_integer hx).2 hpos (by omega)
    · cases x with
      | posInt n hn =>
        have : (n : ℤ) = i := mul_right_cancel₀ unitWeight_pos.ne' hx
        omega
      | negInt k hk =>
        obtain rfl : k = i := mul_right_cancel₀ unitWeight_pos.ne' hx
        have hround := F64.roundedNat_mul_pow hi 0
        rw [pow_zero, mul_one] at hround
        rw [Number.asF64, F64.ofInt, if_pos hk.2, F64.scaled_neg, F64.scaled_ofNat, hround,
          ← neg_mul]
        congr 1
        omega
      | float f => exact hx
  unfold exactWeight at h
  unfold weightUnder
  split at h
  next => exact h
  next =>
    split at h
    next x _ => exact hnumber x h
    next => exact h

namespace Snapshot

/-- **Spanning forest.** The search ends with an optimal spanning forest for the weights as they are
read, and for integer weights of at most 53 bits with an optimal one for the integers. -/
theorem spanningForest_exact (S : Snapshot) (s : Tables) (property : String) (maximum : Bool) :
    ∃ ids, Returns (fun fuel => S.spanningForest s property maximum fuel) ids ∧
      S.OptimalForest maximum (weightUnder s property) ids ∧
      ∀ w : EdgeId → ℤ, (∀ e ∈ S.edges, exactWeight s property e.edgeId = w e.edgeId * 2 ^ 1074 ∧
        (w e.edgeId).natAbs ≤ 2 ^ 53) → S.OptimalForest maximum w ids := by
  refine ⟨_, returns_spanningForest, optimalForest_greedy, fun w hw => ?_⟩
  exact optimalForest_greedy.of_mul unitWeight_pos fun e he =>
    weightUnder_of_small (hw e he).1 (hw e he).2

/-- Of two parallel edges that are read with one weight, the first is taken. -/
theorem not_optimalForest_of_tie {S : Snapshot} {s : Tables} {property : String}
    {e f : DenseEdge} (hedges : S.edges = [e, f])
    (hsrc : S.srcOf f = S.srcOf e) (hdst : S.dstOf f = S.dstOf e) (hloop : S.srcOf e ≠ S.dstOf e)
    (hread : weightUnder s property e.edgeId = weightUnder s property f.edgeId)
    {w : EdgeId → ℤ} (hlighter : w f.edgeId < w e.edgeId) :
    ¬∃ ids, Returns (fun fuel => S.spanningForest s property false fuel) ids ∧
      S.OptimalForest false w ids := by
  rintro ⟨ids, hreturns, hoptimal⟩
  have hsorted : S.sortedEdges s property false = [e, f] := by
    rw [sortedEdges, hedges]
    apply mergeSort_of_pairwise
    exact pairwise_pair.mpr (decide_eq_true hread.le)
  have hfirst : ¬ SpanningForest.Joined S.srcOf S.dstOf ∅ (S.srcOf e) (S.dstOf e) :=
    fun h => hloop (SpanningForest.joined_empty.mp h)
  have hsecond : SpanningForest.Joined S.srcOf S.dstOf {e} (S.srcOf f) (S.dstOf f) := by
    rw [hsrc, hdst]
    exact SpanningForest.joined_ends (Finset.mem_singleton_self e)
  have hgreedy : SpanningForest.greedy S.srcOf S.dstOf ∅ [e, f] = [e] := by
    rw [SpanningForest.greedy_of_not_joined hfirst, insert_empty_eq,
      SpanningForest.greedy_of_joined hsecond, SpanningForest.greedy]
  have hids := hreturns.unique returns_spanningForest
  rw [hsorted, hgreedy] at hids
  subst hids
  have hset : S.edgeSet = insert e {f} := by
    rw [edgeSet, hedges, toFinset_cons, toFinset_cons, toFinset_nil, insert_empty_eq]
  have hother : S.SpansForest {f} := by
    rw [spansForest_iff, hset]
    refine ⟨Finset.subset_insert e {f}, ?_, fun a b => ?_⟩
    · rw [← insert_empty_eq]
      refine SpanningForest.acyclic_empty.insert fun h => hloop ?_
      rw [← hsrc, ← hdst]
      exact SpanningForest.joined_empty.mp h
    · refine (SpanningForest.joined_insert_of_joined ?_).symm
      rw [← hsrc, ← hdst]
      exact SpanningForest.joined_ends (Finset.mem_singleton_self f)
  have htaken : S.edgesOf ([e].map (·.edgeId)) = {e} :=
    @edgesOf_map _ [e] fun g hg => by rw [hedges, mem_singleton.mp hg]; simp
  have hbest := hoptimal.optimal {f} hother
  rw [htaken] at hbest
  simp only [Finset.sum_singleton, Bool.false_eq_true, if_false] at hbest
  exact absurd hlighter (not_lt.mpr hbest)

section

attribute [local instance] TextLib.ascii

lemma weight_wellFormed (n : ℕ) (hn : n < 2 ^ 64) :
    (Json.object [("weight", .number (.posInt n hn))]).wellFormed = true := by
  rfl

/-- Two nodes and two edges from one to the other, of weights `2 ^ 53 + 1` and `2 ^ 53`. -/
def heavyEdges : List Graph.Action :=
  let weight (n : ℕ) (hn : n < 2 ^ 64) : Props :=
    ⟨.object [("weight", .number (.posInt n hn))], weight_wellFormed n hn⟩
  [.mutation (.addNode "A" ⟨.object [], Json.wellFormed_empty⟩) (.ok ()),
    .mutation (.addNode "A" ⟨.object [], Json.wellFormed_empty⟩) (.ok ()),
    .mutation (.addEdge 0 1 "T" (weight (2 ^ 53 + 1) F64.above_fits)) (.ok ()),
    .mutation (.addEdge 0 1 "T" (weight (2 ^ 53) F64.limit_fits)) (.ok ())]

/-- The weights of the edges of `heavyEdges`. -/
def heavyWeight (id : EdgeId) : ℤ := if id = 0 then 2 ^ 53 + 1 else 2 ^ 53

/-- Both weights are read as `2 ^ 53`, and the first edge is taken. -/
theorem spanningForest_heavyEdges :
    ∃ h : (Graph.run heavyEdges .empty).storage.outRows.flatten.length ≤ maxSnapshotEdges,
      (∀ e ∈ (StoredSnapshot.ofRun heavyEdges false h).edges,
        exactWeight (Graph.run heavyEdges .empty).storage.tables "weight" e.edgeId =
          heavyWeight e.edgeId * 2 ^ 1074) ∧
      ¬∃ ids, Returns (fun fuel => (StoredSnapshot.ofRun heavyEdges false h).spanningForest
          (Graph.run heavyEdges .empty).storage.tables "weight" false fuel) ids ∧
        (StoredSnapshot.ofRun heavyEdges false h).OptimalForest false heavyWeight ids := by
  have hsize : (Graph.run heavyEdges .empty).storage.outRows.flatten.length ≤
      maxSnapshotEdges := by
    decide +kernel
  let S : CsrArrays := CsrArrays.layout (Graph.run heavyEdges .empty).storage.nodeIds
    (Graph.run heavyEdges .empty).storage.outRows none
  have hexact : ∀ e ∈ S.edges,
      exactWeight (Graph.run heavyEdges .empty).storage.tables "weight" e.edgeId =
        heavyWeight e.edgeId * 2 ^ 1074 := by
    decide +kernel
  have hedges : S.edges = [⟨0, 1, 0, 0⟩, ⟨0, 1, 0, 1⟩] := by decide +kernel
  have hread : weightUnder (Graph.run heavyEdges .empty).storage.tables "weight" 0 =
      weightUnder (Graph.run heavyEdges .empty).storage.tables "weight" 1 := by
    decide +kernel
  refine ⟨hsize, hexact, ?_⟩
  let T : Snapshot := (StoredSnapshot.ofRun heavyEdges false hsize).toSnapshot
  have hT : T.edges = [⟨0, 1, 0, 0⟩, ⟨0, 1, 0, 1⟩] := hedges
  have hids : T.denseToId = S.denseToId := rfl
  have hloop : S.denseToId.getD 0 0 ≠ S.denseToId.getD 1 0 := by decide +kernel
  have hends : T.srcOf ⟨0, 1, 0, 0⟩ ≠ T.dstOf ⟨0, 1, 0, 0⟩ := by
    rwa [srcOf, dstOf, idOf, idOf, hids]
  have hlighter : heavyWeight 1 < heavyWeight 0 := by decide +kernel
  exact not_optimalForest_of_tie hT rfl rfl hends hread hlighter

end

end Snapshot

end IssunDB
