import IssunDB.Csr.NeighborCounts

/-!
# Counting edges grouped by one endpoint

`groupedEdgeCounts` lists the nodes at which some qualifying edge ends on the group side, each with
the number of these edges. With a property that must not be null it counts fewer edges, but lists
the same nodes: a group exists through its edges, and its count may be zero.

One walk marks the groups, counts their edges and marks the counted endpoints it meets. Only when
one of these has no value of the property does a second walk count again.
-/

namespace IssunDB

open List

/-- What qualifies an edge: its type, which endpoint is the group, labels of both endpoints and a
set the counted one must be in; and a property that must not be null for it to be counted. -/
structure GroupedDegreeSpec where
  relType : Option String
  groupIsDst : Bool
  groupLabel : Option String
  countedLabel : Option String
  countedAllow : Option (List NodeId)
  countedNonnullProp : Option String

namespace CsrArrays

variable (S : CsrArrays)

def labelMask (s : Tables) (label : Option String) : Option (List Bool) :=
  label.map fun name => S.maskOf (s.nodesByLabel name)

/-- The group and the counted endpoint of each qualifying edge, in the order of the rows. -/
def walkQualifying (typeId : Option TypeId) (groupIsDst : Bool)
    (groupMask countedMask : Option (List Bool)) : List (ℕ × ℕ) :=
  (List.range S.denseToId.length).flatMap fun v0 =>
    (((S.outRow v0).filter fun e => typeOk typeId e.edgeType).map fun e =>
      if groupIsDst then (e.col, v0) else (v0, e.col)).filter fun p : ℕ × ℕ =>
        maskOk groupMask p.1 && maskOk countedMask p.2

/-- How often each group is walked, counting only where the counted endpoint has the property. A
second count is made only if some endpoint that was visited is without it. -/
def groupTally {entities : Table ℕ Props} (reads : PresenceSource entities)
    (nonnullProp : Option String) (walk : List (ℕ × ℕ)) : List ℕ :=
  let n := S.denseToId.length
  let qualifying := tally n (walk.map Prod.fst)
  match nonnullProp with
  | none => qualifying
  | some prop =>
    let visitedCounted := markAll (List.replicate n false) (walk.map Prod.snd)
    match S.visitedNonnullMask reads visitedCounted prop with
    | none => qualifying
    | some mask => tally n ((walk.filter fun p : ℕ × ℕ => mask.getD p.2 false).map Prod.fst)

def groupedEdgeCounts (s : Tables) {entities : Table ℕ Props} (reads : PresenceSource entities)
    (spec : GroupedDegreeSpec) : List (NodeId × ℕ) :=
  let n := S.denseToId.length
  if n = 0 then []
  else
    match s.resolveType spec.relType with
    | none => []
    | some typeId =>
      let groupMask := S.labelMask s spec.groupLabel
      let countedMask := S.allowMask
        (if spec.countedLabel = spec.groupLabel then groupMask else S.labelMask s spec.countedLabel)
        spec.countedAllow
      let walk := S.walkQualifying typeId spec.groupIsDst groupMask countedMask
      let present := markAll (List.replicate n false) (walk.map Prod.fst)
      let counts := S.groupTally reads spec.countedNonnullProp walk
      ((List.range n).filter fun d => present.getD d false).map fun d =>
        (S.denseToId.getD d 0, counts.getD d 0)

end CsrArrays

/-! ## What is counted -/

namespace GroupedDegreeSpec

def group (spec : GroupedDegreeSpec) (e : DenseEdge) : ℕ := if spec.groupIsDst then e.dst else e.src

def counted (spec : GroupedDegreeSpec) (e : DenseEdge) : ℕ :=
  if spec.groupIsDst then e.src else e.dst

/-- An edge has the type that is asked for. -/
def relOk (spec : GroupedDegreeSpec) (s : Tables) (e : DenseEdge) : Bool :=
  spec.relType.all fun name => s.getType name = some e.edgeType

/-- A counted endpoint has the property, if one is asked for. -/
def nonnullOk (spec : GroupedDegreeSpec) (entities : Table ℕ Props) (id : NodeId) : Bool :=
  spec.countedNonnullProp.all fun prop => hasProp entities prop id

end GroupedDegreeSpec

namespace Snapshot

variable (S : Snapshot)

/-- An edge has the type, and its endpoints the labels and the allow-set, that are asked for. -/
def edgeQualifies (s : Tables) (spec : GroupedDegreeSpec) (e : DenseEdge) : Bool :=
  spec.relOk s e && (satisfies s spec.groupLabel none (S.idOf (spec.group e)) &&
    satisfies s spec.countedLabel spec.countedAllow (S.idOf (spec.counted e)))

def groupEdges (s : Tables) (spec : GroupedDegreeSpec) (id : NodeId) : Finset DenseEdge :=
  S.edgeSet.filter fun e => S.edgeQualifies s spec e ∧ S.idOf (spec.group e) = id

/-- The endpoints of the qualifying edges, group first. -/
def groupPairs (s : Tables) (spec : GroupedDegreeSpec) : List (ℕ × ℕ) :=
  (S.edges.filter (S.edgeQualifies s spec)).map fun e => (spec.group e, spec.counted e)

/-- The number of qualifying edges of a group whose counted endpoint has the property. -/
def groupCount (s : Tables) (entities : Table ℕ Props) (spec : GroupedDegreeSpec)
    (id : NodeId) : ℕ :=
  ((S.groupEdges s spec id).filter fun e =>
    spec.nonnullOk entities (S.idOf (spec.counted e))).card

variable {S} {s : Tables} {spec : GroupedDegreeSpec} {typeId : Option TypeId}
  {entities : Table ℕ Props}

variable {e : DenseEdge} {d : ℕ}

lemma group_lt (spec : GroupedDegreeSpec) (h : e ∈ S.edges) :
    spec.group e < S.n := by
  rw [GroupedDegreeSpec.group]
  split
  · exact S.dst_lt h
  · exact S.src_lt h

lemma counted_lt (spec : GroupedDegreeSpec) (h : e ∈ S.edges) :
    spec.counted e < S.n := by
  rw [GroupedDegreeSpec.counted]
  split
  · exact S.src_lt h
  · exact S.dst_lt h

/-! ## The walk -/

/-- Where both endpoints carry the same label, its mask serves for both. -/
theorem labelMask_reused (s : Tables) (spec : GroupedDegreeSpec) :
    S.allowMask (if spec.countedLabel = spec.groupLabel then S.labelMask s spec.groupLabel
      else S.labelMask s spec.countedLabel) spec.countedAllow =
        S.variableMask s spec.countedLabel spec.countedAllow := by
  split
  next heq =>
    rw [← heq]
    rfl
  next => rfl

lemma walkQualifying_eq (htype : s.resolveType spec.relType = some typeId) :
    S.walkQualifying typeId spec.groupIsDst (S.labelMask s spec.groupLabel)
        (S.variableMask s spec.countedLabel spec.countedAllow) = S.groupPairs s spec := by
  have hqualifies : S.edges.filter (S.edgeQualifies s spec) = S.edges.filter fun e =>
      typeOk typeId e.edgeType && (maskOk (S.labelMask s spec.groupLabel) (spec.group e) &&
        maskOk (S.variableMask s spec.countedLabel spec.countedAllow) (spec.counted e)) := by
    apply filter_congr
    intro e he
    have hgroup := S.maskOk_variableMask s spec.groupLabel none (group_lt spec he)
    rw [S.maskOk_variableMask s _ _ (counted_lt spec he), typeOk_resolveType htype, edgeQualifies,
      ← hgroup]
    rfl
  rw [groupPairs, hqualifies, edges_eq_flatMap, CsrArrays.walkQualifying, filter_flatMap,
    map_flatMap]
  apply flatMap_congr
  intro v0 _
  rw [filter_map, filter_map, map_map, filter_filter]
  have hends : ∀ e : OutEntry, (if spec.groupIsDst then (e.col, v0) else (v0, e.col)) =
      (spec.group ⟨v0, e.col, e.edgeType, e.edgeId⟩,
        spec.counted ⟨v0, e.col, e.edgeType, e.edgeId⟩) := by
    intro e
    rw [GroupedDegreeSpec.group, GroupedDegreeSpec.counted]
    split <;> rfl
  simp only [Function.comp_def, hends]
  congr 1
  apply filter_congr
  intro e _
  exact Bool.and_comm ..

lemma getD_tally_pairs (p : ℕ → Bool) (hd : d < S.n) :
    (tally S.n (((S.groupPairs s spec).filter fun q => p q.2).map Prod.fst)).getD d 0 =
      ((S.groupEdges s spec (S.idOf d)).filter fun e => p (spec.counted e)).card := by
  rw [tally_eq, getD_eq_getElem _ _ (by simpa using hd), getElem_map, getElem_range,
    groupPairs, filter_map, map_map, count_eq_countP, countP_map,
    countP_filter, countP_filter, countP_edges, groupEdges, Finset.filter_filter]
  congr 1
  apply Finset.filter_congr
  intro e he
  have hgroup : spec.group e = d ↔ S.idOf (spec.group e) = S.idOf d :=
    (S.idOf_inj (group_lt spec (S.mem_edgeSet.mp he)) hd).symm
  simp only [Function.comp_def, Bool.and_eq_true, beq_iff_eq, hgroup]
  tauto

/-- A group is marked iff it has a qualifying edge. -/
theorem getD_present (hd : d < S.n) :
    (markAll (List.replicate S.n false) ((S.groupPairs s spec).map Prod.fst)).getD d false = true ↔
      (S.groupEdges s spec (S.idOf d)).Nonempty := by
  rw [getD_markAll _ (by simpa using hd), groupPairs, map_map]
  constructor
  · intro h
    obtain ⟨e, he, heq⟩ : ∃ e ∈ S.edges.filter (S.edgeQualifies s spec), spec.group e = d := by
      simpa [getElem?_replicate, hd] using h
    obtain ⟨hedge, hok⟩ := mem_filter.mp he
    exact ⟨e, Finset.mem_filter.mpr ⟨S.mem_edgeSet.mpr hedge, hok, congrArg S.idOf heq⟩⟩
  · rintro ⟨e, he⟩
    obtain ⟨hedge, hok, hid⟩ := Finset.mem_filter.mp he
    rw [S.mem_edgeSet] at hedge
    have heq := (S.idOf_inj (group_lt spec hedge) hd).mp hid
    rw [Bool.or_eq_true, decide_eq_true_eq]
    exact Or.inr (mem_map.mpr ⟨e, mem_filter.mpr ⟨hedge, hok⟩, heq⟩)

lemma getD_visitedCounted {id : NodeId} (he : e ∈ S.groupEdges s spec id) :
    (markAll (List.replicate S.n false) ((S.groupPairs s spec).map Prod.snd)).getD
      (spec.counted e) false = true := by
  obtain ⟨hedge, hok, -⟩ := Finset.mem_filter.mp he
  rw [S.mem_edgeSet] at hedge
  rw [getD_markAll _ (by simpa using counted_lt spec hedge), Bool.or_eq_true, decide_eq_true_eq,
    groupPairs, map_map]
  exact Or.inr (mem_map.mpr ⟨e, mem_filter.mpr ⟨hedge, hok⟩, rfl⟩)

/-! ## The counts -/

/-- A count without a property is the number of qualifying edges. -/
theorem getD_qualifying (hd : d < S.n) :
    (tally S.n ((S.groupPairs s spec).map Prod.fst)).getD d 0 =
      (S.groupEdges s spec (S.idOf d)).card := by
  have h : (tally S.n (((S.groupPairs s spec).filter fun _ => true).map Prod.fst)).getD d 0 =
      ((S.groupEdges s spec (S.idOf d)).filter fun _ => true).card :=
    getD_tally_pairs (fun _ => true) hd
  simpa only [filter_true, Finset.filter_true] using h

/-- The counts of a walk are those of the qualifying edges whose counted endpoint has the
property. -/
theorem getD_groupTally (reads : PresenceSource entities) (hd : d < S.n) :
    (S.groupTally reads spec.countedNonnullProp (S.groupPairs s spec)).getD d 0 =
      S.groupCount s entities spec (S.idOf d) := by
  unfold CsrArrays.groupTally
  rw [groupCount]
  cases hprop : spec.countedNonnullProp with
  | none =>
    rw [Finset.filter_true_of_mem]
    · exact getD_qualifying hd
    · intro e _
      rw [GroupedDegreeSpec.nonnullOk, hprop]
      rfl
  | some prop =>
    -- The mask is right about the counted endpoints, since the walk visited them.
    have hmask : ∀ e ∈ S.groupEdges s spec (S.idOf d),
        maskOk (S.visitedNonnullMask reads (markAll (List.replicate S.denseToId.length false)
          ((S.groupPairs s spec).map Prod.snd)) prop) (spec.counted e) =
            spec.nonnullOk entities (S.idOf (spec.counted e)) := by
      intro e he
      rw [GroupedDegreeSpec.nonnullOk, hprop, Option.all_some]
      exact S.visitedNonnullMask_spec reads (by simp [n]) prop
        (counted_lt spec (S.mem_edgeSet.mp (Finset.mem_filter.mp he).1)) (getD_visitedCounted he)
    dsimp only
    revert hmask
    generalize S.visitedNonnullMask reads (markAll (List.replicate S.denseToId.length false)
      ((S.groupPairs s spec).map Prod.snd)) prop = mask
    intro hmask
    cases mask with
    | none =>
      rw [Finset.filter_true_of_mem]
      · exact getD_qualifying hd
      · exact fun e he => (hmask e he).symm
    | some mask =>
      refine (getD_tally_pairs (fun d => mask.getD d false) hd).trans ?_
      congr 1
      apply Finset.filter_congr
      intro e he
      rw [← hmask e he]
      rfl

lemma groupEdges_of_unregistered (h : s.resolveType spec.relType = none) (id : NodeId) :
    S.groupEdges s spec id = ∅ := by
  rw [groupEdges, Finset.filter_eq_empty_iff]
  rintro e - ⟨hok, -⟩
  cases hname : spec.relType with
  | none =>
    rw [hname] at h
    cases h
  | some name =>
    rw [hname] at h
    rw [edgeQualifies, GroupedDegreeSpec.relOk, hname, Option.all_some,
      Option.map_eq_none_iff.mp h] at hok
    cases hok

/-- **Grouped counts.** The result lists, in ascending order of the ids, the nodes with a qualifying
edge on the group side, each with the number of those edges whose counted endpoint has the
property. -/
theorem groupedEdgeCounts_spec (S : Snapshot) (s : Tables) (reads : PresenceSource entities)
    (spec : GroupedDegreeSpec) :
    ((S.groupedEdgeCounts s reads spec).map Prod.fst).Pairwise (· < ·) ∧
      ∀ id count, (id, count) ∈ S.groupedEdgeCounts s reads spec ↔
        (S.groupEdges s spec id).Nonempty ∧ count = S.groupCount s entities spec id := by
  have hgroup : ∀ id, (S.groupEdges s spec id).Nonempty → id ∈ S.denseToId := by
    rintro id ⟨e, he⟩
    obtain ⟨hedge, -, rfl⟩ := Finset.mem_filter.mp he
    exact S.idOf_mem (group_lt spec (S.mem_edgeSet.mp hedge))
  rw [CsrArrays.groupedEdgeCounts]
  dsimp only
  split
  next hn =>
    refine ⟨List.Pairwise.nil, fun id count => iff_of_false not_mem_nil ?_⟩
    rintro ⟨hne, -⟩
    have hid := hgroup id hne
    rw [eq_nil_of_length_eq_zero hn] at hid
    cases hid
  next hn =>
    split
    next hnone =>
      refine ⟨List.Pairwise.nil, fun id count => iff_of_false not_mem_nil ?_⟩
      rintro ⟨hne, -⟩
      rw [groupEdges_of_unregistered hnone] at hne
      exact Finset.not_nonempty_empty hne
    next typeId htype =>
      rw [labelMask_reused, walkQualifying_eq htype]
      constructor
      · rw [map_map, pairwise_map]
        refine (pairwise_lt_range.filter _).imp_of_mem fun _ hb hab => ?_
        exact S.idOf_lt_idOf (mem_range.mp (mem_of_mem_filter hb)) hab
      · intro id count
        rw [mem_map]
        constructor
        · rintro ⟨d, hmem, heq⟩
          obtain ⟨hlt, hpresent⟩ := mem_filter.mp hmem
          have hd : d < S.n := mem_range.mp hlt
          obtain ⟨rfl, rfl⟩ := Prod.mk.inj heq
          exact ⟨(getD_present hd).mp hpresent, getD_groupTally reads hd⟩
        · rintro ⟨hne, rfl⟩
          obtain ⟨d, hd, rfl⟩ := S.exists_idOf (hgroup id hne)
          refine ⟨d, mem_filter.mpr ⟨mem_range.mpr hd, (getD_present hd).mpr hne⟩, ?_⟩
          exact Prod.ext rfl (getD_groupTally reads hd)

end Snapshot

end IssunDB
