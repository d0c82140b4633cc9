import IssunDB.ColumnsCache
import IssunDB.Csr.Masks

/-!
# Counting typed neighbors

`typedNeighborCounts` counts, for each source of a list, its qualifying neighbors across one hop,
and among them those on which a property is not null. It walks the rows of the sources, or, where
the sources span most of the incoming entries, makes one pass over the outgoing entries and counts
each at its destination. Presence of the property is resolved once, for the neighbors that the
first pass reached.

`typedNeighborCounts_eq` states that the counts are numbers of edges, whichever way they are
counted.
-/

namespace IssunDB

open List

/-! ## Presence of a property -/

/-- A node has a record with a value of the property that is not null. -/
def hasProp (entities : Table ℕ Props) (prop : String) (id : NodeId) : Bool :=
  ((entities.get id).bind fun props => props.view prop).isSome

/-- Where the presence of a property is read: in the records for a small request, else in property
columns that hold what the records hold. -/
inductive PresenceSource (entities : Table ℕ Props) where
  | direct
  | columns (cols : PropColumns) (holds : cols.Holds entities [])

namespace PresenceSource

variable {entities : Table ℕ Props}

/-- Whether nodes have a value of a property that is not null. A missing node has none. -/
def nodesPropPresent (ids : List NodeId) (prop : String) : PresenceSource entities → List Bool
  | direct => ids.map fun id => (entities.get id).any fun o => (o.get prop).any fun v => v ≠ .null
  | columns cols _ => ids.map fun id =>
    match cols.idToDense.get id, cols.cols.get prop with
    | some d, some c => c.isPresent d
    | _, _ => false

/-- Both reads find the values of the records. -/
theorem nodesPropPresent_eq (reads : PresenceSource entities) (ids : List NodeId) (prop : String) :
    reads.nodesPropPresent ids prop = ids.map (hasProp entities prop) := by
  cases reads with
  | direct =>
    apply map_congr_left
    intro id _
    cases hget : entities.get id with
    | none => simp [hasProp, hget]
    | some o =>
      cases hprop : o.get prop with
      | none => simp [hasProp, hget, Props.view, hprop]
      | some v => cases v <;> simp [hasProp, hget, Props.view, hprop, Json.nonNull]
  | columns cols holds =>
    apply map_congr_left
    intro id _
    have hview := holds.view id not_mem_nil
    have hvalue : (cols.view id).bind (· prop) = (entities.get id).bind (Props.view · prop) := by
      rw [hview]
      cases entities.get id <;> rfl
    rw [hasProp, ← hvalue, PropColumns.view]
    cases cols.idToDense.get id with
    | none => rfl
    | some d =>
      have hpresent := holds.valid.presence_eq prop d
      cases hcol : cols.cols.get prop with
      | none => simp [hcol]
      | some c =>
        rw [hcol] at hpresent
        simpa [hcol] using hpresent

end PresenceSource

/-! ## The kernel -/

/-- What qualifies a neighbor: the type of the edge and its direction, labels it must all carry and
a set it must be in; and a property that must not be null for the neighbor to be counted. -/
structure NeighborCountSpec where
  relType : Option String
  incoming : Bool
  neighborLabels : List String
  neighborAllow : Option (List NodeId)
  neighborNonnullProp : Option String

namespace CsrArrays

variable (S : CsrArrays)

/-- The neighbors of a node in one direction, with the types of the edges. -/
def directedRow (incoming : Bool) (d : ℕ) : List (ℕ × TypeId) :=
  if incoming then (S.inRow d).map fun e => (e.col, e.edgeType)
  else (S.outRow d).map fun e => (e.col, e.edgeType)

def walkSource (incoming : Bool) (typeId : Option TypeId) (keep : ℕ → Bool) (d : ℕ) : List ℕ :=
  ((S.directedRow incoming d).filter fun e => typeOk typeId e.2 && keep e.1).map Prod.fst

/-- The qualifying edges that a pass over the outgoing entries finds into wanted nodes, with their
sources. -/
def tallyEdges (typeId : Option TypeId) (wanted : List Bool) (keep : ℕ → Bool) :
    List (ℕ × OutEntry) :=
  (List.range S.denseToId.length).flatMap fun other =>
    if keep other then
      ((S.outRow other).filter fun e => typeOk typeId e.edgeType && wanted.getD e.col false).map
        fun e => (other, e)
    else []

def neighborPass (tallyIncoming incoming : Bool) (typeId : Option TypeId) (dense : List (Option ℕ))
    (keep : ℕ → Bool) : (ℕ → ℕ) × List ℕ :=
  if tallyIncoming then
    let wanted := markAll (List.replicate S.denseToId.length false) dense.reduceOption
    let edges := S.tallyEdges typeId wanted keep
    let counts := tally S.denseToId.length (edges.map (·.2.col))
    (fun d => counts.getD d 0, edges.map Prod.fst)
  else
    (fun d => (S.walkSource incoming typeId keep d).length,
      dense.reduceOption.flatMap (S.walkSource incoming typeId keep))

def incomingSpan (dense : List (Option ℕ)) : ℕ :=
  (dense.reduceOption.map fun d => S.inRowPtr.getD (d + 1) 0 - S.inRowPtr.getD d 0).sum

/-- The pass over the outgoing entries is taken for incoming edges of one type, if the sources span
half of the entries. -/
def tallyIncoming (incoming : Bool) (typeId : Option TypeId) (dense : List (Option ℕ)) : Bool :=
  let incomingSpan := if incoming && typeId.isSome then S.incomingSpan dense else 0
  S.out.length ≤ incomingSpan * 2

/-- The nodes in all labels and in the allow-set. -/
def neighborMask (s : Tables) (spec : NeighborCountSpec) : Option (List Bool) :=
  let labelMask := spec.neighborLabels.foldl
    (fun mask name => intersectMask mask (S.maskOf (s.nodesByLabel name))) none
  S.allowMask labelMask spec.neighborAllow

/-- A mask of the visited nodes that have the property; nothing if all of them have it. -/
def visitedNonnullMask {entities : Table ℕ Props} (reads : PresenceSource entities)
    (visited : List Bool) (prop : String) : Option (List Bool) :=
  let ids := ((List.range visited.length).filter fun d => visited.getD d false).map
    fun d => S.denseToId.getD d 0
  if ids = [] then none
  else
    let present := reads.nodesPropPresent ids prop
    if present.all id then none
    else some (S.maskOf (((ids.zip present).filter Prod.snd).map Prod.fst))

/-- The two counts of one source: a pass for the qualifying neighbors, and a second one that leaves
out neighbors without the property, if some neighbor that was reached is without it. -/
def passCounts (s : Tables) {entities : Table ℕ Props} (reads : PresenceSource entities)
    (spec : NeighborCountSpec) (tallyIncoming : Bool) (typeId : Option TypeId)
    (dense : List (Option ℕ)) (d : ℕ) : ℕ × ℕ :=
  let labelMask := S.neighborMask s spec
  let pass := S.neighborPass tallyIncoming spec.incoming typeId dense
  let first := pass (maskOk labelMask)
  let counted :=
    match spec.neighborNonnullProp with
    | none => first.1 d
    | some prop =>
      let visited := markAll (List.replicate S.denseToId.length false) first.2
      match S.visitedNonnullMask reads visited prop with
      | none => first.1 d
      | some mask => (pass fun other => maskOk labelMask other && mask.getD other false).1 d
  (first.1 d, counted)

def typedNeighborCounts (s : Tables) {entities : Table ℕ Props} (reads : PresenceSource entities)
    (sources : List NodeId) (spec : NeighborCountSpec) : List (ℕ × ℕ) :=
  if S.denseToId.length = 0 ∨ sources = [] then sources.map fun _ => (0, 0)
  else
    match s.resolveType spec.relType with
    | none => sources.map fun _ => (0, 0)
    | some typeId =>
      let dense := sources.map S.idToDense.get
      let tallyIncoming := S.tallyIncoming spec.incoming typeId dense
      dense.map fun d =>
        match d with
        | none => (0, 0)
        | some d => S.passCounts s reads spec tallyIncoming typeId dense d

end CsrArrays

/-! ## What is counted -/

namespace NeighborCountSpec

def anchor (spec : NeighborCountSpec) (e : DenseEdge) : ℕ := if spec.incoming then e.dst else e.src

def neighbor (spec : NeighborCountSpec) (e : DenseEdge) : ℕ :=
  if spec.incoming then e.src else e.dst

def neighborOk (spec : NeighborCountSpec) (s : Tables) (id : NodeId) : Bool :=
  spec.neighborLabels.all (fun name => id ∈ s.nodesByLabel name) &&
    spec.neighborAllow.all fun ids => id ∈ ids

/-- An edge has the type that is asked for. -/
def relOk (spec : NeighborCountSpec) (s : Tables) (e : DenseEdge) : Bool :=
  spec.relType.all fun name => s.getType name = some e.edgeType

def nonnullOk (spec : NeighborCountSpec) (entities : Table ℕ Props) (id : NodeId) : Bool :=
  spec.neighborNonnullProp.all fun prop => hasProp entities prop id

end NeighborCountSpec

namespace Snapshot

variable (S : Snapshot)

def qualifyingEdges (s : Tables) (spec : NeighborCountSpec) (source : NodeId) : Finset DenseEdge :=
  S.edgeSet.filter fun e => S.idOf (spec.anchor e) = source ∧ spec.relOk s e ∧
    spec.neighborOk s (S.idOf (spec.neighbor e))

/-- The numbers of qualifying edges of a source, and of those whose neighbor has the property. -/
def neighborCounts (s : Tables) (entities : Table ℕ Props) (spec : NeighborCountSpec)
    (source : NodeId) : ℕ × ℕ :=
  ((S.qualifyingEdges s spec source).card,
    ((S.qualifyingEdges s spec source).filter fun e =>
      spec.nonnullOk entities (S.idOf (spec.neighbor e))).card)

/-! ## One pass -/

/-- A row lists the edges at a node in one direction. -/
theorem directedRow_eq (spec : NeighborCountSpec) (d : ℕ) :
    S.directedRow spec.incoming d =
      (S.edges.filter (spec.anchor · = d)).map fun e => (spec.neighbor e, e.edgeType) := by
  unfold CsrArrays.directedRow NeighborCountSpec.anchor NeighborCountSpec.neighbor
  split
  · have hzip : S.edges.filter (·.dst = d) =
        (S.edges.zipIdx.filter (·.1.dst = d)).map Prod.fst := by
      conv_lhs => rw [← zipIdx_map_fst 0 S.edges, filter_map]
      rfl
    rw [inRow_eq, hzip, map_map, map_map]
    rfl
  · rw [← outRow_eq, map_map]
    rfl

def passEdges (spec : NeighborCountSpec) (typeId : Option TypeId) (keep : ℕ → Bool) :
    List DenseEdge :=
  S.edges.filter fun e => typeOk typeId e.edgeType && keep (spec.neighbor e)

variable {spec : NeighborCountSpec} {typeId : Option TypeId} {keep : ℕ → Bool}
  {dense : List (Option ℕ)}

lemma walkSource_eq (d : ℕ) :
    S.walkSource spec.incoming typeId keep d =
      ((S.passEdges spec typeId keep).filter (spec.anchor · = d)).map spec.neighbor := by
  rw [CsrArrays.walkSource, directedRow_eq, filter_map, map_map, passEdges,
    filter_comm]
  rfl

/-- When a pass may go over the outgoing entries: for incoming edges, or when there are none. -/
def TallyFits (spec : NeighborCountSpec) (tallyIncoming : Bool) : Prop :=
  tallyIncoming = true → spec.incoming = true ∨ S.edges = []

/-- The switch chooses the pass over the outgoing entries only where it fits. -/
theorem tallyFits_tallyIncoming (spec : NeighborCountSpec) (typeId : Option TypeId)
    (dense : List (Option ℕ)) :
    S.TallyFits spec (S.tallyIncoming spec.incoming typeId dense) := by
  intro h
  by_cases hin : spec.incoming = true
  · exact Or.inl hin
  · right
    rw [← length_eq_zero_iff, S.length_edges]
    simpa [CsrArrays.tallyIncoming, hin] using h

variable (typeId keep) in
/-- The pass over the outgoing entries meets the edges into wanted nodes. -/
theorem tallyEdges_eq (hin : spec.incoming = true ∨ S.edges = []) (wanted : List Bool) :
    (S.tallyEdges typeId wanted keep).map (fun p => (p.1, p.2.col)) =
      ((S.passEdges spec typeId keep).filter fun e => wanted.getD (spec.anchor e) false).map
        fun e => (spec.neighbor e, spec.anchor e) := by
  rcases hin with hin | hnil
  · rw [passEdges, edges_eq_flatMap, filter_flatMap, filter_flatMap, map_flatMap,
      CsrArrays.tallyEdges, map_flatMap]
    apply flatMap_congr
    intro other _
    simp only [filter_map, map_map, filter_filter, NeighborCountSpec.neighbor,
      NeighborCountSpec.anchor, hin]
    by_cases hkeep : keep other
    · simp only [hkeep, if_true, map_map, Bool.and_true, Function.comp_def]
      congr 1
      apply filter_congr
      intro e _
      exact Bool.and_comm ..
    · simp [hkeep, Function.comp_def]
  · have hrow : ∀ other, S.outRow other = [] := by
      intro other
      have h := S.outRow_eq other
      rw [hnil] at h
      exact map_eq_nil_iff.mp h
    rw [passEdges, hnil, CsrArrays.tallyEdges]
    simp [hrow]

/-- The nodes that a pass over the outgoing entries looks for. -/
def wanted (dense : List (Option ℕ)) : List Bool :=
  markAll (List.replicate S.denseToId.length false) dense.reduceOption

variable {d : ℕ} {e : DenseEdge} {tallyIncoming : Bool} {source : NodeId} {s : Tables}

lemma getD_wanted (dense : List (Option ℕ)) (hd : d < S.n) :
    (S.wanted dense).getD d false = decide (some d ∈ dense) := by
  rw [wanted, getD_markAll _ (by simpa [n] using hd)]
  simp [reduceOption_mem_iff]

lemma anchor_lt (spec : NeighborCountSpec) (h : e ∈ S.edges) :
    spec.anchor e < S.n := by
  unfold NeighborCountSpec.anchor
  split
  · exact S.dst_lt h
  · exact S.src_lt h

lemma neighbor_lt (spec : NeighborCountSpec) (h : e ∈ S.edges) :
    spec.neighbor e < S.n := by
  unfold NeighborCountSpec.neighbor
  split
  · exact S.src_lt h
  · exact S.dst_lt h

lemma neighborPass_count (h : S.TallyFits spec tallyIncoming) (hd : d < S.n)
    (hmem : some d ∈ dense) :
    (S.neighborPass tallyIncoming spec.incoming typeId dense keep).1 d =
      (S.passEdges spec typeId keep).countP (spec.anchor · = d) := by
  unfold CsrArrays.neighborPass
  split
  next htally =>
    have hcols : (S.tallyEdges typeId (S.wanted dense) keep).map (fun p => p.2.col) =
        ((S.passEdges spec typeId keep).filter fun e =>
          (S.wanted dense).getD (spec.anchor e) false).map spec.anchor := by
      have hpairs := S.tallyEdges_eq typeId keep (h htally) (S.wanted dense)
      have h := congrArg (List.map Prod.snd) hpairs
      rw [map_map, map_map] at h
      exact h
    change
        (tally S.n ((S.tallyEdges typeId (S.wanted dense) keep).map fun p => p.2.col)).getD d 0 = _
    rw [hcols, tally_eq, getD_eq_getElem _ _ (by simpa using hd), getElem_map,
      getElem_range, List.count, countP_map, countP_filter]
    apply countP_congr
    intro e _
    simp only [Function.comp_apply, beq_iff_eq, Bool.and_eq_true, decide_eq_true_eq]
    constructor
    · exact And.left
    · rintro rfl
      rw [S.getD_wanted dense hd, decide_eq_true_eq]
      exact ⟨rfl, hmem⟩
  next =>
    change (S.walkSource spec.incoming typeId keep d).length = _
    rw [walkSource_eq, length_map, countP_eq_length_filter]

lemma mem_neighborPass (h : S.TallyFits spec tallyIncoming) {other : ℕ} :
    other ∈ (S.neighborPass tallyIncoming spec.incoming typeId dense keep).2 ↔
      ∃ e ∈ S.passEdges spec typeId keep, some (spec.anchor e) ∈ dense ∧
      spec.neighbor e = other := by
  unfold CsrArrays.neighborPass
  split
  next htally =>
    have hsources : (S.tallyEdges typeId (S.wanted dense) keep).map Prod.fst =
        ((S.passEdges spec typeId keep).filter fun e =>
          (S.wanted dense).getD (spec.anchor e) false).map spec.neighbor := by
      have hpairs := S.tallyEdges_eq typeId keep (h htally) (S.wanted dense)
      have h := congrArg (List.map Prod.fst) hpairs
      rw [map_map, map_map] at h
      exact h
    change other ∈ (S.tallyEdges typeId (S.wanted dense) keep).map Prod.fst ↔ _
    rw [hsources, mem_map]
    apply exists_congr
    intro e
    rw [mem_filter, and_assoc]
    apply and_congr_right
    intro he
    rw [S.getD_wanted dense (S.anchor_lt spec (mem_filter.mp he).1), decide_eq_true_eq]
  next =>
    simp only [mem_flatMap, reduceOption_mem_iff, walkSource_eq, mem_map,
      mem_filter, decide_eq_true_eq]
    constructor
    · rintro ⟨d, hd, e, ⟨he, rfl⟩, hother⟩
      exact ⟨e, he, hd, hother⟩
    · rintro ⟨e, he, hd, hother⟩
      exact ⟨_, hd, e, ⟨he, rfl⟩, hother⟩

/-! ## The masks of the kernel -/

lemma maskOk_neighborMask (s : Tables) (spec : NeighborCountSpec) (hd : d < S.n) :
    maskOk (S.neighborMask s spec) d = spec.neighborOk s (S.idOf d) := by
  have hlabels : ∀ (names : List String) (mask : Option (List Bool)),
      (∀ m, mask = some m → m.length = S.n) →
      (∀ m,
      names.foldl (fun mask name => intersectMask mask (S.maskOf (s.nodesByLabel name))) mask =
        some m → m.length = S.n) ∧
      maskOk (names.foldl (fun mask name => intersectMask mask (S.maskOf (s.nodesByLabel name)))
        mask) d = (maskOk mask d && names.all fun name => S.idOf d ∈ s.nodesByLabel name) := by
    intro names
    induction names with
    | nil => simp
    | cons name names ih =>
      intro mask hmask
      have hlen : ∀ m, intersectMask mask (S.maskOf (s.nodesByLabel name)) = some m →
          m.length = S.n := by
        intro m hm
        cases mask with
        | none =>
          obtain rfl := Option.some.inj hm
          exact S.length_maskOf _
        | some m' =>
          obtain rfl := Option.some.inj hm
          simp [hmask m' rfl]
      obtain ⟨hlength, hok⟩ := ih _ hlen
      refine ⟨hlength, ?_⟩
      rw [foldl_cons, hok, maskOk_intersectMask, S.maskOk_maskOf _ hd, all_cons,
        Bool.and_assoc]
      intro m hm
      rw [hmask m hm, length_maskOf]
  obtain ⟨hlength, hok⟩ := hlabels spec.neighborLabels none (by simp)
  rw [CsrArrays.neighborMask, NeighborCountSpec.neighborOk]
  have hany : maskOk none d = true := rfl
  rw [hany, Bool.true_and] at hok
  cases spec.neighborAllow with
  | none => rw [CsrArrays.allowMask, hok, Option.all_none, Bool.and_true]
  | some ids =>
    rw [CsrArrays.allowMask, maskOk_intersectMask, S.maskOk_maskOf ids hd, hok, Option.all_some]
    intro m hm
    rw [hlength m hm, length_maskOf]

variable {entities : Table ℕ Props}

lemma visitedNonnullMask_spec (reads : PresenceSource entities) {visited : List Bool}
    (hlen : visited.length = S.n) (prop : String) (hd : d < S.n)
    (hvisited : visited.getD d false = true) :
    maskOk (S.visitedNonnullMask reads visited prop) d = hasProp entities prop (S.idOf d) := by
  let ids := ((List.range visited.length).filter fun d => visited.getD d false).map S.idOf
  have hmem : S.idOf d ∈ ids := by
    apply mem_map_of_mem
    exact mem_filter.mpr ⟨mem_range.mpr (hlen ▸ hd), hvisited⟩
  unfold CsrArrays.visitedNonnullMask
  change maskOk (if ids = [] then none else
    if (reads.nodesPropPresent ids prop).all id then none
    else some (S.maskOf (((ids.zip (reads.nodesPropPresent ids prop)).filter Prod.snd).map
      Prod.fst))) d = _
  rw [if_neg (ne_nil_of_mem hmem), reads.nodesPropPresent_eq]
  split
  next hall =>
    rw [all_map, all_eq_true] at hall
    exact (hall _ hmem).symm
  next =>
    have hzip : ((ids.zip (ids.map (hasProp entities prop))).filter Prod.snd).map Prod.fst =
        ids.filter (hasProp entities prop) := by
      generalize ids = l
      induction l with
      | nil => rfl
      | cons id l ih =>
        rw [map_cons, zip_cons_cons, filter_cons, filter_cons]
        split
        · rw [map_cons, ih]
        · exact ih
    rw [hzip, S.maskOk_maskOf _ hd]
    simp [hmem]

/-! ## The counts -/

lemma countP_passEdges {typeId : Option TypeId} (htype : s.resolveType spec.relType = some typeId)
    {keep : ℕ → Bool} (p : NodeId → Bool) (hsource : S.idToDense.get source = some d)
    (hkeep : ∀ e ∈ S.edges, S.idOf (spec.anchor e) = source → spec.relOk s e →
        keep (spec.neighbor e) =
        (spec.neighborOk s (S.idOf (spec.neighbor e)) && p (S.idOf (spec.neighbor e)))) :
    (S.passEdges spec typeId keep).countP (spec.anchor · = d) =
      ((S.qualifyingEdges s spec source).filter fun e => p (S.idOf (spec.neighbor e))).card := by
  rw [passEdges, countP_filter, countP_edges, qualifyingEdges, Finset.filter_filter]
  congr 1
  apply Finset.filter_congr
  intro e he
  have hedge := S.mem_edgeSet.mp he
  have hanchor : spec.anchor e = d ↔ S.idOf (spec.anchor e) = source := by
    rw [S.idOf_eq_iff (S.anchor_lt spec hedge), hsource, Option.some.injEq, eq_comm]
  have hrel : typeOk typeId e.edgeType = spec.relOk s e := typeOk_resolveType htype _
  rw [hrel]
  simp only [Bool.and_eq_true, decide_eq_true_eq, hanchor]
  constructor
  · rintro ⟨hanchor, hrel, hpass⟩
    rw [hkeep e hedge hanchor hrel, Bool.and_eq_true] at hpass
    exact ⟨⟨hanchor, hrel, hpass.1⟩, hpass.2⟩
  · rintro ⟨⟨hanchor, hrel, hok⟩, hp⟩
    refine ⟨hanchor, hrel, ?_⟩
    rw [hkeep e hedge hanchor hrel, hok, hp]
    rfl

lemma neighborCounts_of_unknown (h : S.idToDense.get source = none) :
    S.neighborCounts s entities spec source = (0, 0) := by
  have hnone : S.qualifyingEdges s spec source = ∅ := by
    rw [qualifyingEdges, Finset.filter_eq_empty_iff]
    rintro e he ⟨hsource, -⟩
    rw [S.idOf_eq_iff (S.anchor_lt spec (S.mem_edgeSet.mp he)), h] at hsource
    cases hsource
  simp [neighborCounts, hnone]

lemma neighborCounts_of_unregistered (h : s.resolveType spec.relType = none) (source : NodeId) :
    S.neighborCounts s entities spec source = (0, 0) := by
  have hrel : ∀ e, spec.relOk s e = false := by
    intro e
    cases hname : spec.relType with
    | none =>
      rw [hname] at h
      cases h
    | some name =>
      rw [hname] at h
      rw [NeighborCountSpec.relOk, hname, Option.all_some, Option.map_eq_none_iff.mp h]
      rfl
  have hnone : S.qualifyingEdges s spec source = ∅ := by
    rw [qualifyingEdges, Finset.filter_eq_empty_iff]
    rintro e - ⟨-, hrel', -⟩
    rw [hrel e] at hrel'
    cases hrel'
  simp [neighborCounts, hnone]

lemma firstPass_eq {typeId : Option TypeId} (htype : s.resolveType spec.relType = some typeId)
    (hfits : S.TallyFits spec tallyIncoming) (hsource : S.idToDense.get source = some d)
    (hmem : some d ∈ dense) :
    (S.neighborPass tallyIncoming spec.incoming typeId dense (maskOk (S.neighborMask s spec))).1 d =
      (S.qualifyingEdges s spec source).card := by
  have hd : d < S.n := (List.getElem?_eq_some_iff.mp (S.get_idToDense.mp hsource)).1
  rw [S.neighborPass_count hfits hd hmem, S.countP_passEdges htype (fun _ => true) hsource]
  · simp
  · intro e he _ _
    rw [S.maskOk_neighborMask s spec (S.neighbor_lt spec he), Bool.and_true]

lemma visited_of_qualifying {typeId : Option TypeId}
    (htype : s.resolveType spec.relType = some typeId) (hfits : S.TallyFits spec tallyIncoming)
    (hsource : S.idToDense.get source = some d) (hmem : some d ∈ dense)
    (he : e ∈ S.qualifyingEdges s spec source) :
    (markAll (List.replicate S.n false) (S.neighborPass tallyIncoming spec.incoming typeId dense
      (maskOk (S.neighborMask s spec))).2).getD (spec.neighbor e) false = true := by
  obtain ⟨hedge, hanchor, hrel, hok⟩ := Finset.mem_filter.mp he
  rw [S.mem_edgeSet] at hedge
  have hneighbor := S.neighbor_lt spec hedge
  rw [getD_markAll _ (by simpa using hneighbor), Bool.or_eq_true, decide_eq_true_eq]
  right
  refine (S.mem_neighborPass hfits).mpr ⟨e, mem_filter.mpr ⟨hedge, ?_⟩, ?_, rfl⟩
  · rw [typeOk_resolveType htype, S.maskOk_neighborMask s spec hneighbor, hok, Bool.and_true]
    exact hrel
  · rw [S.idOf_eq_iff (S.anchor_lt spec hedge), hsource] at hanchor
    rwa [← hanchor]

lemma secondPass_eq (reads : PresenceSource entities) {typeId : Option TypeId}
    (htype : s.resolveType spec.relType = some typeId) (hfits : S.TallyFits spec tallyIncoming)
    (hsource : S.idToDense.get source = some d) (hmem : some d ∈ dense) {prop : String}
    (hprop : spec.neighborNonnullProp = some prop) :
    let pass := S.neighborPass tallyIncoming spec.incoming typeId dense
    let first := pass (maskOk (S.neighborMask s spec))
    (match S.visitedNonnullMask reads (markAll (List.replicate S.n false) first.2) prop with
      | none => first.1 d
      | some mask =>
        (pass fun other => maskOk (S.neighborMask s spec) other && mask.getD other false).1 d) =
      (S.neighborCounts s entities spec source).2 := by
  intro pass first
  have hd : d < S.n := (List.getElem?_eq_some_iff.mp (S.get_idToDense.mp hsource)).1
  have hmask : ∀ e ∈ S.qualifyingEdges s spec source,
      maskOk (S.visitedNonnullMask reads (markAll (List.replicate S.n false) first.2) prop)
        (spec.neighbor e) = spec.nonnullOk entities (S.idOf (spec.neighbor e)) := by
    intro e he
    have hedge := S.mem_edgeSet.mp (Finset.mem_filter.mp he).1
    rw [NeighborCountSpec.nonnullOk, hprop, Option.all_some]
    exact S.visitedNonnullMask_spec reads (by simp) prop (S.neighbor_lt spec hedge)
      (S.visited_of_qualifying htype hfits hsource hmem he)
  split
  next hnone =>
    rw [neighborCounts, Finset.filter_true_of_mem]
    · exact S.firstPass_eq htype hfits hsource hmem
    · intro e he
      rw [← hmask e he, hnone]
      rfl
  next mask hsome =>
    rw [hsome] at hmask
    rw [S.neighborPass_count hfits hd hmem,
      S.countP_passEdges htype (spec.nonnullOk entities) hsource]
    · rfl
    · intro e he hanchor hrel
      rw [S.maskOk_neighborMask s spec (S.neighbor_lt spec he)]
      cases hok : spec.neighborOk s (S.idOf (spec.neighbor e)) with
      | false => rfl
      | true =>
        have hqualifies : e ∈ S.qualifyingEdges s spec source :=
          Finset.mem_filter.mpr ⟨S.mem_edgeSet.mpr he, hanchor, hrel, hok⟩
        rw [Bool.true_and, Bool.true_and]
        exact hmask e hqualifies

lemma passes_eq (reads : PresenceSource entities) {typeId : Option TypeId}
    (htype : s.resolveType spec.relType = some typeId) (hfits : S.TallyFits spec tallyIncoming)
    (hsource : S.idToDense.get source = some d) (hmem : some d ∈ dense) :
    S.passCounts s reads spec tallyIncoming typeId dense d =
    S.neighborCounts s entities spec source := by
  have hfirst := S.firstPass_eq htype hfits hsource hmem
  unfold CsrArrays.passCounts
  dsimp only
  cases hprop : spec.neighborNonnullProp with
  | none => simp [neighborCounts, hfirst, NeighborCountSpec.nonnullOk, hprop]
  | some prop =>
    have hsecond := S.secondPass_eq reads htype hfits hsource hmem hprop
    exact Prod.ext hfirst hsecond

/-- The two counts of every source are the numbers of its qualifying edges and of those whose
neighbor has the property. -/
theorem typedNeighborCounts_eq (s : Tables) (reads : PresenceSource entities)
    (sources : List NodeId) (spec : NeighborCountSpec) :
    S.typedNeighborCounts s reads sources spec =
      sources.map (S.neighborCounts s entities spec) := by
  unfold CsrArrays.typedNeighborCounts
  split
  next hempty =>
    apply map_congr_left
    intro source hsource
    rcases hempty with hn | rfl
    · symm
      apply S.neighborCounts_of_unknown
      rw [Option.eq_none_iff_forall_ne_some]
      intro d hd
      have := (List.getElem?_eq_some_iff.mp (S.get_idToDense.mp hd)).1
      omega
    · cases hsource
  next =>
    split
    next hnone =>
      apply map_congr_left
      intro source _
      exact (S.neighborCounts_of_unregistered hnone source).symm
    next typeId htype =>
      dsimp only
      rw [map_map]
      apply map_congr_left
      intro source hsource
      cases hget : S.idToDense.get source with
      | none => simp [hget, S.neighborCounts_of_unknown hget]
      | some d =>
        rw [Function.comp_apply, hget]
        exact S.passes_eq reads htype (S.tallyFits_tallyIncoming spec typeId _) hget
          (mem_map.mpr ⟨source, hsource, hget⟩)

/-- The counts of every source are numbers of edges, and for incoming edges it does not matter which
way they are counted. -/
theorem typedNeighborCounts_spec (s : Tables) (reads : PresenceSource entities)
    (sources : List NodeId) (spec : NeighborCountSpec) :
    S.typedNeighborCounts s reads sources spec = sources.map (S.neighborCounts s entities spec) ∧
      ∀ typeId, s.resolveType spec.relType = some typeId → spec.incoming = true →
        ∀ d, some d ∈ sources.map S.idToDense.get →
          S.passCounts s reads spec true typeId (sources.map S.idToDense.get) d =
            S.passCounts s reads spec false typeId (sources.map S.idToDense.get) d := by
  refine ⟨S.typedNeighborCounts_eq s reads sources spec, ?_⟩
  intro typeId htype hin d hmem
  obtain ⟨source, -, hget⟩ := mem_map.mp hmem
  have hwalk : S.passCounts s reads spec false typeId _ d = _ :=
    S.passes_eq reads htype (fun h => by cases h) hget hmem
  have htally : S.passCounts s reads spec true typeId _ d = _ :=
    S.passes_eq reads htype (fun _ => Or.inl hin) hget hmem
  exact htally.trans hwalk.symm

end Snapshot

end IssunDB
