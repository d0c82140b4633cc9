import IssunDB.Csr.Masks

/-!
# Bulk expansion

`expandBulk` lists the edges of some source nodes in one direction. Over a stale snapshot and a few
sources it reads the adjacency table, whose entries under a node are in the order of their packed
bytes; otherwise it reads the rows of a fresh snapshot, the outgoing ones in the order of edge ids
and the incoming ones in the order of the nodes at the other end. Its documentation promises
ascending edge ids.

`Graph.expandsInOrder_iff` states when all three orders agree.
-/

namespace IssunDB

open List Option

/-! ## The two reads -/

/-- Sources up to which expansion over a stale snapshot reads the adjacency table. -/
def stalePointExpandMax : ℕ := 64

/-- Whether an expansion reads the adjacency table. -/
def prefersPointExpansion (stale : Bool) (sources : ℕ) : Bool :=
  stale && sources ≤ stalePointExpandMax

def Storage.expandPoint (s : Storage) (typeId : Option TypeId) (sources : List NodeId)
    (incoming : Bool) : List (NodeId × EdgeId × NodeId) :=
  sources.flatMap fun src => ((s.adj.entries src (!incoming)).filter fun ne =>
    typeOk typeId ne.edgeType).map fun ne => (src, ne.edgeId, ne.other)

namespace CsrArrays

variable (S : CsrArrays)

/-- The positions of the row of a node in one direction, each with the node at the other end and
the position of the edge in the outgoing arrays. -/
def rowPositions (incoming : Bool) (d : ℕ) : List (ℕ × ℕ) :=
  if incoming then (S.inRow d).map fun e => (e.col, e.pos)
  else (List.range' (S.rowPtr.getD d 0) (S.rowPtr.getD (d + 1) 0 - S.rowPtr.getD d 0)).filterMap
    fun k => S.out[k]?.map fun e => (e.col, k)

def expandRows (typeId : Option TypeId) (sources : List NodeId) (incoming : Bool) :
    List (NodeId × EdgeId × NodeId) :=
  sources.flatMap fun src =>
    match S.idToDense.get src with
    | none => []
    | some d => (S.rowPositions incoming d).filterMap fun p => S.out[p.2]?.bind fun e =>
        if typeOk typeId e.edgeType then some (src, e.edgeId, S.denseToId.getD p.1 0) else none

end CsrArrays

/-- Expand the edges of some sources, in one direction, of one type or of all. -/
def Storage.expandBulk (s : Storage) (stale : Bool) (sources : List NodeId)
    (relType : Option String) (incoming : Bool) : Except Error (List (NodeId × EdgeId × NodeId)) :=
  match s.tables.resolveType relType with
  | none => .ok []
  | some typeId =>
    if prefersPointExpansion stale sources.length then .ok (s.expandPoint typeId sources incoming)
    else (CsrArrays.build s false).map fun S => S.expandRows typeId sources incoming

/-! ## What the documentation promises -/

def EdgeRecord.near (r : EdgeRecord) (incoming : Bool) : NodeId := if incoming then r.dst else r.src

def EdgeRecord.far (r : EdgeRecord) (incoming : Bool) : NodeId := if incoming then r.src else r.dst

/-- An edge matches an expansion of a source. -/
def EdgeRecord.expands (r : EdgeRecord) (typeId : Option TypeId) (incoming : Bool) (src : NodeId) :
    Bool := r.near incoming = src && typeOk typeId r.edgeType

/-- The matching edges of one source by ascending id. -/
def Storage.expandInOrder (s : Storage) (typeId : Option TypeId) (incoming : Bool) (src : NodeId) :
    List (NodeId × EdgeId × NodeId) :=
  s.tables.edges.keys.ascending.filterMap fun id => (s.tables.edges.get id).bind fun r =>
    if r.expands typeId incoming src then some (src, id, r.far incoming) else none

/-- Whichever way it is read, an expansion lists the matching edges per source in input order and
by ascending id within a source. -/
def Storage.ExpandsInOrder (s : Storage) (sources : List NodeId) (relType : Option String)
    (incoming : Bool) : Prop :=
  ∀ stale, s.expandBulk stale sources relType incoming = .ok (
    match s.tables.resolveType relType with
    | none => []
    | some typeId => sources.flatMap (s.expandInOrder typeId incoming))

/-- Packed entries of a source are in the order of their edge ids. -/
def Storage.BytesAgree (s : Storage) (typeId : Option TypeId) (incoming : Bool) (src : NodeId) :
    Prop :=
  ∀ id r id' r', s.tables.edges.get id = some r → r.expands typeId incoming src →
    s.tables.edges.get id' = some r' → r'.expands typeId incoming src →
    id < id' → (r.entry (!incoming) id).2 < (r'.entry (!incoming) id').2

/-- The matching edges into a node come from ascending sources. -/
def Storage.EndsAgree (s : Storage) (typeId : Option TypeId) (dst : NodeId) : Prop :=
  ∀ id r id' r', s.tables.edges.get id = some r → r.expands typeId true dst →
    s.tables.edges.get id' = some r' → r'.expands typeId true dst → id < id' → r.src ≤ r'.src

/-- The order of edge ids is that of the packed entries, where the adjacency table is read, and
for incoming edges that of the nodes at the other end. -/
structure Storage.OrdersAgree (s : Storage) (sources : List NodeId) (typeId : Option TypeId)
    (incoming : Bool) : Prop where
  size : s.tables.edges.keys.card ≤ maxSnapshotEdges
  bytes : sources.length ≤ stalePointExpandMax → ∀ src ∈ sources, s.BytesAgree typeId incoming src
  ends : incoming = true → ∀ dst ∈ sources, s.EndsAgree typeId dst

/-! ## The documented list -/

/-- The order of triples by edge id. -/
def byId (x y : NodeId × EdgeId × NodeId) : Prop := x.2.1 < y.2.1

/-- The order of triples by the node at the other end, then by edge id. -/
def byFar (x y : NodeId × EdgeId × NodeId) : Prop :=
  x.2.2 < y.2.2 ∨ x.2.2 = y.2.2 ∧ x.2.1 < y.2.1

section

variable {s : Storage} {typeId : Option TypeId} {incoming : Bool} {src : NodeId}

lemma mem_expandInOrder {x : NodeId × EdgeId × NodeId} :
    x ∈ s.expandInOrder typeId incoming src ↔ ∃ r, s.tables.edges.get x.2.1 = some r ∧
      r.expands typeId incoming src ∧ x = (src, x.2.1, r.far incoming) := by
  simp only [Storage.expandInOrder, mem_filterMap, Finset.mem_ascending, Table.mem_keys,
    bind_eq_some_iff, ite_none_right_eq_some, some.injEq]
  constructor
  · rintro ⟨id, -, r, hget, hr, rfl⟩
    exact ⟨r, hget, hr, rfl⟩
  · rintro ⟨r, hget, hr, hx⟩
    exact ⟨_, by rw [hget]; rfl, r, hget, hr, hx.symm⟩

lemma byId_expandInOrder : (s.expandInOrder typeId incoming src).Pairwise byId := by
  rw [Storage.expandInOrder, pairwise_filterMap]
  refine (Finset.ascending_pairwise_lt _).imp ?_
  intro id id' hlt x hx y hy
  obtain ⟨r, -, hr⟩ := bind_eq_some_iff.mp hx
  obtain ⟨r', -, hr'⟩ := bind_eq_some_iff.mp hy
  obtain ⟨-, rfl⟩ := ite_none_right_eq_some.mp hr |>.imp_right some.inj
  obtain ⟨-, rfl⟩ := ite_none_right_eq_some.mp hr' |>.imp_right some.inj
  exact hlt

lemma eq_expandInOrder_iff {l : List (NodeId × EdgeId × NodeId)}
    (h : ∀ x, x ∈ l ↔ x ∈ s.expandInOrder typeId incoming src) :
    l = s.expandInOrder typeId incoming src ↔ l.Pairwise byId := by
  constructor
  · rintro rfl
    exact byId_expandInOrder
  · intro hl
    have : Std.Irrefl byId := ⟨fun x => lt_irrefl x.2.1⟩
    have : Std.Antisymm byId := ⟨fun x y h h' => absurd h' (lt_asymm h)⟩
    exact List.Pairwise.eq_of_mem_iff hl byId_expandInOrder h

/-! ## The adjacency table -/

lemma mem_entries_iff (h : s.AdjacencyAgrees) {o : Bool} {n : NodeId} {e : AdjEntry} :
    e ∈ s.adj.entries n o ↔
      ∃ r, s.tables.edges.get e.edgeId = some r ∧ r.entry o e.edgeId = (n, e) := by
  constructor
  · exact h.only o n e
  · rintro ⟨r, hget, hentry⟩
    obtain ⟨hout, hin⟩ := (h.edge_iff e.edgeId r.src r.dst r.edgeType).mp ⟨r.props, hget⟩
    cases o with
    | true =>
      obtain ⟨rfl, he⟩ := Prod.mk.injEq .. ▸ hentry
      rw [he] at hout
      exact count_pos_iff.mp (hout ▸ Nat.one_pos)
    | false =>
      obtain ⟨rfl, he⟩ := Prod.mk.injEq .. ▸ hentry
      rw [he] at hin
      exact count_pos_iff.mp (hin ▸ Nat.one_pos)

lemma entry_not_eq (r : EdgeRecord) (incoming : Bool) (id : EdgeId) :
    r.entry (!incoming) id = (r.near incoming, ⟨r.edgeType, r.far incoming, id⟩) := by
  cases incoming <;> rfl

/-- The entries of a source that an expansion keeps. -/
def matchingEntries (s : Storage) (typeId : Option TypeId) (incoming : Bool) (src : NodeId) :
    List AdjEntry := (s.adj.entries src (!incoming)).filter fun ne => typeOk typeId ne.edgeType

lemma mem_matchingEntries (h : s.AdjacencyAgrees) {e : AdjEntry} :
    e ∈ matchingEntries s typeId incoming src ↔ ∃ r, s.tables.edges.get e.edgeId = some r ∧
      r.expands typeId incoming src ∧ (r.entry (!incoming) e.edgeId).2 = e := by
  rw [matchingEntries, mem_filter, mem_entries_iff h]
  simp only [entry_not_eq, Prod.mk.injEq, EdgeRecord.expands, Bool.and_eq_true, decide_eq_true_eq]
  constructor
  · rintro ⟨⟨r, hget, hnear, hentry⟩, htype⟩
    rw [← hentry] at htype
    exact ⟨r, hget, ⟨hnear, htype⟩, hentry⟩
  · rintro ⟨r, hget, ⟨hnear, htype⟩, hentry⟩
    refine ⟨⟨r, hget, hnear, hentry⟩, ?_⟩
    rw [← hentry]
    exact htype

/-- What the table gives for one source. -/
def pointRow (s : Storage) (typeId : Option TypeId) (incoming : Bool) (src : NodeId) :
    List (NodeId × EdgeId × NodeId) :=
  (matchingEntries s typeId incoming src).map fun ne => (src, ne.edgeId, ne.other)

lemma mem_pointRow (h : s.AdjacencyAgrees) {x : NodeId × EdgeId × NodeId} :
    x ∈ pointRow s typeId incoming src ↔ x ∈ s.expandInOrder typeId incoming src := by
  rw [mem_expandInOrder, pointRow, List.mem_map]
  constructor
  · rintro ⟨e, he, rfl⟩
    obtain ⟨r, hget, hr, hentry⟩ := (mem_matchingEntries h).mp he
    refine ⟨r, hget, hr, ?_⟩
    rw [← hentry, entry_not_eq]
  · rintro ⟨r, hget, hr, hx⟩
    refine ⟨(r.entry (!incoming) x.2.1).2, (mem_matchingEntries h).mpr ⟨r, ?_, hr, ?_⟩, ?_⟩
    · rwa [EdgeRecord.entry_edgeId]
    · rw [EdgeRecord.entry_edgeId]
    · rw [hx, entry_not_eq]

/-- Entries of a source with the same edge id are the same. -/
theorem eq_of_mem_matchingEntries (h : s.AdjacencyAgrees) {a b : AdjEntry}
    (ha : a ∈ matchingEntries s typeId incoming src)
    (hb : b ∈ matchingEntries s typeId incoming src) (hab : a.edgeId = b.edgeId) : a = b := by
  obtain ⟨r, hget, -, hentry⟩ := (mem_matchingEntries h).mp ha
  obtain ⟨r', hget', -, hentry'⟩ := (mem_matchingEntries h).mp hb
  rw [← hab, hget] at hget'
  obtain rfl := some.inj hget'
  rw [← hentry, ← hentry', hab]

lemma pointRow_nodup (h : s.AdjacencyAgrees) : (pointRow s typeId incoming src).Nodup := by
  apply List.Nodup.map_on _ ((Finset.ascending_nodup _).filter _)
  intro a ha b hb hab
  exact eq_of_mem_matchingEntries h ha hb (congrArg (·.2.1) hab)

/-- What the table gives for one source is the documented list iff the packed entries are in the
order of the ids. -/
theorem pointRow_eq_iff (h : s.AdjacencyAgrees) :
    pointRow s typeId incoming src = s.expandInOrder typeId incoming src ↔
      s.BytesAgree typeId incoming src := by
  have hsorted : (matchingEntries s typeId incoming src).Pairwise (· < ·) :=
    (Finset.ascending_pairwise_lt _).filter _
  rw [eq_expandInOrder_iff fun x => mem_pointRow h, pointRow, pairwise_map]
  refine (pairwise_iff_of_pairwise hsorted (fun a b => lt_asymm) (fun a b => lt_asymm) ?_).trans ?_
  · intro a ha b hb hab
    apply lt_or_gt_of_ne
    intro heq
    exact hab.ne (eq_of_mem_matchingEntries h ha hb heq)
  constructor
  · intro hall id r id' r' hget hr hget' hr' hlt
    refine hall _ ((mem_matchingEntries h).mpr ⟨r, ?_, hr, ?_⟩) _
      ((mem_matchingEntries h).mpr ⟨r', ?_, hr', ?_⟩) ?_
    · rwa [EdgeRecord.entry_edgeId]
    · rw [EdgeRecord.entry_edgeId]
    · rwa [EdgeRecord.entry_edgeId]
    · rw [EdgeRecord.entry_edgeId]
    · rwa [EdgeRecord.entry_edgeId, EdgeRecord.entry_edgeId]
  · intro hagree a ha b hb hab
    obtain ⟨r, hget, hr, hentry⟩ := (mem_matchingEntries h).mp ha
    obtain ⟨r', hget', hr', hentry'⟩ := (mem_matchingEntries h).mp hb
    rw [← hentry, ← hentry']
    exact hagree _ r _ r' hget hr hget' hr' hab

end

/-! ## The rows of a snapshot -/

def DenseEdge.near (e : DenseEdge) (incoming : Bool) : ℕ := if incoming then e.dst else e.src

def DenseEdge.far (e : DenseEdge) (incoming : Bool) : ℕ := if incoming then e.src else e.dst

namespace Snapshot

variable (S : Snapshot)

/-- The edges that an expansion of a node keeps, in the order of its row. -/
def matchingEdges (typeId : Option TypeId) (incoming : Bool) (d : ℕ) : List DenseEdge :=
  S.edges.filter fun e => e.near incoming = d && typeOk typeId e.edgeType

lemma expandRow_eq (typeId : Option TypeId) (incoming : Bool) (src : NodeId) (d : ℕ) :
    ((S.rowPositions incoming d).filterMap fun p => S.out[p.2]?.bind fun e =>
        if typeOk typeId e.edgeType then some (src, e.edgeId, S.denseToId.getD p.1 0) else none) =
      (S.matchingEdges typeId incoming d).map fun e =>
      (src, e.edgeId, S.idOf (e.far incoming)) := by
  have hfilter : ∀ (l : List DenseEdge) (g : DenseEdge → NodeId × EdgeId × NodeId),
      l.filterMap (fun e => if typeOk typeId e.edgeType then some (g e) else none) =
        (l.filter fun e => typeOk typeId e.edgeType).map g := by
    intro l g
    induction l with
    | nil => rfl
    | cons e l ih =>
      rw [filterMap_cons, filter_cons]
      split <;> split <;> simp_all
  rw [matchingEdges, ← List.filter_filter, filter_comm, ← hfilter]
  cases incoming with
  | true =>
    have hzip : S.edges.filter (fun e => e.near true = d) =
        (S.edges.zipIdx.filter (·.1.dst = d)).map Prod.fst := by
      conv_lhs => rw [← zipIdx_map_fst 0 S.edges, List.filter_map]
      rfl
    rw [CsrArrays.rowPositions, if_pos rfl, inRow_eq, hzip, List.map_map, filterMap_map,
      filterMap_map]
    apply filterMap_congr
    rintro ⟨e, k⟩ hmem
    have hk : S.edges[k]? = some e :=
      mk_mem_zipIdx_iff_getElem?.mp (mem_filter.mp hmem).1
    have hout : S.out[k]? = some ⟨e.dst, e.edgeType, e.edgeId⟩ := by
      rw [out_eq_map, getElem?_map, hk]
      rfl
    simp only [Function.comp_apply, hout, bind_some]
    rfl
  | false =>
    have hrow : S.edges.filter (fun e => e.near false = d) =
        (S.outRow d).map fun e => (⟨d, e.col, e.edgeType, e.edgeId⟩ : DenseEdge) :=
      (S.outRow_eq d).symm
    rw [CsrArrays.rowPositions, if_neg Bool.false_ne_true, filterMap_range', hrow,
      filterMap_map, filterMap_map]
    -- A position of the row holds the entry that is listed with it.
    have hout : ∀ p ∈ ((S.out.drop (S.rowPtr.getD d 0)).take
        (S.rowPtr.getD (d + 1) 0 - S.rowPtr.getD d 0)).zipIdx (S.rowPtr.getD d 0),
        S.out[p.2]? = some p.1 := by
      rintro ⟨e, k⟩ hmem
      obtain ⟨hle, hget⟩ := mk_mem_zipIdx_iff_le_and_getElem?_sub.mp hmem
      rw [getElem?_take] at hget
      split at hget
      · rwa [getElem?_drop, Nat.add_sub_cancel' hle] at hget
      · cases hget
    have hlist : S.outRow d = (((S.out.drop (S.rowPtr.getD d 0)).take
        (S.rowPtr.getD (d + 1) 0 - S.rowPtr.getD d 0)).zipIdx
          (S.rowPtr.getD d 0)).map Prod.fst := by
      rw [zipIdx_map_fst]
      exact extract_eq_take_drop ..
    rw [hlist, filterMap_map]
    apply filterMap_congr
    rintro ⟨e, k⟩ hmem
    simp only [Function.comp_apply, hout _ hmem, bind_some]
    rfl

/-- Edges are listed by source and, within a source, by id. -/
theorem edges_pairwise :
    S.edges.Pairwise fun e e' => e.src < e'.src ∨ e.src = e'.src ∧ e.edgeId < e'.edgeId := by
  rw [edges_eq_flatMap, pairwise_flatMap]
  constructor
  · intro i hi
    rw [pairwise_map]
    have hrow : S.outRow i ∈ S.rows := List.mem_map.mpr ⟨i, hi, rfl⟩
    exact (S.wellFormed.row_ascending _ hrow).imp fun h => Or.inr ⟨rfl, h⟩
  · refine pairwise_lt_range.imp ?_
    intro i j hij x hx y hy
    obtain ⟨e, -, rfl⟩ := List.mem_map.mp hx
    obtain ⟨e', -, rfl⟩ := List.mem_map.mp hy
    exact Or.inl hij

end Snapshot

variable {s : Storage}

lemma mem_edges_build (h : s.AdjacencyAgrees) {weighted : Bool} {S : CsrArrays}
    (hS : CsrArrays.build s weighted = .ok S) {e : DenseEdge} :
    e ∈ S.edges ↔ ∃ r, s.tables.edges.get e.edgeId = some r ∧ r.edgeType = e.edgeType ∧
      s.nodeIds[e.src]? = some r.src ∧ s.nodeIds[e.dst]? = some r.dst := by
  have hlayout : S = CsrArrays.layout s.nodeIds s.outRows (s.outWeights weighted) := by
    rw [CsrArrays.build_eq h] at hS
    split at hS
    · cases hS
    · exact (Except.ok.inj hS).symm
  have hrow : ∀ i, S.outRow i = s.outRows.getD i [] := by
    intro i
    rw [hlayout]
    exact CsrArrays.outRow_layout _ _ _ i
  have hn : S.denseToId = s.nodeIds := by
    rw [hlayout]
    rfl
  have hedges := Snapshot.edges_eq_flatMap ⟨S, CsrArrays.build_wellFormed h hS⟩
  change S.edges = (List.range S.denseToId.length).flatMap _ at hedges
  rw [hedges, mem_flatMap, hn]
  constructor
  · rintro ⟨i, hi, he⟩
    obtain ⟨entry, hentry, rfl⟩ := List.mem_map.mp he
    have hlt : i < s.outRows.length := by simpa using hi
    change entry ∈ S.outRow i at hentry
    rw [hrow, getD_eq_getElem _ _ hlt] at hentry
    obtain ⟨r, hget, hsrc, htype, hdst⟩ :=
      (Storage.mem_outRows h (getElem?_eq_getElem hlt)).mp hentry
    exact ⟨r, hget, htype, hsrc, hdst⟩
  · rintro ⟨r, hget, htype, hsrc, hdst⟩
    have hlt : e.src < s.outRows.length := by
      rw [Storage.length_outRows]
      exact (List.getElem?_eq_some_iff.mp hsrc).1
    refine ⟨e.src, mem_range.mpr (by simpa using hlt), List.mem_map.mpr
      ⟨⟨e.dst, e.edgeType, e.edgeId⟩, ?_, rfl⟩⟩
    change _ ∈ S.outRow e.src
    rw [hrow, getD_eq_getElem _ _ hlt]
    exact (Storage.mem_outRows h (getElem?_eq_getElem hlt)).mpr ⟨r, hget, hsrc, htype, hdst⟩

/-- The nodes of a snapshot of a database are its nodes. -/
theorem denseToId_of_build (h : s.AdjacencyAgrees) {weighted : Bool} {S : CsrArrays}
    (hS : CsrArrays.build s weighted = .ok S) : S.denseToId = s.nodeIds := by
  rw [CsrArrays.build_eq h] at hS
  split at hS
  · cases hS
  · rw [← Except.ok.inj hS]
    rfl

/-! ## Both orders -/

section

variable {s : Storage} (h : s.AdjacencyAgrees) {S : CsrArrays}
  (hS : CsrArrays.build s false = .ok S) {typeId : Option TypeId} {incoming : Bool} {src : NodeId}

/-- What a snapshot gives for one source. -/
def csrRow (S : CsrArrays) (typeId : Option TypeId) (incoming : Bool) (src : NodeId) :
    List (NodeId × EdgeId × NodeId) := S.expandRows typeId [src] incoming

lemma expandRows_eq (sources : List NodeId) :
    S.expandRows typeId sources incoming = sources.flatMap (csrRow S typeId incoming) := by
  apply flatMap_congr
  intro src _
  rw [csrRow, CsrArrays.expandRows, flatMap_singleton]

include h hS

lemma denseToId_build : S.denseToId = s.nodeIds := denseToId_of_build h hS

lemma get_build {d : ℕ} : S.idToDense.get src = some d ↔ s.nodeIds[d]? = some src := by
  rw [← denseToId_build h hS]
  exact Snapshot.get_idToDense ⟨S, CsrArrays.build_wellFormed h hS⟩

/-- The row of a source lists its matching edges. -/
theorem csrRow_eq {d : ℕ} (hd : s.nodeIds[d]? = some src) : csrRow S typeId incoming src =
    (Snapshot.matchingEdges ⟨S, CsrArrays.build_wellFormed h hS⟩ typeId incoming d).map
      fun e => (src, e.edgeId, s.nodeIds.getD (e.far incoming) 0) := by
  rw [csrRow, CsrArrays.expandRows, flatMap_singleton, (get_build h hS).mpr hd]
  have hrow := Snapshot.expandRow_eq ⟨S, CsrArrays.build_wellFormed h hS⟩ typeId incoming src d
  rw [← denseToId_build h hS]
  exact hrow

lemma mem_edges_build_near (incoming : Bool) {e : DenseEdge} : e ∈ S.edges ↔
    ∃ r, s.tables.edges.get e.edgeId = some r ∧ r.edgeType = e.edgeType ∧
      s.nodeIds[e.near incoming]? = some (r.near incoming) ∧
      s.nodeIds[e.far incoming]? = some (r.far incoming) := by
  rw [mem_edges_build h hS]
  cases incoming with
  | false => rfl
  | true =>
    apply exists_congr
    intro r
    rw [and_comm (a := s.nodeIds[e.src]? = some r.src)]
    rfl

lemma csrRow_of_unknown (hsrc : src ∉ s.nodeIds) : csrRow S typeId incoming src = [] := by
  have hnone : S.idToDense.get src = none := by
    rw [eq_none_iff_forall_ne_some]
    intro d hget
    exact hsrc (mem_of_getElem? ((get_build h hS).mp hget))
  rw [csrRow, CsrArrays.expandRows, flatMap_singleton, hnone]

omit hS in
/-- The ends of a stored edge are nodes. -/
theorem near_far_mem (incoming : Bool) {id : EdgeId} {r : EdgeRecord}
    (hget : s.tables.edges.get id = some r) :
    r.near incoming ∈ s.nodeIds ∧ r.far incoming ∈ s.nodeIds := by
  obtain ⟨hsrc, hdst⟩ := h.ends id r hget
  rw [Storage.mem_nodeIds, Storage.mem_nodeIds]
  cases incoming with
  | true => exact ⟨hdst, hsrc⟩
  | false => exact ⟨hsrc, hdst⟩

lemma mem_csrRow {x : NodeId × EdgeId × NodeId} :
    x ∈ csrRow S typeId incoming src ↔ x ∈ s.expandInOrder typeId incoming src := by
  by_cases hsrc : src ∈ s.nodeIds
  · obtain ⟨d, hd⟩ := mem_iff_getElem?.mp hsrc
    have hfar : ∀ {k : ℕ} {id : NodeId}, s.nodeIds[k]? = some id → s.nodeIds.getD k 0 = id := by
      intro k id hk
      rw [getD_eq_getElem?_getD, hk, getD_some]
    rw [csrRow_eq h hS hd, mem_expandInOrder, List.mem_map]
    simp only [Snapshot.matchingEdges, mem_filter, Bool.and_eq_true, decide_eq_true_eq,
      EdgeRecord.expands]
    constructor
    · rintro ⟨e, ⟨he, hnear, htype⟩, rfl⟩
      obtain ⟨r, hget, hty, hsrc, hdst⟩ := (mem_edges_build_near h hS incoming).mp he
      rw [hnear, hd, some.injEq] at hsrc
      refine ⟨r, hget, ⟨hsrc.symm, hty ▸ htype⟩, ?_⟩
      rw [hfar hdst]
    · rintro ⟨r, hget, ⟨hnear, htype⟩, hx⟩
      obtain ⟨d', hd'⟩ := mem_iff_getElem?.mp (near_far_mem h incoming hget).2
      let e : DenseEdge :=
        if incoming then ⟨d', d, r.edgeType, x.2.1⟩ else ⟨d, d', r.edgeType, x.2.1⟩
      have hid : e.edgeId = x.2.1 := by cases incoming <;> rfl
      have hty : e.edgeType = r.edgeType := by cases incoming <;> rfl
      have hne : e.near incoming = d := by cases incoming <;> rfl
      have hfa : e.far incoming = d' := by cases incoming <;> rfl
      refine ⟨e, ⟨(mem_edges_build_near h hS incoming).mpr ⟨r, ?_, hty.symm, ?_, ?_⟩, hne, ?_⟩, ?_⟩
      · rwa [hid]
      · rwa [hne, hnear]
      · rwa [hfa]
      · rwa [hty]
      · rw [hid, hfa, hfar hd']
        exact hx.symm
  · rw [csrRow_of_unknown h hS hsrc, mem_expandInOrder]
    constructor
    · intro hx
      cases hx
    · rintro ⟨r, hget, hr, -⟩
      obtain ⟨hnear, -⟩ := Bool.and_eq_true_iff.mp hr
      have hmem := (near_far_mem h incoming hget).1
      rw [of_decide_eq_true hnear] at hmem
      exact absurd hmem hsrc

/-- The edges of a row are in the order of the outgoing arrays. -/
theorem pairwise_csrRow {R : NodeId × EdgeId × NodeId → NodeId × EdgeId × NodeId → Prop}
    (hR : ∀ d e e', s.nodeIds[d]? = some src → e ∈ S.edges → e' ∈ S.edges →
      e.near incoming = d → e'.near incoming = d →
      (e.src < e'.src ∨ e.src = e'.src ∧ e.edgeId < e'.edgeId) →
      R (src, e.edgeId, s.nodeIds.getD (e.far incoming) 0)
        (src, e'.edgeId, s.nodeIds.getD (e'.far incoming) 0)) :
    (csrRow S typeId incoming src).Pairwise R := by
  by_cases hsrc : src ∈ s.nodeIds
  · obtain ⟨d, hd⟩ := mem_iff_getElem?.mp hsrc
    rw [csrRow_eq h hS hd, pairwise_map, Snapshot.matchingEdges]
    refine ((Snapshot.edges_pairwise _).filter _).imp_of_mem ?_
    intro e e' he he' hlt
    obtain ⟨hmem, he⟩ := mem_filter.mp he
    obtain ⟨hmem', he'⟩ := mem_filter.mp he'
    exact hR d e e' hd hmem hmem' (of_decide_eq_true (Bool.and_eq_true_iff.mp he).1)
      (of_decide_eq_true (Bool.and_eq_true_iff.mp he').1) hlt
  · rw [csrRow_of_unknown h hS hsrc]
    exact List.Pairwise.nil

lemma byId_csrRow : (csrRow S typeId false src).Pairwise byId := by
  apply pairwise_csrRow h hS
  intro d e e' _ _ _ hnear hnear' hlt
  have hsame : e.src = e'.src := hnear.trans hnear'.symm
  rcases hlt with hlt | ⟨-, hlt⟩
  · exact absurd hsame hlt.ne
  · exact hlt

lemma byFar_csrRow : (csrRow S typeId true src).Pairwise byFar := by
  apply pairwise_csrRow h hS
  intro d e e' _ he he' _ _ hlt
  obtain ⟨r, -, -, -, hfar⟩ := (mem_edges_build_near h hS true).mp he
  obtain ⟨r', -, -, -, hfar'⟩ := (mem_edges_build_near h hS true).mp he'
  change s.nodeIds[e.src]? = some r.src at hfar
  change s.nodeIds[e'.src]? = some r'.src at hfar'
  show s.nodeIds.getD e.src 0 < s.nodeIds.getD e'.src 0 ∨
    s.nodeIds.getD e.src 0 = s.nodeIds.getD e'.src 0 ∧ e.edgeId < e'.edgeId
  rcases hlt with hlt | ⟨hsame, hlt⟩
  · -- dense indices ascend with the ids of the nodes
    left
    obtain ⟨hi, -⟩ := List.getElem?_eq_some_iff.mp hfar
    obtain ⟨hj, -⟩ := List.getElem?_eq_some_iff.mp hfar'
    rw [getD_eq_getElem _ _ hi, getD_eq_getElem _ _ hj]
    exact pairwise_iff_getElem.mp (Finset.ascending_pairwise_lt _) _ _ hi hj hlt
  · right
    exact ⟨by rw [hsame], hlt⟩

lemma csrRow_nodup : (csrRow S typeId incoming src).Nodup := by
  cases incoming with
  | false =>
    refine (byId_csrRow h hS).imp ?_
    rintro x y hlt rfl
    exact lt_irrefl x.2.1 hlt
  | true =>
    refine (byFar_csrRow h hS).imp ?_
    rintro x y hlt rfl
    rcases hlt with hlt | ⟨-, hlt⟩
    · exact lt_irrefl x.2.2 hlt
    · exact lt_irrefl x.2.1 hlt

lemma csrRow_incoming_eq_iff :
    csrRow S typeId true src = s.expandInOrder typeId true src ↔ s.EndsAgree typeId src := by
  rw [eq_expandInOrder_iff fun x => mem_csrRow h hS]
  refine (pairwise_iff_of_pairwise (byFar_csrRow h hS) ?_ (fun x y => lt_asymm) ?_).trans ?_
  · rintro x y hxy hyx
    rcases hxy with hxy | ⟨hsame, hxy⟩
    · rcases hyx with hyx | ⟨hsame, -⟩
      · exact lt_asymm hxy hyx
      · exact hxy.ne' hsame
    · rcases hyx with hyx | ⟨-, hyx⟩
      · exact hyx.ne' hsame
      · exact lt_asymm hxy hyx
  · intro x hx y hy hxy
    apply lt_or_gt_of_ne
    intro hsame
    obtain ⟨r, hget, -, hx⟩ := mem_expandInOrder.mp ((mem_csrRow h hS).mp hx)
    obtain ⟨r', hget', -, hy⟩ := mem_expandInOrder.mp ((mem_csrRow h hS).mp hy)
    rw [← hsame, hget] at hget'
    obtain rfl := some.inj hget'
    rw [hx, hy] at hxy
    rcases hxy with hlt | ⟨-, hlt⟩
    · exact lt_irrefl _ hlt
    · exact hlt.ne hsame
  · constructor
    · intro hall id r id' r' hget hr hget' hr' hlt
      have hx : (src, id, r.src) ∈ csrRow S typeId true src :=
        (mem_csrRow h hS).mpr (mem_expandInOrder.mpr ⟨r, hget, hr, rfl⟩)
      have hy : (src, id', r'.src) ∈ csrRow S typeId true src :=
        (mem_csrRow h hS).mpr (mem_expandInOrder.mpr ⟨r', hget', hr', rfl⟩)
      rcases hall _ hx _ hy hlt with hfar | ⟨hfar, -⟩
      · exact hfar.le
      · exact hfar.le
    · intro hends x hx y hy hlt
      obtain ⟨r, hget, hr, hx⟩ := mem_expandInOrder.mp ((mem_csrRow h hS).mp hx)
      obtain ⟨r', hget', hr', hy⟩ := mem_expandInOrder.mp ((mem_csrRow h hS).mp hy)
      have hle := hends _ r _ r' hget hr hget' hr' hlt
      rw [hx, hy]
      rcases hle.lt_or_eq with hfar | hfar
      · exact Or.inl hfar
      · exact Or.inr ⟨hfar, hlt⟩

end

/-! ## Lists of sources -/

/-- Concatenated rows with the documented members are the documented list iff each row is. -/
theorem flatMap_eq_expandInOrder_iff {typeId : Option TypeId} {incoming : Bool}
    {sources : List NodeId} {row : NodeId → List (NodeId × EdgeId × NodeId)}
    (hnodup : ∀ src, (row src).Nodup)
    (hmem : ∀ src x, x ∈ row src ↔ x ∈ s.expandInOrder typeId incoming src) :
    sources.flatMap row = sources.flatMap (s.expandInOrder typeId incoming) ↔
      ∀ src ∈ sources, row src = s.expandInOrder typeId incoming src := by
  apply flatMap_eq_iff
  intro src _
  have hdocumented : (s.expandInOrder typeId incoming src).Nodup := by
    refine byId_expandInOrder.imp ?_
    rintro x y hlt rfl
    exact lt_irrefl x.2.1 hlt
  exact ((perm_ext_iff_of_nodup (hnodup src) hdocumented).mpr (hmem src)).length_eq

section

variable {s : Storage} (h : s.AdjacencyAgrees) {typeId : Option TypeId} {incoming : Bool}
  {sources : List NodeId}

include h

lemma expandPoint_eq_iff :
    s.expandPoint typeId sources incoming = sources.flatMap (s.expandInOrder typeId incoming) ↔
      ∀ src ∈ sources, s.BytesAgree typeId incoming src := by
  have hpoint : s.expandPoint typeId sources incoming =
      sources.flatMap (pointRow s typeId incoming) := rfl
  rw [hpoint, flatMap_eq_expandInOrder_iff (fun src => pointRow_nodup h) fun src x =>
    mem_pointRow h]
  simp only [pointRow_eq_iff h]

lemma expandRows_eq_iff {S : CsrArrays} (hS : CsrArrays.build s false = .ok S) :
    S.expandRows typeId sources incoming = sources.flatMap (s.expandInOrder typeId incoming) ↔
      (incoming = true → ∀ dst ∈ sources, s.EndsAgree typeId dst) := by
  rw [expandRows_eq, flatMap_eq_expandInOrder_iff (fun src => csrRow_nodup h hS)
    fun src x => mem_csrRow h hS]
  cases incoming with
  | true => simp only [csrRow_incoming_eq_iff h hS, true_implies]
  | false =>
    simp only [Bool.false_eq_true, false_implies, iff_true]
    intro src _
    exact (eq_expandInOrder_iff fun x => mem_csrRow h hS).mpr (byId_csrRow h hS)

lemma build_map_eq_ok_iff {α : Type} {f : CsrArrays → α} {a : α} :
    (CsrArrays.build s false).map f = .ok a ↔ s.tables.edges.keys.card ≤ maxSnapshotEdges ∧
      ∀ S, CsrArrays.build s false = .ok S → f S = a := by
  rw [CsrArrays.build_eq h, Storage.length_flatten_outRows h]
  split
  next hsize =>
    constructor
    · intro hok
      cases hok
    · intro hle
      exact absurd hle.1 (not_le.mpr hsize)
  next hsize =>
    constructor
    · intro hok
      refine ⟨not_lt.mp hsize, fun S hS => ?_⟩
      rw [← Except.ok.inj hS]
      exact Except.ok.inj hok
    · rintro ⟨-, hall⟩
      rw [← hall _ rfl]
      rfl

/-- A fresh snapshot gives the documented list iff it can be built and, for incoming edges, the
matching edges come from ascending sources. -/
theorem expandBulk_fresh_iff {relType : Option String}
    (htype : s.tables.resolveType relType = some typeId) :
    s.expandBulk false sources relType incoming =
      .ok (sources.flatMap (s.expandInOrder typeId incoming)) ↔
      s.tables.edges.keys.card ≤ maxSnapshotEdges ∧
        (incoming = true → ∀ dst ∈ sources, s.EndsAgree typeId dst) := by
  have hcsr : s.expandBulk false sources relType incoming =
      (CsrArrays.build s false).map fun S => S.expandRows typeId sources incoming := by
    rw [Storage.expandBulk, htype]
    rfl
  rw [hcsr, build_map_eq_ok_iff h]
  apply and_congr_right
  intro hsize
  constructor
  · intro hbuilt
    obtain ⟨S, hS⟩ : ∃ S, CsrArrays.build s false = .ok S := by
      rw [CsrArrays.build_eq h, Storage.length_flatten_outRows h, if_neg (not_lt.mpr hsize)]
      exact ⟨_, rfl⟩
    exact (expandRows_eq_iff h hS).mp (hbuilt S hS)
  · intro hends S hS
    exact (expandRows_eq_iff h hS).mpr hends

/-- With a known type or none, every way of reading lists the edges in order iff the three orders
agree. -/
theorem expandBulk_eq_iff {relType : Option String}
    (htype : s.tables.resolveType relType = some typeId) :
    (∀ stale, s.expandBulk stale sources relType incoming =
      .ok (sources.flatMap (s.expandInOrder typeId incoming))) ↔
      s.OrdersAgree sources typeId incoming := by
  have hfresh : s.expandBulk false sources relType incoming =
      .ok (sources.flatMap (s.expandInOrder typeId incoming)) ↔ _ := expandBulk_fresh_iff h htype
  constructor
  · intro hall
    obtain ⟨hsize, hends⟩ := hfresh.mp (hall false)
    refine ⟨hsize, fun hfew => (expandPoint_eq_iff h).mp ?_, hends⟩
    have hpoint := hall true
    rw [Storage.expandBulk, htype] at hpoint
    dsimp only at hpoint
    rw [if_pos (by simpa [prefersPointExpansion] using hfew)] at hpoint
    exact Except.ok.inj hpoint
  · rintro ⟨hsize, hbytes, hends⟩ stale
    by_cases hpoint : prefersPointExpansion stale sources.length
    · have hfew : sources.length ≤ stalePointExpandMax := by
        rw [prefersPointExpansion, Bool.and_eq_true, decide_eq_true_eq] at hpoint
        exact hpoint.2
      rw [Storage.expandBulk, htype]
      dsimp only
      rw [if_pos hpoint, (expandPoint_eq_iff h).mpr (hbytes hfew)]
    · rw [← hfresh.mpr ⟨hsize, hends⟩, Storage.expandBulk, Storage.expandBulk, htype]
      dsimp only
      rw [if_neg hpoint, if_neg (by simp [prefersPointExpansion])]

end

namespace Graph

section

variable [TextLib]

/-- **The order of an expansion.** After every run, for every list of sources, relationship type and
direction: an expansion lists, whether the snapshot is fresh or not, the matching edges per source
in input order and by ascending id within a source, iff that is also the order of the packed
adjacency entries of the sources, where they are read, and, for incoming edges, of the nodes at the
other end. -/
theorem expandsInOrder_iff (actions : List Action) (sources : List NodeId)
    (relType : Option String) (incoming : Bool) :
    (run actions .empty).storage.ExpandsInOrder sources relType incoming ↔
      ∀ typeId, (run actions .empty).storage.tables.resolveType relType = some typeId →
        (run actions .empty).storage.OrdersAgree sources typeId incoming := by
  have h := adjacencyAgrees_run actions
  generalize (run actions .empty).storage = s at h ⊢
  cases htype : s.tables.resolveType relType with
  | none =>
    rw [Storage.ExpandsInOrder, htype]
    constructor
    · intro _ typeId hsome
      cases hsome
    · intro _ stale
      rw [Storage.expandBulk, htype]
  | some typeId =>
    rw [Storage.ExpandsInOrder, htype]
    refine (expandBulk_eq_iff h htype).trans ?_
    constructor
    · intro hagree typeId' heq
      rwa [← some.inj heq]
    · intro hall
      exact hall typeId rfl

end

section

attribute [local instance] TextLib.ascii

/-- Three nodes, an edge from the first to the third and then one from the first to the second. -/
def crossedEdges : List Action :=
  let none : Props := ⟨.object [], Json.wellFormed_empty⟩
  [.mutation (.addNode "A" none) (.ok ()), .mutation (.addNode "A" none) (.ok ()),
    .mutation (.addNode "A" none) (.ok ()), .mutation (.addEdge 0 2 "T" none) (.ok ()),
    .mutation (.addEdge 0 1 "T" none) (.ok ())]

/-- The adjacency table lists the second edge first, a snapshot the first one. -/
theorem expandBulk_crossedEdges :
    (run crossedEdges .empty).storage.expandBulk true [0] none false =
        .ok [(0, 1, 1), (0, 0, 2)] ∧
      (run crossedEdges .empty).storage.expandBulk false [0] none false =
        .ok [(0, 0, 2), (0, 1, 1)] ∧
      ¬ (run crossedEdges .empty).storage.ExpandsInOrder [0] none false := by
  have h := adjacencyAgrees_run crossedEdges
  have htype : (run crossedEdges .empty).storage.tables.resolveType none = some none := rfl
  have hpoint : (run crossedEdges .empty).storage.expandPoint none [0] false =
      [(0, 1, 1), (0, 0, 2)] := by decide +kernel
  have hinOrder : [0].flatMap ((run crossedEdges .empty).storage.expandInOrder none false) =
      [(0, 0, 2), (0, 1, 1)] := by decide +kernel
  have hsize : (run crossedEdges .empty).storage.tables.edges.keys.card = 2 := by decide +kernel
  refine ⟨congrArg Except.ok hpoint, ?_, ?_⟩
  · rw [← hinOrder]
    refine (expandBulk_fresh_iff h htype).mpr ⟨?_, fun hincoming => by cases hincoming⟩
    rw [hsize]
    decide
  · intro hordered
    have hlists : (run crossedEdges .empty).storage.expandPoint none [0] false =
        [0].flatMap ((run crossedEdges .empty).storage.expandInOrder none false) :=
      Except.ok.inj (hordered true)
    rw [hpoint, hinOrder] at hlists
    exact absurd hlists (by decide)

end

end Graph

end IssunDB
