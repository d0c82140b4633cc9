import IssunDB.Runs
import IssunDB.SchemaChanges

/-!
# Adjacency

Each stored edge has one entry under its source in the outgoing table and one under its target in
the incoming table, and there is no other entry. Inside a bulk load the entries are spread over
the tables and the buffer; `Txn.allEntries` is their union.

* `ListsOn` — an adjacency set lists exactly the edges of a table, where a predicate holds;
* `Txn.Sound` — the working state is sound, both directions list the edges and the endpoints of
  every edge exist;
* `Txn.Sound.exec` — every mutation that succeeds keeps `Txn.Sound`. The hard case is the deletion
  of a node, which walks one direction while it deletes from the other
  (`Txn.Dropping`);
* `Graph.adjacency_consistent` — the agreement of the committed tables after every run.
-/

namespace IssunDB

open List Option

/-- The adjacency entry of an edge under its source (`true`) or its target. -/
def EdgeRecord.entry (outgoing : Bool) (id : EdgeId) (r : EdgeRecord) : NodeId × AdjEntry :=
  if outgoing then (r.src, ⟨r.edgeType, r.dst, id⟩) else (r.dst, ⟨r.edgeType, r.src, id⟩)

@[simp]
lemma EdgeRecord.entry_edgeId (o : Bool) (id : EdgeId) (r : EdgeRecord) :
    (r.entry o id).2.edgeId = id := by
  cases o <;> rfl

@[simp]
lemma EdgeRecord.entry_edgeType (o : Bool) (id : EdgeId) (r : EdgeRecord) :
    (r.entry o id).2.edgeType = r.edgeType := by
  cases o <;> rfl

lemma EdgeRecord.entry_not {o : Bool} {id : EdgeId} {r : EdgeRecord} {n : NodeId} {e : AdjEntry}
    (h : r.entry o id = (n, e)) : r.entry (!o) id = (e.other, ⟨e.edgeType, n, e.edgeId⟩) := by
  cases o <;> (obtain ⟨rfl, rfl⟩ := Prod.mk.injEq .. ▸ h; rfl)

/-! ## Sets that list a table -/

/-- Where `K` holds, the set `A` lists exactly the entries of the edges, in direction `o`. -/
def ListsOn (K : NodeId × AdjEntry → Prop) (o : Bool) (A : Finset (NodeId × AdjEntry))
    (edges : Table EdgeId EdgeRecord) : Prop :=
  ∀ x, K x → (x ∈ A ↔ ∃ id r, edges.get id = some r ∧ r.entry o id = x)

/-- The set `A` lists exactly the entries of the edges. -/
def Lists (o : Bool) (A : Finset (NodeId × AdjEntry)) (edges : Table EdgeId EdgeRecord) : Prop :=
  ListsOn (fun _ => True) o A edges

namespace ListsOn

variable {K : NodeId × AdjEntry → Prop} {o : Bool} {A : Finset (NodeId × AdjEntry)}
  {edges : Table EdgeId EdgeRecord} {id : EdgeId} {r : EdgeRecord}

lemma weaken {K' : NodeId × AdjEntry → Prop} (h : ListsOn K o A edges) (hK : ∀ x, K' x → K x) :
    ListsOn K' o A edges := fun x hx => h x (hK x hx)

/-- Storing a new edge and its entry. -/
theorem insert (h : ListsOn K o A edges) (hnew : edges.get id = none) :
    ListsOn K o (insert (r.entry o id) A) (edges.put id r) := by
  intro x hx
  rw [Finset.mem_insert, h x hx]
  constructor
  · rintro (rfl | ⟨id', r', hget, rfl⟩)
    · exact ⟨id, r, by simp, rfl⟩
    · refine ⟨id', r', ?_, rfl⟩
      have hne : id' ≠ id := by
        rintro rfl
        simp [hnew] at hget
      simpa [hne] using hget
  · rintro ⟨id', r', hget, rfl⟩
    rw [Table.get_put] at hget
    split at hget
    next heq =>
      obtain rfl := some.inj hget
      exact .inl (heq ▸ rfl)
    next => exact .inr ⟨id', r', hget, rfl⟩

lemma replace (h : ListsOn K o A edges) {r' : EdgeRecord} (hget : edges.get id = some r)
    (hentry : r'.entry o id = r.entry o id) : ListsOn K o A (edges.put id r') := by
  intro x hx
  rw [h x hx]
  constructor
  · rintro ⟨id', r₁, hget', rfl⟩
    by_cases hid : id' = id
    · subst hid
      obtain rfl := some.inj (hget.symm.trans hget')
      exact ⟨id', r', by simp, hentry⟩
    · exact ⟨id', r₁, by simpa [hid] using hget', rfl⟩
  · rintro ⟨id', r₁, hget', rfl⟩
    rw [Table.get_put] at hget'
    split at hget'
    next heq =>
      obtain rfl := some.inj hget'
      exact ⟨id, r, hget, heq ▸ hentry.symm⟩
    next => exact ⟨id', r₁, hget', rfl⟩

/-- Removing an edge with its entry. -/
theorem erase (h : ListsOn K o A edges) (hget : edges.get id = some r) :
    ListsOn K o (A.erase (r.entry o id)) (edges.erase id) := by
  intro x hx
  rw [Finset.mem_erase, h x hx]
  constructor
  · rintro ⟨hne, id', r', hget', rfl⟩
    refine ⟨id', r', ?_, rfl⟩
    have hid : id' ≠ id := by
      rintro rfl
      obtain rfl := some.inj (hget.symm.trans hget')
      exact hne rfl
    simpa [hid] using hget'
  · rintro ⟨id', r', hget', rfl⟩
    rw [Table.get_erase] at hget'
    split at hget'
    next => cases hget'
    next hid =>
      refine ⟨fun heq => hid ?_, id', r', hget', rfl⟩
      simpa using congrArg (·.2.edgeId) heq

/-- Removing an edge whose entry lies outside `K`. -/
theorem erase_of_not (h : ListsOn K o A edges) (hget : edges.get id = some r)
    (hK : ¬K (r.entry o id)) : ListsOn K o A (edges.erase id) := by
  intro x hx
  have hne : x ≠ r.entry o id := fun heq => hK (heq ▸ hx)
  rw [← h.erase hget x hx, Finset.mem_erase]
  exact ⟨fun hmem => ⟨hne, hmem⟩, fun hmem => hmem.2⟩

end ListsOn

/-! ## Sound transactions -/

def AdjBuffer.side (b : AdjBuffer) (outgoing : Bool) : List (NodeId × AdjEntry) :=
  if outgoing then b.pendingOut else b.pendingIn

namespace Txn

def allEntries (t : Txn) (outgoing : Bool) : Finset (NodeId × AdjEntry) :=
  t.adj.side outgoing ∪ (t.buffer.side outgoing).toFinset

variable {t : Txn} {o : Bool} {n : NodeId} {props : Props}

@[simp]
lemma mem_allEntries {x : NodeId × AdjEntry} :
    x ∈ t.allEntries o ↔ x ∈ t.adj.side o ∨ x ∈ t.buffer.side o := by
  simp [allEntries]

lemma allEntries_flushAdjacency (t : Txn) (o : Bool) :
    t.flushAdjacency.allEntries o = t.allEntries o := by
  cases o <;> simp [allEntries, flushAdjacency, Adjacency.side, AdjBuffer.side]

/-- Nothing is buffered. -/
def Flushed (t : Txn) : Prop := ∀ o, t.buffer.side o = []

lemma flushed_flushAdjacency (t : Txn) : t.flushAdjacency.Flushed := by
  rintro (_ | _) <;> rfl

lemma allEntries_of_flushed (h : t.Flushed) (o : Bool) :
    t.allEntries o = t.adj.side o := by
  simp [allEntries, h o]

lemma allEntries_appendAdj (src dst : NodeId) (ty : TypeId) (id : EdgeId) (props : Props)
    (t : Txn) (o : Bool) : (t.appendAdj src dst ty id).allEntries o =
      insert (EdgeRecord.entry o id ⟨src, dst, ty, props⟩) (t.allEntries o) := by
  cases o <;> simp [allEntries, appendAdj, Adjacency.side, AdjBuffer.side, EdgeRecord.entry,
    Finset.insert_union]

lemma allEntries_deferAdj (src dst : NodeId) (ty : TypeId) (id : EdgeId) (props : Props)
    (t : Txn) (o : Bool) : (t.deferAdj src dst ty id).allEntries o =
      insert (EdgeRecord.entry o id ⟨src, dst, ty, props⟩) (t.allEntries o) := by
  have hbuffered : allEntries { t with buffer := { t.buffer with
      pendingOut := t.buffer.pendingOut ++ [(src, ⟨ty, dst, id⟩)]
      pendingIn := t.buffer.pendingIn ++ [(dst, ⟨ty, src, id⟩)] } } o =
        insert (EdgeRecord.entry o id ⟨src, dst, ty, props⟩) (t.allEntries o) := by
    ext x
    cases o <;> simp [allEntries, AdjBuffer.side, EdgeRecord.entry, Adjacency.side]
  simp only [deferAdj]
  split
  · rw [allEntries_flushAdjacency, hbuffered]
  · exact hbuffered

/-- The working state is sound, both directions list the stored edges, and the endpoints of every
edge exist. -/
structure Sound (t : Txn) : Prop where
  work : t.work.Sound
  lists : ∀ o, Lists o (t.allEntries o) t.work.tables.edges
  ends : ∀ id r, t.work.tables.edges.get id = some r →
    (t.work.tables.nodes.get r.src).isSome ∧ (t.work.tables.nodes.get r.dst).isSome

/-- Writing the buffer keeps the transaction sound. -/
theorem Sound.flushAdjacency (h : t.Sound) : t.flushAdjacency.Sound where
  work := h.work
  lists o := by
    rw [allEntries_flushAdjacency]
    exact h.lists o
  ends := h.ends

/-- A step of the working state that keeps the edges' endpoints and the existing nodes keeps the
transaction sound. -/
theorem Sound.of_work (h : t.Sound) {w : Working} (hw : w.Sound)
    (hedges : w.edgeView = t.work.edgeView)
    (hnodes : ∀ n, (t.work.tables.nodes.get n).isSome → (w.tables.nodes.get n).isSome) :
    Sound { t with work := w } := by
  have hedges' : w.tables.edges = t.work.tables.edges := congrArg EdgeView.edges hedges
  refine ⟨hw, fun o => ?_, fun id r hget => ?_⟩
  · change Lists o (t.allEntries o) w.tables.edges
    rw [hedges']
    exact h.lists o
  · obtain ⟨hsrc, hdst⟩ := h.ends id r (hedges' ▸ hget)
    exact ⟨hnodes _ hsrc, hnodes _ hdst⟩

/-! ## Deleting a node -/

/-- Remove one edge of a node that is being deleted, found in direction `outgoing`. -/
def dropIncident (outgoing : Bool) (n : NodeId) (t : Txn) (e : AdjEntry) : Txn :=
  if outgoing then t.dropOutEdge n e else t.dropInEdge n e

section DropIncident

variable (o : Bool) (n : NodeId) (t : Txn) (e : AdjEntry)

lemma work_dropIncident :
    (t.dropIncident o n e).work = t.work.dropEdge e.edgeId e.edgeType := by
  cases o <;> rfl

lemma buffer_dropIncident : (t.dropIncident o n e).buffer = t.buffer := by
  cases o <;> rfl

lemma side_dropIncident_self : (t.dropIncident o n e).adj.side o = t.adj.side o := by
  cases o <;> rfl

lemma side_dropIncident_not :
    (t.dropIncident o n e).adj.side (!o) =
      (t.adj.side (!o)).erase (e.other, ⟨e.edgeType, n, e.edgeId⟩) := by
  cases o <;> rfl

end DropIncident

/-- What holds while the edges of `n` in direction `o` are dropped, with the entries `rest` still
to come: the node side is untouched since `t₀`, `rest` are the entries of the edges left at `n`,
no edge is new, and both directions list the edges: direction `o` away from `n`, where stale
entries stay, and the other one wherever it did before. -/
structure Dropping (K : NodeId × AdjEntry → Prop) (o : Bool) (n : NodeId) (rest : List AdjEntry)
    (t₀ t : Txn) : Prop where
  nodes : t.work.nodeView = t₀.work.nodeView
  edges : t.work.edgeView.Sound
  memo : t.work.MemoSound
  known : t.work.knownNodes = t₀.work.knownNodes
  buffer : t.buffer = t₀.buffer
  nodup : rest.Nodup
  rest_iff : ∀ e, e ∈ rest ↔
    ∃ id r, t.work.tables.edges.get id = some r ∧ r.entry o id = (n, e)
  self : ListsOn (fun x => x.1 ≠ n) o (t.adj.side o) t.work.tables.edges
  other : ListsOn K (!o) (t.adj.side (!o)) t.work.tables.edges
  sub : ∀ id r, t.work.tables.edges.get id = some r → t₀.work.tables.edges.get id = some r

namespace Dropping

variable {K : NodeId × AdjEntry → Prop} {o : Bool} {n : NodeId} {e : AdjEntry}
  {rest : List AdjEntry} {t₀ t : Txn}

/-- The next entry is that of a stored edge. -/
theorem get_head (h : Dropping K o n (e :: rest) t₀ t) :
    ∃ r, t.work.tables.edges.get e.edgeId = some r ∧ r.entry o e.edgeId = (n, e) ∧
      r.edgeType = e.edgeType := by
  obtain ⟨id, r, hget, hentry⟩ := (h.rest_iff e).mp mem_cons_self
  have hid : e.edgeId = id := by simpa using (congrArg (·.2.edgeId) hentry).symm
  have hty : e.edgeType = r.edgeType := by simpa using (congrArg (·.2.edgeType) hentry).symm
  exact ⟨r, hid ▸ hget, hid ▸ hentry, hty.symm⟩

/-- The count that the next step decrements is positive. -/
theorem count_pos (h : Dropping K o n (e :: rest) t₀ t) :
    1 ≤ t.work.edgeView.typeCount e.edgeType := by
  obtain ⟨r, hget, -, hty⟩ := h.get_head
  exact h.edges.count_pos hget hty

/-- One edge is dropped. -/
theorem step (h : Dropping K o n (e :: rest) t₀ t) :
    Dropping K o n rest t₀ (t.dropIncident o n e) := by
  obtain ⟨r, hget, hentry, hty⟩ := h.get_head
  obtain ⟨hnotmem, hnodup⟩ := nodup_cons.mp h.nodup
  have hwork : (t.dropIncident o n e).work = t.work.dropEdge e.edgeId r.edgeType := by
    rw [work_dropIncident, hty]
  obtain ⟨hnodes, hedges, hmemo⟩ := Working.dropEdge_spec h.edges h.memo hget
  rw [← hwork] at hnodes hedges hmemo
  have hrecords : (t.dropIncident o n e).work.tables.edges = t.work.tables.edges.erase e.edgeId :=
    congrArg EdgeView.edges hedges
  refine ⟨hnodes.trans h.nodes, ?_, hmemo, ?_, (buffer_dropIncident o n t e).trans h.buffer,
    hnodup, fun e' => ?_, ?_, ?_, fun id' r' hget' => ?_⟩
  · rw [hedges]
    exact h.edges.remove hget
  · rw [hwork, Working.knownNodes_dropEdge, h.known]
  · rw [hrecords]
    constructor
    · intro hmem
      obtain ⟨id', r', hget', hentry'⟩ := (h.rest_iff e').mp (mem_cons_of_mem _ hmem)
      have hne : id' ≠ e.edgeId := by
        rintro rfl
        obtain rfl := some.inj (hget.symm.trans hget')
        have heq : e = e' := congrArg Prod.snd (hentry.symm.trans hentry')
        exact hnotmem (heq ▸ hmem)
      exact ⟨id', r', by simpa [hne] using hget', hentry'⟩
    · rintro ⟨id', r', hget', hentry'⟩
      rw [Table.get_erase] at hget'
      split at hget'
      next => cases hget'
      next hne =>
        have hmem := (h.rest_iff e').mpr ⟨id', r', hget', hentry'⟩
        refine (mem_cons.mp hmem).resolve_left fun heq => hne ?_
        rw [heq, ← hentry] at hentry'
        simpa using congrArg (·.2.edgeId) hentry'
  · rw [hrecords, side_dropIncident_self]
    exact h.self.erase_of_not hget (by rw [hentry]; simp)
  · rw [hrecords, side_dropIncident_not, ← EdgeRecord.entry_not hentry]
    exact h.other.erase hget
  · rw [hrecords, Table.get_erase] at hget'
    split at hget'
    · cases hget'
    · exact h.sub id' r' hget'

/-- Walking a part of the entries drops their edges. -/
theorem run {pre : List AdjEntry} (h : Dropping K o n (pre ++ rest) t₀ t) :
    Dropping K o n rest t₀ (pre.foldl (dropIncident o n) t) := by
  induction pre generalizing t with
  | nil => exact h
  | cons e pre ih => exact ih h.step

/-- Once all entries are walked, no edge is left at the node in this direction. -/
theorem gone (h : Dropping K o n [] t₀ t) {id : EdgeId} {r : EdgeRecord}
    (hget : t.work.tables.edges.get id = some r) : (r.entry o id).1 ≠ n := by
  intro hn
  have hmem := (h.rest_iff (r.entry o id).2).mpr ⟨id, r, hget, by rw [← hn]⟩
  cases hmem

end Dropping

lemma mem_entries {a : Adjacency} {e : AdjEntry} :
    e ∈ a.entries n o ↔ (n, e) ∈ a.side o := by
  simp [Adjacency.entries]

lemma mem_entries_of_lists {K : NodeId × AdjEntry → Prop} {a : Adjacency}
    {edges : Table EdgeId EdgeRecord} (h : ListsOn K o (a.side o) edges) (hK : ∀ e, K (n, e))
    (e : AdjEntry) :
    e ∈ a.entries n o ↔ ∃ id r, edges.get id = some r ∧ r.entry o id = (n, e) := by
  rw [mem_entries, h (n, e) (hK e)]

/-- Erasing a node from both sides of the adjacency leaves exactly the edges away from it. -/
theorem lists_filter {A : Finset (NodeId × AdjEntry)} {edges : Table EdgeId EdgeRecord}
    (h : ListsOn (fun x => x.1 ≠ n) o A edges)
    (hgone : ∀ id r, edges.get id = some r → (r.entry o id).1 ≠ n) :
    Lists o (A.filter (·.1 ≠ n)) edges := by
  intro x _
  rw [Finset.mem_filter]
  constructor
  · rintro ⟨hmem, hne⟩
    exact (h x hne).mp hmem
  · rintro ⟨id, r, hget, rfl⟩
    have hne := hgone id r hget
    exact ⟨(h _ hne).mpr ⟨id, r, hget, rfl⟩, hne⟩

section Nodes

variable [TextLib]

variable {record : NodeRecord} {n : NodeId} {t : Txn}

lemma foldl_leaveLabel_spec {w : Working} (hw : w.Sound)
    (hget : w.tables.nodes.get n = some record) :
    (record.labels.foldl (Working.leaveLabel n record.props) w).nodeView =
        w.nodeView.unlinkAll n record.labels ∧
      (record.labels.foldl (Working.leaveLabel n record.props) w).edgeView = w.edgeView ∧
      (record.labels.foldl (Working.leaveLabel n record.props) w).MemoSound ∧
      (record.labels.foldl (Working.leaveLabel n record.props) w).knownNodes = w.knownNodes := by
  have hbase : (record.labels.foldl (Working.leaveLabel n record.props) w).base =
      (w.unlinkLabels n record.labels).base := by
    rw [Working.foldl_leaveLabel_base, Working.base_unlinkLabels]
  have hmem : ∀ l ∈ record.labels, (l, n) ∈ w.tables.labelIdx := fun l hl =>
    (hw.nodes.labelIdx_iff l n).mpr ⟨record, hget, hl⟩
  obtain ⟨h1, h2, h3⟩ := Working.unlinkLabels_spec record.nodup hmem hw.nodes.count hw.memo
  refine ⟨?_, ?_, Working.memoSound_of_base_eq hbase h3, ?_⟩
  · rw [Working.nodeView_of_base_eq hbase, h1]
  · rw [Working.edgeView_of_base_eq hbase, h2]
  · exact Exec.Keeps.foldl (Working.knownNodes_leaveLabel n record.props) _ _

/-- The state in which the outgoing edges of a node are dropped: both directions list the edges
and can be walked. -/
theorem Sound.dropping_out (h : t.Sound) (hflushed : t.Flushed)
    (hget : t.work.tables.nodes.get n = some record) :
    Dropping (fun _ => True) true n ((t.leaveLabels n record).adj.entries n true)
      (t.leaveLabels n record) (t.leaveLabels n record) := by
  obtain ⟨-, hedges, hmemo, -⟩ := foldl_leaveLabel_spec h.work hget
  have hrecords : (t.leaveLabels n record).work.tables.edges = t.work.tables.edges :=
    congrArg EdgeView.edges hedges
  have hlists : ∀ o, Lists o (t.adj.side o) (t.leaveLabels n record).work.tables.edges := by
    intro o
    rw [hrecords, ← allEntries_of_flushed hflushed o]
    exact h.lists o
  exact
    { nodes := rfl
      edges := hedges ▸ h.work.edges
      memo := hmemo
      known := rfl
      buffer := rfl
      nodup := Finset.ascending_nodup _
      rest_iff := mem_entries_of_lists (hlists true) fun _ => trivial
      self := (hlists true).weaken fun _ _ => trivial
      other := hlists false
      sub := fun _ _ hget => hget }

/-- The state after the outgoing edges are dropped. -/
theorem Sound.dropped_out (h : t.Sound) (hflushed : t.Flushed)
    (hget : t.work.tables.nodes.get n = some record) :
    Dropping (fun _ => True) true n [] (t.leaveLabels n record)
      ((t.leaveLabels n record).dropOutEdges n) :=
  Dropping.run (append_nil _ ▸ h.dropping_out hflushed hget)

/-- The state in which the incoming edges are dropped. The outgoing side is exact away from the
node only. -/
theorem Sound.dropping_in (h : t.Sound) (hflushed : t.Flushed)
    (hget : t.work.tables.nodes.get n = some record) :
    Dropping (fun x => x.1 ≠ n) false n
      (((t.leaveLabels n record).dropOutEdges n).adj.entries n false)
      ((t.leaveLabels n record).dropOutEdges n) ((t.leaveLabels n record).dropOutEdges n) :=
  have hout := h.dropped_out hflushed hget
  { nodes := rfl
    edges := hout.edges
    memo := hout.memo
    known := rfl
    buffer := rfl
    nodup := Finset.ascending_nodup _
    rest_iff := mem_entries_of_lists hout.other fun _ => trivial
    self := hout.other.weaken fun _ _ => trivial
    other := hout.self
    sub := fun _ _ hget => hget }

/-- The deletion of a node removes its record and no other. -/
theorem Sound.nodes_deleteNodeInner (h : t.Sound) (hflushed : t.Flushed) (n : NodeId) :
    (t.deleteNodeInner n).work.tables.nodes = t.work.tables.nodes.erase n := by
  unfold Txn.deleteNodeInner
  split
  next hget => exact (Table.erase_of_get_none _ hget).symm
  next record hget =>
    have hin : Dropping (fun x => x.1 ≠ n) false n [] ((t.leaveLabels n record).dropOutEdges n)
        (((t.leaveLabels n record).dropOutEdges n).dropInEdges n) :=
      Dropping.run (append_nil _ ▸ h.dropping_in hflushed hget)
    have hview : (((t.leaveLabels n record).dropOutEdges n).dropInEdges n).work.nodeView =
        t.work.nodeView.unlinkAll n record.labels :=
      (hin.nodes.trans (h.dropped_out hflushed hget).nodes).trans
        (foldl_leaveLabel_spec h.work hget).1
    have hkeep : (t.work.nodeView.unlinkAll n record.labels).nodes = t.work.nodeView.nodes :=
      (NodeView.unlinkAll_spec record.nodup (fun l hl =>
        (h.work.nodes.labelIdx_iff l n).mpr ⟨record, hget, hl⟩) h.work.nodes.count).1
    have hnodes : (((t.leaveLabels n record).dropOutEdges n).dropInEdges n).work.tables.nodes =
        t.work.tables.nodes := (congrArg NodeView.nodes hview).trans hkeep
    exact congrArg (Table.erase · n) hnodes

/-- The deletion of a node removes it with every edge at it and keeps the transaction sound. It
needs the buffer written and the memo to have forgotten the node. -/
theorem Sound.deleteNodeInner (h : t.Sound) (hflushed : t.Flushed)
    (hknown : n ∉ t.work.knownNodes) :
    (t.deleteNodeInner n).Sound := by
  unfold Txn.deleteNodeInner
  split
  next => exact h
  next record hget =>
    obtain ⟨hn₁, he₁, -, hk₁⟩ := foldl_leaveLabel_spec h.work hget
    have hout := h.dropped_out hflushed hget
    have hin : Dropping (fun x => x.1 ≠ n) false n [] ((t.leaveLabels n record).dropOutEdges n)
        (((t.leaveLabels n record).dropOutEdges n).dropInEdges n) :=
      Dropping.run (append_nil _ ▸ h.dropping_in hflushed hget)
    set t₁ := t.leaveLabels n record
    set t₂ := t₁.dropOutEdges n
    set t₃ := t₂.dropInEdges n
    have hbuffer : t₃.Flushed := by
      intro o
      rw [hin.buffer, hout.buffer]
      exact hflushed o
    have hgone : ∀ o id r, t₃.work.tables.edges.get id = some r → (r.entry o id).1 ≠ n := by
      intro o id r hget₃
      cases o with
      | false => exact hin.gone hget₃
      | true => exact hout.gone (hin.sub id r hget₃)
    have hnodes : t₃.work.nodeView = t.work.nodeView.unlinkAll n record.labels := by
      rw [hin.nodes, hout.nodes]
      exact hn₁
    have hkeep : (t.work.nodeView.unlinkAll n record.labels).nodes = t.work.nodeView.nodes :=
      (NodeView.unlinkAll_spec record.nodup (fun l hl =>
        (h.work.nodes.labelIdx_iff l n).mpr ⟨record, hget, hl⟩) h.work.nodes.count).1
    have hview : (t₃.eraseNode n).work.nodeView =
        { t.work.nodeView.unlinkAll n record.labels with
          nodes := t.work.nodeView.nodes.erase n } := by
      rw [← hkeep, ← hnodes]
      rfl
    refine ⟨⟨?_, hin.edges, ?_⟩, fun o => ?_, fun id r hget₃ => ?_⟩
    · rw [hview]
      exact h.work.nodes.delete hget
    · intro c hc
      have hsound := hin.memo c hc
      refine ⟨hsound.types, fun m hm => ?_, hsound.indexes⟩
      have hmk : m ∈ t.work.knownNodes := by
        rw [← hk₁]
        change m ∈ t₁.work.knownNodes
        rw [← hout.known, ← hin.known]
        simp [Working.knownNodes, show t₃.work.memo = some c from hc, hm]
      have hne : m ≠ n := fun heq => hknown (heq ▸ hmk)
      have hm' := hsound.known m hm
      simpa [eraseNode, hne] using hm'
    · have hlist : ListsOn (fun x => x.1 ≠ n) o (t₃.adj.side o) t₃.work.tables.edges := by
        cases o with
        | false => exact hin.self
        | true => exact hin.other
      have hside : (t₃.eraseNode n).allEntries o = (t₃.adj.side o).filter (·.1 ≠ n) := by
        rw [allEntries_of_flushed (t := t₃.eraseNode n) hbuffer]
        cases o <;> rfl
      rw [hside]
      exact lists_filter hlist (hgone o)
    · have hget₀ : t.work.tables.edges.get id = some r := by
        have hrecords : t₁.work.tables.edges = t.work.tables.edges := congrArg EdgeView.edges he₁
        rw [← hrecords]
        exact hout.sub id r (hin.sub id r hget₃)
      obtain ⟨hsrc, hdst⟩ := h.ends id r hget₀
      have hne : r.src ≠ n := hgone true id r hget₃
      have hne' : r.dst ≠ n := hgone false id r hget₃
      rw [show (t₃.eraseNode n).work.tables.nodes = t.work.tables.nodes.erase n from
        congrArg NodeView.nodes hview, Table.get_erase_of_ne _ hne, Table.get_erase_of_ne _ hne']
      exact ⟨hsrc, hdst⟩

end Nodes

/-! ## Edges -/

/-- An edge insertion that succeeds: the working state first, then the entries, then the count. -/
theorem addEdgeInner_ok {src dst : NodeId} {etype : String} {t t' : Txn} {id : EdgeId} {ty : TypeId}
    (h : addEdgeInner src dst etype props t = (.ok (id, ty), t')) :
    ∃ w, Working.insertEdge src dst etype props t.work = (.ok (id, ty), w) ∧
      t'.work = w.bumpTypeCount ty 1 ∧
      t'.buffer.bulk = t.buffer.bulk ∧
      ∀ o, t'.allEntries o = insert (EdgeRecord.entry o id ⟨src, dst, ty, props⟩)
        (t.allEntries o) := by
  obtain ⟨⟨id', ty'⟩, t₁, hinsert, h⟩ := Exec.bind_eq_ok.mp h
  obtain ⟨w, hw, rfl⟩ := Exec.zoom_eq_ok.mp hinsert
  obtain ⟨_, t₂, hadj, h⟩ := Exec.bind_eq_ok.mp h
  obtain ⟨_, t₃, hcount, h⟩ := Exec.bind_eq_ok.mp h
  obtain rfl := congrArg Prod.snd hadj
  obtain rfl := congrArg Prod.snd hcount
  obtain ⟨hres, rfl⟩ := Prod.mk.injEq .. ▸ h
  obtain ⟨rfl, rfl⟩ := Prod.mk.injEq .. ▸ Except.ok.inj hres
  refine ⟨w, hw, ?_, ?_, fun o => ?_⟩
  · simp only [Exec.modify_apply, onWork, Exec.zoom]
    split
    · simp only [deferAdj]
      split <;> rfl
    · rfl
  · simp only [Exec.modify_apply, onWork, Exec.zoom]
    split
    · simp only [deferAdj]
      split <;> rfl
    · rfl
  · change allEntries (if t.buffer.bulk = true then _ else _) o = _
    split
    · exact allEntries_deferAdj src dst ty' id' props { t with work := w } o
    · exact allEntries_appendAdj src dst ty' id' props { t with work := w } o

lemma Sound.addEdgeInner {t t' : Txn} (h : t.Sound) {src dst : NodeId} {etype : String}
    {id : EdgeId} {ty : TypeId} (hadd : Txn.addEdgeInner src dst etype props t =
      (.ok (id, ty), t')) :
    t'.Sound := by
  obtain ⟨w, hinsert, hwork, -, hentries⟩ := addEdgeInner_ok hadd
  obtain ⟨hsound, hnodes, hid, hsrc, hdst, hedges⟩ := Working.insertEdge_spec h.work hinsert
  rw [← hwork] at hsound hnodes hedges
  have hnew : t.work.tables.edges.get id = none := by
    rw [hid]
    exact h.work.edges.get_nextEdge
  have hnodes' : t'.work.tables.nodes = t.work.tables.nodes := congrArg NodeView.nodes hnodes
  refine ⟨hsound, fun o => ?_, fun id' r hget => ?_⟩
  · rw [hentries, hedges]
    exact (h.lists o).insert hnew
  · rw [hedges, Table.get_put] at hget
    rw [hnodes']
    split at hget
    next =>
      obtain rfl := some.inj hget
      exact ⟨hsrc, hdst⟩
    next => exact h.ends id' r hget

lemma Sound.deleteEdgeInner (h : t.Sound) (hflushed : t.Flushed) (id : EdgeId) :
    (t.deleteEdgeInner id).2.Sound := by
  unfold Txn.deleteEdgeInner
  split
  next => exact h
  next record hget =>
    obtain ⟨hnodes, hedges, hmemo⟩ := Working.dropEdge_spec h.work.edges h.work.memo hget
    have hrecords : (t.work.dropEdge id record.edgeType).tables.edges =
        t.work.tables.edges.erase id := congrArg EdgeView.edges hedges
    have hnodes' : (t.work.dropEdge id record.edgeType).tables.nodes = t.work.tables.nodes :=
      congrArg NodeView.nodes hnodes
    refine ⟨⟨?_, ?_, hmemo⟩, fun o => ?_, fun id' r hget' => ?_⟩
    · rw [hnodes]
      exact h.work.nodes
    · rw [hedges]
      exact h.work.edges.remove hget
    · have hlist := (h.lists o).erase hget
      rw [allEntries_of_flushed hflushed, ← hrecords] at hlist
      rw [allEntries_of_flushed]
      · cases o <;> exact hlist
      · exact hflushed
    · rw [hrecords, Table.get_erase] at hget'
      split at hget'
      · cases hget'
      · rw [hnodes']
        exact h.ends id' r hget'

/-! ## Every mutation -/

lemma Sound.evolve (h : t.Sound) {s : Tables} (hs : t.work.tables.Evolves s)
    (hidx : t.work.memo = none ∨ s.metaDb.idxEdge = t.work.tables.metaDb.idxEdge) :
    Sound { t with work := { t.work with tables := s } } := by
  refine ⟨Working.sound_of_evolves h.work hs hidx, fun o => ?_, fun id r hget => ?_⟩
  · change Lists o (t.allEntries o) s.edges
    rw [hs.edges]
    exact h.lists o
  · change s.edges.get id = some r at hget
    change (s.nodes.get _).isSome ∧ (s.nodes.get _).isSome
    rw [hs.edges] at hget
    rw [hs.nodes]
    exact h.ends id r hget

/-- What precedes a deletion keeps the transaction sound. -/
theorem Sound.prepare (h : t.Sound) (m : Mutation) : (m.prepare t).Sound := by
  cases m with
  | deleteNode n =>
    refine Sound.flushAdjacency (t := { t with work := t.work.invalidateNodes }) ?_
    refine ⟨⟨?_, ?_, fun c' hc' => ?_⟩, h.lists, h.ends⟩
    · obtain ⟨⟨s, memo⟩, adj, buffer⟩ := t
      cases memo <;> exact h.work.nodes
    · obtain ⟨⟨s, memo⟩, adj, buffer⟩ := t
      cases memo <;> exact h.work.edges
    · obtain ⟨c, hc, rfl⟩ := map_eq_some_iff.mp hc'
      exact ⟨(h.work.memo c hc).types, by simp, (h.work.memo c hc).indexes⟩
  | deleteEdge id => exact h.flushAdjacency
  | _ => exact h

variable [TextLib]

lemma Sound.addNodeInner (h : t.Sound) {labels : List String} {w : Working}
    (hadd : Working.addNodeInner labels props t.work = (.ok n, w)) :
    Sound { t with work := w } := by
  obtain ⟨hsound, hedge, -, record, -, hnodes⟩ := Working.addNodeInner_spec h.work hadd
  exact h.of_work hsound hedge fun m hm => hnodes ▸ Table.isSome_get_put hm

/-- **Step.** Every mutation that succeeds keeps the transaction sound. -/
theorem Sound.exec {m : Mutation} {t t' : Txn} {r : m.Result} (h : t.Sound)
    (hexec : m.exec (m.prepare t) = (.ok r, t')) : t'.Sound := by
  have hp := h.prepare m
  cases m with
  | addNode label props =>
    change onWork (Working.addNodeInner [label] props) t = _ at hexec
    obtain ⟨w, hw, rfl⟩ := Exec.zoom_eq_ok.mp hexec
    exact h.addNodeInner hw
  | addNodeMulti labels props =>
    change onWork (Working.addNodeInner labels props) t = _ at hexec
    obtain ⟨w, hw, rfl⟩ := Exec.zoom_eq_ok.mp hexec
    exact h.addNodeInner hw
  | updateNode n props =>
    change onWork (Working.updateNodeImpl n props) t = _ at hexec
    obtain ⟨w, hw, rfl⟩ := Exec.zoom_eq_ok.mp hexec
    obtain ⟨hsound, hedge, record, -, hnodes⟩ := Working.updateNodeImpl_spec h.work hw
    exact h.of_work hsound hedge fun m hm => hnodes ▸ Table.isSome_get_put hm
  | addLabel n label =>
    change onWork (Working.addLabelInner n label) t = _ at hexec
    obtain ⟨w, hw, rfl⟩ := Exec.zoom_eq_ok.mp hexec
    obtain ⟨hsound, hedge, hnodes⟩ := Working.addLabelInner_spec h.work hw
    exact h.of_work hsound hedge fun m hm => by
      have hsome := congrArg Option.isSome (hnodes m)
      rw [isSome_map, isSome_map] at hsome
      exact hsome.trans hm
  | removeLabel n label =>
    obtain rfl := congrArg Prod.snd hexec
    obtain ⟨hsound, hedge, hnodes⟩ := Working.removeLabelInner_spec h.work n label
    exact h.of_work hsound hedge fun m hm => by
      have hsome := congrArg Option.isSome (hnodes m)
      rw [isSome_map, isSome_map] at hsome
      exact hsome.trans hm
  | deleteNode n =>
    obtain rfl := congrArg Prod.snd hexec
    refine hp.deleteNodeInner (flushed_flushAdjacency _) ?_
    change n ∉ t.work.invalidateNodes.knownNodes
    simp
  | addEdge src dst etype props =>
    obtain ⟨id, ty⟩ := r
    exact h.addEdgeInner hexec
  | updateEdge id props =>
    change onWork (Working.updateEdgeImpl id props) t = _ at hexec
    obtain ⟨w, hw, rfl⟩ := Exec.zoom_eq_ok.mp hexec
    obtain ⟨hsound, hnodes, record, hget, hedges⟩ := Working.updateEdgeImpl_spec h.work hw
    have hnodes' : w.tables.nodes = t.work.tables.nodes := congrArg NodeView.nodes hnodes
    refine ⟨hsound, fun o => ?_, fun id' r hget' => ?_⟩
    · change Lists o (t.allEntries o) w.tables.edges
      rw [hedges]
      exact (h.lists o).replace hget (by cases o <;> rfl)
    · change w.tables.edges.get id' = some r at hget'
      change (w.tables.nodes.get _).isSome ∧ (w.tables.nodes.get _).isSome
      rw [hedges, Table.get_put] at hget'
      rw [hnodes']
      split at hget'
      next =>
        obtain rfl := some.inj hget'
        exact h.ends id record hget
      next => exact h.ends id' r hget'
  | deleteEdge id =>
    obtain rfl := congrArg Prod.snd hexec
    exact hp.deleteEdgeInner (flushed_flushAdjacency _) id
  | putVectorBytes n bytes =>
    obtain rfl := congrArg Prod.snd hexec
    exact h.evolve ⟨rfl, .refl _, .refl _⟩ (.inr rfl)
  | deleteVectorBytes n =>
    obtain rfl := congrArg Prod.snd hexec
    exact h.evolve ⟨rfl, .refl _, .refl _⟩ (.inr rfl)
  | createNodeTextIndex label property lang =>
    change onWork (onTables (Tables.createNodeTextIndex label property lang)) t = _ at hexec
    obtain ⟨w, hw, rfl⟩ := Exec.zoom_eq_ok.mp hexec
    obtain ⟨s, hs, rfl⟩ := Exec.zoom_eq_ok.mp hw
    obtain ⟨hevolves, -, hidx⟩ := Tables.evolves_createNodeTextIndex hs
    exact h.evolve hevolves (.inr hidx)
  | dropNodeTextIndex label property =>
    obtain rfl := congrArg Prod.snd hexec
    obtain ⟨hevolves, -, hidx⟩ := t.work.tables.evolves_dropNodeTextIndex label property
    exact h.evolve hevolves (.inr hidx)

end Txn

/-! ## Runs -/

def Storage.Sound (s : Storage) : Prop := (Txn.begin s none).Sound

lemma Storage.sound_empty : Storage.empty.Sound := by
  have hnodes : Working.nodeView ⟨Storage.empty.tables, none⟩ =
      ⟨.empty, 0, .empty, ∅, fun _ => 0⟩ := rfl
  have hedges : Working.edgeView ⟨Storage.empty.tables, none⟩ =
      ⟨.empty, 0, .empty, fun _ => 0⟩ := rfl
  refine ⟨⟨?_, ?_, fun c hc => by cases hc⟩, fun o x _ => ?_, fun id r hget => by cases hget⟩
  · change (Working.nodeView ⟨Storage.empty.tables, none⟩).Sound
    rw [hnodes]
    refine ⟨by simp, ?_, ?_, ?_⟩
    · rintro n l ⟨r, hget, -⟩
      cases hget
    · simp [NodeView.Carries]
    · intro l
      rfl
  · change (Working.edgeView ⟨Storage.empty.tables, none⟩).Sound
    rw [hedges]
    exact ⟨by simp, by simp, fun t => rfl⟩
  · cases o <;> simp [Txn.allEntries, Txn.begin, Storage.empty, Adjacency.side, AdjBuffer.side,
      AdjBuffer.empty]

/-- The edge table and the two adjacency tables agree. An edge is stored with its endpoints and
type iff it has exactly one entry under its source and one under its target; every entry belongs
to a stored edge; the endpoints of every stored edge exist. -/
structure Storage.AdjacencyAgrees (s : Storage) : Prop where
  edge_iff : ∀ id src dst ty,
    (∃ props, s.tables.edges.get id = some ⟨src, dst, ty, props⟩) ↔
      (s.adj.entries src true).count ⟨ty, dst, id⟩ = 1 ∧
      (s.adj.entries dst false).count ⟨ty, src, id⟩ = 1
  only : ∀ o n e, e ∈ s.adj.entries n o →
    ∃ r, s.tables.edges.get e.edgeId = some r ∧ r.entry o e.edgeId = (n, e)
  ends : ∀ id r, s.tables.edges.get id = some r →
    (s.tables.nodes.get r.src).isSome ∧ (s.tables.nodes.get r.dst).isSome

lemma Storage.Sound.adjacencyAgrees {s : Storage} (h : s.Sound) : s.AdjacencyAgrees := by
  have hlists : ∀ o, Lists o (s.adj.side o) s.tables.edges := by
    intro o
    have hlist := h.lists o
    rwa [Txn.allEntries_of_flushed (by rintro (_ | _) <;> rfl)] at hlist
  have hmem : ∀ o n e, e ∈ s.adj.entries n o ↔
      ∃ id r, s.tables.edges.get id = some r ∧ r.entry o id = (n, e) := fun o n e =>
    Txn.mem_entries_of_lists (hlists o) (fun _ => trivial) e
  have hcount : ∀ o n e, (s.adj.entries n o).count e = 1 ↔ e ∈ s.adj.entries n o := by
    intro o n e
    constructor
    · intro hc
      exact count_pos_iff.mp (by omega)
    · exact count_eq_one_of_mem (Finset.ascending_nodup _)
  refine ⟨fun id src dst ty => ?_, fun o n e he => ?_, h.ends⟩
  · rw [hcount, hcount, hmem, hmem]
    constructor
    · rintro ⟨props, hget⟩
      exact ⟨⟨id, _, hget, rfl⟩, ⟨id, _, hget, rfl⟩⟩
    · rintro ⟨⟨id', ⟨src', dst', ty', props⟩, hget, hentry⟩, -⟩
      obtain ⟨rfl, hadj⟩ := Prod.mk.injEq .. ▸ hentry
      obtain ⟨rfl, rfl, rfl⟩ := AdjEntry.mk.injEq .. ▸ hadj
      exact ⟨props, hget⟩
  · obtain ⟨id, r, hget, hentry⟩ := (hmem o n e).mp he
    have hid : e.edgeId = id := by simpa using (congrArg (·.2.edgeId) hentry).symm
    exact ⟨r, hid ▸ hget, hid ▸ hentry⟩

namespace Graph

variable [TextLib]

lemma sound_invariant :
    Invariant (fun _ => True) (fun _ _ => True) Txn.Sound Storage.Sound where
  begin_plain h := h
  begin_batch {s} h := by
    refine ⟨⟨h.work.nodes, h.work.edges, fun c hc => ?_⟩, h.lists, h.ends⟩
    obtain rfl := some.inj hc
    exact ⟨by simp [BatchMemo.empty], by simp [BatchMemo.empty], by simp [BatchMemo.empty]⟩
  exec _ h hexec := h.exec hexec
  bulk h := ⟨h.work, h.lists, h.ends⟩
  commit {t} h := by
    have hf := h.flushAdjacency
    obtain ⟨hnodes, hedges⟩ := Working.flushCounters_spec hf.work
    have hrecords : t.flush.work.tables.edges = t.work.tables.edges :=
      congrArg EdgeView.edges hedges
    have hrecords' : t.flush.work.tables.nodes = t.work.tables.nodes :=
      congrArg NodeView.nodes hnodes
    refine ⟨⟨?_, ?_, fun c hc => by cases hc⟩, fun o => ?_, fun id r hget => ?_⟩
    · exact hnodes ▸ hf.work.nodes
    · exact hedges ▸ hf.work.edges
    · have hlist := hf.lists o
      rw [Txn.allEntries_of_flushed (Txn.flushed_flushAdjacency t)] at hlist
      rw [Txn.allEntries_of_flushed]
      · change Lists o (t.flushAdjacency.adj.side o) t.flush.work.tables.edges
        rw [hrecords]
        exact hlist
      · rintro (_ | _) <;> rfl
    · change t.flush.work.tables.edges.get id = some r at hget
      change (t.flush.work.tables.nodes.get _).isSome ∧ (t.flush.work.tables.nodes.get _).isSome
      rw [hrecords] at hget
      rw [hrecords']
      exact h.ends id r hget
  commitGen h := ⟨⟨h.work.nodes, h.work.edges, fun c hc => by cases hc⟩, h.lists, h.ends⟩
  ddl _ h hexec := h.evolve (Ddl.evolves hexec) (.inl rfl)

lemma sound_run (actions : List Action) : (run actions .empty).storage.Sound :=
  sound_invariant.run (admissible_of_forall (fun _ => trivial) (fun _ _ => trivial) actions _)
    Storage.sound_empty

lemma adjacencyAgrees_run (actions : List Action) :
    (run actions .empty).storage.AdjacencyAgrees := (sound_run actions).adjacencyAgrees

/-- **Adjacency consistency.** After every run from the empty database the edge table and the
adjacency tables agree. In an open transaction without a failed mutation they agree once the
buffered entries are written. -/
theorem adjacency_consistent (actions : List Action) :
    (run actions .empty).storage.AdjacencyAgrees ∧
      ∀ {α : Type} (p : Prog α) (w : WriteTxn),
        (p.run (.begin (run actions .empty).storage)).2 = w → w.failed = false →
          w.txn.flush.storage.AdjacencyAgrees := by
  have hsound := sound_run actions
  refine ⟨hsound.adjacencyAgrees, fun p w hw hfailed => ?_⟩
  subst hw
  have htxn := sound_invariant.txn_run p hfailed (fun _ _ _ => trivial)
    (sound_invariant.begin_batch hsound)
  exact (sound_invariant.commit htxn).adjacencyAgrees

end Graph

end IssunDB
