import IssunDB.BulkLoad
import IssunDB.Cypher.DeleteTargets

/-!
# Deleting what rows list

A `DELETE` first deletes every relationship that its rows list, then every node. With `DETACH` the
relationships of a listed node are deleted before it; without it a listed node that still has one
fails the clause.

* `removes_deleteEdge`, `removes_deleteNode` — what the deletions of a transaction remove.
* `removes_deleteDetached`, `run_deleteConnected` — what the deletion of the listed nodes removes,
  and when it fails.
* `delete_over_rows` — when the clause succeeds, what it leaves, and that no order of the rows or of
  the targets changes its outcome.
-/

namespace IssunDB.Cypher

open List Option

/-! ## Applying -/

/-- Perform a step for each item, up to the first that fails. -/
def forEach {α : Type} (f : α → Prog Unit) : List α → Prog Unit
  | [] => .done (.ok ())
  | a :: l => Prog.bind (f a) fun _ => forEach f l

def deleteEdge (id : EdgeId) : Prog Unit :=
  .call (.mutation (.deleteEdge id)) fun r => .done (r.map fun _ => ())

def deleteNode (n : NodeId) : Prog Unit := .call (.mutation (.deleteNode n)) .done

def neighbors (n : NodeId) (outgoing : Bool) : Prog (List NeighborEntry) :=
  if outgoing then .call (.read (.outNeighbors n)) .done else .call (.read (.inNeighbors n)) .done

/-- `DELETE_CONNECTED_NODE_MSG`. -/
def deleteConnectedNode : Error := .invalidArgument
  ("ConstraintVerificationFailed: DeleteConnectedNode: Cannot delete node, because it still has " ++
    "relationships. To delete this node, you must first delete its relationships.")

/-- Delete the relationships of a node in one direction. -/
def detach (n : NodeId) (outgoing : Bool) : Prog Unit :=
  Prog.bind (neighbors n outgoing) fun found => forEach (fun ne => deleteEdge ne.edge) found

/-- Fail if a node has a relationship. -/
def refuseConnected (n : NodeId) : Prog Unit :=
  Prog.bind (neighbors n true) fun found =>
    if found ≠ [] then .done (.error deleteConnectedNode)
    else
      Prog.bind (neighbors n false) fun found =>
        if found ≠ [] then .done (.error deleteConnectedNode) else .done (.ok ())

def deleteListedNode (detached : Bool) (n : NodeId) : Prog Unit :=
  if detached then
    Prog.bind (detach n true) fun _ => Prog.bind (detach n false) fun _ => deleteNode n
  else Prog.bind (refuseConnected n) fun _ => deleteNode n

/-- `delete_over_paths_in`. -/
def deleteOverPathsIn (evaluate : PathMap → Expr → Except String Json) (paths : List PathMap)
    (targets : List Expr) (detached : Bool) : Prog Unit :=
  match gatherRows evaluate targets paths ⟨[], []⟩ with
  | .error text => .done (.error (.invalidArgument text))
  | .ok t =>
    Prog.bind (forEach deleteEdge t.edges) fun _ => forEach (deleteListedNode detached) t.nodes

/-! ## What a transaction loses -/

/-- The relationships of a transaction whose records satisfy a condition. -/
def relationships (t : Txn) (P : EdgeRecord → Prop) : Set EdgeId :=
  {id | ∃ r, t.work.tables.edges.get id = some r ∧ P r}

/-- The relationships at some nodes. -/
def incident (t : Txn) (N : Set NodeId) : Set EdgeId :=
  relationships t fun r => r.src ∈ N ∨ r.dst ∈ N

/-- A transaction holds what another held, without some nodes and some relationships. -/
structure Removes (N : Set NodeId) (E : Set EdgeId) (t t' : Txn) : Prop where
  node : ∀ n r, t'.work.tables.nodes.get n = some r ↔ n ∉ N ∧ t.work.tables.nodes.get n = some r
  edge : ∀ id r, t'.work.tables.edges.get id = some r ↔
    id ∉ E ∧ t.work.tables.edges.get id = some r

namespace Removes

variable {N N' : Set NodeId} {E E' : Set EdgeId} {t t' t'' : Txn}

lemma refl (t : Txn) : Removes ∅ ∅ t t := ⟨fun _ _ => by simp, fun _ _ => by simp⟩

lemma trans (h : Removes N E t t') (h' : Removes N' E' t' t'') :
    Removes (N ∪ N') (E ∪ E') t t'' where
  node n r := by
    rw [h'.node, h.node, Set.mem_union, not_or]
    tauto
  edge id r := by
    rw [h'.edge, h.edge, Set.mem_union, not_or]
    tauto

/-- Of the relationships with a property those are left that are not lost. -/
theorem relationships (h : Removes N E t t') (P : EdgeRecord → Prop) :
    relationships t' P = relationships t P \ E := by
  ext id
  simp only [Cypher.relationships, Set.mem_ofPred_eq, h.edge, Set.mem_sdiff]
  constructor
  · rintro ⟨r, ⟨hid, hget⟩, hP⟩
    exact ⟨⟨r, hget, hP⟩, hid⟩
  · rintro ⟨⟨r, hget, hP⟩, hid⟩
    exact ⟨r, ⟨hid, hget⟩, hP⟩

lemma incident (h : Removes N E t t') (M : Set NodeId) : incident t' M = incident t M \ E :=
  h.relationships _

/-- **What is left is determined by what is lost.** -/
theorem unique (h : Removes N E t t') (h' : Removes N E t t'') :
    t'.work.tables.nodes = t''.work.tables.nodes ∧
    t'.work.tables.edges = t''.work.tables.edges := by
  constructor
  · ext n r
    rw [h.node, h'.node]
  · ext id r
    rw [h.edge, h'.edge]

end Removes

section Runs

variable [TextLib]

/-- A transaction that can go on: its tables fit together and no mutation has failed. -/
structure Usable (w : WriteTxn) : Prop where
  sound : w.txn.Sound
  /-- The buffered entries of both directions come together. -/
  buffered : ∃ t, BulkRel w.txn t
  unfailed : w.failed = false

/-- A closure succeeds and removes some nodes and relationships. -/
def Loses (p : Prog Unit) (N : Set NodeId) (E : Set EdgeId) (w : WriteTxn) : Prop :=
  ∃ w', p.run w = (.ok (), w') ∧ Usable w' ∧ Removes N E w.txn w'.txn

variable {w : WriteTxn} {N N' : Set NodeId} {E E' : Set EdgeId}

variable {p q : Prog Unit} {n : NodeId} {α : Type}

lemma Loses.bind (h : Loses p N E w)
    (hq : ∀ w', Usable w' → Removes N E w.txn w'.txn → Loses q N' E' w') :
    Loses (Prog.bind p fun _ => q) (N ∪ N') (E ∪ E') w := by
  obtain ⟨w', hrun, hw', hremoves⟩ := h
  obtain ⟨w'', hrun', hw'', hremoves'⟩ := hq w' hw' hremoves
  refine ⟨w'', ?_, hw'', hremoves.trans hremoves'⟩
  rw [Prog.run_bind, hrun]
  exact hrun'

/-- A mutation that succeeds leaves the transaction usable. -/
theorem exec_mutation (hw : Usable w) {m : Mutation} {r : m.Result} {t : Txn}
    (h : m.exec (m.prepare w.txn) = (.ok r, t)) :
    ∃ w', (TxnOp.mutation m).exec w = (.ok r, w') ∧ w'.txn = t ∧ Usable w' := by
  obtain ⟨t', hrel⟩ := hw.buffered
  have hbuffered := (hrel.exec hw.sound m).2
  rw [h] at hbuffered
  refine ⟨⟨t, w.mutationsCount + 1, false, m.stage r w.delta⟩, ?_, rfl,
    ⟨hw.sound.exec h, ⟨_, hbuffered⟩, rfl⟩⟩
  show WriteTxn.mutate (WriteTxn.runMutation m) w = _
  unfold WriteTxn.mutate WriteTxn.runMutation
  rw [if_neg (by rw [hw.unfailed]; exact Bool.false_ne_true), h]
  rfl

lemma loses_deleteEdge (hw : Usable w) (id : EdgeId) : Loses (deleteEdge id) ∅ {id} w := by
  obtain ⟨w', hexec, htxn, hw'⟩ := exec_mutation hw (m := .deleteEdge id)
    (r := (w.txn.flushAdjacency.deleteEdgeInner id).1)
    (t := (w.txn.flushAdjacency.deleteEdgeInner id).2) rfl
  refine ⟨w', ?_, hw', ?_⟩
  · show Prog.run (.done ((TxnOp.exec _ w).1.map _)) (TxnOp.exec _ w).2 = _
    rw [hexec]
    rfl
  · rw [htxn]
    unfold Txn.deleteEdgeInner
    split
    next hget =>
      refine ⟨fun n r => by simp; rfl, fun id' r => ?_⟩
      refine ⟨fun h => ⟨?_, h⟩, fun h => h.2⟩
      rintro rfl
      cases hget.symm.trans h
    next record hget =>
      obtain ⟨hnodes, hedges, -⟩ :=
        Working.dropEdge_spec hw.sound.work.edges hw.sound.work.memo hget
      have hnodes' := congrArg NodeView.nodes hnodes
      have hedges' := congrArg EdgeView.edges hedges
      refine ⟨fun n r => ?_, fun id' r => ?_⟩
      · show (w.txn.work.dropEdge id record.edgeType).tables.nodes.get n = some r ↔ _
        rw [show (w.txn.work.dropEdge id record.edgeType).tables.nodes =
          w.txn.work.tables.nodes from
          hnodes']
        simp
      · show (w.txn.work.dropEdge id record.edgeType).tables.edges.get id' = some r ↔ _
        rw [show (w.txn.work.dropEdge id record.edgeType).tables.edges =
          w.txn.work.tables.edges.erase id from hedges', Table.get_erase]
        by_cases h : id' = id <;> simp [h]

lemma edges_deleteNodeInner {t : Txn} (h : t.Sound) (hflushed : t.Flushed)
    (hisolated : incident t {n} = ∅) :
    (t.deleteNodeInner n).work.tables.edges = t.work.tables.edges := by
  unfold Txn.deleteNodeInner
  split
  next => rfl
  next record hget =>
    obtain ⟨-, hedges, -⟩ := Txn.foldl_leaveLabel_spec h.work hget
    -- no entry of the adjacency lists an edge of the node
    have hnone : ∀ o, t.adj.entries n o = [] := by
      intro o
      apply eq_nil_iff_forall_not_mem.mpr
      intro e he
      have hlist := h.lists o
      rw [Txn.allEntries_of_flushed hflushed] at hlist
      obtain ⟨id, r, hr, hentry⟩ := (Txn.mem_entries_of_lists hlist (fun _ => trivial) e).mp he
      have hat : id ∈ incident t {n} := by
        refine ⟨r, hr, ?_⟩
        have hend := congrArg Prod.fst hentry
        cases o with
        | true => exact .inl hend
        | false => exact .inr hend
      rw [hisolated] at hat
      exact hat
    have hout : (t.leaveLabels n record).dropOutEdges n = t.leaveLabels n record := by
      show (t.adj.entries n true).foldl _ _ = _
      rw [hnone]
      rfl
    have hin : (t.leaveLabels n record).dropInEdges n = t.leaveLabels n record := by
      show (t.adj.entries n false).foldl _ _ = _
      rw [hnone]
      rfl
    rw [hout, hin]
    exact congrArg EdgeView.edges hedges

lemma loses_deleteNode (hw : Usable w) (hisolated : incident w.txn {n} = ∅) :
    Loses (deleteNode n) {n} ∅ w := by
  have hprepared := hw.sound.prepare (.deleteNode n)
  have hflushed : ((Mutation.deleteNode n).prepare w.txn).Flushed := Txn.flushed_flushAdjacency _
  obtain ⟨w', hexec, htxn, hw'⟩ := exec_mutation hw (m := .deleteNode n) (r := ())
    (t := ((Mutation.deleteNode n).prepare w.txn).deleteNodeInner n) rfl
  refine ⟨w', ?_, hw', ?_⟩
  · show ((TxnOp.exec _ w).1, (TxnOp.exec _ w).2) = _
    rw [hexec]
    rfl
  · rw [htxn]
    have hnodes := hprepared.nodes_deleteNodeInner hflushed n
    have hedges := edges_deleteNodeInner hprepared hflushed hisolated
    constructor
    · intro m r
      rw [hnodes, Table.get_erase]
      by_cases h : m = n
      · simp [h]
      · simp only [h, if_false, Set.mem_singleton_iff, not_false_eq_true, true_and]
        rfl
    · intro id r
      rw [hedges]
      simp only [Set.mem_empty_iff_false, not_false_eq_true, true_and]
      rfl

omit [TextLib] in
/-- The neighbors of a node are found through its relationships. -/
theorem mem_neighbors (hw : Usable w) {o : Bool} {id : EdgeId} :
    (∃ ne ∈ w.txn.neighborsWithPending n o, ne.edge = id) ↔
      id ∈ relationships w.txn fun r => (r.entry o id).1 = n := by
  obtain ⟨t, hrel⟩ := hw.buffered
  have hplain : t.neighborsWithPending n o = (t.adj.entries n o).map AdjEntry.neighbor := by
    simp [Txn.neighborsWithPending, Txn.hasPendingAdjacency, hrel.buffer, AdjBuffer.empty]
  have hlist : Lists o (t.adj.side o) w.txn.work.tables.edges := by
    rw [hrel.adj]
    exact hw.sound.lists o
  rw [← hrel.neighborsWithPending, hplain]
  constructor
  · rintro ⟨ne, hne, rfl⟩
    obtain ⟨e, he, rfl⟩ := List.mem_map.mp hne
    obtain ⟨id, r, hget, hentry⟩ := (Txn.mem_entries_of_lists hlist (fun _ => trivial) e).mp he
    have hid : e.edgeId = id := by simpa using (congrArg (·.2.edgeId) hentry).symm
    refine ⟨r, ?_, congrArg Prod.fst (hid ▸ hentry)⟩
    show w.txn.work.tables.edges.get e.edgeId = some r
    rw [hid]
    exact hget
  · rintro ⟨r, hget, rfl⟩
    refine ⟨_, List.mem_map_of_mem
      ((Txn.mem_entries_of_lists hlist (fun _ => trivial) (r.entry o id).2).mpr
        ⟨id, r, hget, rfl⟩), ?_⟩
    exact r.entry_edgeId o id

lemma run_neighbors (w : WriteTxn) (n : NodeId) (o : Bool) :
    (neighbors n o).run w = (.ok (w.txn.neighborsWithPending n o), w) := by
  cases o <;> rfl

/-- The relationships of a node in one direction. -/
def incidentOn (t : Txn) (n : NodeId) (o : Bool) : Set EdgeId :=
  relationships t fun r => (if o then r.src else r.dst) = n

omit [TextLib] in
lemma incident_singleton (t : Txn) (n : NodeId) :
    incident t {n} = incidentOn t n true ∪ incidentOn t n false := by
  ext id
  simp only [incident, incidentOn, relationships, Set.mem_ofPred_eq, Set.mem_union,
    Set.mem_singleton_iff, if_true, Bool.false_eq_true, if_false]
  constructor
  · rintro ⟨r, hget, h | h⟩
    · exact .inl ⟨r, hget, h⟩
    · exact .inr ⟨r, hget, h⟩
  · rintro (⟨r, hget, h⟩ | ⟨r, hget, h⟩)
    · exact ⟨r, hget, .inl h⟩
    · exact ⟨r, hget, .inr h⟩

omit [TextLib] in
lemma mem_incidentOn (hw : Usable w) {o : Bool} {id : EdgeId} :
    id ∈ incidentOn w.txn n o ↔ ∃ ne ∈ w.txn.neighborsWithPending n o, ne.edge = id := by
  rw [mem_neighbors hw]
  cases o <;> rfl

lemma loses_deleteEdges (edge : α → EdgeId) (l : List α) (hw : Usable w) :
    Loses (forEach (fun a => deleteEdge (edge a)) l) ∅ {id | ∃ a ∈ l, edge a = id} w := by
  induction l generalizing w with
  | nil =>
    refine ⟨w, rfl, hw, ?_⟩
    simpa using Removes.refl w.txn
  | cons a l ih =>
    have hloses := (loses_deleteEdge hw (edge a)).bind fun w' hw' _ => ih hw'
    have hset : {edge a} ∪ {id | ∃ a ∈ l, edge a = id} = {id | ∃ b ∈ a :: l, edge b = id} := by
      ext id
      simp [eq_comm]
    rw [Set.empty_union, hset] at hloses
    exact hloses

/-- Detaching a node in one direction deletes its relationships in that direction. -/
theorem loses_detach (hw : Usable w) (n : NodeId) (o : Bool) :
    Loses (detach n o) ∅ (incidentOn w.txn n o) w := by
  have hset : incidentOn w.txn n o =
      {id | ∃ ne ∈ w.txn.neighborsWithPending n o, ne.edge = id} :=
    Set.ext fun id => mem_incidentOn hw
  obtain ⟨w', hrun, hw'⟩ := loses_deleteEdges NeighborEntry.edge (w.txn.neighborsWithPending n o) hw
  rw [hset]
  refine ⟨w', ?_, hw'⟩
  rw [detach, Prog.run_bind, run_neighbors]
  exact hrun

lemma loses_deleteDetached (hw : Usable w) (n : NodeId) :
    Loses (deleteListedNode true n) {n} (incident w.txn {n}) w := by
  have hloses : Loses (deleteListedNode true n) (∅ ∪ (∅ ∪ {n}))
      (incidentOn w.txn n true ∪ ((incidentOn w.txn n false \ incidentOn w.txn n true) ∪ ∅)) w := by
    refine (loses_detach hw n true).bind fun w₁ hw₁ hout => ?_
    have hin : incidentOn w.txn n false \ incidentOn w.txn n true = incidentOn w₁.txn n false :=
      (hout.relationships _).symm
    rw [hin]
    refine (loses_detach hw₁ n false).bind fun w₂ hw₂ hnone => ?_
    apply loses_deleteNode hw₂
    rw [incident_singleton]
    have hgone : ∀ o, incidentOn w₂.txn n o =
        (incidentOn w.txn n o \ incidentOn w.txn n true) \ incidentOn w₁.txn n false :=
      fun o => (hnone.relationships _).trans (congrArg (· \ _) (hout.relationships _))
    rw [hgone, hgone, ← hin]
    simp
  rw [Set.empty_union, Set.empty_union, Set.union_empty, Set.union_sdiff_self,
    ← incident_singleton] at hloses
  exact hloses

omit [TextLib] in
lemma incident_cons (t : Txn) (n : NodeId) (l : List NodeId) :
    incident t {m | m ∈ n :: l} = incident t {n} ∪ incident t {m | m ∈ l} := by
  ext id
  simp only [incident, relationships, Set.mem_ofPred_eq, Set.mem_union, Set.mem_singleton_iff,
    mem_cons]
  constructor
  · rintro ⟨r, hget, (h | h) | (h | h)⟩
    · exact .inl ⟨r, hget, .inl h⟩
    · exact .inr ⟨r, hget, .inl h⟩
    · exact .inl ⟨r, hget, .inr h⟩
    · exact .inr ⟨r, hget, .inr h⟩
  · rintro (⟨r, hget, h | h⟩ | ⟨r, hget, h | h⟩)
    · exact ⟨r, hget, .inl (.inl h)⟩
    · exact ⟨r, hget, .inr (.inl h)⟩
    · exact ⟨r, hget, .inl (.inr h)⟩
    · exact ⟨r, hget, .inr (.inr h)⟩

omit [TextLib] in
lemma singleton_union_mem (a : α) (l : List α) :
    {a} ∪ {b | b ∈ l} = {b | b ∈ a :: l} := by
  ext b
  simp

/-- **With `DETACH`** the listed nodes are deleted with all their relationships. -/
theorem loses_deleteDetachedNodes (l : List NodeId) (hw : Usable w) :
    Loses (forEach (deleteListedNode true) l) {n | n ∈ l} (incident w.txn {n | n ∈ l}) w := by
  induction l generalizing w with
  | nil =>
    refine ⟨w, rfl, hw, ?_⟩
    have hnone : incident w.txn {n | n ∈ []} = ∅ := by
      simp [incident, relationships]
    rw [hnone]
    simpa using Removes.refl w.txn
  | cons n l ih =>
    rw [← singleton_union_mem, singleton_union_mem, incident_cons, ← Set.union_sdiff_self,
      ← singleton_union_mem]
    refine (loses_deleteDetached hw n).bind fun w' hw' hremoves => ?_
    rw [← hremoves.incident]
    exact ih hw'

/-- Whether a node has relationships. -/
theorem run_refuseConnected (hw : Usable w) (n : NodeId) :
    (incident w.txn {n} = ∅ → (refuseConnected n).run w = (.ok (), w)) ∧
      (incident w.txn {n} ≠ ∅ → (refuseConnected n).run w = (.error deleteConnectedNode, w)) := by
  have hnil : ∀ o, w.txn.neighborsWithPending n o = [] ↔ incidentOn w.txn n o = ∅ := by
    intro o
    constructor
    · intro h
      ext id
      rw [mem_incidentOn hw, h]
      simp
    · intro h
      apply eq_nil_iff_forall_not_mem.mpr
      intro ne hne
      have hmem := (mem_incidentOn hw).mpr ⟨ne, hne, rfl⟩
      rw [h] at hmem
      exact hmem
  have hrun : (refuseConnected n).run w =
      if w.txn.neighborsWithPending n true ≠ [] then (.error deleteConnectedNode, w)
      else if w.txn.neighborsWithPending n false ≠ [] then (.error deleteConnectedNode, w)
      else (.ok (), w) := by
    rw [refuseConnected, Prog.run_bind, run_neighbors]
    dsimp only
    split
    · rfl
    · rw [Prog.run_bind, run_neighbors]
      dsimp only
      split <;> rfl
  rw [hrun, ne_eq (incident _ _), incident_singleton, Set.union_empty_iff, ← hnil, ← hnil]
  constructor
  · rintro ⟨hout, hin⟩
    rw [if_neg (not_not_intro hout), if_neg (not_not_intro hin)]
  · intro h
    by_cases hout : w.txn.neighborsWithPending n true = []
    · rw [if_neg (not_not_intro hout), if_pos fun hin => h ⟨hout, hin⟩]
    · rw [if_pos hout]

/-- **Without `DETACH`** the listed nodes are deleted unless one of them has a relationship. -/
theorem run_deleteConnected (l : List NodeId) (hw : Usable w) :
    (incident w.txn {n | n ∈ l} = ∅ →
      Loses (forEach (deleteListedNode false) l) {n | n ∈ l} ∅ w) ∧
    (incident w.txn {n | n ∈ l} ≠ ∅ →
      ((forEach (deleteListedNode false) l).run w).1 = .error deleteConnectedNode) := by
  induction l generalizing w with
  | nil =>
    have hnone : incident w.txn {n | n ∈ []} = ∅ := by
      simp [incident, relationships]
    refine ⟨fun _ => ⟨w, rfl, hw, ?_⟩, fun h => absurd hnone h⟩
    simpa using Removes.refl w.txn
  | cons n l ih =>
    rw [incident_cons, Set.union_empty_iff, ← singleton_union_mem]
    by_cases hn : incident w.txn {n} = ∅
    · -- the node is deleted, and the relationships of the others stay
      have hnode : Loses (deleteListedNode false n) {n} ∅ w := by
        obtain ⟨w', hrun, hw'⟩ := loses_deleteNode hw hn
        refine ⟨w', ?_, hw'⟩
        show (Prog.bind (refuseConnected n) fun _ => deleteNode n).run w = _
        rw [Prog.run_bind, (run_refuseConnected hw n).1 hn]
        exact hrun
      have hrest : ∀ w' : WriteTxn, Removes {n} ∅ w.txn w'.txn →
          incident w'.txn {m | m ∈ l} = incident w.txn {m | m ∈ l} := fun w' hremoves =>
        (hremoves.incident _).trans Set.sdiff_empty
      constructor
      · rintro ⟨-, hl⟩
        have hloses := hnode.bind (q := forEach (deleteListedNode false) l)
          fun w' hw' hremoves => (ih hw').1 ((hrest w' hremoves).trans hl)
        rw [Set.union_empty] at hloses
        exact hloses
      · intro h
        obtain ⟨w', hrun, hw', hremoves⟩ := hnode
        show ((Prog.bind (deleteListedNode false n) fun _ =>
          forEach (deleteListedNode false) l).run w).1 = _
        rw [Prog.run_bind, hrun]
        apply (ih hw').2
        rw [hrest w' hremoves]
        exact fun hl => h (Set.union_empty_iff.mpr ⟨hn, hl⟩)
    · refine ⟨fun h => absurd h.1 hn, fun _ => ?_⟩
      have hfails : (deleteListedNode false n).run w = (.error deleteConnectedNode, w) := by
        show (Prog.bind (refuseConnected n) fun _ => deleteNode n).run w = _
        rw [Prog.run_bind, (run_refuseConnected hw n).2 hn]
      show ((Prog.bind (deleteListedNode false n) fun _ =>
        forEach (deleteListedNode false) l).run w).1 = _
      rw [Prog.run_bind, hfails]

/-! ## The clause -/

variable {evaluate : PathMap → Expr → Except String Json} {paths : List PathMap}
  {targets : List Expr}

def listedNodes (evaluate : PathMap → Expr → Except String Json) (paths : List PathMap)
    (targets : List Expr) : Set NodeId :=
  {n | Listed evaluate paths targets (.node n)}

def listedEdges (evaluate : PathMap → Expr → Except String Json) (paths : List PathMap)
    (targets : List Expr) : Set EdgeId :=
  {id | Listed evaluate paths targets (.edge id)}

omit [TextLib] in
/-- The clause works on what the rows list. -/
theorem exists_gathered (h : AllDeletable evaluate paths targets) : ∃ t : DeleteTargets,
    {n | n ∈ t.nodes} = listedNodes evaluate paths targets ∧
    {id | id ∈ t.edges} = listedEdges evaluate paths targets ∧
    ∀ detached, deleteOverPathsIn evaluate paths targets detached =
      Prog.bind (forEach deleteEdge t.edges) fun _ =>
      forEach (deleteListedNode detached) t.nodes := by
  have hremembers := @remembers_rows evaluate targets paths ⟨[], []⟩
  unfold deleteOverPathsIn
  rcases hgather : gatherRows evaluate targets paths ⟨[], []⟩ with text | t <;>
    rw [hgather] at hremembers
  · exact absurd h hremembers
  · refine ⟨t, ?_, ?_, fun _ => rfl⟩
    · ext n
      exact (hremembers.2.1 n).trans (by simp [listedNodes])
    · ext id
      exact (hremembers.2.2 id).trans (by simp [listedEdges])

lemma loses_deleteListed (hw : Usable w) (l : List EdgeId) :
    Loses (forEach deleteEdge l) ∅ {id | id ∈ l} w := by
  simpa using loses_deleteEdges (fun id => id) l hw

lemma deleteOverPathsIn_detached (hw : Usable w) (h : AllDeletable evaluate paths targets) :
    Loses (deleteOverPathsIn evaluate paths targets true) (listedNodes evaluate paths targets)
      (listedEdges evaluate paths targets ∪
        incident w.txn (listedNodes evaluate paths targets)) w := by
  obtain ⟨t, hnodes, hedges, hprog⟩ := exists_gathered h
  rw [hprog, ← hnodes, ← hedges, ← Set.union_sdiff_self, ← Set.empty_union {n | n ∈ t.nodes}]
  refine (loses_deleteListed hw t.edges).bind fun w' hw' hremoves => ?_
  have hincident := hremoves.incident {n | n ∈ t.nodes}
  rw [Set.empty_union, ← hincident]
  exact loses_deleteDetachedNodes t.nodes hw'

lemma deleteOverPathsIn_connected (hw : Usable w) (h : AllDeletable evaluate paths targets) :
    (incident w.txn (listedNodes evaluate paths targets) ⊆ listedEdges evaluate paths targets →
      Loses (deleteOverPathsIn evaluate paths targets false) (listedNodes evaluate paths targets)
        (listedEdges evaluate paths targets) w) ∧
    (¬incident w.txn (listedNodes evaluate paths targets) ⊆ listedEdges evaluate paths targets →
      ((deleteOverPathsIn evaluate paths targets false).run w).1 = .error deleteConnectedNode) := by
  obtain ⟨t, hnodes, hedges, hprog⟩ := exists_gathered h
  have hphase := loses_deleteListed hw t.edges
  rw [hprog, ← hnodes, ← hedges]
  constructor
  · intro hsub
    have hloses :=
      hphase.bind (q := forEach (deleteListedNode false) t.nodes) fun w' hw' hremoves =>
      (run_deleteConnected t.nodes hw').1
        ((hremoves.incident _).trans (Set.sdiff_eq_empty.mpr hsub))
    rw [Set.empty_union, Set.union_empty] at hloses
    exact hloses
  · intro hsub
    obtain ⟨w', hrun, hw', hremoves⟩ := hphase
    rw [Prog.run_bind, hrun]
    apply (run_deleteConnected t.nodes hw').2
    rw [hremoves.incident]
    exact fun hnone => hsub (Set.sdiff_eq_empty.mp hnone)

/-- Two closures end alike: both fail with one error, or both succeed and leave the same nodes and
relationships in transactions that can go on. -/
inductive SameOutcome (w : WriteTxn) (p q : Prog Unit) : Prop
  | failed (e : Error) (hp : (p.run w).1 = .error e) (hq : (q.run w).1 = .error e)
  | succeeded (w₁ w₂ : WriteTxn) (hp : p.run w = (.ok (), w₁)) (hq : q.run w = (.ok (), w₂))
    (h₁ : Usable w₁) (h₂ : Usable w₂)
    (hnodes : w₁.txn.work.tables.nodes = w₂.txn.work.tables.nodes)
    (hedges : w₁.txn.work.tables.edges = w₂.txn.work.tables.edges)

lemma Loses.sameOutcome (hp : Loses p N E w) (hq : Loses q N E w) :
    SameOutcome w p q := by
  obtain ⟨w₁, hrun₁, hw₁, hremoves₁⟩ := hp
  obtain ⟨w₂, hrun₂, hw₂, hremoves₂⟩ := hq
  obtain ⟨hnodes, hedges⟩ := hremoves₁.unique hremoves₂
  exact .succeeded w₁ w₂ hrun₁ hrun₂ hw₁ hw₂ hnodes hedges

/-- The order of the rows and of the targets does not matter. -/
theorem deleteOverPathsIn_perm (hw : Usable w) (h : AllDeletable evaluate paths targets)
    {paths' : List PathMap} {targets' : List Expr} (hpaths : paths'.Perm paths)
    (htargets : targets'.Perm targets) (detached : Bool) :
    SameOutcome w (deleteOverPathsIn evaluate paths' targets' detached)
      (deleteOverPathsIn evaluate paths targets detached) := by
  have h' : AllDeletable evaluate paths' targets' := fun path hpath target htarget =>
    h path (hpaths.mem_iff.mp hpath) target (htargets.mem_iff.mp htarget)
  have hlisted : Listed evaluate paths' targets' = Listed evaluate paths targets := by
    funext b
    simp only [Listed, hpaths.mem_iff, htargets.mem_iff]
  have hnodes : listedNodes evaluate paths' targets' = listedNodes evaluate paths targets := by
    unfold listedNodes
    rw [hlisted]
  have hedges : listedEdges evaluate paths' targets' = listedEdges evaluate paths targets := by
    unfold listedEdges
    rw [hlisted]
  cases detached with
  | true =>
    have hloses := deleteOverPathsIn_detached hw h'
    rw [hnodes, hedges] at hloses
    exact hloses.sameOutcome (deleteOverPathsIn_detached hw h)
  | false =>
    have hrun := deleteOverPathsIn_connected hw h
    have hrun' := deleteOverPathsIn_connected hw h'
    rw [hnodes, hedges] at hrun'
    by_cases hsub : incident w.txn (listedNodes evaluate paths targets) ⊆
        listedEdges evaluate paths targets
    · exact (hrun'.1 hsub).sameOutcome (hrun.1 hsub)
    · exact .failed deleteConnectedNode (hrun'.2 hsub) (hrun.2 hsub)

omit [TextLib] in
/-- The transaction's tables after its batched writes. -/
theorem Usable.flush (hw : Usable w) :
    w.txn.flush.storage.tables.nodes = w.txn.work.tables.nodes ∧
      w.txn.flush.storage.tables.edges = w.txn.work.tables.edges := by
  obtain ⟨hnodes, hedges⟩ := Working.flushCounters_spec hw.sound.flushAdjacency.work
  exact ⟨congrArg NodeView.nodes hnodes, congrArg EdgeView.edges hedges⟩

lemma SameOutcome.update {g : Graph} (h : SameOutcome (.begin g.storage) p q)
    (commit : Except Error Unit) :
    (g.update commit p).1 = (g.update commit q).1 ∧
      (g.update commit p).2.storage.tables.nodes = (g.update commit q).2.storage.tables.nodes ∧
      (g.update commit p).2.storage.tables.edges = (g.update commit q).2.storage.tables.edges := by
  cases h with
  | failed e hp hq =>
    have hfails : ∀ {p : Prog Unit}, (p.run (.begin g.storage)).1 = .error e →
        g.update commit p = (.error e, g) := by
      intro p hp
      unfold Graph.update
      rcases hrun : p.run (.begin g.storage) with ⟨r, w⟩
      rw [hrun] at hp
      obtain rfl : r = .error e := hp
      rfl
    rw [hfails hp, hfails hq]
    exact ⟨rfl, rfl, rfl⟩
  | succeeded w₁ w₂ hp hq h₁ h₂ hnodes hedges =>
    unfold Graph.update Graph.commitAndPublish
    rw [hp, hq]
    simp only [h₁.unfailed, h₂.unfailed, Bool.false_eq_true, if_false]
    cases commit with
    | error e => exact ⟨rfl, rfl, rfl⟩
    | ok u =>
      have htables : ∀ (s : Storage) (count : ℕ),
          (if 0 < count then Graph.bumpCommitGen s else s).tables.nodes = s.tables.nodes ∧
            (if 0 < count then Graph.bumpCommitGen s else s).tables.edges = s.tables.edges := by
        intro s count
        split <;> exact ⟨rfl, rfl⟩
      refine ⟨rfl, ?_, ?_⟩
      · show (if _ then _ else _ : Storage).tables.nodes =
            (if _ then _ else _ : Storage).tables.nodes
        rw [(htables _ _).1, (htables _ _).1, h₁.flush.1, h₂.flush.1, hnodes]
      · show (if _ then _ else _ : Storage).tables.edges =
            (if _ then _ else _ : Storage).tables.edges
        rw [(htables _ _).2, (htables _ _).2, h₁.flush.2, h₂.flush.2, hedges]

/-- The transactions that can go on are those that every run reaches without a failed mutation. -/
theorem usable_invariant : Graph.Invariant (fun _ => True) (fun _ _ => True)
    (fun t => t.Sound ∧ ∃ t', BulkRel t t') Storage.Sound where
  begin_plain h := ⟨Graph.sound_invariant.begin_plain h, _, .begin _ _⟩
  begin_batch h := ⟨Graph.sound_invariant.begin_batch h, _, .begin _ _⟩
  exec {m t r t'} _ h hexec := by
    obtain ⟨hsound, t'', hrel⟩ := h
    have hnext := (hrel.exec hsound m).2
    rw [hexec] at hnext
    exact ⟨hsound.exec hexec, _, hnext⟩
  bulk h := ⟨Graph.sound_invariant.bulk h.1, h.2.imp fun _ hrel => hrel.beginBulkLoad⟩
  commit h := Graph.sound_invariant.commit h.1
  commitGen h := Graph.sound_invariant.commitGen h
  ddl := Graph.sound_invariant.ddl

lemma usable_of_reached (actions : List Graph.Action) (p : Prog α) {w : WriteTxn}
    (hreached : (p.run (.begin (Graph.run actions .empty).storage)).2 = w) (hw : w.failed = false) :
    Usable w := by
  have hsound : (Graph.run actions .empty).storage.Sound :=
    Graph.sound_invariant.run
      (Graph.admissible_of_forall (fun _ => trivial) (fun _ _ => trivial) actions _)
      Storage.sound_empty
  subst hreached
  obtain ⟨htxn, hbuffered⟩ := usable_invariant.txn_run p hw (fun _ _ _ => trivial)
    (usable_invariant.begin_batch hsound)
  exact ⟨htxn, hbuffered, hw⟩

/-- **`DELETE` acts on the whole row set.** In every transaction a run reaches, for every list of
rows and of targets that name entities: without `DETACH` the clause succeeds iff every relationship
at a listed node is listed, and then exactly the listed entities are gone; with `DETACH` it
succeeds, and the relationships at the listed nodes are gone with them. Neither the order of the
rows nor that of the targets changes the outcome, also of a statement that is just the clause. -/
theorem delete_over_rows {α : Type} (actions : List Graph.Action) (p : Prog α) {w : WriteTxn}
    (hreached : (p.run (.begin (Graph.run actions .empty).storage)).2 = w)
    (hw : w.failed = false) (h : AllDeletable evaluate paths targets) :
    (((deleteOverPathsIn evaluate paths targets false).run w).1 = .ok () ↔
      incident w.txn (listedNodes evaluate paths targets) ⊆ listedEdges evaluate paths targets) ∧
    (∀ w', (deleteOverPathsIn evaluate paths targets false).run w = (.ok (), w') →
      Removes (listedNodes evaluate paths targets) (listedEdges evaluate paths targets)
        w.txn w'.txn) ∧
    (∃ w', (deleteOverPathsIn evaluate paths targets true).run w = (.ok (), w') ∧
      Removes (listedNodes evaluate paths targets) (listedEdges evaluate paths targets ∪
        incident w.txn (listedNodes evaluate paths targets)) w.txn w'.txn) ∧
    ∀ detached paths' targets', paths'.Perm paths → targets'.Perm targets →
      SameOutcome w (deleteOverPathsIn evaluate paths' targets' detached)
        (deleteOverPathsIn evaluate paths targets detached) ∧
      ∀ commit,
        let g := Graph.run actions .empty
        let result := g.update commit (deleteOverPathsIn evaluate paths targets detached)
        let result' := g.update commit (deleteOverPathsIn evaluate paths' targets' detached)
        result'.1 = result.1 ∧ result'.2.storage.tables.nodes = result.2.storage.tables.nodes ∧
          result'.2.storage.tables.edges = result.2.storage.tables.edges := by
  have husable := usable_of_reached actions p hreached hw
  have hconnected := deleteOverPathsIn_connected husable h
  obtain ⟨w', hrun, -, hremoves⟩ := deleteOverPathsIn_detached husable h
  have hsub : ((deleteOverPathsIn evaluate paths targets false).run w).1 = .ok () →
      incident w.txn (listedNodes evaluate paths targets) ⊆ listedEdges evaluate paths targets := by
    intro hok
    by_contra hsub
    rw [hconnected.2 hsub] at hok
    cases hok
  refine ⟨⟨hsub, fun hsub => ?_⟩, fun w'' hrun' => ?_, ⟨w', hrun, hremoves⟩,
    fun detached paths' targets' hpaths htargets => ⟨?_, fun commit => ?_⟩⟩
  · obtain ⟨w'', hrun', -⟩ := hconnected.1 hsub
    rw [hrun']
  · obtain ⟨w₁, hrun₁, -, hremoves₁⟩ := hconnected.1 (hsub (congrArg Prod.fst hrun'))
    obtain rfl : w₁ = w'' := congrArg Prod.snd (hrun₁.symm.trans hrun')
    exact hremoves₁
  · exact deleteOverPathsIn_perm husable h hpaths htargets detached
  · have hbegin : Usable (.begin (Graph.run actions .empty).storage) :=
      usable_of_reached actions (.done (.ok ()) : Prog Unit) rfl rfl
    exact (deleteOverPathsIn_perm hbegin h hpaths htargets detached).update commit

end Runs

section Loops

attribute [local instance] TextLib.ascii

def twoNodes : List Graph.Action :=
  [.mutation (.addNode "A" ⟨.object [], Json.wellFormed_empty⟩) (.ok ()),
    .mutation (.addNode "A" ⟨.object [], Json.wellFormed_empty⟩) (.ok ()),
    .mutation (.addEdge 0 1 "R" ⟨.object [], Json.wellFormed_empty⟩) (.ok ()),
    .mutation (.addEdge 0 1 "R" ⟨.object [], Json.wellFormed_empty⟩) (.ok ()),
    .mutation (.addEdge 0 0 "R" ⟨.object [], Json.wellFormed_empty⟩) (.ok ())]

/-- The first node is bound in two rows, and its loop in a list. -/
def listedTwice : List PathMap :=
  [.put .empty "a" (.node 0), .put (.put .empty "a" (.node 0)) "r" (.edgeList [2, 2])]

/-- Detaching a node that is listed twice removes its relationships. -/
theorem delete_over_rows_loop :
    ∃ w', (deleteOverPathsIn (fun _ _ => .ok .null) listedTwice [.prop "a" ""] true).run
        (.begin (Graph.run twoNodes .empty).storage) = (.ok (), w') ∧
      w'.txn.work.tables.nodes.get 0 = none ∧ w'.txn.work.tables.edges.get 2 = none := by
  have hrow : ∀ path ∈ listedTwice, path.get "a" = some (.node 0) := by
    decide +kernel
  have hdeletable : AllDeletable (fun _ _ => .ok .null) listedTwice [.prop "a" ""] := by
    intro path hpath target htarget
    obtain rfl := mem_singleton.mp htarget
    exact ⟨.node 0, hrow path hpath, trivial⟩
  have hlisted : (0 : NodeId) ∈ listedNodes (fun _ _ => .ok .null) listedTwice [.prop "a" ""] :=
    ⟨_, mem_cons_self, _, mem_cons_self, .node 0, rfl, rfl⟩
  obtain ⟨w', hrun, hremoves⟩ := (delete_over_rows twoNodes (.done (.ok ()) : Prog Unit) rfl rfl
    hdeletable).2.2.1
  refine ⟨w', hrun, ?_, ?_⟩
  · apply eq_none_iff_forall_ne_some.mpr
    intro r hr
    exact ((hremoves.node 0 r).mp hr).1 hlisted
  · apply eq_none_iff_forall_ne_some.mpr
    intro r hr
    obtain ⟨hkept, hget⟩ := (hremoves.edge 2 r).mp hr
    have hloop : ((Graph.run twoNodes .empty).storage.tables.edges.get 2).map (·.src) = some 0 := by
      decide +kernel
    have hsrc : r.src = 0 := by
      have hget' : (Graph.run twoNodes .empty).storage.tables.edges.get 2 = some r := hget
      rw [hget'] at hloop
      exact some.inj hloop
    exact hkept (.inr ⟨r, hget, .inl (hsrc ▸ hlisted)⟩)

end Loops

end IssunDB.Cypher
