import IssunDB.Adjacency

/-!
# Names

Labels and relationship types get their ids once: every operation only adds names to the
registries. A commit that does not advance the write generation leaves nodes and edges as they are.

* `NamesGrow` — registered names keep their ids;
* `Graph.namesGrow_perform` — along every action;
* `Graph.sameRecords_perform` — actions that publish nothing keep the records.
-/

namespace IssunDB

/-- Registered labels and types keep their ids. -/
structure NamesGrow (s s' : Tables) : Prop where
  labels : s.metaDb.labels.Extends s'.metaDb.labels
  types : s.metaDb.types.Extends s'.metaDb.types

namespace NamesGrow

variable {s s' : Tables}

lemma of_eq (hlabels : s'.metaDb.labels = s.metaDb.labels)
    (htypes : s'.metaDb.types = s.metaDb.types) : NamesGrow s s' :=
  ⟨hlabels ▸ .refl _, htypes ▸ .refl _⟩

lemma of_base_eq (h : s'.base = s.base) : NamesGrow s s' :=
  .of_eq (congrArg (·.metaDb.labels) h) (congrArg (·.metaDb.types) h)

lemma of_evolves (h : s.Evolves s') : NamesGrow s s' := ⟨h.labels, h.types⟩

instance : Std.Refl NamesGrow := ⟨fun _ => .of_eq rfl rfl⟩

instance : IsTrans Tables NamesGrow :=
  ⟨fun _ _ _ h h' => ⟨h.labels.trans h'.labels, h.types.trans h'.types⟩⟩

lemma refl (s : Tables) : NamesGrow s s := Std.Refl.refl s

lemma trans {s s' s'' : Tables} (h : NamesGrow s s') (h' : NamesGrow s' s'') : NamesGrow s s'' :=
  IsTrans.trans _ _ _ h h'

end NamesGrow

/-! ## Operations -/

namespace Working

/-- Registered names keep their ids while the working state moves. -/
def NamesGrow (w w' : Working) : Prop := IssunDB.NamesGrow w.tables w'.tables

instance : Std.Refl NamesGrow := ⟨fun w => .refl w.tables⟩

instance : IsTrans Working NamesGrow := ⟨fun _ _ _ h h' => IssunDB.NamesGrow.trans h h'⟩

lemma namesGrow_onTables {α : Type} {m : Exec Error Tables α}
    (hm : Exec.Along IssunDB.NamesGrow m) : Exec.Along NamesGrow (onTables m) :=
  fun w => hm w.tables

/-- The registries of labels and types. -/
def names (w : Working) : Registry × Registry := (w.tables.metaDb.labels, w.tables.metaDb.types)

lemma namesGrow_of_names_eq {w w' : Working} (h : w'.names = w.names) : w.NamesGrow w' :=
  .of_eq (congrArg Prod.fst h) (congrArg Prod.snd h)

lemma names_bumpLabelCount (l : LabelId) (d : ℤ) (w : Working) :
    (w.bumpLabelCount l d).names = w.names := by
  unfold bumpLabelCount
  split <;> rfl

lemma names_bumpTypeCount (t : TypeId) (d : ℤ) (w : Working) :
    (w.bumpTypeCount t d).names = w.names := by
  unfold bumpTypeCount
  split <;> rfl

lemma names_allocNodeId (w : Working) : w.allocNodeId.2.names = w.names := by
  unfold allocNodeId
  split <;> rfl

lemma names_allocEdgeId (w : Working) : w.allocEdgeId.2.names = w.names := by
  unfold allocEdgeId
  split <;> rfl

lemma names_activeEdgeIndexes (t : TypeId) (w : Working) :
    (w.activeEdgeIndexes t).2.names = w.names := by
  unfold activeEdgeIndexes
  split
  · split <;> rfl
  · rfl

lemma names_proveNode (n : NodeId) : Exec.Keeps names (proveNode n) := by
  intro w
  unfold proveNode
  split
  · split
    · rfl
    · split <;> rfl
  · split <;> rfl

lemma names_dropEdge (id : EdgeId) (t : TypeId) (w : Working) :
    (w.dropEdge id t).names = w.names := by
  have hbase := congrArg names (base_dropEdge id t w)
  rw [eraseEdge, names_bumpTypeCount] at hbase
  exact hbase

lemma names_flushCounters (w : Working) : w.flushCounters.names = w.names := by
  unfold flushCounters
  split
  · rfl
  · simp only [flushLabelDeltas_eq, flushTypeDeltas_eq]
    rfl

lemma namesGrow_resolveType (etype : String) (w : Working) :
    w.NamesGrow (w.resolveType etype).2 := by
  unfold resolveType
  split
  · split
    · exact .of_eq rfl rfl
    · exact .of_evolves (Tables.evolves_getOrCreateType etype w.tables)
  · exact .of_evolves (Tables.evolves_getOrCreateType etype w.tables)

lemma namesGrow_resolveLabels (labels : List String) (r : ResolvedLabels) (s : Tables) :
    IssunDB.NamesGrow s (s.resolveLabels labels r).2 := by
  induction labels generalizing r s with
  | nil => exact .refl s
  | cons name names ih =>
    exact (IssunDB.NamesGrow.of_evolves (Tables.evolves_getOrCreateLabel name s)).trans (ih _ _)

section Nodes

variable [TextLib]

lemma namesGrow_enterLabel (n : NodeId) (props : Props) (label : LabelId × String) :
    Exec.Along NamesGrow (enterLabel n props label) := by
  refine Exec.Along.bind (Exec.Along.modify fun w => ?_) fun _ => namesGrow_onTables fun s => ?_
  · exact namesGrow_of_names_eq (names_bumpLabelCount _ _ _)
  · exact .of_base_eq (Tables.keeps_base_indexNodeForLabel label.1 label.2 n props s)

lemma namesGrow_addNodeInner (labels : List String) (props : Props) :
    Exec.Along NamesGrow (addNodeInner labels props) := by
  refine Exec.Along.bind (namesGrow_onTables (Exec.Along.state
    (namesGrow_resolveLabels labels .nil))) fun r => ?_
  refine Exec.Along.bind (Exec.Along.state fun w =>
    namesGrow_of_names_eq (names_allocNodeId w)) fun n => ?_
  refine Exec.Along.bind (Exec.Along.modify fun w => .of_eq rfl rfl) fun _ => ?_
  exact Exec.Along.bind (Exec.Along.forM (namesGrow_enterLabel n props)) fun _ => Exec.Along.pure n

lemma namesGrow_updateNodeImpl (n : NodeId) (props : Props) :
    Exec.Along NamesGrow (updateNodeImpl n props) := by
  refine Exec.Along.bind Exec.Along.get fun w => ?_
  split
  · exact Exec.Along.throw _
  next record _ =>
    refine Exec.Along.bind (Exec.Along.forM fun l => namesGrow_onTables fun s => ?_) fun _ =>
      Exec.Along.modify fun w => .of_eq rfl rfl
    exact .of_base_eq (keeps_base_reindexLabel n record.props props l s)

lemma namesGrow_addLabelInner (n : NodeId) (label : String) :
    Exec.Along NamesGrow (addLabelInner n label) := by
  refine Exec.Along.bind Exec.Along.get fun w => ?_
  split
  · exact Exec.Along.throw _
  next record _ =>
    refine Exec.Along.bind (namesGrow_onTables (Exec.Along.state fun s =>
      .of_evolves (Tables.evolves_getOrCreateLabel label s))) fun l => ?_
    split
    · exact Exec.Along.pure _
    · exact Exec.Along.bind (Exec.Along.modify fun w => .of_eq rfl rfl) fun _ =>
        namesGrow_enterLabel n record.props (l, label)

omit [TextLib] in
lemma names_of_base_eq {w w' : Working} (h : w'.base = w.base) : w'.names = w.names :=
  Prod.ext (congrArg (·.tables.metaDb.labels) h) (congrArg (·.tables.metaDb.types) h)

lemma base_unindexed (l : LabelId) (n : NodeId) (props : Props) (w : Working) :
    base { w with tables := w.tables.unindexNodeForLabel l n props } = w.base := by
  simp only [base, Tables.base_unindexNodeForLabel]

lemma names_removeLabelInner (n : NodeId) (label : String) (w : Working) :
    (w.removeLabelInner n label).names = w.names := by
  unfold removeLabelInner
  split
  next record l _ _ =>
    split
    · rw [names_of_base_eq (base_unindexed ..), unlinkLabel, names_bumpLabelCount]
      rfl
    · rfl
  next => rfl

lemma names_leaveLabel (n : NodeId) (props : Props) (w : Working) (l : LabelId) :
    (w.leaveLabel n props l).names = w.names := by
  have hunindexed := names_of_base_eq (base_unindexed l n props w)
  rw [leaveLabel, unlinkLabel, names_bumpLabelCount, ← hunindexed]
  rfl

end Nodes

lemma namesGrow_writeEdgeIndexEntries (active : List (PropKeyId × IndexRole)) (id : EdgeId)
    (t : TypeId) (etype : String) (props : Props) :
    Exec.Along IssunDB.NamesGrow (Tables.writeEdgeIndexEntries active id t etype props) :=
  fun s => .of_base_eq (Tables.keeps_base_writeEdgeIndexEntries active id t etype props s)

lemma namesGrow_insertEdge (src dst : NodeId) (etype : String) (props : Props) :
    Exec.Along NamesGrow (insertEdge src dst etype props) := by
  have hprove : ∀ n, Exec.Along NamesGrow (proveNode n) := fun n w =>
    namesGrow_of_names_eq (names_proveNode n w)
  refine Exec.Along.bind (hprove src) fun _ => Exec.Along.bind (hprove dst) fun _ => ?_
  refine Exec.Along.bind (Exec.Along.state (namesGrow_resolveType etype)) fun t => ?_
  refine Exec.Along.bind (Exec.Along.state fun w =>
    namesGrow_of_names_eq (names_allocEdgeId w)) fun id => ?_
  refine Exec.Along.bind (Exec.Along.state fun w =>
    namesGrow_of_names_eq (names_activeEdgeIndexes t w)) fun active => ?_
  refine Exec.Along.bind (namesGrow_onTables
    (namesGrow_writeEdgeIndexEntries active id t etype props)) fun _ => ?_
  exact Exec.Along.bind (Exec.Along.modify fun w => .of_eq rfl rfl) fun _ => Exec.Along.pure _

lemma namesGrow_updateEdgeImpl (id : EdgeId) (props : Props) :
    Exec.Along NamesGrow (updateEdgeImpl id props) := by
  refine Exec.Along.bind Exec.Along.get fun w => ?_
  split
  · exact Exec.Along.throw _
  next record _ =>
    split
    · exact Exec.Along.throw _
    next etype _ =>
      refine Exec.Along.bind (namesGrow_onTables (Exec.Along.modify fun s =>
        .of_base_eq (Tables.base_deleteEdgeIndexEntries id record s))) fun _ => ?_
      refine Exec.Along.bind (fun w => .refl w.tables) fun s => ?_
      refine Exec.Along.bind (namesGrow_onTables
        (namesGrow_writeEdgeIndexEntries _ id record.edgeType etype props)) fun _ => ?_
      exact Exec.Along.modify fun w => .of_eq rfl rfl

end Working

namespace Txn

/-- Registered names keep their ids while a transaction moves. -/
def NamesGrow (t t' : Txn) : Prop := IssunDB.NamesGrow t.work.tables t'.work.tables

instance : Std.Refl NamesGrow := ⟨fun t => .refl t.work.tables⟩

instance : IsTrans Txn NamesGrow := ⟨fun _ _ _ h h' => IssunDB.NamesGrow.trans h h'⟩

lemma namesGrow_onWork {α : Type} {m : Exec Error Working α}
    (hm : Exec.Along Working.NamesGrow m) : Exec.Along NamesGrow (onWork m) :=
  fun t => hm t.work

lemma namesGrow_of_names_eq {t t' : Txn} (h : t'.work.names = t.work.names) : t.NamesGrow t' :=
  Working.namesGrow_of_names_eq h

lemma namesGrow_addEdgeInner (src dst : NodeId) (etype : String) (props : Props) :
    Exec.Along NamesGrow (addEdgeInner src dst etype props) := by
  refine Exec.Along.bind (namesGrow_onWork (Working.namesGrow_insertEdge src dst etype props))
    fun created => ?_
  refine Exec.Along.bind (Exec.Along.modify fun t => ?_) fun _ => ?_
  · split
    · simp only [deferAdj]
      split <;> exact .of_eq rfl rfl
    · exact .of_eq rfl rfl
  · exact Exec.Along.bind (namesGrow_onWork (Exec.Along.modify fun w =>
      Working.namesGrow_of_names_eq (Working.names_bumpTypeCount _ 1 w))) fun _ => Exec.Along.pure _

lemma namesGrow_deleteEdgeInner (id : EdgeId) (t : Txn) : t.NamesGrow (t.deleteEdgeInner id).2 := by
  unfold deleteEdgeInner
  split
  · exact .refl _
  · exact namesGrow_of_names_eq (Working.names_dropEdge id _ t.work)

lemma namesGrow_deleteNodeInner [TextLib] (n : NodeId) (t : Txn) :
    t.NamesGrow (t.deleteNodeInner n) := by
  unfold deleteNodeInner
  split
  · exact .refl _
  next record _ =>
    have hlabels : t.NamesGrow (t.leaveLabels n record) :=
      Working.namesGrow_of_names_eq (Exec.Keeps.foldl (Working.names_leaveLabel n record.props) _ _)
    have hout : ∀ t : Txn, t.NamesGrow (t.dropOutEdges n) := fun t =>
      Exec.Along.foldl (R := NamesGrow) (fun t e =>
        namesGrow_of_names_eq (Working.names_dropEdge e.edgeId _ t.work)) _ _
    have hin : ∀ t : Txn, t.NamesGrow (t.dropInEdges n) := fun t =>
      Exec.Along.foldl (R := NamesGrow) (fun t e =>
        namesGrow_of_names_eq (Working.names_dropEdge e.edgeId _ t.work)) _ _
    exact ((hlabels.trans (hout _)).trans (hin _)).trans (.of_eq rfl rfl)

end Txn

variable [TextLib]

lemma Mutation.namesGrow_exec {m : Mutation} {t t' : Txn} {r : m.Result}
    (h : m.exec t = (.ok r, t')) : t.NamesGrow t' := by
  have halong : Exec.Along Txn.NamesGrow m.exec → t.NamesGrow t' := fun hm => by
    have hgrow := hm t
    rwa [h] at hgrow
  cases m with
  | addNode label props =>
    exact halong (Txn.namesGrow_onWork (Working.namesGrow_addNodeInner [label] props))
  | addNodeMulti labels props =>
    exact halong (Txn.namesGrow_onWork (Working.namesGrow_addNodeInner labels props))
  | updateNode n props =>
    exact halong (Txn.namesGrow_onWork (Working.namesGrow_updateNodeImpl n props))
  | addLabel n label =>
    exact halong (Txn.namesGrow_onWork (Working.namesGrow_addLabelInner n label))
  | removeLabel n label =>
    exact halong (Txn.namesGrow_onWork (Exec.Along.modify fun w =>
      Working.namesGrow_of_names_eq (Working.names_removeLabelInner n label w)))
  | deleteNode n => exact halong (Exec.Along.modify (Txn.namesGrow_deleteNodeInner n))
  | addEdge src dst etype props => exact halong (Txn.namesGrow_addEdgeInner src dst etype props)
  | updateEdge id props =>
    exact halong (Txn.namesGrow_onWork (Working.namesGrow_updateEdgeImpl id props))
  | deleteEdge id => exact halong (Exec.Along.state (Txn.namesGrow_deleteEdgeInner id))
  | putVectorBytes n bytes => exact halong fun t => .of_eq rfl rfl
  | deleteVectorBytes n => exact halong fun t => .of_eq rfl rfl
  | createNodeTextIndex label property lang =>
    change onWork (onTables (Tables.createNodeTextIndex label property lang)) t = _ at h
    obtain ⟨w, hw, rfl⟩ := Exec.zoom_eq_ok.mp h
    obtain ⟨s, hs, rfl⟩ := Exec.zoom_eq_ok.mp hw
    exact .of_evolves (Tables.evolves_createNodeTextIndex hs).1
  | dropNodeTextIndex label property =>
    exact halong fun t =>
      .of_evolves (Tables.evolves_dropNodeTextIndex label property t.work.tables).1

namespace Graph

/-- Registered names keep their ids along every run. -/
theorem namesGrow_invariant (s₀ : Tables) :
    Invariant (fun _ => True) (fun _ _ => True) (fun t => NamesGrow s₀ t.work.tables)
      (fun s => NamesGrow s₀ s.tables) where
  begin_plain h := h
  begin_batch h := h
  exec {m t r t'} _ h hexec := by
    have hprepare : t.NamesGrow (m.prepare t) := by
      unfold Mutation.prepare
      split <;> exact .of_eq rfl rfl
    exact (h.trans hprepare).trans (Mutation.namesGrow_exec hexec)
  bulk h := h
  commit {t} h := h.trans (Working.namesGrow_of_names_eq (Working.names_flushCounters t.work))
  commitGen h := h.trans (.of_eq rfl rfl)
  ddl _ h hexec := h.trans (.of_evolves (Ddl.evolves hexec))

lemma namesGrow_perform (a : Action) (g : Graph) :
    NamesGrow g.storage.tables (perform a g).2.storage.tables := by
  have hadmissible := (admissible_of_forall (C := fun _ => True) (D := fun _ _ => True)
    (fun _ => trivial) (fun _ _ => trivial) [a] g).1
  exact (namesGrow_invariant g.storage.tables).perform hadmissible (.refl _)

/-! ## Actions that publish nothing -/

/-- Nodes and edges stay. -/
structure SameRecords (s s' : Tables) : Prop where
  nodes : s'.nodes = s.nodes
  edges : s'.edges = s.edges

omit [TextLib] in
lemma SameRecords.of_evolves {s s' : Tables} (h : s.Evolves s') : SameRecords s s' :=
  ⟨h.nodes, h.edges⟩

omit [TextLib] in
lemma SameRecords.trans {s s' s'' : Tables} (h : SameRecords s s') (h' : SameRecords s' s'') :
    SameRecords s s'' :=
  ⟨h'.nodes.trans h.nodes, h'.edges.trans h.edges⟩

lemma sameRecords_invariant (s₀ : Tables) :
    Invariant (fun _ => False) (fun _ _ => True) (fun t => SameRecords s₀ t.work.tables)
      (fun s => SameRecords s₀ s.tables) where
  begin_plain h := h
  begin_batch h := h
  exec hfalse := hfalse.elim
  bulk h := h
  commit {t} h := by
    refine h.trans ?_
    show SameRecords t.work.tables t.work.flushCounters.tables
    unfold Working.flushCounters
    split
    · exact ⟨rfl, rfl⟩
    · simp only [Working.flushLabelDeltas_eq, Working.flushTypeDeltas_eq]
      exact ⟨rfl, rfl⟩
  commitGen h := ⟨h.nodes, h.edges⟩
  ddl _ h hexec := h.trans (.of_evolves (Ddl.evolves hexec))

/-- A mutation that commits without publishing keeps the records. -/
theorem sameRecords_unpublished {m : Mutation} {t t' : Txn} {r : m.Result}
    (hexec : m.exec t = (.ok r, t')) (hchange : m.change r = none) :
    SameRecords t.work.tables t'.work.tables := by
  cases m with
  | putVectorBytes n bytes =>
    obtain rfl := congrArg Prod.snd hexec
    exact ⟨rfl, rfl⟩
  | deleteVectorBytes n =>
    obtain rfl := congrArg Prod.snd hexec
    exact ⟨rfl, rfl⟩
  | createNodeTextIndex label property lang =>
    change onWork (onTables (Tables.createNodeTextIndex label property lang)) _ = _ at hexec
    obtain ⟨w, hw, rfl⟩ := Exec.zoom_eq_ok.mp hexec
    obtain ⟨s, hs, rfl⟩ := Exec.zoom_eq_ok.mp hw
    exact .of_evolves (Tables.evolves_createNodeTextIndex hs).1
  | dropNodeTextIndex label property =>
    obtain rfl := congrArg Prod.snd hexec
    exact .of_evolves (Tables.evolves_dropNodeTextIndex label property _).1
  | _ => cases hchange

omit [TextLib] in
lemma recordColumns_writeGen (m : Mutation) (r : m.Result) (g : Graph) :
    (recordColumns m r g).writeGen = g.writeGen := by
  cases m <;> try rfl
  simp only [recordColumns]
  split <;> rfl

omit [TextLib] in
lemma recordColumns_pending (m : Mutation) (r : m.Result) (g : Graph) :
    (recordColumns m r g).pending = g.pending := by
  cases m <;> try rfl
  simp only [recordColumns]
  split <;> rfl

/-- The change that an action records once it is published. -/
def Action.recorded : Action → Graph → CsrChange
  | .mutation m _, g =>
    match m.exec (.begin g.storage none) with
    | (.ok r, _) => (m.change r).getD .none
    | (.error _, _) => .none
  | .ddl .., _ => .none
  | .update p _, g => (p.run (.begin g.storage)).2.delta.change

/-- The transaction of an action succeeds. -/
def Action.Succeeds : Action → Graph → Txn → Prop
  | .mutation m _, g, t => ∃ r, m.exec (.begin g.storage none) = (.ok r, t)
  | .ddl .., _, _ => False
  | .update p _, g, t =>
    (p.run (.begin g.storage)).2.failed = false ∧ (p.run (.begin g.storage)).2.txn = t

/-- An action keeps the write generation and the records, or it publishes what it records. -/
theorem perform_cases (a : Action) (g : Graph) :
    (perform a g).2.writeGen = g.writeGen ∧
        SameRecords g.storage.tables (perform a g).2.storage.tables ∨
      ∃ t, a.Succeeds g t ∧ g.writeGen < (perform a g).2.writeGen ∧
        (perform a g).2.pending = g.pending.record g.writeGen (a.recorded g) ∧
        SameRecords t.work.tables (perform a g).2.storage.tables := by
  cases a with
  | ddl d commit =>
    refine .inl ⟨?_, (sameRecords_invariant g.storage.tables).perform (a := .ddl d commit)
      (fun _ => trivial) ⟨rfl, rfl⟩⟩
    simp only [perform, schemaChange]
    split
    · rfl
    · split <;> rfl
  | mutation m commit =>
    simp only [perform, autoCommit, Action.recorded, Action.Succeeds]
    rcases hexec : m.exec (.begin g.storage none) with ⟨_ | r, t⟩
    · exact .inl ⟨rfl, rfl, rfl⟩
    · dsimp only
      cases hchange : m.change r with
      | none =>
        rcases commit with e | u
        · exact .inl ⟨rfl, rfl, rfl⟩
        · exact .inl ⟨rfl, sameRecords_unpublished hexec hchange⟩
      | some change =>
        rcases commit with e | u
        · exact .inl ⟨rfl, rfl, rfl⟩
        · simp only [commitAndPublish, recordColumns_writeGen, recordColumns_pending,
            recordColumns_storage]
          exact .inr ⟨t, ⟨r, rfl⟩, Nat.lt_succ_self _, rfl, rfl, rfl⟩
  | update p commit =>
    have hcount := p.txn_run (w := .begin g.storage)
    rcases hrun : p.run (.begin g.storage) with ⟨_ | _, w⟩
    · exact .inl (by simp only [perform, update, hrun]; exact ⟨trivial, rfl, rfl⟩)
    by_cases hw : w.failed = true
    · exact .inl (by simp only [perform, update, hrun, if_pos hw]; exact ⟨trivial, rfl, rfl⟩)
    rcases commit with e | u
    · exact .inl (by simp only [perform, update, hrun, if_neg hw]; exact ⟨rfl, rfl, rfl⟩)
    have hgen : (perform (.update p (.ok u)) g).2.writeGen = g.writeGen + w.mutationsCount := by
      simp only [perform, update, hrun, if_neg hw]
      rfl
    rcases Nat.eq_zero_or_pos w.mutationsCount with hzero | hpos
    · refine .inl ⟨by rw [hgen, hzero, Nat.add_zero],
        (sameRecords_invariant g.storage.tables).perform
        (a := .update p (.ok u)) (fun m result hmem => ?_) ⟨rfl, rfl⟩⟩
      rw [hrun] at hcount
      have hsum : w.mutationsCount = 0 + _ := (hcount (by simpa using hw)).2
      have hpos : 0 < ((p.calls (.begin g.storage)).map Sigma.fst).countP TxnOp.isMutation :=
        List.countP_pos_iff.mpr ⟨.mutation m, List.mem_map.mpr ⟨_, hmem, rfl⟩, rfl⟩
      omega
    · have hflush : SameRecords w.txn.work.tables w.txn.flush.storage.tables :=
        (sameRecords_invariant _).commit ⟨rfl, rfl⟩
      refine .inr ⟨w.txn, by simpa [Action.Succeeds, hrun] using hw, by omega, ?_, ?_⟩
      · simp only [perform, update, hrun, if_neg hw, Action.recorded]
        rfl
      · simp only [perform, update, hrun, if_neg hw, commitAndPublish, recordDelta, if_pos hpos]
        exact ⟨hflush.nodes, hflush.edges⟩

/-- An action that leaves the write generation where it was keeps the records. -/
theorem sameRecords_perform {a : Action} {g : Graph}
    (h : (perform a g).2.writeGen = g.writeGen) :
    SameRecords g.storage.tables (perform a g).2.storage.tables :=
  (perform_cases a g).elim And.right fun ⟨_, _, hlt, _⟩ => (hlt.ne' h).elim

lemma writeGen_le_perform (a : Action) (g : Graph) : g.writeGen ≤ (perform a g).2.writeGen :=
  (perform_cases a g).elim (·.1.ge) fun ⟨_, _, hlt, _⟩ => hlt.le

end Graph

end IssunDB
