import IssunDB.Atomicity

/-!
# Invariants over whole runs

A run of the graph is a list of actions: auto-committing mutations, schema changes and
transactions, each committed or aborted. `Graph.Invariant C D I J` says what has to be shown once
to carry an invariant through every run:

* `J` holds of the committed database and `I` of an open transaction;
* `C` restricts the mutations and `D` the schema changes, in the tables they run on;
* each mutation keeps `I`, each schema change keeps `J`, a transaction begins with `I` and commits
  with `J`.

`Graph.Invariant.run` is the induction over the actions and `Graph.Invariant.txn_run` the one over
the operations of a closure. An auto-committing mutation is the case of a transaction without a
batch cache, where `prepare` and `flush` do nothing (`prepare_plain`, `storage_flush_plain`).
-/

namespace IssunDB

/-! ## Transactions without a batch cache -/

/-- A transaction without a batch cache. -/
def Txn.Plain (t : Txn) : Prop := t.work.memo = none ∧ t.buffer = .empty

namespace Txn

lemma plain_begin (s : Storage) : (begin s none).Plain := ⟨rfl, rfl⟩

lemma flushAdjacency_plain {t : Txn} (h : t.Plain) : t.flushAdjacency = t := by
  obtain ⟨w, adj, buffer⟩ := t
  obtain rfl : buffer = .empty := h.2
  simp [flushAdjacency, AdjBuffer.empty]

theorem storage_flush_plain {t : Txn} (h : t.Plain) : t.flush.storage = t.storage := by
  rw [flush, flushAdjacency_plain h]
  simp [Working.flushCounters, h.1]

end Txn

lemma Mutation.prepare_plain (m : Mutation) {t : Txn} (h : t.Plain) : m.prepare t = t := by
  cases m with
  | deleteNode n =>
    have hw : t.work.invalidateNodes = t.work := by
      obtain ⟨⟨s, memo⟩, adj, buffer⟩ := t
      obtain rfl : memo = none := h.1
      rfl
    rw [prepare, hw]
    exact Txn.flushAdjacency_plain h
  | deleteEdge id => exact Txn.flushAdjacency_plain h
  | _ => rfl

/-- Whether the working state has no memo. -/
def Working.memoless (w : Working) : Bool := w.memo.isNone

namespace Working

lemma memoless_bumpLabelCount (l : LabelId) (d : ℤ) (w : Working) :
    (w.bumpLabelCount l d).memoless = w.memoless := by
  obtain ⟨s, memo⟩ := w
  cases memo <;> rfl

lemma memoless_bumpTypeCount (t : TypeId) (d : ℤ) (w : Working) :
    (w.bumpTypeCount t d).memoless = w.memoless := by
  obtain ⟨s, memo⟩ := w
  cases memo <;> rfl

lemma memoless_allocNodeId (w : Working) : w.allocNodeId.2.memoless = w.memoless := by
  obtain ⟨s, memo⟩ := w
  cases memo <;> rfl

lemma memoless_allocEdgeId (w : Working) : w.allocEdgeId.2.memoless = w.memoless := by
  obtain ⟨s, memo⟩ := w
  cases memo <;> rfl

lemma memoless_resolveType (etype : String) (w : Working) :
    (w.resolveType etype).2.memoless = w.memoless := by
  unfold resolveType
  split
  next c hc =>
    split
    · rfl
    · simp [memoless, hc]
  · rfl

lemma memoless_activeEdgeIndexes (t : TypeId) (w : Working) :
    (w.activeEdgeIndexes t).2.memoless = w.memoless := by
  unfold activeEdgeIndexes
  split
  next c hc =>
    split
    · rfl
    · simp [memoless, hc]
  · rfl

lemma memoless_proveNode (id : NodeId) (w : Working) :
    (proveNode id w).2.memoless = w.memoless := by
  unfold proveNode
  split
  next c hc =>
    split
    · rfl
    · split
      · simp [memoless, hc]
      · rfl
  · split <;> rfl

lemma memoless_onTables {α : Type} (m : Exec Error Tables α) :
    Exec.Keeps memoless (onTables m) := fun _ => rfl

lemma memoless_dropEdge (id : EdgeId) (t : TypeId) (w : Working) :
    (w.dropEdge id t).memoless = w.memoless := memoless_bumpTypeCount ..

lemma memoless_insertEdge (src dst : NodeId) (etype : String) (props : Props) :
    Exec.Keeps memoless (insertEdge src dst etype props) :=
  Exec.Keeps.bind (memoless_proveNode src) fun _ =>
    Exec.Keeps.bind (memoless_proveNode dst) fun _ =>
      Exec.Keeps.bind (Exec.Keeps.state (memoless_resolveType etype)) fun t =>
        Exec.Keeps.bind (Exec.Keeps.state memoless_allocEdgeId) fun _ =>
          Exec.Keeps.bind (Exec.Keeps.state (memoless_activeEdgeIndexes t)) fun _ =>
            Exec.Keeps.bind (memoless_onTables _) fun _ =>
              Exec.Keeps.bind (Exec.Keeps.modify fun _ => rfl) fun _ => Exec.Keeps.pure _

lemma memoless_updateEdgeImpl (id : EdgeId) (props : Props) :
    Exec.Keeps memoless (updateEdgeImpl id props) := by
  refine Exec.Keeps.bind (fun _ => rfl) fun w => ?_
  split
  · exact Exec.Keeps.throw _
  · split
    · exact Exec.Keeps.throw _
    · exact Exec.Keeps.bind (memoless_onTables _) fun _ =>
        Exec.Keeps.bind (Exec.Keeps.gets _) fun _ =>
          Exec.Keeps.bind (memoless_onTables _) fun _ => Exec.Keeps.modify fun _ => rfl

variable [TextLib]

lemma memoless_enterLabel (n : NodeId) (props : Props) (label : LabelId × String) :
    Exec.Keeps memoless (enterLabel n props label) :=
  Exec.Keeps.bind (Exec.Keeps.modify fun _ => memoless_bumpLabelCount ..) fun _ =>
    memoless_onTables _

lemma memoless_addNodeInner (labels : List String) (props : Props) :
    Exec.Keeps memoless (addNodeInner labels props) :=
  Exec.Keeps.bind (memoless_onTables _) fun _ =>
    Exec.Keeps.bind (Exec.Keeps.state memoless_allocNodeId) fun n =>
      Exec.Keeps.bind (Exec.Keeps.modify fun _ => rfl) fun _ =>
        Exec.Keeps.bind (Exec.Keeps.forM (memoless_enterLabel n props)) fun _ =>
          Exec.Keeps.pure _

lemma memoless_updateNodeImpl (n : NodeId) (props : Props) :
    Exec.Keeps memoless (updateNodeImpl n props) := by
  refine Exec.Keeps.bind (fun _ => rfl) fun w => ?_
  split
  · exact Exec.Keeps.throw _
  · exact Exec.Keeps.bind (Exec.Keeps.forM fun _ => memoless_onTables _) fun _ =>
      Exec.Keeps.modify fun _ => rfl

lemma memoless_addLabelInner (n : NodeId) (label : String) :
    Exec.Keeps memoless (addLabelInner n label) := by
  refine Exec.Keeps.bind (fun _ => rfl) fun w => ?_
  split
  · exact Exec.Keeps.throw _
  · refine Exec.Keeps.bind (memoless_onTables _) fun l => ?_
    split
    · exact Exec.Keeps.pure _
    · exact Exec.Keeps.bind (Exec.Keeps.modify fun _ => rfl) fun _ => memoless_enterLabel _ _ _

lemma memoless_removeLabelInner (n : NodeId) (label : String) (w : Working) :
    (w.removeLabelInner n label).memoless = w.memoless := by
  unfold removeLabelInner
  split
  · split
    · exact memoless_bumpLabelCount ..
    · rfl
  · rfl

lemma memoless_leaveLabel (n : NodeId) (props : Props) (w : Working) (l : LabelId) :
    (w.leaveLabel n props l).memoless = w.memoless := memoless_bumpLabelCount ..

lemma memoless_foldl_leaveLabel (n : NodeId) (props : Props) (labels : List LabelId)
    (w : Working) : (labels.foldl (leaveLabel n props) w).memoless = w.memoless :=
  Exec.Keeps.foldl (memoless_leaveLabel n props) labels w

end Working

namespace Txn

/-- Whether there is a memo, and the buffer of a transaction outside bulk-load mode. -/
def shape (t : Txn) : Bool × Option AdjBuffer :=
  (t.work.memoless, if t.buffer.bulk then none else some t.buffer)

lemma plain_of_shape_eq {t t' : Txn} (h : t'.shape = t.shape) (ht : t.Plain) : t'.Plain := by
  have hmemo : t'.work.memo.isNone = true := by
    have := congrArg Prod.fst h
    simpa [shape, Working.memoless, ht.1] using this
  have hbuffer := congrArg Prod.snd h
  simp only [shape, ht.2, AdjBuffer.empty] at hbuffer
  refine ⟨Option.isNone_iff_eq_none.mp hmemo, ?_⟩
  split at hbuffer
  · cases hbuffer
  · exact Option.some.inj hbuffer

lemma shape_onWork {α : Type} {m : Exec Error Working α} (hm : Exec.Keeps Working.memoless m) :
    Exec.Keeps shape (onWork m) := fun t => Prod.ext (hm t.work) rfl

lemma shape_deferAdj {t : Txn} (h : t.buffer.bulk = true) (src dst : NodeId) (ty : TypeId)
    (id : EdgeId) : (t.deferAdj src dst ty id).shape = t.shape := by
  simp only [deferAdj]
  split <;> simp [shape, flushAdjacency, h]

lemma shape_addEdgeInner (src dst : NodeId) (etype : String) (props : Props) :
    Exec.Keeps shape (addEdgeInner src dst etype props) := by
  refine Exec.Keeps.bind (shape_onWork (Working.memoless_insertEdge _ _ _ _)) fun _ => ?_
  refine Exec.Keeps.bind (Exec.Keeps.modify fun t => ?_) fun _ =>
    Exec.Keeps.bind (shape_onWork (Exec.Keeps.modify (Working.memoless_bumpTypeCount _ 1)))
      fun _ => Exec.Keeps.pure _
  split
  next h => exact shape_deferAdj h ..
  next => rfl

lemma shape_deleteEdgeInner (id : EdgeId) (t : Txn) : (t.deleteEdgeInner id).2.shape = t.shape := by
  unfold deleteEdgeInner
  split
  · rfl
  · exact Prod.ext (Working.memoless_dropEdge ..) rfl

lemma shape_dropOutEdge (n : NodeId) (t : Txn) (entry : AdjEntry) :
    (t.dropOutEdge n entry).shape = t.shape :=
  Prod.ext (Working.memoless_dropEdge ..) rfl

lemma shape_dropInEdge (n : NodeId) (t : Txn) (entry : AdjEntry) :
    (t.dropInEdge n entry).shape = t.shape :=
  Prod.ext (Working.memoless_dropEdge ..) rfl

variable [TextLib]

lemma shape_deleteNodeInner (n : NodeId) (t : Txn) : (t.deleteNodeInner n).shape = t.shape := by
  unfold deleteNodeInner
  split
  · rfl
  next record _ =>
    have hlabels : (t.leaveLabels n record).shape = t.shape :=
      Prod.ext (Working.memoless_foldl_leaveLabel ..) rfl
    have hout : ((t.leaveLabels n record).dropOutEdges n).shape = (t.leaveLabels n record).shape :=
      Exec.Keeps.foldl (shape_dropOutEdge n) _ _
    exact (Exec.Keeps.foldl (shape_dropInEdge n) _ _).trans (hout.trans hlabels)

end Txn

variable [TextLib]

/-- A mutation without a batch cache stays without one. -/
theorem Mutation.plain_exec (m : Mutation) {t : Txn} (ht : t.Plain) : (m.exec t).2.Plain := by
  refine Txn.plain_of_shape_eq ?_ ht
  cases m with
  | addNode label props => exact Txn.shape_onWork (Working.memoless_addNodeInner _ _) t
  | addNodeMulti labels props => exact Txn.shape_onWork (Working.memoless_addNodeInner _ _) t
  | updateNode n props => exact Txn.shape_onWork (Working.memoless_updateNodeImpl _ _) t
  | addLabel n label => exact Txn.shape_onWork (Working.memoless_addLabelInner _ _) t
  | removeLabel n label =>
    exact Txn.shape_onWork (Exec.Keeps.modify (Working.memoless_removeLabelInner n label)) t
  | deleteNode n => exact Txn.shape_deleteNodeInner n t
  | addEdge src dst etype props => exact Txn.shape_addEdgeInner src dst etype props t
  | updateEdge id props => exact Txn.shape_onWork (Working.memoless_updateEdgeImpl _ _) t
  | deleteEdge id => exact Txn.shape_deleteEdgeInner id t
  | putVectorBytes n bytes => rfl
  | deleteVectorBytes n => rfl
  | createNodeTextIndex label property lang => rfl
  | dropNodeTextIndex label property => rfl

/-! ## The induction -/

namespace Graph

omit [TextLib] in
lemma recordColumns_storage (m : Mutation) (r : m.Result) (g : Graph) :
    (recordColumns m r g).storage = g.storage := by
  cases m <;> try rfl
  simp only [recordColumns]
  split <;> rfl

/-- What carries `J` through the committed databases of every run and `I` through the open
transactions. -/
structure Invariant (C : Mutation → Prop) (D : Ddl → Tables → Prop) (I : Txn → Prop)
    (J : Storage → Prop) : Prop where
  begin_plain : ∀ {s}, J s → I (.begin s none)
  begin_batch : ∀ {s}, J s → I (.begin s (some .empty))
  exec : ∀ {m t r t'}, C m → I t → m.exec (m.prepare t) = (.ok r, t') → I t'
  bulk : ∀ {t}, I t → I t.beginBulkLoad
  commit : ∀ {t}, I t → J t.flush.storage
  commitGen : ∀ {s}, J s → J (bumpCommitGen s)
  ddl : ∀ {d s s'}, D d s.tables → J s → d.exec s.tables = (.ok (), s') →
    J { s with tables := s' }

/-- The mutations of an action satisfy `C`, and a schema change that commits satisfies `D` in the
tables it runs on. -/
def Action.Admissible (C : Mutation → Prop) (D : Ddl → Tables → Prop) : Action → Graph → Prop
  | .mutation m _, _ => C m
  | .ddl d commit, g => commit = .ok () → D d g.storage.tables
  | .update p _, g =>
    ∀ m result, (⟨.mutation m, result⟩ : Call) ∈ p.calls (.begin g.storage) → C m

def Admissible (C : Mutation → Prop) (D : Ddl → Tables → Prop) : List Action → Graph → Prop
  | [], _ => True
  | a :: actions, g => a.Admissible C D g ∧ Admissible C D actions (perform a g).2

lemma admissible_of_forall {C : Mutation → Prop} {D : Ddl → Tables → Prop} (hC : ∀ m, C m)
    (hD : ∀ d s, D d s) (actions : List Action) (g : Graph) : Admissible C D actions g := by
  induction actions generalizing g with
  | nil => trivial
  | cons a actions ih =>
    refine ⟨?_, ih _⟩
    cases a with
    | mutation m commit => exact hC m
    | ddl d commit => exact fun _ => hD _ _
    | update p commit => exact fun m _ _ => hC m

/-- Weaker requirements admit more runs. -/
theorem Admissible.mono {C C' : Mutation → Prop} {D D' : Ddl → Tables → Prop}
    {actions : List Action} {g : Graph} (h : Admissible C D actions g) (hC : ∀ m, C m → C' m)
    (hD : ∀ d s, D d s → D' d s) : Admissible C' D' actions g := by
  induction actions generalizing g with
  | nil => trivial
  | cons a actions ih =>
    refine ⟨?_, ih h.2⟩
    have ha := h.1
    cases a with
    | mutation m commit => exact hC m ha
    | ddl d commit => exact fun hok => hD _ _ (ha hok)
    | update p commit => exact fun m result hmem => hC m (ha m result hmem)

namespace Invariant

variable {C : Mutation → Prop} {D : Ddl → Tables → Prop} {I : Txn → Prop} {J : Storage → Prop}

/-- One operation of a transaction keeps the invariant, unless it is a mutation that fails. -/
theorem op_exec (h : Invariant C D I J) {op : TxnOp} {w : WriteTxn} (hw : w.failed = false)
    (hop : callFailed ⟨op, (op.exec w).1⟩ = false) (hC : ∀ m, op = .mutation m → C m)
    (hI : I w.txn) : I (op.exec w).2.txn := by
  rw [(TxnOp.exec_ok hw hop).1]
  cases op with
  | mutation m =>
    simp only [TxnOp.exec, WriteTxn.mutate, hw, WriteTxn.runMutation] at hop
    rcases hexec : m.exec (m.prepare w.txn) with ⟨_ | r, t⟩
    · simp [hexec, callFailed] at hop
    · simpa [TxnOp.effect, hexec] using h.exec (hC m rfl) hI hexec
  | read r => exact hI
  | beginBulkLoad => exact h.bulk hI

/-- A closure keeps the invariant of its transaction as long as no mutation fails. -/
theorem txn_run (h : Invariant C D I J) {α : Type} (p : Prog α) {w : WriteTxn}
    (hfailed : (p.run w).2.failed = false)
    (hC : ∀ m result, (⟨.mutation m, result⟩ : Call) ∈ p.calls w → C m) (hI : I w.txn) :
    I (p.run w).2.txn := by
  induction p generalizing w with
  | done result => exact hI
  | call op next ih =>
    have hnone := hfailed
    rw [Prog.failed_run, Prog.calls, List.any_cons] at hnone
    simp only [Bool.or_eq_false_iff] at hnone
    obtain ⟨hw, hop, -⟩ := hnone
    refine ih _ hfailed (fun m result hmem => hC m result (List.mem_cons_of_mem _ hmem)) ?_
    refine h.op_exec hw hop (fun m hm => ?_) hI
    subst hm
    exact hC m _ List.mem_cons_self

/-- Committing keeps the invariant. -/
theorem commitAndPublish (h : Invariant C D I J) {commit : Except Error Unit} {s : Storage}
    {count : ℕ} {change : CsrChange} {g g' : Graph} (hs : J s)
    (hg : Graph.commitAndPublish commit s count change g = .ok g') : J g'.storage := by
  rcases commit with e | u
  · simp [Graph.commitAndPublish] at hg
  · obtain rfl := Except.ok.inj hg
    dsimp only
    split
    · exact h.commitGen hs
    · exact hs

/-- An action keeps the invariant of the committed database. -/
theorem perform (h : Invariant C D I J) {a : Action} {g : Graph} (ha : a.Admissible C D g)
    (hJ : J g.storage) : J (Graph.perform a g).2.storage := by
  cases a with
  | mutation m commit =>
    simp only [Graph.perform, autoCommit]
    have hplain := Txn.plain_begin g.storage
    rcases hexec : m.exec (.begin g.storage none) with ⟨_ | r, t⟩
    · exact hJ
    · have ht : t.Plain := by
        have := m.plain_exec hplain
        rwa [hexec] at this
      have hI : I t := h.exec ha (h.begin_plain hJ) (by rw [m.prepare_plain hplain, hexec])
      have hs : J t.storage := Txn.storage_flush_plain ht ▸ h.commit hI
      dsimp only
      split
      · split
        · exact hJ
        · exact hs
      · split
        · exact hJ
        · next hg =>
          have := h.commitAndPublish hs hg
          rwa [recordColumns_storage]
  | ddl d commit =>
    simp only [Graph.perform, schemaChange]
    rcases hexec : d.exec g.storage.tables with ⟨_ | _, s⟩
    · exact hJ
    · dsimp only
      split
      · exact hJ
      · exact h.ddl (ha rfl) hJ hexec
  | update p commit =>
    simp only [Graph.perform, update]
    rcases hrun : p.run (.begin g.storage) with ⟨_ | a, w⟩
    · exact hJ
    · dsimp only
      by_cases hw : w.failed = true
      · rw [if_pos hw]
        exact hJ
      rw [if_neg hw]
      split
      · exact hJ
      · next g' hg =>
        have hI := h.txn_run p (w := .begin g.storage) (by rw [hrun]; simpa using hw) ha
          (h.begin_batch hJ)
        rw [hrun] at hI
        have := h.commitAndPublish (h.commit hI) hg
        exact this

/-- **Invariance.** A run of admissible actions keeps the invariant of the committed database. -/
theorem run (h : Invariant C D I J) {actions : List Action} {g : Graph}
    (hactions : Admissible C D actions g) (hJ : J g.storage) :
    J (Graph.run actions g).storage := by
  induction actions generalizing g with
  | nil => exact hJ
  | cons a actions ih => exact ih hactions.2 (h.perform hactions.1 hJ)

end Invariant

end Graph

end IssunDB
