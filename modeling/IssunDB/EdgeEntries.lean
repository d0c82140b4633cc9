import IssunDB.IndexDeclarations

/-!
# Property-index entries of edges

Edges are indexed under declared indexes only. Their entries are written and removed by two
operations, `writeEdgeIndexEntries` and `deleteEdgeIndexEntries`, which read the declared indexes
of the edge's type, the first one through the memo of the transaction.

* `EdgeRecords` — the edges as they are entered in the index. Between two operations these are
  the stored records; within one they lag behind.
* `EdgeFrame` — what every operation that is not about edges keeps.
* `EdgeMaintained G H` — what has to be shown of a relation `H` between tables and entered edges;
  `EdgeMaintained.exec` and `EdgeMaintained.invariant` carry it through mutations and runs.
-/

namespace IssunDB

abbrev EdgeRecords := EdgeId → Option EdgeRecord

/-! ## Operations that are not about edges -/

/-- Edges, their index and their declared indexes stay, names are only added. -/
structure EdgeFrame (s s' : Tables) : Prop where
  edges : s'.edges = s.edges
  entries : s'.edgePropIdx = s.edgePropIdx
  declared : s'.metaDb.idxEdge = s.metaDb.idxEdge
  types : s.metaDb.types.Extends s'.metaDb.types
  keys : s.metaDb.propKeys.registry.Extends s'.metaDb.propKeys.registry

namespace EdgeFrame

lemma of_eq {s s' : Tables} (hedges : s'.edges = s.edges)
    (hentries : s'.edgePropIdx = s.edgePropIdx)
    (hdeclared : s'.metaDb.idxEdge = s.metaDb.idxEdge) (htypes : s'.metaDb.types = s.metaDb.types)
    (hkeys : s'.metaDb.propKeys = s.metaDb.propKeys) : EdgeFrame s s' :=
  ⟨hedges, hentries, hdeclared, htypes ▸ .refl _, hkeys ▸ .refl _⟩

instance : Std.Refl EdgeFrame := ⟨fun _ => .of_eq rfl rfl rfl rfl rfl⟩

instance : IsTrans Tables EdgeFrame :=
  ⟨fun _ _ _ h h' => ⟨h'.edges.trans h.edges, h'.entries.trans h.entries,
    h'.declared.trans h.declared, h.types.trans h'.types, h.keys.trans h'.keys⟩⟩

lemma refl (s : Tables) : EdgeFrame s s := Std.Refl.refl s

lemma trans {s s' s'' : Tables} (h : EdgeFrame s s') (h' : EdgeFrame s' s'') : EdgeFrame s s'' :=
  IsTrans.trans _ _ _ h h'

end EdgeFrame

namespace Tables

lemma edgeFrame_getOrCreatePropKey (name : String) (s : Tables) :
    EdgeFrame s (s.getOrCreatePropKey name).2 :=
  ⟨rfl, rfl, rfl, .refl _, s.metaDb.propKeys.extends_getOrCreate name⟩

lemma edgeFrame_indexDeclaredProp (l : LabelId) (labelName : String) (n : NodeId) (props : Props)
    (active : PropKeyId × IndexRole) :
    Exec.Along EdgeFrame (indexDeclaredProp l labelName n props active) := by
  refine Exec.Along.bind (Exec.Along.check _) fun _ => Exec.Along.modify fun s => ?_
  unfold declaredWrite
  split
  · exact .of_eq rfl rfl rfl rfl rfl
  · exact .refl s

lemma edgeFrame_autoIndexFields (l : LabelId) (n : NodeId) (props : Props) (declared : List String)
    (s : Tables) : EdgeFrame s (s.autoIndexFields l n props declared) := by
  unfold autoIndexFields
  split
  · exact .refl s
  · refine Exec.Along.foldl (R := EdgeFrame) (fun s field => ?_) _ _
    unfold autoIndexField
    split
    · exact .refl s
    · split
      · exact .refl s
      · exact (edgeFrame_getOrCreatePropKey field.1 s).trans (.of_eq rfl rfl rfl rfl rfl)

lemma edgeFrame_unindexProps (l : LabelId) (n : NodeId) (props : Props) (s : Tables) :
    EdgeFrame s (s.unindexProps l n props) := by
  have hdeclared :
      EdgeFrame s ((s.getActiveNodeIndexes l).foldl (unindexDeclaredProp l n props) s) := by
    refine Exec.Along.foldl (R := EdgeFrame) (fun s active => ?_) _ _
    unfold unindexDeclaredProp
    split
    · exact .refl s
    · split
      · exact .of_eq rfl rfl rfl rfl rfl
      · exact .refl s
  simp only [unindexProps]
  split
  · exact hdeclared
  · refine hdeclared.trans (Exec.Along.foldl (R := EdgeFrame) (fun s field => ?_) _ _)
    unfold unindexField
    split
    · exact .refl s
    · split
      · exact .of_eq rfl rfl rfl rfl rfl
      · exact .refl s

section Text

variable [TextLib]

lemma edgeFrame_indexNodeFts (n : NodeId) (l : LabelId) (props : Props) (s : Tables) :
    EdgeFrame s (s.indexNodeFts n l props) := by
  refine Exec.Along.foldl (R := EdgeFrame) (fun s e => ?_) _ _
  simp only [addNodePropFtsEntry]
  split
  · exact .of_eq rfl rfl rfl rfl rfl
  · exact .refl s

lemma edgeFrame_deleteNodeFts (n : NodeId) (l : LabelId) (props : Props) (s : Tables) :
    EdgeFrame s (s.deleteNodeFts n l props) := by
  refine Exec.Along.foldl (R := EdgeFrame) (fun s e => ?_) _ _
  unfold removeNodePropFtsEntry
  split
  · exact .refl s
  · exact .of_eq rfl rfl rfl rfl rfl

lemma edgeFrame_indexNodeForLabel (l : LabelId) (labelName : String) (n : NodeId) (props : Props) :
    Exec.Along EdgeFrame (indexNodeForLabel l labelName n props) :=
  Exec.Along.bind Exec.Along.get fun _ =>
    Exec.Along.bind (Exec.Along.forM (edgeFrame_indexDeclaredProp l labelName n props)) fun _ =>
      Exec.Along.bind (Exec.Along.modify (edgeFrame_autoIndexFields l n props _)) fun _ =>
        Exec.Along.modify (edgeFrame_indexNodeFts n l props)

lemma edgeFrame_unindexNodeForLabel (l : LabelId) (n : NodeId) (props : Props) (s : Tables) :
    EdgeFrame s (s.unindexNodeForLabel l n props) :=
  (edgeFrame_unindexProps l n props s).trans (edgeFrame_deleteNodeFts n l props _)

lemma edgeFrame_backfillText (l : LabelId) (p : PropKeyId) (property : String) (lang : Language)
    (ids : List NodeId) (acc : ℕ × ℕ) :
    Exec.Along EdgeFrame (backfillText l p property lang ids acc) := by
  intro s
  exact .of_eq (keeps_backfillText (f := Tables.edges) (fun _ _ _ => rfl) property lang ids acc s)
    (keeps_backfillText (f := Tables.edgePropIdx) (fun _ _ _ => rfl) property lang ids acc s)
    (keeps_backfillText (f := (·.metaDb.idxEdge)) (fun _ _ _ => rfl) property lang ids acc s)
    (keeps_backfillText (f := (·.metaDb.types)) (fun _ _ _ => rfl) property lang ids acc s)
    (keeps_backfillText (f := (·.metaDb.propKeys)) (fun _ _ _ => rfl) property lang ids acc s)

lemma edgeFrame_createNodeTextIndex (label property : String) (lang : Language) :
    Exec.Along EdgeFrame (createNodeTextIndex label property lang) := by
  refine Exec.Along.bind (Exec.Along.state fun s => .of_eq rfl rfl rfl rfl rfl) fun l =>
    Exec.Along.bind (Exec.Along.state (edgeFrame_getOrCreatePropKey property)) fun p =>
      Exec.Along.bind Exec.Along.get fun s => ?_
  split
  · exact Exec.Along.pure _
  · exact Exec.Along.bind (edgeFrame_backfillText l p property lang _ _) fun _ =>
      Exec.Along.modify fun s => .of_eq rfl rfl rfl rfl rfl

omit [TextLib] in
lemma edgeFrame_dropNodeTextIndex (label property : String) (s : Tables) :
    EdgeFrame s (s.dropNodeTextIndex label property) := by
  have hreg : EdgeFrame s (s.register label property).2.2 :=
    ⟨rfl, rfl, rfl, .refl _, s.metaDb.propKeys.extends_getOrCreate property⟩
  rw [dropNodeTextIndex_eq rfl]
  split
  · exact hreg.trans (.of_eq rfl rfl rfl rfl rfl)
  · exact hreg

end Text

end Tables

namespace Working

def Frame (w w' : Working) : Prop := EdgeFrame w.tables w'.tables

instance : Std.Refl Frame := ⟨fun w => EdgeFrame.refl w.tables⟩

instance : IsTrans Working Frame := ⟨fun _ _ _ h h' => EdgeFrame.trans h h'⟩

lemma frame_onTables {α : Type} {m : Exec Error Tables α} (hm : Exec.Along EdgeFrame m) :
    Exec.Along Frame (onTables m) := fun w => hm w.tables

lemma frame_bumpLabelCount (l : LabelId) (d : ℤ) (w : Working) :
    Frame w (w.bumpLabelCount l d) := by
  obtain ⟨s, memo⟩ := w
  cases memo
  · exact EdgeFrame.of_eq rfl rfl rfl rfl rfl
  · exact EdgeFrame.refl s

lemma frame_bumpTypeCount (t : TypeId) (d : ℤ) (w : Working) : Frame w (w.bumpTypeCount t d) := by
  obtain ⟨s, memo⟩ := w
  cases memo
  · exact EdgeFrame.of_eq rfl rfl rfl rfl rfl
  · exact EdgeFrame.refl s

lemma frame_linkLabel (l : LabelId) (n : NodeId) (w : Working) : Frame w (w.linkLabel l n) := by
  have hlink : Frame w { w with tables := { w.tables with
      labelIdx := insert (l, n) w.tables.labelIdx } } := EdgeFrame.of_eq rfl rfl rfl rfl rfl
  exact EdgeFrame.trans hlink (frame_bumpLabelCount l 1 _)

lemma frame_unlinkLabel (l : LabelId) (n : NodeId) (w : Working) : Frame w (w.unlinkLabel l n) := by
  have hunlink : Frame w { w with tables := { w.tables with
      labelIdx := w.tables.labelIdx.erase (l, n) } } := EdgeFrame.of_eq rfl rfl rfl rfl rfl
  exact EdgeFrame.trans hunlink (frame_bumpLabelCount l (-1) _)

lemma frame_putNode (n : NodeId) (record : NodeRecord) (w : Working) :
    Frame w (w.putNode n record) := EdgeFrame.of_eq rfl rfl rfl rfl rfl

lemma frame_allocNodeId (w : Working) : Frame w w.allocNodeId.2 := by
  obtain ⟨s, memo⟩ := w
  cases memo
  · exact EdgeFrame.of_eq rfl rfl rfl rfl rfl
  · exact EdgeFrame.refl s

lemma frame_allocEdgeId (w : Working) : Frame w w.allocEdgeId.2 := by
  obtain ⟨s, memo⟩ := w
  cases memo
  · exact EdgeFrame.of_eq rfl rfl rfl rfl rfl
  · exact EdgeFrame.refl s

lemma frame_flushCounters (w : Working) : Frame w w.flushCounters := by
  unfold flushCounters
  split
  · exact EdgeFrame.refl _
  · simp only [flushLabelDeltas_eq, flushTypeDeltas_eq]
    exact EdgeFrame.of_eq rfl rfl rfl rfl rfl

lemma edgeFrame_resolveLabels (names : List String) (r : ResolvedLabels) (s : Tables) :
    EdgeFrame s (Tables.resolveLabels names r s).2 := by
  induction names generalizing r s with
  | nil => exact .refl s
  | cons name names ih =>
    have hfirst : EdgeFrame s (s.getOrCreateLabel name).2 := .of_eq rfl rfl rfl rfl rfl
    exact hfirst.trans (ih _ _)

section Nodes

variable [TextLib]

lemma frame_enterLabel (n : NodeId) (props : Props) (label : LabelId × String) :
    Exec.Along Frame (enterLabel n props label) :=
  Exec.Along.bind (Exec.Along.modify (frame_linkLabel label.1 n)) fun _ =>
    frame_onTables (Tables.edgeFrame_indexNodeForLabel label.1 label.2 n props)

lemma frame_addNodeInner (labels : List String) (props : Props) :
    Exec.Along Frame (addNodeInner labels props) :=
  Exec.Along.bind (frame_onTables (Exec.Along.state (edgeFrame_resolveLabels labels .nil))) fun _ =>
    Exec.Along.bind (Exec.Along.state frame_allocNodeId) fun n =>
      Exec.Along.bind (Exec.Along.modify (frame_putNode n _)) fun _ =>
        Exec.Along.bind (Exec.Along.forM (frame_enterLabel n props)) fun _ => Exec.Along.pure _

lemma edgeFrame_reindexLabel (n : NodeId) (old new : Props) (l : LabelId) :
    Exec.Along EdgeFrame (reindexLabel n old new l) :=
  Exec.Along.bind Exec.Along.get fun _ =>
    Exec.Along.bind (Exec.Along.modify (Tables.edgeFrame_unindexNodeForLabel l n old)) fun _ =>
      Tables.edgeFrame_indexNodeForLabel l _ n new

lemma frame_updateNodeImpl (n : NodeId) (props : Props) :
    Exec.Along Frame (updateNodeImpl n props) := by
  refine Exec.Along.bind Exec.Along.get fun w => ?_
  split
  · exact Exec.Along.throw _
  · exact Exec.Along.bind
      (Exec.Along.forM fun l => frame_onTables (edgeFrame_reindexLabel n _ props l)) fun _ =>
      Exec.Along.modify (frame_putNode n _)

lemma frame_addLabelInner (n : NodeId) (label : String) :
    Exec.Along Frame (addLabelInner n label) := by
  refine Exec.Along.bind Exec.Along.get fun w => ?_
  split
  · exact Exec.Along.throw _
  · refine Exec.Along.bind (frame_onTables (Exec.Along.state fun s =>
      EdgeFrame.of_eq rfl rfl rfl rfl rfl)) fun l => ?_
    split
    · exact Exec.Along.pure _
    · exact Exec.Along.bind (Exec.Along.modify (frame_putNode n _)) fun _ => frame_enterLabel n _ _

lemma frame_removeLabelInner (n : NodeId) (label : String) (w : Working) :
    Frame w (w.removeLabelInner n label) := by
  unfold removeLabelInner
  split
  next record l _ _ =>
    split
    · exact EdgeFrame.trans (frame_putNode n _ w) (EdgeFrame.trans (frame_unlinkLabel l n _)
        (Tables.edgeFrame_unindexNodeForLabel l n record.props _))
    · exact EdgeFrame.refl _
  next => exact EdgeFrame.refl _

lemma frame_leaveLabel (n : NodeId) (props : Props) (w : Working) (l : LabelId) :
    Frame w (w.leaveLabel n props l) :=
  EdgeFrame.trans (Tables.edgeFrame_unindexNodeForLabel l n props w.tables)
    (frame_unlinkLabel l n { w with tables := w.tables.unindexNodeForLabel l n props })

end Nodes

end Working

/-! ## Relations that index maintenance keeps -/

def Tables.records (s : Tables) : EdgeRecords := s.edges.get

/-- Away from the edge `id`, the entered edges are the stored ones. -/
def Tables.AgreesOff (s : Tables) (D : EdgeRecords) (id : EdgeId) : Prop :=
  ∀ id', id' ≠ id → D id' = s.records id'

/-- The relation `H` between tables and entered edges is kept by every operation that is not about
edges, and writing and deleting the entries of an edge move it along. The properties written
satisfy `G`. -/
structure EdgeMaintained (G : Props → Prop) (H : Tables → EdgeRecords → Prop) : Prop where
  frame : ∀ {s s' D}, EdgeFrame s s' → H s D → H s' D
  write : ∀ {s s' D id r etype}, G r.props → H s D → D id = none → s.AgreesOff D id →
    s.getType etype = some r.edgeType →
    Tables.writeEdgeIndexEntries (s.getActiveEdgeIndexes r.edgeType) id r.edgeType etype r.props s =
      (.ok ⟨⟩, s') →
    H s' (Function.update D id (some r))
  delete : ∀ {s D id r}, H s D → D id = some r →
    H (s.deleteEdgeIndexEntries id r) (Function.update D id none)
  /-- The relation does not depend on the edge table. -/
  edges : ∀ {s D edges}, H s D → H { s with edges := edges } D

/-- The tables relate to the stored edges, and the properties of every edge satisfy `G`. -/
structure Tables.EdgeEntries (G : Props → Prop) (H : Tables → EdgeRecords → Prop) (s : Tables) :
    Prop where
  entries : H s s.records
  props : ∀ id r, s.edges.get id = some r → G r.props

/-- The properties that a mutation writes to an edge satisfy `G`. -/
def Mutation.EdgeProps (G : Props → Prop) : Mutation → Prop
  | addEdge _ _ _ props | updateEdge _ props => G props
  | _ => True

lemma Tables.keeps_edges_writeEdgeIndexEntries (active : List (PropKeyId × IndexRole)) (id : EdgeId)
    (t : TypeId) (etype : String) (props : Props) :
    Exec.Keeps Tables.edges (Tables.writeEdgeIndexEntries active id t etype props) :=
  Exec.Keeps.forM (Tables.keeps_indexDeclared fun _ _ _ => rfl)

lemma Tables.edges_deleteEdgeIndexEntries (id : EdgeId) (record : EdgeRecord) (s : Tables) :
    (s.deleteEdgeIndexEntries id record).edges = s.edges := by
  refine Exec.Keeps.foldl (f := Tables.edges) (fun s active => ?_) _ _
  unfold Tables.deleteEdgeIndexEntry
  split
  · rfl
  · split <;> rfl

lemma Tables.records_put (s : Tables) (id : EdgeId) (r : EdgeRecord) :
    Tables.records { s with edges := s.edges.put id r } =
      Function.update s.records id (some r) := by
  funext id'
  simp only [Tables.records, Table.get_put, Function.update_apply]

lemma Tables.records_erase (s : Tables) (id : EdgeId) :
    Tables.records { s with edges := s.edges.erase id } = Function.update s.records id none := by
  funext id'
  simp only [Tables.records, Table.get_erase, Function.update_apply]

namespace EdgeMaintained

variable {G : Props → Prop} {H : Tables → EdgeRecords → Prop}

lemma entries_frame (hM : EdgeMaintained G H) {s s' : Tables} (h : s.EdgeEntries G H)
    (hframe : EdgeFrame s s') : s'.EdgeEntries G H := by
  have hrecords : s'.records = s.records := by
    unfold Tables.records
    rw [hframe.edges]
  refine ⟨?_, fun id r hget => h.props id r (hframe.edges ▸ hget)⟩
  rw [hrecords]
  exact hM.frame hframe h.entries

lemma dropEdge (hM : EdgeMaintained G H) {w : Working} (h : w.tables.EdgeEntries G H) (id : EdgeId)
    (t : TypeId) : (w.dropEdge id t).tables.EdgeEntries G H := by
  refine hM.entries_frame ?_ (Working.frame_bumpTypeCount t (-1) _)
  rcases hget : w.tables.edges.get id with _ | record
  · -- nothing to remove
    have herase : w.tables.edges.erase id = w.tables.edges := Table.erase_of_get_none _ hget
    simp only [herase]
    exact h
  · dsimp only
    have hrecords : Tables.records { w.tables.deleteEdgeIndexEntries id record with
        edges := (w.tables.deleteEdgeIndexEntries id record).edges.erase id } =
        Function.update w.tables.records id none := by
      rw [Tables.records_erase]
      unfold Tables.records
      rw [Tables.edges_deleteEdgeIndexEntries]
    refine ⟨?_, fun id' r hget' => ?_⟩
    · rw [hrecords]
      exact hM.edges (hM.delete h.entries hget)
    · simp only [Tables.edges_deleteEdgeIndexEntries, Table.get_erase] at hget'
      split at hget'
      · cases hget'
      · exact h.props id' r hget'

lemma insertEdge (hM : EdgeMaintained G H) {src dst : NodeId} {etype : String} {props : Props}
    {w w' : Working} {id : EdgeId} {t : TypeId} (hw : w.Sound) (hG : G props)
    (h : w.tables.EdgeEntries G H)
    (hinsert : Working.insertEdge src dst etype props w = (.ok (id, t), w')) :
    w'.tables.EdgeEntries G H := by
  obtain ⟨w₁, w₂, w₃, w₄, w₅, active, s, hsrc, hdst, htype, halloc, hactive, hwrite, rfl⟩ :=
    Working.insertEdge_ok hinsert
  obtain ⟨-, ht₁, hn₁, he₁, hm₁⟩ := Working.proveNode_spec hw hsrc
  have hw₁ : w₁.Sound := ⟨hn₁ ▸ hw.nodes, he₁ ▸ hw.edges, hm₁⟩
  obtain ⟨-, ht₂, hn₂, he₂, hm₂⟩ := Working.proveNode_spec hw₁ hdst
  have hw₂ : w₂.Sound := ⟨hn₂ ▸ hw₁.nodes, he₂ ▸ hw₁.edges, hm₂⟩
  obtain ⟨hreg, hext, ht₃, hn₃, he₃, hm₃⟩ := Working.resolveType_spec hw₂ htype
  have hedges₃ : w₃.edgeView.Sound := by
    rw [he₃]
    exact hw₂.edges.register hext
  obtain ⟨hid, -, -, -, hm₄⟩ := Working.allocEdgeId_spec halloc
  obtain rfl : w₃.allocEdgeId.2 = w₄ := congrArg Prod.snd halloc
  obtain ⟨hactive', ht₅, -, -, -⟩ := Working.activeEdgeIndexes_spec (hm₄ hm₃) hactive
  -- up to the write, only names and ids are added
  have hframe : EdgeFrame w.tables w₅.tables := by
    have hframe₃ : EdgeFrame w.tables w₃.tables := by
      rw [← ht₁, ← ht₂]
      exact ⟨by rw [ht₃], by rw [ht₃], by rw [ht₃], hext,
        ht₃ ▸ .refl _⟩
    rw [ht₅]
    exact hframe₃.trans (Working.frame_allocEdgeId w₃)
  have hfresh : w₅.tables.records id = none := by
    have hnone : w₃.tables.edges.get id = none := by
      rw [hid]
      exact hedges₃.get_nextEdge
    have hedges : w₅.tables.edges = w₃.tables.edges := by
      rw [ht₅]
      exact (Working.frame_allocEdgeId w₃).edges
    rw [Tables.records, hedges]
    exact hnone
  have h₅ := hM.entries_frame h hframe
  have hgettype : w₅.tables.getType etype = some t := by
    rw [ht₅]
    exact (Working.frame_allocEdgeId w₃).types etype t hreg
  rw [hactive', ← ht₅] at hwrite
  have hH :=
    hM.write (r := ⟨src, dst, t, props⟩) hG h₅.entries hfresh (fun _ _ => rfl) hgettype hwrite
  have hedges : s.edges = w₅.tables.edges := by
    have hkeep := Tables.keeps_edges_writeEdgeIndexEntries
      (w₅.tables.getActiveEdgeIndexes t) id t etype props w₅.tables
    rwa [hwrite] at hkeep
  have hrecords : s.records = w₅.tables.records := by
    unfold Tables.records
    rw [hedges]
  refine ⟨?_, fun id' r hget => ?_⟩
  · change H { s with edges := s.edges.put id ⟨src, dst, t, props⟩ }
      (Tables.records { s with edges := s.edges.put id ⟨src, dst, t, props⟩ })
    rw [Tables.records_put, hrecords]
    exact hM.edges hH
  · simp only [Working.putEdge, Table.get_put, hedges] at hget
    split at hget
    · exact Option.some.inj hget ▸ hG
    · exact h₅.props id' r hget

lemma updateEdgeImpl (hM : EdgeMaintained G H) {id : EdgeId} {props : Props} {w w' : Working}
    (hG : G props) (h : w.tables.EdgeEntries G H)
    (hupdate : Working.updateEdgeImpl id props w = (.ok (), w')) : w'.tables.EdgeEntries G H := by
  obtain ⟨record, etype, s, hget, hname, hwrite, rfl⟩ := Working.updateEdgeImpl_ok hupdate
  set s₁ := w.tables.deleteEdgeIndexEntries id record
  have hedges₁ : s₁.edges = w.tables.edges := Tables.edges_deleteEdgeIndexEntries id record w.tables
  have hrecords₁ : s₁.records = w.tables.records := by
    unfold Tables.records
    rw [hedges₁]
  have hbase : s₁.base = w.tables.base := Tables.base_deleteEdgeIndexEntries id record w.tables
  have hH₁ : H s₁ (Function.update w.tables.records id none) := hM.delete h.entries hget
  have hoff : s₁.AgreesOff (Function.update w.tables.records id none) id := fun id' hne => by
    rw [Function.update_of_ne hne, hrecords₁]
  have htype : s₁.getType etype = some record.edgeType := by
    have htypes : s₁.metaDb.types = w.tables.metaDb.types := congrArg (·.metaDb.types) hbase
    rw [Tables.getType, htypes]
    exact Registry.nameOf_eq_some.mp hname
  have hH :=
    hM.write (r := { record with props := props }) hG hH₁ (Function.update_self ..) hoff htype
    hwrite
  rw [Function.update_idem] at hH
  have hedges : s.edges = w.tables.edges := by
    have hkeep := Tables.keeps_edges_writeEdgeIndexEntries
      (s₁.getActiveEdgeIndexes record.edgeType) id record.edgeType etype props s₁
    rw [hwrite] at hkeep
    exact hkeep.trans hedges₁
  have hrecords : s.records = w.tables.records := by
    unfold Tables.records
    rw [hedges]
  refine ⟨?_, fun id' r hget' => ?_⟩
  · change H { s with edges := s.edges.put id { record with props := props } }
      (Tables.records { s with edges := s.edges.put id { record with props := props } })
    rw [Tables.records_put, hrecords]
    exact hM.edges hH
  · simp only [Working.putEdge, Table.get_put, hedges] at hget'
    split at hget'
    · exact Option.some.inj hget' ▸ hG
    · exact h.props id' r hget'

variable [TextLib]

/-- **Step.** Every mutation that succeeds keeps the relation. -/
theorem exec (hM : EdgeMaintained G H) {m : Mutation} {t t' : Txn} {r : m.Result}
    (hm : m.EdgeProps G) (ht : t.Sound) (h : t.work.tables.EdgeEntries G H)
    (hexec : m.exec (m.prepare t) = (.ok r, t')) : t'.work.tables.EdgeEntries G H := by
  -- operations on nodes and on text indexes follow the frame
  have hnode : ∀ {α : Type} {f : Exec Error Working α} {a : α}, Exec.Along Working.Frame f →
      onWork f t = (.ok a, t') → t'.work.tables.EdgeEntries G H := by
    intro α f a hf hrun
    obtain ⟨w, hw, rfl⟩ := Exec.zoom_eq_ok.mp hrun
    have hframe := hf t.work
    rw [hw] at hframe
    exact hM.entries_frame h hframe
  cases m with
  | addNode label props => exact hnode (Working.frame_addNodeInner _ _) hexec
  | addNodeMulti labels props => exact hnode (Working.frame_addNodeInner _ _) hexec
  | updateNode n props => exact hnode (Working.frame_updateNodeImpl _ _) hexec
  | addLabel n label => exact hnode (Working.frame_addLabelInner _ _) hexec
  | removeLabel n label =>
    exact hnode (Exec.Along.modify (Working.frame_removeLabelInner n label)) hexec
  | deleteNode n =>
    obtain rfl := congrArg Prod.snd hexec
    change (Txn.deleteNodeInner n ((Mutation.deleteNode n).prepare t)).work.tables.EdgeEntries G H
    set t₀ := (Mutation.deleteNode n).prepare t
    have h₀ : t₀.work.tables.EdgeEntries G H := h
    unfold Txn.deleteNodeInner
    split
    next => exact h₀
    next record hget =>
      have hleave : (t₀.leaveLabels n record).work.tables.EdgeEntries G H := by
        refine hM.entries_frame h₀ ?_
        exact Exec.Along.foldl (R := Working.Frame) (Working.frame_leaveLabel n record.props)
          record.labels t₀.work
      have hout : ((t₀.leaveLabels n record).dropOutEdges n).work.tables.EdgeEntries G H :=
        Exec.foldl_induction (fun t : Txn => t.work.tables.EdgeEntries G H)
          (fun t e ht => hM.dropEdge ht e.edgeId e.edgeType) hleave
      have hin : (((t₀.leaveLabels n record).dropOutEdges n).dropInEdges
          n).work.tables.EdgeEntries G H :=
        Exec.foldl_induction (fun t : Txn => t.work.tables.EdgeEntries G H)
          (fun t e ht => hM.dropEdge ht e.edgeId e.edgeType) hout
      exact hM.entries_frame hin (.of_eq rfl rfl rfl rfl rfl)
  | addEdge src dst etype props =>
    obtain ⟨id, ty⟩ := r
    change Txn.addEdgeInner src dst etype props t = _ at hexec
    obtain ⟨w, hinsert, hwork, -, -⟩ := Txn.addEdgeInner_ok hexec
    rw [hwork]
    exact hM.entries_frame (hM.insertEdge ht.work hm h hinsert) (Working.frame_bumpTypeCount ty 1 w)
  | updateEdge id props =>
    change onWork (Working.updateEdgeImpl id props) t = _ at hexec
    obtain ⟨w, hw, rfl⟩ := Exec.zoom_eq_ok.mp hexec
    exact hM.updateEdgeImpl hm h hw
  | deleteEdge id =>
    obtain rfl := congrArg Prod.snd hexec
    change (Txn.deleteEdgeInner id t.flushAdjacency).2.work.tables.EdgeEntries G H
    unfold Txn.deleteEdgeInner
    split
    next => exact h
    next record hget => exact hM.dropEdge h id record.edgeType
  | putVectorBytes n bytes =>
    obtain rfl := congrArg Prod.snd hexec
    exact hM.entries_frame h (.of_eq rfl rfl rfl rfl rfl)
  | deleteVectorBytes n =>
    obtain rfl := congrArg Prod.snd hexec
    exact hM.entries_frame h (.of_eq rfl rfl rfl rfl rfl)
  | createNodeTextIndex label property lang =>
    exact hnode (Working.frame_onTables (Tables.edgeFrame_createNodeTextIndex label property lang))
      hexec
  | dropNodeTextIndex label property =>
    exact hnode (Working.frame_onTables
      (Exec.Along.modify (Tables.edgeFrame_dropNodeTextIndex label property))) hexec

/-- A relation that is maintained by the mutations and by the schema changes satisfying `D` is an
invariant of every run. -/
theorem invariant (hM : EdgeMaintained G H) {D : Graph.Ddl → Tables → Prop}
    (hddl : ∀ {d : Graph.Ddl} {s s' : Tables}, D d s → s.EdgeEntries G H →
      d.exec s = (.ok (), s') → H s' s.records) :
    Graph.Invariant (Mutation.EdgeProps G) D (fun t => t.Sound ∧ t.work.tables.EdgeEntries G H)
      (fun s => s.Sound ∧ s.tables.EdgeEntries G H) where
  begin_plain h := ⟨Graph.sound_invariant.begin_plain h.1, h.2⟩
  begin_batch h := ⟨Graph.sound_invariant.begin_batch h.1, h.2⟩
  exec hC h hexec := ⟨h.1.exec hexec, hM.exec hC h.1 h.2 hexec⟩
  bulk h := ⟨Graph.sound_invariant.bulk h.1, h.2⟩
  commit {t} h :=
    ⟨Graph.sound_invariant.commit h.1, hM.entries_frame h.2 (Working.frame_flushCounters t.work)⟩
  commitGen h :=
    ⟨Graph.sound_invariant.commitGen h.1, hM.entries_frame h.2 (.of_eq rfl rfl rfl rfl rfl)⟩
  ddl {d s s'} hD h hexec := by
    have hevolves := Graph.Ddl.evolves hexec
    have hrecords : s'.records = s.tables.records := by
      unfold Tables.records
      rw [hevolves.edges]
    refine ⟨Graph.sound_invariant.ddl trivial h.1 hexec, ?_, fun id r hget =>
      h.2.props id r (hevolves.edges ▸ hget)⟩
    change H s' s'.records
    rw [hrecords]
    exact hddl hD h.2 hexec

end EdgeMaintained

end IssunDB
