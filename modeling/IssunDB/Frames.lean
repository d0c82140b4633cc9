import IssunDB.Operations

/-!
# What index maintenance leaves alone

`Tables.base` forgets the property-index and full-text entries, their statistics and the
property-key registry: everything the maintenance of secondary indexes writes. Every index
operation keeps the rest (`keeps_base_indexNodeForLabel`, `base_unindexNodeForLabel` and their
edge counterparts), so a node or edge operation acts on the base like its record, label and count
writes alone (`addNodeInner_base` and the lemmas after it).
-/

namespace IssunDB

namespace Tables

/-- The tables without index entries, full-text statistics and property keys. -/
def base (s : Tables) : Tables :=
  { s with
    nodePropIdx := ∅
    edgePropIdx := ∅
    ftsPostings := ∅
    ftsDocs := .empty
    metaDb := { s.metaDb with propKeys := .empty, ftsN := .empty, ftsSumDl := .empty } }

section BaseEq

variable {s s' : Tables} (h : s'.base = s.base)
include h

lemma nodes_of_base_eq : s'.nodes = s.nodes := congrArg (·.nodes) h

lemma labelIdx_of_base_eq : s'.labelIdx = s.labelIdx := congrArg (·.labelIdx) h

lemma labels_of_base_eq : s'.metaDb.labels = s.metaDb.labels := congrArg (·.metaDb.labels) h

end BaseEq

@[simp]
lemma base_getOrCreatePropKey (name : String) (s : Tables) :
    (s.getOrCreatePropKey name).2.base = s.base := rfl

@[simp]
lemma base_putNodeProp (l : LabelId) (p : PropKeyId) (e : Encoded) (n : NodeId) (s : Tables) :
    (s.putNodeProp l p e n).base = s.base := rfl

@[simp]
lemma base_deleteNodeProp (l : LabelId) (p : PropKeyId) (e : Encoded) (n : NodeId)
    (s : Tables) : (s.deleteNodeProp l p e n).base = s.base := rfl

@[simp]
lemma base_putEdgeProp (t : TypeId) (p : PropKeyId) (e : Encoded) (id : EdgeId) (s : Tables) :
    (s.putEdgeProp t p e id).base = s.base := rfl

/-! ## Declared indexes -/

lemma keeps_indexDeclared {β : Type} {f : Tables → β} {owner : String} {props : Props}
    {unique : PropKeyId → String → Json → Tables → Except Error Unit}
    {put : PropKeyId → Encoded → Tables → Tables} (hput : ∀ p e s, f (put p e s) = f s)
    (active : PropKeyId × IndexRole) :
    Exec.Keeps f (indexDeclared owner props unique put active) := by
  refine Exec.Keeps.bind (Exec.Keeps.check _) fun _ => Exec.Keeps.modify fun s => ?_
  unfold declaredWrite
  split
  · exact hput _ _ _
  · rfl

lemma keeps_backfillEntry {β : Type} {f : Tables → β} (property : String)
    (notFound : ℕ → Error) (lookup : Tables → ℕ → Option Props) {put : Encoded → ℕ →
      Tables → Tables}
    (hput : ∀ e id s, f (put e id s) = f s) (id : ℕ) :
    Exec.Keeps f (backfillEntry property notFound lookup put id) := by
  intro s
  unfold backfillEntry
  split
  · rfl
  · split
    · exact hput _ _ _
    · rfl

/-! ## Nodes -/

lemma base_autoIndexField (l : LabelId) (n : NodeId) (declared : List String) (s : Tables)
    (field : String × Json) : (s.autoIndexField l n declared field).base = s.base := by
  simp only [autoIndexField]
  split
  · rfl
  · split <;> rfl

@[simp]
lemma base_autoIndexFields (l : LabelId) (n : NodeId) (props : Props) (declared : List String)
    (s : Tables) : (s.autoIndexFields l n props declared).base = s.base := by
  unfold autoIndexFields
  split
  · rfl
  · exact Exec.Keeps.foldl (base_autoIndexField l n declared) _ _

lemma base_unindexDeclaredProp (l : LabelId) (n : NodeId) (props : Props) (s : Tables)
    (active : PropKeyId × IndexRole) : (s.unindexDeclaredProp l n props active).base = s.base := by
  simp only [unindexDeclaredProp]
  split
  · rfl
  · split <;> rfl

lemma base_unindexField (l : LabelId) (n : NodeId) (s : Tables) (field : String × Json) :
    (s.unindexField l n field).base = s.base := by
  simp only [unindexField]
  split
  · rfl
  · split <;> rfl

section Nodes

variable [TextLib]

@[simp]
lemma base_addNodePropFtsEntry (n : NodeId) (l : LabelId) (p : PropKeyId) (text : String)
    (s : Tables) : (s.addNodePropFtsEntry n l p text).base = s.base := by
  simp only [addNodePropFtsEntry]
  split <;> rfl

@[simp]
lemma base_removeNodePropFtsEntry (n : NodeId) (l : LabelId) (p : PropKeyId) (text : String)
    (s : Tables) : (s.removeNodePropFtsEntry n l p text).base = s.base := by
  simp only [removeNodePropFtsEntry]
  split <;> rfl

@[simp]
lemma base_indexNodeFts (n : NodeId) (l : LabelId) (props : Props) (s : Tables) :
    (s.indexNodeFts n l props).base = s.base :=
  Exec.Keeps.foldl (fun s _ => base_addNodePropFtsEntry n l _ _ s) _ _

@[simp]
lemma base_deleteNodeFts (n : NodeId) (l : LabelId) (props : Props) (s : Tables) :
    (s.deleteNodeFts n l props).base = s.base :=
  Exec.Keeps.foldl (fun s _ => base_removeNodePropFtsEntry n l _ _ s) _ _

theorem keeps_base_indexNodeForLabel (l : LabelId) (labelName : String) (n : NodeId)
    (props : Props) : Exec.Keeps base (indexNodeForLabel l labelName n props) := by
  refine Exec.Keeps.bind (fun _ => rfl) fun s => ?_
  refine Exec.Keeps.bind (Exec.Keeps.forM
    (keeps_indexDeclared fun p e s => base_putNodeProp l p e n s)) fun _ => ?_
  exact Exec.Keeps.bind (Exec.Keeps.modify (base_autoIndexFields l n props _)) fun _ =>
    Exec.Keeps.modify (base_indexNodeFts n l props)

lemma indexNodeForLabel_ok {l : LabelId} {labelName : String} {n : NodeId} {props : Props}
    {s s' : Tables} (h : indexNodeForLabel l labelName n props s = (.ok (), s')) :
    ∃ s₁, (s.getActiveNodeIndexes l).forM (indexDeclaredProp l labelName n props) s =
        (.ok ⟨⟩, s₁) ∧
      s' = (s₁.autoIndexFields l n props
        ((s.getActiveNodeIndexes l).filterMap fun a => s.propKeyName a.1)).indexNodeFts n l
          props := by
  rw [indexNodeForLabel, Exec.get_bind] at h
  obtain ⟨_, s₁, hloop, h⟩ := Exec.bind_eq_ok.mp h
  exact ⟨s₁, hloop, (congrArg Prod.snd h).symm⟩

@[simp]
theorem base_unindexNodeForLabel (l : LabelId) (n : NodeId) (props : Props) (s : Tables) :
    (s.unindexNodeForLabel l n props).base = s.base := by
  simp only [unindexNodeForLabel, unindexProps, base_deleteNodeFts]
  have hdeclared : ((s.getActiveNodeIndexes l).foldl (unindexDeclaredProp l n props) s).base =
      s.base := Exec.Keeps.foldl (base_unindexDeclaredProp l n props) _ _
  split
  · exact hdeclared
  · exact (Exec.Keeps.foldl (base_unindexField l n) _ _).trans hdeclared

end Nodes

/-! ## Edges -/

lemma keeps_base_writeEdgeIndexEntries (active : List (PropKeyId × IndexRole)) (id : EdgeId)
    (t : TypeId) (etype : String) (props : Props) :
    Exec.Keeps base (writeEdgeIndexEntries active id t etype props) :=
  Exec.Keeps.forM (keeps_indexDeclared fun p e s => base_putEdgeProp t p e id s)

lemma base_deleteEdgeIndexEntry (id : EdgeId) (record : EdgeRecord) (s : Tables)
    (active : PropKeyId × IndexRole) : (s.deleteEdgeIndexEntry id record active).base = s.base := by
  simp only [deleteEdgeIndexEntry]
  split
  · rfl
  · split <;> rfl

@[simp]
lemma base_deleteEdgeIndexEntries (id : EdgeId) (record : EdgeRecord) (s : Tables) :
    (s.deleteEdgeIndexEntries id record).base = s.base :=
  Exec.Keeps.foldl (base_deleteEdgeIndexEntry id record) _ _

end Tables

/-! ## Operations -/

namespace Working

/-- The working state without index entries. -/
def base (w : Working) : Working := { w with tables := w.tables.base }

lemma base_bumpLabelCount (l : LabelId) (d : ℤ) (w : Working) :
    (w.bumpLabelCount l d).base = w.base.bumpLabelCount l d := by
  obtain ⟨s, memo⟩ := w
  cases memo <;> rfl

lemma base_bumpTypeCount (t : TypeId) (d : ℤ) (w : Working) :
    (w.bumpTypeCount t d).base = w.base.bumpTypeCount t d := by
  obtain ⟨s, memo⟩ := w
  cases memo <;> rfl

lemma base_linkLabel (l : LabelId) (n : NodeId) (w : Working) :
    (w.linkLabel l n).base = w.base.linkLabel l n :=
  base_bumpLabelCount l 1 _

lemma base_unlinkLabel (l : LabelId) (n : NodeId) (w : Working) :
    (w.unlinkLabel l n).base = w.base.unlinkLabel l n :=
  base_bumpLabelCount l (-1) _

lemma base_putNode (n : NodeId) (record : NodeRecord) (w : Working) :
    (w.putNode n record).base = w.base.putNode n record := rfl

lemma base_putEdge (id : EdgeId) (record : EdgeRecord) (w : Working) :
    (w.putEdge id record).base = w.base.putEdge id record := rfl

def linkLabels (n : NodeId) (labels : List LabelId) (w : Working) : Working :=
  labels.foldl (fun w l => w.linkLabel l n) w

def unlinkLabels (n : NodeId) (labels : List LabelId) (w : Working) : Working :=
  labels.foldl (fun w l => w.unlinkLabel l n) w

variable {α : Type} {w w' : Working}

/-- Folding steps that commute with the base commutes with it. -/
private theorem base_foldl {f : Working → α → Working} (hf : ∀ w a, (f w a).base = f w.base a)
    (l : List α) (w : Working) :
    (l.foldl f w).base = l.foldl f w.base := by
  induction l generalizing w with
  | nil => rfl
  | cons a l ih => rw [List.foldl_cons, List.foldl_cons, ih, hf]

lemma base_linkLabels (n : NodeId) (labels : List LabelId) (w : Working) :
    (w.linkLabels n labels).base = w.base.linkLabels n labels :=
  base_foldl (fun w l => base_linkLabel l n w) _ _

lemma base_unlinkLabels (n : NodeId) (labels : List LabelId) (w : Working) :
    (w.unlinkLabels n labels).base = w.base.unlinkLabels n labels :=
  base_foldl (fun w l => base_unlinkLabel l n w) _ _

lemma base_onTables {m : Exec Error Tables α} (hm : Exec.Keeps Tables.base m) (w : Working) :
    (onTables m w).2.base = w.base := by
  have h := hm w.tables
  simp only [onTables, Exec.zoom, base, h]

lemma forM_onTables_ok {k : α → Exec Error Tables PUnit} {l : List α} {u : PUnit}
    (h : (l.forM fun a => onTables (k a)) w = (.ok u, w')) :
    ∃ s, l.forM k w.tables = (.ok u, s) ∧ w' = { w with tables := s } := by
  induction l generalizing w with
  | nil => exact ⟨w.tables, Exec.forM_nil_eq_ok.mpr rfl, Exec.forM_nil_eq_ok.mp h⟩
  | cons a l ih =>
    obtain ⟨t, hhead, htail⟩ := Exec.forM_cons_eq_ok.mp h
    obtain ⟨s, hs, rfl⟩ := Exec.zoom_eq_ok.mp hhead
    obtain ⟨s', hs', rfl⟩ := ih htail
    exact ⟨s', Exec.forM_cons_eq_ok.mpr ⟨s, hs, hs'⟩, rfl⟩

section Nodes

variable [TextLib]

variable {w w' : Working} {n : NodeId} {props : Props}

lemma enterLabel_base {label : LabelId × String} {u : PUnit}
    (h : enterLabel n props label w = (.ok u, w')) :
    w'.base = w.base.linkLabel label.1 n := by
  obtain ⟨_, t, ht, h⟩ := Exec.bind_eq_ok.mp h
  obtain rfl : w.linkLabel label.1 n = t := congrArg Prod.snd ht
  have hkeep := base_onTables
    (Tables.keeps_base_indexNodeForLabel label.1 label.2 n props) (w.linkLabel label.1 n)
  rw [h] at hkeep
  rw [hkeep, base_linkLabel]

/-- Indexing a new node under its labels links it to each of them. -/
theorem forM_enterLabel_base {labels : List (LabelId × String)} {u : PUnit}
    (h : labels.forM (enterLabel n props) w = (.ok u, w')) :
    w'.base = w.base.linkLabels n (labels.map Prod.fst) := by
  induction labels generalizing w with
  | nil =>
    obtain rfl := Exec.forM_nil_eq_ok.mp h
    rfl
  | cons label labels ih =>
    obtain ⟨t, hhead, htail⟩ := Exec.forM_cons_eq_ok.mp h
    rw [ih htail, enterLabel_base hhead]
    rfl

lemma addNodeInner_ok {labels : List String} (h : addNodeInner labels props w = (.ok n, w')) :
    ∃ (r : ResolvedLabels) (s : Tables) (w₁ : Working),
      w.tables.resolveLabels labels .nil = (r, s) ∧
      allocNodeId { w with tables := s } = (n, w₁) ∧
      r.list.forM (enterLabel n props)
        (w₁.putNode n ⟨r.list.map Prod.fst, props, r.nodup⟩) = (.ok ⟨⟩, w') := by
  obtain ⟨r, w₀, hr, h₁⟩ := Exec.bind_eq_ok.mp h
  obtain ⟨n', w₁, hn, h₂⟩ := Exec.bind_eq_ok.mp h₁
  obtain ⟨_, w₂, hput, h₃⟩ := Exec.bind_eq_ok.mp h₂
  obtain ⟨_, w₃, hloop, h₄⟩ := Exec.bind_eq_ok.mp h₃
  obtain ⟨s, hs, rfl⟩ := Exec.zoom_eq_ok.mp hr
  simp only [Exec.state_apply, Exec.modify_apply, Exec.pure_apply, Prod.mk.injEq,
    Except.ok.injEq] at hs hn hput h₄
  obtain ⟨rfl, rfl⟩ := hs
  obtain ⟨rfl, rfl⟩ := hn
  obtain ⟨-, rfl⟩ := hput
  obtain ⟨rfl, rfl⟩ := h₄
  exact ⟨_, _, _, rfl, rfl, hloop⟩

lemma addLabelInner_ok {label : String} (h : addLabelInner n label w = (.ok (), w')) :
    ∃ record, w.tables.nodes.get n = some record ∧
      let l := (w.tables.getOrCreateLabel label).1
      let w₁ : Working := { w with tables := (w.tables.getOrCreateLabel label).2 }
      (l ∈ record.labels ∧ w' = w₁) ∨
      ∃ hl : l ∉ record.labels,
        enterLabel n record.props (l, label) (w₁.putNode n
          { record with
            labels := record.labels ++ [l]
            nodup := record.nodup.append (List.nodup_singleton _) (by simpa using hl) }) =
          (.ok ⟨⟩, w') := by
  obtain ⟨w₀, _, hget, h⟩ := Exec.bind_eq_ok.mp h
  obtain ⟨rfl, rfl⟩ : w = w₀ ∧ w = _ := by simpa using hget
  rcases hrec : w.tables.nodes.get n with _ | record
  · simp [hrec] at h
  rw [hrec] at h
  obtain ⟨l, w₁, hl, h⟩ := Exec.bind_eq_ok.mp h
  obtain ⟨s, hs, rfl⟩ := Exec.zoom_eq_ok.mp hl
  simp only [Exec.state_apply, Prod.mk.injEq, Except.ok.injEq] at hs
  obtain ⟨rfl, rfl⟩ := hs
  refine ⟨record, rfl, ?_⟩
  by_cases hmem : (w.tables.getOrCreateLabel label).1 ∈ record.labels
  · rw [dif_pos hmem] at h
    exact .inl ⟨hmem, (congrArg Prod.snd h).symm⟩
  · rw [dif_neg hmem] at h
    obtain ⟨_, w₂, hput, h⟩ := Exec.bind_eq_ok.mp h
    obtain rfl := congrArg Prod.snd hput
    exact .inr ⟨hmem, h⟩

lemma keeps_base_reindexLabel (n : NodeId) (old new : Props) (l : LabelId) :
    Exec.Keeps Tables.base (reindexLabel n old new l) :=
  Exec.Keeps.bind (fun _ => rfl) fun _ =>
    Exec.Keeps.bind (Exec.Keeps.modify (Tables.base_unindexNodeForLabel l n old)) fun _ =>
      Tables.keeps_base_indexNodeForLabel l _ n new

/-- A property update that succeeds re-indexes the node under each label and stores the
record. -/
theorem updateNodeImpl_ok (h : updateNodeImpl n props w = (.ok (), w')) :
    ∃ record s, w.tables.nodes.get n = some record ∧
      record.labels.forM (reindexLabel n record.props props) w.tables = (.ok ⟨⟩, s) ∧
      w' = ({ w with tables := s } : Working).putNode n { record with props := props } := by
  obtain ⟨w₀, _, hget, h₁⟩ := Exec.bind_eq_ok.mp h
  obtain ⟨rfl, rfl⟩ : w = w₀ ∧ w = _ := by simpa using hget
  rcases hrec : w.tables.nodes.get n with _ | record
  · simp [hrec] at h₁
  rw [hrec] at h₁
  obtain ⟨_, w₁, hloop, hput⟩ := Exec.bind_eq_ok.mp h₁
  obtain ⟨s, hs, rfl⟩ := forM_onTables_ok hloop
  exact ⟨record, s, rfl, hs, (congrArg Prod.snd hput).symm⟩

lemma foldl_leaveLabel_base (n : NodeId) (props : Props) (labels : List LabelId) (w : Working) :
    (labels.foldl (leaveLabel n props) w).base = w.base.unlinkLabels n labels := by
  induction labels generalizing w with
  | nil => rfl
  | cons l labels ih =>
    rw [List.foldl_cons, ih, leaveLabel, base_unlinkLabel]
    simp only [base, Tables.base_unindexNodeForLabel]
    rfl

end Nodes

/-- Remove an edge record and its count. -/
def eraseEdge (id : EdgeId) (t : TypeId) (w : Working) : Working :=
  bumpTypeCount t (-1)
    { w with tables := { w.tables with edges := w.tables.edges.erase id } }

lemma base_dropEdge (id : EdgeId) (t : TypeId) (w : Working) :
    (w.dropEdge id t).base = w.base.eraseEdge id t := by
  unfold dropEdge eraseEdge
  rw [base_bumpTypeCount]
  congr 1
  rcases w.tables.edges.get id with _ | record
  · rfl
  · have hbase : ∀ s s' : Tables, s.base = s'.base →
        ({ s with edges := s.edges.erase id } : Tables).base =
          { s'.base with edges := s'.base.edges.erase id } := by
      intro s s' h
      rw [← h]
      rfl
    simp only [base, hbase _ w.tables (Tables.base_deleteEdgeIndexEntries id record w.tables)]

lemma insertEdge_ok {src dst : NodeId} {etype : String} {props : Props} {id : EdgeId} {t : TypeId}
    (h : insertEdge src dst etype props w = (.ok (id, t), w')) :
    ∃ (w₁ w₂ w₃ w₄ w₅ : Working) (active : List (PropKeyId × IndexRole)) (s : Tables),
      proveNode src w = (.ok ⟨⟩, w₁) ∧
      proveNode dst w₁ = (.ok ⟨⟩, w₂) ∧
      w₂.resolveType etype = (t, w₃) ∧
      w₃.allocEdgeId = (id, w₄) ∧
      w₄.activeEdgeIndexes t = (active, w₅) ∧
      Tables.writeEdgeIndexEntries active id t etype props w₅.tables = (.ok ⟨⟩, s) ∧
      w' = ({ w₅ with tables := s } : Working).putEdge id ⟨src, dst, t, props⟩ := by
  obtain ⟨_, w₁, hsrc, h₁⟩ := Exec.bind_eq_ok.mp h
  obtain ⟨_, w₂, hdst, h₂⟩ := Exec.bind_eq_ok.mp h₁
  obtain ⟨t', w₃, ht, h₃⟩ := Exec.bind_eq_ok.mp h₂
  obtain ⟨id', w₄, hid, h₄⟩ := Exec.bind_eq_ok.mp h₃
  obtain ⟨active, w₅, hactive, h₅⟩ := Exec.bind_eq_ok.mp h₄
  obtain ⟨_, w₆, hwrite, h₆⟩ := Exec.bind_eq_ok.mp h₅
  obtain ⟨_, w₇, hput, h₇⟩ := Exec.bind_eq_ok.mp h₆
  obtain ⟨s, hs, rfl⟩ := Exec.zoom_eq_ok.mp hwrite
  simp only [Exec.state_apply, Exec.modify_apply, Exec.pure_apply, Prod.mk.injEq,
    Except.ok.injEq] at ht hid hactive hput h₇
  obtain ⟨rfl, rfl⟩ := ht
  obtain ⟨rfl, rfl⟩ := hid
  obtain ⟨rfl, rfl⟩ := hactive
  obtain ⟨-, rfl⟩ := hput
  obtain ⟨⟨rfl, rfl⟩, rfl⟩ := h₇
  exact ⟨w₁, w₂, _, _, _, _, s, hsrc, hdst, rfl, rfl, rfl, hs, rfl⟩

lemma updateEdgeImpl_ok {id : EdgeId} {props : Props}
    (h : updateEdgeImpl id props w = (.ok (), w')) :
    ∃ record etype s, w.tables.edges.get id = some record ∧
      w.tables.typeName record.edgeType = some etype ∧
      Tables.writeEdgeIndexEntries
        ((w.tables.deleteEdgeIndexEntries id record).getActiveEdgeIndexes record.edgeType) id
        record.edgeType etype props (w.tables.deleteEdgeIndexEntries id record) = (.ok ⟨⟩, s) ∧
      w' = ({ w with tables := s } : Working).putEdge id { record with props := props } := by
  obtain ⟨w₀, _, hget, h₁⟩ := Exec.bind_eq_ok.mp h
  obtain ⟨rfl, rfl⟩ : w = w₀ ∧ w = _ := by simpa using hget
  rcases hrec : w.tables.edges.get id with _ | record
  · simp [hrec] at h₁
  rcases hname : w.tables.typeName record.edgeType with _ | etype
  · simp [hrec, hname] at h₁
  simp only [hrec, hname] at h₁
  obtain ⟨_, w₁, hdel, h₂⟩ := Exec.bind_eq_ok.mp h₁
  obtain ⟨s₁, hs₁, rfl⟩ := Exec.zoom_eq_ok.mp hdel
  obtain rfl := congrArg Prod.snd hs₁
  obtain ⟨s₂, _, hgets, h₃⟩ := Exec.bind_eq_ok.mp h₂
  obtain ⟨rfl, rfl⟩ : w.tables.deleteEdgeIndexEntries id record = s₂ ∧ _ = _ := by
    simpa using hgets
  obtain ⟨_, w₂, hwrite, hput⟩ := Exec.bind_eq_ok.mp h₃
  obtain ⟨s, hs, rfl⟩ := Exec.zoom_eq_ok.mp hwrite
  exact ⟨record, etype, s, rfl, hname, hs, (congrArg Prod.snd hput).symm⟩

end Working

end IssunDB
