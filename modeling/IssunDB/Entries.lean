import IssunDB.Adjacency

/-!
# Index entries follow the records

The property indexes, the full-text indexes and the constraints of nodes are all maintained by two
operations, `indexNodeForLabel` and `unindexNodeForLabel`, called for one node and one label at a
time. What they have to keep is a relation between the tables and the nodes as they are entered
under their labels.

* `Entered` — the properties under which each node is entered under each label. Between two
  operations these are the stored records, `Tables.entered`; within one they lag behind.
* `Maintained G H` — what has to be shown of a relation `H` once: each of the two operations moves
  it along, and so does the maintenance of text indexes. `G` restricts the properties written.
* `Maintained.exec` — then every mutation keeps `H` between the tables and the records.
-/

namespace IssunDB

open List Option

/-- The properties under which each node is entered under each label. -/
abbrev Entered := LabelId → NodeId → Option Props

/-- Enter a node under some labels, or take it out of them. -/
def Entered.set (D : Entered) (n : NodeId) (labels : List LabelId) (x : Option Props) : Entered :=
  fun l m => if m = n ∧ l ∈ labels then x else D l m

namespace Entered

variable {D : Entered} {n m : NodeId} {l l' : LabelId} {labels : List LabelId} {x : Option Props}

@[simp]
lemma set_nil : D.set n [] x = D := by
  funext l m
  simp [set]

lemma set_self : D.set n [l] x l n = x := by
  simp [set]

lemma set_of_ne (h : m ≠ n) : D.set n labels x l m = D l m := by
  simp [set, h]

lemma set_of_notMem (h : l ∉ labels) : D.set n labels x l m = D l m := by
  simp [set, h]

lemma set_of_not (h : ¬(l' = l ∧ m = n)) : D.set n [l] x l' m = D l' m := by
  simp only [set, mem_singleton]
  rw [if_neg fun hc => h ⟨hc.2, hc.1⟩]

lemma set_set : (D.set n [l] x).set n labels x = D.set n (l :: labels) x := by
  funext l' m
  simp only [set, mem_cons]
  by_cases hm : m = n <;> by_cases hl : l' = l <;> simp [hm, hl]

end Entered

namespace Tables

/-- The nodes entered under their labels as they are stored. -/
def entered (s : Tables) : Entered := fun l n =>
  match s.nodes.get n with
  | some r => if l ∈ r.labels then some r.props else none
  | none => none

variable {n : NodeId} {s s' : Tables}

lemma entered_eq_some {s : Tables} {l : LabelId} {props : Props} :
    s.entered l n = some props ↔
      ∃ r, s.nodes.get n = some r ∧ l ∈ r.labels ∧ r.props = props := by
  unfold entered
  rcases s.nodes.get n with _ | r
  · simp
  · by_cases hl : l ∈ r.labels <;> simp [hl]

lemma entered_congr (h : s'.nodes = s.nodes) : s'.entered = s.entered := by
  unfold entered
  rw [h]

/-- The entries after a record is stored whose labels and properties are given. -/
theorem entered_put {r : NodeRecord} (h : s'.nodes = s.nodes.put n r) :
    s'.entered = fun l m =>
      if m = n then (if l ∈ r.labels then some r.props else none) else s.entered l m := by
  funext l m
  simp only [entered, h, Table.get_put]
  by_cases hm : m = n <;> simp [hm]

def Listed (s : Tables) : Prop := ∀ l n, (l, n) ∈ s.labelIdx ↔ (s.entered l n).isSome

lemma Listed.mem_nodesByLabel {s : Tables} (h : s.Listed) {label : String} {l : LabelId}
    (hl : s.getLabel label = some l) :
    n ∈ s.nodesByLabel label ↔ (s.entered l n).isSome := by
  rw [← h l n]
  simp [nodesByLabel, hl]

lemma Listed.congr (h : s.Listed) (hnodes : s'.nodes = s.nodes) (hidx : s'.labelIdx = s.labelIdx) :
    s'.Listed := by
  intro l n
  rw [hidx, entered_congr hnodes]
  exact h l n

lemma nodup_nodesByLabel (s : Tables) (label : String) : (s.nodesByLabel label).Nodup := by
  unfold nodesByLabel
  split
  · exact Finset.ascending_nodup _
  · exact nodup_nil

/-- Away from the node `n`, the entries `D` are the stored records, and the label index lists
them. -/
structure Agrees (s : Tables) (D : Entered) (n : NodeId) : Prop where
  entered : ∀ l m, m ≠ n → D l m = s.entered l m
  listed : ∀ l m, m ≠ n → ((l, m) ∈ s.labelIdx ↔ (s.entered l m).isSome)

lemma Listed.agrees {s : Tables} (h : s.Listed) (n : NodeId) : s.Agrees s.entered n :=
  ⟨fun _ _ _ => rfl, fun l m _ => h l m⟩

/-- What is said about other nodes does not depend on the node at hand. -/
theorem Agrees.congr {D D' : Entered} (h : s.Agrees D n) (hD : ∀ l m, m ≠ n → D' l m = D l m)
    (hnodes : ∀ m, m ≠ n → s'.nodes.get m = s.nodes.get m)
    (hidx : ∀ l m, m ≠ n → ((l, m) ∈ s'.labelIdx ↔ (l, m) ∈ s.labelIdx)) : s'.Agrees D' n := by
  have hentered : ∀ l m, m ≠ n → s'.entered l m = s.entered l m := by
    intro l m hm
    simp only [Tables.entered, hnodes m hm]
  refine ⟨fun l m hm => ?_, fun l m hm => ?_⟩
  · rw [hD l m hm, h.entered l m hm, hentered l m hm]
  · rw [hidx l m hm, h.listed l m hm, hentered l m hm]

/-- The tables that the maintenance of node indexes reads and writes. -/
def sec (s : Tables) : Tables :=
  { Storage.empty.tables with
    nodePropIdx := s.nodePropIdx
    ftsPostings := s.ftsPostings
    ftsDocs := s.ftsDocs
    metaDb := { MetaDb.empty with
      propKeys := s.metaDb.propKeys
      idxNode := s.metaDb.idxNode
      autoIndexOff := s.metaDb.autoIndexOff
      ftsMeta := s.metaDb.ftsMeta
      ftsN := s.metaDb.ftsN
      ftsSumDl := s.metaDb.ftsSumDl } }

end Tables

lemma Working.Sound.listed {w : Working} (hw : w.Sound) : w.tables.Listed := by
  intro l n
  rw [show (l, n) ∈ w.tables.labelIdx ↔ w.nodeView.Carries n l from hw.nodes.labelIdx_iff l n,
    isSome_iff_exists]
  simp only [Tables.entered_eq_some, NodeView.Carries]
  constructor
  · rintro ⟨r, hget, hl⟩
    exact ⟨r.props, r, hget, hl, rfl⟩
  · rintro ⟨props, r, hget, hl, -⟩
    exact ⟨r, hget, hl⟩

/-! ## Steps that leave the node indexes alone -/

namespace Working

lemma sec_bumpLabelCount (l : LabelId) (d : ℤ) (w : Working) :
    (w.bumpLabelCount l d).tables.sec = w.tables.sec := by
  obtain ⟨s, memo⟩ := w
  cases memo <;> rfl

lemma sec_bumpTypeCount (t : TypeId) (d : ℤ) (w : Working) :
    (w.bumpTypeCount t d).tables.sec = w.tables.sec := by
  obtain ⟨s, memo⟩ := w
  cases memo <;> rfl

lemma sec_linkLabel (l : LabelId) (n : NodeId) (w : Working) :
    (w.linkLabel l n).tables.sec = w.tables.sec := sec_bumpLabelCount ..

lemma sec_unlinkLabel (l : LabelId) (n : NodeId) (w : Working) :
    (w.unlinkLabel l n).tables.sec = w.tables.sec := sec_bumpLabelCount ..

lemma sec_allocNodeId (w : Working) : w.allocNodeId.2.tables.sec = w.tables.sec := by
  obtain ⟨s, memo⟩ := w
  cases memo <;> rfl

lemma sec_allocEdgeId (w : Working) : w.allocEdgeId.2.tables.sec = w.tables.sec := by
  obtain ⟨s, memo⟩ := w
  cases memo <;> rfl

lemma sec_proveNode (id : NodeId) (w : Working) :
    (proveNode id w).2.tables.sec = w.tables.sec := by
  unfold proveNode
  split
  · split
    · rfl
    · split <;> rfl
  · split <;> rfl

lemma sec_resolveType (etype : String) (w : Working) :
    (w.resolveType etype).2.tables.sec = w.tables.sec := by
  unfold resolveType
  split
  · split <;> rfl
  · rfl

lemma sec_activeEdgeIndexes (t : TypeId) (w : Working) :
    (w.activeEdgeIndexes t).2.tables.sec = w.tables.sec := by
  unfold activeEdgeIndexes
  split
  · split <;> rfl
  · rfl

lemma sec_writeEdgeIndexEntries (active : List (PropKeyId × IndexRole)) (id : EdgeId)
    (t : TypeId) (etype : String) (props : Props) :
    Exec.Keeps Tables.sec (Tables.writeEdgeIndexEntries active id t etype props) :=
  Exec.Keeps.forM (Tables.keeps_indexDeclared fun _ _ _ => rfl)

lemma sec_deleteEdgeIndexEntry (id : EdgeId) (record : EdgeRecord) (s : Tables)
    (active : PropKeyId × IndexRole) : (s.deleteEdgeIndexEntry id record active).sec = s.sec := by
  simp only [Tables.deleteEdgeIndexEntry]
  split
  · rfl
  · split <;> rfl

lemma sec_deleteEdgeIndexEntries (id : EdgeId) (record : EdgeRecord) (s : Tables) :
    (s.deleteEdgeIndexEntries id record).sec = s.sec :=
  Exec.Keeps.foldl (sec_deleteEdgeIndexEntry id record) _ _

lemma sec_dropEdge (id : EdgeId) (t : TypeId) (w : Working) :
    (w.dropEdge id t).tables.sec = w.tables.sec := by
  unfold dropEdge
  rw [sec_bumpTypeCount]
  rcases w.tables.edges.get id with _ | record
  · rfl
  · exact sec_deleteEdgeIndexEntries id record w.tables

lemma sec_onTables {α : Type} {m : Exec Error Tables α} (hm : Exec.Keeps Tables.sec m) :
    Exec.Keeps (fun w : Working => w.tables.sec) (onTables m) := fun w => hm w.tables

lemma sec_insertEdge (src dst : NodeId) (etype : String) (props : Props) :
    Exec.Keeps (fun w : Working => w.tables.sec) (insertEdge src dst etype props) :=
  Exec.Keeps.bind (sec_proveNode src) fun _ =>
    Exec.Keeps.bind (sec_proveNode dst) fun _ =>
      Exec.Keeps.bind (Exec.Keeps.state (sec_resolveType etype)) fun t =>
        Exec.Keeps.bind (Exec.Keeps.state sec_allocEdgeId) fun id =>
          Exec.Keeps.bind (Exec.Keeps.state (sec_activeEdgeIndexes t)) fun active =>
            Exec.Keeps.bind (sec_onTables (sec_writeEdgeIndexEntries active id t etype props))
              fun _ => Exec.Keeps.bind (Exec.Keeps.modify fun _ => rfl) fun _ => Exec.Keeps.pure _

lemma sec_updateEdgeImpl (id : EdgeId) (props : Props) :
    Exec.Keeps (fun w : Working => w.tables.sec) (updateEdgeImpl id props) := by
  refine Exec.Keeps.bind (fun _ => rfl) fun w => ?_
  split
  · exact Exec.Keeps.throw _
  · split
    · exact Exec.Keeps.throw _
    · exact Exec.Keeps.bind
        (sec_onTables (Exec.Keeps.modify (sec_deleteEdgeIndexEntries id _))) fun _ =>
        Exec.Keeps.bind (Exec.Keeps.gets _) fun _ =>
          Exec.Keeps.bind (sec_onTables (sec_writeEdgeIndexEntries _ _ _ _ _)) fun _ =>
            Exec.Keeps.modify fun _ => rfl

lemma sec_flushCounters (w : Working) : w.flushCounters.tables.sec = w.tables.sec := by
  unfold flushCounters
  split
  · rfl
  · simp only [flushLabelDeltas_eq, flushTypeDeltas_eq]
    rfl

/-! The label index and the registry of labels when a node is linked and unlinked. -/

lemma labelIdx_linkLabel (l : LabelId) (n : NodeId) (w : Working) :
    (w.linkLabel l n).tables.labelIdx = insert (l, n) w.tables.labelIdx := by
  obtain ⟨s, memo⟩ := w
  cases memo <;> rfl

lemma labels_linkLabel (l : LabelId) (n : NodeId) (w : Working) :
    (w.linkLabel l n).tables.metaDb.labels = w.tables.metaDb.labels := by
  obtain ⟨s, memo⟩ := w
  cases memo <;> rfl

end Working

/-! ## Relations that index maintenance keeps -/

/-- The relation `H` between tables and entries depends on the node indexes only, indexing and
unindexing a node under a label move it along, and the maintenance of text indexes keeps it. The
properties written satisfy `G`. -/
structure Maintained [TextLib] (G : Props → Prop) (H : Tables → Entered → Prop) : Prop where
  congr : ∀ {s s' D}, s'.sec = s.sec → H s D → H s' D
  index : ∀ {s s' D l labelName n props}, G props → H s D → D l n = none → s.Agrees D n →
    s.getLabel labelName = some l →
    Tables.indexNodeForLabel l labelName n props s = (.ok (), s') →
    H s' (D.set n [l] (some props))
  unindex : ∀ {s D l n props}, H s D → D l n = some props →
    H (s.unindexNodeForLabel l n props) (D.set n [l] none)
  createText : ∀ {s s' label property lang}, s.Listed → H s s.entered →
    Tables.createNodeTextIndex label property lang s = (.ok (), s') → H s' s.entered
  dropText : ∀ {s label property}, H s s.entered → H (s.dropNodeTextIndex label property) s.entered

namespace Maintained

variable [TextLib] {G : Props → Prop} {H : Tables → Entered → Prop}

variable {n : NodeId} {w w' : Working} {props : Props} {D : Entered} {u : PUnit}

lemma enterLabel (hM : Maintained G H) {label : LabelId × String} (hG : G props)
    (hH : H w.tables D) (hnone : D label.1 n = none) (hag : w.tables.Agrees D n)
    (hlabel : w.tables.getLabel label.2 = some label.1)
    (h : Working.enterLabel n props label w = (.ok u, w')) :
    H w'.tables (D.set n [label.1] (some props)) ∧
      w'.tables.Agrees (D.set n [label.1] (some props)) n ∧
      w'.tables.metaDb.labels = w.tables.metaDb.labels := by
  have hbase := Working.enterLabel_base h
  rw [← Working.base_linkLabel] at hbase
  have hnodes : w'.tables.nodes = (w.linkLabel label.1 n).tables.nodes :=
    congrArg (·.tables.nodes) hbase
  have hidx : w'.tables.labelIdx = (w.linkLabel label.1 n).tables.labelIdx :=
    congrArg (·.tables.labelIdx) hbase
  have hreg : w'.tables.metaDb.labels = (w.linkLabel label.1 n).tables.metaDb.labels :=
    congrArg (·.tables.metaDb.labels) hbase
  rw [Working.nodes_linkLabel] at hnodes
  rw [Working.labels_linkLabel] at hreg
  obtain ⟨_, w₁, hlink, h⟩ := Exec.bind_eq_ok.mp h
  obtain rfl : w.linkLabel label.1 n = w₁ := congrArg Prod.snd hlink
  obtain ⟨s, hs, rfl⟩ := Exec.zoom_eq_ok.mp h
  have hlinked : (w.linkLabel label.1 n).tables.Agrees D n :=
    hag.congr (fun _ _ _ => rfl) (fun m _ => by rw [Working.nodes_linkLabel]) fun l m hm => by
      simp [Working.labelIdx_linkLabel, hm]
  refine ⟨hM.index hG (hM.congr (Working.sec_linkLabel ..) hH) hnone hlinked ?_ hs, ?_, hreg⟩
  · rw [Tables.getLabel, Working.labels_linkLabel]
    exact hlabel
  · refine hlinked.congr (fun l m hm => Entered.set_of_ne hm) (fun m _ => ?_) fun l m _ => ?_
    · rw [hnodes, Working.nodes_linkLabel]
    · rw [hidx]

lemma forM_enterLabel (hM : Maintained G H) {labels : List (LabelId × String)} (hG : G props)
    (hH : H w.tables D) (hnodup : (labels.map Prod.fst).Nodup)
    (hnone : ∀ l ∈ labels.map Prod.fst, D l n = none) (hag : w.tables.Agrees D n)
    (hlabels : ∀ label ∈ labels, w.tables.getLabel label.2 = some label.1)
    (h : labels.forM (Working.enterLabel n props) w = (.ok u, w')) :
    H w'.tables (D.set n (labels.map Prod.fst) (some props)) ∧
      w'.tables.Agrees (D.set n (labels.map Prod.fst) (some props)) n := by
  induction labels generalizing w D with
  | nil =>
    obtain rfl := Exec.forM_nil_eq_ok.mp h
    simpa using ⟨hH, hag⟩
  | cons label labels ih =>
    obtain ⟨w₁, hhead, htail⟩ := Exec.forM_cons_eq_ok.mp h
    obtain ⟨hl, hnodup'⟩ := nodup_cons.mp hnodup
    obtain ⟨hH₁, hag₁, hreg⟩ := hM.enterLabel hG hH (hnone label.1 (by simp)) hag
      (hlabels label (by simp)) hhead
    have hstep := ih hH₁ hnodup' (fun l hmem => ?_) hag₁ (fun label' hmem => ?_) htail
    · rwa [Entered.set_set] at hstep
    · have hne : l ∉ [label.1] := by
        rw [mem_singleton]
        rintro rfl
        exact hl hmem
      rw [Entered.set_of_notMem hne]
      exact hnone l (mem_cons_of_mem _ hmem)
    · rw [Tables.getLabel, hreg]
      exact hlabels label' (mem_cons_of_mem _ hmem)

lemma addNodeInner (hM : Maintained G H) {labels : List String} (hw : w.Sound) (hG : G props)
    (hH : H w.tables w.tables.entered) (h : Working.addNodeInner labels props w = (.ok n, w')) :
    H w'.tables w'.tables.entered := by
  obtain ⟨r, s, w₁, hres, halloc, hloop⟩ := Working.addNodeInner_ok h
  obtain ⟨hs, -, hreg⟩ := Working.resolveLabels_spec hres (by simp [ResolvedLabels.nil])
  obtain ⟨hn, -, -, hnodes₁, -⟩ := Working.allocNodeId_spec halloc
  obtain rfl : (Working.allocNodeId { w with tables := s }).2 = w₁ := congrArg Prod.snd halloc
  set w₁ := (Working.allocNodeId { w with tables := s }).2
  set record : NodeRecord := ⟨r.list.map Prod.fst, props, r.nodup⟩
  have hnodes : w₁.tables.nodes = w.tables.nodes := by
    rw [hnodes₁, hs]
  have hlabelIdx : w₁.tables.labelIdx = w.tables.labelIdx := by
    have halloc' : w₁.tables.labelIdx = s.labelIdx := by
      obtain ⟨s₀, memo⟩ := w
      cases memo <;> rfl
    rw [halloc', hs]
  have hlabels₁ : w₁.tables.metaDb.labels = s.metaDb.labels := by
    obtain ⟨s₀, memo⟩ := w
    cases memo <;> rfl
  have hsec : (w₁.putNode n record).tables.sec = w.tables.sec := by
    change w₁.tables.sec = _
    rw [Working.sec_allocNodeId, hs]
    rfl
  have hfresh : w.tables.nodes.get n = none := by
    have hnext : n = w.nextNode := by
      rw [hn, hs]
      rfl
    rcases hget : w.tables.nodes.get n with _ | r'
    · rfl
    · exact absurd (hw.nodes.node_lt n r' hget) (by rw [hnext]; exact lt_irrefl _)
  have hnone : ∀ l, w.tables.entered l n = none := by
    intro l
    simp [Tables.entered, hfresh]
  have hag : (w₁.putNode n record).tables.Agrees w.tables.entered n := by
    refine (hw.listed.agrees n).congr (fun _ _ _ => rfl) (fun m hm => ?_) fun l m _ => ?_
    · simp [Working.putNode, hnodes, hm]
    · rw [show (w₁.putNode n record).tables.labelIdx = w₁.tables.labelIdx from rfl, hlabelIdx]
  obtain ⟨hH', -⟩ := hM.forM_enterLabel hG (hM.congr hsec hH) r.nodup (fun l _ => hnone l) hag
    (fun label hmem => by
      change w₁.tables.metaDb.labels.get label.2 = some label.1
      rw [hlabels₁]
      exact hreg label.1 label.2 hmem) hloop
  have hnodes' : w'.tables.nodes = w.tables.nodes.put n record := by
    have hbase := Working.forM_enterLabel_base hloop
    rw [← Working.base_linkLabels] at hbase
    rw [show w'.tables.nodes = _ from congrArg (·.tables.nodes) hbase,
      ← hnodes]
    exact Exec.Keeps.foldl (f := fun w : Working => w.tables.nodes)
      (fun w l => Working.nodes_linkLabel l n w) _ _
  have hentered : w'.tables.entered = w.tables.entered.set n record.labels (some props) := by
    rw [Tables.entered_put hnodes']
    funext l m
    by_cases hm : m = n
    · subst hm
      by_cases hl : l ∈ record.labels <;> simp [Entered.set, hl, hnone, record]
    · simp [Entered.set, hm]
  rw [hentered]
  exact hH'

omit [TextLib] in
lemma getLabel_labelName {s : Tables} {l : LabelId} (h : ∃ name, s.getLabel name = some l) :
    s.getLabel ((s.labelName l).getD (toString l)) = some l := by
  obtain ⟨name, hname⟩ := h
  have hname' : s.labelName l = some name := Registry.nameOf_eq_some.mpr hname
  rw [hname']
  exact hname

lemma forM_reindexLabel (hM : Maintained G H) {s s' : Tables} {old new : Props}
    {labels : List LabelId} (hG : G new) (hH : H s D) (hnodup : labels.Nodup)
    (hold : ∀ l ∈ labels, D l n = some old) (hag : s.Agrees D n)
    (hreg : ∀ l ∈ labels, ∃ name, s.getLabel name = some l)
    (h : labels.forM (Working.reindexLabel n old new) s = (.ok u, s')) :
    H s' (D.set n labels (some new)) := by
  induction labels generalizing s D with
  | nil =>
    obtain rfl := Exec.forM_nil_eq_ok.mp h
    simpa using hH
  | cons l labels ih =>
    obtain ⟨s₁, hhead, htail⟩ := Exec.forM_cons_eq_ok.mp h
    obtain ⟨hl, hnodup'⟩ := nodup_cons.mp hnodup
    have hbase : s₁.base = s.base := by
      have hkeep := Working.keeps_base_reindexLabel n old new l s
      rwa [hhead] at hkeep
    have hname := getLabel_labelName (hreg l mem_cons_self)
    rw [Working.reindexLabel, Exec.get_bind, Exec.modify_bind] at hhead
    have hunbase := Tables.base_unindexNodeForLabel l n old s
    have hH₁ := hM.unindex hH (hold l mem_cons_self)
    have hag₁ : (s.unindexNodeForLabel l n old).Agrees (D.set n [l] none) n := by
      refine hag.congr (fun _ _ hm => Entered.set_of_ne hm) (fun m _ => ?_) fun l' m _ => ?_
      · rw [Tables.nodes_of_base_eq hunbase]
      · rw [Tables.labelIdx_of_base_eq hunbase]
    have hH₂ := hM.index hG hH₁ Entered.set_self hag₁ (by
      rw [Tables.getLabel, Tables.labels_of_base_eq hunbase]
      exact hname) hhead
    have hset : (D.set n [l] none).set n [l] (some new) = D.set n [l] (some new) := by
      funext l' m
      simp only [Entered.set]
      split <;> rfl
    rw [hset] at hH₂
    have hstep := ih hH₂ hnodup' (fun l' hl' => ?_) ?_ (fun l' hl' => ?_) htail
    · rwa [Entered.set_set] at hstep
    · have hne : l' ∉ [l] := by
        rw [mem_singleton]
        rintro rfl
        exact hl hl'
      rw [Entered.set_of_notMem hne]
      exact hold l' (mem_cons_of_mem _ hl')
    · exact hag.congr (fun _ _ hm => Entered.set_of_ne hm)
        (fun m _ => by rw [Tables.nodes_of_base_eq hbase])
        fun l' m _ => by rw [Tables.labelIdx_of_base_eq hbase]
    · obtain ⟨name, hname'⟩ := hreg l' (mem_cons_of_mem _ hl')
      exact ⟨name, by rw [Tables.getLabel, Tables.labels_of_base_eq hbase]; exact hname'⟩

lemma updateNodeImpl (hM : Maintained G H) (hw : w.Sound) (hG : G props)
    (hH : H w.tables w.tables.entered) (h : Working.updateNodeImpl n props w = (.ok (), w')) :
    H w'.tables w'.tables.entered := by
  obtain ⟨record, s, hget, hloop, rfl⟩ := Working.updateNodeImpl_ok h
  have hold : ∀ l ∈ record.labels, w.tables.entered l n = some record.props := fun l hl =>
    Tables.entered_eq_some.mpr ⟨record, hget, hl, rfl⟩
  have hstep := hM.forM_reindexLabel hG hH record.nodup hold (hw.listed.agrees n)
    (fun l hl => hw.nodes.registered n l ⟨record, hget, hl⟩) hloop
  have hkeep := Exec.Keeps.forM (l := record.labels)
    (fun l => Working.keeps_base_reindexLabel n record.props props l) w.tables
  rw [hloop] at hkeep
  have hnodes : s.nodes = w.tables.nodes := Tables.nodes_of_base_eq hkeep
  have hentered : (Working.putNode n { record with props := props }
      { w with tables := s }).tables.entered =
        w.tables.entered.set n record.labels (some props) := by
    rw [Tables.entered_put (s := w.tables) (n := n) (r := { record with props := props })
      (by simp [Working.putNode, hnodes])]
    funext l m
    by_cases hm : m = n
    · subst hm
      by_cases hl : l ∈ record.labels <;> simp [Entered.set, hl, Tables.entered, hget]
    · simp [Entered.set, hm]
  rw [hentered]
  exact hM.congr (s := s) rfl hstep

lemma addLabelInner (hM : Maintained G H) {label : String} (hw : w.Sound)
    (hG : ∀ n r, w.tables.nodes.get n = some r → G r.props) (hH : H w.tables w.tables.entered)
    (h : Working.addLabelInner n label w = (.ok (), w')) : H w'.tables w'.tables.entered := by
  obtain ⟨record, hget, ⟨-, rfl⟩ | ⟨hl, henter⟩⟩ := Working.addLabelInner_ok h
  · exact hM.congr (s := w.tables) rfl hH
  set l := (w.tables.getOrCreateLabel label).1
  set record' : NodeRecord :=
    { record with
      labels := record.labels ++ [l]
      nodup := record.nodup.append (nodup_singleton _) (by simpa using hl) }
  set w₁ : Working := Working.putNode n record'
    { w with tables := (w.tables.getOrCreateLabel label).2 }
  have hnone : w.tables.entered l n = none := by
    simp [Tables.entered, hget, hl]
  have hag : w₁.tables.Agrees w.tables.entered n :=
    (hw.listed.agrees n).congr (fun _ _ _ => rfl)
      (fun m hm => Table.get_put_of_ne _ _ hm) fun _ _ _ => Iff.rfl
  have hH₁ : H w₁.tables w.tables.entered := hM.congr (s := w.tables) rfl hH
  have hlabel : w₁.tables.getLabel label = some l :=
    w.tables.metaDb.labels.get_getOrCreate_self label
  obtain ⟨hH', -, -⟩ := hM.enterLabel (hG n record hget) hH₁ hnone hag hlabel henter
  have hnodes : w'.tables.nodes = w.tables.nodes.put n record' := by
    have hbase := Working.enterLabel_base henter
    rw [← Working.base_linkLabel] at hbase
    rw [show w'.tables.nodes = _ from congrArg (·.tables.nodes) hbase]
    exact Working.nodes_linkLabel _ _ _
  have hentered : w'.tables.entered = w.tables.entered.set n [l] (some record.props) := by
    rw [Tables.entered_put hnodes]
    funext l' m
    by_cases hm : m = n
    · subst hm
      by_cases hl' : l' = l
      · simp [Entered.set, hl', record']
      · simp [Entered.set, hl', record', Tables.entered, hget]
    · simp [Entered.set, hm]
  rw [hentered]
  exact hH'

lemma removeLabelInner (hM : Maintained G H) {w : Working} (hH : H w.tables w.tables.entered)
    (n : NodeId) (label : String) :
    H (w.removeLabelInner n label).tables (w.removeLabelInner n label).tables.entered := by
  unfold Working.removeLabelInner
  split
  next record l hget hlabel =>
    split
    next hl =>
      set record' : NodeRecord :=
        { record with labels := record.labels.erase l, nodup := record.nodup.erase l }
      set w₁ : Working := (w.putNode n record').unlinkLabel l n
      have hsec : w₁.tables.sec = w.tables.sec := Working.sec_unlinkLabel ..
      have hH' := hM.unindex (l := l) (n := n) (hM.congr hsec hH)
        (Tables.entered_eq_some.mpr ⟨record, hget, hl, rfl⟩)
      have hnodes : (w₁.tables.unindexNodeForLabel l n record.props).nodes =
          w.tables.nodes.put n record' := by
        rw [Tables.nodes_of_base_eq (Tables.base_unindexNodeForLabel l n record.props w₁.tables)]
        exact Working.nodes_unlinkLabel _ _ _
      have hentered : (w₁.tables.unindexNodeForLabel l n record.props).entered =
          w.tables.entered.set n [l] none := by
        rw [Tables.entered_put hnodes]
        funext l' m
        by_cases hm : m = n
        · subst hm
          simp only [Entered.set, Tables.entered, hget, record', record.nodup.mem_erase_iff]
          by_cases hl' : l' = l <;> simp [hl']
        · simp [Entered.set, hm]
      change H (w₁.tables.unindexNodeForLabel l n record.props)
        (w₁.tables.unindexNodeForLabel l n record.props).entered
      rw [hentered]
      exact hH'
    next => exact hH
  next => exact hH

lemma foldl_leaveLabel (hM : Maintained G H) {w : Working} {labels : List LabelId}
    (hH : H w.tables D) (hnodup : labels.Nodup) (hold : ∀ l ∈ labels, D l n = some props) :
    H (labels.foldl (Working.leaveLabel n props) w).tables (D.set n labels none) := by
  induction labels generalizing w D with
  | nil => simpa using hH
  | cons l labels ih =>
    obtain ⟨hl, hnodup'⟩ := nodup_cons.mp hnodup
    have hH₁ : H (w.leaveLabel n props l).tables (D.set n [l] none) :=
      hM.congr (Working.sec_unlinkLabel ..) (hM.unindex hH (hold l mem_cons_self))
    have hstep := ih hH₁ hnodup' fun l' hl' => by
      have hne : l' ∉ [l] := by
        rw [mem_singleton]
        rintro rfl
        exact hl hl'
      rw [Entered.set_of_notMem hne]
      exact hold l' (mem_cons_of_mem _ hl')
    rwa [Entered.set_set] at hstep

lemma deleteNodeInner (hM : Maintained G H) {t : Txn} (ht : t.Sound) (hflushed : t.Flushed)
    (hH : H t.work.tables t.work.tables.entered) (n : NodeId) :
    H (t.deleteNodeInner n).work.tables (t.deleteNodeInner n).work.tables.entered := by
  unfold Txn.deleteNodeInner
  split
  next => exact hH
  next record hget =>
    have hH₁ : H (t.leaveLabels n record).work.tables
        (t.work.tables.entered.set n record.labels none) :=
      hM.foldl_leaveLabel hH record.nodup fun l hl =>
        Tables.entered_eq_some.mpr ⟨record, hget, hl, rfl⟩
    have hsec : ((((t.leaveLabels n record).dropOutEdges n).dropInEdges n).eraseNode
        n).work.tables.sec = (t.leaveLabels n record).work.tables.sec := by
      change (((t.leaveLabels n record).dropOutEdges n).dropInEdges n).work.tables.sec = _
      have hout : ((t.leaveLabels n record).dropOutEdges n).work.tables.sec =
          (t.leaveLabels n record).work.tables.sec :=
        Exec.Keeps.foldl (f := fun t : Txn => t.work.tables.sec)
          (fun t e => Working.sec_dropEdge _ _ t.work) _ _
      exact (Exec.Keeps.foldl (f := fun t : Txn => t.work.tables.sec)
        (fun t e => Working.sec_dropEdge _ _ t.work) _ _).trans hout
    have hnodes := ht.nodes_deleteNodeInner hflushed n
    simp only [Txn.deleteNodeInner, hget] at hnodes
    have hentered : ((((t.leaveLabels n record).dropOutEdges n).dropInEdges n).eraseNode
        n).work.tables.entered = t.work.tables.entered.set n record.labels none := by
      funext l m
      simp only [Tables.entered, hnodes, Table.get_erase, Entered.set]
      by_cases hm : m = n
      · subst hm
        by_cases hl : l ∈ record.labels <;> simp [hget, hl]
      · simp [hm]
    rw [hentered]
    exact hM.congr hsec hH₁

end Maintained

/-! ## Mutations and runs -/

/-- The tables relate to the records, and every stored blob satisfies `G`. -/
structure Tables.Entries (G : Props → Prop) (H : Tables → Entered → Prop) (s : Tables) : Prop where
  entries : H s s.entered
  props : ∀ n r, s.nodes.get n = some r → G r.props

/-- The properties that a mutation writes to a node satisfy `G`. -/
def Mutation.NodeProps (G : Props → Prop) : Mutation → Prop
  | addNode _ props | addNodeMulti _ props | updateNode _ props => G props
  | _ => True

section Runs

variable [TextLib] {G : Props → Prop} {H : Tables → Entered → Prop}

/-- A step that leaves the node indexes and the nodes alone keeps the relation. -/
theorem Maintained.entries_congr (hM : Maintained G H) {s s' : Tables} (h : s.Entries G H)
    (hsec : s'.sec = s.sec) (hnodes : s'.nodes = s.nodes) : s'.Entries G H := by
  refine ⟨?_, fun n r hget => h.props n r (hnodes ▸ hget)⟩
  rw [Tables.entered_congr hnodes]
  exact hM.congr hsec h.entries

omit [TextLib] in
/-- Blobs that satisfy `G` stay so when a record with such a blob is stored. -/
theorem Tables.Entries.props_put {s : Tables} (h : s.Entries G H) {n : NodeId}
    {r : NodeRecord} (hr : G r.props) {nodes : Table NodeId NodeRecord}
    (hnodes : nodes = s.nodes.put n r) : ∀ m r', nodes.get m = some r' → G r'.props := by
  intro m r' hget
  rw [hnodes, Table.get_put] at hget
  split at hget
  · exact some.inj hget ▸ hr
  · exact h.props m r' hget

omit [TextLib] in
/-- Blobs that satisfy `G` stay so when no blob changes. -/
theorem Tables.Entries.props_map {s s' : Tables} (h : s.Entries G H)
    (hprops : ∀ m, (s'.nodes.get m).map NodeRecord.props = (s.nodes.get m).map NodeRecord.props) :
    ∀ m r, s'.nodes.get m = some r → G r.props := by
  intro m r hget
  have hmap := hprops m
  rw [hget, map_some] at hmap
  obtain ⟨r', hget', heq⟩ := map_eq_some_iff.mp hmap.symm
  exact heq ▸ h.props m r' hget'

lemma Maintained.entries_addNodeInner (hM : Maintained G H) {w w' : Working}
    {labels : List String} {props : Props} {n : NodeId} (hw : w.Sound) (hG : G props)
    (h : w.tables.Entries G H) (hadd : Working.addNodeInner labels props w = (.ok n, w')) :
    w'.tables.Entries G H := by
  obtain ⟨-, -, -, record, rfl, hnodes⟩ := Working.addNodeInner_spec hw hadd
  exact ⟨hM.addNodeInner hw hG h.entries hadd, h.props_put hG hnodes⟩

/-- **Step.** Every mutation that succeeds keeps the relation. -/
theorem Maintained.exec (hM : Maintained G H) {m : Mutation} {t t' : Txn} {r : m.Result}
    (hm : m.NodeProps G) (ht : t.Sound) (h : t.work.tables.Entries G H)
    (hexec : m.exec (m.prepare t) = (.ok r, t')) : t'.work.tables.Entries G H := by
  cases m with
  | addNode label props =>
    change onWork (Working.addNodeInner [label] props) t = _ at hexec
    obtain ⟨w, hw, rfl⟩ := Exec.zoom_eq_ok.mp hexec
    exact hM.entries_addNodeInner ht.work hm h hw
  | addNodeMulti labels props =>
    change onWork (Working.addNodeInner labels props) t = _ at hexec
    obtain ⟨w, hw, rfl⟩ := Exec.zoom_eq_ok.mp hexec
    exact hM.entries_addNodeInner ht.work hm h hw
  | updateNode n props =>
    change onWork (Working.updateNodeImpl n props) t = _ at hexec
    obtain ⟨w, hw, rfl⟩ := Exec.zoom_eq_ok.mp hexec
    obtain ⟨-, -, record, -, hnodes⟩ := Working.updateNodeImpl_spec ht.work hw
    have hG : G { record with props := props }.props := hm
    exact ⟨hM.updateNodeImpl ht.work hm h.entries hw, h.props_put hG hnodes⟩
  | addLabel n label =>
    change onWork (Working.addLabelInner n label) t = _ at hexec
    obtain ⟨w, hw, rfl⟩ := Exec.zoom_eq_ok.mp hexec
    obtain ⟨-, -, hprops⟩ := Working.addLabelInner_spec ht.work hw
    exact ⟨hM.addLabelInner ht.work h.props h.entries hw, h.props_map hprops⟩
  | removeLabel n label =>
    obtain rfl := congrArg Prod.snd hexec
    obtain ⟨-, -, hprops⟩ := Working.removeLabelInner_spec ht.work n label
    exact ⟨hM.removeLabelInner h.entries n label, h.props_map hprops⟩
  | deleteNode n =>
    obtain rfl := congrArg Prod.snd hexec
    have hp := ht.prepare (.deleteNode n)
    have hflushed : ((Mutation.deleteNode n).prepare t).Flushed := Txn.flushed_flushAdjacency _
    have h' : ((Mutation.deleteNode n).prepare t).work.tables.Entries G H := h
    refine ⟨hM.deleteNodeInner hp hflushed h'.entries n, fun m r' hget => ?_⟩
    change (Txn.deleteNodeInner n ((Mutation.deleteNode n).prepare t)).work.tables.nodes.get m =
      some r' at hget
    rw [hp.nodes_deleteNodeInner hflushed, Table.get_erase] at hget
    split at hget
    · cases hget
    · exact h'.props m r' hget
  | addEdge src dst etype props =>
    obtain ⟨id, ty⟩ := r
    change Txn.addEdgeInner src dst etype props t = _ at hexec
    obtain ⟨w, hinsert, hwork, -, -⟩ := Txn.addEdgeInner_ok hexec
    obtain ⟨-, hview, -⟩ := Working.insertEdge_spec ht.work hinsert
    rw [← hwork] at hview
    refine hM.entries_congr h ?_ (congrArg NodeView.nodes hview)
    have hsec := Working.sec_insertEdge src dst etype props t.work
    rw [hinsert] at hsec
    rw [hwork, Working.sec_bumpTypeCount]
    exact hsec
  | updateEdge id props =>
    change onWork (Working.updateEdgeImpl id props) t = _ at hexec
    obtain ⟨w, hw, rfl⟩ := Exec.zoom_eq_ok.mp hexec
    obtain ⟨-, hview, -⟩ := Working.updateEdgeImpl_spec ht.work hw
    have hsec := Working.sec_updateEdgeImpl id props t.work
    rw [hw] at hsec
    exact hM.entries_congr h hsec (congrArg NodeView.nodes hview)
  | deleteEdge id =>
    obtain rfl := congrArg Prod.snd hexec
    change (Txn.deleteEdgeInner id t.flushAdjacency).2.work.tables.Entries G H
    unfold Txn.deleteEdgeInner
    split
    next => exact h
    next record hget =>
      obtain ⟨hview, -, -⟩ := Working.dropEdge_spec ht.work.edges ht.work.memo hget
      exact hM.entries_congr h (Working.sec_dropEdge _ _ _) (congrArg NodeView.nodes hview)
  | putVectorBytes n bytes =>
    obtain rfl := congrArg Prod.snd hexec
    exact hM.entries_congr h rfl rfl
  | deleteVectorBytes n =>
    obtain rfl := congrArg Prod.snd hexec
    exact hM.entries_congr h rfl rfl
  | createNodeTextIndex label property lang =>
    change onWork (onTables (Tables.createNodeTextIndex label property lang)) t = _ at hexec
    obtain ⟨w, hw, rfl⟩ := Exec.zoom_eq_ok.mp hexec
    obtain ⟨s, hs, rfl⟩ := Exec.zoom_eq_ok.mp hw
    obtain ⟨hevolves, -⟩ := Tables.evolves_createNodeTextIndex hs
    refine ⟨?_, fun m r' hget => h.props m r' (hevolves.nodes ▸ hget)⟩
    change H s s.entered
    rw [Tables.entered_congr hevolves.nodes]
    exact hM.createText ht.work.listed h.entries hs
  | dropNodeTextIndex label property =>
    obtain rfl := congrArg Prod.snd hexec
    obtain ⟨hevolves, -⟩ := t.work.tables.evolves_dropNodeTextIndex label property
    refine ⟨?_, fun m r' hget => h.props m r' (hevolves.nodes ▸ hget)⟩
    change H _ (t.work.tables.dropNodeTextIndex label property).entered
    rw [Tables.entered_congr hevolves.nodes]
    exact hM.dropText h.entries

/-- A relation that is maintained by the mutations and by the schema changes satisfying `D` is an
invariant of every run. -/
theorem Maintained.invariant (hM : Maintained G H) {D : Graph.Ddl → Tables → Prop}
    (hddl : ∀ {d : Graph.Ddl} {s s' : Tables}, D d s → s.Listed → s.Entries G H →
      d.exec s = (.ok (), s') → H s' s.entered) :
    Graph.Invariant (Mutation.NodeProps G) D (fun t => t.Sound ∧ t.work.tables.Entries G H)
      (fun s => s.Sound ∧ s.tables.Entries G H) where
  begin_plain h := ⟨Graph.sound_invariant.begin_plain h.1, h.2⟩
  begin_batch h := ⟨Graph.sound_invariant.begin_batch h.1, h.2⟩
  exec hC h hexec := ⟨h.1.exec hexec, hM.exec hC h.1 h.2 hexec⟩
  bulk h := ⟨Graph.sound_invariant.bulk h.1, h.2⟩
  commit {t} h := by
    refine ⟨Graph.sound_invariant.commit h.1, ?_⟩
    obtain ⟨hnodes, -⟩ := Working.flushCounters_spec h.1.work
    exact hM.entries_congr h.2 (Working.sec_flushCounters t.work) (congrArg NodeView.nodes hnodes)
  commitGen h := ⟨Graph.sound_invariant.commitGen h.1, hM.entries_congr h.2 rfl rfl⟩
  ddl {d s s'} hD h hexec := by
    have hevolves := Graph.Ddl.evolves hexec
    refine ⟨Graph.sound_invariant.ddl trivial h.1 hexec, ?_, fun n r hget =>
      h.2.props n r (hevolves.nodes ▸ hget)⟩
    change H s' s'.entered
    rw [Tables.entered_congr hevolves.nodes]
    exact hddl hD h.1.work.listed h.2 hexec

end Runs

end IssunDB
