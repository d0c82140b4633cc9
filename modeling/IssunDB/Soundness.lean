import IssunDB.Views

/-!
# Operations keep the working state sound

`Working.Sound` collects the soundness of the node side, of the edge side and of the memo. Every
operation that succeeds keeps it (`addNodeInner_sound` and the lemmas after it). The proofs run
on the views: each operation is first identified with an abstract one, whose effect on soundness
is known.
-/

namespace IssunDB

open List Option

/-- The memoized answers are still right. -/
structure BatchMemo.Sound (c : BatchMemo) (s : Tables) : Prop where
  types : ∀ name t, c.types.get name = some t → s.getType name = some t
  known : ∀ n ∈ c.knownNodes, (s.nodes.get n).isSome
  indexes : ∀ t active, c.edgeIndexes.get t = some active → active = s.getActiveEdgeIndexes t

/-- The memo stays right while types are only added, no node goes and no edge index changes. -/
theorem BatchMemo.Sound.mono {c : BatchMemo} {s s' : Tables} (h : c.Sound s)
    (htypes : s.metaDb.types.Extends s'.metaDb.types)
    (hnodes : ∀ n, (s.nodes.get n).isSome → (s'.nodes.get n).isSome)
    (hidx : s'.metaDb.idxEdge = s.metaDb.idxEdge) : c.Sound s' where
  types name t hget := htypes name t (h.types name t hget)
  known n hn := hnodes n (h.known n hn)
  indexes t active hget := by
    rw [h.indexes t active hget, Tables.getActiveEdgeIndexes, Tables.getActiveEdgeIndexes, hidx]

namespace Working

def MemoSound (w : Working) : Prop := ∀ c, w.memo = some c → c.Sound w.tables

/-- Records, registries, label index, counts and memo fit together. -/
structure Sound (w : Working) : Prop where
  nodes : w.nodeView.Sound
  edges : w.edgeView.Sound
  memo : w.MemoSound

variable {w w' : Working} {n : NodeId} {t : TypeId} {etype : String} {id : EdgeId} {props : Props}

/-- The memo's answers do not depend on index entries. -/
theorem memoSound_of_base_eq (h : w'.base = w.base) (hw : w.MemoSound) :
    w'.MemoSound := by
  have hnodes : w'.tables.nodes = w.tables.nodes := congrArg (·.tables.nodes) h
  have htypes : w'.tables.metaDb.types = w.tables.metaDb.types :=
    congrArg (·.tables.metaDb.types) h
  have hmemo : w'.base.memo = w.base.memo := congrArg Working.memo h
  intro c hc
  exact (hw c (hmemo ▸ hc)).mono (htypes ▸ .refl _) (fun n hn => by rwa [hnodes])
    (congrArg (·.tables.metaDb.idxEdge) h)

lemma edgeView_of_base_eq (h : w'.base = w.base) : w'.edgeView = w.edgeView := by
  rw [← edgeView_base, h, edgeView_base]

lemma nodeView_of_base_eq (h : w'.base = w.base) : w'.nodeView = w.nodeView := by
  rw [← nodeView_base, h, nodeView_base]

/-- Soundness does not depend on index entries. -/
theorem sound_of_base_eq (h : w'.base = w.base) (hw : w.Sound) : w'.Sound :=
  ⟨nodeView_of_base_eq h ▸ hw.nodes, edgeView_of_base_eq h ▸ hw.edges,
    memoSound_of_base_eq h hw.memo⟩

/-- The nodes the memo takes to exist. -/
def knownNodes (w : Working) : Finset NodeId := (w.memo.map BatchMemo.knownNodes).getD ∅

lemma knownNodes_bumpLabelCount (l : LabelId) (d : ℤ) (w : Working) :
    (w.bumpLabelCount l d).knownNodes = w.knownNodes := by
  obtain ⟨s, memo⟩ := w
  cases memo <;> rfl

lemma knownNodes_leaveLabel [TextLib] (n : NodeId) (props : Props) (w : Working) (l : LabelId) :
    (w.leaveLabel n props l).knownNodes = w.knownNodes := knownNodes_bumpLabelCount ..

lemma knownNodes_bumpTypeCount (t : TypeId) (d : ℤ) (w : Working) :
    (w.bumpTypeCount t d).knownNodes = w.knownNodes := by
  obtain ⟨s, memo⟩ := w
  cases memo <;> rfl

@[simp]
lemma knownNodes_invalidateNodes (w : Working) : w.invalidateNodes.knownNodes = ∅ := by
  obtain ⟨s, memo⟩ := w
  cases memo <;> rfl

lemma knownNodes_dropEdge (id : EdgeId) (t : TypeId) (w : Working) :
    (w.dropEdge id t).knownNodes = w.knownNodes := knownNodes_bumpTypeCount ..

/-! ## Labels -/

lemma nodeView_linkLabel (l : LabelId) (n : NodeId) (w : Working)
    (h : 0 ≤ w.nodeView.labelCount l) : (w.linkLabel l n).nodeView = w.nodeView.link l n := by
  have hcount : 0 ≤ (nodeView { w with tables :=
      { w.tables with labelIdx := insert (l, n) w.tables.labelIdx } }).labelCount l + 1 :=
    add_nonneg h zero_le_one
  rw [linkLabel, nodeView_bumpLabelCount hcount]
  rfl

lemma nodeView_unlinkLabel (l : LabelId) (n : NodeId) (w : Working)
    (h : 1 ≤ w.nodeView.labelCount l) : (w.unlinkLabel l n).nodeView = w.nodeView.unlink l n := by
  have hcount : 0 ≤ (nodeView { w with tables :=
      { w.tables with labelIdx := w.tables.labelIdx.erase (l, n) } }).labelCount l + -1 := by
    have : 1 ≤ (nodeView { w with tables :=
      { w.tables with labelIdx := w.tables.labelIdx.erase (l, n) } }).labelCount l := h
    omega
  rw [unlinkLabel, nodeView_bumpLabelCount hcount]
  rfl

lemma nodes_linkLabel (l : LabelId) (n : NodeId) (w : Working) :
    (w.linkLabel l n).tables.nodes = w.tables.nodes := by
  obtain ⟨s, memo⟩ := w
  cases memo <;> rfl

lemma nodes_unlinkLabel (l : LabelId) (n : NodeId) (w : Working) :
    (w.unlinkLabel l n).tables.nodes = w.tables.nodes := by
  obtain ⟨s, memo⟩ := w
  cases memo <;> rfl

@[simp]
lemma edgeView_linkLabel (l : LabelId) (n : NodeId) (w : Working) :
    (w.linkLabel l n).edgeView = w.edgeView := edgeView_bumpLabelCount ..

@[simp]
lemma edgeView_unlinkLabel (l : LabelId) (n : NodeId) (w : Working) :
    (w.unlinkLabel l n).edgeView = w.edgeView := edgeView_bumpLabelCount ..

/-- The tables and the memo, without label index and label counts. -/
private def offLabels (w : Working) : Tables × Option BatchMemo :=
  ({ w.tables with
      labelIdx := ∅
      metaDb := { w.tables.metaDb with statsLabel := .empty } },
    w.memo.map fun c => { c with labelDeltas := .empty })

private lemma offLabels_linkLabel (l : LabelId) (n : NodeId) (w : Working) :
    (w.linkLabel l n).offLabels = w.offLabels := by
  obtain ⟨s, memo⟩ := w
  cases memo <;> rfl

private lemma offLabels_unlinkLabel (l : LabelId) (n : NodeId) (w : Working) :
    (w.unlinkLabel l n).offLabels = w.offLabels := by
  obtain ⟨s, memo⟩ := w
  cases memo <;> rfl

private lemma memoSound_of_offLabels (h : w'.offLabels = w.offLabels) (hw : w.MemoSound) :
    w'.MemoSound := by
  intro c' hc'
  have hmemo := congrArg Prod.snd h
  simp only [offLabels, hc', map_some] at hmemo
  obtain ⟨c, hc, heq⟩ := map_eq_some_iff.mp hmemo.symm
  have htypes : w'.tables.metaDb.types = w.tables.metaDb.types :=
    congrArg (·.1.metaDb.types) h
  have hnodes : w'.tables.nodes = w.tables.nodes := congrArg (·.1.nodes) h
  have hidx : w'.tables.metaDb.idxEdge = w.tables.metaDb.idxEdge :=
    congrArg (·.1.metaDb.idxEdge) h
  have hsound : c.Sound w'.tables :=
    (hw c hc).mono (htypes ▸ .refl _) (fun n hn => by rwa [hnodes]) hidx
  obtain ⟨h1, -, -, -, -, h3, h2⟩ := BatchMemo.mk.injEq .. ▸ heq
  exact ⟨h1 ▸ hsound.types, h2 ▸ hsound.known, h3 ▸ hsound.indexes⟩

lemma linkLabels_spec {labels : List LabelId} {w : Working} (hnodup : labels.Nodup)
    (hfresh : ∀ l ∈ labels, (l, n) ∉ w.tables.labelIdx) (hcount : w.nodeView.CountExact)
    (hmemo : w.MemoSound) :
    (w.linkLabels n labels).nodeView = w.nodeView.linkAll n labels ∧
      (w.linkLabels n labels).edgeView = w.edgeView ∧
      (w.linkLabels n labels).MemoSound := by
  induction labels generalizing w with
  | nil => exact ⟨rfl, rfl, hmemo⟩
  | cons l labels ih =>
    obtain ⟨hl, hrest⟩ := nodup_cons.mp hnodup
    have hview := nodeView_linkLabel l n w (by rw [hcount l]; positivity)
    have hidx : (w.linkLabel l n).tables.labelIdx = insert (l, n) w.tables.labelIdx :=
      congrArg NodeView.labelIdx hview
    have hfresh' : ∀ l' ∈ labels, (l', n) ∉ (w.linkLabel l n).tables.labelIdx := by
      intro l' hl'
      have hne : l' ≠ l := fun h => hl (h ▸ hl')
      simpa [hidx, hne] using hfresh l' (mem_cons_of_mem _ hl')
    have hcount' : (w.linkLabel l n).nodeView.CountExact := by
      rw [hview]
      exact hcount.link (hfresh l (by simp))
    obtain ⟨h1, h2, h3⟩ := ih hrest hfresh' hcount'
      (memoSound_of_offLabels (offLabels_linkLabel l n w) hmemo)
    exact ⟨h1.trans (by rw [hview]; rfl), h2.trans (edgeView_linkLabel l n w), h3⟩

lemma unlinkLabels_spec {labels : List LabelId} {w : Working} (hnodup : labels.Nodup)
    (hmem : ∀ l ∈ labels, (l, n) ∈ w.tables.labelIdx) (hcount : w.nodeView.CountExact)
    (hmemo : w.MemoSound) :
    (w.unlinkLabels n labels).nodeView = w.nodeView.unlinkAll n labels ∧
      (w.unlinkLabels n labels).edgeView = w.edgeView ∧
      (w.unlinkLabels n labels).MemoSound := by
  induction labels generalizing w with
  | nil => exact ⟨rfl, rfl, hmemo⟩
  | cons l labels ih =>
    obtain ⟨hl, hrest⟩ := nodup_cons.mp hnodup
    have hmemL : (l, n) ∈ w.tables.labelIdx := hmem l (by simp)
    have hpos : 1 ≤ w.nodeView.labelCount l := by
      have hcard : 0 < (w.tables.labelIdx.under l).card :=
        Finset.card_pos.mpr ⟨n, by simpa using hmemL⟩
      rw [hcount l]
      exact_mod_cast hcard
    have hview := nodeView_unlinkLabel l n w hpos
    have hidx : (w.unlinkLabel l n).tables.labelIdx = w.tables.labelIdx.erase (l, n) :=
      congrArg NodeView.labelIdx hview
    have hmem' : ∀ l' ∈ labels, (l', n) ∈ (w.unlinkLabel l n).tables.labelIdx := by
      intro l' hl'
      have hne : l' ≠ l := fun h => hl (h ▸ hl')
      simpa [hidx, hne] using hmem l' (mem_cons_of_mem _ hl')
    have hcount' : (w.unlinkLabel l n).nodeView.CountExact := by
      rw [hview]
      exact hcount.unlink hmemL
    obtain ⟨h1, h2, h3⟩ := ih hrest hmem' hcount'
      (memoSound_of_offLabels (offLabels_unlinkLabel l n w) hmemo)
    exact ⟨h1.trans (by rw [hview]; rfl), h2.trans (edgeView_unlinkLabel l n w), h3⟩

/-! ## Nodes -/

lemma mem_push {r : ResolvedLabels} {l l' : LabelId} {name name' : String}
    (h : (l', name') ∈ (r.push l name).list) : (l', name') ∈ r.list ∨ (l' = l ∧ name' = name) := by
  unfold ResolvedLabels.push at h
  split at h
  · exact .inl h
  · simpa using h

lemma resolveLabels_spec {names : List String} {r r' : ResolvedLabels} {s s' : Tables}
    (h : s.resolveLabels names r = (r', s'))
    (hr : ∀ l name, (l, name) ∈ r.list → s.getLabel name = some l) :
    s' = { s with metaDb := { s.metaDb with labels := s'.metaDb.labels } } ∧
      s.metaDb.labels.Extends s'.metaDb.labels ∧
      ∀ l name, (l, name) ∈ r'.list → s'.getLabel name = some l := by
  induction names generalizing r s with
  | nil =>
    obtain ⟨rfl, rfl⟩ := Prod.mk.injEq .. ▸ h
    exact ⟨rfl, .refl _, hr⟩
  | cons name names ih =>
    have hext := s.metaDb.labels.extends_getOrCreate name
    have hr' : ∀ l' name', (l', name') ∈ (r.push (s.getOrCreateLabel name).1 name).list →
        (s.getOrCreateLabel name).2.getLabel name' = some l' := by
      intro l' name' hmem
      rcases mem_push hmem with hmem | ⟨rfl, rfl⟩
      · exact hext name' l' (hr l' name' hmem)
      · exact s.metaDb.labels.get_getOrCreate_self _
    obtain ⟨h1, h2, h3⟩ := ih h hr'
    exact ⟨h1, hext.trans h2, h3⟩

lemma mem_map_push (r : ResolvedLabels) (l : LabelId) (name : String) :
    l ∈ (r.push l name).list.map Prod.fst ∧
      ∀ l' ∈ r.list.map Prod.fst, l' ∈ (r.push l name).list.map Prod.fst := by
  unfold ResolvedLabels.push
  split
  next h => exact ⟨h, fun _ h' => h'⟩
  next h =>
    rw [map_append]
    exact ⟨mem_append_right _ (mem_singleton_self l), fun _ => mem_append_left _⟩

lemma resolveLabels_names {names : List String} {r r' : ResolvedLabels} {s s' : Tables}
    (h : s.resolveLabels names r = (r', s'))
    (hr : ∀ l name, (l, name) ∈ r.list → s.getLabel name = some l) :
    (∀ l ∈ r.list.map Prod.fst, l ∈ r'.list.map Prod.fst) ∧
      (∀ name ∈ names, ∃ l ∈ r'.list.map Prod.fst, s'.getLabel name = some l) ∧
      ∀ p ∈ r'.list, p ∈ r.list ∨ p.2 ∈ names := by
  induction names generalizing r s with
  | nil =>
    obtain ⟨rfl, rfl⟩ := Prod.mk.injEq .. ▸ h
    exact ⟨fun _ h => h, fun _ hname => absurd hname not_mem_nil, fun _ hp => .inl hp⟩
  | cons name names ih =>
    have hself : (s.getOrCreateLabel name).2.getLabel name = some (s.getOrCreateLabel name).1 :=
      s.metaDb.labels.get_getOrCreate_self _
    have hr' : ∀ l' name', (l', name') ∈ (r.push (s.getOrCreateLabel name).1 name).list →
        (s.getOrCreateLabel name).2.getLabel name' = some l' := by
      intro l' name' hmem
      rcases mem_push hmem with hmem | ⟨rfl, rfl⟩
      · exact s.metaDb.labels.extends_getOrCreate name name' l' (hr l' name' hmem)
      · exact hself
    replace h : (s.getOrCreateLabel name).2.resolveLabels names
        (r.push (s.getOrCreateLabel name).1 name) = (r', s') := h
    obtain ⟨hkept, hnames, honly⟩ := ih h hr'
    obtain ⟨-, hext, -⟩ := resolveLabels_spec h hr'
    obtain ⟨hpushed, hold⟩ := mem_map_push r (s.getOrCreateLabel name).1 name
    refine ⟨fun l hl => hkept l (hold l hl), fun name' hname' => ?_, fun p hp => ?_⟩
    · rcases mem_cons.mp hname' with rfl | hname'
      · exact ⟨_, hkept _ hpushed, hext _ _ hself⟩
      · exact hnames name' hname'
    · rcases honly p hp with hp | hp
      · rcases mem_push hp with hp | ⟨-, hname'⟩
        · exact .inl hp
        · exact .inr (hname' ▸ mem_cons_self)
      · exact .inr (mem_cons_of_mem _ hp)

/-- The node side after storing a record. -/
theorem nodeView_putNode (n : NodeId) (record : NodeRecord) (w : Working) :
    (w.putNode n record).nodeView = { w.nodeView with nodes := w.nodeView.nodes.put n record } :=
  rfl

lemma memoSound_putNode {record : NodeRecord} {w : Working} (h : w.MemoSound) :
    (w.putNode n record).MemoSound := by
  intro c hc
  refine (h c hc).mono (.refl _) (fun m hm => ?_) rfl
  by_cases hmn : m = n
  · simp [putNode, hmn]
  · simpa [putNode, hmn] using hm

lemma allocNodeId_spec (h : w.allocNodeId = (n, w')) :
    n = w.nextNode ∧ w'.nodeView = { w.nodeView with nextNode := w.nextNode + 1 } ∧
      w'.edgeView = w.edgeView ∧ w'.tables.nodes = w.tables.nodes ∧
      (w.MemoSound → w'.MemoSound) := by
  obtain ⟨s, memo⟩ := w
  cases memo with
  | none =>
    obtain ⟨rfl, rfl⟩ := Prod.mk.injEq .. ▸ h
    exact ⟨rfl, rfl, rfl, rfl, fun _ c hc => by cases hc⟩
  | some c =>
    obtain ⟨rfl, rfl⟩ := Prod.mk.injEq .. ▸ h
    refine ⟨rfl, rfl, rfl, rfl, fun hsound c' hc' => ?_⟩
    obtain rfl := some.inj hc'
    exact ⟨(hsound c rfl).types, (hsound c rfl).known, (hsound c rfl).indexes⟩

lemma sound_getOrCreateLabel {w : Working} (hw : w.Sound) (label : String) :
    Sound { w with tables := (w.tables.getOrCreateLabel label).2 } :=
  ⟨hw.nodes.register (w.tables.metaDb.labels.extends_getOrCreate label), hw.edges,
    fun c hc => (hw.memo c hc).mono (.refl _) (fun _ h => h) rfl⟩

lemma sound_linkLabel {l : LabelId} {r r' : NodeRecord} {w : Working} (hw : w.Sound)
    (hget : w.tables.nodes.get n = some r) (hl : l ∉ r.labels)
    (hlabels : r'.labels = r.labels ++ [l]) (hreg : ∃ name, w.tables.getLabel name = some l) :
    ((w.putNode n r').linkLabel l n).Sound := by
  have hview := nodeView_linkLabel l n (w.putNode n r') (by
    rw [nodeView_putNode]
    exact (hw.nodes.count l).symm ▸ Int.natCast_nonneg _)
  refine ⟨?_, ?_, ?_⟩
  · rw [hview]
    exact hw.nodes.addLabel hget hl hlabels hreg
  · rw [edgeView_linkLabel]
    exact hw.edges
  · exact memoSound_of_offLabels (offLabels_linkLabel l n _) (memoSound_putNode hw.memo)

section Nodes

variable [TextLib]

/-- The record carries the labels of these names. -/
def Labelled (s : Tables) (record : NodeRecord) (labels : List String) : Prop :=
  (∀ name ∈ labels, ∃ l ∈ record.labels, s.getLabel name = some l) ∧
    ∀ l ∈ record.labels, ∃ name ∈ labels, s.getLabel name = some l

variable {w w' : Working} {n : NodeId} {props : Props}

/-- A node insertion stores one new record under the next id, with the labels and the properties it
is given, and keeps the state sound. -/
theorem addNodeInner_placed {labels : List String} (hw : w.Sound)
    (h : addNodeInner labels props w = (.ok n, w')) :
    w'.Sound ∧ w'.edgeView = w.edgeView ∧ n = w.nextNode ∧ w'.nextNode = w.nextNode + 1 ∧
      ∃ record : NodeRecord, record.props = props ∧ Labelled w'.tables record labels ∧
        w'.tables.nodes = w.tables.nodes.put n record := by
  obtain ⟨r, s, w₁, hres, halloc, hloop⟩ := addNodeInner_ok h
  obtain ⟨hs, hext, hreg⟩ := resolveLabels_spec hres (by simp [ResolvedLabels.nil])
  obtain ⟨-, hnames, honly⟩ := resolveLabels_names hres (by simp [ResolvedLabels.nil])
  obtain ⟨hn, hview₁, hedge₁, hnodes₁, hmemo₁⟩ := allocNodeId_spec halloc
  set record : NodeRecord := ⟨r.list.map Prod.fst, props, r.nodup⟩ with hrecord
  -- The state before linking: labels registered, id allocated, record stored.
  have hview₀ : nodeView { w with tables := s } =
      { w.nodeView with labels := s.metaDb.labels } := by
    rw [hs]
    rfl
  have hedge₀ : edgeView { w with tables := s } = w.edgeView := by
    rw [hs]
    rfl
  have hn' : n = w.nextNode := by
    rw [hn]
    exact congrArg NodeView.nextNode hview₀
  have hmemo₀ : MemoSound { w with tables := s } := by
    intro c hc
    rw [hs]
    exact (hw.memo c hc).mono (.refl _) (fun _ h => h) rfl
  have hview₂ : (w₁.putNode n record).nodeView =
      { w.nodeView with
        labels := s.metaDb.labels
        nodes := w.nodeView.nodes.put w.nodeView.nextNode record
        nextNode := w.nodeView.nextNode + 1 } := by
    rw [nodeView_putNode, hview₁, ← hn, hn']
    simp only [hview₀]
    rfl
  have hcreate := (hw.nodes.register hext).create (r := record) (by
    intro l hl
    obtain ⟨⟨l', name⟩, hmem, rfl⟩ := List.mem_map.mp hl
    exact ⟨name, hreg l' name hmem⟩)
  have hfresh : ∀ l ∈ record.labels, (l, n) ∉ (w₁.putNode n record).tables.labelIdx := by
    intro l _ hmem
    rw [show (w₁.putNode n record).tables.labelIdx = w.tables.labelIdx from
      congrArg NodeView.labelIdx hview₂] at hmem
    obtain ⟨r', hget, -⟩ := (hw.nodes.labelIdx_iff l n).mp hmem
    exact absurd (hw.nodes.node_lt n r' hget) (by rw [hn']; exact lt_irrefl _)
  obtain ⟨h1, h2, h3⟩ := linkLabels_spec record.nodup hfresh
    (by rw [hview₂]; exact hw.nodes.count) (memoSound_putNode (hmemo₁ hmemo₀))
  have hbase : w'.base = ((w₁.putNode n record).linkLabels n record.labels).base :=
    (forM_enterLabel_base hloop).trans (base_linkLabels ..).symm
  have hedge : ((w₁.putNode n record).linkLabels n record.labels).edgeView = w.edgeView :=
    h2.trans (hedge₁.trans hedge₀)
  have hsound : ((w₁.putNode n record).linkLabels n record.labels).Sound := by
    refine ⟨?_, ?_, h3⟩
    · rw [h1, hview₂, hn']
      exact hcreate
    · rw [hedge]
      exact hw.edges
  have hview' : w'.nodeView = (w₁.putNode n record).nodeView.linkAll n record.labels := by
    rw [nodeView_of_base_eq hbase, h1]
  obtain ⟨hnodes, hnext, hlabels, -⟩ := @NodeView.linkAll_spec
    (w₁.putNode n record).nodeView n record.labels record.nodup hfresh
      (by rw [hview₂]; exact hw.nodes.count)
  rw [← hview', hview₂] at hnodes hnext hlabels
  refine ⟨sound_of_base_eq hbase hsound, ?_, hn', hnext, record, rfl, ⟨fun name hname => ?_,
    fun l hl => ?_⟩, ?_⟩
  · rw [edgeView_of_base_eq hbase, hedge]
  · obtain ⟨l, hl, hget⟩ := hnames name hname
    exact ⟨l, hl, (congrArg (·.get name) hlabels).trans hget⟩
  · obtain ⟨⟨l', name⟩, hmem, rfl⟩ := List.mem_map.mp hl
    have hname : name ∈ labels := (honly _ hmem).resolve_left (by simp [ResolvedLabels.nil])
    exact ⟨name, hname, (congrArg (·.get name) hlabels).trans (hreg l' name hmem)⟩
  · rw [← show n = w.nodeView.nextNode from hn'] at hnodes
    exact hnodes

/-- A node insertion stores one new record and keeps the state sound. -/
theorem addNodeInner_spec {labels : List String} (hw : w.Sound)
    (h : addNodeInner labels props w = (.ok n, w')) :
    w'.Sound ∧ w'.edgeView = w.edgeView ∧ n = w.nextNode ∧
      ∃ record : NodeRecord, record.props = props ∧
        w'.tables.nodes = w.tables.nodes.put n record := by
  obtain ⟨hsound, hedge, hn, -, record, hprops, -, hnodes⟩ := addNodeInner_placed hw h
  exact ⟨hsound, hedge, hn, record, hprops, hnodes⟩

/-- A property update replaces the record and keeps the state sound. -/
theorem updateNodeImpl_spec (hw : w.Sound) (h : updateNodeImpl n props w = (.ok (), w')) :
    w'.Sound ∧ w'.edgeView = w.edgeView ∧ ∃ record, w.tables.nodes.get n = some record ∧
      w'.tables.nodes = w.tables.nodes.put n { record with props := props } := by
  obtain ⟨record, s, hget, hloop, rfl⟩ := updateNodeImpl_ok h
  have hbase : ({ w with tables := s } : Working).base = w.base := by
    have hkeep := Exec.Keeps.forM (l := record.labels)
      (fun l => keeps_base_reindexLabel n record.props props l) w.tables
    rw [hloop] at hkeep
    simp only [base, hkeep]
  have hput : (({ w with tables := s } : Working).putNode n { record with props := props }).base =
      (w.putNode n { record with props := props }).base := by
    rw [base_putNode, hbase, base_putNode]
  have hsound : (w.putNode n { record with props := props }).Sound :=
    ⟨hw.nodes.replace hget rfl, hw.edges, memoSound_putNode hw.memo⟩
  exact ⟨sound_of_base_eq hput hsound, (edgeView_of_base_eq hput).trans rfl, record, hget,
    congrArg NodeView.nodes (nodeView_of_base_eq hput)⟩

/-- A label addition keeps the state sound and the properties of every node. -/
theorem addLabelInner_spec {label : String} (hw : w.Sound)
    (h : addLabelInner n label w = (.ok (), w')) :
    w'.Sound ∧ w'.edgeView = w.edgeView ∧ ∀ m,
      (w'.tables.nodes.get m).map NodeRecord.props =
        (w.tables.nodes.get m).map NodeRecord.props := by
  obtain ⟨record, hget, ⟨-, rfl⟩ | ⟨hl, henter⟩⟩ := addLabelInner_ok h
  · exact ⟨sound_getOrCreateLabel hw label, rfl, fun _ => rfl⟩
  have hreg : ∃ name, (w.tables.getOrCreateLabel label).2.getLabel name =
      some (w.tables.getOrCreateLabel label).1 :=
    ⟨label, w.tables.metaDb.labels.get_getOrCreate_self label⟩
  set record' : NodeRecord :=
    { record with
      labels := record.labels ++ [(w.tables.getOrCreateLabel label).1]
      nodup := record.nodup.append (nodup_singleton _) (by simpa using hl) }
  have hbase := (enterLabel_base henter).trans (base_linkLabel ..).symm
  have hlabels : record'.labels = record.labels ++ [(w.tables.getOrCreateLabel label).1] := rfl
  have hsound := sound_linkLabel (sound_getOrCreateLabel hw label) hget hl hlabels hreg
  refine ⟨sound_of_base_eq hbase hsound, ?_, fun m => ?_⟩
  · rw [edgeView_of_base_eq hbase, edgeView_linkLabel]
    rfl
  · have hnodes : w'.tables.nodes = w.tables.nodes.put n _ :=
      (congrArg (·.tables.nodes) hbase).trans (nodes_linkLabel ..)
    rw [hnodes, Table.get_put]
    split
    next heq =>
      rw [heq, hget]
      rfl
    next => rfl

omit [TextLib] in
/-- The state after a label that a node carries is taken off it. -/
theorem unlinked_spec {w : Working} (hw : w.Sound) {l : LabelId} {record record' : NodeRecord}
    (hget : w.tables.nodes.get n = some record) (hl : l ∈ record.labels)
    (hlabels : record'.labels = record.labels.erase l) (hprops : record'.props = record.props) :
    ((w.putNode n record').unlinkLabel l n).Sound ∧
      ((w.putNode n record').unlinkLabel l n).edgeView = w.edgeView ∧
      ∀ m, (((w.putNode n record').unlinkLabel l n).tables.nodes.get m).map NodeRecord.props =
        (w.tables.nodes.get m).map NodeRecord.props := by
  have hview := nodeView_unlinkLabel l n (w.putNode n record') (hw.nodes.count_pos hget hl)
  refine ⟨⟨?_, ?_, ?_⟩, edgeView_unlinkLabel .., fun m => ?_⟩
  · rw [hview]
    exact hw.nodes.removeLabel hget hl hlabels
  · rw [edgeView_unlinkLabel]
    exact hw.edges
  · exact memoSound_of_offLabels (offLabels_unlinkLabel l n _) (memoSound_putNode hw.memo)
  · rw [nodes_unlinkLabel]
    simp only [putNode, Table.get_put]
    split
    next heq =>
      rw [heq, hget, map_some, map_some, hprops]
    next => rfl

/-- A label removal keeps the state sound and the properties of every node. -/
theorem removeLabelInner_spec {w : Working} (hw : w.Sound) (n : NodeId) (label : String) :
    (w.removeLabelInner n label).Sound ∧ (w.removeLabelInner n label).edgeView = w.edgeView ∧
      ∀ m, ((w.removeLabelInner n label).tables.nodes.get m).map NodeRecord.props =
        (w.tables.nodes.get m).map NodeRecord.props := by
  unfold removeLabelInner
  split
  next record l hget hlabel =>
    split
    next hl =>
      set record' : NodeRecord :=
        { record with labels := record.labels.erase l, nodup := record.nodup.erase l }
        with hrecord'
      obtain ⟨hsound, hview, hprops⟩ :=
        unlinked_spec hw hget hl (hrecord' ▸ rfl : record'.labels = _) rfl
      set w₁ := (w.putNode n record').unlinkLabel l n
      have hbase : ({ w₁ with tables := w₁.tables.unindexNodeForLabel l n record.props } :
          Working).base = w₁.base := by
        simp only [base, Tables.base_unindexNodeForLabel]
      have hnodes : (w₁.tables.unindexNodeForLabel l n record.props).nodes = w₁.tables.nodes :=
        Tables.nodes_of_base_eq (Tables.base_unindexNodeForLabel ..)
      refine ⟨sound_of_base_eq hbase hsound, (edgeView_of_base_eq hbase).trans hview, fun m => ?_⟩
      rw [← hprops m, ← hnodes]
    next => exact ⟨hw, rfl, fun _ => rfl⟩
  next => exact ⟨hw, rfl, fun _ => rfl⟩

end Nodes

/-! ## Edges -/

lemma proveNode_spec {id : NodeId} {u : PUnit} (hw : w.Sound) (h : proveNode id w = (.ok u, w')) :
    (w.tables.nodes.get id).isSome ∧ w'.tables = w.tables ∧ w'.nodeView = w.nodeView ∧
      w'.edgeView = w.edgeView ∧ w'.MemoSound := by
  obtain ⟨s, memo⟩ := w
  cases memo with
  | none =>
    simp only [proveNode] at h
    split at h
    next hsome =>
      obtain rfl := congrArg Prod.snd h
      exact ⟨hsome, rfl, rfl, rfl, hw.memo⟩
    next => cases congrArg Prod.fst h
  | some c =>
    simp only [proveNode] at h
    split at h
    next hknown =>
      obtain rfl := congrArg Prod.snd h
      exact ⟨(hw.memo c rfl).known id hknown, rfl, rfl, rfl, hw.memo⟩
    next =>
      split at h
      next hsome =>
        obtain rfl := congrArg Prod.snd h
        refine ⟨hsome, rfl, rfl, rfl, fun c' hc' => ?_⟩
        obtain rfl := some.inj hc'
        refine ⟨(hw.memo c rfl).types, fun n hn => ?_, (hw.memo c rfl).indexes⟩
        rcases Finset.mem_insert.mp hn with rfl | hn
        · exact hsome
        · exact (hw.memo c rfl).known n hn
      next => cases congrArg Prod.fst h

lemma resolveType_spec (hw : w.Sound) (h : w.resolveType etype = (t, w')) :
    w'.tables.getType etype = some t ∧ w.tables.metaDb.types.Extends w'.tables.metaDb.types ∧
      w'.tables = { w.tables with metaDb := { w.tables.metaDb with
        types := w'.tables.metaDb.types } } ∧
      w'.nodeView = w.nodeView ∧
      w'.edgeView = { w.edgeView with types := w'.tables.metaDb.types } ∧ w'.MemoSound := by
  obtain ⟨s, memo⟩ := w
  have hself := s.metaDb.types.get_getOrCreate_self etype
  have hext := s.metaDb.types.extends_getOrCreate etype
  cases memo with
  | none =>
    obtain ⟨rfl, rfl⟩ := Prod.mk.injEq .. ▸ h
    exact ⟨hself, hext, rfl, rfl, rfl, fun c hc => by cases hc⟩
  | some c =>
    simp only [resolveType] at h
    split at h
    next t' ht' =>
      obtain ⟨rfl, rfl⟩ := Prod.mk.injEq .. ▸ h
      exact ⟨(hw.memo c rfl).types etype _ ht', .refl _, rfl, rfl, rfl, hw.memo⟩
    next =>
      obtain ⟨rfl, rfl⟩ := Prod.mk.injEq .. ▸ h
      refine ⟨hself, hext, rfl, rfl, rfl, fun c' hc' => ?_⟩
      obtain rfl := some.inj hc'
      have hmono : c.Sound (s.getOrCreateType etype).2 :=
        (hw.memo c rfl).mono hext (fun _ h => h) rfl
      refine ⟨fun name t ht => ?_, hmono.known, hmono.indexes⟩
      simp only [Table.get_put] at ht
      split at ht
      next heq =>
        obtain rfl := some.inj ht
        exact heq ▸ hself
      next => exact hmono.types name t ht

lemma allocEdgeId_spec (h : w.allocEdgeId = (id, w')) :
    id = w.nextEdge ∧ w'.nodeView = w.nodeView ∧
      w'.edgeView = { w.edgeView with nextEdge := w.nextEdge + 1 } ∧
      w'.tables.base = { w.tables.base with metaDb := { w.tables.base.metaDb with
        nextEdge := w'.tables.metaDb.nextEdge } } ∧ (w.MemoSound → w'.MemoSound) := by
  obtain ⟨s, memo⟩ := w
  cases memo with
  | none =>
    obtain ⟨rfl, rfl⟩ := Prod.mk.injEq .. ▸ h
    exact ⟨rfl, rfl, rfl, rfl, fun _ c hc => by cases hc⟩
  | some c =>
    obtain ⟨rfl, rfl⟩ := Prod.mk.injEq .. ▸ h
    refine ⟨rfl, rfl, rfl, rfl, fun hsound c' hc' => ?_⟩
    obtain rfl := some.inj hc'
    exact ⟨(hsound c rfl).types, (hsound c rfl).known, (hsound c rfl).indexes⟩

/-- The declared indexes of a type are those of the tables, memoized or not. -/
theorem activeEdgeIndexes_spec {active : List (PropKeyId × IndexRole)} (hw : w.MemoSound)
    (h : w.activeEdgeIndexes t = (active, w')) :
    active = w.tables.getActiveEdgeIndexes t ∧ w'.tables = w.tables ∧
      w'.nodeView = w.nodeView ∧ w'.edgeView = w.edgeView ∧ w'.MemoSound := by
  obtain ⟨s, memo⟩ := w
  cases memo with
  | none =>
    obtain ⟨rfl, rfl⟩ := Prod.mk.injEq .. ▸ h
    exact ⟨rfl, rfl, rfl, rfl, fun c hc => by cases hc⟩
  | some c =>
    simp only [activeEdgeIndexes] at h
    split at h
    next active' ha =>
      obtain ⟨rfl, rfl⟩ := Prod.mk.injEq .. ▸ h
      exact ⟨(hw c rfl).indexes t _ ha, rfl, rfl, rfl, hw⟩
    next =>
      obtain ⟨rfl, rfl⟩ := Prod.mk.injEq .. ▸ h
      refine ⟨rfl, rfl, rfl, rfl, fun c' hc' => ?_⟩
      obtain rfl := some.inj hc'
      refine ⟨(hw c rfl).types, (hw c rfl).known, fun t' active ha => ?_⟩
      simp only [Table.get_put] at ha
      split at ha
      next heq =>
        obtain rfl := some.inj ha
        rw [heq]
      next => exact (hw c rfl).indexes t' active ha

lemma nodeView_putEdge (id : EdgeId) (record : EdgeRecord) (w : Working) :
    (w.putEdge id record).nodeView = w.nodeView := rfl

lemma memoSound_bumpTypeCount {w : Working} (h : w.MemoSound) (t : TypeId) (d : ℤ) :
    (w.bumpTypeCount t d).MemoSound := by
  obtain ⟨s, memo⟩ := w
  cases memo with
  | none => exact fun c hc => by cases hc
  | some c =>
    intro c' hc'
    obtain rfl := some.inj hc'
    exact ⟨(h c rfl).types, (h c rfl).known, (h c rfl).indexes⟩

/-- An edge insertion with its count stores one new record between existing nodes, under the next
id, with the type of its name, and keeps the state sound. -/
theorem insertEdge_placed {src dst : NodeId} (hw : w.Sound)
    (h : insertEdge src dst etype props w = (.ok (id, t), w')) :
    ((w'.bumpTypeCount t 1).Sound ∧ (w'.bumpTypeCount t 1).nodeView = w.nodeView ∧
      id = w.nextEdge ∧ (w.tables.nodes.get src).isSome ∧ (w.tables.nodes.get dst).isSome ∧
      (w'.bumpTypeCount t 1).tables.edges = w.tables.edges.put id ⟨src, dst, t, props⟩) ∧
      (w'.bumpTypeCount t 1).nextEdge = w.nextEdge + 1 ∧
      (w'.bumpTypeCount t 1).tables.getType etype = some t := by
  obtain ⟨w₁, w₂, w₃, w₄, w₅, active, s, hsrc, hdst, htype, halloc, hactive, hwrite, rfl⟩ :=
    insertEdge_ok h
  obtain ⟨hsome, -, hn₁, he₁, hm₁⟩ := proveNode_spec hw hsrc
  have hw₁ : w₁.Sound := ⟨hn₁ ▸ hw.nodes, he₁ ▸ hw.edges, hm₁⟩
  obtain ⟨hsome', -, hn₂, he₂, hm₂⟩ := proveNode_spec hw₁ hdst
  have hw₂ : w₂.Sound := ⟨hn₂ ▸ hw₁.nodes, he₂ ▸ hw₁.edges, hm₂⟩
  obtain ⟨hreg, hext, -, hn₃, he₃, hm₃⟩ := resolveType_spec hw₂ htype
  have hedges₃ : w₃.edgeView.Sound := by
    rw [he₃]
    exact hw₂.edges.register hext
  obtain ⟨hid, hn₄, he₄, -, hm₄⟩ := allocEdgeId_spec halloc
  have hedges₄ : w₄.edgeView.Sound := by
    rw [he₄]
    exact hedges₃.alloc
  obtain ⟨-, -, hn₅, he₅, hm₅⟩ := activeEdgeIndexes_spec (hm₄ hm₃) hactive
  have hbase : ({ w₅ with tables := s } : Working).base = w₅.base := by
    have hkeep := Tables.keeps_base_writeEdgeIndexEntries active id t etype props w₅.tables
    rw [hwrite] at hkeep
    simp only [base, hkeep]
  set w₆ : Working := { w₅ with tables := s }
  have he₆ : w₆.edgeView = w₄.edgeView := (edgeView_of_base_eq hbase).trans he₅
  have hn₆ : w₆.nodeView = w.nodeView := by
    rw [nodeView_of_base_eq hbase, hn₅, hn₄, hn₃, hn₂, hn₁]
  have hnext : id = w.nextEdge := by
    have hchain : w₃.edgeView.nextEdge = w.edgeView.nextEdge := by rw [he₃, he₂, he₁]
    exact hid.trans hchain
  have hcount : 0 ≤ (w₆.putEdge id ⟨src, dst, t, props⟩).edgeView.typeCount t + 1 := by
    have hpos : 0 ≤ w₆.edgeView.typeCount t := by
      rw [he₆, hedges₄.count]
      positivity
    exact add_nonneg hpos zero_le_one
  have hview : ((w₆.putEdge id ⟨src, dst, t, props⟩).bumpTypeCount t 1).edgeView =
      w₄.edgeView.insert id ⟨src, dst, t, props⟩ := by
    rw [edgeView_bumpTypeCount hcount, ← he₆]
    rfl
  have hfree : w₄.edgeView.edges.get id = none := by
    rw [he₄, hid]
    exact hedges₃.get_nextEdge
  have hlt : id < w₄.edgeView.nextEdge := by
    rw [he₄, hid]
    exact Nat.lt_succ_self _
  have hname : w₄.edgeView.types.get etype = some t := by
    rw [he₄]
    exact hreg
  have hty : ∃ name, w₄.edgeView.types.get name = some t := ⟨etype, hname⟩
  have hnext' : (w₆.putEdge id ⟨src, dst, t, props⟩ |>.bumpTypeCount t 1).nextEdge =
      w.nextEdge + 1 := by
    have hchain : w₃.edgeView.nextEdge = w.edgeView.nextEdge := by rw [he₃, he₂, he₁]
    have hlast : w₄.edgeView.nextEdge = w₃.edgeView.nextEdge + 1 := congrArg EdgeView.nextEdge he₄
    exact (congrArg EdgeView.nextEdge hview).trans (hlast.trans (congrArg (· + 1) hchain))
  refine ⟨⟨⟨?_, ?_, memoSound_bumpTypeCount ?_ t 1⟩, ?_, hnext, hsome, ?_, ?_⟩, hnext',
    (congrArg (·.types.get etype) hview).trans hname⟩
  · rw [nodeView_bumpTypeCount, nodeView_putEdge, hn₆]
    exact hw.nodes
  · rw [hview]
    exact hedges₄.insert hlt hfree hty
  · have hm₆ := memoSound_of_base_eq hbase hm₅
    exact fun c hc => (hm₆ c hc).mono (.refl _) (fun _ h => h) rfl
  · rw [nodeView_bumpTypeCount, nodeView_putEdge, hn₆]
  · have hnodes : w₁.tables.nodes = w.tables.nodes := congrArg NodeView.nodes hn₁
    rwa [hnodes] at hsome'
  · have hedges : w₄.edgeView.edges = w.tables.edges := by
      rw [he₄, he₃, he₂, he₁]
      rfl
    rw [← hedges]
    exact congrArg EdgeView.edges hview

/-- An edge insertion with its count stores one new record between existing nodes, under the next
id, and keeps the state sound. -/
theorem insertEdge_spec {src dst : NodeId} (hw : w.Sound)
    (h : insertEdge src dst etype props w = (.ok (id, t), w')) :
    (w'.bumpTypeCount t 1).Sound ∧ (w'.bumpTypeCount t 1).nodeView = w.nodeView ∧
      id = w.nextEdge ∧ (w.tables.nodes.get src).isSome ∧ (w.tables.nodes.get dst).isSome ∧
      (w'.bumpTypeCount t 1).tables.edges = w.tables.edges.put id ⟨src, dst, t, props⟩ :=
  (insertEdge_placed hw h).1

lemma updateEdgeImpl_spec (hw : w.Sound) (h : updateEdgeImpl id props w = (.ok (), w')) :
    w'.Sound ∧ w'.nodeView = w.nodeView ∧ ∃ record, w.tables.edges.get id = some record ∧
      w'.tables.edges = w.tables.edges.put id { record with props := props } := by
  obtain ⟨record, etype, s, hget, -, hwrite, rfl⟩ := updateEdgeImpl_ok h
  have hbase : ({ w with tables := s } : Working).base = w.base := by
    have hkeep := Tables.keeps_base_writeEdgeIndexEntries
      ((w.tables.deleteEdgeIndexEntries id record).getActiveEdgeIndexes record.edgeType) id
      record.edgeType etype props (w.tables.deleteEdgeIndexEntries id record)
    rw [hwrite, Tables.base_deleteEdgeIndexEntries] at hkeep
    simp only [base, hkeep]
  have hput : (({ w with tables := s } : Working).putEdge id { record with props := props }).base =
      (w.putEdge id { record with props := props }).base := by
    rw [base_putEdge, hbase, base_putEdge]
  have hsound : (w.putEdge id { record with props := props }).Sound :=
    ⟨hw.nodes, hw.edges.replace hget rfl,
      fun c hc => (hw.memo c hc).mono (.refl _) (fun _ h => h) rfl⟩
  exact ⟨sound_of_base_eq hput hsound, (nodeView_of_base_eq hput).trans rfl, record, hget,
    congrArg EdgeView.edges (edgeView_of_base_eq hput)⟩

lemma dropEdge_spec {record : EdgeRecord} {w : Working} (hw : w.edgeView.Sound)
    (hmemo : w.MemoSound) (hget : w.tables.edges.get id = some record) :
    (w.dropEdge id record.edgeType).nodeView = w.nodeView ∧
      (w.dropEdge id record.edgeType).edgeView = w.edgeView.remove id record.edgeType ∧
      (w.dropEdge id record.edgeType).MemoSound := by
  have hbase : (w.dropEdge id record.edgeType).base = (w.eraseEdge id record.edgeType).base := by
    rw [base_dropEdge, eraseEdge, eraseEdge, base_bumpTypeCount]
    rfl
  set w₁ : Working := { w with tables := { w.tables with edges := w.tables.edges.erase id } }
  have hcount : 0 ≤ w₁.edgeView.typeCount record.edgeType + -1 := by
    have hpos : 1 ≤ w₁.edgeView.typeCount record.edgeType := hw.count_pos hget rfl
    omega
  refine ⟨?_, ?_, ?_⟩
  · rw [nodeView_of_base_eq hbase, eraseEdge, nodeView_bumpTypeCount]
    rfl
  · rw [edgeView_of_base_eq hbase, eraseEdge, edgeView_bumpTypeCount hcount]
    rfl
  · refine memoSound_of_base_eq hbase (memoSound_bumpTypeCount (fun c hc => ?_) _ _)
    exact (hmemo c hc).mono (.refl _) (fun _ h => h) rfl

/-! ## Writing the batched counters -/

/-- Apply changes to a table of counts, clamped at zero. -/
def applyDeltas (deltas : List (ℕ × ℤ)) (counts : Table ℕ ℕ) : Table ℕ ℕ :=
  deltas.foldl (fun counts d =>
    if d.2 = 0 then counts else counts.put d.1 (((counts.get d.1).getD 0 : ℤ) + d.2).toNat) counts

lemma flushLabelDeltas_eq (deltas : List (LabelId × ℤ)) (s : Tables) :
    flushLabelDeltas deltas s =
      { s with metaDb := { s.metaDb with
        statsLabel := applyDeltas deltas s.metaDb.statsLabel } } := by
  induction deltas generalizing s with
  | nil => rfl
  | cons d deltas ih =>
    change flushLabelDeltas deltas (if d.2 = 0 then s else s.adjustLabelCount d.1 d.2) = _
    rw [ih]
    by_cases hd : d.2 = 0 <;> simp [hd, applyDeltas, Tables.adjustLabelCount]

lemma flushTypeDeltas_eq (deltas : List (TypeId × ℤ)) (s : Tables) :
    flushTypeDeltas deltas s =
      { s with metaDb := { s.metaDb with
        statsType := applyDeltas deltas s.metaDb.statsType } } := by
  induction deltas generalizing s with
  | nil => rfl
  | cons d deltas ih =>
    change flushTypeDeltas deltas (if d.2 = 0 then s else s.adjustTypeCount d.1 d.2) = _
    rw [ih]
    by_cases hd : d.2 = 0 <;> simp [hd, applyDeltas, Tables.adjustTypeCount]

/-- A key named once gets its change if the result is not negative; the others keep their
count. -/
theorem applyDeltas_spec {deltas : List (ℕ × ℤ)} {counts : Table ℕ ℕ}
    (hnodup : (deltas.map Prod.fst).Nodup)
    (hpos : ∀ d ∈ deltas, 0 ≤ ((counts.get d.1).getD 0 : ℤ) + d.2) :
    (∀ d ∈ deltas, (((applyDeltas deltas counts).get d.1).getD 0 : ℤ) =
      (counts.get d.1).getD 0 + d.2) ∧
      ∀ k ∉ deltas.map Prod.fst, (applyDeltas deltas counts).get k = counts.get k := by
  induction deltas generalizing counts with
  | nil => exact ⟨by simp, fun _ _ => rfl⟩
  | cons d deltas ih =>
    obtain ⟨hnotin, hnodup'⟩ := nodup_cons.mp hnodup
    have hd := hpos d mem_cons_self
    set counts₁ := if d.2 = 0 then counts else
      counts.put d.1 (((counts.get d.1).getD 0 : ℤ) + d.2).toNat with hcounts₁
    have hself : ((counts₁.get d.1).getD 0 : ℤ) = (counts.get d.1).getD 0 + d.2 := by
      by_cases hz : d.2 = 0
      · simp [hcounts₁, hz]
      · simpa [hcounts₁, hz] using hd
    have hother : ∀ k, k ≠ d.1 → counts₁.get k = counts.get k := by
      intro k hk
      by_cases hz : d.2 = 0 <;> simp [hcounts₁, hz, hk]
    have hne : ∀ d' ∈ deltas, d'.1 ≠ d.1 := fun d' hd' heq =>
      hnotin (heq ▸ List.mem_map_of_mem hd')
    have hpos₁ : ∀ d' ∈ deltas, 0 ≤ ((counts₁.get d'.1).getD 0 : ℤ) + d'.2 := by
      intro d' hd'
      rw [hother _ (hne d' hd')]
      exact hpos d' (mem_cons_of_mem _ hd')
    obtain ⟨h1, h2⟩ := ih hnodup' hpos₁
    constructor
    · intro d' hd'
      change (((applyDeltas deltas counts₁).get d'.1).getD 0 : ℤ) = _
      rcases mem_cons.mp hd' with rfl | hd'
      · rw [h2 _ hnotin, hself]
      · rw [h1 d' hd', hother _ (hne d' hd')]
    · intro k hk
      simp only [map_cons, mem_cons, not_or] at hk
      exact (h2 k hk.2).trans (hother k hk.1)

/-- Applying a table of changes adds each of them, if no result is negative. -/
theorem getD_applyDeltas (deltas : Table ℕ ℤ) (counts : Table ℕ ℕ)
    (hpos : ∀ k, 0 ≤ ((counts.get k).getD 0 : ℤ) + (deltas.get k).getD 0) (k : ℕ) :
    (((applyDeltas deltas.toList counts).get k).getD 0 : ℤ) =
      (counts.get k).getD 0 + (deltas.get k).getD 0 := by
  have hnodup : (deltas.toList.map Prod.fst).Nodup := by
    rw [Table.map_fst_toList]
    exact Finset.ascending_nodup _
  have hpos' : ∀ d ∈ deltas.toList, 0 ≤ ((counts.get d.1).getD 0 : ℤ) + d.2 := by
    intro d hd
    have := hpos d.1
    rwa [Table.mem_toList.mp hd, getD_some] at this
  obtain ⟨h1, h2⟩ := applyDeltas_spec hnodup hpos'
  rcases hget : deltas.get k with _ | v
  · rw [h2 k]
    · simp
    · rw [Table.map_fst_toList, Finset.mem_ascending, Table.mem_keys, hget]
      simp
  · exact h1 (k, v) (Table.mem_toList.mpr hget)

/-- Once the batched ids and counts are written, the tables alone have the views of the working
state. -/
theorem flushCounters_spec {w : Working} (hw : w.Sound) :
    nodeView ⟨w.flushCounters.tables, none⟩ = w.nodeView ∧
      edgeView ⟨w.flushCounters.tables, none⟩ = w.edgeView := by
  obtain ⟨s, memo⟩ := w
  cases memo with
  | none => exact ⟨rfl, rfl⟩
  | some c =>
    have hlabels := getD_applyDeltas c.labelDeltas s.metaDb.statsLabel
      fun l => by
        have hcount := hw.nodes.count l
        simp only [nodeView, Tables.getLabelCount, labelCountDelta, bind_some] at hcount
        omega
    have htypes := getD_applyDeltas c.typeDeltas s.metaDb.statsType
      fun t => by
        have hcount := hw.edges.count t
        simp only [edgeView, Tables.getTypeCount, typeCountDelta, bind_some] at hcount
        omega
    simp only [flushCounters, flushLabelDeltas_eq, flushTypeDeltas_eq]
    constructor
    · ext l <;> simp [nodeView, nextNode, Tables.getLabelCount, labelCountDelta, hlabels]
    · ext t <;> simp [edgeView, nextEdge, Tables.getTypeCount, typeCountDelta, htypes]

end Working

end IssunDB
