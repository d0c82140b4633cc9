import IssunDB.Frames

/-!
# The node side and the edge side of a transaction

Two abstract views of a working state, in which it does not matter whether counts and next ids
are batched in the memo or stored.

* `NodeView` — node records, label registry, label index and label counts;
* `EdgeView` — edge records, type registry and type counts.

`NodeView.Sound` and `EdgeView.Sound` are what the write path maintains about them: ids are below
the next id, labels and types are registered, the label index lists exactly the labels of the
records, and the counts are exact. The lemmas on the abstract operations (`link`, `unlink`,
`insert`, `remove`) say what they preserve; the lemmas `Working.nodeView_*` and
`Working.edgeView_*` say which abstract operation each step of the code is.
-/

namespace IssunDB

open List Option

/-- The node side of a working state. -/
@[ext]
structure NodeView where
  nodes : Table NodeId NodeRecord
  nextNode : NodeId
  labels : Registry
  labelIdx : Finset (LabelId × NodeId)
  labelCount : LabelId → ℤ

/-- The edge side of a working state. -/
@[ext]
structure EdgeView where
  edges : Table EdgeId EdgeRecord
  nextEdge : EdgeId
  types : Registry
  typeCount : TypeId → ℤ

namespace NodeView

def Carries (v : NodeView) (n : NodeId) (l : LabelId) : Prop :=
  ∃ r, v.nodes.get n = some r ∧ l ∈ r.labels

/-- Node ids are allocated, labels registered, the label index is exact and so are the counts. -/
structure Sound (v : NodeView) : Prop where
  node_lt : ∀ n r, v.nodes.get n = some r → n < v.nextNode
  registered : ∀ n l, v.Carries n l → ∃ name, v.labels.get name = some l
  labelIdx_iff : ∀ l n, (l, n) ∈ v.labelIdx ↔ v.Carries n l
  count : ∀ l, v.labelCount l = (v.labelIdx.under l).card

/-- Enter a node under a label. -/
def link (l : LabelId) (n : NodeId) (v : NodeView) : NodeView :=
  { v with
    labelIdx := insert (l, n) v.labelIdx
    labelCount := Function.update v.labelCount l (v.labelCount l + 1) }

/-- Remove a node from a label. -/
def unlink (l : LabelId) (n : NodeId) (v : NodeView) : NodeView :=
  { v with
    labelIdx := v.labelIdx.erase (l, n)
    labelCount := Function.update v.labelCount l (v.labelCount l - 1) }

/-- The counts are those of the label index. -/
def CountExact (v : NodeView) : Prop := ∀ l, v.labelCount l = (v.labelIdx.under l).card

variable {v : NodeView} {n : NodeId}

lemma CountExact.link (h : v.CountExact) {l : LabelId} (hn : (l, n) ∉ v.labelIdx) :
    (v.link l n).CountExact := by
  intro l'
  by_cases hl : l' = l
  · subst hl
    simp [NodeView.link, Finset.under_insert_self, Finset.card_insert_of_notMem, hn, h l']
  · simp [NodeView.link, Finset.under_insert_of_ne _ _ _ hl, hl, h l']

lemma CountExact.unlink (h : v.CountExact) {l : LabelId} (hn : (l, n) ∈ v.labelIdx) :
    (v.unlink l n).CountExact := by
  intro l'
  by_cases hl : l' = l
  · subst hl
    have hmem : n ∈ v.labelIdx.under l' := by simpa using hn
    have hpos : 0 < (v.labelIdx.under l').card := Finset.card_pos.mpr ⟨n, hmem⟩
    simp only [NodeView.unlink, Finset.under_erase_self, Function.update_self, h l',
      Finset.card_erase_of_mem hmem]
    omega
  · simp [NodeView.unlink, Finset.under_erase_of_ne _ _ _ hl, hl, h l']

/-- Enter a node under several labels. -/
def linkAll (n : NodeId) (labels : List LabelId) (v : NodeView) : NodeView :=
  labels.foldl (fun v l => v.link l n) v

/-- Remove a node from several labels. -/
def unlinkAll (n : NodeId) (labels : List LabelId) (v : NodeView) : NodeView :=
  labels.foldl (fun v l => v.unlink l n) v

/-- Linking keeps the records and exact counts, and lists the node under the new labels. -/
theorem linkAll_spec {labels : List LabelId} (hnodup : labels.Nodup)
    (hfresh : ∀ l ∈ labels, (l, n) ∉ v.labelIdx) (hcount : v.CountExact) :
    (v.linkAll n labels).nodes = v.nodes ∧ (v.linkAll n labels).nextNode = v.nextNode ∧
      (v.linkAll n labels).labels = v.labels ∧ (v.linkAll n labels).CountExact ∧
      ∀ l m, (l, m) ∈ (v.linkAll n labels).labelIdx ↔
        (l, m) ∈ v.labelIdx ∨ (m = n ∧ l ∈ labels) := by
  induction labels generalizing v with
  | nil => exact ⟨rfl, rfl, rfl, hcount, fun l m => by simp [linkAll]⟩
  | cons l labels ih =>
    obtain ⟨hl, hrest⟩ := nodup_cons.mp hnodup
    have hfresh' : ∀ l' ∈ labels, (l', n) ∉ (v.link l n).labelIdx := by
      intro l' hl'
      have hne : l' ≠ l := fun h => hl (h ▸ hl')
      simpa [link, hne] using hfresh l' (mem_cons_of_mem _ hl')
    obtain ⟨h1, h2, h3, h4, h5⟩ := ih hrest hfresh' (hcount.link (hfresh l (by simp)))
    refine ⟨h1, h2, h3, h4, fun l' m => (h5 l' m).trans ?_⟩
    simp only [link, Finset.mem_insert, Prod.mk.injEq, mem_cons]
    tauto

/-- Unlinking keeps the records and exact counts, and drops the node from the labels. -/
theorem unlinkAll_spec {labels : List LabelId} (hnodup : labels.Nodup)
    (hmem : ∀ l ∈ labels, (l, n) ∈ v.labelIdx) (hcount : v.CountExact) :
    (v.unlinkAll n labels).nodes = v.nodes ∧ (v.unlinkAll n labels).nextNode = v.nextNode ∧
      (v.unlinkAll n labels).labels = v.labels ∧ (v.unlinkAll n labels).CountExact ∧
      ∀ l m, (l, m) ∈ (v.unlinkAll n labels).labelIdx ↔
        (l, m) ∈ v.labelIdx ∧ ¬(m = n ∧ l ∈ labels) := by
  induction labels generalizing v with
  | nil => exact ⟨rfl, rfl, rfl, hcount, fun l m => by simp [unlinkAll]⟩
  | cons l labels ih =>
    obtain ⟨hl, hrest⟩ := nodup_cons.mp hnodup
    have hmem' : ∀ l' ∈ labels, (l', n) ∈ (v.unlink l n).labelIdx := by
      intro l' hl'
      have hne : l' ≠ l := fun h => hl (h ▸ hl')
      simpa [unlink, hne] using hmem l' (mem_cons_of_mem _ hl')
    obtain ⟨h1, h2, h3, h4, h5⟩ := ih hrest hmem' (hcount.unlink (hmem l (by simp)))
    refine ⟨h1, h2, h3, h4, fun l' m => (h5 l' m).trans ?_⟩
    simp only [unlink, Finset.mem_erase, ne_eq, Prod.mk.injEq, mem_cons]
    tauto

namespace Sound

variable {v : NodeView}

lemma register (h : v.Sound) {r : Registry} (hr : v.labels.Extends r) :
    ({ v with labels := r } : NodeView).Sound where
  node_lt := h.node_lt
  registered n l hc := by
    obtain ⟨name, hname⟩ := h.registered n l hc
    exact ⟨name, hr name l hname⟩
  labelIdx_iff := h.labelIdx_iff
  count := h.count

/-- A new node under registered labels keeps the view sound. -/
theorem create (h : v.Sound) {r : NodeRecord}
    (hreg : ∀ l ∈ r.labels, ∃ name, v.labels.get name = some l) :
    (linkAll v.nextNode r.labels
      { v with nodes := v.nodes.put v.nextNode r, nextNode := v.nextNode + 1 }).Sound := by
  have hnew : v.nodes.get v.nextNode = none := by
    cases hget : v.nodes.get v.nextNode with
    | none => rfl
    | some r' => exact absurd (h.node_lt _ _ hget) (lt_irrefl _)
  have hfresh : ∀ l, (l, v.nextNode) ∉ v.labelIdx := by
    intro l hl
    obtain ⟨r', hget, -⟩ := (h.labelIdx_iff l v.nextNode).mp hl
    rw [hnew] at hget
    cases hget
  obtain ⟨hnodes, hnext, hlabels, hcount, hidx⟩ := linkAll_spec (n := v.nextNode)
    (v := { v with nodes := v.nodes.put v.nextNode r, nextNode := v.nextNode + 1 })
    r.nodup (fun l _ => hfresh l) h.count
  have hcarries : ∀ n l, (linkAll v.nextNode r.labels
      { v with nodes := v.nodes.put v.nextNode r, nextNode := v.nextNode + 1 }).Carries n l ↔
        v.Carries n l ∨ (n = v.nextNode ∧ l ∈ r.labels) := by
    intro n l
    simp only [Carries, hnodes, Table.get_put]
    by_cases hn : n = v.nextNode
    · subst hn
      simp [hnew]
    · simp [hn]
  refine ⟨fun n r' hget => ?_, fun n l hc => ?_, fun l n => ?_, hcount⟩
  · rw [hnodes, Table.get_put] at hget
    rw [hnext]
    split at hget
    next heq => exact heq ▸ Nat.lt_succ_self _
    next => exact (h.node_lt n r' hget).trans (Nat.lt_succ_self _)
  · rw [hlabels]
    rcases (hcarries n l).mp hc with hc | ⟨-, hl⟩
    · exact h.registered n l hc
    · exact hreg l hl
  · rw [hidx, hcarries, h.labelIdx_iff]

variable {n : NodeId} {l : LabelId} {r r' : NodeRecord}

lemma count_pos (h : v.Sound) {r : NodeRecord} (hget : v.nodes.get n = some r) (hl : l ∈ r.labels) :
    1 ≤ v.labelCount l := by
  have hcard : 0 < (v.labelIdx.under l).card :=
    Finset.card_pos.mpr ⟨n, Finset.mem_under.mpr ((h.labelIdx_iff l n).mpr ⟨r, hget, hl⟩)⟩
  have hcount := h.count l
  omega

lemma replace (h : v.Sound) (hget : v.nodes.get n = some r) (hlabels : r'.labels = r.labels) :
    ({ v with nodes := v.nodes.put n r' } : NodeView).Sound := by
  have hcarries : ∀ m l, ({ v with nodes := v.nodes.put n r' } : NodeView).Carries m l ↔
      v.Carries m l := by
    intro m l
    simp only [Carries, Table.get_put]
    by_cases hm : m = n
    · subst hm
      simp [hget, hlabels]
    · simp [hm]
  refine ⟨fun m r'' hget' => ?_, fun m l hc => h.registered m l ((hcarries m l).mp hc),
    fun l m => (h.labelIdx_iff l m).trans (hcarries m l).symm, h.count⟩
  simp only [Table.get_put] at hget'
  split at hget'
  next heq => exact heq ▸ h.node_lt n r hget
  next => exact h.node_lt m r'' hget'

lemma addLabel (h : v.Sound) (hget : v.nodes.get n = some r) (hl : l ∉ r.labels)
    (hlabels : r'.labels = r.labels ++ [l]) (hreg : ∃ name, v.labels.get name = some l) :
    (link l n { v with nodes := v.nodes.put n r' }).Sound := by
  have hfresh : (l, n) ∉ v.labelIdx := by
    intro hmem
    obtain ⟨r'', hget', hl'⟩ := (h.labelIdx_iff l n).mp hmem
    rw [hget] at hget'
    exact hl (some.inj hget' ▸ hl')
  have hcarries : ∀ m l', (link l n { v with nodes := v.nodes.put n r' }).Carries m l' ↔
      v.Carries m l' ∨ (m = n ∧ l' = l) := by
    intro m l'
    simp only [Carries, link, Table.get_put]
    by_cases hm : m = n
    · subst hm
      simp [hget, hlabels]
    · simp [hm]
  refine ⟨fun m r'' hget' => ?_, fun m l' hc => ?_, fun l' m => ?_,
    CountExact.link (v := { v with nodes := v.nodes.put n r' }) h.count hfresh⟩
  · simp only [link, Table.get_put] at hget'
    split at hget'
    next heq => exact heq ▸ h.node_lt n r hget
    next => exact h.node_lt m r'' hget'
  · rcases (hcarries m l').mp hc with hc | ⟨-, rfl⟩
    · exact h.registered m l' hc
    · exact hreg
  · rw [hcarries, ← h.labelIdx_iff]
    simp only [link, Finset.mem_insert, Prod.mk.injEq]
    tauto

lemma removeLabel (h : v.Sound) (hget : v.nodes.get n = some r) (hl : l ∈ r.labels)
    (hlabels : r'.labels = r.labels.erase l) :
    (unlink l n { v with nodes := v.nodes.put n r' }).Sound := by
  have hmem : (l, n) ∈ v.labelIdx := (h.labelIdx_iff l n).mpr ⟨r, hget, hl⟩
  have hcarries : ∀ m l', (unlink l n { v with nodes := v.nodes.put n r' }).Carries m l' ↔
      v.Carries m l' ∧ ¬(m = n ∧ l' = l) := by
    intro m l'
    simp only [Carries, unlink, Table.get_put]
    by_cases hm : m = n
    · subst hm
      simp [hget, hlabels, r.nodup.mem_erase_iff, and_comm]
    · simp [hm]
  refine ⟨fun m r'' hget' => ?_, fun m l' hc => h.registered m l' ((hcarries m l').mp hc).1,
    fun l' m => ?_,
    CountExact.unlink (v := { v with nodes := v.nodes.put n r' }) h.count hmem⟩
  · simp only [unlink, Table.get_put] at hget'
    split at hget'
    next heq => exact heq ▸ h.node_lt n r hget
    next => exact h.node_lt m r'' hget'
  · rw [hcarries, ← h.labelIdx_iff]
    simp only [unlink, Finset.mem_erase, ne_eq, Prod.mk.injEq]
    tauto

lemma delete (h : v.Sound) {r : NodeRecord} (hget : v.nodes.get n = some r) :
    ({ v.unlinkAll n r.labels with nodes := v.nodes.erase n } : NodeView).Sound := by
  have hmem : ∀ l ∈ r.labels, (l, n) ∈ v.labelIdx := fun l hl =>
    (h.labelIdx_iff l n).mpr ⟨r, hget, hl⟩
  obtain ⟨-, hnext, hlabels, hcount, hidx⟩ := unlinkAll_spec r.nodup hmem h.count
  have hcarries : ∀ m l, ({ v.unlinkAll n r.labels with nodes := v.nodes.erase n } :
      NodeView).Carries m l ↔ v.Carries m l ∧ ¬(m = n ∧ l ∈ r.labels) := by
    intro m l
    simp only [Carries, Table.get_erase]
    by_cases hm : m = n
    · subst hm
      simp [hget]
    · simp [hm]
  refine ⟨fun m r' hget' => ?_, fun m l hc => ?_, fun l m => ?_, hcount⟩
  · simp only [Table.get_erase] at hget'
    split at hget'
    · cases hget'
    · exact hnext ▸ h.node_lt m r' hget'
  · exact hlabels ▸ h.registered m l ((hcarries m l).mp hc).1
  · rw [hcarries, ← h.labelIdx_iff]
    exact hidx l m

end Sound

end NodeView

namespace EdgeView

def ofType (v : EdgeView) (t : TypeId) : Finset EdgeId :=
  v.edges.keys.filter fun id => (v.edges.get id).map EdgeRecord.edgeType = some t

variable {v : EdgeView} {id : EdgeId} {r : EdgeRecord}

lemma mem_ofType {t : TypeId} :
    id ∈ v.ofType t ↔ ∃ r, v.edges.get id = some r ∧ r.edgeType = t := by
  simp only [ofType, Finset.mem_filter, Table.mem_keys, map_eq_some_iff,
    isSome_iff_exists]
  constructor
  · exact fun h => h.2
  · rintro ⟨r, hr, ht⟩
    exact ⟨⟨r, hr⟩, r, hr, ht⟩

/-- Edge ids are allocated, types registered and the counts exact. -/
structure Sound (v : EdgeView) : Prop where
  edge_lt : ∀ id r, v.edges.get id = some r → id < v.nextEdge
  registered : ∀ id r, v.edges.get id = some r → ∃ name, v.types.get name = some r.edgeType
  count : ∀ t, v.typeCount t = (v.ofType t).card

/-- Store a new edge and count it. -/
def insert (id : EdgeId) (r : EdgeRecord) (v : EdgeView) : EdgeView :=
  { v with
    edges := v.edges.put id r
    typeCount := Function.update v.typeCount r.edgeType (v.typeCount r.edgeType + 1) }

/-- Remove an edge from the records and from the count of a type. -/
def remove (id : EdgeId) (t : TypeId) (v : EdgeView) : EdgeView :=
  { v with
    edges := v.edges.erase id
    typeCount := Function.update v.typeCount t (v.typeCount t - 1) }

/-- A new edge with an allocated id and a registered type keeps the view sound. -/
theorem Sound.insert (h : v.Sound) (hid : id < v.nextEdge) (hnew : v.edges.get id = none)
    (hty : ∃ name, v.types.get name = some r.edgeType) : (v.insert id r).Sound where
  edge_lt id' r' hget := by
    simp only [EdgeView.insert, Table.get_put] at hget
    split at hget
    next heq => exact heq ▸ hid
    next => exact h.edge_lt id' r' hget
  registered id' r' hget := by
    simp only [EdgeView.insert, Table.get_put] at hget
    split at hget
    next => exact some.inj hget ▸ hty
    next => exact h.registered id' r' hget
  count t := by
    by_cases ht : t = r.edgeType
    · subst ht
      have hset : (v.insert id r).ofType r.edgeType = Insert.insert id (v.ofType r.edgeType) := by
        ext id'
        simp only [mem_ofType, Finset.mem_insert, EdgeView.insert, Table.get_put]
        by_cases heq : id' = id <;> simp [heq]
      have hnot : id ∉ v.ofType r.edgeType := by
        simp [mem_ofType, hnew]
      rw [hset, Finset.card_insert_of_notMem hnot]
      simp [EdgeView.insert, h.count]
    · have hset : (v.insert id r).ofType t = v.ofType t := by
        ext id'
        simp only [mem_ofType, EdgeView.insert, Table.get_put]
        by_cases heq : id' = id
        · subst heq
          simp [hnew, Ne.symm ht]
        · simp [heq]
      rw [hset]
      simp [EdgeView.insert, ht, h.count]

lemma Sound.register (h : v.Sound) {r : Registry} (hr : v.types.Extends r) :
    ({ v with types := r } : EdgeView).Sound where
  edge_lt := h.edge_lt
  registered id r' hget := by
    obtain ⟨name, hname⟩ := h.registered id r' hget
    exact ⟨name, hr name _ hname⟩
  count := h.count

lemma Sound.alloc (h : v.Sound) :
    ({ v with nextEdge := v.nextEdge + 1 } : EdgeView).Sound where
  edge_lt id r hget := (h.edge_lt id r hget).trans (Nat.lt_succ_self _)
  registered := h.registered
  count := h.count

lemma Sound.get_nextEdge (h : v.Sound) : v.edges.get v.nextEdge = none := by
  cases hget : v.edges.get v.nextEdge with
  | none => rfl
  | some r => exact absurd (h.edge_lt _ _ hget) (lt_irrefl _)

lemma Sound.count_pos (h : v.Sound) {t : TypeId} (hget : v.edges.get id = some r)
    (hty : r.edgeType = t) : 1 ≤ v.typeCount t := by
  have hcard : 0 < (v.ofType t).card := Finset.card_pos.mpr ⟨id, mem_ofType.mpr ⟨r, hget, hty⟩⟩
  have hcount := h.count t
  omega

lemma Sound.remove (h : v.Sound) (hget : v.edges.get id = some r) :
    (v.remove id r.edgeType).Sound where
  edge_lt id' r' hget' := by
    simp only [EdgeView.remove, Table.get_erase] at hget'
    split at hget'
    · cases hget'
    · exact h.edge_lt id' r' hget'
  registered id' r' hget' := by
    simp only [EdgeView.remove, Table.get_erase] at hget'
    split at hget'
    · cases hget'
    · exact h.registered id' r' hget'
  count t := by
    by_cases ht : t = r.edgeType
    · subst ht
      have hset : (v.remove id r.edgeType).ofType r.edgeType = (v.ofType r.edgeType).erase id := by
        ext id'
        simp only [mem_ofType, Finset.mem_erase, EdgeView.remove, Table.get_erase]
        by_cases heq : id' = id <;> simp [heq]
      have hmem : id ∈ v.ofType r.edgeType := mem_ofType.mpr ⟨r, hget, rfl⟩
      have hpos : 0 < (v.ofType r.edgeType).card := Finset.card_pos.mpr ⟨id, hmem⟩
      rw [hset, Finset.card_erase_of_mem hmem]
      simp only [EdgeView.remove, Function.update_self, h.count]
      omega
    · have hset : (v.remove id r.edgeType).ofType t = v.ofType t := by
        ext id'
        simp only [mem_ofType, EdgeView.remove, Table.get_erase]
        by_cases heq : id' = id
        · subst heq
          simp [hget, Ne.symm ht]
        · simp [heq]
      rw [hset]
      simp [EdgeView.remove, ht, h.count]

lemma Sound.replace (h : v.Sound) {r r' : EdgeRecord} (hget : v.edges.get id = some r)
    (hty : r'.edgeType = r.edgeType) :
    ({ v with edges := v.edges.put id r' } : EdgeView).Sound where
  edge_lt id' r'' hget' := by
    simp only [Table.get_put] at hget'
    split at hget'
    next heq => exact heq ▸ h.edge_lt id r hget
    next => exact h.edge_lt id' r'' hget'
  registered id' r'' hget' := by
    simp only [Table.get_put] at hget'
    split at hget'
    next => exact some.inj hget' ▸ hty ▸ h.registered id r hget
    next => exact h.registered id' r'' hget'
  count t := by
    have hset : ({ v with edges := v.edges.put id r' } : EdgeView).ofType t = v.ofType t := by
      ext id'
      simp only [mem_ofType, Table.get_put]
      by_cases heq : id' = id
      · subst heq
        simp [hget, hty]
      · simp [heq]
    rw [hset]
    exact h.count t

end EdgeView

/-! ## The views of a working state -/

namespace Working

def nextNode (w : Working) : NodeId :=
  (w.memo.bind BatchMemo.nextNode).getD w.tables.metaDb.nextNode

def nextEdge (w : Working) : EdgeId :=
  (w.memo.bind BatchMemo.nextEdge).getD w.tables.metaDb.nextEdge

/-- The node side of a working state. -/
def nodeView (w : Working) : NodeView where
  nodes := w.tables.nodes
  nextNode := w.nextNode
  labels := w.tables.metaDb.labels
  labelIdx := w.tables.labelIdx
  labelCount l := w.tables.getLabelCount l + w.labelCountDelta l

/-- The edge side of a working state. -/
def edgeView (w : Working) : EdgeView where
  edges := w.tables.edges
  nextEdge := w.nextEdge
  types := w.tables.metaDb.types
  typeCount t := w.tables.getTypeCount t + w.typeCountDelta t

lemma nodeView_base (w : Working) : w.base.nodeView = w.nodeView := rfl

lemma edgeView_base (w : Working) : w.base.edgeView = w.edgeView := rfl

lemma nodeView_bumpLabelCount {l : LabelId} {d : ℤ} {w : Working}
    (h : 0 ≤ w.nodeView.labelCount l + d) :
    (w.bumpLabelCount l d).nodeView =
      { w.nodeView with
        labelCount := Function.update w.nodeView.labelCount l (w.nodeView.labelCount l + d) } := by
  obtain ⟨s, memo⟩ := w
  cases memo with
  | none =>
    have hpos : 0 ≤ ((s.metaDb.statsLabel.get l).getD 0 : ℤ) + d := by
      simpa [nodeView, labelCountDelta, Tables.getLabelCount] using h
    ext l'
    all_goals try rfl
    by_cases hl : l' = l
    · subst hl
      simpa [nodeView, bumpLabelCount, labelCountDelta, Tables.getLabelCount,
        Tables.adjustLabelCount] using hpos
    · simp [nodeView, bumpLabelCount, labelCountDelta, Tables.getLabelCount,
        Tables.adjustLabelCount, hl]
  | some c =>
    ext l'
    all_goals try rfl
    by_cases hl : l' = l
    · subst hl
      simp [nodeView, bumpLabelCount, labelCountDelta, Tables.getLabelCount, bumpDelta]
      ring
    · simp [nodeView, bumpLabelCount, labelCountDelta, Tables.getLabelCount, bumpDelta, hl]

lemma edgeView_bumpTypeCount {t : TypeId} {d : ℤ} {w : Working}
    (h : 0 ≤ w.edgeView.typeCount t + d) :
    (w.bumpTypeCount t d).edgeView =
      { w.edgeView with
        typeCount := Function.update w.edgeView.typeCount t (w.edgeView.typeCount t + d) } := by
  obtain ⟨s, memo⟩ := w
  cases memo with
  | none =>
    have hpos : 0 ≤ ((s.metaDb.statsType.get t).getD 0 : ℤ) + d := by
      simpa [edgeView, typeCountDelta, Tables.getTypeCount] using h
    ext t'
    all_goals try rfl
    by_cases ht : t' = t
    · subst ht
      simpa [edgeView, bumpTypeCount, typeCountDelta, Tables.getTypeCount,
        Tables.adjustTypeCount] using hpos
    · simp [edgeView, bumpTypeCount, typeCountDelta, Tables.getTypeCount,
        Tables.adjustTypeCount, ht]
  | some c =>
    ext t'
    all_goals try rfl
    by_cases ht : t' = t
    · subst ht
      simp [edgeView, bumpTypeCount, typeCountDelta, Tables.getTypeCount, bumpDelta]
      ring
    · simp [edgeView, bumpTypeCount, typeCountDelta, Tables.getTypeCount, bumpDelta, ht]

@[simp]
lemma nodeView_bumpTypeCount (t : TypeId) (d : ℤ) (w : Working) :
    (w.bumpTypeCount t d).nodeView = w.nodeView := by
  obtain ⟨s, memo⟩ := w
  cases memo <;> rfl

@[simp]
lemma edgeView_bumpLabelCount (l : LabelId) (d : ℤ) (w : Working) :
    (w.bumpLabelCount l d).edgeView = w.edgeView := by
  obtain ⟨s, memo⟩ := w
  cases memo <;> rfl

end Working

end IssunDB
