import IssunDB.Adjacency

/-!
# Exact counters

The node count of a label and the edge count of a type are maintained by steps of one, directly
on the stored value or batched until the commit. They are exact in every committed database, and
in every open transaction none of whose mutations has failed (`Graph.counts_exact`).

After a mutation that failed half-way they need not be: an insertion under several labels stores
the record first and counts the node label by label, so a constraint violation leaves labels on
the record that are not counted (`Graph.count_after_failed_insert`). Such a transaction cannot
commit.
-/

namespace IssunDB

open List Option

namespace Tables

/-- The nodes that carry a label. -/
def carriers (s : Tables) (label : String) : Finset NodeId :=
  s.nodes.keys.filter fun n => ∃ l ∈ s.getLabel label, ∃ r ∈ s.nodes.get n, l ∈ r.labels

def edgesOfType (s : Tables) (etype : String) : Finset EdgeId :=
  s.edges.keys.filter fun id => ∃ t ∈ s.getType etype, ∃ r ∈ s.edges.get id, r.edgeType = t

end Tables

namespace Working

/-- The counts of a working state are those of its records, its scans agree with them, and no
pending change makes a count negative. -/
structure CountsExact (w : Working) : Prop where
  label : ∀ label, w.nodeCountByLabel label = (w.tables.carriers label).card
  nodes : ∀ label, (w.tables.nodesByLabel label).length = (w.tables.carriers label).card
  type : ∀ etype, w.edgeCountByType etype = (w.tables.edgesOfType etype).card
  edges : ∀ etype, (w.tables.edgesByType etype).length = (w.tables.edgesOfType etype).card
  label_nonneg : ∀ l, 0 ≤ (w.tables.getLabelCount l : ℤ) + w.labelCountDelta l
  type_nonneg : ∀ t, 0 ≤ (w.tables.getTypeCount t : ℤ) + w.typeCountDelta t

variable {w : Working} {etype : String}

lemma carriers_eq (hw : w.nodeView.Sound) {label : String} {l : LabelId}
    (hl : w.tables.getLabel label = some l) :
    w.tables.carriers label = w.tables.labelIdx.under l := by
  ext n
  have hidx := hw.labelIdx_iff l n
  simp only [NodeView.Carries] at hidx
  simp only [Tables.carriers, Finset.mem_filter, Table.mem_keys, hl, mem_some_iff,
    exists_eq_left', Finset.mem_under]
  rw [show (l, n) ∈ w.tables.labelIdx ↔ _ from hidx]
  constructor
  · rintro ⟨-, r, hget, hmem⟩
    exact ⟨r, hget, hmem⟩
  · rintro ⟨r, hget, hmem⟩
    exact ⟨isSome_iff_exists.mpr ⟨r, hget⟩, r, hget, hmem⟩

lemma carriers_eq_empty {label : String} (hl : w.tables.getLabel label = none) :
    w.tables.carriers label = ∅ := by
  simp [Tables.carriers, hl]

lemma edgesOfType_eq {t : TypeId} (ht : w.tables.getType etype = some t) :
    w.tables.edgesOfType etype = w.edgeView.ofType t := by
  ext id
  rw [EdgeView.mem_ofType]
  simp only [Tables.edgesOfType, Finset.mem_filter, Table.mem_keys, ht, mem_some_iff,
    exists_eq_left']
  constructor
  · rintro ⟨-, r, hget, hr⟩
    exact ⟨r, hget, hr⟩
  · rintro ⟨r, hget, hr⟩
    exact ⟨isSome_iff_exists.mpr ⟨r, hget⟩, r, hget, hr⟩

lemma edgesOfType_eq_empty (ht : w.tables.getType etype = none) :
    w.tables.edgesOfType etype = ∅ := by
  simp [Tables.edgesOfType, ht]

lemma length_edgesByType {t : TypeId} (ht : w.tables.getType etype = some t) :
    (w.tables.edgesByType etype).length = (w.edgeView.ofType t).card := by
  have hnodup : (w.tables.edgesByType etype).Nodup := by
    simp only [Tables.edgesByType, ht]
    have hsub : ((w.tables.edges.toList.filter fun e => e.2.edgeType = t).map Prod.fst).Sublist
        (w.tables.edges.toList.map Prod.fst) := filter_sublist.map _
    rw [Table.map_fst_toList] at hsub
    exact hsub.nodup (Finset.ascending_nodup _)
  have hset : (w.tables.edgesByType etype).toFinset = w.edgeView.ofType t := by
    ext id
    rw [EdgeView.mem_ofType]
    simp only [Tables.edgesByType, ht, List.mem_toFinset, List.mem_map, mem_filter,
      decide_eq_true_eq]
    constructor
    · rintro ⟨⟨id', r⟩, ⟨hmem, hr⟩, rfl⟩
      exact ⟨r, Table.mem_toList.mp hmem, hr⟩
    · rintro ⟨r, hget, hr⟩
      exact ⟨(id, r), ⟨Table.mem_toList.mpr hget, hr⟩, rfl⟩
  rw [← hset, toFinset_card_of_nodup hnodup]

lemma Sound.countsExact (hw : w.Sound) : w.CountsExact where
  label label := by
    rcases hl : w.tables.getLabel label with _ | l
    · simp [nodeCountByLabel, Tables.nodeCountByLabel, carriers_eq_empty hl, hl]
    · have hcount := hw.nodes.count l
      simp only [nodeView] at hcount
      simp only [nodeCountByLabel, Tables.nodeCountByLabel, hl, hcount, carriers_eq hw.nodes hl]
      simp
  nodes label := by
    rcases hl : w.tables.getLabel label with _ | l
    · simp [Tables.nodesByLabel, carriers_eq_empty hl, hl]
    · rw [carriers_eq hw.nodes hl]
      simp [Tables.nodesByLabel, hl]
  type etype := by
    rcases ht : w.tables.getType etype with _ | t
    · simp [edgeCountByType, Tables.edgeCountByType, edgesOfType_eq_empty ht, ht]
    · have hcount := hw.edges.count t
      rw [edgesOfType_eq ht]
      simp only [edgeView] at hcount
      simp only [edgeCountByType, Tables.edgeCountByType, ht, hcount]
      rfl
  edges etype := by
    rcases ht : w.tables.getType etype with _ | t
    · simp [Tables.edgesByType, edgesOfType_eq_empty ht, ht]
    · rw [edgesOfType_eq ht, length_edgesByType ht]
  label_nonneg l := by
    have hcount := hw.nodes.count l
    simp only [nodeView] at hcount
    omega
  type_nonneg t := by
    have hcount := hw.edges.count t
    simp only [edgeView] at hcount
    omega

end Working

/-! ## The clamp -/

/-- Every step that takes one off a count, in the deletions on a transaction, finds it positive:
for a removed label, for each label and each edge of a deleted node in the order in which they
go, and for a deleted edge. The count is the stored one plus the batched change. -/
structure Txn.DecrementsExact [TextLib] (t : Txn) : Prop where
  removeLabel : ∀ n r l, t.work.tables.nodes.get n = some r → l ∈ r.labels →
    1 ≤ t.work.nodeView.labelCount l
  leaveLabel : ∀ n r pre l post, t.work.tables.nodes.get n = some r →
    r.labels = pre ++ l :: post →
      1 ≤ (pre.foldl (Working.leaveLabel n r.props) t.work).nodeView.labelCount l
  dropOutEdge : ∀ n r pre e post, t.work.tables.nodes.get n = some r →
    (t.leaveLabels n r).adj.entries n true = pre ++ e :: post →
      1 ≤ (pre.foldl (dropOutEdge n) (t.leaveLabels n r)).work.edgeView.typeCount e.edgeType
  dropInEdge : ∀ n r pre e post, t.work.tables.nodes.get n = some r →
    ((t.leaveLabels n r).dropOutEdges n).adj.entries n false = pre ++ e :: post →
      1 ≤ (pre.foldl (dropInEdge n) ((t.leaveLabels n r).dropOutEdges n)).work.edgeView.typeCount
        e.edgeType
  deleteEdge : ∀ id r, t.work.tables.edges.get id = some r →
    1 ≤ t.work.edgeView.typeCount r.edgeType

lemma Working.labelCount_foldl_leaveLabel [TextLib] {w : Working} (hw : w.Sound) {n : NodeId}
    {r : NodeRecord} (hget : w.tables.nodes.get n = some r) {pre post : List LabelId} {l : LabelId}
    (hlabels : r.labels = pre ++ l :: post) :
    1 ≤ (pre.foldl (Working.leaveLabel n r.props) w).nodeView.labelCount l := by
  have hnodup := r.nodup
  rw [hlabels] at hnodup
  have hpre : pre.Nodup := (nodup_append.mp hnodup).1
  have hl : l ∉ pre := fun hmem =>
    (nodup_append.mp hnodup).2.2 l hmem l mem_cons_self rfl
  have hcarried : ∀ l' ∈ r.labels, (l', n) ∈ w.tables.labelIdx := fun l' hl' =>
    (hw.nodes.labelIdx_iff l' n).mpr ⟨r, hget, hl'⟩
  have hmem : ∀ l' ∈ pre, (l', n) ∈ w.tables.labelIdx := fun l' hl' =>
    hcarried l' (by simp [hlabels, hl'])
  have hbase : (pre.foldl (Working.leaveLabel n r.props) w).base =
      (w.unlinkLabels n pre).base := by
    rw [foldl_leaveLabel_base, base_unlinkLabels]
  obtain ⟨-, -, -, hcount, hidx⟩ :=
    NodeView.unlinkAll_spec (v := w.nodeView) hpre hmem hw.nodes.count
  rw [nodeView_of_base_eq hbase, (unlinkLabels_spec hpre hmem hw.nodes.count hw.memo).1, hcount l]
  have hkept : n ∈ (w.nodeView.unlinkAll n pre).labelIdx.under l :=
    Finset.mem_under.mpr ((hidx l n).mpr ⟨hcarried l (by simp [hlabels]), fun h => hl h.2⟩)
  exact_mod_cast Finset.card_pos.mpr ⟨n, hkept⟩

lemma Txn.Sound.decrementsExact [TextLib] {t : Txn} (h : t.Sound) (hflushed : t.Flushed) :
    t.DecrementsExact where
  removeLabel _ _ _ hget hl := h.work.nodes.count_pos hget hl
  leaveLabel _ _ _ _ _ hget hlabels := Working.labelCount_foldl_leaveLabel h.work hget hlabels
  dropOutEdge _ _ _ _ _ hget hentries :=
    Dropping.count_pos (Dropping.run (hentries ▸ h.dropping_out hflushed hget))
  dropInEdge _ _ _ _ _ hget hentries :=
    Dropping.count_pos (Dropping.run (hentries ▸ h.dropping_in hflushed hget))
  deleteEdge _ _ hget := h.work.edges.count_pos hget rfl

/-! ## Runs -/

namespace Graph

section Exact

variable [TextLib]

/-- **Exact counters.** After every run from the empty database, the counts of every label and
every edge type are exact, and no decrement of an auto-committing deletion meets a zero. The same
holds in every open transaction in which no mutation has failed. -/
theorem counts_exact (actions : List Action) :
    (Working.CountsExact ⟨(run actions .empty).storage.tables, none⟩ ∧
      (Txn.begin (run actions .empty).storage none).DecrementsExact) ∧
    ∀ {α : Type} (p : Prog α) (w : WriteTxn),
      (p.run (.begin (run actions .empty).storage)).2 = w → w.failed = false →
        w.txn.work.CountsExact ∧ w.txn.flushAdjacency.DecrementsExact := by
  have hsound : (run actions .empty).storage.Sound :=
    sound_invariant.run (admissible_of_forall (fun _ => trivial) (fun _ _ => trivial) actions _)
      Storage.sound_empty
  refine ⟨⟨hsound.work.countsExact, hsound.decrementsExact (by rintro (_ | _) <;> rfl)⟩, ?_⟩
  intro α p w hw hfailed
  subst hw
  have htxn := sound_invariant.txn_run p hfailed (fun _ _ _ => trivial)
    (sound_invariant.begin_batch hsound)
  exact ⟨htxn.work.countsExact,
    htxn.flushAdjacency.decrementsExact (Txn.flushed_flushAdjacency _)⟩

end Exact

section FailedInsert

attribute [local instance] TextLib.ascii

/-- One unique constraint and one node that satisfies it. -/
def uniqueFlag : Graph :=
  run [.ddl (.createNodeIndex "A" "p" .unique) (.ok ()),
    .mutation (.addNode "A" ⟨.object [("p", .bool true)], by decide⟩) (.ok ())] .empty

/-- An insertion under two labels that violates the constraint of the first. -/
def failedInsert : Prog Unit :=
  .call (.mutation (.addNodeMulti ["A", "B"] ⟨.object [("p", .bool true)], by decide⟩))
    fun _ => .done (.ok ())

/-- After an insertion that failed, a node carries a label that is not counted. -/
theorem count_after_failed_insert :
    ((failedInsert.run (.begin uniqueFlag.storage)).2.txn.read (.nodeCountByLabel "B") : ℕ) ≠
      ((failedInsert.run (.begin uniqueFlag.storage)).2.txn.work.tables.carriers "B").card := by
  have hread : (failedInsert.run (.begin uniqueFlag.storage)).2.txn.work.nodeCountByLabel "B" ≠
      ((failedInsert.run (.begin uniqueFlag.storage)).2.txn.work.tables.carriers "B").card := by
    decide +kernel
  exact hread

end FailedInsert

end Graph

end IssunDB
