import IssunDB.Vector.Mirror

/-!
# Restarts

The index in memory is lost when a database is closed. After every run in which no deletion and no
removal takes the last stored embedding away from an index in use, and the storage engine accepts
the commits of embeddings, the graph answers as it does after it is reopened
(`restartInvariant_run`). The last embedding makes the difference: an index that was used keeps its
dimension, and is not empty after the core deleted its nodes (`restart_differs`).
-/

namespace IssunDB

open Option

/-! ## What the core does to the embeddings -/

lemma Tables.vectors_resolveLabels (names : List String) (r : ResolvedLabels) (s : Tables) :
    (s.resolveLabels names r).2.vectors = s.vectors := by
  induction names generalizing r s with
  | nil => rfl
  | cons name names ih =>
    rw [Tables.resolveLabels]
    exact ih _ _

namespace Working

/-- The stored embeddings and the next node id. -/
def embeddings (w : Working) : Table NodeId (List UInt8) × NodeId :=
  (w.tables.vectors, w.tables.metaDb.nextNode)

lemma embeddings_of_base_eq {w w' : Working} (h : w'.base = w.base) :
    w'.embeddings = w.embeddings := by
  show w'.base.embeddings = w.base.embeddings
  rw [h]

lemma embeddings_linkLabel (l : LabelId) (n : NodeId) (w : Working) :
    (w.linkLabel l n).embeddings = w.embeddings := by
  obtain ⟨s, memo⟩ := w
  cases memo <;> rfl

lemma embeddings_unlinkLabel (l : LabelId) (n : NodeId) (w : Working) :
    (w.unlinkLabel l n).embeddings = w.embeddings := by
  obtain ⟨s, memo⟩ := w
  cases memo <;> rfl

lemma embeddings_linkLabels (n : NodeId) (labels : List LabelId) (w : Working) :
    (w.linkLabels n labels).embeddings = w.embeddings :=
  Exec.Keeps.foldl (fun w l => embeddings_linkLabel l n w) labels w

lemma embeddings_dropEdge (id : EdgeId) (t : TypeId) (w : Working) :
    (w.dropEdge id t).embeddings = w.embeddings := by
  show (w.dropEdge id t).base.embeddings = w.base.embeddings
  rw [base_dropEdge]
  obtain ⟨s, memo⟩ := w
  cases memo <;> rfl

variable [TextLib]

lemma embeddings_leaveLabel (n : NodeId) (props : Props) (w : Working) (l : LabelId) :
    (w.leaveLabel n props l).embeddings = w.embeddings := by
  rw [leaveLabel, embeddings_unlinkLabel]
  apply embeddings_of_base_eq
  simp only [base, Tables.base_unindexNodeForLabel]

lemma vectors_addNodeInner {labels : List String} {props : Props} {w w' : Working} {n : NodeId}
    (h : addNodeInner labels props w = (.ok n, w')) : w'.tables.vectors = w.tables.vectors := by
  obtain ⟨r, s, w₁, hres, halloc, hloop⟩ := addNodeInner_ok h
  have hs : s.vectors = w.tables.vectors := by
    rw [← Tables.vectors_resolveLabels labels .nil w.tables, hres]
  have halloc' : w₁.tables.vectors = s.vectors := by
    obtain rfl := congrArg Prod.snd halloc
    obtain ⟨t, memo⟩ := w
    cases memo <;> rfl
  have hbase := forM_enterLabel_base hloop
  rw [← base_linkLabels] at hbase
  have hloop' := (embeddings_of_base_eq hbase).trans (embeddings_linkLabels ..)
  exact (congrArg Prod.fst hloop').trans (halloc'.trans hs)

end Working

namespace Txn

variable [TextLib]

/-- The deletion of a node removes its embedding and no other. -/
theorem embeddings_deleteNodeInner (n : NodeId) (t : Txn) :
    (t.deleteNodeInner n).work.embeddings =
      if (t.work.tables.nodes.get n).isSome then
        (t.work.tables.vectors.erase n, t.work.tables.metaDb.nextNode)
      else t.work.embeddings := by
  unfold deleteNodeInner
  split
  next hget =>
    rw [hget]
    rfl
  next record hget =>
    have hlabels : (t.leaveLabels n record).work.embeddings = t.work.embeddings :=
      Exec.Keeps.foldl (fun w l => Working.embeddings_leaveLabel n record.props w l) _ _
    have hout : ∀ t : Txn, (t.dropOutEdges n).work.embeddings = t.work.embeddings := by
      intro t
      exact Exec.Keeps.foldl (f := fun t : Txn => t.work.embeddings)
        (fun t e => Working.embeddings_dropEdge e.edgeId e.edgeType t.work) _ t
    have hin : ∀ t : Txn, (t.dropInEdges n).work.embeddings = t.work.embeddings := by
      intro t
      exact Exec.Keeps.foldl (f := fun t : Txn => t.work.embeddings)
        (fun t e => Working.embeddings_dropEdge e.edgeId e.edgeType t.work) _ t
    have hall := (hin _).trans ((hout _).trans hlabels)
    rw [hget, if_pos (isSome_some)]
    obtain ⟨hvectors, hnext⟩ := Prod.mk.injEq .. ▸ hall
    show (((((t.leaveLabels n record).dropOutEdges n).dropInEdges n).work.tables.vectors).erase n,
        _) = _
    rw [hvectors]
    exact congrArg (Prod.mk _) hnext

end Txn

/-! ## Transactions of one operation -/

/-- The nodes, the embeddings and the next node id. -/
def Tables.holdings (s : Tables) : Table NodeId NodeRecord × Table NodeId (List UInt8) × NodeId :=
  (s.nodes, s.vectors, s.metaDb.nextNode)

namespace Graph

variable [TextLib]

/-- A mutation by itself changes nothing, or commits what it did to its transaction. -/
theorem autoCommit_cases (commit : Except Error Unit) (m : Mutation) (g : Graph) :
    (g.autoCommit commit m).2 = g ∨ commit = .ok () ∧ ∃ r t,
      m.exec (.begin g.storage none) = (.ok r, t) ∧
        (g.autoCommit commit m).2.storage.tables.holdings = t.work.tables.holdings := by
  unfold autoCommit
  rcases hexec : m.exec (.begin g.storage none) with ⟨e | r, t⟩
  · exact .inl rfl
  rcases commit with e | u
  · refine .inl ?_
    dsimp only
    split <;> rfl
  · refine .inr ⟨rfl, r, t, rfl, ?_⟩
    dsimp only
    split
    · rfl
    · show (recordColumns m r _).storage.tables.holdings = _
      rw [recordColumns_storage]
      rfl

lemma autoCommit_addNode {g : Graph} (hsound : g.storage.Sound) (commit : Except Error Unit)
    (label : String) (props : Props) :
    (g.autoCommit commit (.addNode label props)).2 = g ∨ ∃ record next,
      g.storage.tables.metaDb.nextNode < next ∧
      (g.autoCommit commit (.addNode label props)).2.storage.tables.holdings =
        (g.storage.tables.nodes.put g.storage.tables.metaDb.nextNode record,
          g.storage.tables.vectors, next) := by
  apply (autoCommit_cases commit (.addNode label props) g).imp_right
  rintro ⟨-, n, t, hexec, hholdings⟩
  have hplain := Mutation.plain_exec (.addNode label props) (Txn.plain_begin g.storage)
  rw [hexec] at hplain
  change onWork (Working.addNodeInner [label] props) (.begin g.storage none) = _ at hexec
  obtain ⟨w, hadd, rfl⟩ := Exec.zoom_eq_ok.mp hexec
  obtain ⟨hw, -, hn, record, -, hnodes⟩ := Working.addNodeInner_spec hsound.work hadd
  have hvectors := Working.vectors_addNodeInner hadd
  have hn' : n = g.storage.tables.metaDb.nextNode := hn
  have hnext : w.nextNode = w.tables.metaDb.nextNode := by
    unfold Working.nextNode
    rw [show w.memo = none from hplain.1]
    rfl
  have hget : w.tables.nodes.get n = some record := by
    rw [hnodes]
    exact Table.get_put_self ..
  have hlt := hw.nodes.node_lt n record hget
  refine ⟨record, w.tables.metaDb.nextNode, ?_, ?_⟩
  · rw [← hn', ← hnext]
    exact hlt
  · rw [hholdings, ← hn']
    exact Prod.ext hnodes (Prod.ext hvectors rfl)

lemma autoCommit_deleteNode {g : Graph} (hsound : g.storage.Sound) (commit : Except Error Unit)
    (n : NodeId) :
    (g.autoCommit commit (.deleteNode n)).2 = g ∨ commit = .ok () ∧
      (g.autoCommit commit (.deleteNode n)).2.storage.tables.holdings =
        (g.storage.tables.nodes.erase n,
          if (g.storage.tables.nodes.get n).isSome then g.storage.tables.vectors.erase n
          else g.storage.tables.vectors, g.storage.tables.metaDb.nextNode) := by
  apply (autoCommit_cases commit (.deleteNode n) g).imp_right
  rintro ⟨hcommit, r, t, hexec, hholdings⟩
  obtain rfl := congrArg Prod.snd hexec
  refine ⟨hcommit, hholdings.trans ?_⟩
  have hnodes := Txn.Sound.nodes_deleteNodeInner hsound (fun o => by cases o <;> rfl) n
  have hembeddings := Txn.embeddings_deleteNodeInner n (.begin g.storage none)
  refine Prod.ext hnodes (hembeddings.trans ?_)
  show (if (g.storage.tables.nodes.get n).isSome then _ else _) = _
  split <;> rfl

end Graph

/-! ## Consistency -/

namespace Vector

namespace VectorGraph

/-- What every step keeps: the records are sound, the stored embeddings are of one dimension and of
nodes that exist, and the index in memory fits, if there is one. -/
structure Consistent (g : VectorGraph) (d : ℕ) : Prop where
  pos : 0 < d
  sound : g.graph.storage.Sound
  embeds : g.Embeds d
  config : ∃ opts, g.effectiveConfig = .ok opts
  cache : ∀ idx, g.cache = some idx → g.Fits d idx

variable {g : VectorGraph} {d : ℕ}

lemma Consistent.bounded (h : g.Consistent d) (n : NodeId) (hn : g.nodeExists n) :
    n < g.graph.storage.tables.metaDb.nextNode := by
  obtain ⟨record, hget⟩ := isSome_iff_exists.mp hn
  exact h.sound.work.nodes.node_lt n record hget

/-- An index is at hand, from memory or built. -/
theorem Consistent.getOrInitCache (h : g.Consistent d) :
    ∃ idx, g.Fits d idx ∧ VectorGraph.getOrInitCache g =
    (.ok idx, { g with cache := some idx }) := by
  unfold VectorGraph.getOrInitCache
  rcases hcache : g.cache with _ | idx
  · obtain ⟨opts, hopts⟩ := h.config
    obtain ⟨idx, hbuild, hfits⟩ := buildIndex_fits h.pos h.embeds h.bounded hopts
    refine ⟨idx, hfits, ?_⟩
    have hbind : (g.effectiveConfig >>= fun opts => g.buildIndex opts) = .ok idx := by
      rw [hopts]
      exact hbuild
    rw [hbind]
  · refine ⟨idx, h.cache idx hcache, ?_⟩
    obtain ⟨graph, config, cache⟩ := g
    obtain rfl : cache = some idx := hcache
    rfl

lemma Consistent.reopen (h : g.Consistent d) : g.reopen.Consistent d :=
  ⟨h.pos, h.sound, h.embeds, h.config, fun idx hidx => by cases hidx⟩

lemma Consistent.setCache (h : g.Consistent d) {idx : VectorIndex} (hidx : g.Fits d idx) :
    Consistent { g with cache := some idx } d := by
  refine ⟨h.pos, h.sound, h.embeds, h.config, fun idx' hidx' => ?_⟩
  obtain rfl := some.inj hidx'
  exact ⟨hidx.opts, hidx.sized, hidx.unused_iff, hidx.entry, hidx.bounded⟩

/-- While no embedding is stored the dimension is free. -/
theorem Consistent.resize (h : g.Consistent d) (hnone : ∀ n, g.stored.get n = none) {d' : ℕ}
    (hd' : 0 < d') : g.Consistent d' where
  pos := hd'
  sound := h.sound
  embeds n bytes hget := by
    rw [hnone n] at hget
    cases hget
  config := h.config
  cache idx hidx := by
    have hfits := h.cache idx hidx
    exact ⟨hfits.opts, (hfits.unused_iff.mpr hnone).sized d', hfits.unused_iff, hfits.entry,
      hfits.bounded⟩

lemma consistent_empty : Consistent .empty 1 where
  pos := one_pos
  sound := Storage.sound_empty
  embeds n bytes hget := by cases hget
  config := ⟨_, rfl⟩
  cache idx hidx := by cases hidx

/-! ## Steps of the core -/

section Core

variable [TextLib]

lemma sound_core (h : g.graph.storage.Sound) (commit : Except Error Unit) (m : Mutation) :
    (g.graph.autoCommit commit m).2.storage.Sound :=
  Graph.sound_invariant.perform (a := .mutation m commit) (Graph.admissible_of_forall
    (fun _ => trivial) (fun _ _ => trivial) [.mutation m commit] g.graph).1 h

/-- **Node insertion.** The index holds nothing for a node to come. -/
theorem Consistent.addNode (h : g.Consistent d) (commit : Except Error Unit) (label : String)
    (props : Props) : (core commit (.addNode label props) g).2.Consistent d := by
  have hsound := sound_core h.sound commit (.addNode label props)
  show Consistent { g with graph := _ } d
  rcases Graph.autoCommit_addNode h.sound commit label props with hsame | ⟨record, next, hlt,
    hholdings⟩
  · rw [hsame]
    exact h
  set graph' := (g.graph.autoCommit commit (.addNode label props)).2 with hgraph'
  obtain ⟨hnodes, hrest⟩ := Prod.mk.injEq .. ▸ hholdings
  obtain ⟨hvectors, hnext⟩ := Prod.mk.injEq .. ▸ hrest
  set g' : VectorGraph := { g with graph := graph' } with hg'
  have hstored : g'.stored = g.stored := hvectors
  have hnode : ∀ n, g'.nodeExists n ↔
      n = g.graph.storage.tables.metaDb.nextNode ∨ g.nodeExists n := by
    intro n
    unfold nodeExists
    rw [show g'.graph.storage.tables.nodes = _ from hnodes, Table.get_put]
    split
    next hn => simp [hn]
    next hn => simp [hn]
  refine ⟨h.pos, hsound, fun n bytes hget => ?_, h.config, fun idx hidx => ?_⟩
  · rw [hstored] at hget
    obtain ⟨hexists, hdecode⟩ := h.embeds n bytes hget
    exact ⟨(hnode n).mpr (.inr hexists), hdecode⟩
  · have hfits := h.cache idx hidx
    refine ⟨hfits.opts, hfits.sized, ?_, fun n hn => ?_, fun n hn => ?_⟩
    · rw [hstored]
      exact hfits.unused_iff
    · have hembedding : g'.embedding n = g.embedding n := by
        unfold embedding
        rw [hstored]
      rw [hembedding]
      rcases (hnode n).mp hn with rfl | hexists
      · rw [hfits.bounded _ le_rfl, eq_comm, ← not_isSome_iff_eq_none,
          h.embeds.embedding_iff]
        intro hsome
        obtain ⟨bytes, hget⟩ := isSome_iff_exists.mp hsome
        exact lt_irrefl _ (h.bounded _ (h.embeds _ bytes hget).1)
      · exact hfits.entry n hexists
    · rw [show g'.graph.storage.tables.metaDb.nextNode = next from hnext] at hn
      exact hfits.bounded n (hlt.le.trans hn)

/-- **Node deletion.** The index keeps what it held for the node, which is dead weight as long as
another embedding is stored. -/
theorem Consistent.deleteNode (h : g.Consistent d) {commit : Except Error Unit} {n : NodeId}
    (hlast : commit = .ok () → g.cache.isSome → g.stored.keys ≠ {n}) :
    (core commit (.deleteNode n) g).2.Consistent d := by
  have hsound := sound_core h.sound commit (.deleteNode n)
  show Consistent { g with graph := _ } d
  rcases Graph.autoCommit_deleteNode h.sound commit n with hsame | ⟨hcommit, hholdings⟩
  · rw [hsame]
    exact h
  set graph' := (g.graph.autoCommit commit (.deleteNode n)).2 with hgraph'
  obtain ⟨hnodes, hrest⟩ := Prod.mk.injEq .. ▸ hholdings
  obtain ⟨hvectors, hnext⟩ := Prod.mk.injEq .. ▸ hrest
  set g' : VectorGraph := { g with graph := graph' } with hg'
  have hstored : ∀ m, g'.stored.get m = if m = n then none else g.stored.get m := by
    intro m
    rw [show g'.stored = _ from hvectors]
    split
    next => exact Table.get_erase ..
    next hdead =>
      split
      next hm =>
        -- A node that does not exist has no embedding.
        rw [eq_none_iff_forall_ne_some]
        intro bytes hget
        exact hdead (hm ▸ (h.embeds m bytes hget).1)
      next => rfl
  have hnode : ∀ m, g'.nodeExists m ↔ m ≠ n ∧ g.nodeExists m := by
    intro m
    unfold nodeExists
    rw [show g'.graph.storage.tables.nodes = _ from hnodes, Table.get_erase]
    split
    next hm => simp [hm]
    next hm => simp [hm]
  refine ⟨h.pos, hsound, fun m bytes hget => ?_, h.config, fun idx hidx => ?_⟩
  · rw [hstored] at hget
    split at hget
    next => cases hget
    next hm =>
      obtain ⟨hexists, hdecode⟩ := h.embeds m bytes hget
      exact ⟨(hnode m).mpr ⟨hm, hexists⟩, hdecode⟩
  · have hfits := h.cache idx hidx
    refine ⟨hfits.opts, hfits.sized, ?_, fun m hm => ?_, fun m hm => ?_⟩
    · rw [hfits.unused_iff]
      constructor
      · intro hnone m
        rw [hstored, hnone m, ite_self]
      · intro hnone
        have hother : ∀ m, m ≠ n → g.stored.get m = none := by
          intro m hm
          rw [← hnone m, hstored, if_neg hm]
        intro m
        by_cases hm : m = n
        · -- Otherwise it was the last one.
          rw [hm]
          by_contra hsome
          apply hlast hcommit (by rw [show g.cache = some idx from hidx]; rfl)
          ext k
          rw [Table.mem_keys, Finset.mem_singleton]
          constructor
          · intro hk
            by_contra hkn
            rw [hother k hkn] at hk
            cases hk
          · rintro rfl
            exact isSome_iff_ne_none.mpr hsome
        · exact hother m hm
    · obtain ⟨hmn, hexists⟩ := (hnode m).mp hm
      rw [hfits.entry m hexists]
      unfold embedding
      rw [hstored, if_neg hmn]
    · rw [show g'.graph.storage.tables.metaDb.nextNode = _ from hnext] at hm
      exact hfits.bounded m hm

/-! ## Steps of the index -/

lemma upsertVector_eq {idx : VectorIndex}
    (hidx : getOrInitCache g = (.ok idx, { g with cache := some idx }))
    (commit : Except Error Unit) (n : NodeId) (v : List F32) :
    upsertVector commit n v g =
      if g.nodeExists n then
        match encodeVector v with
        | .error e => (.error e, g)
        | .ok bytes =>
          match idx.upsert n v with
          | .error e => (.error e, { g with cache := some idx })
          | .ok idx' => putVectorBytes commit n bytes { g with cache := some idx' }
      else (.error (.nodeNotFound n), g) := by
  unfold upsertVector
  split
  next hexists =>
    have hcheck : (Exec.check fun g : VectorGraph =>
        if g.nodeExists n then .ok () else .error (.nodeNotFound n)) g =
          ((.ok (), g) : Except VectorError Unit × VectorGraph) := by
      rw [Exec.check_apply, if_pos hexists]
    rw [Exec.bind_apply_ok hcheck]
    rcases hbytes : encodeVector v with e | bytes
    · rfl
    · show (getOrInitCache >>= _) g = _
      rw [Exec.bind_apply_ok hidx]
      rcases hup : idx.upsert n v with e | idx' <;> rfl
  next hexists =>
    apply Exec.bind_apply_error
    rw [Exec.check_apply, if_neg hexists]

omit [TextLib] in
lemma decodeVector_of_encodeVector {v : List F32} {bytes : List UInt8}
    (h : encodeVector v = .ok bytes) : v ≠ [] ∧ decodeVector bytes = .ok v := by
  refine ⟨?_, decodeVector_encodeVector h⟩
  rintro rfl
  cases h

/-- **Upsert.** -/
theorem Consistent.upsertVector (h : g.Consistent d) (n : NodeId) (v : List F32) :
    ∃ d', (upsertVector (.ok ()) n v g).2.Consistent d' := by
  obtain ⟨idx, hfits, hidx⟩ := h.getOrInitCache
  rw [upsertVector_eq hidx]
  split
  next hexists =>
    split
    next => exact ⟨d, h⟩
    next bytes hbytes =>
      obtain ⟨hne, hdecode⟩ := decodeVector_of_encodeVector hbytes
      have hpos : 0 < v.length := List.length_pos_iff.mpr hne
      have h₁ := h.setCache hfits
      split
      next => exact ⟨d, h₁⟩
      next idx' hup =>
        -- The first embedding fixes the dimension; another one has it.
        have hresized : Consistent { g with cache := some idx } v.length := by
          by_cases hunused : idx.Unused
          · exact h₁.resize (hfits.unused_iff.mp hunused) hpos
          · by_cases hv : v.length = d
            · rwa [hv]
            · rw [VectorIndex.upsert_mismatch hfits.sized hunused n hpos.ne' hv] at hup
              cases hup
        have hfits' := hresized.cache idx rfl
        obtain ⟨idx'', hup', hsized, hopts, hused, hentry⟩ :=
          VectorIndex.upsert_spec hfits'.sized n hpos rfl
        obtain rfl : idx' = idx'' := Except.ok.inj (hup.symm.trans hup')
        have hsound := sound_core h.sound (.ok ()) (.putVectorBytes n bytes)
        refine ⟨v.length, hpos, hsound, fun m bytes' hget => ?_, h.config, fun i hi => ?_⟩
        · change (Table.put _ _ _).get m = _ at hget
          rw [Table.get_put] at hget
          split at hget
          next hm =>
            obtain rfl := some.inj hget
            exact ⟨hm ▸ hexists, v, hdecode, rfl⟩
          next => exact hresized.embeds m bytes' hget
        · obtain rfl := some.inj hi
          refine ⟨hfits'.opts.trans (congrArg Except.ok hopts.symm), hsized, ?_, fun m hm => ?_,
            fun m hm => ?_⟩
          · refine ⟨fun hunused => absurd hunused hused, fun hnone => ?_⟩
            have hn := hnone n
            change (Table.put _ _ _).get n = _ at hn
            rw [Table.get_put_self] at hn
            cases hn
          · rw [hentry]
            show _ = ((Table.put _ _ _).get m).bind _
            rw [Table.get_put]
            split
            next => rw [bind_some, hdecode]; rfl
            next => exact hfits'.entry m hm
          · rw [hentry, hfits'.bounded m hm, ite_eq_right_iff]
            rintro rfl
            exact absurd (h.bounded m hexists) (not_lt.mpr hm)
  next => exact ⟨d, h⟩

/-- **Removal.** A stored embedding may be removed as long as it is not the last one. -/
theorem Consistent.removeVector (h : g.Consistent d) {commit : Except Error Unit} {n : NodeId}
    (hlast : (g.stored.get n).isSome → commit = .ok () ∧ g.stored.keys ≠ {n}) :
    (removeVector commit n g).2.Consistent d := by
  obtain ⟨idx, hfits, hidx⟩ := h.getOrInitCache
  have hrun : VectorGraph.removeVector commit n g =
      deleteVectorBytes commit n { g with cache := some (idx.remove n) } := by
    unfold VectorGraph.removeVector
    rw [Exec.bind_apply_ok hidx]
    rfl
  rw [hrun]
  obtain ⟨hsized, hopts, hunused, hentry⟩ := VectorIndex.remove_spec hfits.sized n
  have hsound := sound_core h.sound commit (.deleteVectorBytes n)
  have hfits₁ := (h.setCache hfits).cache idx rfl
  by_cases hstored : (g.stored.get n).isSome
  · obtain ⟨rfl, hother⟩ := hlast hstored
    refine ⟨h.pos, hsound, fun m bytes hget => ?_, h.config, fun i hi => ?_⟩
    · change (Table.erase _ _).get m = _ at hget
      rw [Table.get_erase] at hget
      split at hget
      next => cases hget
      next => exact h.embeds m bytes hget
    · obtain rfl := some.inj hi
      refine ⟨hfits.opts.trans (congrArg Except.ok hopts.symm), hsized, ?_, fun m hm => ?_,
        fun m hm => ?_⟩
      · rw [hunused, hfits.unused_iff]
        constructor
        · intro hnone m
          show (Table.erase _ _).get m = none
          rw [Table.get_erase]
          split
          next => rfl
          next => exact hnone m
        · intro hnone
          exfalso
          apply hother
          ext m
          rw [Table.mem_keys, Finset.mem_singleton]
          have hm := hnone m
          change (Table.erase _ _).get m = _ at hm
          rw [Table.get_erase] at hm
          split at hm
          next heq => simp [heq, hstored]
          next hne =>
            change g.stored.get m = none at hm
            simp [hm, hne]
      · rw [hentry]
        show _ = ((Table.erase _ _).get m).bind _
        rw [Table.get_erase]
        split
        next => rfl
        next => exact hfits.entry m hm
      · rw [hentry, hfits.bounded m hm, ite_self]
  · -- Nothing was stored for it, so nothing is written, whether or not the commit is accepted.
    have hnone : g.stored.get n = none := not_isSome_iff_eq_none.mp hstored
    have hkeep : (deleteVectorBytes commit n { g with cache := some (idx.remove n) }).2 =
        { g with cache := some (idx.remove n) } := by
      rcases commit with e | u
      · rfl
      · have herase : g.graph.storage.tables.vectors.erase n = g.graph.storage.tables.vectors :=
          Table.erase_of_get_none _ hnone
        show ({ g with
          graph := { g.graph with storage := { g.graph.storage with
            tables := { g.graph.storage.tables with
              vectors := g.graph.storage.tables.vectors.erase n } } }
          cache := some (idx.remove n) } : VectorGraph) = _
        rw [herase]
    rw [hkeep]
    refine h.setCache ⟨hfits.opts.trans (congrArg Except.ok hopts.symm), hsized,
      hunused.trans hfits.unused_iff, fun m hm => ?_, fun m hm => ?_⟩
    · rw [hentry]
      split
      next hmn =>
        rw [hmn, embedding, hnone]
        rfl
      next => exact hfits.entry m hm
    · rw [hentry, hfits.bounded m hm, ite_self]

end Core

lemma effectiveConfig_encoded (opts : VectorIndexOptions) :
    effectiveConfig { g with config := some (encodeConfig opts) } = .ok opts :=
  decodeConfig_encodeConfig opts

/-- A new configuration with an index that fits it. -/
theorem Consistent.putVectorConfig (h : g.Consistent d) {opts : VectorIndexOptions}
    {idx : VectorIndex} (hidx : Fits { g with config := some (encodeConfig opts) } d idx)
    (commit : Except Error Unit) :
    ((VectorGraph.putVectorConfig commit opts >>= fun _ => VectorGraph.setCache idx) g).2.Consistent
      d := by
  rcases commit with e | u
  · exact h
  · have hconfig : Consistent { g with config := some (encodeConfig opts), cache := none } d :=
      ⟨h.pos, h.sound, h.embeds, ⟨opts, decodeConfig_encodeConfig opts⟩, fun i hi => by cases hi⟩
    exact hconfig.setCache ⟨hidx.opts, hidx.sized, hidx.unused_iff, hidx.entry, hidx.bounded⟩

/-- **Configuration.** It is refused once an embedding is stored. -/
theorem Consistent.configureVectorIndex (h : g.Consistent d) (commit : Except Error Unit)
    (opts : VectorIndexOptions) : (configureVectorIndex commit opts g).2.Consistent d := by
  obtain ⟨effective, heffective⟩ := h.config
  unfold VectorGraph.configureVectorIndex
  have hcheck : Exec.check effectiveConfig g = (.ok effective, g) := by
    rw [Exec.check_apply, heffective]
  rw [Exec.bind_apply_ok hcheck]
  split
  · exact h
  · rw [Exec.get_bind]
    split
    next hkeys =>
      have hnone : ∀ n, g.stored.get n = none := by
        intro n
        rw [← not_isSome_iff_eq_none, ← Table.mem_keys, hkeys]
        exact Finset.notMem_empty n
      refine h.putVectorConfig ⟨effectiveConfig_encoded opts, VectorIndex.sized_new d opts,
        ⟨fun _ => hnone, fun _ => rfl⟩, fun n _ => ?_, fun n _ => rfl⟩ commit
      show none = (g.stored.get n).bind _
      rw [hnone n]
      rfl
    next => exact h

/-- **Reindexing.** The stored bytes are read again. -/
theorem Consistent.reindexVectorIndex (h : g.Consistent d) (commit : Except Error Unit)
    (opts : VectorIndexOptions) : (reindexVectorIndex commit opts g).2.Consistent d := by
  obtain ⟨idx, hbuild, hfits⟩ :=
    buildIndex_fits (g := { g with config := some (encodeConfig opts) })
    h.pos h.embeds h.bounded (effectiveConfig_encoded opts)
  change g.buildIndex opts = .ok idx at hbuild
  unfold VectorGraph.reindexVectorIndex
  have hcheck : Exec.check (fun g => g.buildIndex opts) g = (.ok idx, g) := by
    rw [Exec.check_apply, hbuild]
  rw [Exec.bind_apply_ok hcheck]
  exact h.putVectorConfig hfits commit

/-! ## Runs -/

/-- One call. The state it leaves is the same whether or not its result is an error. -/
inductive Op where
  | addNode (commit : Except Error Unit) (label : String) (props : Props)
  | deleteNode (commit : Except Error Unit) (n : NodeId)
  | upsertVector (commit : Except Error Unit) (n : NodeId) (v : List F32)
  | removeVector (commit : Except Error Unit) (n : NodeId)
  | configureVectorIndex (commit : Except Error Unit) (opts : VectorIndexOptions)
  | reindexVectorIndex (commit : Except Error Unit) (opts : VectorIndexOptions)
  | vectorSearchWith (q : List F32) (opts : VectorSearchOptions)

/-- What a call must not do for the index in memory to stay exact: take the last stored embedding
away from under an index, or write to an index what the storage engine then refuses. -/
def Op.Exact (g : VectorGraph) : Op → Prop
  | deleteNode commit n => commit = .ok () → g.cache.isSome → g.stored.keys ≠ {n}
  | upsertVector commit _ _ => commit = .ok ()
  | removeVector commit n =>
    (g.stored.get n).isSome → commit = .ok () ∧ g.stored.keys ≠ {n}
  | _ => True

section Runs

variable [TextLib] [Distance]

/-- Perform a call. -/
def Op.run : Op → VectorGraph → VectorGraph
  | addNode commit label props, g => (core commit (.addNode label props) g).2
  | deleteNode commit n, g => (core commit (.deleteNode n) g).2
  | upsertVector commit n v, g => (VectorGraph.upsertVector commit n v g).2
  | removeVector commit n, g => (VectorGraph.removeVector commit n g).2
  | configureVectorIndex commit opts, g => (VectorGraph.configureVectorIndex commit opts g).2
  | reindexVectorIndex commit opts, g => (VectorGraph.reindexVectorIndex commit opts g).2
  | vectorSearchWith q opts, g => (VectorGraph.vectorSearchWith q opts g).2

/-- A history of calls. -/
def run (ops : List Op) (g : VectorGraph) : VectorGraph := ops.foldl (fun g op => op.run g) g

/-- Every call of a history is exact where it is made. -/
def Exact : List Op → VectorGraph → Prop
  | [], _ => True
  | op :: ops, g => op.Exact g ∧ Exact ops (op.run g)

/-- The graph answers as it does after it is reopened. -/
def RestartInvariant (g : VectorGraph) : Prop :=
  (∀ q opts, (vectorSearchWith q opts g).1 = (vectorSearchWith q opts g.reopen).1) ∧
    ∀ commit n v, (upsertVector commit n v g).1 = (upsertVector commit n v g.reopen).1

omit [TextLib] in
lemma searchIndex_cache (c : Option VectorIndex) (idx : VectorIndex) (q : List F32)
    (opts : VectorSearchOptions) :
    searchIndex { g with cache := c } idx q opts = g.searchIndex idx q opts := by
  have hlive : ∀ fetchK fuel want, searchLive { g with cache := c } idx q fetchK fuel want =
      g.searchLive idx q fetchK fuel want := by
    intro fetchK fuel
    induction fuel with
    | zero =>
      intro want
      rfl
    | succ fuel ih =>
      intro want
      rw [searchLive, searchLive]
      simp only [ih]
      rfl
  have hfetch : fetchHits { g with cache := c } idx q opts = g.fetchHits idx q opts := by
    unfold fetchHits
    rw [hlive]
    rfl
  unfold searchIndex
  rw [hfetch]
  rfl

omit [TextLib] in
lemma vectorSearchWith_eq {idx : VectorIndex}
    (hidx : getOrInitCache g = (.ok idx, { g with cache := some idx })) (q : List F32)
    (opts : VectorSearchOptions) :
    vectorSearchWith q opts g = (g.searchIndex idx q opts, { g with cache := some idx }) := by
  unfold vectorSearchWith
  rw [Exec.bind_apply_ok hidx, Exec.check_apply, searchIndex_cache]

/-- **Step.** An exact call keeps the graph consistent. -/
theorem Consistent.step (h : g.Consistent d) {op : Op} (hop : op.Exact g) :
    ∃ d', (op.run g).Consistent d' := by
  cases op with
  | addNode commit label props => exact ⟨d, h.addNode commit label props⟩
  | deleteNode commit n => exact ⟨d, h.deleteNode hop⟩
  | upsertVector commit n v =>
    obtain rfl : commit = .ok () := hop
    exact h.upsertVector n v
  | removeVector commit n => exact ⟨d, h.removeVector hop⟩
  | configureVectorIndex commit opts => exact ⟨d, h.configureVectorIndex commit opts⟩
  | reindexVectorIndex commit opts => exact ⟨d, h.reindexVectorIndex commit opts⟩
  | vectorSearchWith q opts =>
    obtain ⟨idx, hfits, hidx⟩ := h.getOrInitCache
    refine ⟨d, ?_⟩
    show (VectorGraph.vectorSearchWith q opts g).2.Consistent d
    rw [vectorSearchWith_eq hidx]
    exact h.setCache hfits

/-- **Run.** -/
theorem Consistent.run {ops : List Op} (h : g.Consistent d) (hops : Exact ops g) :
    ∃ d', (run ops g).Consistent d' := by
  induction ops generalizing g d with
  | nil => exact ⟨d, h⟩
  | cons op ops ih =>
    obtain ⟨d', h'⟩ := h.step hops.1
    exact ih h' hops.2

/-- The index in memory and the one built on reopening fit the same database. -/
theorem Consistent.restartInvariant (h : g.Consistent d) : RestartInvariant g := by
  obtain ⟨idx, hfits, hidx⟩ := h.getOrInitCache
  obtain ⟨idx', hfits', hidx'⟩ := h.reopen.getOrInitCache
  have hfits'' : g.Fits d idx' :=
    ⟨hfits'.opts, hfits'.sized, hfits'.unused_iff, hfits'.entry, hfits'.bounded⟩
  refine ⟨fun q opts => ?_, fun commit n v => ?_⟩
  · have hsearch := hfits.searchIndex_eq hfits'' h.sound h.embeds q opts
    rw [vectorSearchWith_eq hidx, vectorSearchWith_eq hidx']
    exact hsearch.trans (searchIndex_cache none idx' q opts).symm
  · have hup := hfits.upsert_eq hfits'' h.pos n v
    rw [upsertVector_eq hidx, upsertVector_eq hidx']
    show _ = (if g.nodeExists n then _ else _ : Except VectorError Unit × VectorGraph).1
    split
    · rcases encodeVector v with e | bytes
      · rfl
      · rcases hi : idx.upsert n v with e | i <;> rcases hi' : idx'.upsert n v with e' | i'
        · rw [hi, hi'] at hup
          exact congrArg Except.error (Except.error.inj hup)
        · rw [hi, hi'] at hup
          cases hup
        · rw [hi, hi'] at hup
          cases hup
        · rfl
    · rfl

/-- **Restart invariance.** After every history of exact calls, whatever they answered, each search
and each further upsert answers as on the same database after it is reopened. -/
theorem restartInvariant_run (ops : List Op) (h : Exact ops .empty) :
    RestartInvariant (run ops .empty) := by
  obtain ⟨d, hd⟩ := consistent_empty.run h
  exact hd.restartInvariant

end Runs

section Differs

attribute [local instance] TextLib.ascii

@[reducible]
def constantDistance : Distance := ⟨fun _ _ _ => 0⟩

attribute [local instance] constantDistance

/-- A node without properties. -/
def addBare : Op := .addNode (.ok ()) "A" ⟨.object [], Json.wellFormed_empty⟩

def plainSearch : VectorSearchOptions := ⟨1, none, none, none⟩

/-- An exact history with an embedding, a search and a deletion. -/
theorem restartInvariant_run_history :
    RestartInvariant (run [addBare, addBare, .upsertVector (.ok ()) 0 [0],
      .upsertVector (.ok ()) 1 [0], .deleteNode (.ok ()) 0, .vectorSearchWith [0] plainSearch]
        .empty) := by
  refine restartInvariant_run _ ⟨trivial, trivial, rfl, rfl, fun _ _ => ?_, trivial, trivial⟩
  decide +kernel

/-- The only embedded node was deleted by the core. -/
def afterDeletion : VectorGraph :=
  run [addBare, .upsertVector (.ok ()) 0 [0], .deleteNode (.ok ()) 0] .empty

/-- The only embedding was removed. -/
def afterRemoval : VectorGraph :=
  run [addBare, .upsertVector (.ok ()) 0 [0], .removeVector (.ok ()) 0] .empty

/-- After the deletion the running graph finds nothing and the reopened one has nothing to search;
after the removal the running graph refuses an embedding of another dimension, which the reopened
one takes. -/
theorem restart_differs :
    ((vectorSearchWith [0] plainSearch afterDeletion).1 = .ok [] ∧
      (vectorSearchWith [0] plainSearch afterDeletion.reopen).1 = .error .emptyIndex ∧
      ¬ RestartInvariant afterDeletion) ∧
    ((upsertVector (.ok ()) 0 [0, 0] afterRemoval).1 = .error (.dimensionMismatch 1 2) ∧
      (upsertVector (.ok ()) 0 [0, 0] afterRemoval.reopen).1 = .ok () ∧
      ¬ RestartInvariant afterRemoval) := by
  have hsearch : (vectorSearchWith [0] plainSearch afterDeletion).1 = .ok [] := by decide +kernel
  have hsearch' : (vectorSearchWith [0] plainSearch afterDeletion.reopen).1 =
      .error .emptyIndex := by decide +kernel
  have hupsert : (upsertVector (.ok ()) 0 [0, 0] afterRemoval).1 =
      .error (.dimensionMismatch 1 2) := by decide +kernel
  have hupsert' : (upsertVector (.ok ()) 0 [0, 0] afterRemoval.reopen).1 = .ok () := by
    decide +kernel
  refine ⟨⟨hsearch, hsearch', fun h => ?_⟩, hupsert, hupsert', fun h => ?_⟩
  · have heq := h.1 [0] plainSearch
    rw [hsearch, hsearch'] at heq
    cases heq
  · have heq := h.2 (.ok ()) 0 [0, 0]
    rw [hupsert, hupsert'] at heq
    cases heq

end Differs

end VectorGraph

end Vector

end IssunDB
