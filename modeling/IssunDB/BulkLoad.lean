import IssunDB.Adjacency

/-!
# Bulk loading is transparent

In bulk-load mode a transaction buffers adjacency entries, merges them into its reads and writes
them before a deletion, when the buffer is full, and at commit. `BulkRel t t'` relates such a
transaction `t` with one in the same situation that writes every entry at once: the working
states are equal, and what is stored in `t'` is stored or buffered in `t`, never both.

* `BulkRel.read` — every read has the same result;
* `BulkRel.exec` — every mutation has the same result and keeps the relation;
* `Graph.update_withoutBulk` — a closure and the same closure without its calls of
  `begin_bulk_load` get the same results from every call, return the same and leave the same
  graph.
-/

namespace IssunDB

open List

/-- The transaction `t`, which may buffer adjacency entries, and the transaction `t'`, which does
not, are in the same situation. -/
structure BulkRel (t t' : Txn) : Prop where
  work : t'.work = t.work
  buffer : t'.buffer = .empty
  adj : ∀ o, t'.adj.side o = t.allEntries o
  nodup : ∀ o, (t.buffer.side o).Nodup
  disjoint : ∀ o, ∀ x ∈ t.buffer.side o, x ∉ t.adj.side o
  paired : t.buffer.pendingOut = [] ↔ t.buffer.pendingIn = []

lemma Adjacency.ext_side {a a' : Adjacency} (h : ∀ o, a.side o = a'.side o) : a = a' := by
  obtain ⟨out, inc⟩ := a
  obtain ⟨out', inc'⟩ := a'
  have hout : out = out' := h true
  have hin : inc = inc' := h false
  rw [hout, hin]

namespace BulkRel

variable {t t' : Txn}

lemma begin (s : Storage) (memo : Option BatchMemo) : BulkRel (.begin s memo) (.begin s memo) where
  work := rfl
  buffer := rfl
  adj o := (Txn.allEntries_of_flushed (by rintro (_ | _) <;> rfl) o).symm
  nodup o := by cases o <;> exact nodup_nil
  disjoint o x hx := by cases o <;> cases hx
  paired := Iff.rfl

/-! ## Reads -/

/-- Without buffered entries there is nothing to merge. -/
theorem side_eq_nil (h : BulkRel t t') (hout : t.buffer.pendingOut = []) (o : Bool) :
    t.buffer.side o = [] := by
  cases o with
  | true => exact hout
  | false => exact h.paired.mp hout

/-- The merged entries are listed in the order in which the store lists them. -/
theorem neighborsWithPending (h : BulkRel t t') (n : NodeId) (o : Bool) :
    t'.neighborsWithPending n o = t.neighborsWithPending n o := by
  have hplain : t'.hasPendingAdjacency = false := by simp [Txn.hasPendingAdjacency, h.buffer,
    AdjBuffer.empty]
  by_cases hpending : t.hasPendingAdjacency = true
  · have hmerge : t'.adj.entries n o =
        (t.adj.entries n o ++ t.pendingAdjOf n o).insertionSort (· ≤ ·) := by
      have hmem : ∀ e, e ∈ t.pendingAdjOf n o ↔ (n, e) ∈ t.buffer.side o := by
        intro e
        simp [Txn.pendingAdjOf, AdjBuffer.side]
      have hnodup : (t.pendingAdjOf n o).Nodup := by
        refine List.Nodup.map_on ?_ ((h.nodup o).filter _)
        rintro ⟨n₁, e₁⟩ h₁ ⟨n₂, e₂⟩ h₂ rfl
        simp only [mem_filter, decide_eq_true_eq] at h₁ h₂
        rw [h₁.2, h₂.2]
      have hmerged : (t.adj.entries n o ++ t.pendingAdjOf n o).Nodup := by
        refine (Finset.ascending_nodup _).append hnodup fun e he hp => ?_
        exact h.disjoint o (n, e) ((hmem e).mp hp) (Txn.mem_entries.mp he)
      refine Finset.ascending_eq_of_pairwise_lt ?_ fun e => ?_
      · have hsorted := pairwise_insertionSort (· ≤ ·)
          (t.adj.entries n o ++ t.pendingAdjOf n o)
        have hdistinct := (perm_insertionSort (· ≤ ·)
          (t.adj.entries n o ++ t.pendingAdjOf n o)).nodup_iff.mpr hmerged
        exact (hsorted.and hdistinct).imp fun hle => lt_of_le_of_ne hle.1 hle.2
      · rw [(perm_insertionSort _ _).mem_iff, mem_append, Txn.mem_entries, hmem,
          Finset.mem_under, h.adj, Txn.mem_allEntries]
    simp only [Txn.neighborsWithPending, hplain, hpending, if_true, hmerge]
    rfl
  · have hnil : t.buffer.pendingOut = [] := by
      simpa [Txn.hasPendingAdjacency] using hpending
    have hentries : t'.adj.entries n o = t.adj.entries n o := by
      simp [Adjacency.entries, h.adj, Txn.allEntries, h.side_eq_nil hnil]
    simp [Txn.neighborsWithPending, hplain, hpending, hentries]

lemma read (h : BulkRel t t') (r : Read) : t'.read r = t.read r := by
  have hn := h.neighborsWithPending
  obtain ⟨w, adj, buffer⟩ := t
  obtain ⟨w', adj', buffer'⟩ := t'
  obtain rfl : w' = w := h.work
  cases r with
  | outNeighbors n => exact hn n true
  | inNeighbors n => exact hn n false
  | allNeighbors n =>
    have hall : Txn.allNeighbors ⟨w', adj', buffer'⟩ n = Txn.allNeighbors ⟨w', adj, buffer⟩ n := by
      rw [Txn.allNeighbors, Txn.allNeighbors, hn, hn]
    exact hall
  | _ => rfl

/-! ## Mutations -/

lemma onWork (h : BulkRel t t') {α : Type} (m : Exec Error Working α) :
    (IssunDB.onWork m t').1 = (IssunDB.onWork m t).1 ∧
      BulkRel (IssunDB.onWork m t).2 (IssunDB.onWork m t').2 := by
  obtain ⟨w, adj, buffer⟩ := t
  obtain ⟨w', adj', buffer'⟩ := t'
  obtain rfl : w' = w := h.work
  exact ⟨rfl, rfl, h.buffer, h.adj, h.nodup, h.disjoint, h.paired⟩

/-- The relation does not depend on the mode. -/
theorem beginBulkLoad (h : BulkRel t t') : BulkRel t.beginBulkLoad t' :=
  ⟨h.work, h.buffer, h.adj, h.nodup, h.disjoint, h.paired⟩

/-- Writing the buffer makes the adjacency tables equal. -/
theorem flushAdjacency (h : BulkRel t t') :
    t'.flushAdjacency = { t.flushAdjacency with buffer := .empty } := by
  obtain ⟨w, adj, buffer⟩ := t
  obtain ⟨w', adj', buffer'⟩ := t'
  obtain rfl : w' = w := h.work
  obtain rfl : buffer' = .empty := h.buffer
  have hadj : adj' = (Txn.flushAdjacency ⟨w', adj, buffer⟩).adj := by
    refine Adjacency.ext_side fun o => (h.adj o).trans ?_
    rw [← Txn.allEntries_flushAdjacency,
      Txn.allEntries_of_flushed (Txn.flushed_flushAdjacency _)]
  have hplain : Txn.flushAdjacency ⟨w', adj', .empty⟩ = ⟨w', adj', .empty⟩ := by
    simp [Txn.flushAdjacency, AdjBuffer.empty]
  rw [hplain, hadj]
  rfl

/-- Transactions that differ in the mode only are related once nothing is buffered. -/
theorem of_flushed (h : t.Flushed) : BulkRel t { t with buffer := .empty } where
  work := rfl
  buffer := rfl
  adj o := (Txn.allEntries_of_flushed h o).symm
  nodup o := by rw [h o]; exact nodup_nil
  disjoint o x hx := by rw [h o] at hx; cases hx
  paired := ⟨fun _ => h false, fun _ => h true⟩

end BulkRel

namespace Txn

/-! Deletions neither read nor write the buffer. -/

variable (b : AdjBuffer)

lemma deleteEdgeInner_buffer (id : EdgeId) (t : Txn) :
    deleteEdgeInner id { t with buffer := b } =
      ((t.deleteEdgeInner id).1, { (t.deleteEdgeInner id).2 with buffer := b }) := by
  simp only [deleteEdgeInner]
  split <;> rfl

lemma foldl_buffer {α : Type} {f : Txn → α → Txn}
    (hf : ∀ t a, f { t with buffer := b } a = { f t a with buffer := b }) (l : List α) (t : Txn) :
    l.foldl f { t with buffer := b } = { l.foldl f t with buffer := b } := by
  induction l generalizing t with
  | nil => rfl
  | cons a l ih => rw [foldl_cons, foldl_cons, hf, ih]

lemma deleteNodeInner_buffer [TextLib] (n : NodeId) (t : Txn) :
    deleteNodeInner n { t with buffer := b } = { t.deleteNodeInner n with buffer := b } := by
  simp only [deleteNodeInner]
  split
  · rfl
  next record _ =>
    have hout : dropOutEdges n { t.leaveLabels n record with buffer := b } =
        { (t.leaveLabels n record).dropOutEdges n with buffer := b } :=
      foldl_buffer b (fun _ _ => rfl) _ _
    have hin : dropInEdges n { (t.leaveLabels n record).dropOutEdges n with buffer := b } =
        { ((t.leaveLabels n record).dropOutEdges n).dropInEdges n with buffer := b } :=
      foldl_buffer b (fun _ _ => rfl) _ _
    change eraseNode n (dropInEdges n (dropOutEdges n
      { t.leaveLabels n record with buffer := b })) = _
    rw [hout, hin]
    rfl

lemma buffer_deleteEdgeInner (id : EdgeId) (t : Txn) :
    (t.deleteEdgeInner id).2.buffer = t.buffer :=
  congrArg (·.2.buffer) (deleteEdgeInner_buffer t.buffer id t)

lemma buffer_deleteNodeInner [TextLib] (n : NodeId) (t : Txn) :
    (t.deleteNodeInner n).buffer = t.buffer := by
  have h := congrArg Txn.buffer (deleteNodeInner_buffer t.buffer n t)
  exact h

end Txn

namespace BulkRel

variable {t t' : Txn}

/-- A node deletion keeps the relation once the buffer is written. -/
theorem deleteNodeInner [TextLib] (h : BulkRel t t') (n : NodeId) :
    BulkRel (t.flushAdjacency.deleteNodeInner n) (t'.flushAdjacency.deleteNodeInner n) := by
  have heq : t'.flushAdjacency.deleteNodeInner n =
      { t.flushAdjacency.deleteNodeInner n with buffer := .empty } := by
    rw [h.flushAdjacency]
    exact Txn.deleteNodeInner_buffer .empty n t.flushAdjacency
  rw [heq]
  refine of_flushed fun o => ?_
  rw [Txn.buffer_deleteNodeInner]
  exact Txn.flushed_flushAdjacency t o

/-- An edge deletion has the same result and keeps the relation once the buffer is written. -/
theorem deleteEdgeInner (h : BulkRel t t') (id : EdgeId) :
    (t'.flushAdjacency.deleteEdgeInner id).1 = (t.flushAdjacency.deleteEdgeInner id).1 ∧
      BulkRel (t.flushAdjacency.deleteEdgeInner id).2 (t'.flushAdjacency.deleteEdgeInner id).2 := by
  have heq : t'.flushAdjacency.deleteEdgeInner id =
      ((t.flushAdjacency.deleteEdgeInner id).1,
        { (t.flushAdjacency.deleteEdgeInner id).2 with buffer := .empty }) := by
    rw [h.flushAdjacency]
    exact Txn.deleteEdgeInner_buffer .empty id t.flushAdjacency
  rw [heq]
  refine ⟨rfl, of_flushed fun o => ?_⟩
  rw [Txn.buffer_deleteEdgeInner]
  exact Txn.flushed_flushAdjacency t o

variable {id : EdgeId}

/-- The entries of a new edge are neither stored nor buffered. -/
theorem entry_not_mem (hs : t.Sound) (hid : t.work.tables.edges.get id = none) (o : Bool)
    (r : EdgeRecord) : r.entry o id ∉ t.allEntries o := by
  intro hmem
  obtain ⟨id', r', hget, hentry⟩ := (hs.lists o (r.entry o id) trivial).mp hmem
  have heq : id' = id := by simpa using congrArg (·.2.edgeId) hentry
  rw [heq, hid] at hget
  cases hget

/-- Buffering the entries of a new edge against writing them. -/
theorem deferAdj (h : BulkRel t t') {src dst : NodeId} {ty : TypeId} (props : Props)
    (hnew : ∀ o, EdgeRecord.entry o id ⟨src, dst, ty, props⟩ ∉ t.allEntries o) :
    BulkRel (t.deferAdj src dst ty id) (t'.appendAdj src dst ty id) := by
  set t₁ : Txn := { t with buffer := { t.buffer with
    pendingOut := t.buffer.pendingOut ++ [(src, ⟨ty, dst, id⟩)]
    pendingIn := t.buffer.pendingIn ++ [(dst, ⟨ty, src, id⟩)] } } with ht₁
  have hadj : ∀ o, (t'.appendAdj src dst ty id).adj.side o =
      (t.deferAdj src dst ty id).allEntries o := by
    intro o
    rw [Txn.allEntries_deferAdj src dst ty id props, ← h.adj]
    cases o <;> rfl
  have hside : ∀ o, t₁.buffer.side o =
      t.buffer.side o ++ [EdgeRecord.entry o id ⟨src, dst, ty, props⟩] := by
    intro o
    cases o <;> rfl
  have hnotside : ∀ o, EdgeRecord.entry o id ⟨src, dst, ty, props⟩ ∉ t.buffer.side o ∧
      EdgeRecord.entry o id ⟨src, dst, ty, props⟩ ∉ t.adj.side o := by
    intro o
    have := hnew o
    rw [Txn.mem_allEntries, not_or] at this
    exact ⟨this.2, this.1⟩
  have hcases : t.deferAdj src dst ty id = t₁ ∨ t.deferAdj src dst ty id = t₁.flushAdjacency := by
    simp only [Txn.deferAdj, ht₁]
    split
    · exact .inr rfl
    · exact .inl rfl
  rcases hcases with heq | heq
  · refine ⟨?_, h.buffer, hadj, fun o => ?_, fun o x hx => ?_, ?_⟩
    · rw [heq]
      exact h.work
    · rw [heq, hside]
      exact (h.nodup o).append (nodup_singleton _) (by simpa using (hnotside o).1)
    · rw [heq] at hx ⊢
      rw [hside, mem_append, mem_singleton] at hx
      rcases hx with hx | rfl
      · exact h.disjoint o x hx
      · exact (hnotside o).2
    · rw [heq]
      simp [ht₁]
  · have hflushed := Txn.flushed_flushAdjacency t₁
    rw [← heq] at hflushed
    refine ⟨?_, h.buffer, hadj, fun o => ?_, fun o x hx => ?_, ?_⟩
    · rw [heq]
      exact h.work
    · rw [hflushed o]
      exact nodup_nil
    · rw [hflushed o] at hx
      cases hx
    · exact ⟨fun _ => hflushed false, fun _ => hflushed true⟩

/-- Writing the entries of a new edge in both transactions. -/
theorem appendAdj (h : BulkRel t t') {src dst : NodeId} {ty : TypeId} (props : Props)
    (hnew : ∀ o, EdgeRecord.entry o id ⟨src, dst, ty, props⟩ ∉ t.allEntries o) :
    BulkRel (t.appendAdj src dst ty id) (t'.appendAdj src dst ty id) := by
  refine ⟨h.work, h.buffer, fun o => ?_, h.nodup, fun o x hx => ?_, h.paired⟩
  · rw [Txn.allEntries_appendAdj src dst ty id props, ← h.adj]
    cases o <;> rfl
  · have hside : (t.appendAdj src dst ty id).adj.side o =
        insert (EdgeRecord.entry o id ⟨src, dst, ty, props⟩) (t.adj.side o) := by
      cases o <;> rfl
    rw [hside, Finset.mem_insert, not_or]
    refine ⟨fun heq => hnew o ?_, h.disjoint o x hx⟩
    rw [← heq, Txn.mem_allEntries]
    exact .inr hx

/-- An edge insertion has the same result and keeps the relation. -/
theorem addEdgeInner (h : BulkRel t t') (hs : t.Sound) (src dst : NodeId) (etype : String)
    (props : Props) :
    (Txn.addEdgeInner src dst etype props t').1 = (Txn.addEdgeInner src dst etype props t).1 ∧
      BulkRel (Txn.addEdgeInner src dst etype props t).2
        (Txn.addEdgeInner src dst etype props t').2 := by
  have hplain : t'.buffer.bulk = false := by rw [h.buffer]; rfl
  rcases hins : Working.insertEdge src dst etype props t.work with ⟨e | ⟨id, ty⟩, w⟩
  · have hrel := (h.onWork (Working.insertEdge src dst etype props)).2
    have ht : IssunDB.onWork (Working.insertEdge src dst etype props) t =
        (.error e, { t with work := w }) := by
      simp [IssunDB.onWork, Exec.zoom, hins]
    have ht' : IssunDB.onWork (Working.insertEdge src dst etype props) t' =
        (.error e, { t' with work := w }) := by
      simp [IssunDB.onWork, Exec.zoom, h.work, hins]
    rw [Txn.addEdgeInner, Exec.bind_apply_error ht, Exec.bind_apply_error ht']
    rw [ht, ht'] at hrel
    exact ⟨rfl, hrel⟩
  · have hrel := (h.onWork (Working.insertEdge src dst etype props)).2
    have ht : IssunDB.onWork (Working.insertEdge src dst etype props) t =
        (.ok (id, ty), { t with work := w }) := by
      simp [IssunDB.onWork, Exec.zoom, hins]
    have ht' : IssunDB.onWork (Working.insertEdge src dst etype props) t' =
        (.ok (id, ty), { t' with work := w }) := by
      simp [IssunDB.onWork, Exec.zoom, h.work, hins]
    rw [ht, ht'] at hrel
    rw [Txn.addEdgeInner, Exec.bind_apply_ok ht, Exec.bind_apply_ok ht']
    have hnew : t.work.tables.edges.get id = none := by
      obtain ⟨-, -, hid, -⟩ := Working.insertEdge_spec hs.work hins
      rw [hid]
      exact hs.work.edges.get_nextEdge
    have hfresh : ∀ o, EdgeRecord.entry o id ⟨src, dst, ty, props⟩ ∉ t.allEntries o := fun o =>
      entry_not_mem hs hnew o _
    have hadj : BulkRel
        (if t.buffer.bulk then Txn.deferAdj src dst ty id { t with work := w }
          else Txn.appendAdj src dst ty id { t with work := w })
        (Txn.appendAdj src dst ty id { t' with work := w }) := by
      split
      · exact hrel.deferAdj props hfresh
      · exact hrel.appendAdj props hfresh
    have hcount := (hadj.onWork (Exec.modify (Working.bumpTypeCount ty 1))).2
    refine ⟨rfl, ?_⟩
    change BulkRel _ (IssunDB.onWork (Exec.modify (Working.bumpTypeCount ty 1))
      (if t'.buffer.bulk then Txn.deferAdj src dst ty id { t' with work := w }
        else Txn.appendAdj src dst ty id { t' with work := w })).2
    rw [hplain]
    exact hcount

variable [TextLib]

/-- **Step.** Every mutation has the same result in both transactions and keeps them related,
also when it fails. -/
theorem exec (h : BulkRel t t') (hs : t.Sound) (m : Mutation) :
    (m.exec (m.prepare t')).1 = (m.exec (m.prepare t)).1 ∧
      BulkRel (m.exec (m.prepare t)).2 (m.exec (m.prepare t')).2 := by
  cases m with
  | addNode label props => exact h.onWork _
  | addNodeMulti labels props => exact h.onWork _
  | updateNode n props => exact h.onWork _
  | addLabel n label => exact h.onWork _
  | removeLabel n label => exact h.onWork _
  | deleteNode n =>
    have hrel : BulkRel { t with work := t.work.invalidateNodes }
        { t' with work := t'.work.invalidateNodes } :=
      ⟨congrArg Working.invalidateNodes h.work, h.buffer, h.adj, h.nodup, h.disjoint, h.paired⟩
    exact ⟨rfl, hrel.deleteNodeInner n⟩
  | addEdge src dst etype props => exact h.addEdgeInner hs src dst etype props
  | updateEdge id props => exact h.onWork _
  | deleteEdge id =>
    obtain ⟨hres, hrel⟩ := h.deleteEdgeInner id
    exact ⟨congrArg Except.ok hres, hrel⟩
  | putVectorBytes n bytes => exact h.onWork _
  | deleteVectorBytes n => exact h.onWork _
  | createNodeTextIndex label property lang => exact h.onWork _
  | dropNodeTextIndex label property => exact h.onWork _

end BulkRel

/-! ## Closures -/

/-- The closure without its calls of `begin_bulk_load`. -/
def Prog.withoutBulk {α : Type} : Prog α → Prog α
  | done result => done result
  | call .beginBulkLoad next => (next (.ok ())).withoutBulk
  | call (.mutation m) next => call (.mutation m) fun r => (next r).withoutBulk
  | call (.read r) next => call (.read r) fun v => (next v).withoutBulk

/-- Two open transactions in the same situation. -/
structure WriteTxn.Rel (w w' : WriteTxn) : Prop where
  txn : BulkRel w.txn w'.txn
  count : w'.mutationsCount = w.mutationsCount
  failed : w'.failed = w.failed
  delta : w'.delta = w.delta
  sound : w.failed = false → w.txn.Sound

section Closures

variable [TextLib]

/-- A mutation has the same result in both transactions. -/
theorem WriteTxn.Rel.mutation {w w' : WriteTxn} (h : Rel w w') (m : Mutation) :
    ((TxnOp.mutation m).exec w').1 = ((TxnOp.mutation m).exec w).1 ∧
      Rel ((TxnOp.mutation m).exec w).2 ((TxnOp.mutation m).exec w').2 := by
  simp only [TxnOp.exec, mutate, h.failed]
  by_cases hf : w.failed = true
  · rw [if_pos hf, if_pos hf]
    exact ⟨rfl, h⟩
  rw [if_neg hf, if_neg hf]
  have hsound := h.sound (by simpa using hf)
  obtain ⟨hres, hrel⟩ := h.txn.exec hsound m
  simp only [runMutation]
  rcases hexec : m.exec (m.prepare w.txn) with ⟨e | r, t⟩
  · rcases hexec' : m.exec (m.prepare w'.txn) with ⟨e' | r', t'⟩
    · rw [hexec, hexec'] at hres hrel
      obtain rfl := Except.error.inj hres
      exact ⟨rfl, hrel, h.count, rfl, h.delta, fun hfalse => by cases hfalse⟩
    · rw [hexec, hexec'] at hres
      cases hres
  · rcases hexec' : m.exec (m.prepare w'.txn) with ⟨e' | r', t'⟩
    · rw [hexec, hexec'] at hres
      cases hres
    · rw [hexec, hexec'] at hres hrel
      obtain rfl := Except.ok.inj hres
      refine ⟨rfl, hrel, ?_, rfl, ?_, fun _ => hsound.exec hexec⟩
      · change w'.mutationsCount + 1 = w.mutationsCount + 1
        rw [h.count]
      · change m.stage r' w'.delta = m.stage r' w.delta
        rw [h.delta]

def notBulk (c : Call) : Bool := c.1 ≠ .beginBulkLoad

/-- **Lockstep.** A closure and the closure without bulk loading get the same results and return
the same. -/
theorem Prog.run_withoutBulk {α : Type} (p : Prog α) {w w' : WriteTxn} (h : w.Rel w') :
    p.withoutBulk.calls w' = (p.calls w).filter notBulk ∧
      (p.withoutBulk.run w').1 = (p.run w).1 ∧ (p.run w).2.Rel (p.withoutBulk.run w').2 := by
  induction p generalizing w w' with
  | done result => exact ⟨rfl, rfl, h⟩
  | call op next ih =>
    cases op with
    | mutation m =>
      obtain ⟨hres, hrel⟩ := h.mutation m
      obtain ⟨h1, h2, h3⟩ := ih ((TxnOp.mutation m).exec w).1 hrel
      simp only [withoutBulk, calls, run, hres]
      rw [filter_cons_of_pos (by simp [notBulk]), h1]
      exact ⟨rfl, h2, h3⟩
    | read r =>
      have hres : w'.txn.read r = w.txn.read r := h.txn.read r
      obtain ⟨h1, h2, h3⟩ := ih (.ok (w.txn.read r)) h
      simp only [withoutBulk, calls, run, TxnOp.exec, hres]
      rw [filter_cons_of_pos (by simp [notBulk]), h1]
      exact ⟨rfl, h2, h3⟩
    | beginBulkLoad =>
      have hrel : WriteTxn.Rel { w with txn := w.txn.beginBulkLoad } w' :=
        ⟨h.txn.beginBulkLoad, h.count, h.failed, h.delta, fun hf =>
          ⟨(h.sound hf).work, (h.sound hf).lists, (h.sound hf).ends⟩⟩
      obtain ⟨h1, h2, h3⟩ := ih (.ok ()) hrel
      simp only [withoutBulk, calls, run, TxnOp.exec, Exec.modify_apply]
      rw [filter_cons_of_neg (by simp [notBulk])]
      exact ⟨h1, h2, h3⟩

end Closures

/-- Transactions in the same situation commit the same database. -/
theorem BulkRel.storage_flush {t t' : Txn} (h : BulkRel t t') :
    t'.flush.storage = t.flush.storage := by
  have hflush := h.flushAdjacency
  simp only [Txn.flush, Txn.storage, hflush]

namespace Graph

variable [TextLib]

/-- **Bulk-load transparency.** On every database that a run reaches, a closure that switches to
bulk-load mode at any points and the closure without these switches get the same result from
every other call, and the update returns the same and leaves the same graph. -/
theorem update_withoutBulk (actions : List Action) {α : Type} (p : Prog α)
    (commit : Except Error Unit) :
    p.withoutBulk.calls (.begin (run actions .empty).storage) =
        (p.calls (.begin (run actions .empty).storage)).filter notBulk ∧
      (run actions .empty).update commit p.withoutBulk = (run actions .empty).update commit p := by
  have hsound := sound_run actions
  set g := run actions .empty
  have hrel : WriteTxn.Rel (.begin g.storage) (.begin g.storage) :=
    ⟨BulkRel.begin _ _, rfl, rfl, rfl, fun _ => sound_invariant.begin_batch hsound⟩
  obtain ⟨hcalls, hres, hend⟩ := p.run_withoutBulk hrel
  refine ⟨hcalls, ?_⟩
  unfold update
  rcases hp : p.run (.begin g.storage) with ⟨r, w⟩
  rcases hp' : p.withoutBulk.run (.begin g.storage) with ⟨r', w'⟩
  rw [hp, hp'] at hres hend
  obtain rfl : r' = r := hres
  replace hend : w.Rel w' := hend
  cases r' with
  | error e => rfl
  | ok a =>
    simp only [hend.failed, hend.count, hend.delta, hend.txn.storage_flush]

end Graph

end IssunDB
