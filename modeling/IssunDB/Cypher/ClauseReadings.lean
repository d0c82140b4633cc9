import IssunDB.Cypher.Creation

/-!
# Two readings of a clause

The reading of a caller and that of the clause, step by step. A difference between them shows in the
elements that are added: a property has two values, or the caller adds a node too many.

* `compare_readings` — the readings are the same, or apart;
* `not_apart` — what is apart does not add the same elements;
* `counts_clause` — how many nodes and relationships a clause adds.
-/

namespace IssunDB.Cypher

open List Option

section Readings

variable {V V' : View} {R : Readers} {params callerParams : Params} {m : Threading} {row : PathMap}
  {s s' a b : Written}

namespace Written

lemma own_addNode (s : Written) (pat : NodePattern) (props : Props) (v : String) :
    (s.addNode pat props).own.get v =
      if pat.var = some v then some (.node s.nextNode) else s.own.get v := by
  unfold addNode bindNode
  cases pat.var with
  | none => rfl
  | some v' => simp only [Table.get_put, some.injEq, eq_comm]

lemma nodes_addNode (s : Written) (pat : NodePattern) (props : Props) (v : String) :
    (s.addNode pat props).nodes.get v =
      if pat.var = some v then some s.nextNode else s.nodes.get v := by
  unfold addNode bindNode
  cases pat.var with
  | none => rfl
  | some v' => simp only [Table.get_put, some.injEq, eq_comm]

lemma own_bindOther (s : Written) (v' : Option String) (b : GraphBinding) (v : String) :
    (s.bindOther v' b).own.get v = if v' = some v then some b else s.own.get v := by
  cases v' with
  | none => rfl
  | some v' => simp only [bindOther, Table.get_put, some.injEq, eq_comm]

lemma own_bindOther_node {v' : Option String} {b : GraphBinding} (hb : ∀ id, b ≠ .node id)
    {v : String} {id : NodeId} (h : (s.bindOther v' b).own.get v = some (.node id)) :
    s.own.get v = some (.node id) := by
  rw [own_bindOther] at h
  split at h
  next => exact absurd (some.inj h) (hb id)
  next => exact h

lemma own_addEdge_node {rel : RelationshipPattern} {props : Props} {v : String} {id : NodeId}
    (h : (s.addEdge rel props).own.get v = some (.node id)) : s.own.get v = some (.node id) :=
  own_bindOther_node (s := { s with
    pending := s.pending.recordEdge s.nextEdge (rel.ends s.previous s.current).1
      (rel.ends s.previous s.current).2 rel.typeName props
    nextEdge := s.nextEdge + 1
    elementIds := s.elementIds ++ [s.nextEdge, s.current]
    made := s.made ++ [.edge s.nextEdge (rel.ends s.previous s.current).1
      (rel.ends s.previous s.current).2 rel.typeName props] }) (fun _ h => by cases h) h

end Written

lemma closePattern_ok {pathVariable : Option String}
    (h : closePattern R m row s pathVariable = .ok a) :
    a.made = s.made ∧ a.nodes = s.nodes ∧ ∀ v id, a.own.get v = some (.node id) →
      s.own.get v = some (.node id) ∨ row.get v = some (.node id) := by
  have hnext : ∀ (x : Written) v id, (x.next m row).own.get v = some (.node id) →
      x.own.get v = some (.node id) ∨ row.get v = some (.node id) := by
    intro x v id hget
    change (if m.threads then x.own else row).get v = _ at hget
    split at hget
    next => exact .inl hget
    next => exact .inr hget
  cases pathVariable with
  | none =>
    obtain rfl := Except.ok.inj h
    exact ⟨rfl, rfl, hnext s⟩
  | some pv =>
    rw [closePattern] at h
    split at h
    next =>
      obtain ⟨value, -, h⟩ := bind_eq_ok h
      obtain rfl := Except.ok.inj h
      refine ⟨rfl, rfl, fun v id hget => (hnext _ v id hget).imp_left fun hget => ?_⟩
      exact Written.own_bindOther_node (fun _ h => by cases h)
        (Written.own_bindOther_node (fun _ h => by cases h) hget)
    next =>
      obtain rfl := Except.ok.inj h
      refine ⟨rfl, rfl, fun v id hget => (hnext _ v id hget).imp_left fun hget => ?_⟩
      exact Written.own_bindOther_node (fun _ h => by cases h) hget

variable {pat : NodePattern} {id : NodeId} {i : PatternStep} {v : String} {pats : List NodePattern}
  {done : List PatternStep}

/-- A node pattern that is placed drops no element. -/
theorem place_prefix (h : place V s pat = .ok (id, a)) :
    s.made <+: a.made := by
  rcases place_eq_ok h with ⟨-, rfl⟩ | ⟨props, -, -, -, rfl⟩
  · exact prefix_rfl
  · rw [(s.addNode_spec pat props).1]
    exact prefix_append ..

/-- No element that was added is dropped. -/
theorem made_takeStep (h : takeStep V R m row s i = .ok a) : s.made <+: a.made := by
  cases i with
  | seed pat | target pat =>
    obtain ⟨⟨id, x⟩, hx, h⟩ := bind_eq_ok h
    obtain rfl := Except.ok.inj h
    have hplace := place_prefix hx
    exact hplace
  | rel rel =>
    obtain ⟨props, -, h⟩ := bind_eq_ok h
    obtain rfl := Except.ok.inj h
    rw [(s.addEdge_spec rel props).1]
    exact prefix_append ..
  | close pathVariable =>
    rw [(closePattern_ok h).1]

lemma made_takeSteps (steps : List PatternStep)
    (h : steps.foldlM (takeStep V R m row) s = .ok a) : s.made <+: a.made := by
  induction steps generalizing s with
  | nil =>
    obtain rfl := Except.ok.inj h
    exact prefix_rfl
  | cons i steps ih =>
    obtain ⟨x, hx, hrest⟩ := PairedRuns.foldlM_cons_ok h
    exact (made_takeStep hx).trans (ih hrest)

lemma takeStep_weaken (hfind : ∀ s v r, V.find s v = .ok r → V'.find s v = .ok r)
    (heval : ∀ s props r, V.eval s props = .ok r → V'.eval s props = .ok r)
    (h : takeStep V R m row s i = .ok a) : takeStep V' R m row s i = .ok a := by
  have hplace : ∀ {pat r}, place V s pat = .ok r → place V' s pat = .ok r := by
    intro pat r hplace
    obtain ⟨id, x⟩ := r
    rcases place_eq_ok hplace with ⟨hfound, rfl⟩ | ⟨props, hnew, hprops, rfl, rfl⟩
    · exact place_of_found (hfind _ _ _ hfound)
    · exact place_of_new (hfind _ _ _ hnew) (heval _ _ _ hprops)
  cases i with
  | seed pat | target pat =>
    obtain ⟨r, hr, h⟩ := bind_eq_ok h
    rw [takeStep, hplace hr]
    exact h
  | rel rel =>
    obtain ⟨props, hprops, h⟩ := bind_eq_ok h
    rw [takeStep, heval _ _ _ hprops]
    exact h
  | close pathVariable => exact h

/-! ## What a variable denotes -/

/-- The nodes of a clause and of its row are told apart, and its caller knows none besides. -/
structure Fits (row : PathMap) (s : Written) : Prop where
  own : ∀ v id, s.own.get v = some (.node id) →
    s.nodes.get v = some id ∨ (s.nodes.get v = none ∧ row.get v = some (.node id))
  unbound : ∀ v, (s.nodes.get v).isSome → row.get v = none

/-- A caller knows no node variable that is not one of the clause or of its row. -/
def Known (row : PathMap) (s s' : Written) : Prop :=
  ∀ v id, s.own.get v = some (.node id) →
    (s'.nodes.get v).isSome ∨ ∃ id', row.get v = some (.node id')

lemma Fits.known (h : Fits row s) : Known row s s := by
  intro v id hget
  rcases h.own v id hget with hnode | ⟨-, hrow⟩
  · exact .inl (isSome_of_eq_some hnode)
  · exact .inr ⟨id, hrow⟩

lemma Fits.start (row : PathMap) (o : PendingWrites) (t : Txn) : Fits row (.start row o t) where
  own _ _ hget := .inr ⟨rfl, hget⟩
  unbound _ h := by cases h

lemma boundNode_eq_some {path : PathMap} {v : Option String} (h : boundNode path v = some id) :
    ∃ v', v = some v' ∧ path.get v' = some (.node id) := by
  cases v with
  | none => cases h
  | some v =>
    refine ⟨v, rfl, ?_⟩
    unfold boundNode at h
    split at h
    next id' hget =>
      obtain rfl := some.inj h
      exact hget
    next => cases h

lemma denotedNode_eq_none {nodes : Table String NodeId} (h : denotedNode row nodes v = .ok none) :
    nodes.get v = none ∧ row.get v = none := by
  unfold denotedNode at h
  split at h
  next => cases h
  next => cases h
  next => cases h
  next hnode hrow => exact ⟨hnode, hrow⟩

lemma denotedNode_eq_some {nodes : Table String NodeId}
    (h : denotedNode row nodes v = .ok (some id)) :
    nodes.get v = some id ∨ row.get v = some (.node id) := by
  unfold denotedNode at h
  split at h
  next hnode =>
    obtain rfl := some.inj (Except.ok.inj h)
    exact .inl hnode
  next hrow =>
    obtain rfl := some.inj (Except.ok.inj h)
    exact .inr hrow
  next => cases h
  next => cases h

/-- A node that a caller knows is the node its variable denotes. -/
theorem Fits.denoted (h : Fits row s) (hget : s.own.get v = some (.node id)) :
    denotedNode row s.nodes v = .ok (some id) := by
  unfold denotedNode
  rcases h.own v id hget with hnode | ⟨hnode, hrow⟩
  · rw [hnode]
  · rw [hnode, hrow]

lemma Fits.addNode (h : Fits row s) (props : Props)
    (hnew : ∀ v, pat.var = some v → row.get v = none) : Fits row (s.addNode pat props) where
  own v id hget := by
    rw [Written.own_addNode] at hget
    rw [Written.nodes_addNode]
    split at hget
    next hv =>
      rw [if_pos hv]
      exact .inl (congrArg some (GraphBinding.node.inj (some.inj hget)))
    next hv =>
      rw [if_neg hv]
      exact h.own v id hget
  unbound v hsome := by
    rw [Written.nodes_addNode] at hsome
    split at hsome
    next hv => exact hnew v hv
    next => exact h.unbound v hsome

lemma Fits.addEdge (h : Fits row s) (rel : RelationshipPattern) (props : Props) :
    Fits row (s.addEdge rel props) where
  own v id hget := by
    rw [(s.addEdge_spec rel props).2.2.2.1]
    exact h.own v id (Written.own_addEdge_node hget)
  unbound v := by
    rw [(s.addEdge_spec rel props).2.2.2.1]
    exact h.unbound v

lemma Fits.closePattern (h : Fits row s) {pathVariable : Option String}
    (hclose : closePattern R m row s pathVariable = .ok a) : Fits row a := by
  obtain ⟨-, hnodes, hown⟩ := closePattern_ok hclose
  refine ⟨fun v id hget => ?_, fun v => hnodes ▸ h.unbound v⟩
  rw [hnodes]
  rcases hown v id hget with hget | hrow
  · exact h.own v id hget
  · -- the row binds the variable, so it is none of the clause
    refine .inr ⟨not_isSome_iff_eq_none.mp fun hsome => ?_, hrow⟩
    cases (h.unbound v hsome).symm.trans hrow

/-! ## Differences -/

def Written.nodeCount (s : Written) : ℕ := (s.made.filterMap Element.nodeId).length

lemma Written.nodeCount_addNode (s : Written) (pat : NodePattern) (props : Props) :
    (s.addNode pat props).nodeCount = s.nodeCount + 1 := by
  rw [nodeCount, (s.addNode_spec pat props).1, filterMap_append, length_append]
  rfl

lemma Written.nodeCount_addEdge (s : Written) (rel : RelationshipPattern) (props : Props) :
    (s.addEdge rel props).nodeCount = s.nodeCount := by
  rw [nodeCount, (s.addEdge_spec rel props).1, filterMap_append, length_append]
  rfl

/-- The states of two readings differ in what has been added. -/
inductive Apart (row : PathMap) (s s' : Written) : Prop where
  /-- A node has two values of its properties. -/
  | node {id : NodeId} {labels labels' : List String} {props props' : Props}
    (h : .node id labels props ∈ s.made) (h' : .node id labels' props' ∈ s'.made)
    (hne : props ≠ props')
  /-- A relationship has two values of its properties. -/
  | edge {id : EdgeId} {src dst src' dst' : NodeId} {etype etype' : String} {props props' : Props}
    (h : .edge id src dst etype props ∈ s.made)
    (h' : .edge id src' dst' etype' props' ∈ s'.made) (hne : props ≠ props')
  /-- The first reading has added a node too many, and knows no variable that would spare it one. -/
  | count (hknown : Known row s s') (hlt : s'.nodeCount < s.nodeCount)

/-- What is apart does not depend on the place a reading has come to. -/
theorem Apart.congr {a' b' : Written} (h : Apart row a b) (hmade : a'.made = a.made)
    (hmade' : b'.made = b.made) (hown : a'.own = a.own) (hnodes : b'.nodes = b.nodes) :
    Apart row a' b' := by
  rcases h with ⟨hnode, hnode', hne⟩ | ⟨hedge, hedge', hne⟩ | ⟨hknown, hlt⟩
  · exact .node (hmade ▸ hnode) (hmade' ▸ hnode') hne
  · exact .edge (hmade ▸ hedge) (hmade' ▸ hedge') hne
  · refine .count ?_ ?_
    · rw [Known, hown, hnodes]
      exact hknown
    · rwa [Written.nodeCount, Written.nodeCount, hmade, hmade']

/-- **What is apart does not add the same elements.** -/
theorem not_apart {t t' : Txn} (h : Adds s.made t t') (h' : Adds s'.made t t') :
    ¬Apart row s s' := by
  rintro (⟨hnode, hnode', hne⟩ | ⟨hedge, hedge', hne⟩ | ⟨-, hlt⟩)
  · obtain ⟨-, r, hget, hprops, -⟩ := h.newNodes _ _ _ hnode
    obtain ⟨-, r', hget', hprops', -⟩ := h'.newNodes _ _ _ hnode'
    obtain rfl := some.inj (hget.symm.trans hget')
    exact hne (hprops.symm.trans hprops')
  · obtain ⟨-, r, hget, -, -, hprops, -⟩ := h.newEdges _ _ _ _ _ hedge
    obtain ⟨-, r', hget', -, -, hprops', -⟩ := h'.newEdges _ _ _ _ _ hedge'
    obtain rfl := some.inj (hget.symm.trans hget')
    exact hne (hprops.symm.trans hprops')
  · exact absurd (h.length_nodeIds h') (Nat.ne_of_gt hlt)

/-- Of two readings that place a node pattern, the one that knows more adds no more nodes. -/
theorem Known.place (h : Known row s s') {x y : NodeId}
    (ha : place (callerView R callerParams) s pat = .ok (x, a))
    (hb : place (clauseView R params row) s' pat = .ok (y, b)) :
    Known row a b ∧ (s'.nodeCount < s.nodeCount → b.nodeCount < a.nodeCount) := by
  rcases place_eq_ok hb with ⟨hfound, rfl⟩ | ⟨props', hnew, -, -, rfl⟩
  · rcases place_eq_ok ha with ⟨-, rfl⟩ | ⟨props, -, -, -, rfl⟩
    · exact ⟨h, id⟩
    · -- the caller adds a node for a variable that has one
      refine ⟨fun v id hget => ?_, fun hlt => ?_⟩
      · rw [Written.own_addNode] at hget
        split at hget
        next hv =>
          rw [hv] at hfound
          rcases denotedNode_eq_some hfound with hnode | hrow
          · exact .inl (isSome_of_eq_some hnode)
          · exact .inr ⟨_, hrow⟩
        next => exact h v id hget
      · rw [Written.nodeCount_addNode]
        exact hlt.trans (Nat.lt_succ_self _)
  · have hkept : ∀ v, (s'.nodes.get v).isSome → ((s'.addNode pat props').nodes.get v).isSome := by
      intro v hsome
      rw [Written.nodes_addNode]
      split
      · rfl
      · exact hsome
    rcases place_eq_ok ha with ⟨hfound, rfl⟩ | ⟨props, -, -, -, rfl⟩
    · -- a variable that the caller knows denotes a node
      exfalso
      obtain ⟨v, hv, hget⟩ := boundNode_eq_some (Except.ok.inj hfound)
      rw [hv] at hnew
      obtain ⟨hnode, hrow⟩ := denotedNode_eq_none hnew
      rcases h v _ hget with hsome | ⟨id', hrow'⟩
      · rw [hnode] at hsome
        cases hsome
      · cases hrow.symm.trans hrow'
    · refine ⟨fun v id hget => ?_, fun hlt => ?_⟩
      · rw [Written.own_addNode] at hget
        split at hget
        next hv =>
          left
          rw [Written.nodes_addNode, if_pos hv]
          rfl
        next => exact (h v id hget).imp_left (hkept v)
      · rw [Written.nodeCount_addNode, Written.nodeCount_addNode]
        exact Nat.succ_lt_succ hlt

lemma Apart.takeStep (h : Apart row s s')
    (ha : takeStep (callerView R callerParams) R m row s i = .ok a)
    (hb : takeStep (clauseView R params row) R m row s' i = .ok b) : Apart row a b := by
  rcases h with ⟨hnode, hnode', hne⟩ | ⟨hedge, hedge', hne⟩ | ⟨hknown, hlt⟩
  · exact .node ((made_takeStep ha).subset hnode) ((made_takeStep hb).subset hnode') hne
  · exact .edge ((made_takeStep ha).subset hedge) ((made_takeStep hb).subset hedge') hne
  · cases i with
    | seed pat | target pat =>
      obtain ⟨⟨x, a⟩, hx, ha⟩ := bind_eq_ok ha
      obtain ⟨⟨y, b⟩, hy, hb⟩ := bind_eq_ok hb
      obtain rfl := Except.ok.inj ha
      obtain rfl := Except.ok.inj hb
      obtain ⟨hknown', hcount⟩ := hknown.place hx hy
      exact .count hknown' (hcount hlt)
    | rel rel =>
      obtain ⟨props, -, ha⟩ := bind_eq_ok ha
      obtain ⟨props', -, hb⟩ := bind_eq_ok hb
      obtain rfl := Except.ok.inj ha
      obtain rfl := Except.ok.inj hb
      refine .count (fun v id hget => ?_) ?_
      · rw [(s'.addEdge_spec rel props').2.2.2.1]
        exact hknown v id (Written.own_addEdge_node hget)
      · rwa [Written.nodeCount_addEdge, Written.nodeCount_addEdge]
    | close pathVariable =>
      obtain ⟨hmade, -, hown⟩ := closePattern_ok ha
      obtain ⟨hmade', hnodes', -⟩ := closePattern_ok hb
      refine .count (fun v id hget => ?_) ?_
      · rw [hnodes']
        exact (hown v id hget).elim (hknown v id) fun hrow => .inr ⟨id, hrow⟩
      · rwa [Written.nodeCount, Written.nodeCount, hmade, hmade']

/-! ## The comparison -/

/-- What is compared gives what both sides give. -/
theorem compare_eq_ok {α : Type} [DecidableEq α] {x y : Except String α} {text : String} {r : α} :
    (do let a ← x; let b ← y; if a = b then .ok a else .error text) = Except.ok r ↔
      x = .ok r ∧ y = .ok r := by
  constructor
  · intro h
    obtain ⟨a, hx, h⟩ := bind_eq_ok h
    obtain ⟨b, hy, h⟩ := bind_eq_ok h
    split at h
    next hab =>
      obtain rfl := Except.ok.inj h
      exact ⟨hx, hab ▸ hy⟩
    next => cases h
  · rintro ⟨rfl, rfl⟩
    exact if_pos rfl

lemma compared_find {v : Option String} {r : Option NodeId} :
    (V.compared V').find s v = .ok r ↔ V.find s v = .ok r ∧ V'.find s v = .ok r := compare_eq_ok

lemma compared_eval {props : Option (List (String × Expr))} {r : Props} :
    (V.compared V').eval s props = .ok r ↔ V.eval s props = .ok r ∧ V'.eval s props = .ok r :=
  compare_eq_ok

lemma readings_of_compared {steps : List PatternStep}
    (h : steps.foldlM (Cypher.takeStep (V.compared V') R m row) s = .ok a) :
    steps.foldlM (Cypher.takeStep V R m row) s = .ok a ∧
      steps.foldlM (Cypher.takeStep V' R m row) s = .ok a :=
  ⟨PairedRuns.foldlM_weaken (fun _ _ _ hstep => takeStep_weaken
      (fun _ _ _ hfind => (compared_find.mp hfind).1)
      (fun _ _ _ heval => (compared_eval.mp heval).1) hstep) h,
    PairedRuns.foldlM_weaken (fun _ _ _ hstep => takeStep_weaken
      (fun _ _ _ hfind => (compared_find.mp hfind).2)
      (fun _ _ _ heval => (compared_eval.mp heval).2) hstep) h⟩

lemma Fits.place (h : Fits row s) {x y : NodeId}
    (ha : place (callerView R callerParams) s pat = .ok (x, a))
    (hb : place (clauseView R params row) s pat = .ok (y, b)) :
    (place ((callerView R callerParams).compared (clauseView R params row)) s pat = .ok (x, a) ∧
      x = y ∧ a = b ∧ Fits row a) ∨ Apart row a b := by
  rcases place_eq_ok ha with ⟨hfound, rfl⟩ | ⟨props, hnew, hprops, rfl, rfl⟩
  · obtain ⟨v, hv, hget⟩ := boundNode_eq_some (Except.ok.inj hfound)
    have hdenoted : (clauseView R params row).find a pat.var = .ok (some x) := by
      rw [hv]
      exact h.denoted hget
    rw [place_of_found hdenoted] at hb
    obtain ⟨rfl, rfl⟩ := Prod.mk.injEq .. ▸ Except.ok.inj hb
    exact .inl ⟨place_of_found (compared_find.mpr ⟨hfound, hdenoted⟩), rfl, rfl, h⟩
  · rcases place_eq_ok hb with ⟨hfound, rfl⟩ | ⟨props', hnew', hprops', rfl, rfl⟩
    · -- the caller adds a node for a variable that has one
      refine .inr (.count (h.known.place ha hb).1 ?_)
      rw [Written.nodeCount_addNode]
      exact Nat.lt_succ_self _
    · by_cases hne : props = props'
      · subst hne
        refine .inl ⟨place_of_new (compared_find.mpr ⟨hnew, hnew'⟩)
          (compared_eval.mpr ⟨hprops, hprops'⟩), rfl, rfl, h.addNode props fun v hv => ?_⟩
        rw [hv] at hnew'
        exact (denotedNode_eq_none hnew').2
      · have hlast : ∀ props,
            .node s.nextNode pat.labels props ∈ (s.addNode pat props).made := by
          intro props
          rw [(s.addNode_spec pat props).1]
          exact mem_append_right _ (mem_singleton_self _)
        exact .inr (.node (hlast props) (hlast props') hne)

lemma Fits.takeStep (h : Fits row s)
    (ha : takeStep (callerView R callerParams) R m row s i = .ok a)
    (hb : takeStep (clauseView R params row) R m row s i = .ok b) :
    (takeStep ((callerView R callerParams).compared (clauseView R params row)) R m row s i = .ok a ∧
      a = b ∧ Fits row a) ∨ Apart row a b := by
  cases i with
  | seed pat | target pat =>
    obtain ⟨⟨x, a⟩, hx, ha⟩ := bind_eq_ok ha
    obtain ⟨⟨y, b⟩, hy, hb⟩ := bind_eq_ok hb
    obtain rfl := Except.ok.inj ha
    obtain rfl := Except.ok.inj hb
    rcases h.place hx hy with ⟨hplace, rfl, rfl, hfits⟩ | hapart
    · refine .inl ⟨?_, rfl, hfits.own, hfits.unbound⟩
      rw [Cypher.takeStep, hplace]
      rfl
    · exact .inr (hapart.congr rfl rfl rfl rfl)
  | rel rel =>
    obtain ⟨props, hprops, ha⟩ := bind_eq_ok ha
    obtain ⟨props', hprops', hb⟩ := bind_eq_ok hb
    obtain rfl := Except.ok.inj ha
    obtain rfl := Except.ok.inj hb
    by_cases hne : props = props'
    · subst hne
      refine .inl ⟨?_, rfl, h.addEdge rel props⟩
      rw [Cypher.takeStep, compared_eval.mpr ⟨hprops, hprops'⟩]
      rfl
    · have hlast : ∀ props, .edge s.nextEdge (rel.ends s.previous s.current).1
          (rel.ends s.previous s.current).2 rel.typeName props ∈ (s.addEdge rel props).made := by
        intro props
        rw [(s.addEdge_spec rel props).1]
        exact mem_append_right _ (mem_singleton_self _)
      exact .inr (.edge (hlast props) (hlast props') hne)
  | close pathVariable =>
    obtain rfl := Except.ok.inj (Eq.trans (Eq.symm ha) hb)
    exact .inl ⟨ha, rfl, h.closePattern ha⟩

/-- **The readings of a clause are the same, or they add different elements.** -/
theorem compare_readings {steps : List PatternStep} (h : Fits row s)
    (ha : steps.foldlM (Cypher.takeStep (callerView R callerParams) R m row) s = .ok a)
    (hb : steps.foldlM (Cypher.takeStep (clauseView R params row) R m row) s = .ok b) :
    steps.foldlM (Cypher.takeStep ((callerView R callerParams).compared (clauseView R params row))
      R m row) s = .ok a ∨ Apart row a b :=
  PairedRuns.foldlM_compare (fun _ _ _ _ hfits ha hb => hfits.takeStep ha hb)
    (fun _ _ _ _ _ hapart ha hb => hapart.takeStep ha hb) h ha hb

/-! ## The number of elements -/

def PatternStep.nodePattern : PatternStep → Option NodePattern
  | .seed pat | .target pat => some pat
  | _ => none

def PatternStep.relPattern : PatternStep → Option RelationshipPattern
  | .rel r => some r
  | _ => none

/-- The node variables of some node patterns that a row does not bind. -/
def newVariables (row : PathMap) (pats : List NodePattern) : Finset String :=
  (pats.filterMap NodePattern.var).toFinset.filter fun v => row.get v = none

/-- The number of node patterns without a variable. -/
def anonymousNodes (pats : List NodePattern) : ℕ := pats.countP fun pat => pat.var.isNone

lemma mem_newVariables :
    v ∈ newVariables row pats ↔ (∃ pat ∈ pats, pat.var = some v) ∧ row.get v = none := by
  simp only [newVariables, Finset.mem_filter, List.mem_toFinset, mem_filterMap]

lemma anonymousNodes_append (pats : List NodePattern) (pat : NodePattern) :
    anonymousNodes (pats ++ [pat]) = anonymousNodes pats + if pat.var.isNone then 1 else 0 := by
  unfold anonymousNodes
  rw [countP_append, countP_singleton]

/-- The elements that steps have added. -/
structure Counts (row : PathMap) (done : List PatternStep) (s : Written) : Prop where
  vars : ∀ v, (s.nodes.get v).isSome ↔ v ∈ newVariables row (done.filterMap PatternStep.nodePattern)
  nodes : s.nodeCount = (newVariables row (done.filterMap PatternStep.nodePattern)).card +
    anonymousNodes (done.filterMap PatternStep.nodePattern)
  edges : (s.made.filterMap Element.edgeId).length = (done.filterMap PatternStep.relPattern).length

lemma mem_newVariables_append :
    v ∈ newVariables row (pats ++ [pat]) ↔
      v ∈ newVariables row pats ∨ (pat.var = some v ∧ row.get v = none) := by
  rw [mem_newVariables, mem_newVariables, ← or_and_right]
  simp only [mem_append, mem_singleton, or_and_right, exists_or, exists_eq_left]

lemma newVariables_append_of_found (pats : List NodePattern)
    (h : ∀ v, pat.var = some v → row.get v = none → v ∈ newVariables row pats) :
    newVariables row (pats ++ [pat]) = newVariables row pats := by
  ext v
  rw [mem_newVariables_append]
  exact or_iff_left_of_imp fun ⟨hv, hrow⟩ => h v hv hrow

lemma newVariables_append_of_new (hv : pat.var = some v) (hrow : row.get v = none) :
    newVariables row (pats ++ [pat]) = insert v (newVariables row pats) := by
  ext x
  rw [mem_newVariables_append, Finset.mem_insert, or_comm, hv, some.injEq]
  exact or_congr_left ⟨fun h => h.1.symm, fun h => ⟨h.symm, h ▸ hrow⟩⟩

lemma Counts.start (row : PathMap) (o : PendingWrites) (t : Txn) :
    Counts row [] (.start row o t) where
  vars _ := iff_of_false (fun h => nomatch h) fun h => nomatch (mem_newVariables.mp h).1
  nodes := rfl
  edges := rfl

lemma Counts.congr (h : Counts row done a) (hnodes : b.nodes = a.nodes) (hmade : b.made = a.made) :
    Counts row done b where
  vars v := hnodes ▸ h.vars v
  nodes := (congrArg (List.length ∘ List.filterMap Element.nodeId) hmade).trans h.nodes
  edges := hmade ▸ h.edges

lemma Counts.place (h : Counts row done s) (hnode : i.nodePattern = some pat)
    (hrel : i.relPattern = none) (hplace : place (clauseView R params row) s pat = .ok (id, a)) :
    Counts row (done ++ [i]) a := by
  have hnodes : (done ++ [i]).filterMap PatternStep.nodePattern =
      done.filterMap PatternStep.nodePattern ++ [pat] := by
    rw [filterMap_append, filterMap_cons_some hnode, filterMap_nil]
  have hrels : (done ++ [i]).filterMap PatternStep.relPattern =
      done.filterMap PatternStep.relPattern := by
    rw [filterMap_append, filterMap_cons_none hrel, filterMap_nil, append_nil]
  rcases place_eq_ok hplace with ⟨hfound, rfl⟩ | ⟨props, hnew, -, -, rfl⟩
  · -- the variable denotes a node, so it is not new
    cases hv : pat.var with
    | none =>
      rw [hv] at hfound
      cases hfound
    | some v =>
      rw [hv] at hfound
      have hsame := newVariables_append_of_found (done.filterMap PatternStep.nodePattern)
        fun v' (hv' : pat.var = _) (hrow : row.get _ = _) => by
          obtain rfl := some.inj (hv.symm.trans hv')
          rcases denotedNode_eq_some hfound with hget | hget
          · exact (h.vars v).mp (isSome_of_eq_some hget)
          · cases hrow.symm.trans hget
      refine ⟨fun v' => ?_, ?_, ?_⟩
      · rw [hnodes, hsame]
        exact h.vars v'
      · rw [hnodes, hsame, anonymousNodes_append, hv]
        exact h.nodes
      · rw [hrels]
        exact h.edges
  · have hedges : ((s.addNode pat props).made.filterMap Element.edgeId).length =
        (s.made.filterMap Element.edgeId).length := by
      rw [(s.addNode_spec pat props).1, filterMap_append]
      exact congrArg List.length (append_nil _)
    refine ⟨fun v' => ?_, ?_, ?_⟩
    · rw [hnodes, Written.nodes_addNode, mem_newVariables_append, ← h.vars]
      by_cases hv' : pat.var = some v'
      · rw [hv'] at hnew
        rw [if_pos hv']
        exact iff_of_true rfl (.inr ⟨hv', (denotedNode_eq_none hnew).2⟩)
      · rw [if_neg hv']
        exact (or_iff_left fun hx => hv' hx.1).symm
    · rw [Written.nodeCount_addNode, h.nodes, hnodes, anonymousNodes_append]
      cases hv : pat.var with
      | none =>
        rw [newVariables_append_of_found _ fun v hv' => nomatch hv.symm.trans hv']
        rfl
      | some v =>
        rw [hv] at hnew
        obtain ⟨hget, hrow⟩ := denotedNode_eq_none hnew
        have hout : v ∉ newVariables row (done.filterMap PatternStep.nodePattern) := by
          rw [← h.vars, hget]
          exact Bool.false_ne_true
        rw [newVariables_append_of_new hv hrow, Finset.card_insert_of_notMem hout]
        exact Nat.add_right_comm ..
    · rw [hrels, hedges]
      exact h.edges

lemma Counts.takeStep (h : Counts row done s)
    (hstep : takeStep (clauseView R params row) R m row s i = .ok a) :
    Counts row (done ++ [i]) a := by
  cases i with
  | seed pat | target pat =>
    obtain ⟨⟨id, x⟩, hx, hstep⟩ := bind_eq_ok hstep
    obtain rfl := Except.ok.inj hstep
    exact (h.place rfl rfl hx).congr rfl rfl
  | rel rel =>
    obtain ⟨props, -, hstep⟩ := bind_eq_ok hstep
    obtain rfl := Except.ok.inj hstep
    have hnodes : (done ++ [PatternStep.rel rel]).filterMap PatternStep.nodePattern =
        done.filterMap PatternStep.nodePattern := by
      rw [filterMap_append]
      exact append_nil _
    refine ⟨fun v => ?_, ?_, ?_⟩
    · rw [hnodes, (s.addEdge_spec rel props).2.2.2.1]
      exact h.vars v
    · rw [hnodes, Written.nodeCount_addEdge]
      exact h.nodes
    · rw [(s.addEdge_spec rel props).1, filterMap_append, filterMap_append, length_append,
        length_append, h.edges]
      rfl
  | close pathVariable =>
    obtain ⟨hmade, hnodes, -⟩ := closePattern_ok hstep
    have hsame : (done ++ [PatternStep.close pathVariable]).filterMap PatternStep.nodePattern =
        done.filterMap PatternStep.nodePattern := by
      rw [filterMap_append]
      exact append_nil _
    refine ⟨fun v => ?_, ?_, ?_⟩
    · rw [hsame, hnodes]
      exact h.vars v
    · rw [hsame, Written.nodeCount, hmade]
      exact h.nodes
    · rw [hmade, filterMap_append]
      exact h.edges.trans (congrArg List.length (append_nil _).symm)

def clauseNodes (patterns : List Pattern) : List NodePattern :=
  patterns.flatMap fun p => p.node :: p.rels.map Prod.snd

def clauseRels (patterns : List Pattern) : List RelationshipPattern :=
  patterns.flatMap fun p => p.rels.map Prod.fst

lemma filterMap_hopSteps (hops : List (RelationshipPattern × NodePattern)) :
    (hopSteps hops).filterMap PatternStep.nodePattern = hops.map Prod.snd ∧
      (hopSteps hops).filterMap PatternStep.relPattern = hops.map Prod.fst := by
  induction hops with
  | nil => exact ⟨rfl, rfl⟩
  | cons hop hops ih => exact ⟨congrArg (hop.2 :: ·) ih.1, congrArg (hop.1 :: ·) ih.2⟩

lemma filterMap_clauseSteps (patterns : List Pattern) :
    (clauseSteps patterns).filterMap PatternStep.nodePattern = clauseNodes patterns ∧
      (clauseSteps patterns).filterMap PatternStep.relPattern = clauseRels patterns := by
  unfold clauseSteps clauseNodes clauseRels
  rw [filterMap_flatMap, filterMap_flatMap]
  refine ⟨congrArg (List.flatMap · patterns) (funext fun p => ?_),
    congrArg (List.flatMap · patterns) (funext fun p => ?_)⟩
  · show p.node :: (hopSteps p.rels ++ [PatternStep.close p.pathVariable]).filterMap _ = _
    rw [filterMap_append, (filterMap_hopSteps p.rels).1]
    exact congrArg (p.node :: ·) (append_nil _)
  · show (hopSteps p.rels ++ [PatternStep.close p.pathVariable]).filterMap _ = _
    rw [filterMap_append, (filterMap_hopSteps p.rels).2]
    exact append_nil _

/-- **How many elements a clause adds** for a row: a node for each new variable and for each node
pattern without one, and a relationship for each relationship pattern. -/
theorem counts_clause {patterns : List Pattern} {o : PendingWrites} {t : Txn}
    (h : (clauseSteps patterns).foldlM (takeStep (clauseView R params row) R m row)
      (.start row o t) =
      .ok a) :
    (a.made.filterMap Element.nodeId).length =
        (newVariables row (clauseNodes patterns)).card + anonymousNodes (clauseNodes patterns) ∧
      (a.made.filterMap Element.edgeId).length = (clauseRels patterns).length := by
  have hcounts : Counts row ([] ++ clauseSteps patterns) a :=
    PairedRuns.foldlM_invariant (I := Counts row) (fun _ _ _ _ hs hstep => hs.takeStep hstep)
      (Counts.start row o t) h
  rw [nil_append] at hcounts
  obtain ⟨hnodes, hrels⟩ := filterMap_clauseSteps patterns
  exact ⟨hnodes ▸ hcounts.nodes, hrels ▸ hcounts.edges⟩

end Readings

end IssunDB.Cypher
