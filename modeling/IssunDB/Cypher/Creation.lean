import IssunDB.Cypher.CreatePattern
import IssunDB.Cypher.Deletion
import IssunDB.Lib.PairedRuns
import IssunDB.Names

/-!
# What a `CREATE` adds

What a clause is to add for a row (`Creates`): a node for each of its variables that the row leaves
unbound, a node for each node pattern without a variable, a relationship for each relationship
pattern between the nodes the variables denote, and nothing else.

The patterns of a clause are read as one list of steps. The clause and its callers read the steps
alike, but for what a variable denotes and in which bindings the properties are evaluated: the
clause has the bindings of all its patterns (`clauseView`), a caller those that it hands to the
pattern (`callerView`). A caller creates what the clause says iff the two never differ.

* `Adds.trans`, `Adds.mem_nodeIds` — additions in a row, and which nodes are added;
* `Creates`, `SameReading` — what a clause says, and when a caller reads it as it is meant;
* `adds_addNodeMulti`, `adds_addEdge` — the two operations of a transaction that add elements.
-/

namespace IssunDB.Cypher

open List Option

/-! ## Steps -/

/-- An element that a clause adds. -/
inductive Element where
  | node (id : NodeId) (labels : List String) (props : Props)
  | edge (id : EdgeId) (src dst : NodeId) (etype : String) (props : Props)

/-- A step of a clause. -/
inductive PatternStep where
  /-- The first node of a pattern. -/
  | seed (pat : NodePattern)
  /-- The next node. -/
  | target (pat : NodePattern)
  /-- The relationship to the node placed last. -/
  | rel (rel : RelationshipPattern)
  /-- The end of a pattern. -/
  | close (pathVariable : Option String)

def hopSteps (hops : List (RelationshipPattern × NodePattern)) : List PatternStep :=
  hops.flatMap fun hop => [.target hop.2, .rel hop.1]

def Pattern.steps (p : Pattern) : List PatternStep :=
  .seed p.node :: (hopSteps p.rels ++ [.close p.pathVariable])

def clauseSteps (patterns : List Pattern) : List PatternStep := patterns.flatMap Pattern.steps

/-- How far a clause has been written. -/
structure Written where
  /-- The node variables of the clause. -/
  nodes : Table String NodeId
  /-- The row with all bindings of the clause. -/
  path : PathMap
  /-- The bindings that the pattern is written with. -/
  own : PathMap
  pending : PendingWrites
  nextNode : NodeId
  nextEdge : EdgeId
  /-- The node before the last. -/
  previous : NodeId
  /-- The last node. -/
  current : NodeId
  /-- The elements of the pattern. -/
  elementIds : List ℕ
  /-- The elements added. -/
  made : List Element

def Written.start (row : PathMap) (o : PendingWrites) (t : Txn) : Written :=
  ⟨.empty, row, row, o, t.work.nextNode, t.work.nextEdge, 0, 0, [], []⟩

/-- How the patterns of a clause are read. -/
structure View where
  /-- The node of a node pattern, unless it is to be created. -/
  find : Written → Option String → Except String (Option NodeId)
  /-- The properties of an element. -/
  eval : Written → Option (List (String × Expr)) → Except String Props

section Views

variable (R : Readers) (params : Params)

def callerView : View where
  find s v := .ok (boundNode s.own v)
  eval s props := evalProperties R params s.pending s.own props

/-- The node a variable of a clause denotes: the one placed for it, else that of the row. It is an
error if the row binds it to something else. -/
def denotedNode (row : PathMap) (nodes : Table String NodeId) (v : String) :
    Except String (Option NodeId) :=
  match nodes.get v, row.get v with
  | some id, _ => .ok (some id)
  | none, some (.node id) => .ok (some id)
  | none, some _ => .error ("variable is not a node: " ++ v)
  | none, none => .ok none

def clauseView (row : PathMap) : View where
  find s v := match v with
    | none => .ok none
    | some v => denotedNode row s.nodes v
  eval s props := evalProperties R params s.pending s.path props

/-- Two readings, as long as they are the same. -/
def View.compared (V V' : View) : View where
  find s v := do
    let a ← V.find s v
    let b ← V'.find s v
    if a = b then .ok a else .error "a variable denotes two nodes"
  eval s props := do
    let a ← V.eval s props
    let b ← V'.eval s props
    if a = b then .ok a else .error "a property has two values"

end Views

namespace Written

def bindNode (s : Written) (v : Option String) (id : NodeId) : Written :=
  match v with
  | none => s
  | some v => { s with
      nodes := s.nodes.put v id
      path := s.path.put v (.node id)
      own := s.own.put v (.node id) }

def bindOther (s : Written) (v : Option String) (b : GraphBinding) : Written :=
  match v with
  | none => s
  | some v => { s with path := s.path.put v b, own := s.own.put v b }

def addNode (s : Written) (pat : NodePattern) (props : Props) : Written :=
  bindNode { s with
    pending := s.pending.recordNode s.nextNode pat.labels props
    nextNode := s.nextNode + 1
    made := s.made ++ [.node s.nextNode pat.labels props] } pat.var s.nextNode

/-- Add a relationship between the last two nodes. -/
def addEdge (s : Written) (rel : RelationshipPattern) (props : Props) : Written :=
  let ends := rel.ends s.previous s.current
  bindOther { s with
    pending := s.pending.recordEdge s.nextEdge ends.1 ends.2 rel.typeName props
    nextEdge := s.nextEdge + 1
    elementIds := s.elementIds ++ [s.nextEdge, s.current]
    made := s.made ++ [.edge s.nextEdge ends.1 ends.2 rel.typeName props] } rel.var
      (.edge s.nextEdge)

lemma bindNode_spec (s : Written) (v : Option String) (id : NodeId) :
    (s.bindNode v id).made = s.made ∧ (s.bindNode v id).nextNode = s.nextNode ∧
      (s.bindNode v id).nextEdge = s.nextEdge ∧ (s.bindNode v id).current = s.current ∧
      (s.bindNode v id).elementIds = s.elementIds := by
  cases v <;> exact ⟨rfl, rfl, rfl, rfl, rfl⟩

lemma addNode_spec (s : Written) (pat : NodePattern) (props : Props) :
    (s.addNode pat props).made = s.made ++ [.node s.nextNode pat.labels props] ∧
      (s.addNode pat props).nextNode = s.nextNode + 1 ∧
      (s.addNode pat props).nextEdge = s.nextEdge ∧ (s.addNode pat props).current = s.current ∧
      (s.addNode pat props).elementIds = s.elementIds := bindNode_spec ..

lemma addEdge_spec (s : Written) (rel : RelationshipPattern) (props : Props) :
    (s.addEdge rel props).made = s.made ++ [.edge s.nextEdge (rel.ends s.previous s.current).1
        (rel.ends s.previous s.current).2 rel.typeName props] ∧
      (s.addEdge rel props).nextNode = s.nextNode ∧
      (s.addEdge rel props).nextEdge = s.nextEdge + 1 ∧
      (s.addEdge rel props).nodes = s.nodes ∧ (s.addEdge rel props).current = s.current ∧
      (s.addEdge rel props).elementIds = s.elementIds ++ [s.nextEdge, s.current] := by
  unfold addEdge bindOther
  cases rel.var <;> exact ⟨rfl, rfl, rfl, rfl, rfl, rfl⟩

/-- A node has become the last one. -/
def moveTo (s : Written) (id : NodeId) : Written := { s with previous := s.current, current := id }

/-- A pattern begins at a node. -/
def startAt (s : Written) (id : NodeId) : Written := { s with current := id, elementIds := [id] }

def next (s : Written) (m : Threading) (row : PathMap) : Written :=
  { s with own := if m.threads then s.own else row }

end Written

section Steps

variable (V : View) (R : Readers) (m : Threading) (row : PathMap)

def place (s : Written) (pat : NodePattern) : Except String (NodeId × Written) := do
  match ← V.find s pat.var with
  | some id => return (id, s)
  | none =>
    let props ← V.eval s pat.properties
    return (s.nextNode, s.addNode pat props)

def closePattern (s : Written) : Option String → Except String Written
  | none => .ok (s.next m row)
  | some pv => do
    let ids := pathIds s.elementIds
    let s := s.bindOther (some (pathIdsVar pv)) (.scalar ids)
    if m.bindsPaths then
      let v ← R.writtenPathValue s.pending ids
      return (s.bindOther (some pv) (.scalar v)).next m row
    else return s.next m row

def takeStep (s : Written) : PatternStep → Except String Written
  | .seed pat => do
    let r ← place V s pat
    return r.2.startAt r.1
  | .target pat => do
    let r ← place V s pat
    return r.2.moveTo r.1
  | .rel rel => do
    let props ← V.eval s rel.properties
    return s.addEdge rel props
  | .close pathVariable => closePattern R m row s pathVariable

variable {V R m row} {s s' : Written} {pat : NodePattern}

lemma place_of_found {id : NodeId} (h : V.find s pat.var = .ok (some id)) :
    place V s pat = .ok (id, s) := by
  rw [place, h]
  rfl

lemma place_of_new {props : Props} (h : V.find s pat.var = .ok none)
    (heval : V.eval s pat.properties = .ok props) :
    place V s pat = .ok (s.nextNode, s.addNode pat props) := by
  rw [place, h]
  show (V.eval s pat.properties >>= _) = _
  rw [heval]
  rfl

/-- A node pattern that is placed is found, or its node is added. -/
theorem place_eq_ok {id : NodeId} (h : place V s pat = .ok (id, s')) :
    (V.find s pat.var = .ok (some id) ∧ s' = s) ∨
      ∃ props, V.find s pat.var = .ok none ∧ V.eval s pat.properties = .ok props ∧
        id = s.nextNode ∧ s' = s.addNode pat props := by
  obtain ⟨found, hfind, h⟩ := bind_eq_ok h
  cases found with
  | some id' =>
    obtain ⟨rfl, rfl⟩ := Prod.mk.injEq .. ▸ Except.ok.inj h
    exact .inl ⟨hfind, rfl⟩
  | none =>
    obtain ⟨props, heval, h⟩ := bind_eq_ok h
    obtain ⟨rfl, rfl⟩ := Prod.mk.injEq .. ▸ Except.ok.inj h
    exact .inr ⟨props, hfind, heval, rfl, rfl⟩

end Steps

/-! ## What is added -/

def Element.nodeId : Element → Option NodeId
  | .node id .. => some id
  | .edge .. => none

def Element.edgeId : Element → Option EdgeId
  | .node .. => none
  | .edge id .. => some id

/-- A transaction holds what another held, and some new elements. -/
structure Adds (made : List Element) (t t' : Txn) : Prop where
  names : NamesGrow t.work.tables t'.work.tables
  keptNodes : ∀ n r, t.work.tables.nodes.get n = some r → t'.work.tables.nodes.get n = some r
  newNodes : ∀ n labels props, .node n labels props ∈ made → t.work.tables.nodes.get n = none ∧
    ∃ r, t'.work.tables.nodes.get n = some r ∧ r.props = props ∧
    Working.Labelled t'.work.tables r labels
  onlyNodes : ∀ n, (t'.work.tables.nodes.get n).isSome → (t.work.tables.nodes.get n).isSome ∨
    n ∈ made.filterMap Element.nodeId
  keptEdges : ∀ id r, t.work.tables.edges.get id = some r → t'.work.tables.edges.get id = some r
  newEdges : ∀ id src dst etype props, .edge id src dst etype props ∈ made →
    t.work.tables.edges.get id = none ∧ ∃ r, t'.work.tables.edges.get id = some r ∧ r.src = src ∧
      r.dst = dst ∧ r.props = props ∧ t'.work.tables.getType etype = some r.edgeType
  onlyEdges : ∀ id, (t'.work.tables.edges.get id).isSome → (t.work.tables.edges.get id).isSome ∨
    id ∈ made.filterMap Element.edgeId
  /-- No element is added twice. -/
  nodupNodes : (made.filterMap Element.nodeId).Nodup
  nodupEdges : (made.filterMap Element.edgeId).Nodup

namespace Adds

variable {made made' : List Element} {t t' t'' : Txn}

lemma refl (t : Txn) : Adds [] t t where
  names := .refl _
  keptNodes _ _ h := h
  newNodes _ _ _ h := absurd h not_mem_nil
  onlyNodes _ h := .inl h
  keptEdges _ _ h := h
  newEdges _ _ _ _ _ h := absurd h not_mem_nil
  onlyEdges _ h := .inl h
  nodupNodes := nodup_nil
  nodupEdges := nodup_nil

lemma mem_nodeIds (h : Adds made t t') {n : NodeId} : n ∈ made.filterMap Element.nodeId ↔
    t.work.tables.nodes.get n = none ∧ (t'.work.tables.nodes.get n).isSome := by
  constructor
  · intro hn
    obtain ⟨e, he, hid⟩ := mem_filterMap.mp hn
    cases e with
    | node id labels props =>
      obtain rfl : id = n := some.inj hid
      obtain ⟨hnone, r, hget, -⟩ := h.newNodes id labels props he
      exact ⟨hnone, isSome_of_eq_some hget⟩
    | edge => cases hid
  · rintro ⟨hnone, hsome⟩
    refine (h.onlyNodes n hsome).resolve_left fun hold => ?_
    rw [hnone] at hold
    cases hold

/-- The added relationships are those that are new. -/
theorem mem_edgeIds (h : Adds made t t') {id : EdgeId} : id ∈ made.filterMap Element.edgeId ↔
    t.work.tables.edges.get id = none ∧ (t'.work.tables.edges.get id).isSome := by
  constructor
  · intro hn
    obtain ⟨e, he, hid⟩ := mem_filterMap.mp hn
    cases e with
    | node => cases hid
    | edge id' src dst etype props =>
      obtain rfl : id' = id := some.inj hid
      obtain ⟨hnone, r, hget, -⟩ := h.newEdges id' src dst etype props he
      exact ⟨hnone, isSome_of_eq_some hget⟩
  · rintro ⟨hnone, hsome⟩
    refine (h.onlyEdges id hsome).resolve_left fun hold => ?_
    rw [hnone] at hold
    cases hold

/-- What is added in two parts is added. -/
theorem trans (h : Adds made t t') (h' : Adds made' t' t'') : Adds (made ++ made') t t'' where
  names := h.names.trans h'.names
  keptNodes n r hget := h'.keptNodes n r (h.keptNodes n r hget)
  newNodes n labels props hmem := by
    rcases mem_append.mp hmem with hmem | hmem
    · obtain ⟨hnone, r, hget, hprops, hlabels, honly⟩ := h.newNodes n labels props hmem
      refine ⟨hnone, r, h'.keptNodes n r hget, hprops, fun name hname => ?_, fun l hl => ?_⟩
      · obtain ⟨l, hl, hname⟩ := hlabels name hname
        exact ⟨l, hl, h'.names.labels _ _ hname⟩
      · obtain ⟨name, hname, hl⟩ := honly l hl
        exact ⟨name, hname, h'.names.labels _ _ hl⟩
    · obtain ⟨hnone, r, hget, hrest⟩ := h'.newNodes n labels props hmem
      refine ⟨eq_none_iff_forall_ne_some.mpr fun r' hold => ?_, r, hget, hrest⟩
      cases hnone.symm.trans (h.keptNodes n r' hold)
  onlyNodes n hsome := by
    rw [filterMap_append, mem_append]
    rcases h'.onlyNodes n hsome with hsome | hmem
    · exact (h.onlyNodes n hsome).imp id .inl
    · exact .inr (.inr hmem)
  keptEdges id r hget := h'.keptEdges id r (h.keptEdges id r hget)
  newEdges id src dst etype props hmem := by
    rcases mem_append.mp hmem with hmem | hmem
    · obtain ⟨hnone, r, hget, hsrc, hdst, hprops, htype⟩ := h.newEdges id src dst etype props hmem
      exact ⟨hnone, r, h'.keptEdges id r hget, hsrc, hdst, hprops, h'.names.types _ _ htype⟩
    · obtain ⟨hnone, r, hget, hrest⟩ := h'.newEdges id src dst etype props hmem
      refine ⟨eq_none_iff_forall_ne_some.mpr fun r' hold => ?_, r, hget, hrest⟩
      cases hnone.symm.trans (h.keptEdges id r' hold)
  onlyEdges id hsome := by
    rw [filterMap_append, mem_append]
    rcases h'.onlyEdges id hsome with hsome | hmem
    · exact (h.onlyEdges id hsome).imp (fun hold => hold) .inl
    · exact .inr (.inr hmem)
  nodupNodes := by
    rw [filterMap_append]
    refine h.nodupNodes.append h'.nodupNodes fun n hn hn' => ?_
    -- the first part is there already when the second is added
    have hsome := (h.mem_nodeIds.mp hn).2
    rw [(h'.mem_nodeIds.mp hn').1] at hsome
    cases hsome
  nodupEdges := by
    rw [filterMap_append]
    refine h.nodupEdges.append h'.nodupEdges fun n hn hn' => ?_
    have hsome := (h.mem_edgeIds.mp hn).2
    rw [(h'.mem_edgeIds.mp hn').1] at hsome
    cases hsome

/-- The number of nodes that are added depends on the transactions only. -/
theorem length_nodeIds (h : Adds made t t') (h' : Adds made' t t') :
    (made.filterMap Element.nodeId).length = (made'.filterMap Element.nodeId).length := by
  apply List.Perm.length_eq
  apply (perm_ext_iff_of_nodup h.nodupNodes h'.nodupNodes).mpr
  intro n
  rw [h.mem_nodeIds, h'.mem_nodeIds]

end Adds

/-- **A clause adds for a row what it says**, to a transaction. -/
def Creates (R : Readers) (params : Params) (m : Threading) (row : PathMap)
    (patterns : List Pattern) (o : PendingWrites) (t t' : Txn) : Prop :=
  ∃ s, (clauseSteps patterns).foldlM (takeStep (clauseView R params row) R m row)
    (.start row o t) = .ok s ∧ Adds s.made t t'

/-- The bindings a caller hands to the patterns of a clause are as good as those of the clause: at
every node pattern its variable denotes the same node, and at every element that is created the
properties have the same values. -/
def SameReading (R : Readers) (params callerParams : Params) (m : Threading) (row : PathMap)
    (patterns : List Pattern) (o : PendingWrites) (t : Txn) : Prop :=
  ∃ s, (clauseSteps patterns).foldlM
    (takeStep ((callerView R callerParams).compared (clauseView R params row)) R m row)
    (.start row o t) = .ok s

/-! ## Single operations -/

section Operations

variable [TextLib] {w w' : WriteTxn}

/-- A mutation that succeeds in a transaction succeeds on its tables. -/
theorem mutation_of_ok {m : Mutation} {r : m.Result} (hw : Usable w)
    (h : (TxnOp.mutation m).exec w = (.ok r, w')) :
    Usable w' ∧ m.exec (m.prepare w.txn) = (.ok r, w'.txn) := by
  rcases hexec : m.exec (m.prepare w.txn) with ⟨e | r', t⟩
  · exfalso
    change WriteTxn.mutate (WriteTxn.runMutation m) w = _ at h
    unfold WriteTxn.mutate WriteTxn.runMutation at h
    rw [if_neg (by rw [hw.unfailed]; exact Bool.false_ne_true), hexec] at h
    cases h
  · obtain ⟨w'', hok, rfl, hw'⟩ := exec_mutation hw hexec
    obtain ⟨hr, rfl⟩ := Prod.mk.injEq .. ▸ hok.symm.trans h
    obtain rfl := Except.ok.inj hr
    exact ⟨hw', rfl⟩

theorem adds_addNodeMulti {labels : List String} {props : Props} {n : NodeId} (hw : Usable w)
    (h : (TxnOp.mutation (.addNodeMulti labels props)).exec w = (.ok n, w')) :
    Usable w' ∧ n = w.txn.work.nextNode ∧ w'.txn.work.nextNode = w.txn.work.nextNode + 1 ∧
      w'.txn.work.nextEdge = w.txn.work.nextEdge ∧
      Adds [.node n labels props] w.txn w'.txn := by
  obtain ⟨hw', hexec⟩ := mutation_of_ok hw h
  have hnames := Mutation.namesGrow_exec hexec
  change onWork (Working.addNodeInner labels props) w.txn = _ at hexec
  obtain ⟨work, hwork, htxn⟩ := Exec.zoom_eq_ok.mp hexec
  obtain ⟨-, hedges, hn, hnext, record, hprops, hlabelled, hnodes⟩ :=
    Working.addNodeInner_placed hw.sound.work hwork
  obtain rfl : w'.txn.work = work := congrArg Txn.work htxn
  have hedges' : w'.txn.work.tables.edges = w.txn.work.tables.edges :=
    congrArg EdgeView.edges hedges
  have hfresh : w.txn.work.tables.nodes.get n = none := by
    apply eq_none_iff_forall_ne_some.mpr
    intro r hr
    exact absurd (hw.sound.work.nodes.node_lt n r hr) (by rw [hn]; exact Nat.lt_irrefl _)
  refine ⟨hw', hn, hnext, congrArg EdgeView.nextEdge hedges, ?_⟩
  refine ⟨hnames, fun m r hr => ?_, fun m labels' props' hm => ?_, fun m hm => ?_,
    fun id r hr => hedges' ▸ hr, fun _ _ _ _ _ hm => ?_, fun id hid => .inl (hedges' ▸ hid),
    nodup_singleton n, nodup_nil⟩
  · rw [hnodes, Table.get_put_of_ne _ _ (by rintro rfl; cases hfresh.symm.trans hr)]
    exact hr
  · obtain ⟨rfl, rfl, rfl⟩ := Element.node.injEq .. ▸ mem_singleton.mp hm
    refine ⟨hfresh, record, ?_, hprops, hlabelled⟩
    rw [hnodes, Table.get_put_self]
  · by_cases hmn : m = n
    · exact .inr (hmn ▸ mem_singleton_self m)
    · rw [hnodes, Table.get_put_of_ne _ _ hmn] at hm
      exact .inl hm
  · cases mem_singleton.mp hm

theorem adds_addEdge {src dst : NodeId} {etype : String} {props : Props} {id : EdgeId × TypeId}
    (hw : Usable w) (h : (TxnOp.mutation (.addEdge src dst etype props)).exec w = (.ok id, w')) :
    Usable w' ∧ id.1 = w.txn.work.nextEdge ∧ w'.txn.work.nextEdge = w.txn.work.nextEdge + 1 ∧
      w'.txn.work.nextNode = w.txn.work.nextNode ∧
      Adds [.edge id.1 src dst etype props] w.txn w'.txn := by
  obtain ⟨hw', hexec⟩ := mutation_of_ok hw h
  have hnames := Mutation.namesGrow_exec hexec
  obtain ⟨id, ty⟩ := id
  obtain ⟨work, hinsert, hwork, -⟩ := Txn.addEdgeInner_ok hexec
  obtain ⟨⟨-, hnodes, hid, -, -, hedges⟩, hnext, htype⟩ :=
    Working.insertEdge_placed hw.sound.work hinsert
  rw [← hwork] at hnodes hedges hnext htype
  have hnodes' : w'.txn.work.tables.nodes = w.txn.work.tables.nodes :=
    congrArg NodeView.nodes hnodes
  have hfresh : w.txn.work.tables.edges.get id = none := by
    apply eq_none_iff_forall_ne_some.mpr
    intro r hr
    exact absurd (hw.sound.work.edges.edge_lt id r hr) (by rw [hid]; exact Nat.lt_irrefl _)
  refine ⟨hw', hid, hnext, congrArg NodeView.nextNode hnodes, ?_⟩
  refine ⟨hnames, fun m r hr => hnodes' ▸ hr, fun _ _ _ hm => ?_, fun m hm => .inl (hnodes' ▸ hm),
    fun id' r hr => ?_, fun id' src' dst' etype' props' hm => ?_, fun id' hid' => ?_,
    nodup_nil, nodup_singleton id⟩
  · cases mem_singleton.mp hm
  · rw [hedges, Table.get_put_of_ne _ _ (by rintro rfl; cases hfresh.symm.trans hr)]
    exact hr
  · obtain ⟨rfl, rfl, rfl, rfl, rfl⟩ := Element.edge.injEq .. ▸ mem_singleton.mp hm
    refine ⟨hfresh, ⟨src', dst', ty, props'⟩, ?_, rfl, rfl, rfl, htype⟩
    rw [hedges, Table.get_put_self]
  · by_cases hne : id' = id
    · exact .inr (hne ▸ mem_singleton_self id')
    · rw [hedges, Table.get_put_of_ne _ _ hne] at hid'
      exact .inl hid'

end Operations

end IssunDB.Cypher
