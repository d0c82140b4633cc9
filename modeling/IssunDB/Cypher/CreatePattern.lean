import IssunDB.Cypher.Statements

/-!
# Creating patterns

How a `CREATE` writes its patterns. A pattern is written from its first node: a node variable that
is bound to a node stands for it, every other node pattern creates a node, and every relationship
pattern creates a relationship. The bindings of the pattern are visible to the properties of what
follows in it; which of them the next pattern sees is up to the caller.

The evaluator of expressions and the reader of a written path are parameters (`Readers`).
-/

namespace IssunDB.Cypher

open List

/-! ## Properties -/

/-- `Map::insert`, into fields in the order of their keys. -/
def insertField (k : String) (v : Json) : List (String × Json) → List (String × Json)
  | [] => [(k, v)]
  | f :: fields =>
    if k < f.1 then (k, v) :: f :: fields
    else if k = f.1 then (k, v) :: fields
    else f :: insertField k v fields

variable {fields : List (String × Json)}

lemma mem_insertField {k : String} {v : Json} {f : String × Json} (h : f ∈ insertField k v fields) :
    f = (k, v) ∨ f ∈ fields := by
  induction fields with
  | nil => exact .inl (mem_singleton.mp h)
  | cons g fields ih =>
    unfold insertField at h
    split at h
    · exact mem_cons.mp h
    split at h
    · exact (mem_cons.mp h).imp id (mem_cons_of_mem _)
    · rcases mem_cons.mp h with rfl | h
      · exact .inr mem_cons_self
      · exact (ih h).imp id (mem_cons_of_mem _)

lemma pairwise_insertField {k : String} {v : Json} (h : fields.Pairwise (·.1 < ·.1)) :
    (insertField k v fields).Pairwise (·.1 < ·.1) := by
  induction fields with
  | nil => exact pairwise_singleton _ _
  | cons g fields ih =>
    obtain ⟨hlt, hrest⟩ := pairwise_cons.mp h
    unfold insertField
    split
    next hk =>
      refine pairwise_cons.mpr ⟨fun f hf => ?_, h⟩
      rcases mem_cons.mp hf with rfl | hf
      · exact hk
      · exact hk.trans (hlt f hf)
    split
    next hk => exact pairwise_cons.mpr ⟨fun f hf => hk ▸ hlt f hf, hrest⟩
    next hnot hne =>
      refine pairwise_cons.mpr ⟨fun f hf => ?_, ih hrest⟩
      rcases mem_insertField hf with rfl | hf
      · exact lt_of_le_of_ne (not_lt.mp hnot) (Ne.symm hne)
      · exact hlt f hf

lemma wellFormedFields_iff :
    Json.wellFormedFields fields = true ↔ ∀ f ∈ fields, f.2.wellFormed = true := by
  induction fields with
  | nil => simp [Json.wellFormedFields]
  | cons f fields ih => simp [Json.wellFormedFields, ih]

abbrev Value := {v : Json // v.wellFormed = true}

end IssunDB.Cypher

namespace IssunDB.Props

open Cypher

/-- Properties without fields. -/
def empty : Props := ⟨.object [], Json.wellFormed_empty⟩

lemma wellFormed_insertField (props : Props) (k : String) (v : Value) :
    (Json.object (insertField k v.1 props.fields)).wellFormed = true := by
  have hfields : ∀ f ∈ props.fields, f.2.wellFormed = true := by
    obtain ⟨value, hvalue⟩ := props
    cases value with
    | object fields =>
      rw [Json.wellFormed, Bool.and_eq_true] at hvalue
      exact wellFormedFields_iff.mp hvalue.2
    | _ => exact fun f hf => by cases hf
  rw [Json.wellFormed, Bool.and_eq_true, decide_eq_true_iff, wellFormedFields_iff]
  refine ⟨pairwise_insertField (Json.fields_pairwise props.wellFormed), fun f hf => ?_⟩
  rcases mem_insertField hf with rfl | hf
  · exact v.2
  · exact hfields f hf

/-- Put a value under a key. -/
def insert (props : Props) (k : String) (v : Value) : Props :=
  ⟨.object (insertField k v.1 props.fields), wellFormed_insertField props k v⟩

end IssunDB.Props

namespace IssunDB.Cypher

/-! ## Pending writes -/

/-- The writes of a statement, as its own reads see them. -/
structure PendingWrites where
  nodes : Table NodeId (List String × Props)
  edges : Table EdgeId (NodeId × NodeId × String × Props)
  deletedNodes : Finset NodeId
  deletedEdges : Finset EdgeId

/-- `record_node`. -/
def PendingWrites.recordNode (o : PendingWrites) (id : NodeId) (labels : List String)
    (props : Props) : PendingWrites :=
  { o with nodes := o.nodes.put id (labels, props) }

/-- `record_edge`. -/
def PendingWrites.recordEdge (o : PendingWrites) (id : EdgeId) (src dst : NodeId) (etype : String)
    (props : Props) : PendingWrites :=
  { o with edges := o.edges.put id (src, dst, etype, props) }

/-- What is read while patterns are created. -/
structure Readers where
  /-- `evaluate_expr`. -/
  evaluateExpr : Params → PendingWrites → PathMap → Expr → Except String Value
  /-- `written_path_value`. -/
  writtenPathValue : PendingWrites → Json → Except String Json

section Patterns

variable (R : Readers) (params : Params)

/-- The values of some properties. -/
def evalFields (o : PendingWrites) (path : PathMap) :
    List (String × Expr) → Props → Except String Props
  | [], obj => .ok obj
  | (k, e) :: props, obj => do
    let val ← R.evaluateExpr params o path e
    -- a null is not stored
    evalFields o path props (if val.1 = .null then obj else obj.insert k val)

/-- `eval_properties`, empty where a pattern has none. -/
def evalProperties (o : PendingWrites) (path : PathMap) (props : Option (List (String × Expr))) :
    Except String Props :=
  match props with
  | none => .ok .empty
  | some props => evalFields R params o path props .empty

/-! ## One pattern -/

/-- The bindings of a pattern, with those that its expressions see, and the pending writes. -/
structure Progress where
  bindings : PathMap
  combined : PathMap
  pending : PendingWrites

def Progress.bindVar (st : Progress) (v : Option String) (b : GraphBinding) : Progress :=
  match v with
  | none => st
  | some v => { st with bindings := st.bindings.put v b, combined := st.combined.put v b }

/-- The node that a variable is bound to. -/
def boundNode (path : PathMap) (v : Option String) : Option NodeId :=
  match v.bind path.get with
  | some (.node id) => some id
  | _ => none

/-- Add a node with the values that its properties have now. -/
def createNode (st : Progress) (pat : NodePattern) : Prog (NodeId × Progress) :=
  match evalProperties R params st.pending st.combined pat.properties with
  | .error text => .done (.error (.invalidArgument text))
  | .ok props =>
    .call (.mutation (.addNodeMulti pat.labels props)) fun r => .done (r.map fun (id : NodeId) =>
      (id, { st with pending := st.pending.recordNode id pat.labels props }))

/-- The first node of a pattern, bound or new. -/
def seedNode (st : Progress) (pat : NodePattern) : Prog (NodeId × Progress) :=
  Prog.bind (match boundNode st.combined pat.var with
    | some id => .done (.ok (id, st))
    | none => createNode R params st pat) fun r =>
  .done (.ok (r.1, r.2.bindVar pat.var (.node r.1)))

/-- The node at the end of a hop, bound or new. -/
def targetNode (st : Progress) (pat : NodePattern) : Prog (NodeId × Progress) :=
  match boundNode st.combined pat.var with
  | some id => .done (.ok (id, st))
  | none => Prog.bind (createNode R params st pat) fun r =>
      .done (.ok (r.1, r.2.bindVar pat.var (.node r.1)))

def RelationshipPattern.typeName (rel : RelationshipPattern) : String := rel.relType.getD "EDGE"

def RelationshipPattern.ends (rel : RelationshipPattern) (current target : NodeId) :
    NodeId × NodeId :=
  if rel.isIncoming then (target, current) else (current, target)

/-- Add a relationship in the direction of its arrow. -/
def createRel (st : Progress) (current target : NodeId) (rel : RelationshipPattern) :
    Prog (EdgeId × Progress) :=
  match evalProperties R params st.pending st.combined rel.properties with
  | .error text => .done (.error (.invalidArgument text))
  | .ok props =>
    let (src, dst) := rel.ends current target
    .call (.mutation (.addEdge src dst rel.typeName props)) fun r =>
      .done (r.map fun (id : EdgeId × TypeId) =>
        (id.1, Progress.bindVar
          { st with pending := st.pending.recordEdge id.1 src dst rel.typeName props }
          rel.var (.edge id.1)))

/-- Create what follows the first node. The list has the elements so far. -/
def createHops : List (RelationshipPattern × NodePattern) → NodeId → List ℕ → Progress →
    Prog (List ℕ × Progress)
  | [], _, elementIds, st => .done (.ok (elementIds, st))
  | (rel, pat) :: hops, current, elementIds, st =>
    Prog.bind (targetNode R params st pat) fun t =>
      Prog.bind (createRel R params t.2 current t.1 rel) fun r =>
        createHops hops t.1 (elementIds ++ [r.1, t.1]) r.2

/-- `path_ids_var`. -/
def pathIdsVar (pathVariable : String) : String := "_path_ids_" ++ pathVariable

def pathIds (elementIds : List ℕ) : Json :=
  .array (elementIds.map fun id => if h : id < 2 ^ 64 then .number (.posInt id h) else .null)

/-- `create_pattern_with_context`, in a `CREATE`. -/
def createPattern (path : PathMap) (pattern : Pattern) (o : PendingWrites) :
    Prog (PathMap × PendingWrites) :=
  Prog.bind (seedNode R params ⟨.empty, path, o⟩ pattern.node) fun seed =>
    Prog.bind (createHops R params pattern.rels seed.1 [seed.1] seed.2) fun r =>
      .done (.ok (match pattern.pathVariable with
        | none => r.2.bindings
        | some pv => r.2.bindings.put (pathIdsVar pv) (.scalar (pathIds r.1)), r.2.pending))

/-! ## Clauses -/

/-- How a caller goes from one pattern of a clause to the next. -/
structure Threading where
  /-- The next pattern sees the bindings made so far. -/
  threads : Bool
  /-- Path variables are bound to the paths they wrote. -/
  bindsPaths : Bool

/-- `bind_written_path`. -/
def bindWrittenPath (o : PendingWrites) (row : PathMap) (pattern : Pattern) :
    Except String PathMap :=
  match pattern.pathVariable with
  | none => .ok row
  | some pv =>
    match row.get (pathIdsVar pv) with
    | some (.scalar ids) => (R.writtenPathValue o ids).map fun v => row.put pv (.scalar v)
    | _ => .ok row

/-- Create the patterns of a clause, each in the context that its caller gives it, and extend a
row by their bindings. -/
def createEach (m : Threading) : List Pattern → PathMap → PathMap → PendingWrites →
    Prog (PathMap × PendingWrites)
  | [], _, row, o => .done (.ok (row, o))
  | pattern :: patterns, path, row, o =>
    Prog.bind (createPattern R params path pattern o) fun created =>
      let extended := row.extend created.1
      match if m.bindsPaths then bindWrittenPath R created.2 extended pattern else .ok extended with
      | .error text => .done (.error (.invalidArgument text))
      | .ok row' => createEach m patterns (if m.threads then row' else path) row' created.2

/-- `execute_create`, and a `CREATE` of a pipeline: the bindings are those of the statements before
it. -/
def executeCreate (patterns : List Pattern) (bindings : PathMap) :
    PendingWrites → Prog (PathMap × PendingWrites) :=
  createEach R params ⟨true, false⟩ patterns bindings bindings

/-- The bindings of `execute_create_and_return_body`. -/
def executeCreateAndReturn (patterns : List Pattern) :
    PendingWrites → Prog (PathMap × PendingWrites) :=
  createEach R params ⟨true, true⟩ patterns .empty .empty

/-- The `CREATE` of `write_part_rows`, on one row. -/
def writePartCreate (patterns : List Pattern) (row : PathMap) :
    PendingWrites → Prog (PathMap × PendingWrites) :=
  createEach R params ⟨false, true⟩ patterns row row

/-- A `CREATE` in the body of a `FOREACH`, for one element of its list. The closing parenthesis is
no end of a statement, so the parser makes a query of the body that only writes;
`execute_foreach_body` runs it on one empty row, with the loop variable as a parameter. -/
def executeForeachCreate (loopVar : String) (element : Json) (patterns : List Pattern) :
    PendingWrites → Prog (PathMap × PendingWrites) :=
  writePartCreate R (params.put loopVar element) (patterns.map (substLoopVarPattern loopVar)) .empty

end Patterns

end IssunDB.Cypher
