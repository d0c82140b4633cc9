import IssunDB.Lib.Fallible
import IssunDB.Cypher.Keys

/-!
# Execution of pattern operators

The rows a plan produces. The operators of a pattern are modelled here: scans, hops, closing hops,
filters, joins and the row-by-row seek. The others, which project, group, order, window or write,
are given by the engine.

A row binds variables to nodes, relationships, lists of relationships and values. Every expansion
reads the neighbors of a node, which the engine sees through `Neighbors`: the committed adjacency or
a snapshot of it, with the pending writes of the transaction applied.
-/

namespace IssunDB.Cypher

/-- The neighbors of a node along relationships of a type, or of any: the relationship and its other
end. -/
structure Neighbors where
  /-- `expand_bulk` from one source; the flag is set for incoming relationships. -/
  expandBulk : NodeId → Option String → Bool → List (EdgeId × NodeId)
  /-- The alternatives of a type written with bars, trimmed and without empty ones. -/
  alternatives : String → List String
  nodup : ∀ n t incoming, (expandBulk n t incoming).Nodup
  /-- A relationship is seen from both ends. -/
  mirror : ∀ n t incoming e m,
    (e, m) ∈ expandBulk n t incoming ↔ (e, n) ∈ expandBulk m t (!incoming)

namespace Neighbors

variable (N : Neighbors)

/-- `expand_multi_type` from one source. -/
def expandMultiType (n : NodeId) (relType : Option String) (incoming : Bool) :
    List (EdgeId × NodeId) :=
  match relType with
  | none => N.expandBulk n none incoming
  | some t =>
    if t.contains '|' then
      ((N.alternatives t).flatMap fun part => N.expandBulk n (some part) incoming).eraseDups
    else N.expandBulk n (some t) incoming

/-- The relationships a hop can take from a node. A relationship that both directions of an
undirected hop meet is taken once. -/
def transitions (n : NodeId) (relType : Option String) (incoming undirected : Bool) :
    List (EdgeId × NodeId) :=
  ((if undirected then [false, true] else [incoming]).flatMap
    (N.expandMultiType n relType)).eraseDups

end Neighbors

/-- What the executor computes with, apart from the operators below. -/
structure Engine where
  neighbors : Neighbors
  params : Params
  /-- The node carries the label. -/
  nodeHasLabel : NodeId → String → Bool
  /-- `literal_to_value`. -/
  literalToValue : Literal → Json
  /-- How a literal is displayed. -/
  literalText : Literal → String
  /-- Read a property of a bound variable; the empty name is the variable itself. -/
  property : GraphBinding → String → Except Error Json
  /-- `compare_values`. -/
  compareValues : BinaryOperator → Json → Json → Except Error Json
  /-- The verdict of a comparison in a `WHERE` clause. -/
  verdict : BinaryOperator → Json → Json → Bool
  /-- `evaluate_expr` on the expressions that are not operands of a simple comparison. -/
  evaluateExpr : Expr → PathMap → Except Error Json
  /-- How doubles are written in keys. -/
  floatTexts : FloatTexts
  /-- The nodes a scan finds. -/
  scan : PhysicalOperator → Except Error (List NodeId)
  /-- The trails of a variable-length hop from a node of a row, with their ends and, if the pattern
  binds a path, its value. -/
  trails : Hop → PathMap → NodeId → Except Error (List (List EdgeId × NodeId × Option Json))
  /-- The path value of a fixed hop. -/
  extendOrCreatePath : PathMap → NodeId → EdgeId → NodeId → Option Json
  /-- The nodes an index lookup finds for a key. -/
  seek : Seek → Json → Except Error (List NodeId)
  /-- The operators that are no part of a pattern, on the rows of their input. -/
  other : PhysicalOperator → List PathMap → Except Error (List PathMap)

def missingParameter (p : String) : Error := .invalidArgument ("missing parameter: " ++ p)

def unboundVariable (v : String) : Error := .invalidArgument ("unbound variable: " ++ v)

namespace Engine

variable (E : Engine)

/-! ## Filters -/

/-- `evaluate_expr` on the operands of a simple comparison. -/
def operand (row : PathMap) : Expr → Except Error Json
  | .literal l => .ok (E.literalToValue l)
  | .param p =>
    match E.params.get p with
    | some v => .ok v
    | none => .error (missingParameter p)
  | .prop v p =>
    match row.get v with
    | some b => E.property b p
    | none =>
      if v.startsWith "_path_" then E.property (.scalar .null) p else .error (unboundVariable v)
  | e => E.evaluateExpr e row

/-- `is_comparison_op`. -/
def isComparisonOp : BinaryOperator → Bool
  | .eq | .ne | .lt | .gt | .le | .ge => true
  | _ => false

def isComparison : Expr → Bool
  | .binaryOp op _ _ => isComparisonOp op
  | _ => false

/-- A comparison of a `WHERE` clause. -/
def compare (op : BinaryOperator) (l r : Expr) (row : PathMap) : Except Error Bool := do
  let lv ← E.operand row l
  let rv ← E.operand row r
  return E.verdict op lv rv

/-- `evaluate_expr` on a predicate. A chain of comparisons is left to `evaluateExpr`. -/
def predicate (e : Expr) (row : PathMap) : Except Error Json :=
  match e with
  | .binaryOp op l r =>
    if isComparisonOp op && !isComparison l then do
      let lv ← E.operand row l
      let rv ← E.operand row r
      E.compareValues op lv rv
    else E.evaluateExpr e row
  | _ => E.operand row e

/-- A filter keeps a row iff its predicate is true there; null drops the row. -/
def passes (expression : FilterExpr) (row : PathMap) : Except Error Bool :=
  match expression with
  | .hasLabel v label =>
    match row.get v with
    | some (.node n) => .ok (E.nodeHasLabel n label)
    | _ => .ok false
  | .eq l r => E.compare .eq l r row
  | .ne l r => E.compare .ne l r row
  | .lt l r => E.compare .lt l r row
  | .gt l r => E.compare .gt l r row
  | .le l r => E.compare .le l r row
  | .ge l r => E.compare .ge l r row
  | .expr e => (E.predicate e row).map (· = .bool true)

/-- `apply_filter`. -/
def applyFilter (expression : FilterExpr) (rows : List PathMap) : Except Error (List PathMap) :=
  rows.filterE (E.passes expression)

/-! ## Hops -/

/-- `edge_bound_to_sibling_rel`. -/
def edgeBoundToSiblingRel (row : PathMap) (uniqueRels : List String) (e : EdgeId) : Bool :=
  uniqueRels.any fun v =>
    match row.get v with
    | some (.edge e') => e' = e
    | some (.edgeList ids) => e ∈ ids
    | _ => false

/-- The row does not bind the variable to anything but this node. -/
def admits (row : PathMap) (v : String) (n : NodeId) : Bool :=
  match row.get v with
  | some b => b = .node n
  | none => true

/-- The hop is a single one. -/
def isFixed (hop : Hop) : Bool := hop.minHops = 1 && hop.maxHops = some 1

/-- Bind the path of a hop, where the plan asks for it. -/
def bindPath (row : PathMap) (hop : Hop) (path : Option Json) : PathMap :=
  match path with
  | some value => if hop.needsPath then row.put ("_path_" ++ hop.dstVar) (.scalar value) else row
  | none => row

/-- The rows of a hop of one step. -/
def expandFixed (hop : Hop) (row : PathMap) : List PathMap :=
  match row.get hop.srcVar with
  | some (.node src) =>
    ((E.neighbors.transitions src hop.relType hop.isIncoming hop.isUndirected).filter fun t =>
      !edgeBoundToSiblingRel row hop.uniqueRels t.1 && admits row hop.dstVar t.2).map fun t =>
        bindPath ((row.put hop.relVar (if hop.isVarLength then .edgeList [t.1] else .edge t.1)).put
          hop.dstVar (.node t.2)) hop (E.extendOrCreatePath row src t.1 t.2)
  | _ => []

/-- The rows of a hop of a range of steps. -/
def expandTrails (hop : Hop) (row : PathMap) : Except Error (List PathMap) :=
  match row.get hop.srcVar with
  | some (.node src) => do
    let trails ← E.trails hop row src
    return (trails.filter fun t => admits row hop.dstVar t.2.1).map fun t =>
      bindPath ((row.put hop.dstVar (.node t.2.1)).put hop.relVar (.edgeList t.1)) hop t.2.2
  | _ => .ok []

/-- `expand_from_paths`. -/
def expandFromPaths (hop : Hop) (rows : List PathMap) : Except Error (List PathMap) :=
  rows.flatMapE fun row => if isFixed hop then .ok (E.expandFixed hop row)
    else E.expandTrails hop row

/-- The relationships that close a hop between two nodes. -/
def closingEdges (c : Closing) (src dst : NodeId) : List EdgeId :=
  ((if c.closingIsUndirected then E.neighbors.transitions src c.closingRelType false true
    else E.neighbors.expandMultiType src c.closingRelType c.closingIsIncoming).filter
      (·.2 = dst)).map Prod.fst

/-- `multiway_join_rows` from one row. -/
def multiwayJoinRow (c : Closing) (row : PathMap) : List PathMap :=
  match row.get c.closingSrcVar, row.get c.closingDstVar with
  | some (.node src), some (.node dst) =>
    ((E.closingEdges c src dst).filter fun e =>
      !edgeBoundToSiblingRel row c.closingUniqueRels e).map fun e =>
        row.put c.closingRelVar (.edge e)
  | _, _ => []

/-- The relationships to one neighbor. -/
def edgesTo (l : List (EdgeId × NodeId)) (n : NodeId) : List EdgeId :=
  (l.filter (·.2 = n)).map Prod.fst

/-- `expand_intersect_rows` from one row: walk the shorter of the two neighbor lists and look up the
other. -/
def expandIntersectRow (p : Intersection) (row : PathMap) : List PathMap :=
  match row.get p.srcVar, row.get p.closingDstVar with
  | some (.node src), some (.node dst) =>
    let mids := E.neighbors.expandMultiType src p.relType p.isIncoming
    let closes := E.neighbors.expandMultiType dst p.closingRelType (!p.closingIsIncoming)
    let midNodes := (mids.map Prod.snd).eraseDups
    let closeNodes := (closes.map Prod.snd).eraseDups
    let outer := if midNodes.length ≤ closeNodes.length then midNodes else closeNodes
    outer.flatMap fun n =>
      ((edgesTo mids n).filter fun e => !edgeBoundToSiblingRel row p.uniqueRels e).flatMap fun e =>
        ((edgesTo closes n).filter fun e' =>
          !(p.closingUniqueRels.contains p.relVar && e' = e) &&
            !edgeBoundToSiblingRel row p.closingUniqueRels e').map fun e' =>
              ((row.put p.dstVar (.node n)).put p.relVar (.edge e)).put p.closingRelVar (.edge e')
  | _, _ => []

/-! ## Joins -/

/-- The rows have equal keys under every common variable, and bind all of them. -/
def joins (commonVars : Finset String) (probe build : PathMap) : Bool :=
  decide (∀ v ∈ commonVars, ∃ b ∈ probe.get v, ∃ b' ∈ build.get v,
    canonicalBindingKey E.floatTexts (some b) = canonicalBindingKey E.floatTexts (some b'))

end Engine

/-- `SlotRow::merge_from`. -/
def PathMap.mergeFrom (row more : PathMap) : PathMap where
  get v := (more.get v).or (row.get v)
  keys := more.keys ∪ row.keys
  mem_keys v := by
    simp only [Finset.mem_union, Table.mem_keys]
    cases more.get v <;> simp

/-- `null_fill`. -/
def nullFill (row : PathMap) (nullVars : List String) : PathMap :=
  nullVars.foldl (fun row v =>
    if (row.get v).isNone then row.put v (.scalar .null) else row) row

namespace Engine

variable (E : Engine)

/-- `hash_join_rows` from one probe row of an inner join. -/
def joinRow (commonVars : Finset String) (build : List PathMap) (row : PathMap) : List PathMap :=
  (build.filter (E.joins commonVars row)).map row.mergeFrom

/-- `hash_join_rows` from one probe row of a left-outer join. A row that lacks a common variable is
dropped. -/
def outerJoinRow (commonVars : Finset String) (nullVars : List String)
    (predicate : Option FilterExpr) (build : List PathMap) (row : PathMap) :
    Except Error (List PathMap) :=
  if ∀ v ∈ commonVars, (row.get v).isSome then do
    let merged ← match predicate with
      | some p => E.applyFilter p (E.joinRow commonVars build row)
      | none => pure (E.joinRow commonVars build row)
    return if merged = [] then [nullFill row nullVars] else merged
  else .ok []

/-! ## Plans -/

def scanRows (op : PhysicalOperator) (v : String) : Except Error (List PathMap) :=
  (E.scan op).map fun nodes => nodes.map fun n => Table.empty.put v (.node n)

/-- The rows of a per-row index lookup. A null key finds nothing. -/
def seekRow (s : Seek) (row : PathMap) : Except Error (List PathMap) := do
  let key ← E.operand row s.key
  if key = .null then return []
  let nodes ← E.seek s key
  return nodes.map fun n => row.put s.var (.node n)

/-- The variables two plans bind. -/
def commonVars (probe build : PhysicalOperator) : Finset String :=
  probe.boundVars E.literalText ∩ build.boundVars E.literalText

/-- The rows of a plan. -/
def eval : PhysicalOperator → Except Error (List PathMap)
  | .singleRow => .ok [.empty]
  | .labelScan v label => E.scanRows (.labelScan v label) v
  | .nodeByIdSeek v label idValue => E.scanRows (.nodeByIdSeek v label idValue) v
  | .nodeIndexScan v label property value => E.scanRows (.nodeIndexScan v label property value) v
  | .nodeRangeScan v range => E.scanRows (.nodeRangeScan v range) v
  | .expand input hop => do E.expandFromPaths hop (← eval input)
  | .filter input e => do E.applyFilter e (← eval input)
  | .multiwayJoin input c => do return (← eval input).flatMap (E.multiwayJoinRow c)
  | .expandIntersect input p => do return (← eval input).flatMap (E.expandIntersectRow p)
  | .correlatedIndexSeek input s => do (← eval input).flatMapE (E.seekRow s)
  -- `join_roles`: an optional side is the build side of a left-outer join.
  | .hashJoin (.optionalMatch input nullVars predicate) right => do
    let build ← eval input
    let probe ← eval right
    probe.flatMapE (E.outerJoinRow (E.commonVars right input) nullVars predicate build)
  | .hashJoin left (.optionalMatch input nullVars predicate) => do
    let build ← eval input
    let probe ← eval left
    probe.flatMapE (E.outerJoinRow (E.commonVars left input) nullVars predicate build)
  | .hashJoin left right =>
    -- A side that writes runs first.
    if left.planHasWrite then do
      let build ← eval left
      let probe ← eval right
      return probe.flatMap (E.joinRow (E.commonVars right left) build)
    else do
      let build ← eval right
      let probe ← eval left
      return probe.flatMap (E.joinRow (E.commonVars left right) build)
  | .optionalMatch input nullVars _ => do
    let rows ← eval input
    return if rows = [] then [nullFill .empty nullVars] else rows
  | .unwind input e v => do E.other (.unwind input e v) (← eval input)
  | .project input items isBarrier => do E.other (.project input items isBarrier) (← eval input)
  | .aggregate input groupBy aggregations => do
    E.other (.aggregate input groupBy aggregations) (← eval input)
  | .sort input items => do E.other (.sort input items) (← eval input)
  | .limit input skip count => do E.other (.limit input skip count) (← eval input)
  | .distinct input keys => do E.other (.distinct input keys) (← eval input)
  | .writePart input part => do E.other (.writePart input part) (← eval input)
  | .procedureCall input outputVars rows => do
    E.other (.procedureCall input outputVars rows) (← eval input)
  | .kernel vars => E.other (.kernel vars) []

end Engine

/-! ## Small graphs -/

/-- The neighbors in a list of relationships with their ends, whatever type is asked for. -/
def Neighbors.ofEdges (edges : List (EdgeId × NodeId × NodeId)) : Neighbors where
  expandBulk n _ incoming :=
    ((edges.filter fun t => (if incoming then t.2.2 else t.2.1) = n).map fun t =>
      (t.1, if incoming then t.2.1 else t.2.2)).eraseDups
  alternatives t := [t]
  nodup _ _ _ := List.nodup_eraseDups _
  mirror n t incoming e m := by
    simp only [List.mem_eraseDups, List.mem_map, List.mem_filter, decide_eq_true_eq, Prod.mk.injEq]
    cases incoming <;> grind

/-- The engine over a graph whose nodes have the labels and properties given, for queries that
compare for equality and do not look up an index. -/
def Engine.ofGraph (nodes : List NodeId) (edges : List (EdgeId × NodeId × NodeId))
    (labels : NodeId → List String) (properties : NodeId → String → Json) (params : Params) :
    Engine where
  neighbors := .ofEdges edges
  params := params
  nodeHasLabel n label := label ∈ labels n
  literalToValue
    | .bool b => .bool b
    | .str s => .string s
    | _ => .null
  literalText _ := ""
  property
    | .node n, p => .ok (properties n p)
    | .scalar v, "" => .ok v
    | _, _ => .ok .null
  compareValues _ l r := .ok (if l = .null ∨ r = .null then .null else .bool (decide (l = r)))
  verdict _ l r := l ≠ .null && r ≠ .null && l = r
  evaluateExpr _ _ := .ok .null
  floatTexts := bitsTexts
  scan
    | .labelScan _ none => .ok nodes
    | .labelScan _ (some label) => .ok (nodes.filter fun n => label ∈ labels n)
    | _ => .ok []
  trails _ _ _ := .ok []
  extendOrCreatePath _ _ _ _ := none
  seek _ _ := .ok []
  other _ rows := .ok rows

end IssunDB.Cypher
