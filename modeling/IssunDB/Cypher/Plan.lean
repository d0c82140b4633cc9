import IssunDB.Cypher.Statements

/-!
# Physical plans

The operator trees a query is compiled to, the variables an operator binds, and the plan of one
pattern of a `MATCH` clause.

The leaves the optimizer puts in place of whole counting or nearest-neighbor subplans are one
constructor, `kernel`: nothing here looks at more of them than the variables they bind.
-/

namespace IssunDB.Cypher

/-- A predicate of a plan. -/
inductive FilterExpr where
  | eq (l r : Expr)
  | ne (l r : Expr)
  | lt (l r : Expr)
  | gt (l r : Expr)
  | le (l r : Expr)
  | ge (l r : Expr)
  | hasLabel (var label : String)
  | expr (e : Expr)

/-- What an `Expand` does to a row: leave `srcVar` along a relationship and bind it and its other
end. A fixed hop has `minHops = maxHops = 1`; `none` is no upper bound. -/
structure Hop where
  srcVar : String
  relVar : String
  dstVar : String
  relType : Option String
  isIncoming : Bool
  isUndirected : Bool
  minHops : ℕ
  maxHops : Option ℕ
  uniqueRels : List String
  needsPath : Bool
  isVarLength : Bool
  deriving DecidableEq

/-- What a `MultiwayJoin` does to a row: bind a relationship between two nodes it binds. -/
structure Closing where
  closingSrcVar : String
  closingDstVar : String
  closingRelType : Option String
  closingRelVar : String
  closingIsIncoming : Bool
  closingIsUndirected : Bool
  closingUniqueRels : List String
  deriving DecidableEq

/-- What an `ExpandIntersect` does to a row: a hop from `srcVar` to `dstVar` and a closing
relationship from there to `closingDstVar`, both directed. -/
structure Intersection where
  srcVar : String
  relVar : String
  dstVar : String
  relType : Option String
  isIncoming : Bool
  uniqueRels : List String
  closingDstVar : String
  closingRelType : Option String
  closingRelVar : String
  closingIsIncoming : Bool
  closingUniqueRels : List String
  deriving DecidableEq

/-- An index lookup for each row. -/
structure Seek where
  var : String
  label : Option String
  property : Option String
  key : Expr

/-- The bounds of a range scan. -/
structure PropertyRange where
  label : String
  property : String
  lo : Option Expr
  loInclusive : Bool
  hi : Option Expr
  hiInclusive : Bool

/-- A physical plan. -/
inductive PhysicalOperator where
  | singleRow
  | unwind (input : PhysicalOperator) (expr : Expr) (var : String)
  | labelScan (var : String) (label : Option String)
  | nodeByIdSeek (var : String) (label : Option String) (idValue : Expr)
  | nodeIndexScan (var label property : String) (value : Expr)
  | correlatedIndexSeek (input : PhysicalOperator) (seek : Seek)
  | nodeRangeScan (var : String) (range : PropertyRange)
  | expand (input : PhysicalOperator) (hop : Hop)
  | filter (input : PhysicalOperator) (expression : FilterExpr)
  | project (input : PhysicalOperator) (items : List (Expr × Option String)) (isBarrier : Bool)
  | hashJoin (left right : PhysicalOperator)
  | aggregate (input : PhysicalOperator) (groupBy : List (Expr × Option String))
      (aggregations : List (AggFn × Expr × String))
  | sort (input : PhysicalOperator) (items : List SortItem)
  | limit (input : PhysicalOperator) (skip count : ℕ)
  | optionalMatch (input : PhysicalOperator) (nullVars : List String)
      (predicate : Option FilterExpr)
  | distinct (input : PhysicalOperator) (keys : Option (List String))
  | writePart (input : PhysicalOperator) (part : QueryPart)
  | procedureCall (input : PhysicalOperator) (outputVars : List String) (rows : List (List Json))
  | multiwayJoin (input : PhysicalOperator) (closing : Closing)
  | expandIntersect (input : PhysicalOperator) (pair : Intersection)
  | kernel (vars : List String)

/-! ## Bound variables -/

/-- The name of a projected column. `literal` renders a literal. -/
def projectedName (literal : Literal → String) : Expr × Option String → String
  | (_, some a) => a
  | (.prop v "", none) => v
  | (.prop v p, none) => v ++ "." ++ p
  | (.literal l, none) => literal l
  | (.param p, none) => "$" ++ p
  | (.countStar, none) => "count(*)"
  | (.agg .., none) => "agg"
  | (_, none) => "expr"

def groupedName : Expr × Option String → Option String
  | (_, some a) => some a
  | (.prop v "", none) => some v
  | (.prop v p, none) => some (v ++ "." ++ p)
  | _ => none

/-- `is_star_expr`. -/
def isStarExpr : Expr → Bool
  | .functionCall name _ => name = "__star__"
  | _ => false

def Pattern.createdVars (p : Pattern) : Finset String :=
  p.node.var.toFinset ∪ (p.rels.flatMap fun hop => hop.1.var.toList ++ hop.2.var.toList).toFinset

/-- The variables a writing clause binds. -/
def QueryPart.createdVars : QueryPart → Finset String
  | .create patterns => patterns.foldl (fun vars p => vars ∪ p.createdVars) ∅
  | .merge merges => merges.foldl (fun vars m => vars ∪ m.pattern.createdVars) ∅
  | _ => ∅

/-- `Optimizer::bound_vars`. -/
def PhysicalOperator.boundVars (literal : Literal → String) : PhysicalOperator → Finset String
  | .singleRow => ∅
  | .unwind input _ v => insert v (input.boundVars literal)
  | .labelScan v _ | .nodeByIdSeek v _ _ | .nodeIndexScan v _ _ _ | .nodeRangeScan v _ => {v}
  | .correlatedIndexSeek input seek => insert seek.var (input.boundVars literal)
  | .expand input hop => insert hop.dstVar (insert hop.relVar (input.boundVars literal))
  | .filter input _ => input.boundVars literal
  | .project input items isBarrier =>
    (if !isBarrier || items.any (isStarExpr ·.1) then input.boundVars literal else ∅) ∪
      ((items.filter fun item => !isStarExpr item.1).map (projectedName literal)).toFinset
  | .hashJoin left right => left.boundVars literal ∪ right.boundVars literal
  | .aggregate input groupBy aggregations =>
    input.boundVars literal ∪ (aggregations.map (·.2.2)).toFinset ∪
      (groupBy.filterMap groupedName).toFinset
  | .sort input _ | .limit input _ _ | .distinct input _ => input.boundVars literal
  | .optionalMatch input nullVars _ => input.boundVars literal ∪ nullVars.toFinset
  | .writePart input part => input.boundVars literal ∪ part.createdVars
  | .procedureCall input outputVars _ => input.boundVars literal ∪ outputVars.toFinset
  | .multiwayJoin input closing => insert closing.closingRelVar (input.boundVars literal)
  | .expandIntersect input pair =>
    insert pair.closingRelVar (insert pair.dstVar (insert pair.relVar (input.boundVars literal)))
  | .kernel vars => vars.toFinset

/-- `Optimizer::plan_has_write`. -/
def PhysicalOperator.planHasWrite : PhysicalOperator → Bool
  | .writePart .. => true
  | .unwind input _ _ | .expand input _ | .filter input _ | .project input _ _
  | .aggregate input _ _ | .sort input _ | .limit input _ _ | .optionalMatch input _ _
  | .distinct input _ | .procedureCall input _ _ | .correlatedIndexSeek input _
  | .multiwayJoin input _ | .expandIntersect input _ => input.planHasWrite
  | .hashJoin left right => left.planHasWrite || right.planHasWrite
  | _ => false

/-! ## The plan of a pattern -/

/-- Filters for the labels and the property map of a node. -/
def constrainNode (plan : PhysicalOperator) (v : String) (labels : List String)
    (properties : Option (List (String × Expr))) : PhysicalOperator :=
  (properties.getD []).foldl (fun plan kv => .filter plan (.eq (.prop v kv.1) kv.2))
    (labels.foldl (fun plan label => .filter plan (.hasLabel v label)) plan)

/-- The predicate an entry of a relationship's property map stands for. On a variable-length hop it
must hold of every relationship of the trail. -/
def relPropertyFilter (relVar : String) (isVarLength : Bool) (kv : String × Expr) : FilterExpr :=
  if isVarLength then
    .expr (.quantifier .all ("__vl_" ++ relVar) (.prop relVar "")
      (.binaryOp .eq (.prop ("__vl_" ++ relVar) kv.1) kv.2))
  else .eq (.prop relVar kv.1) kv.2

/-- The variable of a relationship, or the generated name of the segment. -/
def segmentRelVar (matchScope segIdx : ℕ) (rel : RelationshipPattern) : String :=
  rel.var.getD ("_rel_" ++ toString matchScope ++ "_" ++ toString segIdx)

/-- The variable of the node a segment leads to, or its generated name. -/
def segmentTargetVar (matchScope segIdx : ℕ) (node : NodePattern) : String :=
  node.var.getD ("_target_" ++ toString matchScope ++ "_" ++ toString segIdx)

def segmentHop (matchScope segIdx : ℕ) (needsPath : Bool) (srcVar : String) (prior : List String)
    (rel : RelationshipPattern) (node : NodePattern) : Hop where
  srcVar := srcVar
  relVar := segmentRelVar matchScope segIdx rel
  dstVar := segmentTargetVar matchScope segIdx node
  relType := rel.relType
  isIncoming := rel.isIncoming
  isUndirected := rel.isUndirected
  minHops := ((rel.range.bind RelRange.min).map UInt32.toNat).getD 1
  maxHops := match rel.range with
    | none => some 1
    | some r => r.max.map UInt32.toNat
  uniqueRels := prior
  needsPath := needsPath
  isVarLength := rel.range.isSome

/-- The hops of a pattern, from segment `segIdx` on, with the variable of the last node. -/
def planSegments (matchScope : ℕ) (needsPath : Bool) :
    ℕ → List (RelationshipPattern × NodePattern) → PhysicalOperator → String → List String →
      PhysicalOperator × String
  | _, [], plan, prev, _ => (plan, prev)
  | segIdx, (rel, node) :: rels, plan, prev, prior =>
    let hop := segmentHop matchScope segIdx needsPath prev prior rel node
    let plan := (rel.properties.getD []).foldl (fun plan kv =>
      .filter plan (relPropertyFilter hop.relVar hop.isVarLength kv)) (.expand plan hop)
    let plan := constrainNode plan hop.dstVar node.labels node.properties
    planSegments matchScope needsPath (segIdx + 1) rels plan hop.dstVar (prior ++ [hop.relVar])

/-- `plan_match`, compiled by the physical planner. -/
def planMatch (matchScope : ℕ) (pattern : Pattern) : PhysicalOperator :=
  let seedVar := pattern.node.var.getD ("_seed_" ++ toString matchScope)
  let seed := constrainNode (.labelScan seedVar pattern.node.labels.head?) seedVar
    pattern.node.labels.tail pattern.node.properties
  let (plan, last) :=
    planSegments matchScope pattern.pathVariable.isSome 0 pattern.rels seed seedVar []
  match pattern.pathVariable with
  | none => plan
  | some pv =>
    let path : Expr := if pattern.rels.isEmpty then .functionCall "__path__" [.prop seedVar ""]
      else .prop ("_path_" ++ last) ""
    .project plan [(path, some pv)] false

end IssunDB.Cypher
