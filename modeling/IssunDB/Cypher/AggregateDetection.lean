import IssunDB.Cypher.Ast
import IssunDB.Lib.Branching

/-!
# Detection of aggregates

The parser looks for aggregates with three hand-written searches, and with them rejects aggregates
in `WHERE` predicates and in the arguments of other aggregates. `Expr.children` are the
subexpressions of an expression with the kind of place they stand in; each search enters the places
of some kinds.

* `exprContainsAggregate_iff`, `exprHasAggregation_iff` — what the searches find;
* `Statement.accepted` — what an accepted statement was checked for;
* `aggregates_detected_iff` — when nothing is missed.
-/

namespace IssunDB.Cypher

open List

/-! ## Subexpressions -/

/-- The kinds of places of a subexpression. Those in a subquery are not among them. -/
inductive Place where
  | aggregate
  | percentile
  | quantifier
  | functionCall
  | binaryOp
  -- `IS NULL`, `IS NOT NULL` and `NOT`
  | unary
  | case
  | subscript
  | slice
  | listComprehension
  | patternComprehension
  | patternPredicate
  | reduce
  deriving DecidableEq

def AggFn.percentile : AggFn → List Expr
  | percentileDisc percentile | percentileCont percentile => [percentile]
  | _ => []

def CaseArm.exprs (a : CaseArm) : List Expr := [a.whenExpr, a.thenExpr]

def valuesOf (properties : Option (List (String × Expr))) : List Expr :=
  (properties.getD []).map Prod.snd

def Pattern.exprs (p : Pattern) : List Expr :=
  valuesOf p.node.properties ++
    p.rels.flatMap fun r => valuesOf r.1.properties ++ valuesOf r.2.properties

namespace Expr

/-- The subexpressions. -/
def children : Expr → List (Place × Expr)
  | agg fn inner => (.aggregate, inner) :: fn.percentile.map (.percentile, ·)
  | quantifier _ _ list predicate => [list, predicate].map (.quantifier, ·)
  | functionCall _ args => args.map (.functionCall, ·)
  | binaryOp _ left right => [left, right].map (.binaryOp, ·)
  | isNull inner | isNotNull inner | not inner => [(.unary, inner)]
  | case subject arms elseExpr =>
    (subject.toList ++ (arms.flatMap CaseArm.exprs ++ elseExpr.toList)).map (.case, ·)
  | subscript expr index => [expr, index].map (.subscript, ·)
  | slice expr start stop => (expr :: (start.toList ++ stop.toList)).map (.slice, ·)
  | listComprehension _ list predicate transform =>
    (list :: (predicate.toList ++ transform.toList)).map (.listComprehension, ·)
  | patternComprehension pattern predicate transform =>
    (pattern.exprs ++ (predicate.toList ++ [transform])).map (.patternComprehension, ·)
  | patternPredicate pattern => pattern.exprs.map (.patternPredicate, ·)
  | reduce _ initial _ list expression => [initial, list, expression].map (.reduce, ·)
  | prop .. | literal _ | param _ | countStar | hasLabel .. | existsSubquery .. | existsQuery _ =>
    []

variable {e : Expr}

lemma sizeOf_percentile {fn : AggFn} (h : e ∈ fn.percentile) : sizeOf e < sizeOf fn := by
  cases fn with
  | percentileDisc percentile | percentileCont percentile =>
    obtain rfl := mem_singleton.mp h
    simp
  | _ => cases h

lemma sizeOf_toList {o : Option Expr} (h : e ∈ o.toList) : sizeOf e < sizeOf o := by
  obtain rfl := Option.mem_toList.mp h
  simp

lemma sizeOf_arms {arms : List CaseArm} (h : e ∈ arms.flatMap CaseArm.exprs) :
    sizeOf e < sizeOf arms := by
  obtain ⟨a, ha, he⟩ := mem_flatMap.mp h
  have harm := sizeOf_lt_of_mem ha
  have hexpr : sizeOf e < sizeOf a := by
    obtain ⟨whenExpr, thenExpr⟩ := a
    rw [CaseArm.mk.sizeOf_spec]
    rcases mem_pair.mp he with rfl | rfl <;> omega
  omega

lemma sizeOf_valuesOf {properties : Option (List (String × Expr))} (h : e ∈ valuesOf properties) :
    sizeOf e < sizeOf properties := by
  obtain ⟨⟨k, v⟩, hmem, rfl⟩ := mem_map.mp h
  cases properties with
  | none => cases hmem
  | some entries =>
    have hentry := sizeOf_lt_of_mem hmem
    simp at hentry ⊢
    omega

lemma sizeOf_pattern {p : Pattern} (h : e ∈ p.exprs) : sizeOf e < sizeOf p := by
  obtain ⟨⟨_, _, properties⟩, rels, _⟩ := p
  rcases mem_append.mp h with hnode | hrel
  · have hvalue := sizeOf_valuesOf hnode
    simp at hvalue ⊢
    omega
  · obtain ⟨⟨⟨_, _, _, _, _, relProperties⟩, ⟨_, _, nodeProperties⟩⟩, hmem, hr⟩ :=
      mem_flatMap.mp hrel
    have hpair := sizeOf_lt_of_mem hmem
    rcases mem_append.mp hr with hvalue | hvalue
    all_goals
      have hlt := sizeOf_valuesOf hvalue
      simp at hpair hlt ⊢
      omega

/-- A subexpression is smaller. -/
theorem sizeOf_children {c : Place × Expr} (h : c ∈ e.children) : sizeOf c.2 < sizeOf e := by
  have hmap : ∀ {place : Place} {l : List Expr}, c ∈ l.map (place, ·) → c.2 ∈ l := by
    intro place l hc
    obtain ⟨e', he', rfl⟩ := mem_map.mp hc
    exact he'
  cases e with
  | agg fn inner =>
    rcases mem_cons.mp h with rfl | hc
    · simp
    · have hlt := sizeOf_percentile (hmap hc)
      simp
      omega
  | quantifier kind var list predicate =>
    rcases mem_pair.mp (hmap h) with heq | heq
    all_goals
      rw [heq, Expr.quantifier.sizeOf_spec]
      omega
  | binaryOp op left right =>
    rcases mem_pair.mp (hmap h) with heq | heq
    all_goals
      rw [heq, Expr.binaryOp.sizeOf_spec]
      omega
  | subscript expr index =>
    rcases mem_pair.mp (hmap h) with heq | heq
    all_goals
      rw [heq, Expr.subscript.sizeOf_spec]
      omega
  | functionCall name args =>
    have hlt := sizeOf_lt_of_mem (hmap h)
    simp
    omega
  | isNull inner | isNotNull inner | not inner =>
    obtain rfl := mem_singleton.mp h
    simp
  | case subject arms elseExpr =>
    rcases mem_append.mp (hmap h) with hc | hc
    · have hlt := sizeOf_toList hc
      simp
      omega
    rcases mem_append.mp hc with hc | hc
    · have hlt := sizeOf_arms hc
      simp
      omega
    · have hlt := sizeOf_toList hc
      simp
      omega
  | slice expr start stop =>
    rcases mem_cons.mp (hmap h) with heq | hc
    · rw [heq]
      simp
      omega
    rcases mem_append.mp hc with hc | hc
    all_goals
      have hlt := sizeOf_toList hc
      simp
      omega
  | listComprehension var list predicate transform =>
    rcases mem_cons.mp (hmap h) with heq | hc
    · rw [heq]
      simp
      omega
    rcases mem_append.mp hc with hc | hc
    all_goals
      have hlt := sizeOf_toList hc
      simp
      omega
  | patternComprehension pattern predicate transform =>
    rcases mem_append.mp (hmap h) with hc | hc
    · have hlt := sizeOf_pattern hc
      simp
      omega
    rcases mem_append.mp hc with hc | hc
    · have hlt := sizeOf_toList hc
      simp
      omega
    · rw [mem_singleton.mp hc, Expr.patternComprehension.sizeOf_spec]
      omega
  | patternPredicate pattern =>
    have hlt := sizeOf_pattern (hmap h)
    simp
    omega
  | reduce accumulator initial var list expression =>
    have hmem := hmap h
    simp only [mem_cons, not_mem_nil, or_false] at hmem
    rcases hmem with heq | heq | heq
    all_goals
      rw [heq, Expr.reduce.sizeOf_spec]
      omega
  | prop | literal | param | countStar | hasLabel | existsSubquery | existsQuery => cases h

lemma wf_children : WellFounded fun b a => ∃ p, (p, b) ∈ children a :=
  Branching.wf_of_lt sizeOf sizeOf_children

def tree : Branching Expr Place := ⟨children, wf_children⟩

/-- `Expr::Agg` or `Expr::CountStar`. -/
def isAggregate : Expr → Bool
  | agg .. | countStar => true
  | _ => false

/-- An aggregate is somewhere in the expression, outside of subqueries. -/
def HoldsAggregate (e : Expr) : Prop := ∃ path a, tree.Reaches e path a ∧ a.isAggregate = true

end Expr

/-! ## The searches -/

/-- The places that `expr_contains_aggregate` enters. -/
def Place.inContains : Place → Bool
  | binaryOp | functionCall | unary | subscript | case => true
  | _ => false

/-- The places that `expr_has_aggregation` and `has_aggregation` enter. -/
def Place.inHas : Place → Bool
  | binaryOp | functionCall | unary | subscript | case | slice | listComprehension | reduce
  | quantifier => true
  | _ => false

/-- The places that `check_aggregation_arg` and `expr_contains_rand` enter. -/
def Place.inArg : Place → Bool
  | aggregate => true
  | place => place.inContains

def exprContainsAggregate : Expr → Bool := Expr.tree.anyBelow Expr.isAggregate Place.inContains

def exprHasAggregation : Expr → Bool := Expr.tree.anyBelow Expr.isAggregate Place.inHas

def hasAggregation : Expr → Bool := Expr.tree.anyBelow Expr.isAggregate Place.inHas

/-- A call of `rand`. -/
def Expr.isRand : Expr → Bool
  | functionCall name _ => name.toLower = "rand"
  | _ => false

def exprContainsRand : Expr → Bool := Expr.tree.anyBelow Expr.isRand Place.inArg

/-- What `check_aggregation_arg` does at an expression. -/
def checkAggregate : Expr → Except String Unit
  | .agg _ inner =>
    if exprContainsAggregate inner then
      .error "SyntaxError(NestedAggregation): an aggregate may not contain another aggregate"
    else if exprContainsRand inner then
      .error "SyntaxError(NonConstantExpression): an aggregate may not contain a non-deterministic function"
    else .ok ()
  | _ => .ok ()

def checkAggregationArg : Expr → Except String Unit :=
  Expr.tree.checkBelow checkAggregate Place.inArg

/-! ## Statements -/

def WhereClause.operands : WhereClause → List Expr
  | eq l r | ne l r | lt l r | gt l r | le l r | ge l r => [l, r]
  | expr e => [e]

/-- The expressions of a predicate that may be missing. -/
def whereExprs (where_ : Option WhereClause) : List Expr :=
  where_.toList.flatMap WhereClause.operands

def sortExprs (orderBy : Option (List SortItem)) : List Expr := (orderBy.getD []).map SortItem.expr

def SetItem.exprs : SetItem → List Expr
  | property _ _ expr | allProperties _ expr _ => [expr]
  | labels .. => []

def MergeStatement.exprs (m : MergeStatement) : List Expr :=
  m.pattern.exprs ++ (m.onCreateSet ++ m.onMatchSet).flatMap SetItem.exprs

namespace QueryPart

def exprs : QueryPart → List Expr
  | match_ patterns where_ | optionalMatch patterns where_ =>
    patterns.flatMap Pattern.exprs ++ whereExprs where_
  | with_ items where_ whereAfter orderBy skip limit _ =>
    items.map ReturnItem.expr ++ (whereExprs where_ ++ (whereExprs whereAfter ++
      (sortExprs orderBy ++ (skip.toList ++ limit.toList))))
  | unwind expr _ => [expr]
  | create patterns => patterns.flatMap Pattern.exprs
  | merge merges => merges.flatMap MergeStatement.exprs
  | set items => items.flatMap SetItem.exprs
  | delete targets _ => targets
  | remove _ => []
  | call _ args _ _ _ _ => args

/-- The predicates of a clause. -/
def wheres : QueryPart → List WhereClause
  | match_ _ where_ | optionalMatch _ where_ => where_.toList
  | with_ _ where_ whereAfter _ _ _ _ => where_.toList ++ whereAfter.toList
  | _ => []

/-- The predicates of a clause that `check_no_aggregate_in_where` looks at. -/
def checkedWheres : QueryPart → List WhereClause
  | match_ _ where_ | optionalMatch _ where_ | with_ _ where_ _ _ _ _ _ => where_.toList
  | _ => []

/-- The items that a `WITH` projects. -/
def projections : QueryPart → List (List ReturnItem)
  | with_ items .. => [items]
  | _ => []

end QueryPart

def Query.exprs (q : Query) : List Expr :=
  q.matchClauses.flatMap Pattern.exprs ++ (whereExprs q.whereClause ++
    (q.returnClause.items.map ReturnItem.expr ++ (q.parts.flatMap QueryPart.exprs ++
      (sortExprs q.orderBy ++ (q.skip.toList ++ q.limit.toList)))))

def Matched.exprs (m : Matched) : List Expr :=
  m.matchClauses.flatMap Pattern.exprs ++ whereExprs m.whereClause

def Projection.exprs (p : Projection) : List Expr :=
  p.returnClause.items.map ReturnItem.expr ++
    (sortExprs p.orderBy ++ (p.skip.toList ++ p.limit.toList))

/-- How a statement is inside another. -/
inductive Nested where
  | union
  | pipeline
  | loop
  deriving DecidableEq

/-- All but the bodies of `FOREACH`. -/
def Nested.joins : Nested → Bool
  | loop => false
  | _ => true

namespace Statement

/-- The expressions of a statement, without the statements inside. -/
def exprs : Statement → List Expr
  | query q => q.exprs
  | create c => c.patterns.flatMap Pattern.exprs
  | set s => s.toMatched.exprs ++ s.setItems.flatMap SetItem.exprs
  | delete d => d.toMatched.exprs ++ d.targets
  | merge m => m.exprs
  | remove r => r.toMatched.exprs
  | createAndReturn c => c.patterns.flatMap Pattern.exprs ++ c.toProjection.exprs
  | setAndReturn s => s.toMatched.exprs ++
    (s.setItems.flatMap SetItem.exprs ++ s.toProjection.exprs)
  | foreach _ list _ => [list]
  | mergeAndReturn m => m.merges.flatMap MergeStatement.exprs ++ m.toProjection.exprs
  | deleteAndReturn d => d.toMatched.exprs ++ (d.targets ++ d.toProjection.exprs)
  | removeAndReturn r => r.toMatched.exprs ++ r.toProjection.exprs
  | copy c => valuesOf c.options
  | exportDatabase e => valuesOf e.options
  | createIndex _ | dropIndex _ | setAutoIndex _ | union .. | createConstraint _ | dropConstraint _
  | importDatabase _ | pipeline _ => []

/-- The predicates of a statement. -/
def wheres : Statement → List WhereClause
  | query q => q.whereClause.toList ++ q.parts.flatMap QueryPart.wheres
  | set s => s.whereClause.toList
  | delete d => d.whereClause.toList
  | remove r => r.whereClause.toList
  | setAndReturn s => s.whereClause.toList
  | deleteAndReturn d => d.whereClause.toList
  | removeAndReturn r => r.whereClause.toList
  | _ => []

/-- The predicates that `check_no_aggregate_in_where` looks at. -/
def checkedWheres : Statement → List WhereClause
  | query q => q.whereClause.toList ++ q.parts.flatMap QueryPart.checkedWheres
  | _ => []

/-- The lists of projected items. -/
def projections : Statement → List (List ReturnItem)
  | query q => q.returnClause.items :: q.parts.flatMap QueryPart.projections
  | createAndReturn c => [c.returnClause.items]
  | setAndReturn s => [s.returnClause.items]
  | deleteAndReturn d => [d.returnClause.items]
  | removeAndReturn r => [r.returnClause.items]
  | mergeAndReturn m => [m.returnClause.items]
  | _ => []

def projected (s : Statement) : List Expr := s.projections.flatten.map ReturnItem.expr

/-- The statements inside. -/
def children : Statement → List (Nested × Statement)
  | union left right _ => [left, right].map (.union, ·)
  | foreach _ _ body => body.map (.loop, ·)
  | pipeline stmts => stmts.map (.pipeline, ·)
  | _ => []

lemma sizeOf_children {s : Statement} {c : Nested × Statement} (h : c ∈ s.children) :
    sizeOf c.2 < sizeOf s := by
  have hmap : ∀ {place : Nested} {l : List Statement}, c ∈ l.map (place, ·) → c.2 ∈ l := by
    intro place l hc
    obtain ⟨s', hs', rfl⟩ := mem_map.mp hc
    exact hs'
  cases s with
  | union left right all =>
    rcases mem_pair.mp (hmap h) with heq | heq
    all_goals
      rw [heq, Statement.union.sizeOf_spec]
      omega
  | foreach var list body =>
    have hlt := sizeOf_lt_of_mem (hmap h)
    rw [Statement.foreach.sizeOf_spec]
    omega
  | pipeline stmts =>
    have hlt := sizeOf_lt_of_mem (hmap h)
    rw [Statement.pipeline.sizeOf_spec]
    omega
  | _ => cases h

lemma wf_children : WellFounded fun b a => ∃ p, (p, b) ∈ children a :=
  Branching.wf_of_lt sizeOf sizeOf_children

def tree : Branching Statement Nested := ⟨children, wf_children⟩

end Statement

/-! ## The checks -/

/-- The check of a predicate in `check_no_aggregate_in_where`. -/
def checkWhere (w : WhereClause) : Except String Unit :=
  if w.operands.any exprContainsAggregate then
    .error "SyntaxError(InvalidAggregation): aggregation is not allowed in WHERE"
  else .ok ()

def checkNoAggregateInWhere : Statement → Except String Unit :=
  Statement.tree.checkBelow (fun s => s.checkedWheres.forM checkWhere) Nested.joins

def projectionLists : Statement → List (List ReturnItem) :=
  Statement.tree.gather Statement.projections Nested.joins

/-- The checks of `validate_statement` that do not look for aggregates on their own. -/
structure OtherChecks where
  -- undefined variables, `CREATE`, `MERGE` and `DELETE`
  checkClauses : Statement → Except String Unit
  checkDuplicateColumns : List ReturnItem → Except String Unit
  checkAmbiguousAggregations : List ReturnItem → Except String Unit
  checkWithAliasing : Statement → Except String Unit
  validateValueVarConflicts : Statement → Except String Unit
  -- the variables that expressions and pattern predicates refer to
  checkExprs : Statement → Except String Unit
  -- the variables of the clauses, for each form of statement
  checkForm : Statement → Except String Unit

def validateProjectionSemantics (O : OtherChecks) (s : Statement) : Except String Unit := do
  (projectionLists s).forM fun items => do
    O.checkDuplicateColumns items
    items.forM fun item => checkAggregationArg item.expr
    O.checkAmbiguousAggregations items
  O.checkWithAliasing s
  checkNoAggregateInWhere s

/-- What `validate_statement` checks before it goes on to the statements inside. The body of a
`FOREACH` gets two of the checks only. -/
def validateOwn (O : OtherChecks) (s : Statement) : Except String Unit := do
  O.checkClauses s
  validateProjectionSemantics O s
  O.validateValueVarConflicts s
  O.checkExprs s
  match s with
  | .union .. | .pipeline _ => .ok ()
  | .foreach _ _ body =>
    body.forM fun s => do
      validateProjectionSemantics O s
      O.validateValueVarConflicts s
  | s => O.checkForm s

def validateStatement (O : OtherChecks) : Statement → Except String Unit :=
  Statement.tree.checkBelow (validateOwn O) Nested.joins

/-! ## What is found -/

theorem exprContainsAggregate_iff {e : Expr} : exprContainsAggregate e = true ↔
    ∃ path a, Expr.tree.Reaches e path a ∧ a.isAggregate = true ∧ ∀ p ∈ path, p.inContains = true :=
  Branching.anyBelow_iff

theorem exprHasAggregation_iff {e : Expr} : exprHasAggregation e = true ↔
    ∃ path a, Expr.tree.Reaches e path a ∧ a.isAggregate = true ∧ ∀ p ∈ path, p.inHas = true :=
  Branching.anyBelow_iff

lemma exprContainsAggregate_of_checked {e outer inner : Expr} {fn : AggFn} {path : List Place}
    (h : checkAggregationArg e = .ok ()) (hpath : Expr.tree.Reaches e path outer)
    (hall : ∀ p ∈ path, p.inArg = true) (houter : outer = .agg fn inner) :
    exprContainsAggregate inner = false := by
  have hcheck := Branching.checkBelow_eq_ok_iff.mp h path outer hpath hall
  rw [houter] at hcheck
  change (if exprContainsAggregate inner = true then _ else _) = _ at hcheck
  by_contra hcontains
  rw [if_pos (Bool.not_eq_false _ ▸ hcontains)] at hcheck
  cases hcheck

lemma exprContainsAggregate_of_checkWhere {w : WhereClause} (h : checkWhere w = .ok ()) {e : Expr}
    (he : e ∈ w.operands) : exprContainsAggregate e = false := by
  unfold checkWhere at h
  split at h
  next => cases h
  next hnone =>
    by_contra hcontains
    exact hnone (any_eq_true.mpr ⟨e, he, Bool.not_eq_false _ ▸ hcontains⟩)

namespace Statement

/-- What a statement is checked for, without the statements inside. -/
structure Checked (s : Statement) : Prop where
  wheres : ∀ w ∈ s.checkedWheres, ∀ e ∈ w.operands, exprContainsAggregate e = false
  projected : ∀ e ∈ s.projected, checkAggregationArg e = .ok ()

variable {O : OtherChecks} {s t : Statement} {path : List Nested}

lemma checked_of_validateProjectionSemantics (h : validateProjectionSemantics O s = .ok ())
    (hpath : tree.Reaches s path t) (hjoins : ∀ n ∈ path, n.joins = true) : t.Checked := by
  obtain ⟨hlists, hrest⟩ := Branching.bind_eq_ok_iff.mp h
  obtain ⟨-, hwhere⟩ := Branching.bind_eq_ok_iff.mp hrest
  constructor
  · intro w hw e he
    have hown := Branching.checkBelow_eq_ok_iff.mp hwhere path t hpath hjoins
    exact exprContainsAggregate_of_checkWhere (Branching.forM_eq_ok_iff.mp hown w hw) he
  · intro e he
    obtain ⟨item, hitem, rfl⟩ := mem_map.mp he
    obtain ⟨items, hitems, hmem⟩ := mem_flatten.mp hitem
    have hlist := Branching.forM_eq_ok_iff.mp hlists items
      (Branching.mem_gather.mpr ⟨path, t, hpath, hjoins, hitems⟩)
    obtain ⟨-, hlist⟩ := Branching.bind_eq_ok_iff.mp hlist
    exact Branching.forM_eq_ok_iff.mp (Branching.bind_eq_ok_iff.mp hlist).1 item hmem

lemma mem_body_of_loop (h : (Nested.loop, t) ∈ s.children) :
    ∃ var list body, s = .foreach var list body ∧ t ∈ body := by
  cases s with
  | foreach var list body =>
    obtain ⟨t', ht', heq⟩ := mem_map.mp h
    exact ⟨var, list, body, rfl, (Prod.mk.inj heq).2 ▸ ht'⟩
  | union left right all =>
    obtain ⟨t', -, heq⟩ := mem_map.mp h
    cases heq
  | pipeline stmts =>
    obtain ⟨t', -, heq⟩ := mem_map.mp h
    cases heq
  | _ => cases h

lemma joins_of_count {path : List Nested} (h : path.count .loop = 0) :
    ∀ n ∈ path, n.joins = true := by
  intro n hn
  cases n with
  | loop => exact absurd hn (count_eq_zero.mp h)
  | union => rfl
  | pipeline => rfl

/-- **What an accepted statement was checked for**: all statements inside, except those in a
`FOREACH` within another. -/
theorem checked_of_accepted (h : validateStatement O s = .ok ()) (hpath : tree.Reaches s path t)
    (hloops : path.count .loop ≤ 1) : t.Checked := by
  by_cases hnone : path.count .loop = 0
  · have hown := Branching.checkBelow_eq_ok_iff.mp h path t hpath (joins_of_count hnone)
    obtain ⟨-, hrest⟩ := Branching.bind_eq_ok_iff.mp hown
    exact checked_of_validateProjectionSemantics (Branching.bind_eq_ok_iff.mp hrest).1 (.here t)
      fun _ hn => nomatch hn
  · -- The one loop is cut out of the path.
    obtain ⟨front, back, rfl⟩ := append_of_mem (count_pos_iff.mp (Nat.pos_of_ne_zero hnone))
    rw [count_append, count_cons_self] at hloops
    obtain ⟨f, hfront, hback⟩ := Branching.reaches_append_iff.mp hpath
    obtain ⟨u, hu, hbelow⟩ := Branching.reaches_cons_iff.mp hback
    obtain ⟨var, list, body, rfl, hmem⟩ := mem_body_of_loop hu
    have hown := Branching.checkBelow_eq_ok_iff.mp h front _ hfront (joins_of_count (by omega))
    obtain ⟨-, hrest⟩ := Branching.bind_eq_ok_iff.mp hown
    obtain ⟨-, hrest⟩ := Branching.bind_eq_ok_iff.mp hrest
    obtain ⟨-, hrest⟩ := Branching.bind_eq_ok_iff.mp hrest
    obtain ⟨-, hbody⟩ := Branching.bind_eq_ok_iff.mp hrest
    have hown := Branching.forM_eq_ok_iff.mp hbody u hmem
    exact checked_of_validateProjectionSemantics (Branching.bind_eq_ok_iff.mp hown).1 hbelow
      (joins_of_count (by omega))

/-! ## What is missed -/

/-- An aggregate is in a predicate of the statement or of one inside. -/
def AggregateInWhere (s : Statement) : Prop :=
  ∃ path t, tree.Reaches s path t ∧ ∃ w ∈ t.wheres, ∃ e ∈ w.operands, e.HoldsAggregate

def AggregateInArg (s : Statement) : Prop :=
  ∃ path t, tree.Reaches s path t ∧
    ∃ e ∈ t.exprs, ∃ outerPath outer, Expr.tree.Reaches e outerPath outer ∧
    outer.isAggregate = true ∧ ∃ place arg, (place, arg) ∈ outer.children ∧ arg.HoldsAggregate

/-- No aggregate is where none may be. -/
def Clean (s : Statement) : Prop := ¬s.AggregateInWhere ∧ ¬s.AggregateInArg

/-- An aggregate is in a predicate that is not looked at (of `SET`, `DELETE` or `REMOVE`, behind the
`LIMIT` of a `WITH`, or in a `FOREACH` within another), or below a place that is not entered. -/
def HiddenInWhere (s : Statement) : Prop :=
  ∃ path t, tree.Reaches s path t ∧ ∃ w ∈ t.wheres, ∃ e ∈ w.operands, ∃ places a,
    Expr.tree.Reaches e places a ∧ a.isAggregate = true ∧
      (1 < path.count .loop ∨ w ∉ t.checkedWheres ∨ ∃ p ∈ places, p.inContains = false)

/-- An aggregate is in the argument of another that is not projected, or is the percentile, or
either is below a place that is not entered. -/
def HiddenInArg (s : Statement) : Prop :=
  ∃ path t, tree.Reaches s path t ∧
    ∃ e ∈ t.exprs, ∃ outerPath outer, Expr.tree.Reaches e outerPath outer ∧
    outer.isAggregate = true ∧ ∃ place arg, (place, arg) ∈ outer.children ∧
      ∃ places a, Expr.tree.Reaches arg places a ∧ a.isAggregate = true ∧
        (1 < path.count .loop ∨ e ∉ t.projected ∨ (∃ p ∈ outerPath, p.inArg = false) ∨
          place = .percentile ∨ ∃ p ∈ places, p.inContains = false)

lemma aggregateInWhere_iff (h : validateStatement O s = .ok ()) :
    s.AggregateInWhere ↔ s.HiddenInWhere := by
  constructor
  · rintro ⟨path, t, hpath, w, hw, e, he, places, a, hplaces, ha⟩
    refine ⟨path, t, hpath, w, hw, e, he, places, a, hplaces, ha, ?_⟩
    by_contra hseen
    simp only [not_or, not_lt, not_not, not_exists, not_and, Bool.not_eq_false] at hseen
    obtain ⟨hloops, hchecked, hentered⟩ := hseen
    have hfound := exprContainsAggregate_iff.mpr ⟨places, a, hplaces, ha, hentered⟩
    rw [(checked_of_accepted h hpath hloops).wheres w hchecked e he] at hfound
    exact Bool.false_ne_true hfound
  · rintro ⟨path, t, hpath, w, hw, e, he, places, a, hplaces, ha, -⟩
    exact ⟨path, t, hpath, w, hw, e, he, places, a, hplaces, ha⟩

lemma aggregateInArg_iff (h : validateStatement O s = .ok ()) :
    s.AggregateInArg ↔ s.HiddenInArg := by
  constructor
  · rintro ⟨path, t, hpath, e, he, outerPath, outer, houter, hagg, place, arg, harg, places, a,
      hplaces, ha⟩
    refine ⟨path, t, hpath, e, he, outerPath, outer, houter, hagg, place, arg, harg, places,
      a, hplaces,
      ha, ?_⟩
    by_contra hseen
    simp only [not_or, not_lt, not_not, not_exists, not_and, Bool.not_eq_false] at hseen
    obtain ⟨hloops, hprojected, houterSeen, hplace, hentered⟩ := hseen
    have hchecked := (checked_of_accepted h hpath hloops).projected e hprojected
    have hfound := exprContainsAggregate_iff.mpr ⟨places, a, hplaces, ha, hentered⟩
    -- The argument is the one that is checked.
    cases outer with
    | agg fn inner =>
      rcases mem_cons.mp harg with heq | hpercentile
      · obtain ⟨-, rfl⟩ := Prod.mk.inj heq
        rw [exprContainsAggregate_of_checked hchecked houter houterSeen rfl] at hfound
        exact Bool.false_ne_true hfound
      · obtain ⟨e', -, heq⟩ := mem_map.mp hpercentile
        exact hplace (Prod.mk.inj heq).1.symm
    | countStar => cases harg
    | _ => cases hagg
  · rintro ⟨path, t, hpath, e, he, outerPath, outer, houter, hagg, place, arg, harg, places,
      a, hplaces,
      ha, -⟩
    exact ⟨path, t, hpath, e, he, outerPath, outer, houter, hagg, place, arg, harg, places, a,
      hplaces, ha⟩

/-- **What is wrong with an accepted statement is hidden.** -/
theorem clean_iff (h : validateStatement O s = .ok ()) :
    s.Clean ↔ ¬s.HiddenInWhere ∧ ¬s.HiddenInArg := by
  rw [Clean, aggregateInWhere_iff h, aggregateInArg_iff h]

end Statement

lemma Place.inHas_of_inContains {p : Place} (h : p.inContains = true) : p.inHas = true := by
  cases p <;> first | rfl | cases h

/-- The searches agree with each other and miss no aggregate. -/
structure Expr.Detected (e : Expr) : Prop where
  contains : exprContainsAggregate e = true ↔ e.HoldsAggregate
  exprHas : exprHasAggregation e = true ↔ e.HoldsAggregate
  has : hasAggregation e = true ↔ e.HoldsAggregate

/-- **When the searches miss nothing.** -/
theorem Expr.detected_iff (e : Expr) : e.Detected ↔ (e.HoldsAggregate → ∃ places a,
    tree.Reaches e places a ∧ a.isAggregate = true ∧ ∀ p ∈ places, p.inContains = true) := by
  constructor
  · intro h hholds
    exact exprContainsAggregate_iff.mp (h.contains.mpr hholds)
  · intro h
    have hcontains : e.HoldsAggregate → exprContainsAggregate e = true :=
      fun hholds => exprContainsAggregate_iff.mpr (h hholds)
    have hhas : e.HoldsAggregate → exprHasAggregation e = true := fun hholds =>
      Branching.anyBelow_mono (fun _ => Place.inHas_of_inContains) (hcontains hholds)
    refine ⟨⟨fun hfound => ?_, hcontains⟩, ⟨fun hfound => ?_, hhas⟩, ⟨fun hfound => ?_, hhas⟩⟩
    · obtain ⟨places, a, hplaces, ha, -⟩ := exprContainsAggregate_iff.mp hfound
      exact ⟨places, a, hplaces, ha⟩
    all_goals
      obtain ⟨places, a, hplaces, ha, -⟩ := exprHasAggregation_iff.mp hfound
      exact ⟨places, a, hplaces, ha⟩

/-- **When no aggregate is missed.** The searches agree on an expression that holds an aggregate if
one is below operators, function calls, null tests, subscripts and `CASE` only. An accepted
statement has no aggregate where none may be if none is hidden. -/
theorem aggregates_detected_iff (e : Expr) (O : OtherChecks) (s : Statement) :
    (e.Detected ↔ (e.HoldsAggregate → ∃ places a, Expr.tree.Reaches e places a ∧
      a.isAggregate = true ∧ ∀ p ∈ places, p.inContains = true)) ∧
    (validateStatement O s = .ok () → (s.Clean ↔ ¬s.HiddenInWhere ∧ ¬s.HiddenInArg)) :=
  ⟨e.detected_iff, Statement.clean_iff⟩

section Example

def OtherChecks.passing : OtherChecks where
  checkClauses _ := .ok ()
  checkDuplicateColumns _ := .ok ()
  checkAmbiguousAggregations _ := .ok ()
  checkWithAliasing _ := .ok ()
  validateValueVarConflicts _ := .ok ()
  checkExprs _ := .ok ()
  checkForm _ := .ok ()

/-- `[count(*)][0..1]`. -/
def slicedCount : Expr :=
  .slice (.functionCall "__list__" [.countStar]) (some (.literal (.int 0)))
    (some (.literal (.int 1)))

lemma holdsAggregate_slicedCount : slicedCount.HoldsAggregate :=
  ⟨[Place.slice, Place.functionCall], .countStar,
    Branching.reaches_cons_iff.mpr ⟨_, mem_cons_self,
      Branching.reaches_cons_iff.mpr ⟨_, mem_cons_self, .here _⟩⟩, rfl⟩

lemma exprContainsAggregate_slicedCount : exprContainsAggregate slicedCount = false := by
  rw [exprContainsAggregate, Branching.anyBelow_eq]
  rfl

/-- `MATCH (n) WHERE [count(*)][0..1] IS NULL RETURN n`. -/
def slicedWhere : Statement :=
  .query ⟨[⟨⟨some "n", [], none⟩, [], none⟩], some (.expr (.isNull slicedCount)),
    ⟨[⟨.prop "n" "", none, some "n"⟩], false⟩, [], none, none, none⟩

lemma exprContainsAggregate_isNull (e : Expr) :
    exprContainsAggregate (.isNull e) = exprContainsAggregate e := by
  unfold exprContainsAggregate
  rw [Branching.anyBelow_eq]
  change (false || ((true && exprContainsAggregate e) || false)) = exprContainsAggregate e
  rw [Bool.false_or, Bool.true_and, Bool.or_false]

lemma validateStatement_slicedWhere : validateStatement .passing slicedWhere = .ok () := by
  have hitem : checkAggregationArg (.prop "n" "") = .ok () := Branching.checkBelow_leaf rfl
  have hlists : projectionLists slicedWhere = [[⟨.prop "n" "", none, some "n"⟩]] :=
    Branching.gather_leaf rfl
  have hwhere : checkWhere (.expr (.isNull slicedCount)) = .ok () := by
    refine if_neg ?_
    change ¬((exprContainsAggregate (.isNull slicedCount) || false) = true)
    rw [exprContainsAggregate_isNull, exprContainsAggregate_slicedCount]
    exact Bool.false_ne_true
  have hwheres : checkNoAggregateInWhere slicedWhere = .ok () := by
    rw [checkNoAggregateInWhere, Branching.checkBelow_leaf rfl]
    exact Branching.forM_eq_ok_iff.mpr fun w hw => mem_singleton.mp hw ▸ hwhere
  have hprojection : validateProjectionSemantics .passing slicedWhere = .ok () := by
    refine Branching.bind_eq_ok_iff.mpr ⟨?_, Branching.bind_eq_ok_iff.mpr ⟨rfl, hwheres⟩⟩
    rw [hlists]
    refine Branching.forM_eq_ok_iff.mpr fun items hitems => ?_
    obtain rfl := mem_singleton.mp hitems
    refine Branching.bind_eq_ok_iff.mpr ⟨rfl, Branching.bind_eq_ok_iff.mpr ⟨?_, rfl⟩⟩
    exact Branching.forM_eq_ok_iff.mpr fun item hitem' => mem_singleton.mp hitem' ▸ hitem
  rw [validateStatement, Branching.checkBelow_leaf rfl]
  exact Branching.bind_eq_ok_iff.mpr ⟨rfl, Branching.bind_eq_ok_iff.mpr ⟨hprojection, rfl⟩⟩

lemma not_clean_slicedWhere : ¬slicedWhere.Clean := by
  intro h
  obtain ⟨places, a, hplaces, ha⟩ := holdsAggregate_slicedCount
  exact h.1 ⟨[], slicedWhere, .here _, _, mem_cons_self, .isNull slicedCount, mem_cons_self,
    Place.unary :: places, a, Branching.reaches_cons_iff.mpr ⟨_, mem_cons_self, hplaces⟩, ha⟩

/-- `count(*)` is found, and what is wrong with the predicate of a slice is hidden. -/
theorem aggregates_detected_iff_slicedWhere : Expr.countStar.Detected ∧
    ¬(¬slicedWhere.HiddenInWhere ∧ ¬slicedWhere.HiddenInArg) :=
  ⟨(aggregates_detected_iff .countStar .passing slicedWhere).1.mpr fun _ =>
      ⟨[], .countStar, .here _, rfl, fun _ hp => nomatch hp⟩,
    fun h => not_clean_slicedWhere
      (((aggregates_detected_iff .countStar .passing slicedWhere).2
        validateStatement_slicedWhere).mpr h)⟩

/-- `MATCH (n) WHERE count(*) IS NULL SET n.p = 1`. -/
def countedSet : Statement :=
  .set ⟨⟨[⟨⟨some "n", [], none⟩, [], none⟩], some (.expr (.isNull .countStar))⟩,
    [.property "n" "p" (.literal (.int 1))]⟩

lemma validateStatement_countedSet : validateStatement .passing countedSet = .ok () := by
  have hlists : projectionLists countedSet = [] := Branching.gather_leaf rfl
  have hwheres : checkNoAggregateInWhere countedSet = .ok () := Branching.checkBelow_leaf rfl
  have hprojection : validateProjectionSemantics .passing countedSet = .ok () := by
    refine Branching.bind_eq_ok_iff.mpr ⟨?_, Branching.bind_eq_ok_iff.mpr ⟨rfl, hwheres⟩⟩
    rw [hlists]
    rfl
  rw [validateStatement, Branching.checkBelow_leaf rfl]
  exact Branching.bind_eq_ok_iff.mpr ⟨rfl, Branching.bind_eq_ok_iff.mpr ⟨hprojection, rfl⟩⟩

/-- An aggregate below a slice is found by two of the searches only and stays in a predicate; and so
does one in the predicate of a `SET`. -/
theorem aggregates_missed :
    (exprContainsAggregate slicedCount = false ∧ exprHasAggregation slicedCount = true ∧
      slicedCount.HoldsAggregate) ∧
    (validateStatement .passing slicedWhere = .ok () ∧ ¬slicedWhere.Clean) ∧
    (validateStatement .passing countedSet = .ok () ∧ ¬countedSet.Clean) := by
  refine ⟨⟨exprContainsAggregate_slicedCount, ?_, holdsAggregate_slicedCount⟩,
    ⟨validateStatement_slicedWhere, not_clean_slicedWhere⟩, validateStatement_countedSet,
    fun h => ?_⟩
  · obtain ⟨a, hlist, hcount⟩ : ∃ a, (Place.slice, a) ∈ slicedCount.children ∧
        (Place.functionCall, Expr.countStar) ∈ a.children :=
      ⟨_, mem_cons_self, mem_cons_self⟩
    refine exprHasAggregation_iff.mpr ⟨[.slice, .functionCall], .countStar,
      .branch (c := (_, _)) hlist (.branch (c := (_, _)) hcount (.here _)), rfl, ?_⟩
    decide
  · exact h.1 ⟨[], countedSet, .here _, _, mem_cons_self, .isNull .countStar, mem_cons_self,
      [.unary], .countStar, Branching.reaches_cons_iff.mpr ⟨_, mem_cons_self, .here _⟩, rfl⟩

end Example

end IssunDB.Cypher
