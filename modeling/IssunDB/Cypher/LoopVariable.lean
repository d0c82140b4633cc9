import IssunDB.Cypher.Ast

/-!
# The loop variable of FOREACH

The body of a `FOREACH` runs with its loop variable replaced by a parameter of the same name:
`x` becomes `$x` and `x.prop` becomes `$x["prop"]`. A quantifier, a list comprehension, a
`reduce` or an inner `FOREACH` over the same name shadows the replacement in its body. The body of
an `EXISTS` query is left as it is.
-/

namespace IssunDB.Cypher

mutual

/-- `subst_loop_var_expr`. -/
def substLoopVarExpr (v : String) : Expr → Expr
  | .prop w p =>
    if w = v then
      if p = "" then .param v else .subscript (.param v) (.literal (.str p))
    else .prop w p
  | .literal l => .literal l
  | .param p => .param p
  | .countStar => .countStar
  | .hasLabel w l => .hasLabel w l
  -- The percentile of an aggregation is not an inner expression here.
  | .agg f inner => .agg f (substLoopVarExpr v inner)
  | .quantifier kind w list predicate =>
    .quantifier kind w (substLoopVarExpr v list)
      (if w = v then predicate else substLoopVarExpr v predicate)
  | .functionCall name args => .functionCall name (substLoopVarExprs v args)
  | .binaryOp op left right => .binaryOp op (substLoopVarExpr v left) (substLoopVarExpr v right)
  | .isNull inner => .isNull (substLoopVarExpr v inner)
  | .isNotNull inner => .isNotNull (substLoopVarExpr v inner)
  | .not inner => .not (substLoopVarExpr v inner)
  | .case subject arms elseExpr =>
    .case (substLoopVarOption v subject) (substLoopVarArms v arms) (substLoopVarOption v elseExpr)
  | .subscript e index => .subscript (substLoopVarExpr v e) (substLoopVarExpr v index)
  | .slice e start stop =>
    .slice (substLoopVarExpr v e) (substLoopVarOption v start) (substLoopVarOption v stop)
  | .listComprehension w list predicate transform =>
    .listComprehension w (substLoopVarExpr v list)
      (if w = v then predicate else substLoopVarOption v predicate)
      (if w = v then transform else substLoopVarOption v transform)
  | .patternPredicate pattern => .patternPredicate (substLoopVarPattern v pattern)
  | .patternComprehension pattern predicate transform =>
    .patternComprehension (substLoopVarPattern v pattern) (substLoopVarOption v predicate)
      (substLoopVarExpr v transform)
  | .existsSubquery pattern predicate =>
    .existsSubquery (substLoopVarPattern v pattern) (substLoopVarOption v predicate)
  | .existsQuery body => .existsQuery body
  | .reduce accumulator initial w list expression =>
    .reduce accumulator (substLoopVarExpr v initial) w (substLoopVarExpr v list)
      (if w = v ∨ accumulator = v then expression else substLoopVarExpr v expression)

/-- The substitution in a list of expressions. -/
def substLoopVarExprs (v : String) : List Expr → List Expr
  | [] => []
  | e :: es => substLoopVarExpr v e :: substLoopVarExprs v es

/-- The substitution in an optional expression. -/
def substLoopVarOption (v : String) : Option Expr → Option Expr
  | none => none
  | some e => some (substLoopVarExpr v e)

/-- The substitution in the arms of a `CASE`. -/
def substLoopVarArms (v : String) : List CaseArm → List CaseArm
  | [] => []
  | ⟨w, t⟩ :: arms => ⟨substLoopVarExpr v w, substLoopVarExpr v t⟩ :: substLoopVarArms v arms

def substLoopVarEntries (v : String) : List (String × Expr) → List (String × Expr)
  | [] => []
  | (k, e) :: entries => (k, substLoopVarExpr v e) :: substLoopVarEntries v entries

/-- The substitution in an inline property map. -/
def substLoopVarProps (v : String) : Option (List (String × Expr)) → Option (List (String × Expr))
  | none => none
  | some entries => some (substLoopVarEntries v entries)

def substLoopVarNode (v : String) : NodePattern → NodePattern
  | ⟨var, labels, properties⟩ => ⟨var, labels, substLoopVarProps v properties⟩

/-- The substitution in a relationship of a pattern. -/
def substLoopVarRel (v : String) : RelationshipPattern → RelationshipPattern
  | ⟨var, relType, isIncoming, isUndirected, range, properties⟩ =>
    ⟨var, relType, isIncoming, isUndirected, range, substLoopVarProps v properties⟩

def substLoopVarHops (v : String) :
    List (RelationshipPattern × NodePattern) → List (RelationshipPattern × NodePattern)
  | [] => []
  | (rel, target) :: hops =>
    (substLoopVarRel v rel, substLoopVarNode v target) :: substLoopVarHops v hops

/-- `subst_loop_var_pattern`: the substitution in the inline property maps of a pattern. -/
def substLoopVarPattern (v : String) : Pattern → Pattern
  | ⟨node, rels, pathVariable⟩ => ⟨substLoopVarNode v node, substLoopVarHops v rels, pathVariable⟩

end

/-- `subst_loop_var_set_item`. -/
def substLoopVarSetItem (v : String) : SetItem → SetItem
  | .property w p e => .property w p (substLoopVarExpr v e)
  | .allProperties w e merge => .allProperties w (substLoopVarExpr v e) merge
  | .labels w labels => .labels w labels

/-- The substitution in a predicate. -/
def substLoopVarWhere (v : String) : WhereClause → WhereClause
  | .eq l r => .eq (substLoopVarExpr v l) (substLoopVarExpr v r)
  | .ne l r => .ne (substLoopVarExpr v l) (substLoopVarExpr v r)
  | .lt l r => .lt (substLoopVarExpr v l) (substLoopVarExpr v r)
  | .gt l r => .gt (substLoopVarExpr v l) (substLoopVarExpr v r)
  | .le l r => .le (substLoopVarExpr v l) (substLoopVarExpr v r)
  | .ge l r => .ge (substLoopVarExpr v l) (substLoopVarExpr v r)
  | .expr e => .expr (substLoopVarExpr v e)

def substLoopVarMatched (v : String) (m : Matched) : Matched where
  matchClauses := m.matchClauses.map (substLoopVarPattern v)
  whereClause := m.whereClause.map (substLoopVarWhere v)

/-- The substitution in a `MERGE`. -/
def substLoopVarMerge (v : String) (m : MergeStatement) : MergeStatement where
  pattern := substLoopVarPattern v m.pattern
  onCreateSet := m.onCreateSet.map (substLoopVarSetItem v)
  onMatchSet := m.onMatchSet.map (substLoopVarSetItem v)

/-- The substitution in a clause of a query. -/
def substLoopVarPart (v : String) : QueryPart → QueryPart
  | .match_ patterns w =>
    .match_ (patterns.map (substLoopVarPattern v)) (w.map (substLoopVarWhere v))
  | .optionalMatch patterns w =>
    .optionalMatch (patterns.map (substLoopVarPattern v)) (w.map (substLoopVarWhere v))
  | .create patterns => .create (patterns.map (substLoopVarPattern v))
  | .merge merges => .merge (merges.map (substLoopVarMerge v))
  | .set items => .set (items.map (substLoopVarSetItem v))
  | .delete targets detach => .delete (targets.map (substLoopVarExpr v)) detach
  | .unwind e w => if w = v then .unwind e w else .unwind (substLoopVarExpr v e) w
  | other => other

mutual

/-- `subst_loop_var_stmt`. A statement that is not accepted in the body of a `FOREACH` is left as
it is, and so is `REMOVE`. -/
def substLoopVarStmt (v : String) : Statement → Statement
  | .create c => .create { patterns := c.patterns.map (substLoopVarPattern v) }
  | .set s =>
    .set { toMatched := substLoopVarMatched v s.toMatched
           setItems := s.setItems.map (substLoopVarSetItem v) }
  | .delete d =>
    .delete { toMatched := substLoopVarMatched v d.toMatched
              targets := d.targets.map (substLoopVarExpr v)
              detach := d.detach }
  | .merge m => .merge (substLoopVarMerge v m)
  -- The projection, its order and its window are not substituted.
  | .query ⟨matchClauses, whereClause, returnClause, parts, orderBy, skip, limit⟩ =>
    .query ⟨matchClauses.map (substLoopVarPattern v), whereClause.map (substLoopVarWhere v),
      returnClause, parts.map (substLoopVarPart v), orderBy, skip, limit⟩
  | .foreach w list body =>
    .foreach w (substLoopVarExpr v list) (if w = v then body else substLoopVarStmts v body)
  | other => other

/-- The substitution in a body. -/
def substLoopVarStmts (v : String) : List Statement → List Statement
  | [] => []
  | s :: ss => substLoopVarStmt v s :: substLoopVarStmts v ss

end

/-! ## Nesting -/

mutual

/-- How deep `FOREACH` statements are nested in a statement. -/
def Statement.loopDepth : Statement → ℕ
  | .foreach _ _ body => Statement.loopDepths body + 1
  | _ => 0

/-- The deepest nesting in a body. -/
def Statement.loopDepths : List Statement → ℕ
  | [] => 0
  | s :: ss => max s.loopDepth (Statement.loopDepths ss)

end

lemma Statement.loopDepth_le_loopDepths {s : Statement} {body : List Statement} (h : s ∈ body) :
    s.loopDepth ≤ loopDepths body := by
  induction body with
  | nil => simp at h
  | cons t ts ih =>
    rw [loopDepths]
    rcases List.mem_cons.mp h with rfl | h
    · exact le_max_left _ _
    · exact (ih h).trans (le_max_right _ _)

mutual

/-- The substitution keeps the nesting. -/
theorem loopDepth_substLoopVarStmt (v : String) :
    (s : Statement) → (substLoopVarStmt v s).loopDepth = s.loopDepth
  | .foreach w list body => by
    rw [substLoopVarStmt]
    split
    · rfl
    · rw [Statement.loopDepth, Statement.loopDepth, loopDepths_substLoopVarStmts]
  | .query ⟨_, _, _, _, _, _, _⟩ => rfl
  | .create _ | .set _ | .delete _ | .merge _ | .createIndex _ | .dropIndex _ | .setAutoIndex _
  | .remove _ | .union .. | .createAndReturn _ | .setAndReturn _ | .createConstraint _
  | .dropConstraint _ | .mergeAndReturn _ | .deleteAndReturn _ | .removeAndReturn _ | .copy _
  | .exportDatabase _ | .importDatabase _ | .pipeline _ => rfl

/-- The substitution keeps the deepest nesting of a body. -/
theorem loopDepths_substLoopVarStmts (v : String) :
    (body : List Statement) → Statement.loopDepths (substLoopVarStmts v body) =
      Statement.loopDepths body
  | [] => rfl
  | s :: ss => by
    rw [substLoopVarStmts, Statement.loopDepths, Statement.loopDepths,
      loopDepth_substLoopVarStmt, loopDepths_substLoopVarStmts]

end

end IssunDB.Cypher
