import IssunDB.Atomicity
import IssunDB.Cypher.LoopVariable

/-!
# Execution of statements

How a Cypher statement uses the graph handle: which transactions it opens, in which order, and what
runs inside them.

A statement runs in a `Session`, the graph with the storage engine's answers to the commits to come.
The storage engine has one writer, so a call that opens a write transaction while the same thread
holds one never returns; `Halt.blocked` is that outcome. Inside a transaction a statement is a
program over the transaction (`InTxn`), which carries the overlay of the writes made so far.

What one clause computes on its rows is a parameter, `Executors`: the row pipeline of a query and
the writing clauses. They are given the transaction they work on and no graph handle to open another
with, so the transactions below are the only ones a statement opens.
-/

namespace IssunDB.Cypher

abbrev Params := Table String Json

/-- What a variable of a row is bound to. -/
inductive GraphBinding where
  | node (n : NodeId)
  | edge (id : EdgeId)
  | edgeList (ids : List EdgeId)
  | scalar (v : Json)
  deriving DecidableEq

/-- A row of variable bindings. -/
abbrev PathMap := Table String GraphBinding

/-- The tabular result of a statement. -/
structure QueryResult where
  columns : List String
  records : List (List Json)
  statementCount : ℕ
  deriving DecidableEq

def QueryResult.empty : QueryResult := ⟨[], [], 1⟩

/-! ## Sessions -/

/-- Why a call did not succeed. -/
inductive Halt where
  | failed (e : Error)
  /-- The call waits for the write transaction its own thread holds. -/
  | blocked
  deriving DecidableEq

/-- The graph, with the storage engine's answers to the next commits. Once they are used up, every
commit is accepted. -/
structure Session where
  graph : Graph
  commits : List (Except Error Unit)

/-- A computation on the graph handle. -/
abbrev Run := Exec Halt Session

/-- A computation inside a write transaction, over the overlay of its pending writes. It ends
without a value when it blocks. -/
def InTxn (O α : Type) : Type := O → Prog (Option (α × O))

/-- Continue a closure with its result. -/
def Prog.bind {α β : Type} : Prog α → (α → Prog β) → Prog β
  | .done (.ok a), f => f a
  | .done (.error e), _ => .done (.error e)
  | .call op next, f => .call op fun r => Prog.bind (next r) f

lemma Prog.run_bind [TextLib] {α β : Type} (p : Prog α) (f : α → Prog β) (w : WriteTxn) :
    (Prog.bind p f).run w =
      match p.run w with
      | (.ok a, w') => (f a).run w'
      | (.error e, w') => (.error e, w') := by
  induction p generalizing w with
  | done result => rcases result with e | a <;> rfl
  | call op next ih => exact ih _ _

/-- A sequence that succeeds is a success of both parts. -/
theorem bind_eq_ok {ε α β : Type} {x : Except ε α} {f : α → Except ε β} {b : β}
    (h : (x >>= f) = .ok b) : ∃ a, x = .ok a ∧ f a = .ok b := by
  rcases x with e | a
  · cases h
  · exact ⟨a, rfl, h⟩

namespace InTxn

variable {O α β : Type}

instance : Monad (InTxn O) where
  pure a := fun o => .done (.ok (some (a, o)))
  bind m f := fun o => Prog.bind (m o) fun
    | some (a, o) => f a o
    | none => .done (.ok none)

/-- A clause that works on the transaction it is given. -/
def clause (p : O → Prog (α × O)) : InTxn O α := fun o => Prog.bind (p o) fun r =>
  .done (.ok (some r))

/-- A computation that only reads. -/
def check (f : O → Except Error α) : InTxn O α := fun o =>
  match f o with
  | .ok a => .done (.ok (some (a, o)))
  | .error e => .done (.error e)

end InTxn

/-- What a query computed: the columns of a lone `*`, and the records. -/
structure Rows where
  starColumns : List String
  records : List (List Json)
  deriving DecidableEq

/-- The computations of single clauses. Each works on the committed graph, on the overlay of the
pending writes if one is installed, and on the transaction it runs in. -/
structure Executors where
  /-- The pending writes of the transaction, as the reads of its statements see them. -/
  Overlay : Type
  /-- No writes yet. -/
  install : Overlay
  /-- A list of column names, `{:?}`. -/
  debugColumns : List String → String
  /-- `expr_display_name`. -/
  exprDisplayName : Expr → String
  /-- `canonical_row_key`. -/
  canonicalRowKey : List Json → String
  /-- `evaluate_expr` on the empty row. -/
  evaluateExpr : Graph → Option Overlay → Params → Expr → Except Error Json
  /-- The rows of a procedure called with evaluated arguments: a built-in of this name, else the
  registered one. The arguments after the values are whether they are implicit, whether the call
  stands in a larger query, its `YIELD` items, whether it is `YIELD *`, and the variables in
  scope. -/
  resolveCall : Graph → Params → String → List Json → Bool → Bool →
    Option (List (String × Option String)) → Bool → Finset String → Except Error ResolvedCall
  /-- The rows of a query that runs outside a transaction. -/
  readRows : Graph → Option Overlay → Params → Query → Except Error Rows
  /-- The rows of a query that runs inside one. -/
  writeRows : Graph → Params → Query → Overlay → Prog (Rows × Overlay)
  /-- `execute_create_internal_with_context`. -/
  createPattern : Graph → Params → PathMap → Pattern → Overlay → Prog (PathMap × Overlay)
  /-- The path variable of a created pattern, bound to the path it wrote. -/
  bindWrittenPath : Graph → PathMap → Pattern → Overlay → Except Error PathMap
  /-- The projection of the bindings a `CREATE ... RETURN` made. -/
  createdRecords :
    Graph → Params → PathMap → CreateAndReturnStatement → Overlay → Except Error (List (List Json))
  /-- `execute_set_in`. -/
  setIn : Graph → Params → SetStatement → Overlay → Prog (Unit × Overlay)
  /-- `execute_delete_in`. -/
  deleteIn : Graph → Params → DeleteStatement → Overlay → Prog (Unit × Overlay)
  /-- `execute_merge_internal_with_context` on the empty row. -/
  mergeIn : Graph → Params → MergeStatement → Overlay → Prog (Unit × Overlay)
  /-- `execute_remove_in`. -/
  removeIn : Graph → Params → RemoveStatement → Overlay → Prog (Unit × Overlay)
  /-- The rows of a copied file: what they are, and, if there is one, the closure that adds them and
  counts them. -/
  copyRows : Graph → Params → CopyStatement → Except Error (String × Option (Prog ℕ))
  /-- The rebuilds of the snapshot and the columns after a bulk load. -/
  refreshCaches : Graph → Except Error Unit
  /-- `execute_export_db`. -/
  exportDb : Graph → Params → ExportDatabaseStatement → Except Error Unit
  /-- `execute_import_db`, which executes the scripts it finds in a directory. -/
  importDb : Option Overlay → Params → ImportDatabaseStatement → Run QueryResult

section Sessions

variable [TextLib] {α : Type}

/-- The storage engine's answer to the next commit. -/
def Session.commit (s : Session) : Except Error Unit := s.commits.headD (.ok ())

/-- Run a write operation of the graph in a transaction of its own. -/
def transaction (held : Bool) (f : Except Error Unit → Graph → Except Error α × Graph) : Run α :=
  fun s =>
    if held then (.error .blocked, s)
    else ((f s.commit s.graph).1.mapError .failed, ⟨(f s.commit s.graph).2, s.commits.tail⟩)

/-- The closure `Graph::update` is given, once it is known not to block. -/
def InTxn.closure {O : Type} (m : InTxn O α) (o : O) : Prog α := Prog.bind (m o) fun
  | some (a, _) => .done (.ok a)
  | none => .done (.error .storage)

/-- The computation asks for a second write transaction. -/
def InTxn.blocks {O : Type} (m : InTxn O α) (o : O) (g : Graph) : Bool :=
  match ((m o).run (.begin g.storage)).1 with
  | .ok none => true
  | _ => false

/-- `Graph::update`, with a computation that may itself ask for a write transaction. -/
def update {O : Type} (held : Bool) (o : O) (m : Graph → InTxn O α) : Run α := fun s =>
  if held || (m s.graph).blocks o s.graph then (.error .blocked, s)
  else transaction false (fun commit g => g.update commit ((m g).closure o)) s

/-- A computation that only reads the committed graph. -/
def reads (f : Graph → Except Error α) : Run α := fun s => ((f s.graph).mapError .failed, s)

end Sessions

/-! ## Queries -/

def QueryPart.writes : QueryPart → Bool
  | .create _ | .merge _ | .set _ | .delete .. | .remove _ => true
  | _ => false

/-- `query_has_write_parts`. -/
def queryHasWriteParts (q : Query) : Bool := q.parts.any QueryPart.writes

def QueryPart.isCall : QueryPart → Bool
  | .call .. => true
  | _ => false

/-- `is_star_item`. -/
def isStarItem (item : ReturnItem) : Bool :=
  match item.expr with
  | .functionCall name _ => name = "__star__"
  | _ => false

/-- `collect_pattern_vars`. -/
def Pattern.vars (p : Pattern) : Finset String :=
  p.node.var.toFinset ∪ (p.rels.flatMap fun hop => hop.1.var.toList ++ hop.2.var.toList).toFinset ∪
    p.pathVariable.toFinset

/-- The variables in scope after a clause other than a call. -/
def QueryPart.scope (vars : Finset String) : QueryPart → Finset String
  | .match_ patterns _ | .optionalMatch patterns _ =>
    patterns.foldl (fun vars p => vars ∪ p.vars) vars
  | .unwind _ v => insert v vars
  | .with_ items .. => items.foldl (fun next item =>
      match item.aliasName, isStarItem item, item.expr with
      | some a, _, _ => insert a next
      | none, true, _ => next ∪ vars
      | none, false, .prop v "" => insert v next
      | none, false, _ => next) ∅
  | _ => vars

/-- The query `MATCH ... <clause> RETURN ...` the forms that return rows run. -/
def syntheticQuery (parts : List QueryPart) (p : Projection) : Query :=
  ⟨[], none, p.returnClause, parts, p.orderBy, p.skip, p.limit⟩

/-- The query of a `SET ... RETURN`. -/
def SetAndReturnStatement.toQuery (s : SetAndReturnStatement) : Query :=
  syntheticQuery [.match_ s.matchClauses s.whereClause, .set s.setItems] s.toProjection

/-- The query of a `DELETE ... RETURN`. -/
def DeleteAndReturnStatement.toQuery (d : DeleteAndReturnStatement) : Query :=
  syntheticQuery [.match_ d.matchClauses d.whereClause, .delete d.targets d.detach] d.toProjection

/-- The query of a `REMOVE ... RETURN`. -/
def RemoveAndReturnStatement.toQuery (r : RemoveAndReturnStatement) : Query :=
  syntheticQuery [.match_ r.matchClauses r.whereClause, .remove r.items] r.toProjection

/-- The query of a `MERGE ... RETURN`. -/
def MergeAndReturnStatement.toQuery (m : MergeAndReturnStatement) : Query :=
  syntheticQuery [.merge m.merges] m.toProjection

/-- Add the bindings of a row to another, overwriting on conflict. -/
def PathMap.extend (row more : PathMap) : PathMap :=
  more.toList.foldl (fun row b => row.put b.1 b.2) row

/-- `column_name`, given the names of expressions. -/
def columnName (display : Expr → String) (item : ReturnItem) : String :=
  match item.aliasName, item.sourceText with
  | some a, _ => a
  | none, some text => text
  | none, none => display item.expr

namespace Executors

variable (X : Executors)

/-- The result of a query, from the rows it computed. -/
def tabulate (q : Query) (rows : Rows) : QueryResult :=
  match q.returnClause.items with
  | [] => .empty
  | [item] =>
    if isStarItem item then ⟨rows.starColumns, rows.records, 1⟩
    else ⟨[columnName X.exprDisplayName item], rows.records, 1⟩
  | items => ⟨items.map (columnName X.exprDisplayName), rows.records, 1⟩

/-- Resolve the calls of the clauses of a query. `vars` are the variables in scope before them, and
the last component the output variables of the last call. -/
def resolveParts (g : Graph) (o : Option X.Overlay) (params : Params) (standalone : Bool) :
    List QueryPart → Finset String → Option (List String) →
      Except Error (List QueryPart × Option (List String))
  | [], _, outputs => .ok ([], outputs)
  | .call name args implicitArgs yields yieldStar _ :: parts, vars, _ => do
    let values ← args.mapM fun arg => X.evaluateExpr g o params arg
    let rc ← X.resolveCall g params name values implicitArgs (!standalone) yields yieldStar vars
    let (parts, outputs) ←
      resolveParts g o params standalone parts (vars ∪ rc.outputVars.toFinset) (some rc.outputVars)
    return (.call name args implicitArgs yields yieldStar (some rc) :: parts, outputs)
  | part :: parts, vars, outputs => do
    let (parts, outputs) ← resolveParts g o params standalone parts (part.scope vars) outputs
    return (part :: parts, outputs)

/-- `resolve_call_parts`. A call that is the whole query returns its output variables. -/
def resolveCallParts (g : Graph) (o : Option X.Overlay) (params : Params) (q : Query) :
    Except Error Query := do
  let standalone := q.parts.length = 1 && q.parts.all QueryPart.isCall &&
    q.returnClause.items.isEmpty
  let (parts, outputs) ← X.resolveParts g o params standalone q.parts ∅ none
  let items := if standalone then
    (outputs.getD []).map fun v => ⟨.prop v "", some v, none⟩ else q.returnClause.items
  return ⟨q.matchClauses, q.whereClause, ⟨items, q.returnClause.distinct⟩, parts, q.orderBy,
    q.skip, q.limit⟩

/-- Resolve the calls of a query, if it has any. -/
def resolved (g : Graph) (o : Option X.Overlay) (params : Params) (q : Query) :
    Except Error Query :=
  if q.parts.any QueryPart.isCall then X.resolveCallParts g o params q else .ok q

/-- `execute_read_query` outside a transaction. -/
def executeReadQuery (o : Option X.Overlay) (params : Params) (q : Query) (g : Graph) :
    Except Error QueryResult :=
  (X.readRows g o params q).map (X.tabulate q)

/-- `execute_read_query` in a transaction. -/
def executeReadQueryIn (params : Params) (q : Query) (g : Graph) : InTxn X.Overlay QueryResult := do
  let rows ← InTxn.clause (X.writeRows g params q)
  return X.tabulate q rows

/-! ## Clauses in a transaction -/

def createPatterns (params : Params) (g : Graph) :
    List Pattern → PathMap → InTxn X.Overlay PathMap
  | [], bindings => return bindings
  | pattern :: patterns, bindings => do
    let created ← InTxn.clause (X.createPattern g params bindings pattern)
    createPatterns params g patterns (bindings.extend created)

def createPaths (params : Params) (g : Graph) :
    List Pattern → PathMap → InTxn X.Overlay PathMap
  | [], bindings => return bindings
  | pattern :: patterns, bindings => do
    let created ← InTxn.clause (X.createPattern g params bindings pattern)
    let bindings ← InTxn.check (X.bindWrittenPath g (bindings.extend created) pattern)
    createPaths params g patterns bindings

/-- `execute_create_and_return_body`. -/
def executeCreateAndReturnBody (params : Params) (c : CreateAndReturnStatement) (g : Graph) :
    InTxn X.Overlay QueryResult := do
  let bindings ← X.createPaths params g c.patterns .empty
  let records ← InTxn.check (X.createdRecords g params bindings c)
  return ⟨c.returnClause.items.map (columnName X.exprDisplayName), records, 1⟩

def clauseOnly (p : X.Overlay → Prog (Unit × X.Overlay)) : InTxn X.Overlay QueryResult := do
  InTxn.clause p
  return .empty

/-- The refusal of a statement that cannot stand in the body of a `FOREACH`. -/
def unsupportedInForeach : Error := .invalidArgument "unsupported statement in FOREACH body"

/-- The elements a `FOREACH` walks. -/
def foreachItems : Json → List Json
  | .array items => items
  | .null => []
  | other => [other]

-- The body is rewritten before it runs, so the recursion is on the nesting of the loops.
mutual

/-- `execute_foreach_txn`. -/
def executeForeachTxn (params : Params) (v : String) (list : Expr) (body : List Statement)
    (g : Graph) : InTxn X.Overlay QueryResult := do
  let value ← InTxn.check fun o => X.evaluateExpr g (some o) params list
  (foreachItems value).forM fun element =>
    (substLoopVarStmts v body).attach.forM fun s =>
      executeForeachBody (params.put v element) s.1 g
  return .empty
termination_by (Statement.loopDepths body + 1, 0)
decreasing_by
  have h := Statement.loopDepth_le_loopDepths s.2
  rw [loopDepths_substLoopVarStmts] at h
  exact Prod.Lex.left _ _ (by omega)

/-- `execute_foreach_body`. A `CREATE` runs without the parameters. -/
def executeForeachBody (params : Params) (s : Statement) (g : Graph) :
    InTxn X.Overlay PUnit :=
  match s with
  | .create c => c.patterns.forM fun pattern => do
    let _ ← InTxn.clause (X.createPattern g .empty .empty pattern)
  | .set s => do
    let _ ← InTxn.clause (X.setIn g params s)
  | .delete d => do
    let _ ← InTxn.clause (X.deleteIn g params d)
  | .merge m => do
    let _ ← InTxn.clause (X.mergeIn g params m)
  | .remove r => do
    let _ ← InTxn.clause (X.removeIn g params r)
  | .foreach v list body => do
    let _ ← executeForeachTxn params v list body g
  | .query q =>
    if q.returnClause.items.isEmpty then do
      let _ ← X.executeReadQueryIn params q g
    else InTxn.check fun _ => .error unsupportedInForeach
  | _ => InTxn.check fun _ => .error unsupportedInForeach
termination_by (s.loopDepth, 1)
decreasing_by exact Prod.Lex.right _ (by omega)

end

end Executors

/-! ## Schema statements -/

section Schema

variable [TextLib]

/-- `execute_create_index`: a node index is a text index. -/
def IndexStatement.create (ci : IndexStatement) (commit : Except Error Unit) : Graph.Action :=
  match ci.target with
  | .node => .mutation (.createNodeTextIndex ci.label ci.property .english) commit
  | .relationship => .ddl (.createEdgeIndex ci.label ci.property .index) commit

/-- `execute_drop_index`. -/
def IndexStatement.drop (di : IndexStatement) (commit : Except Error Unit) : Graph.Action :=
  match di.target with
  | .node => .mutation (.dropNodeTextIndex di.label di.property) commit
  | .relationship => .ddl (.dropEdgeIndex di.label di.property .index) commit

def ConstraintKind.role : ConstraintKind → IndexRole
  | unique => .unique
  | «exists» => .required

/-- `execute_create_constraint`. -/
def ConstraintStatement.create (cc : ConstraintStatement) (commit : Except Error Unit) :
    Graph.Action :=
  match cc.target with
  | .node => .ddl (.createNodeIndex cc.label cc.property cc.kind.role) commit
  | .relationship => .ddl (.createEdgeIndex cc.label cc.property cc.kind.role) commit

/-- `execute_drop_constraint`. -/
def ConstraintStatement.drop (dc : ConstraintStatement) (commit : Except Error Unit) :
    Graph.Action :=
  match dc.target with
  | .node => .ddl (.dropNodeIndex dc.label dc.property dc.kind.role) commit
  | .relationship => .ddl (.dropEdgeIndex dc.label dc.property dc.kind.role) commit

def schemaStatement (held : Bool) (action : Except Error Unit → Graph.Action) :
    Run QueryResult := do
  transaction held fun commit g => g.perform (action commit)
  return .empty

/-- The refusal of an automatic index on relationships. -/
def autoIndexOnNodesOnly : Error := .invalidArgument
  "AUTO INDEX applies to node labels only; relationships have no property auto-index"

/-- `execute_set_auto_index`. -/
def executeSetAutoIndex (held : Bool) (ai : AutoIndexStatement) : Run QueryResult :=
  if ai.label.startsWith "()-[" then Exec.throw (.failed autoIndexOnNodesOnly)
  else schemaStatement held fun commit => .ddl (.setLabelAutoIndex ai.label ai.enabled) commit

end Schema

/-! ## Statements -/

/-- `is_data_statement`. -/
def isDataStatement : Statement → Bool
  | .query _ | .create _ | .createAndReturn _ | .set _ | .setAndReturn _ | .delete _
  | .deleteAndReturn _ | .merge _ | .mergeAndReturn _ | .remove _ | .removeAndReturn _
  | .foreach .. | .union .. => true
  | _ => false

/-- `statement_writes`. -/
def statementWrites : Statement → Bool
  | .query q => queryHasWriteParts q
  | .union .. => false
  | other => isDataStatement other

/-- `union_has_mixed_all` of the node `left UNION right`, which keeps duplicates iff `all`. -/
def unionHasMixedAll (all : Bool) : Statement → Statement → Bool
  | left, right => check all left || check all right
where
  /-- The arm is a union of the other kind, or holds one. -/
  check (all : Bool) : Statement → Bool
    | .union left right all' => all' != all || (check all' left || check all' right)
    | _ => false

def mixedUnion : Error := .invalidArgument
  "SyntaxError: mixing UNION and UNION ALL in the same query is not allowed"

/-- The refusal of a statement that cannot join a transaction. The message renders the
statement. -/
def notInPipeline : Error := .invalidArgument "statement cannot run inside an atomic pipeline"

namespace Executors

variable [TextLib] (X : Executors)

def countValue (n : ℕ) : Json :=
  .number (.posInt (n % 2 ^ 64) (Nat.mod_lt _ (by positivity)))

/-- `execute_copy`. -/
def executeCopy (held : Bool) (params : Params) (c : CopyStatement) : Run QueryResult := do
  let (kind, rows) ← reads fun g => X.copyRows g params c
  let count ← match rows with
    | some p => transaction held fun commit g => g.update commit p
    | none => pure 0
  reads X.refreshCaches
  return ⟨["target", "kind", "count"], [[.string c.target, .string kind, countValue count]], 1⟩

/-- The refusal of arms with different columns. -/
def columnMismatch (left right : List String) : Error :=
  let leftText := X.debugColumns left
  let rightText := X.debugColumns right
  .invalidArgument s!"SyntaxError: UNION column mismatch; left {leftText}, right {rightText}"

/-- The union of two results: the first of the records with one key, unless duplicates are kept. -/
def unionResult (all : Bool) (left right : QueryResult) : Except Error QueryResult :=
  if left.columns = right.columns then
    let records := left.records ++ right.records
    .ok ⟨left.columns, if all then records else records.eraseDupsBy fun r s =>
      X.canonicalRowKey r == X.canonicalRowKey s, 1⟩
  else .error (X.columnMismatch left.columns right.columns)

/-- The first patterns of a statement-by-statement pipeline, which bind the variables of the later
ones. -/
def executeCreateIn (held : Bool) (params : Params) (bindings : PathMap) (c : CreateStatement) :
    Run PathMap :=
  update held X.install (X.createPatterns params · c.patterns bindings)

/-- `execute_union`, given how its arms run: one after the other, each as a statement of its own. -/
def executeUnion (all : Bool) (left right : Statement) (runLeft runRight : Run QueryResult) :
    Run QueryResult := do
  if unionHasMixedAll all left right then Exec.throw (.failed mixedUnion)
  let l ← runLeft
  let r ← runRight
  reads fun _ => X.unionResult all l r

/-- A computation on the graph handle by the thread that holds the transaction. -/
def onHandle {α : Type} (run : X.Overlay → Run α) (g : Graph) : InTxn X.Overlay α := fun o =>
  match (run o ⟨g, []⟩).1 with
  | .ok a => .done (.ok (some (a, o)))
  | .error (.failed e) => .done (.error e)
  | .error .blocked => .done (.ok none)

mutual

/-- `execute_statement`. `o` is the overlay of the transaction the thread holds, if it holds
one. -/
def executeStatement (o : Option X.Overlay) (params : Params) : Statement → Run QueryResult
  | .query q => do
    let q ← reads fun g => X.resolved g o params q
    -- A query that writes runs in one transaction, with its projection.
    if queryHasWriteParts q then update o.isSome X.install (X.executeReadQueryIn params q)
    else reads (X.executeReadQuery o params q)
  | .create c => do
    let _ ← X.executeCreateIn o.isSome params .empty c
    return .empty
  | .createAndReturn c => update o.isSome X.install (X.executeCreateAndReturnBody params c)
  | .set s => update o.isSome X.install fun g => X.clauseOnly (X.setIn g params s)
  | .setAndReturn s => update o.isSome X.install (X.executeReadQueryIn params s.toQuery)
  | .delete d => update o.isSome X.install fun g => X.clauseOnly (X.deleteIn g params d)
  | .deleteAndReturn d => update o.isSome X.install (X.executeReadQueryIn params d.toQuery)
  | .merge m => update o.isSome X.install fun g => X.clauseOnly (X.mergeIn g params m)
  | .mergeAndReturn m => update o.isSome X.install (X.executeReadQueryIn params m.toQuery)
  | .remove r => update o.isSome X.install fun g => X.clauseOnly (X.removeIn g params r)
  | .removeAndReturn r => update o.isSome X.install (X.executeReadQueryIn params r.toQuery)
  | .foreach v list body => update o.isSome X.install (X.executeForeachTxn params v list body)
  | .createIndex ci => schemaStatement o.isSome ci.create
  | .dropIndex di => schemaStatement o.isSome di.drop
  | .setAutoIndex ai => executeSetAutoIndex o.isSome ai
  | .createConstraint cc => schemaStatement o.isSome cc.create
  | .dropConstraint dc => schemaStatement o.isSome dc.drop
  | .copy c => X.executeCopy o.isSome params c
  | .exportDatabase e => do
    reads fun g => X.exportDb g params e
    return ⟨["exported"], [[.bool true]], 1⟩
  | .importDatabase i => X.importDb o params i
  | .union left right all =>
    X.executeUnion all left right (executeStatement o params left) (executeStatement o params right)
  -- `execute_pipeline`.
  | .pipeline stmts => do
    let last ←
      if stmts.all isDataStatement && stmts.any statementWrites then
        update o.isSome X.install fun g => executeAll params g stmts .empty .empty
      else executeEach o params stmts .empty .empty
    return { last with statementCount := stmts.length }

/-- The statements of an atomic pipeline, in the transaction of the pipeline. -/
def executeAll (params : Params) (g : Graph) :
    List Statement → PathMap → QueryResult → InTxn X.Overlay QueryResult
  | [], _, last => return last
  | stmt :: stmts, bindings, _ => do
    let (last, bindings) ← executeStatementIn params g stmt bindings
    executeAll params g stmts bindings last

def executeEach (o : Option X.Overlay) (params : Params) :
    List Statement → PathMap → QueryResult → Run QueryResult
  | [], _, last => return last
  | .create c :: stmts, bindings, _ => do
    let bindings ← X.executeCreateIn o.isSome params bindings c
    executeEach o params stmts bindings .empty
  | stmt :: stmts, bindings, _ => do
    let last ← executeStatement o params stmt
    executeEach o params stmts bindings last

/-- `execute_statement_in`: a statement of an atomic pipeline, with the bindings of the `CREATE`
statements before it. -/
def executeStatementIn (params : Params) (g : Graph) :
    Statement → PathMap → InTxn X.Overlay (QueryResult × PathMap)
  | .query q, bindings => do
    let q ← InTxn.check fun o => X.resolved g (some o) params q
    let result ← X.executeReadQueryIn params q g
    return (result, bindings)
  | .create c, bindings => do
    let bindings ← X.createPatterns params g c.patterns bindings
    return (.empty, bindings)
  | .createAndReturn c, bindings => do
    return (← X.executeCreateAndReturnBody params c g, bindings)
  | .set s, bindings => do return (← X.clauseOnly (X.setIn g params s), bindings)
  | .setAndReturn s, bindings => do return (← X.executeReadQueryIn params s.toQuery g, bindings)
  | .delete d, bindings => do return (← X.clauseOnly (X.deleteIn g params d), bindings)
  | .deleteAndReturn d, bindings => do return (← X.executeReadQueryIn params d.toQuery g, bindings)
  | .merge m, bindings => do return (← X.clauseOnly (X.mergeIn g params m), bindings)
  | .mergeAndReturn m, bindings => do return (← X.executeReadQueryIn params m.toQuery g, bindings)
  | .remove r, bindings => do return (← X.clauseOnly (X.removeIn g params r), bindings)
  | .removeAndReturn r, bindings => do return (← X.executeReadQueryIn params r.toQuery g, bindings)
  | .foreach v list body, bindings => do
    return (← X.executeForeachTxn params v list body g, bindings)
  -- The arms of a union go back to the graph handle, in the thread that holds the transaction.
  | .union left right all, bindings => do
    let result ← X.onHandle (fun o => X.executeUnion all left right
      (executeStatement (some o) params left) (executeStatement (some o) params right)) g
    return (result, bindings)
  | _, _ => InTxn.check fun _ => .error notInPipeline

end

end Executors

end IssunDB.Cypher
