import IssunDB.Json
import IssunDB.Lib.F64

/-!
# Cypher statements

The parsed form of a Cypher statement. A map literal of the source's `HashMap` is the list of its
entries, and an integer literal is in the range of a signed 64-bit integer by construction.

Expressions and queries are mutually recursive, because the body of an `EXISTS` may be a whole
query. The statement forms that hold no statements of their own are plain structures over them.
-/

namespace IssunDB.Cypher

/-- A literal value. -/
inductive Literal where
  | str (s : String)
  | int (i : Int64)
  | float (f : Double)
  | bool (b : Bool)
  | null
  | list (items : List Literal)

/-- The kind of a quantifier expression. -/
inductive QuantifierKind where
  | all
  | any
  | none
  | single
  deriving DecidableEq

/-- A binary operator. -/
inductive BinaryOperator where
  | eq | ne | lt | gt | le | ge
  | and | or | xor
  | add | sub | mul | div | mod | pow
  deriving DecidableEq

/-- The bounds of a variable-length relationship. -/
structure RelRange where
  min : Option UInt32
  max : Option UInt32
  deriving DecidableEq

/-- An item of a `REMOVE` clause. -/
inductive RemoveItem where
  | property (var property : String)
  | label (var label : String)
  deriving DecidableEq

/-- What resolving a `CALL` clause against the procedure registry produced. -/
structure ResolvedCall where
  outputVars : List String
  rows : List (List Json)
  deriving DecidableEq

mutual

/-- An aggregation function. -/
inductive AggFn where
  | count (distinct : Bool)
  | sum (distinct : Bool)
  | avg (distinct : Bool)
  | min (distinct : Bool)
  | max (distinct : Bool)
  | collect (distinct : Bool)
  | stDev (distinct : Bool)
  | stDevP (distinct : Bool)
  | percentileDisc (percentile : Expr)
  | percentileCont (percentile : Expr)

/-- An expression. `prop v ""` is the variable `v` itself. -/
inductive Expr where
  | prop (var property : String)
  | literal (l : Literal)
  | param (name : String)
  | countStar
  | agg (fn : AggFn) (inner : Expr)
  | quantifier (kind : QuantifierKind) (var : String) (list predicate : Expr)
  | functionCall (name : String) (args : List Expr)
  | binaryOp (op : BinaryOperator) (left right : Expr)
  | isNull (inner : Expr)
  | isNotNull (inner : Expr)
  | not (inner : Expr)
  | case (subject : Option Expr) (arms : List CaseArm) (elseExpr : Option Expr)
  | subscript (expr index : Expr)
  | slice (expr : Expr) (start stop : Option Expr)
  | listComprehension (var : String) (list : Expr) (predicate transform : Option Expr)
  | patternComprehension (pattern : Pattern) (predicate : Option Expr) (transform : Expr)
  | patternPredicate (pattern : Pattern)
  | existsSubquery (pattern : Pattern) (predicate : Option Expr)
  | existsQuery (body : Query)
  | reduce (accumulator : String) (initial : Expr) (var : String) (list expression : Expr)
  | hasLabel (var label : String)

/-- An arm of a `CASE` expression. -/
structure CaseArm where
  whenExpr : Expr
  thenExpr : Expr

/-- A node of a pattern. Without labels it is unconstrained. -/
structure NodePattern where
  var : Option String
  labels : List String
  properties : Option (List (String × Expr))

/-- A relationship of a pattern. The direction is ignored when it is undirected. -/
structure RelationshipPattern where
  var : Option String
  relType : Option String
  isIncoming : Bool
  isUndirected : Bool
  range : Option RelRange
  properties : Option (List (String × Expr))

/-- A path pattern. -/
structure Pattern where
  node : NodePattern
  rels : List (RelationshipPattern × NodePattern)
  pathVariable : Option String

/-- A predicate of a `WHERE` clause. -/
inductive WhereClause where
  | eq (l r : Expr)
  | ne (l r : Expr)
  | lt (l r : Expr)
  | gt (l r : Expr)
  | le (l r : Expr)
  | ge (l r : Expr)
  | expr (e : Expr)

/-- A sort key. -/
structure SortItem where
  expr : Expr
  ascending : Bool

/-- A projected item. `sourceText` is its text in the query, kept when it has no alias. -/
structure ReturnItem where
  expr : Expr
  aliasName : Option String
  sourceText : Option String

/-- The projection of a query. -/
structure ReturnClause where
  items : List ReturnItem
  distinct : Bool

/-- An update of a `SET` clause. -/
inductive SetItem where
  | property (var property : String) (expr : Expr)
  | labels (var : String) (labels : List String)
  | allProperties (var : String) (expr : Expr) (merge : Bool)

/-- A `MERGE` with its `ON CREATE SET` and `ON MATCH SET`. -/
structure MergeStatement where
  pattern : Pattern
  onCreateSet : List SetItem
  onMatchSet : List SetItem

/-- A clause of a query. -/
inductive QueryPart where
  | match_ (patterns : List Pattern) (where_ : Option WhereClause)
  | optionalMatch (patterns : List Pattern) (where_ : Option WhereClause)
  | with_ (items : List ReturnItem) (where_ whereAfter : Option WhereClause)
      (orderBy : Option (List SortItem)) (skip limit : Option Expr) (distinct : Bool)
  | unwind (expr : Expr) (var : String)
  | create (patterns : List Pattern)
  | merge (merges : List MergeStatement)
  | set (items : List SetItem)
  | delete (targets : List Expr) (detach : Bool)
  | remove (items : List RemoveItem)
  | call (name : String) (args : List Expr) (implicitArgs : Bool)
      (yields : Option (List (String × Option String))) (yieldStar : Bool)
      (resolved : Option ResolvedCall)

/-- A query. -/
structure Query where
  matchClauses : List Pattern
  whereClause : Option WhereClause
  returnClause : ReturnClause
  parts : List QueryPart
  orderBy : Option (List SortItem)
  skip : Option Expr
  limit : Option Expr

end

/-! ## Statements -/

/-- What follows a writing clause in the forms that return rows. -/
structure Projection where
  returnClause : ReturnClause
  orderBy : Option (List SortItem)
  skip : Option Expr
  limit : Option Expr

/-- `CREATE`. -/
structure CreateStatement where
  patterns : List Pattern

/-- The matched rows a `SET`, `DELETE` or `REMOVE` works on. -/
structure Matched where
  matchClauses : List Pattern
  whereClause : Option WhereClause

/-- `MATCH ... SET`. -/
structure SetStatement extends Matched where
  setItems : List SetItem

/-- `MATCH ... DELETE`. -/
structure DeleteStatement extends Matched where
  targets : List Expr
  detach : Bool

/-- `MATCH ... REMOVE`. -/
structure RemoveStatement extends Matched where
  items : List RemoveItem

/-- `CREATE ... RETURN`. -/
structure CreateAndReturnStatement extends CreateStatement, Projection

/-- `MATCH ... SET ... RETURN`. -/
structure SetAndReturnStatement extends SetStatement, Projection

/-- `MATCH ... DELETE ... RETURN`. -/
structure DeleteAndReturnStatement extends DeleteStatement, Projection

/-- `MATCH ... REMOVE ... RETURN`. -/
structure RemoveAndReturnStatement extends RemoveStatement, Projection

/-- `MERGE ... RETURN`. -/
structure MergeAndReturnStatement extends Projection where
  merges : List MergeStatement

/-- Whether a schema statement is about nodes of a label or relationships of a type. -/
inductive SchemaTarget where
  | node
  | relationship
  deriving DecidableEq

/-- `CREATE INDEX` and `DROP INDEX`. -/
structure IndexStatement where
  label : String
  property : String
  target : SchemaTarget
  deriving DecidableEq

/-- `CREATE AUTO INDEX` and `DROP AUTO INDEX`. -/
structure AutoIndexStatement where
  label : String
  enabled : Bool
  deriving DecidableEq

/-- The kind of a constraint. -/
inductive ConstraintKind where
  | unique
  | exists
  deriving DecidableEq

/-- `CREATE CONSTRAINT` and `DROP CONSTRAINT`. -/
structure ConstraintStatement where
  label : String
  property : String
  kind : ConstraintKind
  target : SchemaTarget
  deriving DecidableEq

/-- `COPY ... FROM`. -/
structure CopyStatement where
  target : String
  filepath : String
  options : Option (List (String × Expr))

/-- `EXPORT DATABASE`. -/
structure ExportDatabaseStatement where
  filepath : String
  options : Option (List (String × Expr))

/-- `IMPORT DATABASE`. -/
structure ImportDatabaseStatement where
  filepath : String
  deriving DecidableEq

/-- A Cypher statement. -/
inductive Statement where
  | query (q : Query)
  | create (c : CreateStatement)
  | set (s : SetStatement)
  | delete (d : DeleteStatement)
  | merge (m : MergeStatement)
  | createIndex (ci : IndexStatement)
  | dropIndex (di : IndexStatement)
  | setAutoIndex (ai : AutoIndexStatement)
  | remove (r : RemoveStatement)
  | union (left right : Statement) (all : Bool)
  | createAndReturn (c : CreateAndReturnStatement)
  | setAndReturn (s : SetAndReturnStatement)
  | foreach (var : String) (list : Expr) (body : List Statement)
  | createConstraint (cc : ConstraintStatement)
  | dropConstraint (dc : ConstraintStatement)
  | mergeAndReturn (m : MergeAndReturnStatement)
  | deleteAndReturn (d : DeleteAndReturnStatement)
  | removeAndReturn (r : RemoveAndReturnStatement)
  | copy (c : CopyStatement)
  | exportDatabase (e : ExportDatabaseStatement)
  | importDatabase (i : ImportDatabaseStatement)
  | pipeline (stmts : List Statement)

end IssunDB.Cypher
