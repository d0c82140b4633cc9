import IssunDB.Cypher.Comparison
import IssunDB.Cypher.Equivalence
import IssunDB.Cypher.Intersections

/-!
# Which filters raise

`filter_cannot_raise` admits label tests and comparisons whose operands are literals, parameters and
property reads. Property reads and parameters do raise, and `passes_iff` says exactly when they do
not: the parameters are given, the variables are bound, and what they are bound to has properties.

`GraphView` is what a read inside a statement sees: the committed records, and over them the pending
writes of the statement.
-/

namespace IssunDB.Cypher

/-! ## Reading properties -/

/-- What a statement reads of nodes and relationships. -/
structure GraphView where
  floatTexts : FloatTexts
  committed : Entities
  pendingNode : NodeId → Option Props
  pendingEdge : EdgeId → Option (NodeId × NodeId × Props)
  nodeIsDeleted : NodeId → Bool
  edgeIsDeleted : EdgeId → Bool

/-- `deleted_entity_error`. -/
def deletedEntityError (kind : String) (id : ℕ) : Error :=
  .invalidArgument
    s!"EntityNotFound: DeletedEntityAccess: {kind} {id} was deleted in this statement"

/-- A property of a value that is neither a map nor null. -/
def nonMapValue (ft : FloatTexts) (prop : String) (v : Json) : Error :=
  let text := String.ofList (jsonText ft v)
  .invalidArgument s!"TypeError: property access '{prop}' on non-map value {text}"

/-- A property of the relationships of a variable-length hop. -/
def listOfRelationships (prop : String) : Error :=
  .invalidArgument s!"TypeError: property access '{prop}' on a list of relationships"

/-- `Map::get`, where a missing key is null. -/
def fieldOrNull (fields : List (String × Json)) (key : String) : Json :=
  (getField key fields).getD .null

/-- `id as u64`. -/
def wrapId (i : ℤ) : ℕ := (i % 2 ^ 64).toNat

namespace GraphView

variable (view : GraphView)

/-- What an expression sees: pending writes before committed records. -/
def entities : Entities where
  nodeProps id := (view.pendingNode id).or (view.committed.nodeProps id)
  edge id := (view.pendingEdge id).or (view.committed.edge id)

def nodeReadable (id : NodeId) : Bool :=
  !view.nodeIsDeleted id && (view.entities.nodeProps id).isSome

/-- The relationship can be asked for a property. -/
def edgeReadable (id : EdgeId) : Bool := !view.edgeIsDeleted id && (view.entities.edge id).isSome

def nodeProperty (id : NodeId) (prop : String) : Except Error Json :=
  if view.nodeIsDeleted id then .error (deletedEntityError "node" id)
  else
    match view.entities.nodeProps id with
    | some props => .ok (fieldOrNull props.value.fields prop)
    | none => .error (.nodeNotFound id)

def edgeProperty (id : EdgeId) (prop : String) : Except Error Json :=
  if view.edgeIsDeleted id then .error (deletedEntityError "relationship" id)
  else
    match view.entities.edge id with
    | some (_, _, props) => .ok (fieldOrNull props.value.fields prop)
    | none => .error (.edgeNotFound id)

def valueProperty (v : Json) (prop : String) : Except Error Json :=
  match v with
  | .object m =>
    if typeTag m = some "__Node__" then
      match (getField "id" m).bind Json.asI64 with
      | some i => view.nodeProperty (wrapId i) prop
      | none => .ok .null
    else if typeTag m = some "__Edge__" then
      match (getField "id" m).bind Json.asI64 with
      | some i => view.edgeProperty (wrapId i) prop
      | none => .ok .null
    else .ok (fieldOrNull m prop)
  | .null => .ok .null
  | v => .error (nonMapValue view.floatTexts prop v)

/-- `Expr::Prop` on what the variable is bound to. -/
def property (b : GraphBinding) (prop : String) : Except Error Json :=
  if prop = "" then
    match view.entities.bindingValue b, b with
    | some v, _ => .ok v
    | none, .node id => .error (.nodeNotFound id)
    | none, .edge id => .error (.edgeNotFound id)
    -- The first relationship of the list that is not there.
    | none, .edgeList ids =>
      .error (.edgeNotFound ((ids.find? fun id => (view.entities.edge id).isNone).getD 0))
    | none, .scalar _ => .error .storage
  else
    match b with
    | .node id => view.nodeProperty id prop
    | .edge id => view.edgeProperty id prop
    | .edgeList _ => .error (listOfRelationships prop)
    | .scalar v => view.valueProperty v prop

end GraphView

/-! ## Comparing -/

/-- The verdict of `evaluate_where` on a comparison. -/
def whereVerdict (op : BinaryOperator) (lv rv : Json) : Bool :=
  match op with
  | .eq => cypherEq lv rv = some true
  | .ne => cypherEq lv rv = some false
  | .lt => jsonCmp lv rv = some .lt
  | .gt => jsonCmp lv rv = some .gt
  | .le => jsonCmp lv rv = some .lt || jsonCmp lv rv = some .eq
  | .ge => jsonCmp lv rv = some .gt || jsonCmp lv rv = some .eq
  | _ => false

/-- `compare_values` as a value. -/
def comparedValue (op : BinaryOperator) (lv rv : Json) : Except Error Json :=
  match compareValues lv rv op with
  | .ok (some b) => .ok (.bool b)
  | .ok none => .ok .null
  | .error text => .error (.invalidArgument text)

def Engine.reading (E : Engine) (view : GraphView) : Engine :=
  { E with property := view.property, compareValues := comparedValue, verdict := whereVerdict }

/-! ## When nothing raises -/

/-- A value that can be asked for a property: null, a map, or an entity that is there. -/
def GraphView.valueReadable (view : GraphView) : Json → Bool
  | .object m =>
    match typeTag m, (getField "id" m).bind Json.asI64 with
    | some "__Node__", some i => view.nodeReadable (wrapId i)
    | some "__Edge__", some i => view.edgeReadable (wrapId i)
    | _, _ => true
  | .null => true
  | _ => false

/-- What a variable is bound to can be asked for a property. -/
def GraphView.readable (view : GraphView) : GraphBinding → Bool
  | .node id => view.nodeReadable id
  | .edge id => view.edgeReadable id
  | .edgeList _ => false
  | .scalar v => view.valueReadable v

/-- The parameter is given; the variable is bound to something that can be asked for a property. -/
def GraphView.given (view : GraphView) (params : Params) (row : PathMap) : Expr → Bool
  | .param p => (params.get p).isSome
  | .prop v _ =>
    match row.get v with
    | some b => view.readable b
    | none => v.startsWith "_path_"
  | _ => true

/-- Both operands of a comparison are given. -/
def GraphView.filterGiven (view : GraphView) (params : Params) (row : PathMap) : FilterExpr → Bool
  | .eq l r | .ne l r | .lt l r | .gt l r | .le l r | .ge l r | .expr (.binaryOp _ l r) =>
    view.given params row l && view.given params row r
  | _ => true

section Raising

variable {E : Engine} {view : GraphView} {row : PathMap}

lemma nodeProperty_iff (id : NodeId) (prop : String) :
    (∃ v, view.nodeProperty id prop = .ok v) ↔ view.nodeReadable id = true := by
  unfold GraphView.nodeProperty GraphView.nodeReadable
  cases view.nodeIsDeleted id with
  | true => simp
  | false => cases view.entities.nodeProps id <;> simp

lemma edgeProperty_iff (id : EdgeId) (prop : String) :
    (∃ v, view.edgeProperty id prop = .ok v) ↔ view.edgeReadable id = true := by
  unfold GraphView.edgeProperty GraphView.edgeReadable
  cases view.edgeIsDeleted id with
  | true => simp
  | false => cases view.entities.edge id <;> simp

lemma valueProperty_iff (v : Json) (prop : String) :
    (∃ w, view.valueProperty v prop = .ok w) ↔ view.valueReadable v = true := by
  cases v with
  | object m =>
    unfold GraphView.valueProperty GraphView.valueReadable
    dsimp only
    split
    next htag =>
      rw [htag]
      rcases (getField "id" m).bind Json.asI64 with _ | i
      · simp
      · exact nodeProperty_iff _ prop
    next hnode =>
      split
      next htag =>
        rw [htag]
        rcases (getField "id" m).bind Json.asI64 with _ | i
        · simp
        · exact edgeProperty_iff _ prop
      next hedge =>
        split
        next htag _ => exact absurd htag hnode
        next htag _ => exact absurd htag hedge
        next => simp
  | null => simp [GraphView.valueProperty, GraphView.valueReadable]
  | _ => simp [GraphView.valueProperty, GraphView.valueReadable]

/-- **One property read** raises unless what is read has properties. -/
theorem property_iff {prop : String} (hprop : prop ≠ "") (b : GraphBinding) :
    (∃ v, view.property b prop = .ok v) ↔ view.readable b = true := by
  unfold GraphView.property
  rw [if_neg hprop]
  cases b with
  | node id => exact nodeProperty_iff id prop
  | edge id => exact edgeProperty_iff id prop
  | edgeList ids => simp [GraphView.readable]
  | scalar v => exact valueProperty_iff v prop

/-- **One operand.** -/
theorem operand_iff {x : Expr} (hx : operandCannotRaise x = true) :
    (∃ v, (E.reading view).operand row x = .ok v) ↔ view.given E.params row x = true := by
  cases x with
  | literal l => simp [Engine.operand, GraphView.given]
  | param p =>
    have hparams : (E.reading view).params = E.params := rfl
    unfold Engine.operand GraphView.given
    rw [hparams]
    cases hget : E.params.get p with
    | none => simp [hget]
    | some v => simp [hget]
  | prop v p =>
    have hp : p ≠ "" := by simpa [operandCannotRaise] using hx
    unfold Engine.operand GraphView.given
    dsimp only
    rcases row.get v with _ | b
    · dsimp only
      -- The variable of a path that is not built is null.
      split
      next hpath =>
        rw [hpath]
        exact property_iff hp (.scalar .null)
      next hpath => simp [hpath]
    · exact property_iff hp b
  | _ => cases hx

variable {op : BinaryOperator}

lemma comparedValue_ok (hop : Engine.isComparisonOp op = true) (lv rv : Json) :
    ∃ v, comparedValue op lv rv = .ok v := by
  have hok : ∃ o, compareValues lv rv op = .ok o := by
    unfold compareValues
    by_cases hnull : lv = .null ∨ rv = .null
    · exact ⟨none, if_pos hnull⟩
    · rw [if_neg hnull]
      by_cases hnan : isNan lv ∨ isNan rv
      · cases op <;> first | exact ⟨_, rfl⟩ | exact ⟨_, if_pos hnan⟩ | exact absurd hop (by decide)
      · cases op <;> first | exact ⟨_, rfl⟩ | exact ⟨_, if_neg hnan⟩ | exact absurd hop (by decide)
  obtain ⟨o, ho⟩ := hok
  unfold comparedValue
  rw [ho]
  cases o <;> exact ⟨_, rfl⟩

/-- A computation on two results succeeds iff both are there, where its end never fails. -/
theorem bind₂_iff {x y : Except Error Json} {α : Type} {f : Json → Json → Except Error α}
    (hf : ∀ v w, ∃ b, f v w = .ok b) :
    (∃ b, (do let v ← x; let w ← y; f v w) = .ok b) ↔
      (∃ v, x = .ok v) ∧ ∃ w, y = .ok w := by
  rcases x with e | v
  · constructor
    · rintro ⟨b, hb⟩
      cases hb
    · rintro ⟨⟨v, hv⟩, -⟩
      cases hv
  · rcases y with e | w
    · constructor
      · rintro ⟨b, hb⟩
        cases hb
      · rintro ⟨-, w, hw⟩
        cases hw
    · exact ⟨fun _ => ⟨⟨v, rfl⟩, w, rfl⟩, fun _ => hf v w⟩

lemma compare_iff {l r : Expr} (h : (operandCannotRaise l && operandCannotRaise r) = true) :
    (∃ b, (E.reading view).compare op l r row = .ok b) ↔
      (view.given E.params row l && view.given E.params row r) = true := by
  obtain ⟨hl, hr⟩ := Bool.and_eq_true_iff.mp h
  rw [Bool.and_eq_true_iff, ← operand_iff hl, ← operand_iff hr]
  exact bind₂_iff fun v w => ⟨_, rfl⟩

lemma predicate_iff {l r : Expr} (hop : Engine.isComparisonOp op = true)
    (hl : operandCannotRaise l = true) (hr : operandCannotRaise r = true) :
    (∃ v, (E.reading view).predicate (.binaryOp op l r) row = .ok v) ↔
      (view.given E.params row l && view.given E.params row r) = true := by
  have hchain : Engine.isComparison l = false := by
    cases l <;> first | rfl | cases hl
  rw [Bool.and_eq_true_iff, ← operand_iff hl, ← operand_iff hr]
  unfold Engine.predicate
  dsimp only
  rw [hop, hchain, if_pos (by rfl)]
  exact bind₂_iff fun v w => comparedValue_ok hop v w

/-- **A filter that `filter_cannot_raise` admits does not raise iff its parameters are given and its
variables bound to what has properties.** -/
theorem passes_iff {f : FilterExpr} (hf : filterCannotRaise f = true) :
    (∃ b, (E.reading view).passes f row = .ok b) ↔
      view.filterGiven E.params row f = true := by
  cases f with
  | hasLabel v label =>
    unfold Engine.passes GraphView.filterGiven
    dsimp only
    split <;> simp
  | eq l r => exact compare_iff hf
  | ne l r => exact compare_iff hf
  | lt l r => exact compare_iff hf
  | gt l r => exact compare_iff hf
  | le l r => exact compare_iff hf
  | ge l r => exact compare_iff hf
  | expr e =>
    cases e with
    | binaryOp op l r =>
      unfold filterCannotRaise at hf
      rw [Bool.and_eq_true_iff, Bool.and_eq_true_iff] at hf
      refine Iff.trans ?_ (predicate_iff hf.1.1 hf.1.2 hf.2)
      unfold Engine.passes
      dsimp only
      cases (E.reading view).predicate (.binaryOp op l r) row with
      | ok v => exact ⟨fun _ => ⟨v, rfl⟩, fun _ => ⟨_, rfl⟩⟩
      | error e =>
        constructor
        · rintro ⟨b, hb⟩
          cases hb
        · rintro ⟨v, hv⟩
          cases hv
    | _ => cases hf

end Raising

/-- A graph of one node without properties. -/
def oneNodeView : GraphView where
  floatTexts := bitsTexts
  committed :=
    ⟨fun id => if id = 0 then some ⟨.object [], Json.wellFormed_empty⟩ else none, fun _ => none⟩
  pendingNode _ := none
  pendingEdge _ := none
  nodeIsDeleted _ := false
  edgeIsDeleted _ := false

theorem passes_iff_oneNode :
    (∃ b, (Engine.openWedge.reading oneNodeView).passes (.eq (.prop "n" "k") (.literal .null))
        (Table.empty.put "n" (.node 0)) = .ok b) ↔
      oneNodeView.filterGiven Engine.openWedge.params (Table.empty.put "n" (.node 0))
        (.eq (.prop "n" "k") (.literal .null)) = true :=
  passes_iff (by decide)

/-- Reading a property of a number raises. -/
theorem filterCannotRaise_raises :
    ¬ ∀ (E : Engine) (view : GraphView) (f : FilterExpr) (row : PathMap),
        filterCannotRaise f = true → ∃ b, (E.reading view).passes f row = .ok b := by
  intro h
  let f : FilterExpr := .eq (.prop "x" "k") (.literal .null)
  let one : Json := .number (.posInt 1 (by decide))
  let row : PathMap := Table.empty.put "x" (.scalar one)
  obtain ⟨b, hb⟩ := h Engine.openWedge oneNodeView f row (by decide)
  have hraise : (Engine.openWedge.reading oneNodeView).passes f row =
      .error (nonMapValue bitsTexts "k" one) := rfl
  rw [hraise] at hb
  cases hb

end IssunDB.Cypher
