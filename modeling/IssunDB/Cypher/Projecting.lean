import IssunDB.Lib.FallibleWrites
import IssunDB.Cypher.AggregateDetection
import IssunDB.Cypher.CountWindow
import IssunDB.Cypher.TrivialFilters

/-!
# Projected values

A projection evaluates its items on each row. On the rows of an aggregation it reads an item under
its name instead, where a free variable of the item is not bound or its evaluation fails; but a name
can be bound on any row.

* `itemBinding_eq` — what an item is bound to;
* `projectRows_faithful_iff` — when a projection raises what its items raise and shows their values.
-/

namespace IssunDB.Cypher

open List Option

/-! ## Free variables -/

/-- The variables of the relationships of a pattern and of the nodes they lead to. -/
def Pattern.relVars (p : Pattern) : Finset String :=
  (p.rels.flatMap fun r => r.1.var.toList ++ r.2.var.toList).toFinset

/-- `collect_pattern_vars`. -/
def collectPatternVars (p : Pattern) : Finset String :=
  p.node.var.toFinset ∪ p.pathVariable.toFinset ∪ p.relVars

namespace Expr

/-- The variables an expression refers to itself. -/
def ownVars : Expr → Finset String
  | prop var _ | hasLabel var _ => {var}
  | patternPredicate pattern => pattern.node.var.toFinset ∪ pattern.relVars
  -- The anchor of a pattern comprehension is never local.
  | patternComprehension pattern _ _ => pattern.node.var.toFinset
  | _ => ∅

/-- The subexpressions, each with the variables bound for it. -/
def scopes : Expr → List (Finset String × Expr)
  | agg _ inner | not inner | isNull inner | isNotNull inner => [(∅, inner)]
  | binaryOp _ left right => [left, right].map (∅, ·)
  | functionCall _ args => args.map (∅, ·)
  | case subject arms elseExpr =>
    (subject.toList ++ (arms.flatMap CaseArm.exprs ++ elseExpr.toList)).map (∅, ·)
  | subscript expr index => [expr, index].map (∅, ·)
  | slice expr start stop => (expr :: (start.toList ++ stop.toList)).map (∅, ·)
  | listComprehension var list predicate transform =>
    (∅, list) :: (predicate.toList ++ transform.toList).map ({var}, ·)
  | reduce accumulator initial var list expression =>
    [(∅, initial), (∅, list), ({accumulator, var}, expression)]
  | quantifier _ var list predicate => [(∅, list), ({var}, predicate)]
  | patternPredicate pattern => pattern.exprs.map (∅, ·)
  -- A subquery of several clauses reports nothing.
  | existsSubquery pattern predicate =>
    (predicate.toList ++ pattern.exprs).map (collectPatternVars pattern, ·)
  | patternComprehension pattern predicate transform =>
    (predicate.toList ++ (transform :: pattern.exprs)).map
      (pattern.pathVariable.toFinset ∪ pattern.relVars, ·)
  | prop .. | hasLabel .. | existsQuery _ | literal _ | param _ | countStar => []

lemma sizeOf_scopes {e : Expr} {c : Finset String × Expr} (h : c ∈ e.scopes) :
    sizeOf c.2 < sizeOf e := by
  have hmap : ∀ {bound : Finset String} {l : List Expr}, c ∈ l.map (bound, ·) → c.2 ∈ l := by
    intro bound l hc
    obtain ⟨e', he', rfl⟩ := List.mem_map.mp hc
    exact he'
  -- Outside of subqueries they are the subexpressions where aggregates may stand.
  have hchild : ∀ place : Place, (place, c.2) ∈ e.children → sizeOf c.2 < sizeOf e :=
    fun _ hc => sizeOf_children hc
  cases e with
  | agg fn inner =>
    obtain rfl := mem_singleton.mp h
    exact hchild _ mem_cons_self
  | not inner | isNull inner | isNotNull inner =>
    obtain rfl := mem_singleton.mp h
    exact hchild _ mem_cons_self
  | binaryOp | functionCall | case | subscript | slice | patternPredicate =>
    exact hchild _ (List.mem_map_of_mem (hmap h))
  | listComprehension var list predicate transform =>
    rcases mem_cons.mp h with rfl | hc
    · exact hchild _ mem_cons_self
    · exact hchild _ (List.mem_map_of_mem (mem_cons_of_mem _ (hmap hc)))
  | reduce accumulator initial var list expression =>
    refine hchild .reduce (List.mem_map_of_mem ?_)
    simp only [scopes, mem_cons, not_mem_nil, or_false] at h ⊢
    rcases h with rfl | rfl | rfl <;> simp
  | quantifier kind var list predicate =>
    refine hchild .quantifier (List.mem_map_of_mem ?_)
    rcases mem_pair.mp h with rfl | rfl <;> simp
  | existsSubquery pattern predicate =>
    rcases mem_append.mp (hmap h) with hc | hc
    · have hlt := sizeOf_toList hc
      simp
      omega
    · have hlt := sizeOf_pattern hc
      simp
      omega
  | patternComprehension pattern predicate transform =>
    refine hchild .patternComprehension (List.mem_map_of_mem ?_)
    have hc := hmap h
    simp only [mem_append, mem_cons, not_mem_nil, or_false] at hc ⊢
    tauto
  | prop | hasLabel | existsQuery | literal | param | countStar => cases h

lemma wf_scopes : WellFounded fun b a => ∃ bound, (bound, b) ∈ scopes a :=
  Branching.wf_of_lt sizeOf sizeOf_scopes

/-- Expressions as trees whose labels bind variables. -/
def scopeTree : Branching Expr (Finset String) := ⟨scopes, wf_scopes⟩

end Expr

/-- `collect_expr_vars`. -/
def collectExprVars : Expr → Finset String := Expr.scopeTree.free Expr.ownVars

/-! ## Projecting -/

/-- `GraphBinding::from_value`. -/
def GraphBinding.fromValue (v : Json) : GraphBinding :=
  match wrappedGraphId v with
  | some (true, id) => .node id
  | some (false, id) => .edge id
  | none => .scalar v

/-- What items are evaluated with. -/
structure Evaluator where
  engine : Engine
  view : GraphView
  /-- `expr_display_name` of an item that is no property read. -/
  displayName : Expr → String

namespace Evaluator

variable (X : Evaluator)

/-- What `project_rows` binds to an item that is no property read. -/
def computedItem (path : PathMap) (e : Expr) (target : String) :
    Except Error (Option GraphBinding) :=
  -- A group row has the item under its column name.
  if (∃ v ∈ collectExprVars e, (path.get v).isNone) ∧ (path.get target).isSome then
    .ok (path.get target)
  else
    match e with
    | .countStar | .agg .. => .ok (some ((path.get target).getD (.scalar .null)))
    | e =>
      match (X.engine.reading X.view).operand path e with
      | .ok val => .ok (some (.fromValue val))
      | .error err =>
        match path.get target with
        | some b => .ok (some b)
        | none => .error err

def projector : Projector := ⟨X.engine, X.view, .fromValue, X.computedItem, X.displayName⟩

end Evaluator

/-- The items are a lone `*`. -/
def isLoneStar : List (Expr × Option String) → Bool
  | [item] => isStarExpr item.1
  | _ => false

def evaluatedItems (items : List (Expr × Option String)) : List (Expr × Option String) :=
  if isLoneStar items then [] else items

def wholeVariable : Expr → Option String
  | .prop v p => if p = "" then some v else none
  | _ => none

namespace Projector

variable (P : Projector)

/-- `project_rows`. -/
def projectRows (items : List (Expr × Option String)) (isBarrier : Bool) (rows : List PathMap) :
    Except Error (List PathMap) :=
  if isLoneStar items then .ok rows else rows.mapM (P.projectRow items isBarrier)

/-- The value of an item on a row, `evaluate_expr`. -/
def value (path : PathMap) (item : Expr × Option String) : Except Error Json :=
  (P.engine.reading P.view).operand path item.1

def Raises (path : PathMap) (item : Expr × Option String) : Prop :=
  ∃ e, P.value path item = .error e

/-- The evaluation of some item raises on some row. -/
def RaisesOn (items : List (Expr × Option String)) (rows : List PathMap) : Prop :=
  ∃ path ∈ rows, ∃ item ∈ evaluatedItems items, P.Raises path item

/-- A projected row has the value of an item under its name. -/
def Shows (path out : PathMap) (item : Expr × Option String) : Prop :=
  ∃ b ∈ out.get (P.target item), P.view.property b "" = P.value path item

/-- A projection raises iff an item does, and shows the values of the items otherwise. -/
structure Faithful (items : List (Expr × Option String)) (isBarrier : Bool) (rows : List PathMap) :
    Prop where
  error_iff : (∃ e, P.projectRows items isBarrier rows = .error e) ↔ P.RaisesOn items rows
  shows : ∀ outs, P.projectRows items isBarrier rows = .ok outs →
    List.Forall₂ (fun path out => ∀ item ∈ evaluatedItems items, P.Shows path out item) rows outs

/-! ## The condition -/

/-- A free variable of the item is not bound, and its name is. -/
def Stale (path : PathMap) (item : Expr × Option String) : Prop :=
  (∃ v ∈ collectExprVars item.1, (path.get v).isNone) ∧ (path.get (P.target item)).isSome

instance (path : PathMap) (item : Expr × Option String) : Decidable (P.Stale path item) :=
  inferInstanceAs (Decidable (_ ∧ _))

/-- Something is bound to the item: it is computed, or it is a bound variable, or its name is
bound. -/
def Binds (path : PathMap) (item : Expr × Option String) : Prop :=
  ∀ v ∈ wholeVariable item.1, (path.get v).isSome ∨ (path.get (P.target item)).isSome

instance (path : PathMap) (item : Expr × Option String) : Decidable (P.Binds path item) :=
  inferInstanceAs (Decidable (∀ v ∈ _, _))

/-- The item that decides what a name is bound to, the last of the name that binds anything. -/
def deciding (path : PathMap) (items : List (Expr × Option String)) (name : String) :
    Option (Expr × Option String) :=
  items.reverse.find? fun item => P.target item = name ∧ P.Binds path item

/-- The value of an item is kept: what its name is bound to has it, where that is taken instead; and
a computed value is what is read of the node or relationship it stands for, if it does. -/
def Keeps (path : PathMap) (item : Expr × Option String) : Prop :=
  if P.Stale path item then P.Shows path path item
  else wholeVariable item.1 = none →
    ∀ v, P.value path item = .ok v → P.view.property (.fromValue v) "" = .ok v

/-- What raises is not hidden, and no value is replaced. -/
structure Sound (items : List (Expr × Option String)) (rows : List PathMap) : Prop where
  raised : P.RaisesOn items rows → ∃ path ∈ rows, ∃ item ∈ evaluatedItems items,
    wholeVariable item.1 = none ∧ P.Raises path item ∧ path.get (P.target item) = none
  kept : ¬P.RaisesOn items rows → ∀ path ∈ rows, ∀ item ∈ evaluatedItems items,
    ∃ last ∈ P.deciding path (evaluatedItems items) (P.target item),
      P.value path last = P.value path item ∧ P.Keeps path last

end Projector

/-! ## One item -/

section Item

variable {X : Evaluator} {path : PathMap}
  {item : Expr × Option String}

lemma collectExprVars_prop (v p : String) : collectExprVars (.prop v p) = {v} := by
  ext x
  unfold collectExprVars
  rw [Branching.mem_free_iff]
  exact or_iff_left fun ⟨_, hc, _⟩ => nomatch hc

lemma wholeVariable_eq_some {e : Expr} {v : String} :
    wholeVariable e = some v ↔ e = .prop v "" := by
  constructor
  · intro h
    cases e with
    | prop v' p =>
      unfold wholeVariable at h
      dsimp only at h
      by_cases hp : p = ""
      · rw [if_pos hp] at h
        rw [hp, some.inj h]
      · rw [if_neg hp] at h
        cases h
    | _ => cases h
  · rintro rfl
    rfl

lemma stale_prop_iff {v p : String} {name : Option String} :
    X.projector.Stale path (.prop v p, name) ↔ (path.get v).isNone ∧
      (path.get (X.projector.target (.prop v p, name))).isSome := by
  unfold Projector.Stale
  simp only [collectExprVars_prop, Finset.mem_singleton, exists_eq_left]

/-- A name that is bound is taken where a free variable of the item is not. -/
theorem itemBinding_stale (hitem : item.1.isAggregate = false)
    (h : X.projector.Stale path item) :
    X.projector.itemBinding path item =
      .ok (path.get (X.projector.target item)) := by
  obtain ⟨e, name⟩ := item
  cases e with
  | prop v p => exact if_pos (stale_prop_iff.mp h)
  | countStar | agg => cases hitem
  | _ => exact if_pos h

lemma itemBinding_variable {v : String} (hitem : wholeVariable item.1 = some v)
    (h : ¬X.projector.Stale path item) :
    X.projector.itemBinding path item = .ok (path.get v) := by
  obtain ⟨e, name⟩ := item
  obtain rfl : e = .prop v "" := wholeVariable_eq_some.mp hitem
  have hstale := mt stale_prop_iff.mpr h
  unfold Projector.itemBinding
  dsimp only
  rw [if_neg hstale, if_pos rfl]
  rcases hv : path.get v with _ | b
  · rw [hv] at hstale
    exact congrArg Except.ok (not_isSome_iff_eq_none.mp fun hname => hstale ⟨rfl, hname⟩)
  · rfl

lemma itemBinding_computed (hitem : item.1.isAggregate = false)
    (hcomputed : wholeVariable item.1 = none)
    (h : ¬X.projector.Stale path item) :
    X.projector.itemBinding path item =
      match X.projector.value path item with
      | .ok val => .ok (some (.fromValue val))
      | .error e =>
        match path.get (X.projector.target item) with
        | some b => .ok (some b)
        | none => .error e := by
  obtain ⟨e, name⟩ := item
  cases e with
  | prop v p =>
    have hp : p ≠ "" := by
      rintro rfl
      cases hcomputed
    unfold Projector.itemBinding
    dsimp only
    rw [if_neg (mt stale_prop_iff.mpr h), if_neg hp]
    rfl
  | countStar | agg => cases hitem
  | _ => exact if_neg h

/-- **An item raises** iff it is computed, its evaluation raises and its name is not bound. -/
theorem exists_error_itemBinding_iff (hitem : item.1.isAggregate = false) :
    (∃ e, X.projector.itemBinding path item = .error e) ↔
      wholeVariable item.1 = none ∧ X.projector.Raises path item ∧
        path.get (X.projector.target item) = none := by
  by_cases h : X.projector.Stale path item
  · rw [itemBinding_stale hitem h]
    refine iff_of_false (fun ⟨_, he⟩ => nomatch he) fun ⟨_, _, hname⟩ => ?_
    rw [Projector.Stale, hname] at h
    cases h.2
  rcases hvar : wholeVariable item.1 with _ | v
  · rw [itemBinding_computed hitem hvar h, Projector.Raises]
    rcases X.projector.value path item with e | val
    · rcases path.get (X.projector.target item) with _ | b
      · simp
      · simp
    · simp
  · rw [itemBinding_variable hvar h]
    exact iff_of_false (fun ⟨_, he⟩ => nomatch he) fun ⟨he, _⟩ => nomatch he

variable {val : Json}

/-- What is bound to an item that does not raise. -/
theorem isSome_given_iff (hitem : item.1.isAggregate = false)
    (hval : X.projector.value path item = .ok val) :
    (Table.given (X.projector.itemBinding path) item).isSome ↔
      X.projector.Binds path item := by
  unfold Table.given Projector.Binds
  by_cases h : X.projector.Stale path item
  · rw [itemBinding_stale hitem h]
    exact iff_of_true h.2 fun _ _ => .inr h.2
  rcases hvar : wholeVariable item.1 with _ | v
  · rw [itemBinding_computed hitem hvar h, hval]
    exact iff_of_true rfl fun _ hv => nomatch hv
  · rw [itemBinding_variable hvar h]
    constructor
    · rintro hv v' hv'
      obtain rfl := some.inj hv'
      exact .inl hv
    · intro hbinds
      rcases hbinds v rfl with hv | hname
      · exact hv
      · obtain ⟨e, name⟩ := item
        obtain rfl : e = .prop v "" := wholeVariable_eq_some.mp hvar
        exact isSome_iff_ne_none.mpr fun hv =>
          h (stale_prop_iff.mpr ⟨isNone_iff_eq_none.mpr hv, hname⟩)

/-- **What is bound to an item has its value** iff the value is kept. -/
theorem shows_iff_keeps (hitem : item.1.isAggregate = false)
    (hval : X.projector.value path item = .ok val) {b : GraphBinding}
    (hb : Table.given (X.projector.itemBinding path) item = some b) :
    X.view.property b "" = .ok val ↔ X.projector.Keeps path item := by
  unfold Table.given at hb
  unfold Projector.Keeps
  by_cases h : X.projector.Stale path item
  · rw [itemBinding_stale hitem h] at hb
    rw [if_pos h, Projector.Shows, hval]
    exact ⟨fun hread => ⟨b, hb, hread⟩,
      fun ⟨b', hb', hread⟩ => some.inj (hb.symm.trans hb') ▸ hread⟩
  rw [if_neg h]
  rcases hvar : wholeVariable item.1 with _ | v
  · rw [itemBinding_computed hitem hvar h, hval] at hb
    obtain rfl : GraphBinding.fromValue val = b := some.inj hb
    refine ⟨fun hread _ v hv => ?_, fun hkeeps => hkeeps rfl val hval⟩
    obtain rfl := Except.ok.inj (hval.symm.trans hv)
    exact hread
  · rw [itemBinding_variable hvar h] at hb
    refine iff_of_true ?_ fun hv => nomatch hv
    have hbound : path.get v = some b := hb
    obtain ⟨e, name⟩ := item
    obtain rfl : e = .prop v "" := wholeVariable_eq_some.mp hvar
    unfold Projector.value Engine.operand at hval
    dsimp only at hval
    rwa [hbound] at hval

end Item

/-! ## One row -/

section Row

variable {X : Evaluator} {path out : PathMap} {items : List (Expr × Option String)}
    {isBarrier : Bool}

lemma projectItem_eq_write (path : PathMap) : X.projector.projectItem path =
    Table.write (X.projector.itemBinding path) X.projector.target := by
  funext row item
  unfold Projector.projectItem Table.write
  rcases X.projector.itemBinding path item with e | _ | b <;> rfl

/-- **A row raises** iff one of its items does. -/
theorem exists_error_projectRow_iff (hitems : ∀ item ∈ items, item.1.isAggregate = false) :
    (∃ e, X.projector.projectRow items isBarrier path = .error e) ↔
      ∃ item ∈ items, wholeVariable item.1 = none ∧ X.projector.Raises path item ∧
        path.get (X.projector.target item) = none := by
  unfold Projector.projectRow
  rw [projectItem_eq_write, Table.exists_error_foldlM_write_iff]
  exact exists_congr fun item => and_congr_right fun hmem =>
    exists_error_itemBinding_iff (hitems item hmem)

lemma exists_value {item : Expr × Option String} (h : ¬X.projector.Raises path item) :
    ∃ val, X.projector.value path item = .ok val := by
  rcases hval : X.projector.value path item with e | val
  · exact absurd ⟨e, hval⟩ h
  · exact ⟨val, rfl⟩

lemma lastGiving_eq_deciding (hitems : ∀ item ∈ items, item.1.isAggregate = false)
    (hvals : ∀ item ∈ items, ¬X.projector.Raises path item) (name : String) :
    Table.lastGiving (X.projector.itemBinding path) X.projector.target items name =
      X.projector.deciding path items name := by
  refine find?_congr fun item hmem => decide_eq_decide.mpr (and_congr_right fun _ => ?_)
  have hitem := mem_reverse.mp hmem
  obtain ⟨val, hval⟩ := exists_value (hvals item hitem)
  exact isSome_given_iff (hitems item hitem) hval

lemma deciding_eq_some (hitems : ∀ item ∈ items, item.1.isAggregate = false)
    (hvals : ∀ item ∈ items, ¬X.projector.Raises path item) {name : String}
    {last : Expr × Option String} (h : X.projector.deciding path items name = some last) :
    last ∈ items ∧ X.projector.target last = name ∧
      ∃ b, Table.given (X.projector.itemBinding path) last = some b := by
  rw [← lastGiving_eq_deciding hitems hvals] at h
  obtain ⟨hmem, hname, hgiven⟩ := Table.lastGiving_eq_some h
  exact ⟨hmem, hname, isSome_iff_exists.mp hgiven⟩

lemma get_projectRow (hitems : ∀ item ∈ items, item.1.isAggregate = false)
    (hvals : ∀ item ∈ items, ¬X.projector.Raises path item)
    (hrow : X.projector.projectRow items isBarrier path = .ok out) {item : Expr × Option String}
    (hitem : item ∈ items) : out.get (X.projector.target item) =
      (X.projector.deciding path items (X.projector.target item)).bind
        (Table.given (X.projector.itemBinding path)) := by
  unfold Projector.projectRow at hrow
  rw [projectItem_eq_write] at hrow
  rw [Table.foldlM_write_eq_ok hrow, lastGiving_eq_deciding hitems hvals]
  rcases hlast : X.projector.deciding path items (X.projector.target item) with _ | last
  · -- The item binds nothing, so its name is not bound in the row either.
    have hnot : ¬X.projector.Binds path item := by
      intro hbinds
      exact find?_eq_none.mp hlast item (mem_reverse.mpr hitem) (decide_eq_true ⟨rfl, hbinds⟩)
    have hname : path.get (X.projector.target item) = none :=
      not_isSome_iff_eq_none.mp fun hname => hnot fun _ _ => .inr hname
    cases isBarrier with
    | true => rfl
    | false => exact hname
  · obtain ⟨-, -, b, hb⟩ := deciding_eq_some hitems hvals hlast
    rw [bind_some, hb]
    rfl

/-- **What a projected row shows.** -/
theorem shows_projectRow_iff (hitems : ∀ item ∈ items, item.1.isAggregate = false)
    (hvals : ∀ item ∈ items, ¬X.projector.Raises path item)
    (hrow : X.projector.projectRow items isBarrier path = .ok out) :
    (∀ item ∈ items, X.projector.Shows path out item) ↔
      ∀ item ∈ items, ∃ last ∈ X.projector.deciding path items (X.projector.target item),
        X.projector.value path last = X.projector.value path item ∧
        X.projector.Keeps path last := by
  constructor
  · intro h item hitem
    obtain ⟨b, hb, hread⟩ := h item hitem
    have hget := get_projectRow hitems hvals hrow hitem
    rcases hlast : X.projector.deciding path items (X.projector.target item) with _ | last
    · rw [hlast, hb] at hget
      cases hget
    · obtain ⟨hmem, hname, b', hgiven⟩ := deciding_eq_some hitems hvals hlast
      rw [hlast, bind_some, hgiven, hb] at hget
      obtain rfl := some.inj hget
      -- The deciding item is shown under the same name.
      obtain ⟨b', hb', hread'⟩ := h last hmem
      rw [hname, hb] at hb'
      obtain rfl := some.inj hb'
      obtain ⟨val, hval⟩ := exists_value (hvals last hmem)
      exact ⟨last, rfl, hread'.symm.trans hread,
        (shows_iff_keeps (hitems last hmem) hval hgiven).mp (hread'.trans hval)⟩
  · intro h item hitem
    obtain ⟨last, hlast, hsame, hkeeps⟩ := h item hitem
    obtain ⟨hmem, -, b, hgiven⟩ := deciding_eq_some hitems hvals hlast
    obtain ⟨val, hval⟩ := exists_value (hvals last hmem)
    refine ⟨b, ?_, ?_⟩
    · rw [get_projectRow hitems hvals hrow hitem, mem_def.mp hlast, bind_some, hgiven]
      exact rfl
    · rw [← hsame, hval]
      exact (shows_iff_keeps (hitems last hmem) hval hgiven).mpr hkeeps

end Row

/-! ## All rows -/

section Rows

variable {X : Evaluator} {items : List (Expr × Option String)} {isBarrier : Bool}
    {rows : List PathMap}

/-- **A projection raises** iff, on some row, some computed item does whose name is not bound. -/
theorem exists_error_projectRows_iff (hitems : ∀ item ∈ items, item.1.isAggregate = false) :
    (∃ e, X.projector.projectRows items isBarrier rows = .error e) ↔
      ∃ path ∈ rows, ∃ item ∈ evaluatedItems items, wholeVariable item.1 = none ∧
        X.projector.Raises path item ∧ path.get (X.projector.target item) = none := by
  unfold Projector.projectRows evaluatedItems
  by_cases hstar : isLoneStar items
  · rw [if_pos hstar, if_pos hstar]
    exact iff_of_false (fun ⟨_, h⟩ => nomatch h) fun ⟨_, _, _, h, _⟩ => nomatch h
  · rw [if_neg hstar, if_neg hstar, List.exists_error_mapM_iff]
    exact exists_congr fun path => and_congr_right fun _ => exists_error_projectRow_iff hitems

/-- **When a projection shows the values of its items**, where none raises. -/
theorem shows_projectRows_iff (hitems : ∀ item ∈ items, item.1.isAggregate = false)
    (hvals : ¬X.projector.RaisesOn items rows) {outs : List PathMap}
    (h : X.projector.projectRows items isBarrier rows = .ok outs) :
    List.Forall₂ (fun path out => ∀ item ∈
    evaluatedItems items, X.projector.Shows path out item) rows outs ↔
      ∀ path ∈ rows, ∀ item ∈ evaluatedItems items,
        ∃ last ∈ X.projector.deciding path (evaluatedItems items) (X.projector.target item),
          X.projector.value path last = X.projector.value path item ∧
          X.projector.Keeps path last := by
  unfold Projector.RaisesOn at hvals
  unfold Projector.projectRows at h
  unfold evaluatedItems at hvals ⊢
  by_cases hstar : isLoneStar items
  · rw [if_pos hstar] at h ⊢
    obtain rfl := Except.ok.inj h
    exact iff_of_true (List.forall₂_same.mpr fun _ _ _ hitem => nomatch hitem)
      fun _ _ _ hitem => nomatch hitem
  · rw [if_neg hstar] at h hvals ⊢
    refine List.forall₂_iff_forall_mem (List.mapM_eq_ok_iff.mp h) fun path hpath out hrow => ?_
    exact shows_projectRow_iff hitems (fun item hitem hraises =>
      hvals ⟨path, hpath, item, hitem, hraises⟩)
      hrow

/-- **When a projection is faithful.** A projection without aggregates raises what its items raise,
and shows their values, iff nothing that raises is hidden below a bound name and the values of the
items that decide are kept. -/
theorem projectRows_faithful_iff (X : Evaluator) (items : List (Expr × Option String))
    (isBarrier : Bool)
    (rows : List PathMap) (hitems : ∀ item ∈ items, item.1.isAggregate = false) :
    X.projector.Faithful items isBarrier rows ↔ X.projector.Sound items rows := by
  constructor
  · rintro ⟨herror, hshows⟩
    refine ⟨fun hraises => (exists_error_projectRows_iff hitems).mp (herror.mpr hraises),
      fun hvals => ?_⟩
    rcases hrun : X.projector.projectRows items isBarrier rows with e | outs
    · exact absurd (herror.mp ⟨e, hrun⟩) hvals
    · exact (shows_projectRows_iff hitems hvals hrun).mp (hshows outs hrun)
  · rintro ⟨hraised, hkept⟩
    have herror : (∃ e, X.projector.projectRows items isBarrier rows = .error e) ↔
        X.projector.RaisesOn items rows := by
      refine ⟨fun h => ?_, fun h => (exists_error_projectRows_iff hitems).mpr (hraised h)⟩
      obtain ⟨path, hpath, item, hitem, -, hraises, -⟩ := (exists_error_projectRows_iff hitems).mp h
      exact ⟨path, hpath, item, hitem, hraises⟩
    refine ⟨herror, fun outs hrun => ?_⟩
    have hvals : ¬X.projector.RaisesOn items rows := by
      intro h
      obtain ⟨e, he⟩ := herror.mpr h
      cases hrun.symm.trans he
    exact (shows_projectRows_iff hitems hvals hrun).mpr (hkept hvals)

end Rows

section Example

/-- `/` of `eval_arithmetic` on integers. -/
def dividedIntegers (li ri : I64) : Except Error Json :=
  if ri.1 = 0 then
    .error (.invalidArgument ("ArithmeticError: division by zero in " ++ toString li.1 ++ " / 0"))
  else if h : -2 ^ 63 ≤ li.1.tdiv ri.1 ∧ li.1.tdiv ri.1 < 2 ^ 63 then .ok (.ofI64 ⟨_, h⟩)
  else .error (.invalidArgument
    ("ArithmeticError: integer overflow in " ++ toString li.1 ++ " / " ++ toString ri.1))

def Engine.dividing : Engine :=
  let operands : Engine := { Engine.openWedge with literalToValue := Literal.toValue }
  { operands with
    evaluateExpr := fun e row =>
      match e with
      | .binaryOp .div l r => do
        let lv ← operands.operand row l
        let rv ← operands.operand row r
        match lv.asI64, rv.asI64 with
        | some li, some ri => dividedIntegers li ri
        | _, _ => return .null
      | _ => .ok .null }

def dividing : Evaluator := ⟨.dividing, oneNodeView, fun _ => "expr"⟩

/-- The row of `WITH 1 AS y, 0 AS x`. -/
def zeroRow : PathMap :=
  (Table.empty.put "y" (.scalar (Literal.int 1).toValue)).put "x" (.scalar (Literal.int 0).toValue)

/-- `1 / x AS y`. -/
def quotient : Expr × Option String := (.binaryOp .div (.literal (.int 1)) (.prop "x" ""), some "y")

lemma raises_quotient : dividing.projector.Raises zeroRow quotient := ⟨_, rfl⟩

lemma itemBinding_quotient :
    dividing.projector.itemBinding zeroRow quotient = .ok (zeroRow.get "y") := by
  by_cases h : dividing.projector.Stale zeroRow quotient
  · exact itemBinding_stale rfl h
  · exact itemBinding_computed rfl rfl h

/-- `WITH x AS y` takes the value of `x`, whatever `y` is. -/
theorem projectRows_faithful_iff_renamed :
    dividing.projector.Faithful [(.prop "x" "", some "y")] true [zeroRow] := by
  refine (projectRows_faithful_iff dividing [(.prop "x" "", some "y")] true [zeroRow]
    (forall_mem_singleton.mpr rfl)).mpr ⟨?_, ?_⟩
  · rintro ⟨path, hpath, item, hitem, e, he⟩
    obtain rfl := mem_singleton.mp hpath
    obtain rfl := mem_singleton.mp hitem
    cases he
  · intro _ path hpath item hitem
    obtain rfl := mem_singleton.mp hpath
    obtain rfl := mem_singleton.mp hitem
    have hstale : ¬dividing.projector.Stale zeroRow (.prop "x" "", some "y") :=
      mt stale_prop_iff.mp fun h => Bool.false_ne_true h.1
    refine ⟨(.prop "x" "", some "y"), rfl, rfl, ?_⟩
    unfold Projector.Keeps
    rw [if_neg hstale]
    intro h
    cases (wholeVariable_eq_some.mpr rfl).symm.trans h

/-- `WITH 1 / x AS y` does not raise where `x` is zero and `y` is bound: it keeps `y`. -/
theorem projectRows_stale : dividing.projector.Raises zeroRow quotient ∧
    dividing.projector.projectRows [quotient] true [zeroRow] =
      .ok [Table.empty.put "y" (.scalar (Literal.int 1).toValue)] ∧
    ¬dividing.projector.Faithful [quotient] true [zeroRow] := by
  have hrun : dividing.projector.projectRows [quotient] true [zeroRow] =
      .ok [Table.empty.put "y" (.scalar (Literal.int 1).toValue)] := by
    unfold Projector.projectRows Projector.projectRow
    rw [mapM_cons, foldlM_cons, Projector.projectItem, itemBinding_quotient]
    rfl
  refine ⟨raises_quotient, hrun, fun h => ?_⟩
  obtain ⟨e, he⟩ :=
    h.error_iff.mpr ⟨zeroRow, mem_cons_self, quotient, mem_cons_self, raises_quotient⟩
  cases hrun.symm.trans he

end Example

end IssunDB.Cypher
