import IssunDB.Cypher.Rows

/-!
# Hops that close a cycle

A hop to a node the row already binds closes a cycle of the pattern. `rewriteClosingExpands` turns
it into a `MultiwayJoin`, which looks the relationships between the two nodes up, and
`rewriteExpandIntersect` fuses that with the hop before it into an `ExpandIntersect`, which
intersects two neighbor lists.

* `eval_rewriteClosingExpands` — a closing hop gives the same rows in the same order.
* `describes_eval` — what the rows of a pattern bind.
-/

namespace IssunDB.Cypher

open List PhysicalOperator

/-! ## The rewritings -/

def Hop.closing (hop : Hop) : Closing where
  closingSrcVar := hop.srcVar
  closingDstVar := hop.dstVar
  closingRelType := hop.relType
  closingRelVar := hop.relVar
  closingIsIncoming := hop.isIncoming
  closingIsUndirected := hop.isUndirected
  closingUniqueRels := hop.uniqueRels

def Hop.isPlain (hop : Hop) : Bool :=
  hop.minHops = 1 && hop.maxHops = some 1 && !hop.isVarLength && !hop.needsPath

/-- `rewrite_closing_expands`. -/
def rewriteClosingExpands (literal : Literal → String) : PhysicalOperator → PhysicalOperator
  | .expand input hop =>
    let input := rewriteClosingExpands literal input
    if hop.isPlain ∧ hop.dstVar ∈ input.boundVars literal then .multiwayJoin input hop.closing
    else .expand input hop
  | .filter input e => .filter (rewriteClosingExpands literal input) e
  | .project input items isBarrier => .project (rewriteClosingExpands literal input) items isBarrier
  | .hashJoin left right =>
    .hashJoin (rewriteClosingExpands literal left) (rewriteClosingExpands literal right)
  | .aggregate input groupBy aggregations =>
    .aggregate (rewriteClosingExpands literal input) groupBy aggregations
  | .sort input items => .sort (rewriteClosingExpands literal input) items
  | .limit input skip count => .limit (rewriteClosingExpands literal input) skip count
  | .unwind input e v => .unwind (rewriteClosingExpands literal input) e v
  | .optionalMatch input nullVars predicate =>
    .optionalMatch (rewriteClosingExpands literal input) nullVars predicate
  | .distinct input keys => .distinct (rewriteClosingExpands literal input) keys
  | .writePart input part => .writePart (rewriteClosingExpands literal input) part
  | .multiwayJoin input c => .multiwayJoin (rewriteClosingExpands literal input) c
  | leaf => leaf

/-- An operand `filter_cannot_raise` admits. -/
def operandCannotRaise : Expr → Bool
  | .prop _ p => p ≠ ""
  | .literal _ | .param _ => true
  | _ => false

/-- `filter_cannot_raise`. -/
def filterCannotRaise : FilterExpr → Bool
  | .hasLabel .. => true
  | .eq l r | .ne l r | .lt l r | .gt l r | .le l r | .ge l r =>
    operandCannotRaise l && operandCannotRaise r
  | .expr (.binaryOp op l r) =>
    Engine.isComparisonOp op && operandCannotRaise l && operandCannotRaise r
  | .expr _ => false

/-- The run of filters on top of a plan, outermost first, and what is below it. -/
def peelFilters : PhysicalOperator → List FilterExpr × PhysicalOperator
  | .filter input e => (e :: (peelFilters input).1, (peelFilters input).2)
  | op => ([], op)

/-- Put a run of filters back. -/
def rebuild (node : PhysicalOperator) (filters : List FilterExpr) : PhysicalOperator :=
  filters.foldr (fun e input => .filter input e) node

def fusible (literal : Literal → String) (mid : PhysicalOperator) (hop : Hop)
    (c : Closing) : Bool :=
  !hop.isUndirected && hop.isPlain && hop.dstVar = c.closingSrcVar &&
    c.closingDstVar ∈ mid.boundVars literal

/-- The fused operator. -/
def Hop.intersect (hop : Hop) (c : Closing) : Intersection where
  srcVar := hop.srcVar
  relVar := hop.relVar
  dstVar := hop.dstVar
  relType := hop.relType
  isIncoming := hop.isIncoming
  uniqueRels := hop.uniqueRels
  closingDstVar := c.closingDstVar
  closingRelType := c.closingRelType
  closingRelVar := c.closingRelVar
  closingIsIncoming := c.closingIsIncoming
  closingUniqueRels := c.closingUniqueRels

def fuse (literal : Literal → String) (input : PhysicalOperator) (c : Closing) : PhysicalOperator :=
  let (filters, cur) := peelFilters input
  if !c.closingIsUndirected && filters.all filterCannotRaise then
    match cur with
    | .expand mid hop =>
      if fusible literal mid hop c then rebuild (.expandIntersect mid (hop.intersect c)) filters
      else .multiwayJoin input c
    | _ => .multiwayJoin input c
  else .multiwayJoin input c

/-- `rewrite_expand_intersect`. -/
def rewriteExpandIntersect (literal : Literal → String) : PhysicalOperator → PhysicalOperator
  | .multiwayJoin input c => fuse literal (rewriteExpandIntersect literal input) c
  | .unwind input e v => .unwind (rewriteExpandIntersect literal input) e v
  | .correlatedIndexSeek input seek =>
    .correlatedIndexSeek (rewriteExpandIntersect literal input) seek
  | .expand input hop => .expand (rewriteExpandIntersect literal input) hop
  | .filter input e => .filter (rewriteExpandIntersect literal input) e
  | .project input items isBarrier =>
    .project (rewriteExpandIntersect literal input) items isBarrier
  | .hashJoin left right =>
    .hashJoin (rewriteExpandIntersect literal left) (rewriteExpandIntersect literal right)
  | .aggregate input groupBy aggregations =>
    .aggregate (rewriteExpandIntersect literal input) groupBy aggregations
  | .sort input items => .sort (rewriteExpandIntersect literal input) items
  | .limit input skip count => .limit (rewriteExpandIntersect literal input) skip count
  | .optionalMatch input nullVars predicate =>
    .optionalMatch (rewriteExpandIntersect literal input) nullVars predicate
  | .distinct input keys => .distinct (rewriteExpandIntersect literal input) keys
  | .writePart input part => .writePart (rewriteExpandIntersect literal input) part
  | .procedureCall input outputVars rows =>
    .procedureCall (rewriteExpandIntersect literal input) outputVars rows
  | .expandIntersect input p => .expandIntersect (rewriteExpandIntersect literal input) p
  | leaf => leaf

lemma rebuild_peelFilters (op : PhysicalOperator) :
    rebuild (peelFilters op).2 (peelFilters op).1 = op := by
  induction op with
  | filter input e ih => exact congrArg (PhysicalOperator.filter · e) ih
  | _ => rfl

/-! ## Neighbors -/

namespace Neighbors

variable (N : Neighbors)

lemma nodup_expandMultiType (n : NodeId) (relType : Option String) (incoming : Bool) :
    (N.expandMultiType n relType incoming).Nodup := by
  unfold expandMultiType
  split
  · exact N.nodup n none incoming
  · split
    · exact List.nodup_eraseDups _
    · exact N.nodup n _ incoming

lemma mem_expandMultiType_mirror {n m : NodeId} {relType : Option String} {incoming : Bool}
    {e : EdgeId} :
    (e, m) ∈ N.expandMultiType n relType incoming ↔
      (e, n) ∈ N.expandMultiType m relType (!incoming) := by
  unfold expandMultiType
  split
  · exact N.mirror n none incoming e m
  · split
    · simp only [mem_eraseDups, mem_flatMap, N.mirror n _ incoming e m]
    · exact N.mirror n _ incoming e m

lemma transitions_directed (n : NodeId) (relType : Option String) (incoming : Bool) :
    N.transitions n relType incoming false = N.expandMultiType n relType incoming := by
  unfold transitions
  rw [if_neg (by simp), flatMap_cons, flatMap_nil, append_nil]
  exact List.eraseDups_of_nodup (N.nodup_expandMultiType n relType incoming)

lemma transitions_undirected (n : NodeId) (relType : Option String) (incoming : Bool) :
    N.transitions n relType incoming true = N.transitions n relType false true := rfl

end Neighbors

/-! ## Well-formed plans -/

namespace PhysicalOperator

def pathNames : PhysicalOperator → Finset String
  | .expand input hop =>
    if hop.needsPath then insert ("_path_" ++ hop.dstVar) input.pathNames else input.pathNames
  | .filter input _ | .multiwayJoin input _ => input.pathNames
  | .hashJoin left right => left.pathNames ∪ right.pathNames
  | _ => ∅

/-- Everything a row of the plan can bind. -/
def names (literal : Literal → String) (op : PhysicalOperator) : Finset String :=
  op.boundVars literal ∪ op.pathNames

end PhysicalOperator

/-- The variable of an operand `filter_cannot_raise` admits. -/
def operandVars : Expr → Finset String
  | .prop v _ => {v}
  | _ => ∅

/-- The variables of a filter `filter_cannot_raise` admits. -/
def filterVars : FilterExpr → Finset String
  | .hasLabel v _ => {v}
  | .eq l r | .ne l r | .lt l r | .gt l r | .le l r | .ge l r => operandVars l ∪ operandVars r
  | .expr (.binaryOp _ l r) => operandVars l ∪ operandVars r
  | .expr _ => ∅

/-- The variables of the filters on top of a plan that may be hoisted. -/
def PhysicalOperator.hoistedVars : PhysicalOperator → Finset String
  | .filter input e =>
    if filterCannotRaise e then filterVars e ∪ input.hoistedVars else input.hoistedVars
  | _ => ∅

/-- The plan of a pattern: scans, hops, filters and joins. -/
def PhysicalOperator.isPattern : PhysicalOperator → Bool
  | .singleRow | .labelScan .. | .nodeByIdSeek .. | .nodeIndexScan .. | .nodeRangeScan .. => true
  | .filter input _ | .expand input _ | .multiwayJoin input _ => input.isPattern
  | .hashJoin left right => left.isPattern && right.isPattern
  | _ => false

/-- A closing join is fused with the hop below a run of filters. -/
def hoists (literal : Literal → String) (filters : List FilterExpr) (mid : PhysicalOperator)
    (hop : Hop) (c : Closing) : Bool :=
  !c.closingIsUndirected && filters.all filterCannotRaise && fusible literal mid hop c

/-- The names of a plan do not meet where hops are rewritten: a closing relationship is not named
like the node it leads to; and where two hops are fused, what the first one binds is new and no
filter between them reads what the second one binds. -/
def PhysicalOperator.apart (literal : Literal → String) : PhysicalOperator → Bool
  | .filter input _ | .expand input _ => input.apart literal
  | .multiwayJoin input c => input.apart literal && c.closingRelVar ≠ c.closingDstVar &&
    match peelFilters input with
    | (filters, .expand mid hop) => !hoists literal filters mid hop c ||
      (hop.relVar ∉ mid.names literal && hop.dstVar ∉ mid.names literal &&
        hop.relVar ≠ hop.dstVar && c.closingRelVar ∉ input.hoistedVars)
    | _ => true
  | .hashJoin left right => left.apart literal && right.apart literal
  | _ => true

/-- The row binds what the plan says, and nothing else. -/
def PhysicalOperator.Describes (literal : Literal → String) (op : PhysicalOperator)
    (row : PathMap) : Prop :=
  (∀ v ∈ op.boundVars literal, (row.get v).isSome) ∧
    ∀ v, (row.get v).isSome → v ∈ op.names literal

namespace Engine

variable {E : Engine}

attribute [local simp] rewriteClosingExpands pathNames boundVars isPattern planHasWrite eval

variable {op : PhysicalOperator} {left right : PhysicalOperator} {v : String} {row' : PathMap}
  {rows : List PathMap}

omit E in
lemma planHasWrite_of_isPattern (h : op.isPattern) : op.planHasWrite = false := by
  induction op with
  | filter input e ih => exact ih h
  | expand input hop ih => exact ih h
  | multiwayJoin input c ih => exact ih h
  | hashJoin left right ihl ihr =>
    simp only [isPattern, Bool.and_eq_true] at h
    rw [planHasWrite, ihl h.1, ihr h.2]
    rfl
  | singleRow | labelScan _ _ | nodeByIdSeek _ _ _ | nodeIndexScan _ _ _ _ | nodeRangeScan _ _ =>
    rfl
  | _ => cases h

/-- The join of two sides that neither write nor are optional. -/
theorem eval_hashJoin_of_inner (hwrite : left.planHasWrite = false)
    (hl : ∀ input nullVars predicate, left ≠ .optionalMatch input nullVars predicate)
    (hr : ∀ input nullVars predicate, right ≠ .optionalMatch input nullVars predicate) :
    E.eval (.hashJoin left right) = do
      let build ← E.eval right
      let probe ← E.eval left
      return probe.flatMap (E.joinRow (E.commonVars left right) build) := by
  rw [eval]
  · rw [if_neg (by simp [hwrite])]
  · exact hl
  · exact hr

omit E in
lemma not_optionalMatch_of_isPattern (h : op.isPattern) (input : PhysicalOperator)
    (nullVars : List String) (predicate : Option FilterExpr) :
    op ≠ .optionalMatch input nullVars predicate := by
  rintro rfl
  cases h

lemma eval_hashJoin (hl : left.isPattern) (hr : right.isPattern) :
    E.eval (.hashJoin left right) = do
      let build ← E.eval right
      let probe ← E.eval left
      return probe.flatMap (E.joinRow (E.commonVars left right) build) :=
  eval_hashJoin_of_inner (planHasWrite_of_isPattern hl) (not_optionalMatch_of_isPattern hl)
    (not_optionalMatch_of_isPattern hr)

lemma isSome_get_mergeFrom {row more : PathMap} :
    ((row.mergeFrom more).get v).isSome ↔ (row.get v).isSome ∨ (more.get v).isSome := by
  show ((more.get v).or (row.get v)).isSome ↔ _
  cases more.get v <;> simp

lemma isSome_get_put {row : PathMap} {v w : String} {b : GraphBinding} :
    ((row.put w b).get v).isSome ↔ v = w ∨ (row.get v).isSome := by
  rw [Table.get_put]
  split <;> simp_all

lemma isSome_get_bindPath {row : PathMap} {hop : Hop} {path : Option Json} :
    ((bindPath row hop path).get v).isSome ↔
      (row.get v).isSome ∨ path.isSome ∧ hop.needsPath ∧ v = "_path_" ++ hop.dstVar := by
  unfold bindPath
  split
  · split
    · rename_i hpath
      rw [isSome_get_put]
      simp only [Option.isSome_some, hpath, true_and]
      exact or_comm
    · rename_i hpath
      simp [hpath]
  · simp

variable {input : PhysicalOperator} {hop : Hop} {row : PathMap}

lemma describes_expand (h : input.Describes E.literalText row)
    (hrow : ∀ v, (row'.get v).isSome ↔ v = hop.dstVar ∨ v = hop.relVar ∨ (row.get v).isSome)
    (path : Option Json) :
    (PhysicalOperator.expand input hop).Describes E.literalText (bindPath row' hop path) := by
  constructor
  · intro v hv
    rw [isSome_get_bindPath, hrow]
    simp only [boundVars, Finset.mem_insert] at hv
    rcases hv with rfl | rfl | hv
    · exact .inl (.inl rfl)
    · exact .inl (.inr (.inl rfl))
    · exact .inl (.inr (.inr (h.1 v hv)))
  · intro v hv
    rw [isSome_get_bindPath, hrow] at hv
    simp only [names, boundVars, pathNames, Finset.mem_union, Finset.mem_insert]
    rcases hv with (rfl | rfl | hv) | ⟨-, hneeds, rfl⟩
    · exact .inl (.inl rfl)
    · exact .inl (.inr (.inl rfl))
    · rcases Finset.mem_union.mp (h.2 v hv) with hv | hv
      · exact .inl (.inr (.inr hv))
      · refine .inr ?_
        split
        · exact Finset.mem_insert_of_mem hv
        · exact hv
    · rw [if_pos hneeds]
      exact .inr (Finset.mem_insert_self _ _)

lemma describes_expandFixed (h : input.Describes E.literalText row)
    (hrow : row' ∈ E.expandFixed hop row) :
    (PhysicalOperator.expand input hop).Describes E.literalText row' := by
  unfold expandFixed at hrow
  split at hrow
  · obtain ⟨t, -, rfl⟩ := mem_map.mp hrow
    apply describes_expand h
    intro v
    rw [isSome_get_put, isSome_get_put]
  · cases hrow

lemma describes_expandTrails (h : input.Describes E.literalText row)
    (hrows : E.expandTrails hop row = .ok rows) (hrow : row' ∈ rows) :
    (PhysicalOperator.expand input hop).Describes E.literalText row' := by
  unfold expandTrails at hrows
  split at hrows
  · rename_i src hsrc
    rcases ht : E.trails hop row src with e | trails
    · rw [ht] at hrows
      cases hrows
    · rw [ht] at hrows
      cases hrows
      obtain ⟨t, -, rfl⟩ := mem_map.mp hrow
      apply describes_expand h
      intro v
      rw [isSome_get_put, isSome_get_put]
      tauto
  · cases hrows
    cases hrow

lemma describes_join {row row' : PathMap} (hl : left.Describes E.literalText row)
    (hr : right.Describes E.literalText row') :
    (PhysicalOperator.hashJoin left right).Describes E.literalText (row.mergeFrom row') := by
  constructor
  · intro v hv
    rw [isSome_get_mergeFrom]
    rcases Finset.mem_union.mp hv with hv | hv
    · exact .inl (hl.1 v hv)
    · exact .inr (hr.1 v hv)
  · intro v hv
    simp only [names, boundVars, pathNames, Finset.mem_union]
    rcases isSome_get_mergeFrom.mp hv with hv | hv
    · have := Finset.mem_union.mp (hl.2 v hv)
      tauto
    · have := Finset.mem_union.mp (hr.2 v hv)
      tauto

lemma describes_scanRows (hbound : op.boundVars E.literalText = {v}) (hpath : op.pathNames = ∅)
    (h : E.scanRows op v = .ok rows) : ∀ row ∈ rows, op.Describes E.literalText row := by
  unfold scanRows at h
  rcases hs : E.scan op with e | nodes
  · rw [hs] at h
    cases h
  · rw [hs] at h
    cases h
    intro row hrow
    obtain ⟨n, -, rfl⟩ := mem_map.mp hrow
    refine ⟨fun w hw => ?_, fun w hw => ?_⟩
    · rw [hbound, Finset.mem_singleton] at hw
      rw [isSome_get_put]
      exact .inl hw
    · rw [isSome_get_put, Table.get_empty] at hw
      rw [names, hbound, hpath]
      simpa using hw

lemma describes_multiwayJoinRow {c : Closing} (h : input.Describes E.literalText row)
    (hrow : row' ∈ E.multiwayJoinRow c row) :
    (PhysicalOperator.multiwayJoin input c).Describes E.literalText row' := by
  unfold multiwayJoinRow at hrow
  split at hrow
  · obtain ⟨e, -, rfl⟩ := mem_map.mp hrow
    constructor
    · intro v hv
      rw [isSome_get_put]
      exact (Finset.mem_insert.mp hv).imp_right (h.1 v)
    · intro v hv
      rw [isSome_get_put] at hv
      simp only [names, boundVars, pathNames, Finset.mem_union, Finset.mem_insert]
      rcases hv with rfl | hv
      · exact .inl (.inl rfl)
      · have := Finset.mem_union.mp (h.2 v hv)
        tauto
  · cases hrow

/-- **Rows bind what the plan says.** -/
theorem describes_eval (h : op.isPattern) (hrows : E.eval op = .ok rows) :
    ∀ row ∈ rows, op.Describes E.literalText row := by
  induction op generalizing rows with
  | singleRow =>
    cases hrows
    intro row hrow
    obtain rfl := mem_singleton.mp hrow
    exact ⟨fun v hv => absurd hv (Finset.notMem_empty v), fun v hv => absurd hv (by simp)⟩
  | labelScan v label => exact describes_scanRows rfl rfl hrows
  | nodeByIdSeek v label idValue => exact describes_scanRows rfl rfl hrows
  | nodeIndexScan v label property value => exact describes_scanRows rfl rfl hrows
  | nodeRangeScan v range => exact describes_scanRows rfl rfl hrows
  | filter input e ih =>
    rw [eval] at hrows
    obtain ⟨inner, hinner, hrows⟩ := bind_eq_ok hrows
    obtain ⟨-, rfl⟩ := List.filterE_eq_ok.mp hrows
    intro row hrow
    exact ih h hinner row (mem_filter.mp hrow).1
  | expand input hop ih =>
    rw [eval] at hrows
    obtain ⟨inner, hinner, hrows⟩ := bind_eq_ok hrows
    obtain ⟨hok, rfl⟩ := List.flatMapE_eq_ok.mp hrows
    intro row' hrow'
    obtain ⟨row, hrow, hmem⟩ := mem_flatMap.mp hrow'
    have hdesc := ih h hinner row hrow
    obtain ⟨new, hnew⟩ := hok row hrow
    rw [hnew] at hmem
    split at hnew
    · cases hnew
      exact describes_expandFixed hdesc hmem
    · exact describes_expandTrails hdesc hnew hmem
  | multiwayJoin input c ih =>
    rw [eval] at hrows
    obtain ⟨inner, hinner, hrows⟩ := bind_eq_ok hrows
    cases hrows
    intro row' hrow'
    obtain ⟨row, hrow, hmem⟩ := mem_flatMap.mp hrow'
    exact describes_multiwayJoinRow (ih h hinner row hrow) hmem
  | hashJoin left right ihl ihr =>
    obtain ⟨hl, hr⟩ := Bool.and_eq_true .. ▸ h
    rw [eval_hashJoin hl hr] at hrows
    obtain ⟨build, hbuild, hrows⟩ := bind_eq_ok hrows
    obtain ⟨probe, hprobe, hrows⟩ := bind_eq_ok hrows
    cases hrows
    intro row hrow
    obtain ⟨p, hp, hmem⟩ := mem_flatMap.mp hrow
    obtain ⟨b, hb, rfl⟩ := mem_map.mp hmem
    exact describes_join (ihl hl hprobe p hp) (ihr hr hbuild b (mem_filter.mp hb).1)
  | _ => cases h

/-! ## Closing hops keep their rows -/

lemma isPlain_iff {hop : Hop} : hop.isPlain ↔
    isFixed hop ∧ hop.isVarLength = false ∧ hop.needsPath = false := by
  simp [Hop.isPlain, isFixed, and_assoc]

lemma bindPath_of_not_needsPath (h : hop.needsPath = false) (row : PathMap)
    (path : Option Json) : bindPath row hop path = row := by
  unfold bindPath
  split
  · rw [if_neg (by simp [h])]
  · rfl

lemma put_of_get {row : PathMap} {b : GraphBinding} (h : row.get v = some b) :
    row.put v b = row := by
  ext1 w
  rw [Table.get_put]
  split
  · rename_i hw
    rw [hw, h]
  · rfl

lemma closingEdges_closing (hop : Hop) (src dst : NodeId) :
    E.closingEdges hop.closing src dst =
      ((E.neighbors.transitions src hop.relType hop.isIncoming hop.isUndirected).filter
        (·.2 = dst)).map Prod.fst := by
  unfold closingEdges Hop.closing
  rcases hop.isUndirected
  · rw [Neighbors.transitions_directed]
    rfl
  · rw [Neighbors.transitions_undirected]
    rfl

lemma expandFixed_of_bound (hplain : hop.isPlain) (h : (row.get hop.dstVar).isSome)
    (hne : hop.relVar ≠ hop.dstVar) :
    E.expandFixed hop row = E.multiwayJoinRow hop.closing row := by
  obtain ⟨-, hvar, hpath⟩ := isPlain_iff.mp hplain
  obtain ⟨b, hb⟩ := Option.isSome_iff_exists.mp h
  unfold expandFixed multiwayJoinRow
  rw [show row.get hop.closing.closingSrcVar = row.get hop.srcVar from rfl,
    show row.get hop.closing.closingDstVar = row.get hop.dstVar from rfl, hb]
  split
  · rename_i src hsrc
    rw [hsrc]
    cases b with
    | node d =>
      -- The row admits the hop only to `d`, and binds it already.
      have hadmits : ∀ n, admits row hop.dstVar n = decide (n = d) := by
        intro n
        simp only [admits, hb, GraphBinding.node.injEq]
        exact decide_eq_decide.mpr eq_comm
      dsimp only
      rw [closingEdges_closing, filter_map, map_map, filter_filter]
      simp only [hadmits, hvar, Bool.false_eq_true, if_false, Function.comp_def]
      apply map_congr_left
      intro t ht
      obtain rfl : t.2 = d := by
        have := (mem_filter.mp ht).2
        simp only [Bool.and_eq_true, decide_eq_true_eq] at this
        exact this.2
      rw [bindPath_of_not_needsPath hpath]
      apply put_of_get
      rw [Table.get_put_of_ne _ _ (Ne.symm hne), hb]
    | _ =>
      have hadmits : ∀ n, admits row hop.dstVar n = false := by
        intro n
        simp [admits, hb]
      simp [hadmits]
  · rename_i hsrc
    split
    · rename_i src dst hsrc' hdst
      exact absurd hsrc' (hsrc src)
    · rfl

variable {literal : Literal → String}

lemma boundVars_rewriteClosingExpands (op : PhysicalOperator) :
    (rewriteClosingExpands literal op).boundVars literal = op.boundVars literal := by
  induction op with
  | expand input hop ih =>
    rw [rewriteClosingExpands]
    split
    · rename_i h
      simp only [boundVars, ih] at h ⊢
      rw [Finset.insert_eq_of_mem (Finset.mem_insert_of_mem h.2)]
      rfl
    · simp only [boundVars, ih]
  | hashJoin left right ihl ihr => simp only [rewriteClosingExpands, boundVars, ihl, ihr]
  | _ => simp only [rewriteClosingExpands, boundVars, *]

lemma pathNames_rewriteClosingExpands (op : PhysicalOperator) :
    (rewriteClosingExpands literal op).pathNames = op.pathNames := by
  induction op with
  | expand input hop ih =>
    rw [rewriteClosingExpands]
    split
    · rename_i h
      obtain ⟨-, -, hpath⟩ := isPlain_iff.mp h.1
      simp only [pathNames, ih, hpath, Bool.false_eq_true, if_false]
    · simp only [pathNames, ih]
  | hashJoin left right ihl ihr => simp only [rewriteClosingExpands, pathNames, ihl, ihr]
  | _ => simp only [rewriteClosingExpands, pathNames, *]

lemma names_rewriteClosingExpands (op : PhysicalOperator) :
    (rewriteClosingExpands literal op).names literal = op.names literal := by
  rw [names, names, boundVars_rewriteClosingExpands, pathNames_rewriteClosingExpands]

omit E in
lemma hoistedVars_rewriteClosingExpands (op : PhysicalOperator) :
    (rewriteClosingExpands literal op).hoistedVars = op.hoistedVars := by
  induction op with
  | expand input hop ih =>
    rw [rewriteClosingExpands]
    split <;> rfl
  | filter input e ih => simp only [rewriteClosingExpands, hoistedVars, ih]
  | _ => rfl

omit E in
lemma isPattern_rewriteClosingExpands (h : op.isPattern) :
    (rewriteClosingExpands literal op).isPattern := by
  induction op with
  | expand input hop ih =>
    rw [rewriteClosingExpands]
    split
    · exact ih h
    · exact ih h
  | filter input e ih => exact ih h
  | multiwayJoin input c ih => exact ih h
  | hashJoin left right ihl ihr =>
    simp only [isPattern, Bool.and_eq_true] at h
    simp only [rewriteClosingExpands, isPattern, Bool.and_eq_true]
    exact ⟨ihl h.1, ihr h.2⟩
  | _ => exact h

/-- **Closing hops keep their rows**, in their order. -/
theorem eval_rewriteClosingExpands (h : op.isPattern)
    (hapart : (rewriteClosingExpands E.literalText op).apart E.literalText) :
    E.eval (rewriteClosingExpands E.literalText op) = E.eval op := by
  induction op with
  | expand input hop ih =>
    rw [rewriteClosingExpands] at hapart ⊢
    split at hapart
    next hclose =>
      simp only [apart, Bool.and_eq_true, decide_eq_true_eq] at hapart
      rw [if_pos hclose, eval, eval, ih h hapart.1.1]
      rcases hrows : E.eval input with e | rows
      · rfl
      have hinput : input.isPattern := h
      have hdst : ∀ row ∈ rows, (row.get hop.dstVar).isSome := by
        intro row hrow
        apply (describes_eval hinput hrows row hrow).1
        rw [← boundVars_rewriteClosingExpands]
        exact hclose.2
      have hsame : ∀ row ∈ rows, E.multiwayJoinRow hop.closing row = E.expandFixed hop row :=
        fun row hrow => (expandFixed_of_bound hclose.1 (hdst row hrow) hapart.1.2).symm
      show Except.ok (rows.flatMap (E.multiwayJoinRow hop.closing)) = E.expandFromPaths hop rows
      unfold expandFromPaths
      simp only [(isPlain_iff.mp hclose.1).1, if_true]
      rw [List.flatMapE_ok]
      exact congrArg _ (flatMap_congr hsame)
    next hopen => rw [if_neg hopen, eval, eval, ih h hapart]
  | filter input e ih => rw [rewriteClosingExpands, eval, eval, ih h hapart]
  | multiwayJoin input c ih =>
    simp only [rewriteClosingExpands, apart, Bool.and_eq_true] at hapart
    rw [rewriteClosingExpands, eval, eval, ih h hapart.1.1]
  | hashJoin left right ihl ihr =>
    simp only [isPattern, Bool.and_eq_true] at h
    simp only [rewriteClosingExpands, apart, Bool.and_eq_true] at hapart
    rw [rewriteClosingExpands, eval_hashJoin (isPattern_rewriteClosingExpands h.1)
      (isPattern_rewriteClosingExpands h.2), eval_hashJoin h.1 h.2, ihl h.1 hapart.1,
      ihr h.2 hapart.2, commonVars, commonVars, boundVars_rewriteClosingExpands,
      boundVars_rewriteClosingExpands]
  | singleRow | labelScan _ _ | nodeByIdSeek _ _ _ | nodeIndexScan _ _ _ _ | nodeRangeScan _ _ =>
    rfl
  | _ => cases h

end Engine

end IssunDB.Cypher
