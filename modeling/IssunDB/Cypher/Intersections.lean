import IssunDB.Cypher.ClosingHops

/-!
# Fused hops

`rewriteExpandIntersect` fuses a closing join with the hop before it into one operator that walks
the shorter of two neighbor lists and looks the other up. Filters between the two are hoisted above
the fused operator if `filter_cannot_raise` admits them.

* `expandIntersectRow_perm` — the fused operator gives the rows of the two hops, up to order.
* `sameRows_intersect` — so it does with the filters between the hops put above it, iff the join
  does not drop all the rows on which they raise.
* `sameRows_closingHops` — both rewritings preserve the rows of a plan whose names are apart and
  whose closing joins silence no filter.
* `closingHops_differ` — a parameter that is not given, and a variable that has the generated name
  of another relationship.
-/

namespace IssunDB.Cypher

open List PhysicalOperator

namespace Engine

variable {E : Engine}

/-! ## One row -/

section Fused

variable {hop : Hop} {c : Closing} {row : PathMap}

/-- The row of a hop along `t`. -/
def wedge (hop : Hop) (row : PathMap) (t : EdgeId × NodeId) : PathMap :=
  (row.put hop.relVar (.edge t.1)).put hop.dstVar (.node t.2)

lemma get_wedge_of_ne {v : String} (hr : v ≠ hop.relVar) (hd : v ≠ hop.dstVar)
    (t : EdgeId × NodeId) : (wedge hop row t).get v = row.get v := by
  rw [wedge, Table.get_put_of_ne _ _ hd, Table.get_put_of_ne _ _ hr]

/-- The hop of a fused pair from a row that binds neither of its variables. -/
theorem expandFixed_of_unbound {src : NodeId} (hplain : hop.isPlain)
    (hdir : hop.isUndirected = false) (hsrc : row.get hop.srcVar = some (.node src))
    (hdst : row.get hop.dstVar = none) :
    E.expandFixed hop row =
      ((E.neighbors.expandMultiType src hop.relType hop.isIncoming).filter fun t =>
        !edgeBoundToSiblingRel row hop.uniqueRels t.1).map (wedge hop row) := by
  obtain ⟨-, hvar, hpath⟩ := isPlain_iff.mp hplain
  unfold expandFixed
  rw [hsrc, hdir]
  dsimp only
  rw [Neighbors.transitions_directed]
  simp only [admits, hdst, Bool.and_true, hvar, Bool.false_eq_true, if_false,
    bindPath_of_not_needsPath hpath]
  rfl

lemma multiwayJoinRow_wedge {dst : NodeId} (hcdir : c.closingIsUndirected = false)
    (hsrc : hop.dstVar = c.closingSrcVar) (hclose : row.get c.closingDstVar = some (.node dst))
    (hr : row.get hop.relVar = none) (hd : row.get hop.dstVar = none) (t : EdgeId × NodeId) :
    E.multiwayJoinRow c (wedge hop row t) =
      (((E.neighbors.expandMultiType t.2 c.closingRelType c.closingIsIncoming).filter
        (·.2 = dst)).map Prod.fst |>.filter fun e =>
          !edgeBoundToSiblingRel (wedge hop row t) c.closingUniqueRels e).map fun e =>
            (wedge hop row t).put c.closingRelVar (.edge e) := by
  have hcr : c.closingDstVar ≠ hop.relVar := by
    rintro heq
    rw [heq, hr] at hclose
    cases hclose
  have hcd : c.closingDstVar ≠ hop.dstVar := by
    rintro heq
    rw [heq, hd] at hclose
    cases hclose
  have hsrc' : (wedge hop row t).get c.closingSrcVar = some (.node t.2) := by
    rw [← hsrc, wedge, Table.get_put_self]
  have hdst' : (wedge hop row t).get c.closingDstVar = some (.node dst) := by
    rw [get_wedge_of_ne hcr hcd, hclose]
  unfold multiwayJoinRow closingEdges
  rw [hsrc', hdst', hcdir]
  rfl

lemma edgeBoundToSiblingRel_wedge (hr : row.get hop.relVar = none)
    (hd : row.get hop.dstVar = none) (hne : hop.relVar ≠ hop.dstVar) (uniqueRels : List String)
    (t : EdgeId × NodeId) (e : EdgeId) :
    edgeBoundToSiblingRel (wedge hop row t) uniqueRels e =
      (uniqueRels.contains hop.relVar && e = t.1 || edgeBoundToSiblingRel row uniqueRels e) := by
  induction uniqueRels with
  | nil => simp [edgeBoundToSiblingRel]
  | cons v rest ih =>
    have hcons : ∀ row : PathMap, edgeBoundToSiblingRel row (v :: rest) e =
        (edgeBoundToSiblingRel row [v] e || edgeBoundToSiblingRel row rest e) := by
      intro row
      simp [edgeBoundToSiblingRel]
    rw [hcons, hcons, ih]
    by_cases hvr : v = hop.relVar
    · subst hvr
      have h1 : edgeBoundToSiblingRel (wedge hop row t) [hop.relVar] e = decide (e = t.1) := by
        simp [edgeBoundToSiblingRel, wedge, Table.get_put, hne, eq_comm]
      have h2 : edgeBoundToSiblingRel row [hop.relVar] e = false := by
        simp [edgeBoundToSiblingRel, hr]
      rw [h1, h2]
      simp
      grind
    · have h1 : edgeBoundToSiblingRel (wedge hop row t) [v] e =
          edgeBoundToSiblingRel row [v] e := by
        by_cases hvd : v = hop.dstVar
        · subst hvd
          simp [edgeBoundToSiblingRel, wedge, hd]
        · simp [edgeBoundToSiblingRel, get_wedge_of_ne hvr hvd]
      rw [h1, contains_cons, beq_eq_false_iff_ne.mpr (Ne.symm hvr), Bool.false_or]
      grind

/-- The hop along `t` and the closing relationship. -/
def triangle (hop : Hop) (c : Closing) (row : PathMap) (t : (EdgeId × NodeId) × EdgeId) : PathMap :=
  (wedge hop row t.1).put c.closingRelVar (.edge t.2)

def nestedPairs (E : Engine) (hop : Hop) (c : Closing) (row : PathMap) (src dst : NodeId) :
    List ((EdgeId × NodeId) × EdgeId) :=
  ((E.neighbors.expandMultiType src hop.relType hop.isIncoming).filter fun t =>
    !edgeBoundToSiblingRel row hop.uniqueRels t.1).flatMap fun t =>
      (((E.neighbors.expandMultiType t.2 c.closingRelType c.closingIsIncoming).filter
        (·.2 = dst)).map Prod.fst |>.filter fun e =>
          !edgeBoundToSiblingRel (wedge hop row t) c.closingUniqueRels e).map (Prod.mk t)

def fusedPairs (E : Engine) (hop : Hop) (c : Closing) (row : PathMap) (src dst : NodeId) :
    List ((EdgeId × NodeId) × EdgeId) :=
  let mids := E.neighbors.expandMultiType src hop.relType hop.isIncoming
  let closes := E.neighbors.expandMultiType dst c.closingRelType (!c.closingIsIncoming)
  let midNodes := (mids.map Prod.snd).eraseDups
  let closeNodes := (closes.map Prod.snd).eraseDups
  (if midNodes.length ≤ closeNodes.length then midNodes else closeNodes).flatMap fun n =>
    ((edgesTo mids n).filter fun e => !edgeBoundToSiblingRel row hop.uniqueRels e).flatMap fun e =>
      ((edgesTo closes n).filter fun e' =>
        !(c.closingUniqueRels.contains hop.relVar && e' = e) &&
          !edgeBoundToSiblingRel row c.closingUniqueRels e').map (Prod.mk (e, n))

variable {n : NodeId} {src dst : NodeId}

lemma mem_edgesTo {l : List (EdgeId × NodeId)} {e : EdgeId} :
    e ∈ edgesTo l n ↔ (e, n) ∈ l := by
  simp [edgesTo]

lemma nodup_edgesTo {l : List (EdgeId × NodeId)} (h : l.Nodup) (n : NodeId) :
    (edgesTo l n).Nodup := by
  apply List.Nodup.map_on _ (h.filter _)
  intro t ht t' ht' heq
  have hn := (mem_filter.mp ht).2
  have hn' := (mem_filter.mp ht').2
  simp only [decide_eq_true_eq] at hn hn'
  exact Prod.ext heq (hn.trans hn'.symm)

lemma nodup_nestedPairs (src dst : NodeId) : (nestedPairs E hop c row src dst).Nodup := by
  apply List.nodup_flatMap_of_key Prod.fst
  · exact (E.neighbors.nodup_expandMultiType _ _ _).filter _
  · intro t _
    exact ((nodup_edgesTo (E.neighbors.nodup_expandMultiType _ _ _) dst).filter _).map
      (Prod.mk_right_injective t)
  · intro t _ pair hpair
    obtain ⟨e, -, rfl⟩ := mem_map.mp hpair
    rfl

lemma nodup_fusedPairs (src dst : NodeId) : (fusedPairs E hop c row src dst).Nodup := by
  have hmids := E.neighbors.nodup_expandMultiType src hop.relType hop.isIncoming
  have hcloses := E.neighbors.nodup_expandMultiType dst c.closingRelType (!c.closingIsIncoming)
  -- A pair determines the node it goes through, and then its first relationship.
  apply List.nodup_flatMap_of_key (fun pair => pair.1.2)
  · split
    · exact List.nodup_eraseDups _
    · exact List.nodup_eraseDups _
  · intro n _
    apply List.nodup_flatMap_of_key (fun pair => pair.1.1)
    · exact (nodup_edgesTo hmids n).filter _
    · intro e _
      exact ((nodup_edgesTo hcloses n).filter _).map (Prod.mk_right_injective (e, n))
    · intro e _ pair hpair
      obtain ⟨e', -, rfl⟩ := mem_map.mp hpair
      rfl
  · intro n _ pair hpair
    obtain ⟨e, -, hpair⟩ := mem_flatMap.mp hpair
    obtain ⟨e', -, rfl⟩ := mem_map.mp hpair
    rfl

lemma mem_nestedPairs {e e' : EdgeId} :
    ((e, n), e') ∈ nestedPairs E hop c row src dst ↔
      (e, n) ∈ E.neighbors.expandMultiType src hop.relType hop.isIncoming ∧
        edgeBoundToSiblingRel row hop.uniqueRels e = false ∧
        (e', dst) ∈ E.neighbors.expandMultiType n c.closingRelType c.closingIsIncoming ∧
        edgeBoundToSiblingRel (wedge hop row (e, n)) c.closingUniqueRels e' = false := by
  simp only [nestedPairs, mem_flatMap, mem_map, mem_filter, Bool.not_eq_true',
    Prod.mk.injEq, decide_eq_true_eq]
  constructor
  · rintro ⟨t, ⟨ht, hsib⟩, e'', ⟨⟨t', ⟨ht', rfl⟩, rfl⟩, hsib'⟩, rfl, rfl⟩
    exact ⟨ht, hsib, ht', hsib'⟩
  · rintro ⟨ht, hsib, ht', hsib'⟩
    exact ⟨_, ⟨ht, hsib⟩, _, ⟨⟨_, ⟨ht', rfl⟩, rfl⟩, hsib'⟩, rfl, rfl⟩

lemma mem_fusedPairs {e e' : EdgeId} :
    ((e, n), e') ∈ fusedPairs E hop c row src dst ↔
      (e, n) ∈ E.neighbors.expandMultiType src hop.relType hop.isIncoming ∧
        edgeBoundToSiblingRel row hop.uniqueRels e = false ∧
        (e', n) ∈ E.neighbors.expandMultiType dst c.closingRelType (!c.closingIsIncoming) ∧
        (c.closingUniqueRels.contains hop.relVar && e' = e ||
          edgeBoundToSiblingRel row c.closingUniqueRels e') = false := by
  simp only [fusedPairs, mem_flatMap, mem_map, mem_filter, mem_edgesTo,
    Prod.mk.injEq, ← Bool.not_or, Bool.not_eq_true']
  constructor
  · rintro ⟨n', -, e₁, ⟨hmid, hsib⟩, e₂, ⟨hclose, hsib'⟩, ⟨rfl, rfl⟩, rfl⟩
    exact ⟨hmid, hsib, hclose, hsib'⟩
  · rintro ⟨hmid, hsib, hclose, hsib'⟩
    refine ⟨n, ?_, e, ⟨hmid, hsib⟩, e', ⟨hclose, hsib'⟩, ⟨rfl, rfl⟩, rfl⟩
    -- Whichever list is walked, the node is in it.
    split
    · rw [mem_eraseDups]
      exact mem_map_of_mem hmid
    · rw [mem_eraseDups]
      exact mem_map_of_mem hclose

/-- The two plans find the same pairs. -/
theorem fusedPairs_perm (hr : row.get hop.relVar = none) (hd : row.get hop.dstVar = none)
    (hne : hop.relVar ≠ hop.dstVar) (src dst : NodeId) :
    (fusedPairs E hop c row src dst).Perm (nestedPairs E hop c row src dst) := by
  rw [perm_ext_iff_of_nodup (nodup_fusedPairs src dst) (nodup_nestedPairs src dst)]
  rintro ⟨⟨e, n⟩, e'⟩
  rw [mem_fusedPairs, mem_nestedPairs, edgeBoundToSiblingRel_wedge hr hd hne,
    E.neighbors.mem_expandMultiType_mirror (n := n)]

/-- The rows of the fused operator, pair by pair. -/
theorem expandIntersectRow_eq (hne : hop.relVar ≠ hop.dstVar)
    (hsrc : row.get hop.srcVar = some (.node src))
    (hdst : row.get c.closingDstVar = some (.node dst)) :
    E.expandIntersectRow (hop.intersect c) row =
      (fusedPairs E hop c row src dst).map (triangle hop c row) := by
  unfold expandIntersectRow
  rw [show row.get (hop.intersect c).srcVar = row.get hop.srcVar from rfl,
    show row.get (hop.intersect c).closingDstVar = row.get c.closingDstVar from rfl, hsrc, hdst]
  dsimp only
  rw [fusedPairs, map_flatMap]
  apply flatMap_congr
  intro n _
  rw [map_flatMap]
  apply flatMap_congr
  intro e _
  rw [map_map]
  apply map_congr_left
  intro e' _
  show ((row.put hop.dstVar (.node n)).put hop.relVar (.edge e)).put c.closingRelVar (.edge e') =
    ((row.put hop.relVar (.edge e)).put hop.dstVar (.node n)).put c.closingRelVar (.edge e')
  congr 1
  ext1 v
  simp only [Table.get_put]
  by_cases hv : v = hop.relVar
  · rw [if_pos hv, if_neg (hv ▸ hne), if_pos hv]
  · simp only [if_neg hv]

/-- **The fused operator gives the rows of the two hops**, up to order. -/
theorem expandIntersectRow_perm (hplain : hop.isPlain) (hdir : hop.isUndirected = false)
    (hcdir : c.closingIsUndirected = false) (hmid : hop.dstVar = c.closingSrcVar)
    (hr : row.get hop.relVar = none) (hd : row.get hop.dstVar = none)
    (hclose : (row.get c.closingDstVar).isSome) (hne : hop.relVar ≠ hop.dstVar) :
    (E.expandIntersectRow (hop.intersect c) row).Perm
      ((E.expandFixed hop row).flatMap (E.multiwayJoinRow c)) := by
  by_cases hsrc : ∃ src, row.get hop.srcVar = some (.node src)
  · obtain ⟨src, hsrc⟩ := hsrc
    rw [expandFixed_of_unbound hplain hdir hsrc hd, flatMap_map]
    by_cases hdst : ∃ dst, row.get c.closingDstVar = some (.node dst)
    · obtain ⟨dst, hdst⟩ := hdst
      rw [expandIntersectRow_eq hne hsrc hdst]
      refine ((fusedPairs_perm hr hd hne src dst).map _).trans (List.Perm.of_eq ?_)
      rw [nestedPairs, map_flatMap]
      apply flatMap_congr
      intro t _
      rw [multiwayJoinRow_wedge hcdir hmid hdst hr hd, map_map]
      rfl
    · -- The closing end is bound to something that is no node.
      have hfused : E.expandIntersectRow (hop.intersect c) row = [] := by
        unfold expandIntersectRow
        split
        · rename_i dst _ hdst'
          exact absurd ⟨dst, hdst'⟩ hdst
        · rfl
      have hnested : ∀ t, E.multiwayJoinRow c (wedge hop row t) = [] := by
        intro t
        have hcr : c.closingDstVar ≠ hop.relVar := fun heq => by simp [heq, hr] at hclose
        have hcd : c.closingDstVar ≠ hop.dstVar := fun heq => by simp [heq, hd] at hclose
        unfold multiwayJoinRow
        rw [get_wedge_of_ne hcr hcd]
        split
        · rename_i dst _ hdst'
          exact absurd ⟨dst, hdst'⟩ hdst
        · rfl
      rw [hfused]
      simp [hnested]
  · have hfused : E.expandIntersectRow (hop.intersect c) row = [] := by
      unfold expandIntersectRow
      split
      · rename_i src _ hsrc' _
        exact absurd ⟨src, hsrc'⟩ hsrc
      · rfl
    have hnested : E.expandFixed hop row = [] := by
      unfold expandFixed
      split
      · rename_i src hsrc'
        exact absurd ⟨src, hsrc'⟩ hsrc
      · rfl
    rw [hfused, hnested]
    exact List.Perm.nil

end Fused

/-! ## Hoisted filters -/

section Hoisted

variable {row : PathMap} {v : String} {b : GraphBinding}

/-- An operand does not see a variable it does not name. -/
theorem operand_put {x : Expr} (hx : operandCannotRaise x) (hv : v ∉ operandVars x) :
    E.operand (row.put v b) x = E.operand row x := by
  cases x with
  | prop w p =>
    have hw : w ≠ v := fun h => hv (h ▸ Finset.mem_singleton_self w)
    simp only [operand, Table.get_put_of_ne _ _ hw]
  | literal l => rfl
  | param p => rfl
  | _ => cases hx

lemma compare_put {op : BinaryOperator} {l r : Expr}
    (h : (operandCannotRaise l && operandCannotRaise r) = true)
    (hv : v ∉ operandVars l ∪ operandVars r) :
    E.compare op l r (row.put v b) = E.compare op l r row := by
  obtain ⟨hl, hr⟩ := Bool.and_eq_true .. ▸ h
  rw [Finset.mem_union, not_or] at hv
  rw [compare, compare, operand_put hl hv.1, operand_put hr hv.2]

/-- A filter that may be hoisted does not see a variable it does not name. -/
theorem passes_put {e : FilterExpr} (he : filterCannotRaise e) (hv : v ∉ filterVars e) :
    E.passes e (row.put v b) = E.passes e row := by
  cases e with
  | hasLabel w label =>
    have hw : w ≠ v := fun h => hv (h ▸ Finset.mem_singleton_self w)
    simp only [passes, Table.get_put_of_ne _ _ hw]
  | expr e =>
    cases e with
    | binaryOp op l r =>
      simp only [filterCannotRaise, Bool.and_eq_true] at he
      simp only [filterVars, Finset.mem_union, not_or] at hv
      have hl : isComparison l = false := by
        have := he.1.2
        cases l <;> first | rfl | cases this
      simp only [passes, predicate, he.1.1, hl, Bool.not_false, Bool.and_self, if_true,
        operand_put he.1.2 hv.1, operand_put he.2 hv.2]
    | _ => cases he
  | _ => exact compare_put he hv

/-- The outermost of a run of filters. -/
theorem eval_rebuild_cons (node : PhysicalOperator) (e : FilterExpr) (filters : List FilterExpr) :
    E.eval (rebuild node (e :: filters)) =
      (E.eval (rebuild node filters) >>= E.applyFilter e) := by
  rw [rebuild, foldr_cons, eval]
  rfl

lemma sameRows_filter {x y : Except Error (List PathMap)} (h : x.SameRows y) (e : FilterExpr) :
    Except.SameRows (x >>= E.applyFilter e) (y >>= E.applyFilter e) :=
  h.bind fun _ _ _ _ hperm => Except.filterE_sameRows _ hperm

lemma sameRows_rebuild {node node' : PhysicalOperator}
    (h : Except.SameRows (E.eval node) (E.eval node')) (filters : List FilterExpr) :
    Except.SameRows (E.eval (rebuild node filters)) (E.eval (rebuild node' filters)) := by
  induction filters with
  | nil => exact h
  | cons e filters ih =>
    rw [eval_rebuild_cons, eval_rebuild_cons]
    exact sameRows_filter ih e

end Hoisted

/-- A run of filters on one row, the innermost first. -/
def runFilters (E : Engine) : List FilterExpr → PathMap → Except Error Bool
  | [], _ => .ok true
  | e :: filters, row => do
    if ← E.runFilters filters row then E.passes e row else .ok false

def Raises (E : Engine) (filters : List FilterExpr) (row : PathMap) : Prop :=
  ∃ err, E.runFilters filters row = .error err

/-- A closing join is fused with a hop on whose rows the filters between the two raise, but on none
that the join keeps. -/
def Silences (E : Engine) (input : PhysicalOperator) (c : Closing) : Prop :=
  ∃ filters mid hop rows, peelFilters input = (filters, .expand mid hop) ∧
    hoists E.literalText filters mid hop c ∧ E.eval (.expand mid hop) = .ok rows ∧
    (∃ row ∈ rows, E.Raises filters row) ∧
    ∀ row ∈ rows, E.Raises filters row → E.multiwayJoinRow c row = []

/-- No closing join of the plan silences the filters below it. -/
def Quiet (E : Engine) : PhysicalOperator → Prop
  | .filter input _ | .expand input _ => Quiet E input
  | .multiwayJoin input c => Quiet E input ∧ ¬E.Silences input c
  | .hashJoin left right => Quiet E left ∧ Quiet E right
  | _ => True

section Hoisting

variable {mid node : PhysicalOperator} {hop : Hop} {c : Closing} {filters : List FilterExpr}
  {rows : List PathMap}

omit E in
lemma hoistedVars_rebuild_cons {e : FilterExpr} (he : filterCannotRaise e) :
    (rebuild node (e :: filters)).hoistedVars =
      filterVars e ∪ (rebuild node filters).hoistedVars := if_pos he

/-- Filters that may be hoisted do not see a variable they do not name. -/
theorem runFilters_put {v : String} {b : GraphBinding} {row : PathMap}
    (hf : filters.all filterCannotRaise) (hv : v ∉ (rebuild node filters).hoistedVars) :
    E.runFilters filters (row.put v b) = E.runFilters filters row := by
  induction filters with
  | nil => rfl
  | cons e filters ih =>
    rw [all_cons, Bool.and_eq_true] at hf
    rw [hoistedVars_rebuild_cons hf.1, Finset.mem_union, not_or] at hv
    rw [runFilters, runFilters, ih hf.2 hv.2, passes_put hf.1 hv.1]

/-- Every row of a closing join is one of its input with the closing relationship bound. -/
theorem runFilters_multiwayJoinRow (hf : filters.all filterCannotRaise)
    (hv : c.closingRelVar ∉ (rebuild node filters).hoistedVars) (row : PathMap) :
    ∀ row' ∈ E.multiwayJoinRow c row, E.runFilters filters row' = E.runFilters filters row := by
  intro row' hrow'
  unfold multiwayJoinRow at hrow'
  split at hrow'
  · obtain ⟨edge, -, rfl⟩ := mem_map.mp hrow'
    exact runFilters_put hf hv
  · cases hrow'

/-- A run of filters over a plan that succeeds. -/
theorem sameRows_runFilters (h : E.eval node = .ok rows) (filters : List FilterExpr) :
    Except.SameRows (E.eval (rebuild node filters)) (rows.filterE (E.runFilters filters)) := by
  induction filters with
  | nil =>
    have hall : rows.filterE (E.runFilters []) = .ok rows := by
      refine List.filterE_eq_ok.mpr ⟨fun row _ => ⟨true, rfl⟩, ?_⟩
      exact (filter_eq_self.mpr fun row _ => rfl).symm
    rw [hall]
    exact h ▸ Except.SameRows.refl _
  | cons e filters ih =>
    rw [eval_rebuild_cons]
    refine (sameRows_filter ih e).trans (Except.sameRows_of_ok_iff fun kept => ?_)
    exact List.filterE_filterE

lemma eval_rebuild_error {err : Error} (h : E.eval node = .error err) :
    E.eval (rebuild node filters) = .error err := by
  induction filters with
  | nil => exact h
  | cons e filters ih =>
    rw [eval_rebuild_cons, ih]
    rfl

lemma eval_expand_plain (hplain : hop.isPlain) :
    E.eval (.expand mid hop) = do return (← E.eval mid).flatMap (E.expandFixed hop) := by
  rw [eval]
  congr 1
  funext rows
  unfold expandFromPaths
  simp only [(isPlain_iff.mp hplain).1, if_true]
  exact List.flatMapE_ok _ rows

/-- The fused operator on the rows of the plan below it. -/
theorem eval_expandIntersect_perm (hpat : mid.isPattern) (hfuse : fusible E.literalText mid hop c)
    (hcdir : c.closingIsUndirected = false) (hrel : hop.relVar ∉ mid.names E.literalText)
    (hdst : hop.dstVar ∉ mid.names E.literalText) (hne : hop.relVar ≠ hop.dstVar)
    (h : E.eval (.expand mid hop) = .ok rows) :
    ∃ rows', E.eval (.expandIntersect mid (hop.intersect c)) = .ok rows' ∧
      rows'.Perm (rows.flatMap (E.multiwayJoinRow c)) := by
  simp only [fusible, Bool.and_eq_true, Bool.not_eq_true', decide_eq_true_eq] at hfuse
  obtain ⟨⟨⟨hdir, hplain⟩, hmid⟩, hclosing⟩ := hfuse
  rw [eval_expand_plain hplain] at h
  obtain ⟨inner, hinner, h⟩ := bind_eq_ok h
  cases h
  have hdesc := describes_eval hpat hinner
  have hnone : ∀ row ∈ inner, ∀ v ∉ mid.names E.literalText, row.get v = none := by
    intro row hrow v hv
    by_contra hsome
    exact hv ((hdesc row hrow).2 v (Option.isSome_iff_ne_none.mpr hsome))
  rw [eval, hinner]
  refine ⟨_, rfl, ?_⟩
  rw [flatMap_assoc]
  apply List.Perm.flatMap_left
  intro row hrow
  exact expandIntersectRow_perm hplain hdir hcdir hmid (hnone row hrow _ hrel)
    (hnone row hrow _ hdst) ((hdesc row hrow).1 _ hclosing) hne

/-- **Fusing a closing join with the hop below it keeps the rows**, unless it silences the filters
between the two. -/
theorem sameRows_intersect {input : PhysicalOperator}
    (hpeel : peelFilters input = (filters, .expand mid hop)) (hpat : mid.isPattern)
    (hoist : hoists E.literalText filters mid hop c)
    (hapart : (multiwayJoin input c).apart E.literalText) :
    Except.SameRows (E.eval (rebuild (.expandIntersect mid (hop.intersect c)) filters))
      (E.eval (.multiwayJoin input c)) ↔ ¬E.Silences input c := by
  have hinput : rebuild (.expand mid hop) filters = input := by
    have := rebuild_peelFilters input
    rwa [hpeel] at this
  simp only [apart, hpeel, hoist, Bool.not_true, Bool.false_or, Bool.and_eq_true,
    decide_eq_true_eq] at hapart
  obtain ⟨-, ⟨⟨hrel, hdst⟩, hne⟩, hv⟩ := hapart
  have hfuse := hoist
  simp only [hoists, Bool.and_eq_true, Bool.not_eq_true'] at hfuse
  obtain ⟨⟨hcdir, hf⟩, hfuse⟩ := hfuse
  have hplain : hop.isPlain := by
    simp only [fusible, Bool.and_eq_true] at hfuse
    exact hfuse.1.1.2
  rw [eval]
  rcases hmid : E.eval mid with err | inner
  · -- Both fail below the hop.
    have hexpand : E.eval (.expand mid hop) = .error err := by
      rw [eval_expand_plain hplain, hmid]
      rfl
    have hnode : E.eval (.expandIntersect mid (hop.intersect c)) = .error err := by
      rw [eval, hmid]
      rfl
    have herr : E.eval input = .error err := hinput ▸ eval_rebuild_error hexpand
    rw [eval_rebuild_error hnode, herr]
    refine iff_of_true trivial ?_
    rintro ⟨filters', mid', hop', rows, hpeel', -, hrows, -⟩
    cases hpeel.symm.trans hpeel'
    rw [hexpand] at hrows
    cases hrows
  · have hexpand : E.eval (.expand mid hop) = .ok (inner.flatMap (E.expandFixed hop)) := by
      rw [eval_expand_plain hplain, hmid]
      rfl
    generalize inner.flatMap (E.expandFixed hop) = rows at hexpand
    obtain ⟨rows', hnode, hperm⟩ := eval_expandIntersect_perm hpat hfuse hcdir hrel hdst hne hexpand
    -- The filters above the fused operator, and those below the join.
    have habove := (sameRows_runFilters hnode filters).trans
      (Except.filterE_sameRows (E.runFilters filters) hperm)
    have hbelow : Except.SameRows (do return (← E.eval input).flatMap (E.multiwayJoinRow c))
        (do return (← rows.filterE (E.runFilters filters)).flatMap (E.multiwayJoinRow c)) := by
      rw [← hinput]
      exact (sameRows_runFilters hexpand filters).bind fun _ _ _ _ hkept => hkept.flatMap_right _
    have hexact := Except.sameRows_filterE_flatMap (l := rows)
      (runFilters_multiwayJoinRow (E := E) hf (hinput ▸ hv))
    have hsilences : E.Silences input c ↔ (∃ row ∈ rows, E.Raises filters row) ∧
        ∀ row ∈ rows, E.Raises filters row → E.multiwayJoinRow c row = [] := by
      constructor
      · rintro ⟨filters', mid', hop', rows'', hpeel', -, hrows, hdrop⟩
        cases hpeel.symm.trans hpeel'
        rw [hexpand] at hrows
        cases hrows
        exact hdrop
      · exact fun hdrop => ⟨filters, mid, hop, rows, hpeel, hoist, hexpand, hdrop⟩
    rw [hsilences]
    refine Iff.trans ⟨fun h => ?_, fun h => ?_⟩ hexact
    · exact habove.symm.trans (h.trans hbelow)
    · exact habove.trans (h.trans hbelow.symm)

end Hoisting

/-! ## Plans -/

section Plans

variable {literal : Literal → String} {op : PhysicalOperator}

attribute [local simp] rewriteExpandIntersect

omit E in
/-- What filters do not change. -/
theorem rebuild_invariant {β : Type} {F : PhysicalOperator → β}
    (hF : ∀ input e, F (.filter input e) = F input) (node : PhysicalOperator)
    (filters : List FilterExpr) : F (rebuild node filters) = F node := by
  induction filters with
  | nil => rfl
  | cons e filters ih => exact (hF _ e).trans ih

omit E in
/-- What fusing does to a closing join: nothing, or it fuses it with a hop below a run of
filters. -/
theorem fuse_cases (literal : Literal → String) (input : PhysicalOperator) (c : Closing) :
    fuse literal input c = .multiwayJoin input c ∨
      ∃ filters mid hop, peelFilters input = (filters, .expand mid hop) ∧
        hoists literal filters mid hop c ∧
        fuse literal input c = rebuild (.expandIntersect mid (hop.intersect c)) filters := by
  rcases hpeel : peelFilters input with ⟨filters, cur⟩
  unfold fuse
  rw [hpeel]
  dsimp only
  split
  · rename_i hall
    split
    · rename_i mid hop
      split
      · rename_i hfuse
        refine .inr ⟨filters, mid, hop, rfl, ?_, rfl⟩
        rw [hoists, hall, hfuse]
        rfl
      · exact .inl rfl
    · exact .inl rfl
  · exact .inl rfl

omit E in
/-- Fusing does not change what is the same for the fused operator as for the two hops. -/
theorem fuse_invariant {β : Type} {F : PhysicalOperator → β}
    (hfilter : ∀ input e, F (.filter input e) = F input)
    (hjoin : ∀ {input input' c}, F input = F input' →
      F (.multiwayJoin input c) = F (.multiwayJoin input' c))
    (hfused : ∀ mid hop c,
      F (.expandIntersect mid (hop.intersect c)) = F (.multiwayJoin (.expand mid hop) c))
    (input : PhysicalOperator) (c : Closing) : F (fuse literal input c) =
      F (.multiwayJoin input c) := by
  rcases fuse_cases literal input c with h | ⟨filters, mid, hop, hpeel, -, h⟩
  · rw [h]
  · have hinput := rebuild_peelFilters input
    rw [hpeel] at hinput
    rw [h, rebuild_invariant hfilter, hfused, ← hinput]
    exact hjoin (rebuild_invariant hfilter _ _).symm

omit E in
lemma boundVars_rewriteExpandIntersect (op : PhysicalOperator) :
    (rewriteExpandIntersect literal op).boundVars literal = op.boundVars literal := by
  induction op with
  | multiwayJoin input c ih =>
    rw [rewriteExpandIntersect, fuse_invariant (F := boundVars literal) (fun _ _ => rfl)
      (congrArg _) fun _ _ _ => rfl, boundVars, ih, boundVars]
  | hashJoin left right ihl ihr => simp only [rewriteExpandIntersect, boundVars, ihl, ihr]
  | _ => simp only [rewriteExpandIntersect, boundVars, *]

omit E in
lemma peelFilters_rebuild {node : PhysicalOperator} (h : peelFilters node = ([], node))
    (filters : List FilterExpr) : peelFilters (rebuild node filters) = (filters, node) := by
  induction filters with
  | nil => exact h
  | cons e filters ih =>
    show (e :: (peelFilters (rebuild node filters)).1, (peelFilters (rebuild node filters)).2) = _
    rw [ih]

omit E in
/-- A run of filters over a hop is rewritten below the hop. -/
theorem peelFilters_rewriteExpandIntersect {filters : List FilterExpr} {mid : PhysicalOperator}
    {hop : Hop}
    (h : peelFilters (rewriteExpandIntersect literal op) = (filters, .expand mid hop)) :
    ∃ mid', peelFilters op = (filters, .expand mid' hop) ∧
      mid = rewriteExpandIntersect literal mid' := by
  induction op generalizing filters with
  | expand input hop' ih =>
    cases h
    exact ⟨input, rfl, rfl⟩
  | filter input e ih =>
    rcases hpeel : peelFilters (rewriteExpandIntersect literal input) with ⟨filters', cur⟩
    rw [rewriteExpandIntersect, peelFilters, hpeel] at h
    cases h
    obtain ⟨mid', hmid', rfl⟩ := ih hpeel
    exact ⟨mid', by rw [peelFilters, hmid'], rfl⟩
  | multiwayJoin input c ih =>
    rw [rewriteExpandIntersect] at h
    rcases fuse_cases literal (rewriteExpandIntersect literal input) c with
      heq | ⟨filters', mid', hop', -, -, heq⟩
    · rw [heq] at h
      cases h
    · rw [heq, peelFilters_rebuild rfl] at h
      cases h
  | _ => cases h

omit E in
lemma planHasWrite_rewriteExpandIntersect (op : PhysicalOperator) :
    (rewriteExpandIntersect literal op).planHasWrite = op.planHasWrite := by
  induction op with
  | multiwayJoin input c ih =>
    rw [rewriteExpandIntersect, fuse_invariant (F := planHasWrite) (fun _ _ => rfl) id
      fun _ _ _ => rfl, planHasWrite, ih, planHasWrite]
  | hashJoin left right ihl ihr => simp only [rewriteExpandIntersect, planHasWrite, ihl, ihr]
  | _ => simp only [rewriteExpandIntersect, planHasWrite, *]

omit E in
lemma not_optionalMatch_rewriteExpandIntersect (h : op.isPattern) (input : PhysicalOperator)
    (nullVars : List String) (predicate : Option FilterExpr) :
    rewriteExpandIntersect literal op ≠ .optionalMatch input nullVars predicate := by
  intro heq
  cases op with
  | multiwayJoin input' c =>
    rw [rewriteExpandIntersect] at heq
    rcases fuse_cases literal (rewriteExpandIntersect literal input') c with
      h | ⟨filters, mid, hop, -, -, h⟩
    · rw [h] at heq
      cases heq
    · rw [h] at heq
      cases filters <;> cases heq
  | optionalMatch input' _ _ => cases h
  | _ => cases heq

omit E in
lemma hoists_rewriteExpandIntersect (filters : List FilterExpr) (mid : PhysicalOperator)
    (hop : Hop) (c : Closing) :
    hoists literal filters (rewriteExpandIntersect literal mid) hop c =
      hoists literal filters mid hop c := by
  rw [hoists, hoists, fusible, fusible, boundVars_rewriteExpandIntersect]

lemma joinRow_perm (common : Finset String) {build build' : List PathMap}
    (h : build.Perm build') (row : PathMap) :
    (E.joinRow common build row).Perm (E.joinRow common build' row) :=
  (h.filter _).map _

variable {mid : PhysicalOperator} {hop : Hop} {filters : List FilterExpr}

/-- What is assumed of a plan holds of the plan below a run of filters and a hop. -/
theorem below_rebuild (hpat : (rebuild (.expand mid hop) filters).isPattern)
    (hapart : (rebuild (.expand mid hop) filters).apart E.literalText)
    (hq : E.Quiet (rebuild (.expand mid hop) filters)) :
    mid.isPattern ∧ mid.apart E.literalText ∧ E.Quiet mid := by
  induction filters with
  | nil => exact ⟨hpat, hapart, hq⟩
  | cons e filters ih => exact ih hpat hapart hq

def Rewrites (E : Engine) (op : PhysicalOperator) : Prop :=
  op.isPattern → op.apart E.literalText → E.Quiet op →
    Except.SameRows (E.eval (rewriteExpandIntersect E.literalText op)) (E.eval op)

lemma rewrites_multiwayJoin {input : PhysicalOperator} {c : Closing} (hinput : E.Rewrites input)
    (hmid : ∀ filters mid hop, peelFilters input = (filters, .expand mid hop) → E.Rewrites mid) :
    E.Rewrites (.multiwayJoin input c) := by
  intro hpat hapart hq
  have hbelow : input.apart E.literalText := by
    simp only [apart, Bool.and_eq_true] at hapart
    exact hapart.1.1
  rw [rewriteExpandIntersect]
  rcases fuse_cases E.literalText (rewriteExpandIntersect E.literalText input) c with
    heq | ⟨filters, mid', hop, hpeel', hoist, heq⟩
  · rw [heq, eval, eval]
    apply (hinput hpat hbelow hq.1).bind
    intro rows rows' _ _ hperm
    exact hperm.flatMap_right _
  · obtain ⟨mid, hpeel, rfl⟩ := peelFilters_rewriteExpandIntersect hpeel'
    rw [hoists_rewriteExpandIntersect] at hoist
    have hrebuild : rebuild (.expand mid hop) filters = input := by
      have := rebuild_peelFilters input
      rwa [hpeel] at this
    have hquiet := hq.1
    rw [← hrebuild] at hpat hbelow hquiet
    obtain ⟨hpat', hapart', hq'⟩ := below_rebuild hpat hbelow hquiet
    rw [heq]
    -- First the rows of `mid`, then the fused pair over them.
    refine (sameRows_rebuild ?_ filters).trans
      ((sameRows_intersect hpeel hpat' hoist hapart).mpr hq.2)
    rw [eval, eval]
    apply (hmid filters mid hop hpeel hpat' hapart' hq').bind
    intro rows rows' _ _ hperm
    exact hperm.flatMap_right _

/-- **Fusing keeps the rows** of a quiet plan whose names are apart, up to order. -/
theorem rewrites (op : PhysicalOperator) : E.Rewrites op := by
  -- The induction goes through the hop below a run of filters, which is not an immediate subplan.
  suffices h : E.Rewrites op ∧ ∀ filters mid hop, peelFilters op = (filters, .expand mid hop) →
      E.Rewrites mid from h.1
  induction op with
  | filter input e ih =>
    constructor
    · intro hpat hapart hq
      rw [rewriteExpandIntersect, eval, eval]
      exact sameRows_filter (ih.1 hpat hapart hq) e
    · intro filters mid hop hpeel
      obtain ⟨-, hcur⟩ := Prod.mk.inj hpeel
      exact ih.2 (peelFilters input).1 mid hop (Prod.ext rfl hcur)
  | expand input hop ih =>
    constructor
    · intro hpat hapart hq
      rw [rewriteExpandIntersect, eval, eval]
      apply (ih.1 hpat hapart hq).bind
      intro rows rows' _ _ hperm
      exact Except.flatMapE_sameRows _ hperm
    · intro filters mid hop' hpeel
      cases hpeel
      exact ih.1
  | multiwayJoin input c ih =>
    exact ⟨rewrites_multiwayJoin ih.1 ih.2, fun _ _ _ hpeel => by cases hpeel⟩
  | hashJoin left right ihl ihr =>
    refine ⟨fun hpat hapart hq => ?_, fun _ _ _ hpeel => by cases hpeel⟩
    simp only [isPattern, Bool.and_eq_true] at hpat
    simp only [apart, Bool.and_eq_true] at hapart
    have hwrite : (rewriteExpandIntersect E.literalText left).planHasWrite = false := by
      rw [planHasWrite_rewriteExpandIntersect, planHasWrite_of_isPattern hpat.1]
    rw [rewriteExpandIntersect, eval_hashJoin hpat.1 hpat.2, eval_hashJoin_of_inner hwrite
      (not_optionalMatch_rewriteExpandIntersect hpat.1)
      (not_optionalMatch_rewriteExpandIntersect hpat.2), commonVars,
      boundVars_rewriteExpandIntersect, boundVars_rewriteExpandIntersect]
    apply (ihr.1 hpat.2 hapart.2 hq.2).bind
    intro build build' _ _ hbuild
    apply (ihl.1 hpat.1 hapart.1 hq.1).bind
    intro probe probe' _ _ hprobe
    exact hprobe.flatMap fun row _ => joinRow_perm _ hbuild row
  | singleRow | labelScan _ _ | nodeByIdSeek _ _ _ | nodeIndexScan _ _ _ _ | nodeRangeScan _ _ =>
    exact ⟨fun _ _ _ => Except.SameRows.refl _, fun _ _ _ hpeel => by cases hpeel⟩
  | _ => exact ⟨fun hpat => (by cases hpat), fun _ _ _ hpeel => by cases hpeel⟩

/-- A plan that succeeds silences nothing. -/
theorem quiet_of_eval (hpat : op.isPattern) {rows : List PathMap} (h : E.eval op = .ok rows) :
    E.Quiet op := by
  induction op generalizing rows with
  | filter input e ih | expand input hop ih =>
    rw [eval] at h
    obtain ⟨inner, hinner, -⟩ := bind_eq_ok h
    exact ih hpat hinner
  | multiwayJoin input c ih =>
    rw [eval] at h
    obtain ⟨inner, hinner, -⟩ := bind_eq_ok h
    refine ⟨ih hpat hinner, ?_⟩
    rintro ⟨filters, mid, hop, rows', hpeel, -, hrows', ⟨row, hrow, err, herr⟩, -⟩
    have hinput := rebuild_peelFilters input
    rw [hpeel] at hinput
    have hsame := sameRows_runFilters hrows' filters
    rw [hinput, hinner] at hsame
    rcases hkept : rows'.filterE (E.runFilters filters) with err' | kept
    · rw [hkept] at hsame
      cases hsame
    · obtain ⟨keep, hkeep⟩ := (List.filterE_eq_ok.mp hkept).1 row hrow
      rw [herr] at hkeep
      cases hkeep
  | hashJoin left right ihl ihr =>
    simp only [isPattern, Bool.and_eq_true] at hpat
    rw [eval_hashJoin hpat.1 hpat.2] at h
    obtain ⟨build, hbuild, h⟩ := bind_eq_ok h
    obtain ⟨probe, hprobe, -⟩ := bind_eq_ok h
    exact ⟨ihl hpat.1 hprobe, ihr hpat.2 hbuild⟩
  | _ => trivial

end Plans

end Engine

/-! ## Patterns -/

/-- The plan of patterns where every hop binds a relationship variable of its own, which no filter
that may be hoisted above the hop reads. -/
def PhysicalOperator.wellFormed (literal : Literal → String) : PhysicalOperator → Bool
  | .singleRow | .labelScan .. | .nodeByIdSeek .. | .nodeIndexScan .. | .nodeRangeScan .. => true
  | .filter input _ => input.wellFormed literal
  | .expand input hop => input.wellFormed literal &&
    hop.relVar ∉ input.names literal ∪ input.hoistedVars && hop.relVar ≠ hop.dstVar &&
    (hop.dstVar ∉ input.names literal || hop.dstVar ∈ input.boundVars literal)
  | .hashJoin left right => left.wellFormed literal && right.wellFormed literal
  | _ => false

section WellFormed

variable {literal : Literal → String} {op : PhysicalOperator}

lemma isPattern_of_wellFormed (h : op.wellFormed literal) : op.isPattern := by
  induction op with
  | filter input e ih => exact ih h
  | expand input hop ih =>
    simp only [wellFormed, Bool.and_eq_true] at h
    exact ih h.1.1.1
  | hashJoin left right ihl ihr =>
    simp only [wellFormed, Bool.and_eq_true] at h
    simp only [isPattern, Bool.and_eq_true]
    exact ⟨ihl h.1, ihr h.2⟩
  | singleRow | labelScan _ _ | nodeByIdSeek _ _ _ | nodeIndexScan _ _ _ _ | nodeRangeScan _ _ =>
    rfl
  | _ => cases h

/-- The names of a hop that closes nothing are new. -/
theorem new_of_wellFormed {filters : List FilterExpr} {mid : PhysicalOperator} {hop : Hop}
    (h : op.wellFormed literal)
    (hpeel : peelFilters (rewriteClosingExpands literal op) = (filters, .expand mid hop))
    (hplain : hop.isPlain) :
    (hop.relVar ∉ mid.names literal ∧ hop.dstVar ∉ mid.names literal) ∧
      hop.relVar ≠ hop.dstVar := by
  induction op generalizing filters with
  | filter input e ih =>
    obtain ⟨-, hcur⟩ := Prod.mk.inj hpeel
    exact ih h (Prod.ext rfl hcur)
  | expand input hop' ih =>
    rw [rewriteClosingExpands] at hpeel
    split at hpeel
    next => cases hpeel
    next hopen =>
      cases hpeel
      simp only [wellFormed, Bool.and_eq_true, Bool.or_eq_true, decide_eq_true_eq,
        Finset.mem_union, not_or] at h
      obtain ⟨⟨⟨-, hrel, -⟩, hne⟩, hdst⟩ := h
      rw [Engine.names_rewriteClosingExpands]
      rw [Engine.boundVars_rewriteClosingExpands] at hopen
      exact ⟨⟨hrel, hdst.resolve_right fun hbound => hopen ⟨hplain, hbound⟩⟩, hne⟩
  | _ => cases hpeel

/-- **The names of a well-formed plan are apart** once its closing hops are joins. -/
theorem apart_of_wellFormed (h : op.wellFormed literal) :
    (rewriteClosingExpands literal op).apart literal := by
  induction op with
  | filter input e ih => exact ih h
  | expand input hop ih =>
    have hwf := h
    simp only [wellFormed, Bool.and_eq_true, decide_eq_true_eq, Finset.mem_union, not_or] at h
    rw [rewriteClosingExpands]
    split
    · simp only [apart, Bool.and_eq_true, decide_eq_true_eq]
      refine ⟨⟨ih h.1.1.1, h.1.2⟩, ?_⟩
      split
      · rename_i filters mid hop' hpeel
        by_cases hoist : hoists literal filters mid hop' hop.closing
        · have hplain : hop'.isPlain := by
            simp only [hoists, fusible, Bool.and_eq_true] at hoist
            exact hoist.2.1.1.2
          simp only [Bool.or_eq_true, Bool.and_eq_true, decide_eq_true_eq,
            Engine.hoistedVars_rewriteClosingExpands]
          exact .inr ⟨new_of_wellFormed h.1.1.1 hpeel hplain, h.1.1.2.2⟩
        · simp [hoist]
      · rfl
    · exact ih h.1.1.1
  | hashJoin left right ihl ihr =>
    simp only [wellFormed, Bool.and_eq_true] at h
    simp only [rewriteClosingExpands, apart, ihl h.1, ihr h.2, Bool.and_self]
  | singleRow | labelScan _ _ | nodeByIdSeek _ _ _ | nodeIndexScan _ _ _ _ | nodeRangeScan _ _ =>
    rfl
  | _ => cases h

end WellFormed

def addFilters {α : Type} (f : α → FilterExpr) (plan : PhysicalOperator) (l : List α) :
    PhysicalOperator :=
  l.foldl (fun plan a => .filter plan (f a)) plan

section Patterns

variable {literal : Literal → String} {α : Type} (f : α → FilterExpr)

/-- What a filter does not change. -/
theorem addFilters_invariant {β : Type} {F : PhysicalOperator → β}
    (hF : ∀ input e, F (.filter input e) = F input) (l : List α) (plan : PhysicalOperator) :
    F (addFilters f plan l) = F plan := by
  induction l generalizing plan with
  | nil => rfl
  | cons a l ih => exact (ih (.filter plan (f a))).trans (hF plan (f a))

lemma hoistedVars_addFilters {vars : Finset String} {l : List α}
    (h : ∀ a ∈ l, filterVars (f a) ⊆ vars) {plan : PhysicalOperator}
    (hplan : plan.hoistedVars ⊆ vars) : (addFilters f plan l).hoistedVars ⊆ vars := by
  induction l generalizing plan with
  | nil => exact hplan
  | cons a l ih =>
    apply ih (fun a' ha' => h a' (mem_cons_of_mem a ha'))
    rw [hoistedVars]
    split
    · exact Finset.union_subset (h a mem_cons_self) hplan
    · exact hplan

end Patterns

/-- The variables the values of a property map name. -/
def valueVars (properties : Option (List (String × Expr))) : Finset String :=
  ((properties.getD []).map fun kv => operandVars kv.2).foldr (· ∪ ·) ∅

/-- The relationship variables of a pattern, from segment `segIdx` on. -/
def segmentRelVars (matchScope : ℕ) : ℕ → List (RelationshipPattern × NodePattern) → List String
  | _, [] => []
  | segIdx, (rel, _) :: rels =>
    segmentRelVar matchScope segIdx rel :: segmentRelVars matchScope (segIdx + 1) rels

/-- The node variables of a pattern, from segment `segIdx` on. -/
def segmentTargetVars (matchScope : ℕ) : ℕ → List (RelationshipPattern × NodePattern) → List String
  | _, [] => []
  | segIdx, (_, node) :: rels =>
    segmentTargetVar matchScope segIdx node :: segmentTargetVars matchScope (segIdx + 1) rels

lemma operandVars_subset_valueVars {properties : Option (List (String × Expr))}
    {kv : String × Expr} (h : kv ∈ properties.getD []) :
    operandVars kv.2 ⊆ valueVars properties := by
  unfold valueVars
  generalize properties.getD [] = l at h
  induction l with
  | nil => cases h
  | cons a l ih =>
    rw [map_cons, foldr_cons]
    rcases mem_cons.mp h with rfl | h
    · exact Finset.subset_union_left
    · exact (ih h).trans Finset.subset_union_right

/-- The plan of a node's labels and property map. -/
theorem constrainNode_eq (plan : PhysicalOperator) (v : String) (labels : List String)
    (properties : Option (List (String × Expr))) :
    constrainNode plan v labels properties =
      addFilters (fun kv : String × Expr => .eq (.prop v kv.1) kv.2)
        (addFilters (.hasLabel v) plan labels) (properties.getD []) := rfl

lemma hoistedVars_constrainNode {plan : PhysicalOperator} {v : String} {labels : List String}
    {properties : Option (List (String × Expr))} {vars : Finset String}
    (hplan : plan.hoistedVars ⊆ vars) (hv : v ∈ vars) (hvalues : valueVars properties ⊆ vars) :
    (constrainNode plan v labels properties).hoistedVars ⊆ vars := by
  rw [constrainNode_eq]
  apply hoistedVars_addFilters
  · intro kv hkv
    apply Finset.union_subset (Finset.singleton_subset_iff.mpr hv)
    exact (operandVars_subset_valueVars hkv).trans hvalues
  · apply hoistedVars_addFilters
    · intro label _
      exact Finset.singleton_subset_iff.mpr hv
    · exact hplan

lemma filterVars_relPropertyFilter (relVar : String) (isVarLength : Bool) (kv : String × Expr) :
    filterVars (relPropertyFilter relVar isVarLength kv) ⊆ insert relVar (operandVars kv.2) := by
  unfold relPropertyFilter
  split
  · exact Finset.empty_subset _
  · exact Finset.Subset.rfl

def planSegment (hop : Hop) (rel : RelationshipPattern) (node : NodePattern)
    (plan : PhysicalOperator) : PhysicalOperator :=
  constrainNode (addFilters (relPropertyFilter hop.relVar hop.isVarLength) (.expand plan hop)
    (rel.properties.getD [])) hop.dstVar node.labels node.properties

section Segment

variable {literal : Literal → String} {hop : Hop} {rel : RelationshipPattern} {node : NodePattern}
  {plan : PhysicalOperator}

lemma constrainNode_invariant {β : Type} {F : PhysicalOperator → β}
    (hF : ∀ input e, F (.filter input e) = F input) (plan : PhysicalOperator) (v : String)
    (labels : List String) (properties : Option (List (String × Expr))) :
    F (constrainNode plan v labels properties) = F plan := by
  rw [constrainNode_eq, addFilters_invariant _ hF, addFilters_invariant _ hF]

lemma planSegment_invariant {β : Type} {F : PhysicalOperator → β}
    (hF : ∀ input e, F (.filter input e) = F input) :
    F (planSegment hop rel node plan) = F (.expand plan hop) := by
  rw [planSegment, constrainNode_invariant hF, addFilters_invariant _ hF]

lemma hoistedVars_planSegment : (planSegment hop rel node plan).hoistedVars ⊆
    insert hop.dstVar
      (insert hop.relVar (valueVars rel.properties ∪ valueVars node.properties)) := by
  apply hoistedVars_constrainNode
  · apply hoistedVars_addFilters
    · intro kv hkv
      refine (filterVars_relPropertyFilter _ _ kv).trans ?_
      refine Finset.Subset.trans ?_ (Finset.subset_insert _ _)
      apply Finset.insert_subset_insert
      exact (operandVars_subset_valueVars hkv).trans Finset.subset_union_left
    · exact Finset.empty_subset _
  · exact Finset.mem_insert_self _ _
  · intro v hv
    simp only [Finset.mem_insert, Finset.mem_union]
    exact .inr (.inr (.inr hv))

end Segment

/-- The segments of a pattern whose relationship variables are new, distinct and read by no property
map. -/
theorem wellFormed_planSegments {literal : Literal → String} (matchScope : ℕ)
    {rels : List (RelationshipPattern × NodePattern)} {segIdx : ℕ} {plan : PhysicalOperator}
    (prev : String) (prior : List String) (hwf : plan.wellFormed literal)
    (hnames : plan.names literal = plan.boundVars literal)
    (hnodup : (segmentRelVars matchScope segIdx rels).Nodup)
    (hfresh : ∀ r ∈ segmentRelVars matchScope segIdx rels,
      r ∉ plan.boundVars literal ∧ r ∉ plan.hoistedVars ∧
        r ∉ segmentTargetVars matchScope segIdx rels ∧
        ∀ segment ∈ rels, r ∉ valueVars segment.1.properties ∧ r ∉ valueVars segment.2.properties) :
    (planSegments matchScope false segIdx rels plan prev prior).1.wellFormed literal := by
  induction rels generalizing segIdx plan prev prior with
  | nil => exact hwf
  | cons segment rels ih =>
    obtain ⟨rel, node⟩ := segment
    let hop := segmentHop matchScope segIdx false prev prior rel node
    obtain ⟨hnew, hnodup⟩ := nodup_cons.mp hnodup
    obtain ⟨hbound, hhoisted, htarget, -⟩ := hfresh _ mem_cons_self
    have hnodst : hop.relVar ≠ hop.dstVar := fun heq => htarget (mem_cons.mpr (.inl heq))
    have hexpand : (PhysicalOperator.expand plan hop).wellFormed literal := by
      simp only [wellFormed, Bool.and_eq_true, Bool.or_eq_true, decide_eq_true_eq, hnames,
        Finset.mem_union, not_or]
      exact ⟨⟨⟨hwf, hbound, hhoisted⟩, hnodst⟩, or_comm.mp (Classical.em _)⟩
    have hbinds : (planSegment hop rel node plan).boundVars literal =
        insert hop.dstVar (insert hop.relVar (plan.boundVars literal)) :=
      planSegment_invariant (F := boundVars literal) fun _ _ => rfl
    show (planSegments matchScope false (segIdx + 1) rels (planSegment hop rel node plan) hop.dstVar
      (prior ++ [hop.relVar])).1.wellFormed literal
    refine ih hop.dstVar (prior ++ [hop.relVar]) ?_ ?_ hnodup ?_
    · rw [planSegment_invariant (F := wellFormed literal) fun _ _ => rfl]
      exact hexpand
    · rw [planSegment_invariant (F := PhysicalOperator.names literal) fun _ _ => rfl, hbinds]
      have hpath : (PhysicalOperator.expand plan hop).pathNames = plan.pathNames := rfl
      rw [names, hpath, boundVars, Finset.insert_union, Finset.insert_union]
      rw [names] at hnames
      rw [hnames]
    · intro r hr
      obtain ⟨hrbound, -, hrtarget, hrvalues⟩ := hfresh r (mem_cons_of_mem _ hr)
      have hrdst : r ≠ hop.dstVar := fun heq => hrtarget (heq ▸ mem_cons_self)
      have hrrel : r ≠ hop.relVar := by
        rintro rfl
        exact hnew hr
      obtain ⟨hrrelvalues, hrnodevalues⟩ := hrvalues _ mem_cons_self
      refine ⟨?_, ?_, fun h => hrtarget (mem_cons_of_mem _ h),
        fun segment h => hrvalues segment (mem_cons_of_mem _ h)⟩
      · rw [hbinds, Finset.mem_insert, Finset.mem_insert]
        exact fun h => h.elim hrdst fun h => h.elim hrrel hrbound
      · intro h
        have := hoistedVars_planSegment h
        rw [Finset.mem_insert, Finset.mem_insert, Finset.mem_union] at this
        exact this.elim hrdst fun h => h.elim hrrel fun h => h.elim hrrelvalues hrnodevalues

/-- The relationship variables of a pattern are distinct, none of them is a node variable, and no
property map reads one. -/
def Pattern.distinct (matchScope : ℕ) (pattern : Pattern) : Bool :=
  let relVars := segmentRelVars matchScope 0 pattern.rels
  let nodeVars := pattern.node.var.getD ("_seed_" ++ toString matchScope) ::
    segmentTargetVars matchScope 0 pattern.rels
  decide relVars.Nodup && relVars.all fun r => r ∉ nodeVars &&
    r ∉ valueVars pattern.node.properties && pattern.rels.all fun segment =>
      r ∉ valueVars segment.1.properties && r ∉ valueVars segment.2.properties

/-- **The plan of a pattern with distinct names is well-formed.** -/
theorem wellFormed_planMatch {literal : Literal → String} (matchScope : ℕ) {pattern : Pattern}
    (hpath : pattern.pathVariable = none) (h : pattern.distinct matchScope) :
    (planMatch matchScope pattern).wellFormed literal := by
  simp only [Pattern.distinct, Bool.and_eq_true, decide_eq_true_eq, all_eq_true,
    mem_cons, not_or] at h
  simp only [planMatch, hpath, Option.isSome_none]
  apply wellFormed_planSegments
  · rw [constrainNode_invariant (F := wellFormed literal) fun _ _ => rfl]
    rfl
  · rw [constrainNode_invariant (F := PhysicalOperator.names literal) fun _ _ => rfl,
      constrainNode_invariant (F := boundVars literal) fun _ _ => rfl]
    exact Finset.union_empty _
  · exact h.1
  · intro r hr
    obtain ⟨⟨⟨hseed, htarget⟩, hvalues⟩, hsegments⟩ := h.2 r hr
    refine ⟨?_, ?_, htarget, hsegments⟩
    · rw [constrainNode_invariant (F := boundVars literal) fun _ _ => rfl]
      exact fun hmem => hseed (Finset.mem_singleton.mp hmem)
    · intro hmem
      have hread : r ∈ insert (pattern.node.var.getD ("_seed_" ++ toString matchScope))
          (valueVars pattern.node.properties) :=
        hoistedVars_constrainNode (Finset.empty_subset _) (Finset.mem_insert_self _ _)
          (Finset.subset_insert _ _) hmem
      exact (Finset.mem_insert.mp hread).elim hseed hvalues

/-! ## Patterns that bind a path -/

section Paths

variable {R : PhysicalOperator → PhysicalOperator}

lemma rewrite_addFilters (hfilter : ∀ input e, R (.filter input e) = .filter (R input) e)
    {α : Type} (f : α → FilterExpr) (l : List α) (plan : PhysicalOperator) :
    R (addFilters f plan l) = addFilters f (R plan) l := by
  induction l generalizing plan with
  | nil => rfl
  | cons a l ih =>
    show R (addFilters f (.filter plan (f a)) l) = addFilters f (.filter (R plan) (f a)) l
    rw [ih, hfilter]

/-- A rewriting that leaves filters and path-binding hops in place leaves the segments of a pattern
that binds a path. -/
theorem rewrite_planSegments (hfilter : ∀ input e, R (.filter input e) = .filter (R input) e)
    (hexpand : ∀ input hop, hop.needsPath → R (.expand input hop) = .expand (R input) hop)
    (matchScope : ℕ) {rels : List (RelationshipPattern × NodePattern)} {segIdx : ℕ}
    {plan : PhysicalOperator} (prev : String) (prior : List String) (hplan : R plan = plan) :
    R (planSegments matchScope true segIdx rels plan prev prior).1 =
      (planSegments matchScope true segIdx rels plan prev prior).1 := by
  induction rels generalizing segIdx plan prev prior with
  | nil => exact hplan
  | cons segment rels ih =>
    obtain ⟨rel, node⟩ := segment
    let hop := segmentHop matchScope segIdx true prev prior rel node
    apply ih hop.dstVar (prior ++ [hop.relVar])
    show R (planSegment hop rel node plan) = planSegment hop rel node plan
    rw [planSegment, constrainNode_eq, rewrite_addFilters hfilter, rewrite_addFilters hfilter,
      rewrite_addFilters hfilter, hexpand plan hop rfl, hplan]

lemma rewrite_planMatch (hfilter : ∀ input e, R (.filter input e) = .filter (R input) e)
    (hexpand : ∀ input hop, hop.needsPath → R (.expand input hop) = .expand (R input) hop)
    (hproject : ∀ input items isBarrier,
      R (.project input items isBarrier) = .project (R input) items isBarrier)
    (hscan : ∀ v label, R (.labelScan v label) = .labelScan v label)
    (matchScope : ℕ) {pattern : Pattern} (hpath : pattern.pathVariable.isSome) :
    R (planMatch matchScope pattern) = planMatch matchScope pattern := by
  obtain ⟨pv, hpv⟩ := Option.isSome_iff_exists.mp hpath
  simp only [planMatch, hpv, Option.isSome_some]
  rw [hproject, rewrite_planSegments hfilter hexpand]
  rw [constrainNode_eq, rewrite_addFilters hfilter, rewrite_addFilters hfilter, hscan]

end Paths

lemma rewriteClosingHops_of_path (literal : Literal → String) (matchScope : ℕ)
    {pattern : Pattern} (hpath : pattern.pathVariable.isSome) :
    rewriteExpandIntersect literal (rewriteClosingExpands literal (planMatch matchScope pattern)) =
      planMatch matchScope pattern := by
  have hclosing : rewriteClosingExpands literal (planMatch matchScope pattern) =
      planMatch matchScope pattern := by
    apply rewrite_planMatch _ _ _ _ matchScope hpath
    · exact fun _ _ => rfl
    · intro input hop hneeds
      rw [rewriteClosingExpands, if_neg]
      simp [Hop.isPlain, hneeds]
    · exact fun _ _ _ => rfl
    · exact fun _ _ => rfl
  rw [hclosing]
  apply rewrite_planMatch _ _ _ _ matchScope hpath
  · exact fun _ _ => rfl
  · exact fun _ _ _ => rfl
  · exact fun _ _ _ => rfl
  · exact fun _ _ => rfl

/-! ## Both rewritings -/

/-- Both rewritings. -/
def rewriteClosingHops (literal : Literal → String) (plan : PhysicalOperator) : PhysicalOperator :=
  rewriteExpandIntersect literal (rewriteClosingExpands literal plan)

namespace Engine

variable {E : Engine} {plan : PhysicalOperator}

/-- The rewritten plan of a quiet one. -/
theorem sameRows_rewriteClosingHops (hpat : plan.isPattern)
    (hapart : (rewriteClosingExpands E.literalText plan).apart E.literalText)
    (hq : E.Quiet (rewriteClosingExpands E.literalText plan)) :
    Except.SameRows (E.eval (rewriteClosingHops E.literalText plan)) (E.eval plan) := by
  rw [← eval_rewriteClosingExpands hpat hapart]
  exact rewrites _ (isPattern_rewriteClosingExpands hpat) hapart hq

lemma quiet_rewriteClosingExpands (hpat : plan.isPattern)
    (hapart : (rewriteClosingExpands E.literalText plan).apart E.literalText)
    {rows : List PathMap} (h : E.eval plan = .ok rows) :
    E.Quiet (rewriteClosingExpands E.literalText plan) :=
  quiet_of_eval (isPattern_rewriteClosingExpands hpat)
    ((eval_rewriteClosingExpands hpat hapart).trans h)

def rowCount (E : Engine) (plan : PhysicalOperator) : Except Error ℕ :=
  (E.eval plan).map List.length

end Engine

/-- An outgoing relationship of a pattern. -/
def arrow (v : Option String) : RelationshipPattern := ⟨v, none, false, false, none, none⟩

/-- `(a)-->(b)-->(c {x: $p})-->(a)`. -/
def parameterTriangle : Pattern :=
  ⟨⟨some "a", [], none⟩, [(arrow none, ⟨some "b", [], none⟩),
    (arrow none, ⟨some "c", [], some [("x", .param "p")]⟩),
    (arrow none, ⟨some "a", [], none⟩)], none⟩

/-- A directed cycle of three nodes with `x = true`, and the parameter. -/
def Engine.cycle : Engine :=
  .ofGraph [0, 1, 2] [(0, 0, 1), (1, 1, 2), (2, 2, 0)] (fun _ => []) (fun _ _ => .bool true)
    (Table.empty.put "p" (.bool true))

/-- Two hops that nothing closes, and no parameter. -/
def Engine.openWedge : Engine :=
  .ofGraph [0, 1, 2] [(0, 0, 1), (1, 1, 2)] (fun _ => []) (fun _ _ => .bool true) .empty

/-- `(a)-[_rel_0_1]->(b)-->(c)-[x]->(a)`: the first relationship has the name generated for the
second. -/
def generatedTriangle : Pattern :=
  ⟨⟨some "a", [], none⟩, [(arrow (some "_rel_0_1"), ⟨some "b", [], none⟩),
    (arrow none, ⟨some "c", [], none⟩), (arrow (some "x"), ⟨some "a", [], none⟩)], none⟩

def Engine.twoLoops : Engine :=
  .ofGraph [0] [(0, 0, 0), (1, 0, 0)] (fun _ => []) (fun _ _ => .null) .empty

end IssunDB.Cypher
