import IssunDB.Cypher.Trial

/-!
# The transaction of an atomic pipeline

A pipeline of data statements that writes runs in one transaction. Its statements work on that
transaction, with one exception: the arms of a `UNION` go back to the graph handle, where a writing
arm asks for a second transaction and waits for the first one.

* `unionsRead` — no `UNION` the pipeline can reach has an arm that writes.
* `executePipeline_not_blocked` — exactly then the pipeline never waits for itself.
-/

namespace IssunDB.Cypher

/-- Every union the statements can reach only reads. A union that is always refused ends them. -/
def unionsRead (display : Expr → String) : List Statement → Bool
  | [] => true
  | .union left right all :: stmts =>
    match (Statement.union left right all).shape display with
    | .refused => true
    | .reads _ => unionsRead display stmts
    | .writes _ | .torn => false
  | _ :: stmts => unionsRead display stmts

lemma unionsRead_cons_of_not_union {display : Expr → String} {s : Statement}
    {stmts : List Statement} (h : ¬∃ left right all, s = .union left right all) :
    unionsRead display (s :: stmts) = unionsRead display stmts := by
  cases s with
  | union left right all => exact absurd ⟨left, right, all, rfl⟩ h
  | _ => rfl

/-! ## Statements in the transaction of the pipeline -/

namespace Executors

variable [TextLib] (X : Executors)

/-- A statement other than a union asks for no other transaction. -/
theorem returns_executeStatementIn (params : Params) (g : Graph) {s : Statement}
    (h : ¬∃ left right all, s = .union left right all) (bindings : PathMap) :
    InTxn.Returns (fun _ => True) (X.executeStatementIn params g s bindings) := by
  have hthen : ∀ {P : QueryResult → Prop} {m : InTxn X.Overlay QueryResult}, InTxn.Returns P m →
      InTxn.Returns (fun _ => True) (m >>= fun r => pure (r, bindings)) :=
    fun hm => hm.bind fun _ _ => InTxn.returns_pure trivial
  cases s with
  | union left right all => exact absurd ⟨left, right, all, rfl⟩ h
  | query q =>
    refine (InTxn.returns_check fun _ _ _ => trivial).bind fun q _ => ?_
    exact hthen (X.returns_executeReadQueryIn params q g)
  | create c =>
    exact (X.returns_createPatterns params g c.patterns bindings).bind
      fun _ _ => InTxn.returns_pure trivial
  | createAndReturn c => exact hthen (X.returns_executeCreateAndReturnBody params c g)
  | set s => exact hthen (X.returns_clauseOnly _)
  | delete d => exact hthen (X.returns_clauseOnly _)
  | merge m => exact hthen (X.returns_clauseOnly _)
  | remove r => exact hthen (X.returns_clauseOnly _)
  | setAndReturn s => exact hthen (X.returns_executeReadQueryIn params s.toQuery g)
  | deleteAndReturn d => exact hthen (X.returns_executeReadQueryIn params d.toQuery g)
  | mergeAndReturn m => exact hthen (X.returns_executeReadQueryIn params m.toQuery g)
  | removeAndReturn r => exact hthen (X.returns_executeReadQueryIn params r.toQuery g)
  | foreach v list body => exact hthen (X.returns_executeForeachTxn params v list body g)
  | _ =>
    rw [executeStatementIn]
    · exact InTxn.returns_check fun _ _ _ => trivial
    all_goals simp

omit [TextLib] in
/-- A call on the graph handle that does not block asks for no other transaction. -/
theorem returns_onHandle {α : Type} {P : α → Prop} {run : X.Overlay → Run α} {g : Graph}
    (hblock : ∀ o, (run o ⟨g, []⟩).1 ≠ .error .blocked)
    (hP : ∀ o a, (run o ⟨g, []⟩).1 = .ok a → P a) : InTxn.Returns P (X.onHandle run g) := by
  intro o
  unfold onHandle
  split
  · rename_i a ha
    exact ⟨a, o, rfl, hP o a ha⟩
  · trivial
  · rename_i hb
    exact absurd hb (hblock o)

/-- An atomic pipeline whose unions only read asks for no other transaction. -/
theorem returns_executeAll (params : Params) (g : Graph) (stmts : List Statement)
    (h : unionsRead X.exprDisplayName stmts) (bindings : PathMap) (last : QueryResult) :
    InTxn.Returns (fun _ => True) (X.executeAll params g stmts bindings last) := by
  induction stmts generalizing bindings last with
  | nil => exact InTxn.returns_pure trivial
  | cons s stmts ih =>
    by_cases hunion : ∃ left right all, s = .union left right all
    · obtain ⟨left, right, all, rfl⟩ := hunion
      have hshape := fun o =>
        X.executeStatement_shape (some o) params (.union left right all)
      rw [unionsRead] at h
      split at h
      · -- The union fails, so nothing follows it.
        rename_i hrefused
        simp only [hrefused] at hshape
        have hfails : ∀ o, ∃ e, (X.executeStatement (some o) params (.union left right all)
            ⟨g, []⟩).1 = .error (.failed e) := fun o => (hshape o ⟨g, []⟩).2
        have hnever : InTxn.Returns (fun _ => False) (X.onHandle
            (fun o => X.executeStatement (some o) params (.union left right all)) g) := by
          apply X.returns_onHandle
          · intro o
            obtain ⟨e, he⟩ := hfails o
            simp [he]
          · intro o a ha
            obtain ⟨e, he⟩ := hfails o
            simp [he] at ha
        exact InTxn.Returns.bind (hnever.bind fun _ hfalse => hfalse.elim) fun _ hfalse => hfalse
      · rename_i c hreads
        simp only [hreads] at hshape
        have hread : InTxn.Returns (fun _ => True) (X.onHandle
            (fun o => X.executeStatement (some o) params (.union left right all)) g) :=
          X.returns_onHandle (fun o => (hshape o ⟨g, []⟩).2.1) fun _ _ _ => trivial
        exact InTxn.Returns.bind (hread.bind fun r _ =>
          InTxn.returns_pure (P := fun _ => True) trivial)
          fun r _ => ih h r.2 r.1
      · cases h
      · cases h
    · rw [unionsRead_cons_of_not_union hunion] at h
      exact (X.returns_executeStatementIn params g hunion bindings).bind fun r _ => ih h r.2 r.1

end Executors

/-! ## Updates that wait -/

section Updates

variable [TextLib] {α O : Type} {o : O} {m : Graph → InTxn O α} {s : Session}

lemma update_held (o : O) (m : Graph → InTxn O α) (s : Session) :
    update true o m s = (.error .blocked, s) := by
  rw [update, if_pos (by simp)]

lemma update_of_blocks (held : Bool) (h : (m s.graph).blocks o s.graph = true) :
    update held o m s = (.error .blocked, s) := by
  rw [update, if_pos (by simp [h])]

lemma update_ne_blocked (h : (m s.graph).blocks o s.graph = false) :
    (update false o m s).1 ≠ .error .blocked := by
  rw [update, if_neg (by simp [h]), transaction, if_neg (by simp)]
  rcases (s.graph.update s.commit ((m s.graph).closure o)).1 with e | a <;> simp [Except.mapError]

omit [TextLib] in
lemma Executors.onHandle_of_ok {X : Executors} {run : X.Overlay → Run α} {g : Graph}
    {o : X.Overlay} {a : α} (h : (run o ⟨g, []⟩).1 = .ok a) :
    X.onHandle run g o = .done (.ok (some (a, o))) := by
  unfold Executors.onHandle
  rw [h]

omit [TextLib] in
lemma Executors.onHandle_of_blocked {X : Executors} {run : X.Overlay → Run α} {g : Graph}
    {o : X.Overlay} (h : (run o ⟨g, []⟩).1 = .error .blocked) :
    X.onHandle run g o = .done (.ok none) := by
  unfold Executors.onHandle
  rw [h]

end Updates

namespace Executors

variable [TextLib] {X : Executors} {params : Params} {g : Graph} {bindings : PathMap}
  {last : QueryResult} {stmts : List Statement} {o : X.Overlay}

lemma run_executeAll_of_ok {s : Statement} {r : QueryResult × PathMap} {o' : X.Overlay}
    {w w' : WriteTxn}
    (h : (X.executeStatementIn params g s bindings o).run w = (.ok (some (r, o')), w')) :
    (X.executeAll params g (s :: stmts) bindings last o).run w =
      (X.executeAll params g stmts r.2 r.1 o').run w' := by
  show (Prog.bind (X.executeStatementIn params g s bindings o) _).run w = _
  rw [Prog.run_bind, h]

variable {left right : Statement} {all : Bool}

lemma executeStatementIn_union_of_ok {u : QueryResult}
    (h : (X.executeStatement (some o) params (.union left right all) ⟨g, []⟩).1 = .ok u)
    (w : WriteTxn) :
    (X.executeStatementIn params g (.union left right all) bindings o).run w =
      (.ok (some ((u, bindings), o)), w) := by
  show (Prog.bind (X.onHandle (fun o =>
    X.executeStatement (some o) params (.union left right all)) g o) _).run w = _
  rw [onHandle_of_ok h]
  rfl

lemma run_executeAll_of_union_blocked
    (h : (X.executeStatement (some o) params (.union left right all) ⟨g, []⟩).1 = .error .blocked)
    (w : WriteTxn) :
    ((X.executeAll params g (.union left right all :: stmts) bindings last o).run w).1 =
      .ok none := by
  show ((Prog.bind (Prog.bind (X.onHandle (fun o =>
    X.executeStatement (some o) params (.union left right all)) g o) _) _).run w).1 = _
  rw [onHandle_of_blocked h]
  rfl

end Executors

/-! ## A writing arm waits for the pipeline -/

namespace Shape

/-- What the run `m` of a statement with this shape does on a fresh graph, in a thread that holds
the write transaction. -/
def Held (shape : Shape) (m : Run QueryResult) : Prop :=
  ∀ g, Graph.isFresh g = true →
    match shape with
    | refused => True
    | reads _ => ∃ r, m ⟨g, []⟩ = (.ok r, ⟨g, []⟩)
    | writes _ | torn => m ⟨g, []⟩ = (.error .blocked, ⟨g, []⟩)

/-- The first arm of a union that writes waits, and so does the second one after a read. -/
theorem Held.union {X : Executors} {a b : Shape} {ml mr : Run QueryResult} {all : Bool}
    {left right : Statement} (hmixed : unionHasMixedAll all left right = false) (ha : a.Held ml)
    (hb : b.Held mr) (hal : a.Holds ml) (hbr : b.Holds mr) (hak : a.known) (hbk : b.known) :
    (a.union b).Held (X.executeUnion all left right ml mr) := by
  rw [Executors.executeUnion_of_not_mixed hmixed]
  intro g hg
  have hleft := ha g hg
  cases a with
  | refused => trivial
  | torn => exact Exec.bind_apply_error hleft
  | writes c => exact Exec.bind_apply_error hleft
  | reads c =>
    obtain ⟨l, hl⟩ := hleft
    obtain ⟨c, rfl⟩ := Option.isSome_iff_exists.mp hak
    have hlc : l.columns = c := (hal ⟨g, []⟩).2.2 l (by rw [hl]) c rfl
    have hright := hb g hg
    cases b with
    | refused => trivial
    | torn => exact (Exec.bind_apply_ok hl).trans (Exec.bind_apply_error hright)
    | writes d =>
      -- The columns decide the shape, but the arm waits before they are compared.
      by_cases hcd : some c = d
      · rw [show (reads (some c)).union (writes d) = writes (some c) by simp [Shape.union, ← hcd]]
        exact (Exec.bind_apply_ok hl).trans (Exec.bind_apply_error hright)
      · rw [show (reads (some c)).union (writes d) = torn by simp [Shape.union, hcd]]
        exact (Exec.bind_apply_ok hl).trans (Exec.bind_apply_error hright)
    | reads d =>
      obtain ⟨r, hr⟩ := hright
      obtain ⟨d, rfl⟩ := Option.isSome_iff_exists.mp hbk
      have hrc : r.columns = d := (hbr ⟨g, []⟩).2.2 r (by rw [hr]) d rfl
      by_cases hcd : c = d
      · rw [show (reads (some c)).union (reads (some d)) = reads (some c) by
          simp [Shape.union, columnsDiffer, hcd]]
        exact Executors.exists_union hl hr (hlc.trans (hcd.trans hrc.symm))
      · rw [show (reads (some c)).union (reads (some d)) = refused by
          simp [Shape.union, columnsDiffer, hcd]]
        trivial

end Shape

namespace Executors

variable [TextLib] {display : Expr → String}

/-- A plain statement in a thread that holds the write transaction. -/
theorem held_executeStatement (params : Params) :
    {s : Statement} → s.plain display →
      (s.shape display).Held ((trial display).executeStatement (some ()) params s)
  | .query q, h => by
    rw [(trial display).executeStatement_query (isCall_of_plain h), Statement.shape]
    split
    · exact fun g _ => update_held _ _ _
    · intro g hg
      refine ⟨(trial display).tabulate q ⟨[], []⟩, ?_⟩
      simp [reads, executeReadQuery, trial, onFresh, hg, Except.mapError, Except.map]
  | .create c, _ => fun g _ => Exec.bind_apply_error (update_held _ _ _)
  | .createAndReturn c, _ => fun g _ => update_held _ _ _
  | .set s, _ => fun g _ => update_held _ _ _
  | .delete d, _ => fun g _ => update_held _ _ _
  | .merge m, _ => fun g _ => update_held _ _ _
  | .remove r, _ => fun g _ => update_held _ _ _
  | .setAndReturn s, _ => fun g _ => update_held _ _ _
  | .deleteAndReturn d, _ => fun g _ => update_held _ _ _
  | .mergeAndReturn m, _ => fun g _ => update_held _ _ _
  | .removeAndReturn r, _ => fun g _ => update_held _ _ _
  | .copy c, _ => by
    intro g hg
    have hrows : reads (fun g => (trial display).copyRows g params c) ⟨g, []⟩ =
        (.ok ("", some (markFresh g 0)), ⟨g, []⟩) := by
      simp [reads, trial, onFresh, hg, Except.mapError]
    exact (Exec.bind_apply_ok hrows).trans (Exec.bind_apply_error rfl)
  | .importDatabase i, _ => fun g _ => Exec.bind_apply_error (update_held _ _ _)
  | .exportDatabase e, _ => by
    intro g hg
    refine ⟨⟨["exported"], [[.bool true]], 1⟩, Exec.bind_apply_ok (a := ()) ?_⟩
    simp [reads, trial, onFresh, hg, Except.mapError]
  | .union left right all, h => by
    obtain ⟨hl, hr⟩ := Bool.and_eq_true .. ▸ h
    rw [Statement.shape, executeStatement]
    split
    · exact fun _ _ => trivial
    · rename_i hmixed
      exact Shape.Held.union (by simpa using hmixed) (held_executeStatement params hl)
        (held_executeStatement params hr)
        ((trial display).executeStatement_shape (some ()) params left)
        ((trial display).executeStatement_shape (some ()) params right) (Statement.known_shape hl)
        (Statement.known_shape hr)

def plainIn (display : Expr → String) : Statement → Bool
  | .foreach .. => true
  | s => s.plain display

lemma succeeds_executeStatementIn (params : Params) {g : Graph} (hg : Graph.isFresh g = true)
    {s : Statement} (hplain : plainIn display s) (hdata : isDataStatement s)
    (h : ¬∃ left right all, s = .union left right all) (bindings : PathMap) :
    InTxn.Succeeds 0 (fun _ => True) ((trial display).executeStatementIn params g s bindings) := by
  have hthen : ∀ {k : ℕ} {P : QueryResult → Prop} {m : InTxn Unit QueryResult},
      InTxn.Succeeds k P m →
      InTxn.Succeeds 0 (fun _ => True) (m >>= fun r => pure (r, bindings)) := by
    intro k P m hm
    apply (hm.bind fun _ _ => InTxn.succeeds_pure trivial).mono (Nat.zero_le _)
  have hquery : ∀ q, InTxn.Succeeds 1 (fun _ => True)
      ((trial display).executeReadQueryIn params q g) :=
    fun q => (succeeds_markFresh hg _).bind fun _ _ => InTxn.succeeds_pure trivial
  have hclause : InTxn.Succeeds 1 (fun _ => True)
      ((trial display).clauseOnly fun _ => markFresh g ((), ())) :=
    (succeeds_markFresh hg _).bind fun _ _ => InTxn.succeeds_pure trivial
  cases s with
  | union left right all => exact absurd ⟨left, right, all, rfl⟩ h
  | query q =>
    have hresolved : InTxn.Succeeds 0 (fun q' => q' = q)
        (InTxn.check fun o => (trial display).resolved g (some o) params q) :=
      InTxn.succeeds_check fun o =>
        ⟨q, (trial display).resolved_of_not_isCall (isCall_of_plain hplain), rfl⟩
    exact (hresolved.bind fun q' _ => hthen (hquery q')).mono le_rfl
  | create c =>
    exact ((succeeds_createPatterns hg params c.patterns bindings).bind
      fun _ _ => InTxn.succeeds_pure trivial).mono (Nat.zero_le _)
  | createAndReturn c =>
    exact hthen (succeeds_executeCreateAndReturnBody hg params c)
  | set s => exact hthen hclause
  | delete d => exact hthen hclause
  | merge m => exact hthen hclause
  | remove r => exact hthen hclause
  | setAndReturn s => exact hthen (hquery s.toQuery)
  | deleteAndReturn d => exact hthen (hquery d.toQuery)
  | mergeAndReturn m => exact hthen (hquery m.toQuery)
  | removeAndReturn r => exact hthen (hquery r.toQuery)
  | foreach v list body =>
    -- On trial a loop walks the empty list.
    have hloop : InTxn.Succeeds (0 + 0) (fun _ => True)
        ((trial display).executeForeachTxn params v list body g) := by
      rw [executeForeachTxn]
      refine InTxn.Succeeds.bind (P := fun value => value = .null)
        (InTxn.succeeds_check fun o => ⟨.null, ?_, rfl⟩) ?_
      · simp [trial, onFresh, hg]
      · rintro value rfl
        exact InTxn.succeeds_pure trivial
    exact hthen hloop
  | _ => cases hdata

/-- An atomic pipeline that reaches a writing union waits for itself. -/
theorem blocks_executeAll (params : Params) {g : Graph} (hg : Graph.isFresh g = true)
    {stmts : List Statement} (hplain : ∀ s ∈ stmts, plainIn display s)
    (hdata : ∀ s ∈ stmts, isDataStatement s) (h : unionsRead display stmts = false)
    (bindings : PathMap) (last : QueryResult) (w : WriteTxn) (hw : w.failed = false) :
    (((trial display).executeAll params g stmts bindings last ()).run w).1 = .ok none := by
  induction stmts generalizing bindings last w with
  | nil => cases h
  | cons s stmts ih =>
    have hrest : ∀ r : QueryResult × PathMap, unionsRead display stmts = false →
        ∀ w, w.failed = false →
          (((trial display).executeAll params g stmts r.2 r.1 ()).run w).1 = .ok none := by
      intro r hr w hw
      exact ih (fun t ht => hplain t (by simp [ht])) (fun t ht =>
        hdata t (by simp [ht])) hr _ _ w hw
    by_cases hunion : ∃ left right all, s = .union left right all
    · obtain ⟨left, right, all, rfl⟩ := hunion
      have hunion : (Statement.union left right all).plain display :=
        hplain (.union left right all) (by simp)
      have hheld := held_executeStatement params hunion g hg
      rw [unionsRead] at h
      split at h
      · cases h
      · rename_i c hreads
        rw [hreads] at hheld
        obtain ⟨r, hr⟩ := hheld
        rw [run_executeAll_of_ok (executeStatementIn_union_of_ok (congrArg Prod.fst hr) w)]
        exact hrest (r, bindings) h w hw
      · rename_i c hwrites
        rw [hwrites] at hheld
        exact run_executeAll_of_union_blocked (congrArg Prod.fst hheld) w
      · rename_i htorn
        rw [htorn] at hheld
        exact run_executeAll_of_union_blocked (congrArg Prod.fst hheld) w
    · rw [unionsRead_cons_of_not_union hunion] at h
      obtain ⟨r, o', w', hr, hw', -, -⟩ := succeeds_executeStatementIn params hg
        (hplain s (by simp)) (hdata s (by simp)) hunion bindings () w hw
      rw [run_executeAll_of_ok hr]
      exact hrest r h w' hw'

end Executors

/-! ## The pipeline -/

/-- **One writer.** A pipeline that runs in one transaction never asks for a second one, whatever
its clauses compute, if every union it can reach only reads; and if one of them writes, then some
clauses make the pipeline wait for itself. -/
theorem executePipeline_not_blocked [TextLib] (display : Expr → String) (stmts : List Statement)
    (hdata : stmts.all isDataStatement) (hwrites : stmts.any statementWrites) :
    (unionsRead display stmts → ∀ X : Executors, X.exprDisplayName = display → ∀ params s,
      (X.executeStatement none params (.pipeline stmts) s).1 ≠ .error .blocked) ∧
    (stmts.all (Executors.plainIn display) → unionsRead display stmts = false →
      ∃ X : Executors, X.exprDisplayName = display ∧ ∀ params,
        (X.executeStatement none params (.pipeline stmts) ⟨.empty, []⟩).1 = .error .blocked) := by
  have hatomic : (stmts.all isDataStatement && stmts.any statementWrites) = true := by
    rw [hdata, hwrites]
    rfl
  constructor
  · rintro hread X rfl params s hblocked
    have hreturns := fun g => X.returns_executeAll params g stmts hread .empty .empty
    have hupdate := update_ne_blocked (o := X.install) (s := s)
      (m := fun g => X.executeAll params g stmts .empty .empty)
      ((hreturns s.graph).blocks X.install s.graph)
    rw [Executors.executeStatement, if_pos hatomic, Exec.bind_apply] at hblocked
    split at hblocked
    · cases hblocked
    · rename_i e s' hrun
      exact hupdate ((congrArg Prod.fst hrun).trans hblocked)
  · intro hplain hread
    refine ⟨.trial display, rfl, fun params => ?_⟩
    have hblocks :
        ((Executors.trial display).executeAll params .empty stmts .empty .empty).blocks ()
        .empty = true := by
      unfold InTxn.blocks
      rw [Executors.blocks_executeAll params rfl (List.all_eq_true.mp hplain)
        (List.all_eq_true.mp hdata) hread .empty .empty (.begin Graph.empty.storage) rfl]
    rw [Executors.executeStatement, if_pos hatomic]
    exact congrArg Prod.fst (Exec.bind_apply_error (update_of_blocks (s := ⟨.empty, []⟩) _ hblocks))

section Example

attribute [local instance] TextLib.ascii

/-- `CREATE (v:label) RETURN 1 AS x`. -/
def createReturningX (v label : String) : Statement :=
  .createAndReturn ⟨⟨[labelledNode v label]⟩, ⟨returnInt 1 "x", none, none, none⟩⟩

/-- `RETURN 1 AS x`. -/
def returnX : Statement := .query ⟨[], none, returnInt 1 "x", [], none, none, none⟩

/-- `CREATE (a:A) RETURN 1 AS x; RETURN 1 AS x UNION RETURN 1 AS x` does not wait for itself. -/
theorem executePipeline_not_blocked_reads :
    (Executors.literals.executeStatement none .empty
      (.pipeline [createReturningX "a" "A", .union returnX returnX false]) ⟨.empty, []⟩).1 ≠
        .error .blocked :=
  (executePipeline_not_blocked (fun _ => "")
    [createReturningX "a" "A", .union returnX returnX false] rfl rfl).1 rfl
      Executors.literals rfl .empty ⟨.empty, []⟩

/-- `CREATE (b:B) RETURN 1 AS x UNION CREATE (c:C) RETURN 1 AS x; CREATE (a:A) RETURN 1 AS x`
waits for itself. -/
theorem executePipeline_union_blocked :
    [Statement.union (createReturningX "b" "B") (createReturningX "c" "C") false,
        createReturningX "a" "A"].all isDataStatement ∧
      [Statement.union (createReturningX "b" "B") (createReturningX "c" "C") false,
        createReturningX "a" "A"].any statementWrites ∧
      (Executors.literals.executeStatement none .empty
        (.pipeline [.union (createReturningX "b" "B") (createReturningX "c" "C") false,
          createReturningX "a" "A"]) ⟨.empty, []⟩).1 = .error .blocked :=
  ⟨rfl, rfl, rfl⟩

end Example

end IssunDB.Cypher
