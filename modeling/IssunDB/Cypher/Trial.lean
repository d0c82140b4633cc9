import IssunDB.Cypher.Transactions

/-!
# Statements that fail after a commit

Executors under which a statement shows every transaction its text asks for. On a graph that was
never written to, each clause of `Executors.trial` succeeds, and each writing clause counts one
mutation; on any other graph every clause fails. So the first transaction of a statement commits,
and whatever the statement does after it fails.

* `trial_fresh`, `trial_stale` — the runs of a plain statement under these executors.
* `allOrNothing_iff` — a plain statement is all-or-nothing whatever its clauses compute iff its
  shape is not torn.
-/

namespace IssunDB.Cypher

open List Option

/-! ## Closures that succeed -/

section Closures

variable [TextLib] {O α β : Type}

/-- From every transaction that has not failed, the computation returns a value that satisfies `P`,
after at least `k` mutations. -/
def InTxn.Succeeds (k : ℕ) (P : α → Prop) (m : InTxn O α) : Prop :=
  ∀ o w, w.failed = false → ∃ a o' w', (m o).run w = (.ok (some (a, o')), w') ∧
    w'.failed = false ∧ w.mutationsCount + k ≤ w'.mutationsCount ∧ P a

namespace InTxn

variable {P : α → Prop} {Q : β → Prop} {k l : ℕ}

lemma succeeds_pure {a : α} (h : P a) : Succeeds 0 P (pure a : InTxn O α) :=
  fun o w hw => ⟨a, o, w, rfl, hw, le_rfl, h⟩

variable {m : InTxn O α}

lemma Succeeds.bind {f : α → InTxn O β} (h : Succeeds k P m) (hf : ∀ a, P a → Succeeds l Q (f a)) :
    Succeeds (k + l) Q (m >>= f) := by
  intro o w hw
  obtain ⟨a, o', w', hrun, hw', hk, ha⟩ := h o w hw
  obtain ⟨b, o'', w'', hrun', hw'', hl, hb⟩ := hf a ha o' w' hw'
  refine ⟨b, o'', w'', ?_, hw'', by omega, hb⟩
  show (Prog.bind (m o) _).run w = _
  rw [Prog.run_bind, hrun]
  exact hrun'

lemma run_bind_error {f : α → InTxn O β} {o : O} {w w' : WriteTxn} {e : Error}
    (h : (m o).run w = (.error e, w')) : ((m >>= f) o).run w = (.error e, w') := by
  show (Prog.bind (m o) _).run w = _
  rw [Prog.run_bind, h]

lemma Succeeds.mono (h : Succeeds k P m) (hlk : l ≤ k) : Succeeds l P m := by
  intro o w hw
  obtain ⟨a, o', w', hrun, hw', hk, ha⟩ := h o w hw
  exact ⟨a, o', w', hrun, hw', by omega, ha⟩

lemma succeeds_check {f : O → Except Error α} (h : ∀ o, ∃ a, f o = .ok a ∧ P a) :
    Succeeds 0 P (check f) := by
  intro o w hw
  obtain ⟨a, hf, ha⟩ := h o
  refine ⟨a, o, w, ?_, hw, le_rfl, ha⟩
  unfold check
  rw [hf]
  rfl

lemma Succeeds.update {m : Graph → InTxn O α} {g : Graph} (h : Succeeds 1 P (m g)) (o : O) :
    ∃ a g', Cypher.update false o m ⟨g, []⟩ = (.ok a, ⟨g', []⟩) ∧ g.writeGen < g'.writeGen ∧
      P a := by
  obtain ⟨a, o', w', hrun, hw', hk, ha⟩ := h o (.begin g.storage) rfl
  have hblocks : (m g).blocks o g = false := by
    unfold InTxn.blocks
    rw [hrun]
  have hclosure : ((m g).closure o).run (.begin g.storage) = (.ok a, w') := by
    unfold InTxn.closure
    rw [Prog.run_bind, hrun]
    rfl
  unfold Cypher.update transaction Graph.update
  simp only [hblocks, hclosure, hw', Graph.commitAndPublish, Session.commit, Bool.or_self,
    Bool.false_eq_true, if_false, headD_nil, tail_nil]
  refine ⟨a, _, rfl, ?_, ha⟩
  have : (WriteTxn.begin g.storage).mutationsCount = 0 := rfl
  simp only [Graph.recordDelta]
  omega

lemma update_failed {m : Graph → InTxn O α} {g : Graph} {o : O} {e : Error}
    (h : ((m g o).run (.begin g.storage)).1 = .error e) :
    Cypher.update false o m ⟨g, []⟩ = (.error (.failed e), ⟨g, []⟩) := by
  rcases hrun : (m g o).run (.begin g.storage) with ⟨r, w⟩
  rw [hrun] at h
  subst h
  have hblocks : (m g).blocks o g = false := by
    unfold InTxn.blocks
    rw [hrun]
  have hclosure : ((m g).closure o).run (.begin g.storage) = (.error e, w) := by
    unfold InTxn.closure
    rw [Prog.run_bind, hrun]
  unfold Cypher.update transaction Graph.update
  simp only [hblocks, hclosure, Except.mapError, Bool.or_self, Bool.false_eq_true, if_false,
    tail_nil]

end InTxn

end Closures

/-! ## The executors -/

/-- The graph was never written to. -/
def Graph.isFresh (g : Graph) : Bool := g.writeGen = 1

/-- The failure of a clause on a graph that was written to. -/
def alreadyWritten : Error := .invalidArgument "the graph was written to"

def onFresh {α : Type} (g : Graph) (a : α) : Except Error α :=
  if Graph.isFresh g then .ok a else .error alreadyWritten

def markFresh {α : Type} (g : Graph) (a : α) : Prog α :=
  if Graph.isFresh g then .call (.mutation (.putVectorBytes 0 [])) fun _ => .done (.ok a)
  else .done (.error alreadyWritten)

/-- Every clause succeeds on a fresh graph and fails on any other; the writing clauses write. -/
def Executors.trial [TextLib] (display : Expr → String) : Executors where
  Overlay := Unit
  install := ()
  debugColumns := toString
  exprDisplayName := display
  canonicalRowKey _ := ""
  evaluateExpr g _ _ _ := onFresh g .null
  resolveCall _ _ _ _ _ _ _ _ _ := .error alreadyWritten
  readRows g _ _ _ := onFresh g ⟨[], []⟩
  writeRows g _ _ _ := markFresh g (⟨[], []⟩, ())
  createPattern g _ _ _ _ := markFresh g (.empty, ())
  bindWrittenPath _ row _ _ := .ok row
  createdRecords _ _ _ _ _ := .ok []
  setIn g _ _ _ := markFresh g ((), ())
  deleteIn g _ _ _ := markFresh g ((), ())
  mergeIn g _ _ _ := markFresh g ((), ())
  removeIn g _ _ _ := markFresh g ((), ())
  copyRows g _ _ := onFresh g ("", some (markFresh g 0))
  refreshCaches g := onFresh g ()
  exportDb g _ _ := onFresh g ()
  importDb o _ _ := do
    update o.isSome () fun g => InTxn.clause fun _ => markFresh g ((), ())
    Exec.throw (.failed alreadyWritten)

/-! ## Plain statements -/

/-- The statement has no call, no lone `*`, no loop, no schema change and no pipeline, and a
`CREATE` in it has a pattern. -/
def Statement.plain (display : Expr → String) : Statement → Bool
  | .query q => (queryColumns display q).isSome
  | .create c => !c.patterns.isEmpty
  | .createAndReturn c => !c.patterns.isEmpty
  | .setAndReturn s => (queryColumns display s.toQuery).isSome
  | .deleteAndReturn d => (queryColumns display d.toQuery).isSome
  | .mergeAndReturn m => (queryColumns display m.toQuery).isSome
  | .removeAndReturn r => (queryColumns display r.toQuery).isSome
  | .set _ | .delete _ | .merge _ | .remove _ => true
  | .copy _ | .exportDatabase _ | .importDatabase _ => true
  | .union left right _ => left.plain display && right.plain display
  | _ => false

def Statement.plainPipeline (display : Expr → String) : Statement → Bool
  | .pipeline stmts => stmts.all (Statement.plain display)
  | s => s.plain display

namespace Shape

/-- The text fixes the columns. -/
def known : Shape → Bool
  | reads c | writes c => c.isSome
  | refused | torn => true

lemma known_union {a b : Shape} (ha : a.known) (hb : b.known) : (a.union b).known := by
  cases a with
  | refused | torn | writes c => rfl
  | reads c =>
    obtain ⟨c, rfl⟩ := isSome_iff_exists.mp ha
    cases b with
    | refused | torn => rfl
    | reads d =>
      rw [Shape.union]
      split <;> simp [known]
    | writes d =>
      rw [Shape.union]
      split <;> simp [known]

/-- What the run `m` of a statement with this shape does on trial. -/
def Tried (shape : Shape) (m : Run QueryResult) : Prop :=
  (∀ g, Graph.isFresh g = false → ∃ e, m ⟨g, []⟩ = (.error (.failed e), ⟨g, []⟩)) ∧
  ∀ g, Graph.isFresh g = true →
    match shape with
    | refused => True
    | reads _ => ∃ r, m ⟨g, []⟩ = (.ok r, ⟨g, []⟩)
    | writes _ => ∃ r g', m ⟨g, []⟩ = (.ok r, ⟨g', []⟩) ∧ Graph.isFresh g' = false
    | torn => ∃ e g', m ⟨g, []⟩ = (.error (.failed e), ⟨g', []⟩) ∧ Graph.isFresh g' = false

end Shape

lemma Statement.known_shape {display : Expr → String} :
    {s : Statement} → s.plain display → (s.shape display).known
  | .query q, h => by
    rw [Statement.shape]
    split <;> exact h
  | .setAndReturn _, h | .deleteAndReturn _, h | .mergeAndReturn _, h | .removeAndReturn _, h => h
  | .createAndReturn _, _ | .create _, _ | .set _, _ | .delete _, _ | .merge _, _
  | .remove _, _ | .copy _, _ | .exportDatabase _, _ | .importDatabase _, _ => rfl
  | .union left right all, h => by
    obtain ⟨hl, hr⟩ := Bool.and_eq_true .. ▸ h
    rw [Statement.shape]
    split
    · rfl
    · exact Shape.known_union (known_shape hl) (known_shape hr)

/-! ## Single transactions on trial -/

section Leaves

variable [TextLib] {α β : Type} {g : Graph}

lemma succeeds_markFresh (h : Graph.isFresh g = true) (a : α) :
    InTxn.Succeeds 1 (fun _ => True) (InTxn.clause fun _ : Unit => markFresh g (a, ())) := by
  intro o w hw
  unfold InTxn.clause markFresh
  rw [if_pos h]
  simp only [Prog.bind, Prog.run, TxnOp.exec, WriteTxn.mutate, hw, Bool.false_eq_true, if_false]
  exact ⟨a, (), _, rfl, rfl, le_rfl, trivial⟩

/-- A transaction that starts with a write fails on a graph that was written to. -/
theorem run_markFresh (h : Graph.isFresh g = false) (a : α) (f : α → InTxn Unit β) (o : Unit)
    (w : WriteTxn) :
    (((InTxn.clause fun _ : Unit => markFresh g (a, ())) >>= f) o).run w =
      (.error alreadyWritten, w) := by
  show (Prog.bind (Prog.bind (markFresh g (a, ())) _) _).run w = _
  unfold markFresh
  rw [if_neg (by simp [h])]
  rfl

omit [TextLib] in
lemma Graph.isFresh_of_lt {g' : Graph} (h : Graph.isFresh g = true)
    (hlt : g.writeGen < g'.writeGen) :
    Graph.isFresh g' = false := by
  simp only [Graph.isFresh, decide_eq_true_eq] at h
  simp only [Graph.isFresh, decide_eq_false_iff_not]
  omega

/-- A statement that is one transaction, which writes if it succeeds. -/
theorem Shape.tried_update {c : Option (List String)} {m : Graph → InTxn Unit QueryResult}
    (hfresh : ∀ g, Graph.isFresh g = true → InTxn.Succeeds 1 (fun _ => True) (m g))
    (hstale : ∀ g w, Graph.isFresh g = false → (m g ()).run w = (.error alreadyWritten, w)) :
    (Shape.writes c).Tried (update false () m) := by
  refine ⟨fun g hg => ⟨alreadyWritten, ?_⟩, fun g hg => ?_⟩
  · apply InTxn.update_failed
    rw [hstale g _ hg]
  · obtain ⟨r, g', hrun, hlt, -⟩ := (hfresh g hg).update ()
    exact ⟨r, g', hrun, Graph.isFresh_of_lt hg hlt⟩

omit [TextLib] in
lemma Shape.tried_reads {c : Option (List String)} {f : Graph → Except Error QueryResult}
    {r : QueryResult} (h : ∀ g, f g = onFresh g r) : (Shape.reads c).Tried (Cypher.reads f) := by
  refine ⟨fun g hg => ⟨alreadyWritten, ?_⟩, fun g hg => ⟨r, ?_⟩⟩
  · simp [Cypher.reads, h, onFresh, hg, Except.mapError]
  · simp [Cypher.reads, h, onFresh, hg, Except.mapError]

end Leaves

lemma Shape.Tried.union {X : Executors} {a b : Shape} {ml mr : Run QueryResult} {all : Bool}
    {left right : Statement} (hmixed : unionHasMixedAll all left right = false) (ha : a.Tried ml)
    (hb : b.Tried mr) (hal : a.Holds ml) (hbr : b.Holds mr) (hak : a.known) (hbk : b.known) :
    (a.union b).Tried (X.executeUnion all left right ml mr) := by
  rw [Executors.executeUnion_of_not_mixed hmixed]
  refine ⟨fun g hg => ?_, fun g hg => ?_⟩
  · obtain ⟨e, he⟩ := ha.1 g hg
    exact ⟨e, Exec.bind_apply_error he⟩
  have hleft := ha.2 g hg
  cases a with
  | refused => trivial
  | torn =>
    obtain ⟨e, g', he, hg'⟩ := hleft
    exact ⟨e, g', Exec.bind_apply_error he, hg'⟩
  | writes c =>
    obtain ⟨l, g', hl, hg'⟩ := hleft
    obtain ⟨e, he⟩ := hb.1 g' hg'
    exact ⟨e, g', by rw [Exec.bind_apply_ok hl, Exec.bind_apply_error he], hg'⟩
  | reads c =>
    obtain ⟨l, hl⟩ := hleft
    obtain ⟨c, rfl⟩ := isSome_iff_exists.mp hak
    have hlc : l.columns = c := (hal ⟨g, []⟩).2.2 l (by rw [hl]) c rfl
    have hright := hb.2 g hg
    cases b with
    | refused => trivial
    | torn =>
      obtain ⟨e, g', he, hg'⟩ := hright
      exact ⟨e, g', by rw [Exec.bind_apply_ok hl, Exec.bind_apply_error he], hg'⟩
    | reads d =>
      obtain ⟨r, hr⟩ := hright
      obtain ⟨d, rfl⟩ := isSome_iff_exists.mp hbk
      have hrc : r.columns = d := (hbr ⟨g, []⟩).2.2 r (by rw [hr]) d rfl
      by_cases hcd : c = d
      · rw [show (reads (some c)).union (reads (some d)) = reads (some c) by
          simp [Shape.union, columnsDiffer, hcd]]
        exact Executors.exists_union hl hr (hlc.trans (hcd.trans hrc.symm))
      · rw [show (reads (some c)).union (reads (some d)) = refused by
          simp [Shape.union, columnsDiffer, hcd]]
        trivial
    | writes d =>
      obtain ⟨r, g', hr, hg'⟩ := hright
      obtain ⟨d, rfl⟩ := isSome_iff_exists.mp hbk
      have hrc : r.columns = d := (hbr ⟨g, []⟩).2 r (by rw [hr]) d rfl
      by_cases hcd : c = d
      · rw [show (reads (some c)).union (writes (some d)) = writes (some c) by
          simp [Shape.union, hcd]]
        obtain ⟨u, hu⟩ := Executors.exists_union hl hr (hlc.trans (hcd.trans hrc.symm))
        exact ⟨u, g', hu, hg'⟩
      · rw [show (reads (some c)).union (writes (some d)) = torn by simp [Shape.union, hcd]]
        -- Both arms succeed, and the columns are compared after the second one committed.
        have hne : l.columns ≠ r.columns := by
          rw [hlc, hrc]
          exact hcd
        refine ⟨X.columnMismatch l.columns r.columns, g', ?_, hg'⟩
        rw [Exec.bind_apply_ok hl, Exec.bind_apply_ok hr]
        simp [Cypher.reads, Executors.unionResult_of_ne hne, Except.mapError]

variable {m : Run QueryResult}

lemma Shape.Tried.last {shape : Shape} (h : shape.Tried m) :
    shape.Tried (m >>= fun r => pure r) := by
  have hm : (m >>= fun r => pure r) = m := by
    funext s
    rw [Exec.bind_apply]
    rcases m s with ⟨_ | r, t⟩ <;> rfl
  rwa [hm]

lemma Shape.Tried.andThen {a b : Shape} {k : QueryResult → Run QueryResult} (ha : a.Tried m)
    (hb : ∀ r, b.Tried (k r)) : (a.andThen b).Tried (m >>= k) := by
  refine ⟨fun g hg => ?_, fun g hg => ?_⟩
  · obtain ⟨e, he⟩ := ha.1 g hg
    exact ⟨e, Exec.bind_apply_error he⟩
  have hfirst := ha.2 g hg
  cases a with
  | refused => trivial
  | torn =>
    obtain ⟨e, g', he, hg'⟩ := hfirst
    exact ⟨e, g', Exec.bind_apply_error he, hg'⟩
  | writes c =>
    obtain ⟨r, g', hr, hg'⟩ := hfirst
    obtain ⟨e, he⟩ := (hb r).1 g' hg'
    exact ⟨e, g', by rw [Exec.bind_apply_ok hr, he], hg'⟩
  | reads c =>
    obtain ⟨r, hr⟩ := hfirst
    rw [Exec.bind_apply_ok hr]
    exact (hb r).2 g hg

/-! ## Every plain statement on trial -/

namespace Executors

variable [TextLib] {display : Expr → String}

variable {c : Option (List String)} {g : Graph}

lemma tried_readQueryIn (params : Params) (q : Query) :
    (Shape.writes c).Tried
      (update false () ((trial display).executeReadQueryIn params q)) := by
  refine Shape.tried_update (fun g hg => ?_) fun g w hg => run_markFresh hg _ _ _ w
  exact (succeeds_markFresh hg _).bind fun _ _ => InTxn.succeeds_pure trivial

lemma tried_clauseOnly {p : Graph → Unit → Prog (Unit × Unit)}
    (hp : ∀ g o, p g o = markFresh g ((), ())) :
    (Shape.writes c).Tried (update false () fun g => (trial display).clauseOnly (p g)) := by
  obtain rfl : p = fun g _ => markFresh g ((), ()) := funext fun g => funext (hp g)
  refine Shape.tried_update (fun g hg => ?_) fun g w hg => run_markFresh hg _ _ _ w
  exact (succeeds_markFresh hg _).bind fun _ _ => InTxn.succeeds_pure trivial

lemma succeeds_createPatterns (hg : Graph.isFresh g = true) (params : Params)
    (patterns : List Pattern) (bindings : PathMap) :
    InTxn.Succeeds patterns.length (fun _ => True)
      ((trial display).createPatterns params g patterns bindings) := by
  induction patterns generalizing bindings with
  | nil => exact InTxn.succeeds_pure trivial
  | cons pattern patterns ih =>
    rw [length_cons, Nat.add_comm]
    exact (succeeds_markFresh hg _).bind fun created _ => ih _

lemma succeeds_createPaths (hg : Graph.isFresh g = true) (params : Params)
    (patterns : List Pattern) (bindings : PathMap) :
    InTxn.Succeeds patterns.length (fun _ => True)
      ((trial display).createPaths params g patterns bindings) := by
  induction patterns generalizing bindings with
  | nil => exact InTxn.succeeds_pure trivial
  | cons pattern patterns ih =>
    rw [length_cons, Nat.add_comm]
    refine (succeeds_markFresh hg _).bind fun created _ => ?_
    rw [← Nat.zero_add patterns.length]
    exact (InTxn.succeeds_check (P := fun _ => True) fun o => ⟨_, rfl, trivial⟩).bind
      fun bindings _ => ih bindings

lemma executeCreateIn_stale (params : Params) {c : CreateStatement} (h : c.patterns ≠ [])
    (bindings : PathMap) (hg : Graph.isFresh g = false) :
    (trial display).executeCreateIn false params bindings c ⟨g, []⟩ =
      (.error (.failed alreadyWritten), ⟨g, []⟩) := by
  obtain ⟨pattern, patterns, hp⟩ := exists_cons_of_ne_nil h
  apply InTxn.update_failed
  rw [hp]
  exact congrArg _ (run_markFresh hg _ _ _ _)

variable (display) in
lemma executeCreateIn_fresh (params : Params) {c : CreateStatement} (h : c.patterns ≠ [])
    (bindings : PathMap) (hg : Graph.isFresh g = true) :
    ∃ row g', (trial display).executeCreateIn false params bindings c ⟨g, []⟩ =
      (.ok row, ⟨g', []⟩) ∧ Graph.isFresh g' = false := by
  have hlength : 1 ≤ c.patterns.length := length_pos_of_ne_nil h
  obtain ⟨row, g', hrun, hlt, -⟩ :=
    ((succeeds_createPatterns hg params c.patterns bindings).mono hlength).update
      (m := fun g => (trial display).createPatterns params g c.patterns bindings) ()
  exact ⟨row, g', hrun, Graph.isFresh_of_lt hg hlt⟩

lemma succeeds_executeCreateAndReturnBody (hg : Graph.isFresh g = true) (params : Params)
    (c : CreateAndReturnStatement) :
    InTxn.Succeeds (c.patterns.length + (0 + 0)) (fun _ => True)
      ((trial display).executeCreateAndReturnBody params c g) := by
  refine (succeeds_createPaths hg params c.patterns .empty).bind fun row _ => ?_
  exact (InTxn.succeeds_check (P := fun _ => True) fun o => ⟨_, rfl, trivial⟩).bind
    fun records _ => InTxn.succeeds_pure trivial

lemma tried_createAndReturn (params : Params) {s : CreateAndReturnStatement} (h : s.patterns ≠ []) :
    (Shape.writes c).Tried
      (update false () ((trial display).executeCreateAndReturnBody params s)) := by
  obtain ⟨pattern, patterns, hp⟩ := exists_cons_of_ne_nil h
  refine Shape.tried_update (fun g hg => ?_) fun g w hg => ?_
  · exact (succeeds_executeCreateAndReturnBody hg params s).mono (by simp [hp])
  · apply InTxn.run_bind_error
    rw [hp]
    exact run_markFresh hg _ _ _ w

/-- A copy commits its rows and then fails to rebuild the caches. -/
theorem tried_copy (params : Params) (c : CopyStatement) :
    Shape.torn.Tried ((trial display).executeCopy false params c) := by
  refine ⟨fun g hg => ⟨alreadyWritten, ?_⟩, fun g hg => ?_⟩
  · apply Exec.bind_apply_error
    simp [reads, trial, onFresh, hg, Except.mapError]
  · have hrows : reads (fun g => (trial display).copyRows g params c) ⟨g, []⟩ =
        (.ok ("", some (markFresh g 0)), ⟨g, []⟩) := by
      simp [reads, trial, onFresh, hg, Except.mapError]
    have hload : ∃ g', transaction false (fun commit g' => Graph.update commit (markFresh g 0) g')
        ⟨g, []⟩ = (.ok 0, ⟨g', []⟩) ∧ g.writeGen < g'.writeGen := by
      simp only [transaction, Graph.update, markFresh, hg, if_true, Prog.run, TxnOp.exec,
        WriteTxn.mutate, WriteTxn.begin, Bool.false_eq_true, if_false]
      exact ⟨_, rfl, Nat.lt_succ_self _⟩
    obtain ⟨g', hload, hlt⟩ := hload
    have hg' := Graph.isFresh_of_lt hg hlt
    refine ⟨alreadyWritten, g', ?_, hg'⟩
    rw [executeCopy, Exec.bind_apply_ok hrows]
    refine (Exec.bind_apply_ok hload).trans (Exec.bind_apply_error ?_)
    simp [reads, trial, onFresh, hg', Except.mapError]

lemma tried_import (params : Params) (i : ImportDatabaseStatement) :
    Shape.torn.Tried ((trial display).importDb none params i) := by
  refine ⟨fun g hg => ⟨alreadyWritten, ?_⟩, fun g hg => ?_⟩
  · apply Exec.bind_apply_error
    apply InTxn.update_failed
    unfold InTxn.clause markFresh
    rw [if_neg (by simp [hg])]
    rfl
  · obtain ⟨u, g', hrun, hlt, -⟩ := (succeeds_markFresh hg ()).update
      (m := fun g => InTxn.clause fun _ => markFresh g ((), ())) ()
    exact ⟨alreadyWritten, g', Exec.bind_apply_ok hrun, Graph.isFresh_of_lt hg hlt⟩

omit [TextLib] in
lemma isCall_of_plain {q : Query} (h : (Statement.query q).plain display) :
    q.parts.any QueryPart.isCall = false := by
  rw [Statement.plain, queryColumns] at h
  split at h
  · cases h
  · rename_i hcall
    simpa using hcall

/-- A query without calls is one transaction if it writes, and a read if it does not. -/
theorem executeStatement_query (X : Executors) {o : Option X.Overlay} {params : Params} {q : Query}
    (h : q.parts.any QueryPart.isCall = false) :
    X.executeStatement o params (.query q) =
      if queryHasWriteParts q then update o.isSome X.install (X.executeReadQueryIn params q)
      else reads (X.executeReadQuery o params q) := by
  funext s
  apply Exec.bind_apply_ok
  simp [reads, X.resolved_of_not_isCall h, Except.mapError]

/-- **Plain statements on trial.** A plain statement opens the transactions its shape names. -/
theorem tried_executeStatement (params : Params) :
    {s : Statement} → s.plain display →
      (s.shape display).Tried ((trial display).executeStatement none params s)
  | .query q, h => by
    rw [(trial display).executeStatement_query (isCall_of_plain h), Statement.shape]
    split
    · exact tried_readQueryIn params q
    · refine Shape.tried_reads (r := (trial display).tabulate q ⟨[], []⟩) fun g => ?_
      by_cases hg : Graph.isFresh g = true <;> simp [executeReadQuery, trial, onFresh, hg] <;> rfl
  | .create c, h => by
    have hpatterns : c.patterns ≠ [] := by simpa [Statement.plain] using h
    refine ⟨fun g hg => ⟨alreadyWritten, ?_⟩, fun g hg => ?_⟩
    · exact Exec.bind_apply_error (executeCreateIn_stale params hpatterns .empty hg)
    · obtain ⟨row, g', hrun, hg'⟩ :=
        executeCreateIn_fresh display params hpatterns .empty hg
      exact ⟨.empty, g', Exec.bind_apply_ok hrun, hg'⟩
  | .createAndReturn c, h => tried_createAndReturn params (by simpa [Statement.plain] using h)
  | .set s, _ => tried_clauseOnly fun _ _ => rfl
  | .delete d, _ => tried_clauseOnly fun _ _ => rfl
  | .merge m, _ => tried_clauseOnly fun _ _ => rfl
  | .remove r, _ => tried_clauseOnly fun _ _ => rfl
  | .setAndReturn s, _ => tried_readQueryIn params s.toQuery
  | .deleteAndReturn d, _ => tried_readQueryIn params d.toQuery
  | .mergeAndReturn m, _ => tried_readQueryIn params m.toQuery
  | .removeAndReturn r, _ => tried_readQueryIn params r.toQuery
  | .copy c, _ => tried_copy params c
  | .importDatabase i, _ => tried_import params i
  | .exportDatabase e, _ => by
    refine ⟨fun g hg => ⟨alreadyWritten, ?_⟩,
      fun g hg => ⟨⟨["exported"], [[.bool true]], 1⟩, ?_⟩⟩
    · apply Exec.bind_apply_error
      simp [reads, trial, onFresh, hg, Except.mapError]
    · apply Exec.bind_apply_ok (a := ())
      simp [reads, trial, onFresh, hg, Except.mapError]
  | .union left right all, h => by
    obtain ⟨hl, hr⟩ := Bool.and_eq_true .. ▸ h
    rw [Statement.shape, executeStatement]
    split
    · rename_i hmixed
      refine ⟨fun g _ => ⟨mixedUnion, ?_⟩, fun _ _ => trivial⟩
      unfold executeUnion
      rw [hmixed]
      rfl
    · rename_i hmixed
      exact Shape.Tried.union (by simpa using hmixed) (tried_executeStatement params hl)
        (tried_executeStatement params hr) ((trial display).executeStatement_shape none params left)
        ((trial display).executeStatement_shape none params right) (Statement.known_shape hl)
        (Statement.known_shape hr)

lemma tried_executeEach (params : Params) (s : Statement) (stmts : List Statement)
    (h : (s :: stmts).all (Statement.plain display)) (bindings : PathMap) (last : QueryResult) :
    (Statement.eachShape display (s :: stmts)).Tried
      ((trial display).executeEach none params (s :: stmts) bindings last) := by
  induction stmts generalizing s bindings last with
  | nil =>
    have hs : s.plain display := by simpa using h
    by_cases hcreate : ∃ c, s = .create c
    · obtain ⟨c, rfl⟩ := hcreate
      have hpatterns : c.patterns ≠ [] := by simpa [Statement.plain] using hs
      refine ⟨fun g hg => ⟨alreadyWritten, ?_⟩, fun g hg => ?_⟩
      · exact Exec.bind_apply_error (executeCreateIn_stale params hpatterns bindings hg)
      · obtain ⟨row, g', hrun, hg'⟩ :=
          executeCreateIn_fresh display params hpatterns bindings hg
        exact ⟨.empty, g', Exec.bind_apply_ok hrun, hg'⟩
    · rw [(trial display).executeEach_cons hcreate]
      exact (tried_executeStatement params hs).last
  | cons t stmts ih =>
    obtain ⟨hs, hrest⟩ : s.plain display ∧ (t :: stmts).all (Statement.plain display) := by
      simpa using h
    show ((s.shape display).andThen (Statement.eachShape display (t :: stmts))).Tried _
    by_cases hcreate : ∃ c, s = .create c
    · obtain ⟨c, rfl⟩ := hcreate
      have hpatterns : c.patterns ≠ [] := by simpa [Statement.plain] using hs
      refine ⟨fun g hg => ⟨alreadyWritten, ?_⟩, fun g hg => ?_⟩
      · exact Exec.bind_apply_error (executeCreateIn_stale params hpatterns bindings hg)
      · obtain ⟨row, g', hrun, hg'⟩ :=
          executeCreateIn_fresh display params hpatterns bindings hg
        obtain ⟨e, he⟩ := (ih t hrest row .empty).1 g' hg'
        exact ⟨e, g', (Exec.bind_apply_ok hrun).trans he, hg'⟩
    · rw [(trial display).executeEach_cons hcreate]
      exact (tried_executeStatement params hs).andThen fun r => ih t hrest bindings r

lemma torn_of_plainPipeline (params : Params) {s : Statement} (h : s.plainPipeline display)
    (htorn : s.shape display = .torn) :
    ∃ e g', (trial display).executeStatement none params s ⟨.empty, []⟩ =
      (.error (.failed e), ⟨g', []⟩) ∧ Graph.isFresh g' = false := by
  by_cases hpipeline : ∃ stmts, s = .pipeline stmts
  · obtain ⟨stmts, rfl⟩ := hpipeline
    rw [Statement.shape] at htorn
    split at htorn
    · cases htorn
    · rename_i hatomic
      have heach : Statement.eachShape display stmts = .torn := by
        cases hshape : Statement.eachShape display stmts <;> rw [hshape] at htorn <;> cases htorn
      rcases stmts with _ | ⟨s, stmts⟩
      · cases heach
      · obtain ⟨e, g', hrun, hg'⟩ : ∃ e g', _ := heach ▸
          (tried_executeEach params s stmts h .empty .empty).2 .empty rfl
        refine ⟨e, g', ?_, hg'⟩
        rw [executeStatement, if_neg hatomic]
        exact Exec.bind_apply_error hrun
  · have hs : s.plain display := by
      cases s with
      | pipeline stmts => exact absurd ⟨stmts, rfl⟩ hpipeline
      | _ => exact h
    have := (tried_executeStatement params hs).2 .empty rfl
    rw [htorn] at this
    exact this

end Executors

/-! ## All or nothing -/

lemma Shape.Holds.allOrNothing {shape : Shape} (h : shape.Holds m) (hshape : shape ≠ .torn) :
    AllOrNothing m := by
  cases shape with
  | torn => exact absurd rfl hshape
  | refused => exact fun s _ _ => (h s).1
  | reads c => exact fun s _ _ => (h s).1
  | writes c => exact fun s => (h s).1

/-- **All or nothing.** A statement whose shape is not torn leaves the graph as it was whenever it
fails, whatever its clauses compute. A plain statement whose shape is torn does not: some clauses
make it fail after a commit. -/
theorem executeStatement_allOrNothing [TextLib] (display : Expr → String) (s : Statement) :
    (s.shape display ≠ .torn → ∀ X : Executors, X.exprDisplayName = display →
      ∀ params, AllOrNothing (X.executeStatement none params s)) ∧
    (s.plainPipeline display → s.shape display = .torn →
      ∃ X : Executors, X.exprDisplayName = display ∧
        ∀ params, ¬AllOrNothing (X.executeStatement none params s)) := by
  constructor
  · rintro hshape X rfl params
    exact (X.executeStatement_shape none params s).allOrNothing hshape
  · intro hplain htorn
    refine ⟨.trial display, rfl, fun params hall => ?_⟩
    obtain ⟨e, g', hrun, hg'⟩ := Executors.torn_of_plainPipeline params hplain htorn
    have hgraph := hall ⟨.empty, []⟩ (.failed e) (by rw [hrun])
    rw [hrun] at hgraph
    obtain rfl : g' = Graph.empty := hgraph
    cases hg'

/-! A union that commits its left arm and then compares the columns. -/

def literalValue : Expr → Json
  | .literal (.int i) => Executors.countValue i.toNatClampNeg
  | _ => .null

/-- The clauses on patterns of one node without properties, and projections of literals. -/
def Executors.literals [TextLib] : Executors where
  Overlay := Unit
  install := ()
  debugColumns := toString
  exprDisplayName _ := ""
  canonicalRowKey _ := ""
  evaluateExpr _ _ _ e := .ok (literalValue e)
  resolveCall _ _ _ _ _ _ _ _ _ := .error mixedUnion
  readRows _ _ _ q := .ok ⟨[], [q.returnClause.items.map fun item => literalValue item.expr]⟩
  writeRows _ _ q _ :=
    .done (.ok (⟨[], [q.returnClause.items.map fun item => literalValue item.expr]⟩, ()))
  createPattern _ _ _ p _ :=
    .call (.mutation (.addNodeMulti p.node.labels ⟨.object [], Json.wellFormed_empty⟩)) fun
    | .ok n => .done (.ok (p.node.var.elim .empty fun v => Table.empty.put v (.node n), ()))
    | .error e => .done (.error e)
  bindWrittenPath _ row _ _ := .ok row
  createdRecords _ _ _ c _ := .ok [c.returnClause.items.map fun item => literalValue item.expr]
  setIn _ _ _ _ := .done (.ok ((), ()))
  deleteIn _ _ _ _ := .done (.ok ((), ()))
  mergeIn _ _ _ _ := .done (.ok ((), ()))
  removeIn _ _ _ _ := .done (.ok ((), ()))
  copyRows _ _ _ := .error mixedUnion
  refreshCaches _ := .ok ()
  exportDb _ _ _ := .ok ()
  importDb _ _ _ := pure .empty

/-- The projection of an integer under a name. -/
def returnInt (i : Int64) (name : String) : ReturnClause :=
  ⟨[⟨.literal (.int i), some name, none⟩], false⟩

/-- `(v:label)`. -/
def labelledNode (v label : String) : Pattern := ⟨⟨some v, [label], none⟩, [], none⟩

/-- `CREATE (a:A) RETURN 1 AS x UNION RETURN 2 AS y`. -/
def mismatchedUnion : Statement :=
  .union (.createAndReturn ⟨⟨[labelledNode "a" "A"]⟩, ⟨returnInt 1 "x", none, none, none⟩⟩)
    (.query ⟨[], none, returnInt 2 "y", [], none, none, none⟩) false

section Example

attribute [local instance] TextLib.ascii

/-- The union is refused, and its left arm stays. -/
theorem mismatchedUnion_commits :
    (Executors.literals.executeStatement none .empty mismatchedUnion ⟨.empty, []⟩).1 =
        .error (.failed (Executors.literals.columnMismatch ["x"] ["y"])) ∧
      (Executors.literals.executeStatement none .empty mismatchedUnion ⟨.empty, []⟩).2.graph ≠
        Graph.empty := by
  constructor
  · rfl
  · intro h
    have hgen := congrArg Graph.writeGen h
    revert hgen
    decide

end Example

end IssunDB.Cypher
