import IssunDB.Cypher.Statements

/-!
# The transactions of a statement

What the text of a statement says about the transactions it opens.

* `Shape` — a statement is refused before it writes, or only reads, or writes all or nothing, or can
  fail after it committed (`torn`); with the columns of its result where the text fixes them.
* `executeStatement_shape` — every run of a statement is as its shape says, whatever its clauses
  compute.
-/

namespace IssunDB.Cypher

open Option

/-! ## Closures -/

/-- Every value a closure can return satisfies `P`. -/
def Prog.Yields {α : Type} (P : α → Prop) : Prog α → Prop
  | .done (.ok a) => P a
  | .done (.error _) => True
  | .call _ next => ∀ r, Prog.Yields P (next r)

lemma Prog.Yields.run [TextLib] {α : Type} {P : α → Prop} {p : Prog α} (h : Prog.Yields P p)
    {w : WriteTxn} {a : α} (ha : (p.run w).1 = .ok a) : P a := by
  induction p generalizing w with
  | done result =>
    cases ha
    exact h
  | call op next ih => exact ih _ (h _) ha

lemma Prog.Yields.bind {α β : Type} {P : α → Prop} {Q : β → Prop} {p : Prog α} {f : α → Prog β}
    (h : Prog.Yields P p) (hf : ∀ a, P a → Prog.Yields Q (f a)) :
    Prog.Yields Q (Prog.bind p f) := by
  induction p with
  | done result =>
    rcases result with e | a
    · trivial
    · exact hf a h
  | call op next ih => exact fun r => ih r (h r)

lemma Prog.yields_true {α : Type} (p : Prog α) : Prog.Yields (fun _ => True) p := by
  induction p with
  | done result => cases result <;> trivial
  | call op next ih => exact ih

namespace InTxn

variable {O α β : Type} {P : α → Prop} {Q : β → Prop}

/-- The computation asks for no other transaction, and its values satisfy `P`. -/
def Returns (P : α → Prop) (m : InTxn O α) : Prop :=
  ∀ o, Prog.Yields (fun r => ∃ a o', r = some (a, o') ∧ P a) (m o)

lemma returns_pure {a : α} (h : P a) : Returns P (pure a : InTxn O α) := fun o => ⟨a, o, rfl, h⟩

lemma Returns.bind {m : InTxn O α} {f : α → InTxn O β} (h : Returns P m)
    (hf : ∀ a, P a → Returns Q (f a)) : Returns Q (m >>= f) := by
  intro o
  apply Prog.Yields.bind (h o)
  rintro _ ⟨a, o', rfl, ha⟩
  exact hf a ha o'

lemma returns_clause (p : O → Prog (α × O)) : Returns (fun _ => True) (clause p) := by
  intro o
  apply Prog.Yields.bind (Prog.yields_true _)
  rintro ⟨a, o'⟩ -
  exact ⟨a, o', rfl, trivial⟩

lemma returns_check {f : O → Except Error α} (h : ∀ o a, f o = .ok a → P a) :
    Returns P (check f) := by
  intro o
  unfold check
  split
  · rename_i a ha
    exact ⟨a, o, rfl, h o a ha⟩
  · trivial

lemma returns_forM {γ : Type} {f : γ → InTxn O PUnit} (l : List γ)
    (h : ∀ c ∈ l, Returns (fun _ => True) (f c)) : Returns (fun _ => True) (l.forM f) := by
  induction l with
  | nil => exact returns_pure trivial
  | cons c l ih =>
    refine Returns.bind (h c (by simp)) fun _ _ => ?_
    exact ih fun d hd => h d (by simp [hd])

lemma Returns.blocks [TextLib] {m : InTxn O α} (h : Returns P m) (o : O) (g : Graph) :
    m.blocks o g = false := by
  unfold InTxn.blocks
  split
  · rename_i hr
    obtain ⟨a, o', hsome, -⟩ := (h o).run hr
    cases hsome
  · rfl

end InTxn

/-! ## Clauses ask for no other transaction -/

namespace Executors

variable (X : Executors)

lemma returns_executeReadQueryIn (params : Params) (q : Query) (g : Graph) :
    InTxn.Returns (fun r => ∃ rows, r = X.tabulate q rows) (X.executeReadQueryIn params q g) :=
  (InTxn.returns_clause _).bind fun rows _ => InTxn.returns_pure ⟨rows, rfl⟩

lemma returns_createPatterns (params : Params) (g : Graph) (patterns : List Pattern)
    (bindings : PathMap) :
    InTxn.Returns (fun _ => True) (X.createPatterns params g patterns bindings) := by
  induction patterns generalizing bindings with
  | nil => exact InTxn.returns_pure trivial
  | cons pattern patterns ih => exact (InTxn.returns_clause _).bind fun created _ => ih _

lemma returns_createPaths (params : Params) (g : Graph) (patterns : List Pattern)
    (bindings : PathMap) :
    InTxn.Returns (fun _ => True) (X.createPaths params g patterns bindings) := by
  induction patterns generalizing bindings with
  | nil => exact InTxn.returns_pure trivial
  | cons pattern patterns ih =>
    refine (InTxn.returns_clause _).bind fun created _ => ?_
    exact (InTxn.returns_check fun _ _ _ => trivial).bind fun bindings _ => ih _

lemma returns_executeCreateAndReturnBody (params : Params) (c : CreateAndReturnStatement)
    (g : Graph) :
    InTxn.Returns
      (fun r => r.columns = c.returnClause.items.map (columnName X.exprDisplayName))
      (X.executeCreateAndReturnBody params c g) := by
  refine (X.returns_createPaths params g c.patterns .empty).bind fun bindings _ => ?_
  exact (InTxn.returns_check fun _ _ _ => trivial).bind fun records _ => InTxn.returns_pure rfl

lemma returns_clauseOnly (p : X.Overlay → Prog (Unit × X.Overlay)) :
    InTxn.Returns (fun r => r.columns = []) (X.clauseOnly p) :=
  (InTxn.returns_clause p).bind fun _ _ => InTxn.returns_pure rfl

mutual

/-- A loop works on the transaction it is given, at every depth. -/
theorem returns_executeForeachTxn (params : Params) (v : String) (list : Expr)
    (body : List Statement) (g : Graph) :
    InTxn.Returns (fun r => r.columns = []) (X.executeForeachTxn params v list body g) := by
  rw [executeForeachTxn]
  refine (InTxn.returns_check fun _ _ _ => trivial).bind fun value _ => ?_
  refine InTxn.Returns.bind (InTxn.returns_forM _ fun element _ => ?_)
    fun _ _ => InTxn.returns_pure rfl
  exact InTxn.returns_forM _ fun s _ => returns_executeForeachBody _ s.1 g
termination_by (Statement.loopDepths body + 1, 0)
decreasing_by
  have h := Statement.loopDepth_le_loopDepths s.2
  rw [loopDepths_substLoopVarStmts] at h
  exact Prod.Lex.left _ _ (by omega)

theorem returns_executeForeachBody (params : Params) (s : Statement) (g : Graph) :
    InTxn.Returns (fun _ => True) (X.executeForeachBody params s g) := by
  cases s with
  | create c =>
    rw [executeForeachBody]
    exact InTxn.returns_forM _ fun pattern _ =>
      (InTxn.returns_clause _).bind fun _ _ => InTxn.returns_pure trivial
  | foreach v list body =>
    rw [executeForeachBody]
    exact (returns_executeForeachTxn params v list body g).bind
      fun _ _ => InTxn.returns_pure trivial
  | query q =>
    rw [executeForeachBody]
    split
    · exact (X.returns_executeReadQueryIn params q g).bind fun _ _ => InTxn.returns_pure trivial
    · exact InTxn.returns_check fun _ _ _ => trivial
  | set _ | delete _ | merge _ | remove _ =>
    rw [executeForeachBody]
    exact (InTxn.returns_clause _).bind fun _ _ => InTxn.returns_pure trivial
  | _ =>
    rw [executeForeachBody]
    · exact InTxn.returns_check fun _ _ _ => trivial
    all_goals simp
termination_by (s.loopDepth, 1)
decreasing_by all_goals exact Prod.Lex.right _ (by omega)

end

end Executors

/-! ## Transactions on the graph handle -/

section Sessions

variable [TextLib] {α : Type}

variable {commit : Except Error Unit} {g : Graph} {e : Error}

/-- A failed update leaves the graph as it was. -/
theorem update_error {p : Prog α} (h : (g.update commit p).1 = .error e) :
    (g.update commit p).2 = g := by
  unfold Graph.update at h ⊢
  split
  · rfl
  · rename_i a w hrun
    rw [hrun] at h
    dsimp only at h ⊢
    split
    · rfl
    · rename_i hw
      rw [if_neg hw] at h
      split
      · rfl
      · rename_i g' hcommit
        simp [hcommit] at h

lemma update_ok {p : Prog α} {a : α} (h : (g.update commit p).1 = .ok a) :
    (p.run (.begin g.storage)).1 = .ok a := by
  unfold Graph.update at h
  split at h
  · cases h
  · rename_i b w hrun
    rw [hrun]
    split at h
    · cases h
    · split at h
      · cases h
      · exact h

/-- A failed mutation leaves the graph as it was. -/
theorem autoCommit_error {m : Mutation} (h : (g.autoCommit commit m).1 = .error e) :
    (g.autoCommit commit m).2 = g := by
  unfold Graph.autoCommit at h ⊢
  split
  · rfl
  · rename_i r t hexec
    rw [hexec] at h
    dsimp only at h ⊢
    split
    · rename_i hchange
      rw [hchange] at h
      rcases commit with e | u
      · rfl
      · cases h
    · rename_i change hchange
      rw [hchange] at h
      dsimp only at h ⊢
      split
      · rfl
      · rename_i g' hcommit
        simp [hcommit] at h

omit [TextLib] in
lemma schemaChange_error {d : Graph.Ddl} (h : (g.schemaChange commit d).1 = .error e) :
    (g.schemaChange commit d).2 = g := by
  unfold Graph.schemaChange at h ⊢
  split
  · rfl
  · rename_i u s hexec
    rw [hexec] at h
    rcases commit with e | u
    · rfl
    · cases h

/-- A failed write operation leaves the graph as it was. -/
theorem perform_error {action : Graph.Action} (h : (g.perform action).1 = .error e) :
    (g.perform action).2 = g := by
  cases action with
  | mutation m commit =>
    unfold Graph.perform at h ⊢
    rcases hm : (g.autoCommit commit m).1 with e' | r
    · exact autoCommit_error hm
    · simp [hm, Except.map] at h
  | ddl d commit => exact schemaChange_error h
  | update p commit => exact update_error h

end Sessions

/-! ## Shapes -/

/-- What the text of a statement says about its runs, with the columns of the result where the text
fixes them. -/
inductive Shape where
  /-- It always fails, and writes nothing. -/
  | refused
  /-- It writes nothing. -/
  | reads (columns : Option (List String))
  /-- It may write, and writes nothing when it fails. -/
  | writes (columns : Option (List String))
  /-- It may fail after it wrote. -/
  | torn
  deriving DecidableEq

namespace Shape

/-- The two results are known to have different columns. -/
def columnsDiffer : Option (List String) → Option (List String) → Bool
  | some c, some d => c ≠ d
  | _, _ => false

/-- The shape of a union, which checks the columns after both arms ran. -/
def union : Shape → Shape → Shape
  | refused, _ => refused
  | torn, _ => torn
  | writes _, _ => torn
  | reads _, refused => refused
  | reads _, torn => torn
  | reads c, reads d => if columnsDiffer c d then refused else reads (c <|> d)
  | reads c, writes d => if c = d ∧ c.isSome then writes c else torn

/-- The shape without its columns. -/
def forget : Shape → Shape
  | refused => refused
  | reads _ => reads none
  | writes _ => writes none
  | torn => torn

@[simp]
lemma forget_forget (shape : Shape) : shape.forget.forget = shape.forget := by
  cases shape <;> rfl

/-- The shape of two statements that run one after the other. -/
def andThen : Shape → Shape → Shape
  | refused, _ => refused
  | torn, _ => torn
  | writes _, _ => torn
  | reads _, s => s

/-- The runs `m` of a statement are as the shape says. -/
def Holds (shape : Shape) (m : Run QueryResult) : Prop :=
  match shape with
  | refused => ∀ s, (m s).2.graph = s.graph ∧ ∃ e, (m s).1 = .error (.failed e)
  | reads c => ∀ s, (m s).2.graph = s.graph ∧ (m s).1 ≠ .error .blocked ∧
      ∀ r, (m s).1 = .ok r → ∀ columns ∈ c, r.columns = columns
  | writes c => ∀ s, (∀ e, (m s).1 = .error e → (m s).2.graph = s.graph) ∧
      ∀ r, (m s).1 = .ok r → ∀ columns ∈ c, r.columns = columns
  | torn => True

end Shape

namespace Executors

variable {X : Executors} {all : Bool} {left right : Statement} {l r u : QueryResult}

lemma unionResult_of_ne (h : l.columns ≠ r.columns) :
    X.unionResult all l r = .error (X.columnMismatch l.columns r.columns) := by
  rw [unionResult, if_neg h]

lemma unionResult_of_eq (h : l.columns = r.columns) :
    ∃ u, X.unionResult all l r = .ok u ∧ u.columns = l.columns := by
  rw [unionResult, if_pos h]
  exact ⟨_, rfl, rfl⟩

/-- Arms that succeed with the same columns make a union that succeeds. -/
theorem exists_union {ml mr : Run QueryResult} {s t t' : Session} (hl : ml s = (.ok l, t))
    (hr : mr t = (.ok r, t')) (h : l.columns = r.columns) :
    ∃ u, (ml >>= fun l => mr >>= fun r => reads fun _ => X.unionResult all l r) s =
    (.ok u, t') := by
  obtain ⟨u, hu, -⟩ : ∃ u, X.unionResult all l r = .ok u ∧ u.columns = l.columns :=
    unionResult_of_eq h
  refine ⟨u, ?_⟩
  rw [Exec.bind_apply_ok hl, Exec.bind_apply_ok hr]
  simp [Cypher.reads, hu, Except.mapError]

lemma columns_of_unionResult (h : X.unionResult all l r = .ok u) :
    u.columns = l.columns ∧ u.columns = r.columns := by
  by_cases hc : l.columns = r.columns
  · obtain ⟨u', hu', hcol⟩ : ∃ u, X.unionResult all l r = .ok u ∧ u.columns = l.columns :=
      unionResult_of_eq hc
    rw [hu'] at h
    cases h
    exact ⟨hcol, hcol.trans hc⟩
  · rw [unionResult_of_ne hc] at h
    cases h

lemma executeUnion_of_not_mixed (hmixed : unionHasMixedAll all left right = false)
    (ml mr : Run QueryResult) :
    X.executeUnion all left right ml mr =
      ml >>= fun l => mr >>= fun r => reads fun _ => X.unionResult all l r := by
  unfold executeUnion
  rw [hmixed]
  rfl

/-- The runs of a union that is not refused, by how its arms end. -/
theorem executeUnion_cases (hmixed : unionHasMixedAll all left right = false)
    (ml mr : Run QueryResult) (s : Session) :
    (∃ e, (ml s).1 = .error e ∧
      X.executeUnion all left right ml mr s = (.error e, (ml s).2)) ∨
    (∃ l e, (ml s).1 = .ok l ∧ (mr (ml s).2).1 = .error e ∧
      X.executeUnion all left right ml mr s = (.error e, (mr (ml s).2).2)) ∨
    (∃ l r, (ml s).1 = .ok l ∧ (mr (ml s).2).1 = .ok r ∧
      X.executeUnion all left right ml mr s =
        ((X.unionResult all l r).mapError .failed, (mr (ml s).2).2)) := by
  rw [executeUnion_of_not_mixed hmixed]
  rcases hl : ml s with ⟨e | l, s₁⟩
  · exact .inl ⟨e, rfl, Exec.bind_apply_error hl⟩
  rcases hr : mr s₁ with ⟨e | r, s₂⟩
  · refine .inr (.inl ⟨l, e, rfl, rfl, ?_⟩)
    rw [Exec.bind_apply_ok hl, Exec.bind_apply_error hr]
  · refine .inr (.inr ⟨l, r, rfl, rfl, ?_⟩)
    rw [Exec.bind_apply_ok hl, Exec.bind_apply_ok hr]
    rfl

end Executors

namespace Shape

lemma Holds.union {X : Executors} {a b : Shape} {ml mr : Run QueryResult} {all : Bool}
    {left right : Statement} (hmixed : unionHasMixedAll all left right = false) (ha : a.Holds ml)
    (hb : b.Holds mr) : (a.union b).Holds (X.executeUnion all left right ml mr) := by
  cases a with
  | torn => trivial
  | writes c => trivial
  | refused =>
    intro s
    obtain ⟨hg, e, he⟩ := ha s
    rcases X.executeUnion_cases hmixed ml mr s with ⟨e', he', h⟩ | ⟨l, e', hl, -⟩ | ⟨l, r, hl, -⟩
    · rw [h]
      exact ⟨hg, e, by rw [← he', he]⟩
    · rw [he] at hl
      cases hl
    · rw [he] at hl
      cases hl
  | reads c =>
    cases b with
    | torn => trivial
    | refused =>
      intro s
      obtain ⟨hg, hblock, -⟩ := ha s
      obtain ⟨hg', e, he⟩ := hb (ml s).2
      rcases X.executeUnion_cases hmixed ml mr s with ⟨e', he', h⟩ | ⟨l, e', hl, hr, h⟩ |
        ⟨l, r, hl, hr, h⟩
      · rw [h]
        rcases e' with e' | _
        · exact ⟨hg, e', rfl⟩
        · exact absurd he' hblock
      · rw [h]
        exact ⟨hg'.trans hg, e, by rw [← hr, he]⟩
      · rw [he] at hr
        cases hr
    | reads d =>
      rw [Shape.union]
      -- Nothing is written, whatever the arms do.
      have hgraph : ∀ s, (X.executeUnion all left right ml mr s).2.graph = s.graph ∧
          (X.executeUnion all left right ml mr s).1 ≠ .error .blocked := by
        intro s
        obtain ⟨hg, hblock, -⟩ := ha s
        obtain ⟨hg', hblock', -⟩ := hb (ml s).2
        rcases X.executeUnion_cases hmixed ml mr s with ⟨e', he', h⟩ | ⟨l, e', hl, hr, h⟩ |
          ⟨l, r, hl, hr, h⟩
        · rw [h]
          exact ⟨hg, by rwa [← he']⟩
        · rw [h]
          exact ⟨hg'.trans hg, by rwa [← hr]⟩
        · rw [h]
          refine ⟨hg'.trans hg, ?_⟩
          rcases X.unionResult all l r with e | u <;> simp [Except.mapError]
      -- A result has the columns of both arms.
      have hcolumns : ∀ s u, (X.executeUnion all left right ml mr s).1 = .ok u →
          (∀ columns ∈ c, u.columns = columns) ∧ ∀ columns ∈ d, u.columns = columns := by
        intro s u hu
        rcases X.executeUnion_cases hmixed ml mr s with ⟨e', he', h⟩ | ⟨l, e', hl, hr, h⟩ |
          ⟨l, r, hl, hr, h⟩
        · rw [h] at hu
          cases hu
        · rw [h] at hu
          cases hu
        · rw [h] at hu
          rcases hres : X.unionResult all l r with e | u'
          · rw [hres] at hu
            cases hu
          · rw [hres] at hu
            cases hu
            obtain ⟨hul, hur⟩ := Executors.columns_of_unionResult hres
            exact ⟨fun columns hc => hul.trans ((ha s).2.2 l hl columns hc),
              fun columns hd => hur.trans ((hb _).2.2 r hr columns hd)⟩
      split
      · rename_i hdiffer
        intro s
        refine ⟨(hgraph s).1, ?_⟩
        rcases hrun : (X.executeUnion all left right ml mr s).1 with (e | _) | u
        · exact ⟨e, rfl⟩
        · exact absurd hrun (hgraph s).2
        · obtain ⟨hc, hd⟩ := hcolumns s u hrun
          rcases c with _ | c <;> rcases d with _ | d <;> simp [columnsDiffer] at hdiffer
          exact absurd ((hc c rfl).symm.trans (hd d rfl)) hdiffer
      · intro s
        refine ⟨(hgraph s).1, (hgraph s).2, fun u hu columns hmem => ?_⟩
        obtain ⟨hc, hd⟩ := hcolumns s u hu
        rcases c with _ | c
        · exact hd columns (by simpa using hmem)
        · exact hc columns (by simpa using hmem)
    | writes d =>
      rw [Shape.union]
      split
      · rename_i heq
        obtain ⟨rfl, hsome⟩ := heq
        obtain ⟨columns, rfl⟩ := isSome_iff_exists.mp hsome
        intro s
        obtain ⟨hg, -, hcl⟩ := ha s
        obtain ⟨hg', hcr⟩ := hb (ml s).2
        rcases X.executeUnion_cases hmixed ml mr s with ⟨e', he', h⟩ | ⟨l, e', hl, hr, h⟩ |
          ⟨l, r, hl, hr, h⟩
        · rw [h]
          exact ⟨fun _ _ => hg, fun u hu => by cases hu⟩
        · rw [h]
          exact ⟨fun _ _ => (hg' e' hr).trans hg, fun u hu => by cases hu⟩
        · -- Both arms have the columns of the text, so the check passes.
          have hlc := hcl l hl columns rfl
          have hrc := hcr r hr columns rfl
          obtain ⟨u, hu, huc⟩ : ∃ u, X.unionResult all l r = .ok u ∧ u.columns = l.columns :=
            Executors.unionResult_of_eq (hlc.trans hrc.symm)
          rw [h, hu]
          refine ⟨fun e he => (nomatch he), fun u' hu' columns' hc' => ?_⟩
          cases hu'
          cases hc'
          exact huc.trans hlc
      · trivial

end Shape

def queryColumns (display : Expr → String) (q : Query) : Option (List String) :=
  if q.parts.any QueryPart.isCall then none
  else
    match q.returnClause.items with
    | [] => some []
    | [item] => if isStarItem item then none else some [columnName display item]
    | items => some (items.map (columnName display))

mutual

def Statement.shape (display : Expr → String) : Statement → Shape
  | .query q =>
    if queryHasWriteParts q then .writes (queryColumns display q)
    else .reads (queryColumns display q)
  | .createAndReturn c => .writes (some (c.returnClause.items.map (columnName display)))
  | .setAndReturn s => .writes (queryColumns display s.toQuery)
  | .deleteAndReturn d => .writes (queryColumns display d.toQuery)
  | .mergeAndReturn m => .writes (queryColumns display m.toQuery)
  | .removeAndReturn r => .writes (queryColumns display r.toQuery)
  | .create _ | .set _ | .delete _ | .merge _ | .remove _ | .foreach .. => .writes (some [])
  | .createIndex _ | .dropIndex _ | .createConstraint _ | .dropConstraint _ => .writes (some [])
  | .setAutoIndex ai => if ai.label.startsWith "()-[" then .refused else .writes (some [])
  | .exportDatabase _ => .reads (some ["exported"])
  -- A copy rebuilds the caches after its commit, and an import executes a script.
  | .copy _ | .importDatabase _ => .torn
  | .union left right all =>
    if unionHasMixedAll all left right then .refused
    else (left.shape display).union (right.shape display)
  | .pipeline stmts =>
    if stmts.all isDataStatement && stmts.any statementWrites then .writes none
    else (Statement.eachShape display stmts).forget

def Statement.eachShape (display : Expr → String) : List Statement → Shape
  | [] => .reads none
  | [s] => s.shape display
  | s :: ss => (s.shape display).andThen (Statement.eachShape display ss)

end

/-! ## Every run is as the shape says -/

section Runs

variable {α : Type}

/-- A computation that leaves the graph as it was when it fails. -/
def AllOrNothing (m : Run α) : Prop := ∀ s e, (m s).1 = .error e → (m s).2.graph = s.graph

variable {c : Option (List String)}

lemma Shape.holds_reads {f : Graph → Except Error QueryResult}
    (h : ∀ g r, f g = .ok r → ∀ columns ∈ c, r.columns = columns) :
    (Shape.reads c).Holds (Cypher.reads f) := by
  intro s
  refine ⟨rfl, ?_, fun r hr => ?_⟩
  · rw [Cypher.reads]
    rcases f s.graph with e | r <;> simp [Except.mapError]
  · rcases hf : f s.graph with e | r'
    · simp [Cypher.reads, hf, Except.mapError] at hr
    · simp only [Cypher.reads, hf, Except.mapError, Except.ok.injEq] at hr
      subst hr
      exact h _ _ hf

/-- Reading the graph first changes nothing. -/
theorem Shape.Holds.bind_reads {shape : Shape} {f : Graph → Except Error α}
    {k : α → Run QueryResult} (h : ∀ g a, f g = .ok a → shape.Holds (k a)) :
    shape.Holds (Cypher.reads f >>= k) := by
  have hrun : ∀ s, (∃ e, (Cypher.reads f >>= k) s = (.error (.failed e), s)) ∨
      ∃ a, f s.graph = .ok a ∧ (Cypher.reads f >>= k) s = k a s := by
    intro s
    rcases hf : f s.graph with e | a
    · exact .inl ⟨e, by simp [Exec.bind_apply, Cypher.reads, hf, Except.mapError]⟩
    · exact .inr ⟨a, rfl, by simp [Exec.bind_apply, Cypher.reads, hf, Except.mapError]⟩
  cases shape with
  | torn => trivial
  | refused =>
    intro s
    rcases hrun s with ⟨e, he⟩ | ⟨a, ha, hk⟩
    · rw [he]
      exact ⟨rfl, e, rfl⟩
    · rw [hk]
      exact h _ a ha s
  | reads c =>
    intro s
    rcases hrun s with ⟨e, he⟩ | ⟨a, ha, hk⟩
    · rw [he]
      exact ⟨rfl, by simp, fun r hr => nomatch hr⟩
    · rw [hk]
      exact h _ a ha s
  | writes c =>
    intro s
    rcases hrun s with ⟨e, he⟩ | ⟨a, ha, hk⟩
    · rw [he]
      exact ⟨fun _ _ => rfl, fun r hr => nomatch hr⟩
    · rw [hk]
      exact h _ a ha s

lemma AllOrNothing.holds {m : Run α} (h : AllOrNothing m) {f : α → QueryResult}
    (hf : ∀ a, ∀ columns ∈ c, (f a).columns = columns) :
    (Shape.writes c).Holds (m >>= fun a => pure (f a)) := by
  intro s
  rcases hm : m s with ⟨e | a, s'⟩
  · rw [Exec.bind_apply_error hm]
    refine ⟨fun _ _ => ?_, fun r hr => nomatch hr⟩
    have := h s e (by rw [hm])
    rwa [hm] at this
  · rw [Exec.bind_apply_ok hm]
    refine ⟨fun e he => (nomatch he), fun r hr columns hc => ?_⟩
    cases hr
    exact hf a columns hc

lemma allOrNothing_transaction (held : Bool)
    {f : Except Error Unit → Graph → Except Error α × Graph}
    (hf : ∀ commit g e, (f commit g).1 = .error e → (f commit g).2 = g) :
    AllOrNothing (transaction held f) := by
  intro s e h
  unfold transaction at h ⊢
  split
  · rfl
  · rename_i hheld
    rw [if_neg hheld] at h
    rcases hr : (f s.commit s.graph).1 with e' | a
    · exact hf _ _ e' hr
    · simp [hr, Except.mapError] at h

/-- A result that is only relabelled. -/
theorem Shape.Holds.forget {shape : Shape} {m : Run QueryResult} (h : shape.Holds m)
    (f : QueryResult → QueryResult) : shape.forget.Holds (m >>= fun r => pure (f r)) := by
  have hrun : ∀ s, (∃ e, (m s).1 = .error e ∧ (m >>= fun r => pure (f r)) s = m s) ∨
      ∃ r, (m s).1 = .ok r ∧ (m >>= fun r => pure (f r)) s = (.ok (f r), (m s).2) := by
    intro s
    rcases hm : m s with ⟨e | r, s'⟩
    · exact .inl ⟨e, rfl, Exec.bind_apply_error hm⟩
    · exact .inr ⟨r, rfl, Exec.bind_apply_ok hm⟩
  cases shape with
  | torn => trivial
  | refused =>
    intro s
    obtain ⟨hg, e, he⟩ := h s
    rcases hrun s with ⟨e', -, heq⟩ | ⟨r, hr, -⟩
    · rw [heq]
      exact ⟨hg, e, he⟩
    · rw [he] at hr
      cases hr
  | reads c =>
    intro s
    obtain ⟨hg, hblock, -⟩ := h s
    rcases hrun s with ⟨e, -, heq⟩ | ⟨r, hr, heq⟩
    · rw [heq]
      exact ⟨hg, hblock, fun _ _ _ hc => nomatch hc⟩
    · rw [heq]
      exact ⟨hg, by simp, fun _ _ _ hc => nomatch hc⟩
  | writes c =>
    intro s
    obtain ⟨hg, -⟩ := h s
    rcases hrun s with ⟨e, he, heq⟩ | ⟨r, hr, heq⟩
    · rw [heq]
      exact ⟨hg, fun _ _ _ hc => nomatch hc⟩
    · rw [heq]
      exact ⟨fun _ he => (nomatch he), fun _ _ _ hc => nomatch hc⟩

/-- A statement followed by others, each committing on its own. -/
theorem Shape.Holds.andThen {a b : Shape} {m : Run QueryResult} {k : QueryResult → Run QueryResult}
    (ha : a.Holds m) (hb : ∀ r, b.forget.Holds (k r)) : (a.andThen b).forget.Holds (m >>= k) := by
  cases a with
  | torn | writes c => trivial
  | refused =>
    intro s
    obtain ⟨hg, e, he⟩ := ha s
    rcases hm : m s with ⟨e' | r, s'⟩
    · rw [Exec.bind_apply_error hm]
      rw [hm] at hg he
      exact ⟨hg, e, he⟩
    · rw [hm] at he
      cases he
  | reads c =>
    -- The first statement leaves the graph as it was, so the rest decides.
    have hrun : ∀ s, (∃ e s', (m >>= k) s = (.error (.failed e), s') ∧ s'.graph = s.graph) ∨
        ∃ r s', s'.graph = s.graph ∧ (m >>= k) s = k r s' := by
      intro s
      obtain ⟨hg, hblock, -⟩ := ha s
      rcases hm : m s with ⟨(e | _) | r, s'⟩
      · exact .inl ⟨e, s', Exec.bind_apply_error hm, by rw [← hg, hm]⟩
      · rw [hm] at hblock
        exact absurd rfl hblock
      · exact .inr ⟨r, s', by rw [← hg, hm], Exec.bind_apply_ok hm⟩
    show b.forget.Holds (m >>= k)
    cases b with
    | torn => trivial
    | refused =>
      intro s
      rcases hrun s with ⟨e, s', heq, hg⟩ | ⟨r, s', hg, heq⟩
      · rw [heq]
        exact ⟨hg, e, rfl⟩
      · rw [heq, ← hg]
        exact hb r s'
    | reads d =>
      intro s
      rcases hrun s with ⟨e, s', heq, hg⟩ | ⟨r, s', hg, heq⟩
      · rw [heq]
        exact ⟨hg, by simp, fun _ hr => nomatch hr⟩
      · rw [heq, ← hg]
        exact hb r s'
    | writes d =>
      intro s
      rcases hrun s with ⟨e, s', heq, hg⟩ | ⟨r, s', hg, heq⟩
      · rw [heq]
        exact ⟨fun _ _ => hg, fun _ hr => nomatch hr⟩
      · rw [heq, ← hg]
        exact hb r s'

variable [TextLib]

lemma allOrNothing_update {O : Type} (held : Bool) (o : O) (m : Graph → InTxn O α) :
    AllOrNothing (update held o m) := by
  intro s e h
  unfold update at h ⊢
  split
  · rfl
  · rename_i hblocks
    rw [if_neg hblocks] at h
    exact allOrNothing_transaction false (fun _ _ _ he => update_error he) s e h

/-- A transaction of a closure writes all or nothing, and its result is one of the closure. -/
theorem holds_update {O : Type} (held : Bool) (o : O) {m : Graph → InTxn O QueryResult}
    {P : QueryResult → Prop} (h : ∀ g, InTxn.Returns P (m g))
    (hP : ∀ r, P r → ∀ columns ∈ c, r.columns = columns) :
    (Shape.writes c).Holds (update held o m) := by
  intro s
  refine ⟨allOrNothing_update held o m s, fun r hr => hP r ?_⟩
  unfold update at hr
  split at hr
  · cases hr
  · unfold transaction at hr
    rw [if_neg (by simp)] at hr
    rcases hu : (s.graph.update s.commit ((m s.graph).closure o)).1 with e | r'
    · simp [hu, Except.mapError] at hr
    · simp only [hu, Except.mapError, Except.ok.injEq] at hr
      subst hr
      have hyields : Prog.Yields P ((m s.graph).closure o) := by
        apply Prog.Yields.bind (h s.graph o)
        rintro _ ⟨a, o', rfl, ha⟩
        exact ha
      exact hyields.run (update_ok hu)

lemma holds_schemaStatement (held : Bool) (action : Except Error Unit → Graph.Action) :
    (Shape.writes (some [])).Holds (schemaStatement held action) := by
  refine AllOrNothing.holds (allOrNothing_transaction held fun _ _ _ he => perform_error he) ?_
  rintro - columns ⟨⟩
  rfl

end Runs

/-! ## Every run is as the shape says -/

namespace Executors

variable (X : Executors)

/-- The text of a query without calls fixes its columns, unless it projects a lone `*`. -/
theorem columns_tabulate {q : Query} (rows : Rows) :
    ∀ columns ∈ queryColumns X.exprDisplayName q, (X.tabulate q rows).columns = columns := by
  intro columns hc
  unfold queryColumns at hc
  unfold tabulate
  have hcall : ¬ q.parts.any QueryPart.isCall = true := by
    intro hcall
    rw [if_pos hcall] at hc
    cases hc
  rw [if_neg hcall] at hc
  rcases hitems : q.returnClause.items with _ | ⟨item, _ | ⟨second, items⟩⟩
  · rw [hitems] at hc
    cases hc
    rfl
  · rw [hitems] at hc
    by_cases hstar : isStarItem item
    · simp [hstar] at hc
    · simp only [hstar] at hc ⊢
      cases hc
      rfl
  · rw [hitems] at hc
    cases hc
    rfl

variable {o : Option X.Overlay} {params : Params} {g : Graph}

lemma writes_resolveParts {standalone : Bool} {parts : List QueryPart} {vars : Finset String}
    {outputs : Option (List String)} {r : List QueryPart × Option (List String)}
    (h : X.resolveParts g o params standalone parts vars outputs = .ok r) :
    r.1.any QueryPart.writes = parts.any QueryPart.writes := by
  induction parts generalizing vars outputs r with
  | nil =>
    cases h
    rfl
  | cons part parts ih =>
    cases part with
    | call name args implicitArgs yields yieldStar resolved =>
      rw [resolveParts] at h
      obtain ⟨values, -, h⟩ := bind_eq_ok h
      obtain ⟨rc, -, h⟩ := bind_eq_ok h
      obtain ⟨rest, hrest, h⟩ := bind_eq_ok h
      cases h
      simpa [QueryPart.writes] using ih hrest
    | _ =>
      rw [resolveParts] at h
      · obtain ⟨rest, hrest, h⟩ := bind_eq_ok h
        cases h
        simp [ih hrest]
      all_goals simp

lemma queryHasWriteParts_resolved {q q' : Query} (h : X.resolved g o params q = .ok q') :
    queryHasWriteParts q' = queryHasWriteParts q := by
  unfold resolved at h
  split at h
  · obtain ⟨r, hr, h⟩ := bind_eq_ok h
    cases h
    exact X.writes_resolveParts hr
  · cases h
    rfl

/-- A query without calls runs as it is written. -/
theorem resolved_of_not_isCall {q : Query} (h : q.parts.any QueryPart.isCall = false) :
    X.resolved g o params q = .ok q := by
  rw [resolved, if_neg (by simp [h])]

variable [TextLib]

lemma executeEach_cons {s : Statement} {stmts : List Statement} {bindings : PathMap}
    {last : QueryResult} (hs : ¬∃ c, s = .create c) :
    X.executeEach o params (s :: stmts) bindings last =
      X.executeStatement o params s >>= fun r => X.executeEach o params stmts bindings r := by
  cases s with
  | create c => exact absurd ⟨c, rfl⟩ hs
  | _ => rfl

mutual

/-- **Shapes are sound.** Every run of a statement is as its shape says, whatever its clauses
compute and whether or not the thread holds a transaction. -/
theorem executeStatement_shape (o : Option X.Overlay) (params : Params) :
    (s : Statement) → (s.shape X.exprDisplayName).Holds (X.executeStatement o params s)
  | .query q => by
    refine Shape.Holds.bind_reads fun g q' hq => ?_
    have hcolumns : ∀ rows, ∀ columns ∈ queryColumns X.exprDisplayName q,
        (X.tabulate q' rows).columns = columns := by
      intro rows columns hc
      by_cases hcall : q.parts.any QueryPart.isCall = true
      · simp [queryColumns, hcall] at hc
      · rw [X.resolved_of_not_isCall (by simpa using hcall)] at hq
        cases hq
        exact X.columns_tabulate rows columns hc
    rw [Statement.shape, X.queryHasWriteParts_resolved hq]
    split
    · exact holds_update _ _ (X.returns_executeReadQueryIn params q')
        fun r ⟨rows, hr⟩ => hr ▸ hcolumns rows
    · refine Shape.holds_reads fun g r hr => ?_
      unfold executeReadQuery at hr
      rcases hrows : X.readRows g o params q' with e | rows
      · rw [hrows] at hr
        cases hr
      · rw [hrows] at hr
        cases hr
        exact hcolumns rows
  | .create c => AllOrNothing.holds (allOrNothing_update _ _ _) fun _ _ h => some.inj h
  | .createAndReturn c =>
    holds_update _ _ (X.returns_executeCreateAndReturnBody params c) fun r hr _ h =>
      hr.trans (some.inj h)
  | .setAndReturn s =>
    holds_update _ _ (X.returns_executeReadQueryIn params s.toQuery)
      fun _ ⟨rows, hr⟩ => hr ▸ X.columns_tabulate rows
  | .deleteAndReturn d =>
    holds_update _ _ (X.returns_executeReadQueryIn params d.toQuery)
      fun _ ⟨rows, hr⟩ => hr ▸ X.columns_tabulate rows
  | .mergeAndReturn m =>
    holds_update _ _ (X.returns_executeReadQueryIn params m.toQuery)
      fun _ ⟨rows, hr⟩ => hr ▸ X.columns_tabulate rows
  | .removeAndReturn r =>
    holds_update _ _ (X.returns_executeReadQueryIn params r.toQuery)
      fun _ ⟨rows, hr⟩ => hr ▸ X.columns_tabulate rows
  | .set s => holds_update _ _ (fun g => X.returns_clauseOnly (X.setIn g params s))
      fun r hr _ h => hr.trans (some.inj h)
  | .delete d => holds_update _ _ (fun g => X.returns_clauseOnly (X.deleteIn g params d))
      fun r hr _ h => hr.trans (some.inj h)
  | .merge m => holds_update _ _ (fun g => X.returns_clauseOnly (X.mergeIn g params m))
      fun r hr _ h => hr.trans (some.inj h)
  | .remove r => holds_update _ _ (fun g => X.returns_clauseOnly (X.removeIn g params r))
      fun r hr _ h => hr.trans (some.inj h)
  | .foreach v list body =>
    holds_update _ _ (X.returns_executeForeachTxn params v list body) fun r hr _ h =>
      hr.trans (some.inj h)
  | .createIndex ci => holds_schemaStatement _ _
  | .dropIndex di => holds_schemaStatement _ _
  | .createConstraint cc => holds_schemaStatement _ _
  | .dropConstraint dc => holds_schemaStatement _ _
  | .setAutoIndex ai => by
    rw [Statement.shape, executeStatement, executeSetAutoIndex]
    split
    · exact fun s => ⟨rfl, _, rfl⟩
    · exact holds_schemaStatement _ _
  | .copy c => trivial
  | .importDatabase i => trivial
  | .exportDatabase e => by
    refine Shape.Holds.bind_reads fun g _ _ s => ?_
    refine ⟨rfl, by simp, ?_⟩
    rintro r ⟨⟩ columns ⟨⟩
    rfl
  | .union left right all => by
    rw [Statement.shape, executeStatement]
    split
    · rename_i hmixed
      intro s
      unfold executeUnion
      rw [hmixed]
      exact ⟨rfl, _, rfl⟩
    · rename_i hmixed
      exact Shape.Holds.union (by simpa using hmixed)
        (executeStatement_shape o params left) (executeStatement_shape o params right)
  | .pipeline stmts => by
    rw [Statement.shape, executeStatement]
    split
    · exact AllOrNothing.holds (allOrNothing_update _ _ _) fun _ _ h => nomatch h
    · rw [← Shape.forget_forget]
      exact (executeEach_shape o params stmts .empty .empty).forget _

theorem executeEach_shape (o : Option X.Overlay) (params : Params) :
    (stmts : List Statement) → (bindings : PathMap) → (last : QueryResult) →
      (Statement.eachShape X.exprDisplayName stmts).forget.Holds
        (X.executeEach o params stmts bindings last)
  | [], _, _ => fun s => ⟨rfl, by simp [executeEach], fun _ _ _ h => nomatch h⟩
  | [s], bindings, last => by
    rw [Statement.eachShape]
    by_cases hs : ∃ c, s = .create c
    · obtain ⟨c, rfl⟩ := hs
      exact AllOrNothing.holds (allOrNothing_update _ _ _) fun _ _ h => nomatch h
    · rw [X.executeEach_cons hs]
      exact (executeStatement_shape o params s).forget id
  | s :: t :: stmts, bindings, last => by
    show ((s.shape X.exprDisplayName).andThen
      (Statement.eachShape X.exprDisplayName (t :: stmts))).forget.Holds _
    by_cases hs : ∃ c, s = .create c
    · obtain ⟨c, rfl⟩ := hs
      trivial
    · rw [X.executeEach_cons hs]
      exact (executeStatement_shape o params s).andThen
        fun last => executeEach_shape o params (t :: stmts) bindings last

end

end Executors

end IssunDB.Cypher
