import IssunDB.Graph

/-!
# Atomicity of transactions

A closure passed to `Graph.update` either takes effect as a whole or not at all.

* `Prog.calls p w` — the operations the closure performs from `w`, with their results;
  `callFailed` marks a mutation that returned an error.
* `replay ops t` — the transaction after performing the operations in order.
* `Prog.failed_run` — the transaction is poisoned iff some mutation failed, whether or not the
  closure noticed.
* `Graph.update_atomic` — a failed closure or a failed mutation leaves the graph as it was, and a
  successful update commits the tables with every mutation applied.
-/

namespace IssunDB

/-- An operation with its result. -/
abbrev Call := Σ op : TxnOp, Except Error op.Result

/-- The call is a mutation that returned an error. -/
def callFailed : Call → Bool
  | ⟨.mutation _, .error _⟩ => true
  | _ => false

def TxnOp.isMutation : TxnOp → Bool
  | mutation _ => true
  | _ => false

section Runs

variable [TextLib] {α : Type}

/-- The operations a closure performs, with their results. -/
def Prog.calls : Prog α → WriteTxn → List Call
  | done _, _ => []
  | call op next, w => ⟨op, (op.exec w).1⟩ :: (next (op.exec w).1).calls (op.exec w).2

def TxnOp.effect : TxnOp → Txn → Txn
  | mutation m, t => (m.exec (m.prepare t)).2
  | read _, t => t
  | beginBulkLoad, t => t.beginBulkLoad

/-- The transaction after performing operations in order. -/
def replay (ops : List TxnOp) (t : Txn) : Txn := ops.foldl (fun t op => op.effect t) t

/-- A mutation poisons the transaction iff it fails. -/
theorem TxnOp.failed_exec (op : TxnOp) (w : WriteTxn) :
    (op.exec w).2.failed = (w.failed || callFailed ⟨op, (op.exec w).1⟩) := by
  cases op with
  | mutation m =>
    simp only [exec, WriteTxn.mutate]
    by_cases hf : w.failed = true
    · simp [hf]
    · rw [if_neg hf]
      rcases h : WriteTxn.runMutation m w with ⟨_ | a, w'⟩ <;> simp [hf, callFailed]
  | read r => simp [exec, callFailed]
  | beginBulkLoad => simp [exec, callFailed]

/-- **Poisoning.** A run ends in a failed transaction iff it began in one or a mutation failed. -/
theorem Prog.failed_run (p : Prog α) (w : WriteTxn) :
    (p.run w).2.failed = (w.failed || (p.calls w).any callFailed) := by
  induction p generalizing w with
  | done result => simp [run, calls]
  | call op next ih =>
    rw [run, ih, op.failed_exec, calls, List.any_cons, Bool.or_assoc]

/-- An operation that is not a failed mutation has its effect, counts and is staged. -/
theorem TxnOp.exec_ok {op : TxnOp} {w : WriteTxn} (hw : w.failed = false)
    (hop : callFailed ⟨op, (op.exec w).1⟩ = false) :
    (op.exec w).2.txn = op.effect w.txn ∧
      (op.exec w).2.mutationsCount = w.mutationsCount + if op.isMutation then 1 else 0 := by
  cases op with
  | mutation m =>
    simp only [exec, WriteTxn.mutate, hw, effect, isMutation, WriteTxn.runMutation] at hop ⊢
    rcases h : m.exec (m.prepare w.txn) with ⟨_ | r, t⟩
    · simp [h, callFailed] at hop
    · simp
  | read r => simp [exec, effect, isMutation]
  | beginBulkLoad => simp [exec, effect, isMutation]

/-- **Effect of a run.** Without a failed mutation, the transaction holds the effect of every
operation performed. -/
theorem Prog.txn_run (p : Prog α) {w : WriteTxn} (hw : (p.run w).2.failed = false) :
    (p.run w).2.txn = replay ((p.calls w).map Sigma.fst) w.txn ∧
      (p.run w).2.mutationsCount =
        w.mutationsCount + ((p.calls w).map Sigma.fst).countP TxnOp.isMutation := by
  induction p generalizing w with
  | done result => simp [run, calls, replay]
  | call op next ih =>
    have hnone := hw
    rw [failed_run, calls, List.any_cons] at hnone
    simp only [Bool.or_eq_false_iff] at hnone
    obtain ⟨hw0, hop, -⟩ := hnone
    obtain ⟨htxn, hcount⟩ := TxnOp.exec_ok hw0 hop
    obtain ⟨htxn', hcount'⟩ := ih (op.exec w).1 hw
    constructor
    · rw [run, htxn', htxn]
      rfl
    · rw [run, hcount', hcount, calls, List.map_cons, List.countP_cons]
      dsimp only
      omega

end Runs

namespace Graph

variable [TextLib] {α : Type}

/-- **Atomicity.** An update whose closure fails, or one of whose mutations failed even if the
closure caught the error, leaves the graph as it was: every table and counter, the persisted and
the in-memory generation, the pending snapshot changes and the column buffers. An update that
succeeds commits exactly the effect of all its operations, none of which failed. -/
theorem update_atomic (commit : Except Error Unit) (p : Prog α) (g : Graph) :
    (((∃ e, (p.run (.begin g.storage)).1 = .error e) ∨
        (p.calls (.begin g.storage)).any callFailed = true) →
      ∃ e, g.update commit p = (.error e, g)) ∧
    (∀ a g', g.update commit p = (.ok a, g') →
      (p.calls (.begin g.storage)).any callFailed = false ∧
      g'.storage =
        (let s := (replay ((p.calls (.begin g.storage)).map Sigma.fst)
          (.begin g.storage (some .empty))).flush.storage
        if ((p.calls (.begin g.storage)).map Sigma.fst).any TxnOp.isMutation then bumpCommitGen s
        else s) ∧
      g'.writeGen =
        g.writeGen + ((p.calls (.begin g.storage)).map Sigma.fst).countP TxnOp.isMutation) := by
  have hfailed : (p.run (.begin g.storage)).2.failed =
      (p.calls (.begin g.storage)).any callFailed := by
    rw [Prog.failed_run]
    rfl
  have heffect := p.txn_run (w := .begin g.storage)
  rcases h : p.run (.begin g.storage) with ⟨err | a, w⟩
  · refine ⟨fun _ => ⟨err, by simp [update, h]⟩, fun a g' hg => ?_⟩
    simp [update, h] at hg
  rw [h] at hfailed heffect
  dsimp only at hfailed heffect
  by_cases hw : w.failed = true
  · refine ⟨fun _ => ⟨failedWrite, by simp [update, h, hw]⟩, fun a g' hg => ?_⟩
    simp [update, h, hw] at hg
  simp only [Bool.not_eq_true] at hw
  obtain ⟨htxn, hcount⟩ := heffect hw
  constructor
  · rintro (⟨e, he⟩ | hany)
    · cases he
    · rw [← hfailed, hw] at hany
      cases hany
  · intro b g' hg
    rcases commit with e | u
    · simp [update, h, hw, commitAndPublish] at hg
    · simp only [update, h, hw, commitAndPublish] at hg
      obtain ⟨-, rfl⟩ := hg
      refine ⟨by rw [← hfailed, hw], ?_, ?_⟩
      · have hpos : 0 < w.mutationsCount ↔
            ((p.calls (.begin g.storage)).map Sigma.fst).any TxnOp.isMutation = true := by
          rw [hcount, List.any_eq_true]
          simp [WriteTxn.begin, List.countP_pos_iff]
        simp only [recordDelta, hpos, htxn]
        rfl
      · simp only [recordDelta, hcount]
        simp [WriteTxn.begin]

end Graph

end IssunDB
