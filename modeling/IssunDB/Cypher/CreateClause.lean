import IssunDB.Cypher.ClauseReadings

/-!
# `CREATE` clauses

* `Mirrors`, `Mirrors.bind` — when a program does what steps say, and programs in sequence;
* `mirrors_createEach` — a caller does what the steps of the clause say, read with the bindings it
  hands to the patterns;
* `create_adds_iff` — what it adds is what the clause says iff these bindings are as good as the
  clause's.
-/

namespace IssunDB.Cypher

open List

/-! ## Bindings -/

/-- Storing what is stored changes nothing. -/
theorem put_of_get {K V : Type} [DecidableEq K] {t : Table K V} {k : K} {v : V}
    (h : t.get k = some v) : t.put k v = t := by
  ext1 k'
  rw [Table.get_put]
  split
  next hk => rw [hk, h]
  next => rfl

namespace PathMap

variable (row more : PathMap)

lemma get_extend (v : String) :
    (row.extend more).get v = (more.get v).or (row.get v) := by
  have hnodup : (more.toList.map Prod.fst).Nodup := by
    rw [Table.map_fst_toList]
    exact Finset.ascending_nodup _
  obtain ⟨hin, hout⟩ := Table.get_foldl_put (fun (b : GraphBinding) _ => b) hnodup row v
  rcases hget : more.get v with - | b
  · refine hout fun hv => ?_
    obtain ⟨⟨v', b⟩, hmem, rfl⟩ := mem_map.mp hv
    cases hget.symm.trans (Table.mem_toList.mp hmem)
  · exact hin b (Table.mem_toList.mpr hget)

lemma extend_empty : row.extend .empty = row := by
  ext1 v
  rw [get_extend, Table.get_empty]
  rfl

lemma extend_put (v : String) (b : GraphBinding) :
    row.extend (more.put v b) = (row.extend more).put v b := by
  ext1 v'
  rw [get_extend, Table.get_put, Table.get_put, get_extend]
  split <;> rfl

end PathMap

/-! ## The steps of a caller -/

section Progress

variable {path : PathMap} {p : Progress} {s : Written}

/-- The progress of a pattern as the steps have it. -/
structure Follows (path : PathMap) (p : Progress) (s : Written) : Prop where
  own : s.own = p.combined
  pending : s.pending = p.pending
  extended : p.combined = path.extend p.bindings

lemma Follows.bindVar (h : Follows path p s) {s' : Written} (v : Option String) (b : GraphBinding)
    (hown : s'.own = match v with | none => s.own | some v => s.own.put v b)
    (hpending : s'.pending = s.pending) : Follows path (p.bindVar v b) s' := by
  cases v with
  | none => exact ⟨hown.trans h.own, hpending.trans h.pending, h.extended⟩
  | some v =>
    refine ⟨hown.trans (congrArg (Table.put · v _) h.own), hpending.trans h.pending, ?_⟩
    show p.combined.put v _ = path.extend (p.bindings.put v _)
    rw [PathMap.extend_put, ← h.extended]

lemma Follows.bindNode (h : Follows path p s) (v : Option String) (id : NodeId) :
    Follows path (p.bindVar v (.node id)) (s.bindNode v id) := by
  cases v <;> exact h.bindVar _ _ rfl rfl

lemma Follows.bindEdge (h : Follows path p s) (v : Option String) (id : EdgeId) :
    Follows path (p.bindVar v (.edge id)) (s.bindOther v (.edge id)) := by
  cases v <;> exact h.bindVar _ _ rfl rfl

/-- Binding a variable again to the node it is bound to changes nothing that can be read. -/
theorem Follows.rebind (h : Follows path p s) {v : Option String} {id : NodeId}
    (hbound : boundNode p.combined v = some id) : Follows path (p.bindVar v (.node id)) s := by
  obtain ⟨v, rfl, hget⟩ := boundNode_eq_some hbound
  exact h.bindVar _ _ (put_of_get (h.own ▸ hget)).symm rfl

end Progress

section Runs

variable [TextLib] {α β : Type} {R : Readers} {params : Params} {m : Threading} {row path : PathMap}
  {w w' : WriteTxn} {t₀ : Txn} {p p' : Progress} {s s' : Written}

/-- A transaction has what has been added. -/
structure Tracks (t₀ : Txn) (w : WriteTxn) (s : Written) : Prop where
  usable : Usable w
  adds : Adds s.made t₀ w.txn
  nextNode : s.nextNode = w.txn.work.nextNode
  nextEdge : s.nextEdge = w.txn.work.nextEdge

omit [TextLib] in
lemma Tracks.congr (h : Tracks t₀ w s) (hmade : s'.made = s.made)
    (hnode : s'.nextNode = s.nextNode) (hedge : s'.nextEdge = s.nextEdge) : Tracks t₀ w s' :=
  ⟨h.usable, hmade ▸ h.adds, hnode.trans h.nextNode, hedge.trans h.nextEdge⟩

/-- A sequence of programs that succeeds is a success of both. -/
theorem run_bind_ok {q : Prog α} {f : α → Prog β} {b : β}
    (h : (Prog.bind q f).run w = (.ok b, w')) :
    ∃ a w₁, q.run w = (.ok a, w₁) ∧ (f a).run w₁ = (.ok b, w') := by
  rw [Prog.run_bind] at h
  rcases hq : q.run w with ⟨e | a, w₁⟩
  · rw [hq] at h
    cases h
  · rw [hq] at h
    exact ⟨a, w₁, rfl, h⟩

lemma run_bind_of_ok {q : Prog α} {f : α → Prog β} {a : α} {w₁ : WriteTxn}
    (h : q.run w = (.ok a, w₁)) : (Prog.bind q f).run w = (f a).run w₁ := by
  rw [Prog.run_bind, h]

def Element.mutation : Element → Mutation
  | .node _ labels props => .addNodeMulti labels props
  | .edge _ src dst etype props => .addEdge src dst etype props

/-- A transaction takes some elements one after the other. -/
inductive Accepts : WriteTxn → List Element → WriteTxn → Prop
  | nil (w : WriteTxn) : Accepts w [] w
  | cons {w w₁ w' : WriteTxn} {e : Element} {es : List Element} (r : e.mutation.Result)
    (h : (TxnOp.mutation e.mutation).exec w = (.ok r, w₁)) (hrest : Accepts w₁ es w') :
    Accepts w (e :: es) w'

lemma Accepts.split {es es' : List Element} (h : Accepts w (es ++ es') w') :
    ∃ w₁, Accepts w es w₁ ∧ Accepts w₁ es' w' := by
  induction es generalizing w with
  | nil => exact ⟨w, .nil w, h⟩
  | cons e es ih =>
    cases h with
    | cons r hexec hrest =>
      obtain ⟨w₁, hfront, hback⟩ := ih hrest
      exact ⟨w₁, .cons r hexec hfront, hback⟩

def Takes (w : WriteTxn) (s : Written) (w' : WriteTxn) (s' : Written) : Prop :=
  ∃ new, s'.made = s.made ++ new ∧ Accepts w new w'

lemma Takes.split {s₁ : Written} (h : Takes w s w' s') (h₁ : s.made <+: s₁.made)
    (h₂ : s₁.made <+: s'.made) : ∃ w₁, Takes w s w₁ s₁ ∧ Takes w₁ s₁ w' s' := by
  obtain ⟨new, hnew, haccepts⟩ := h
  obtain ⟨front, hfront⟩ := h₁
  obtain ⟨back, hback⟩ := h₂
  rw [← hback, ← hfront, append_assoc, append_cancel_left_eq] at hnew
  rw [← hnew] at haccepts
  obtain ⟨w₁, hw₁, hw'⟩ := haccepts.split
  exact ⟨w₁, ⟨front, hfront.symm, hw₁⟩, back, hback.symm, hw'⟩

lemma Takes.of_same (h : Takes w s w' s') (hmade : s'.made = s.made) : w' = w := by
  obtain ⟨new, hnew, haccepts⟩ := h
  obtain rfl : new = [] := by
    rw [hmade] at hnew
    exact self_eq_append_right.mp hnew
  cases haccepts
  rfl

lemma Takes.of_add {e : Element} (h : Takes w s w' s') (hmade : s'.made = s.made ++ [e]) :
    ∃ r, (TxnOp.mutation e.mutation).exec w = (.ok r, w') := by
  obtain ⟨new, hnew, haccepts⟩ := h
  obtain rfl : [e] = new := by
    rw [hmade, append_cancel_left_eq] at hnew
    exact hnew
  cases haccepts with
  | cons r hexec hrest =>
    cases hrest
    exact ⟨r, hexec⟩

/-! ## Programs and steps -/

/-- A program does what some steps say. Where it succeeds they can be taken and lead where it does,
and where they can be taken and the transaction takes what they add it succeeds. -/
structure Mirrors (t₀ : Txn) (w : WriteTxn) (s : Written) (q : Prog α) (e : Except String Written)
    (Q : α → Written → Prop) : Prop where
  follows : ∀ {a w'}, q.run w = (.ok a, w') → ∃ s', e = .ok s' ∧ Q a s' ∧ Tracks t₀ w' s'
  succeeds : ∀ {s' w'}, e = .ok s' → Takes w s w' s' → ∃ a, q.run w = (.ok a, w')

namespace Mirrors

variable {q : Prog α} {e : Except String Written} {Q : α → Written → Prop} {Q' : β → Written → Prop}

lemma done {a : α} (ha : Q a s) (htracks : Tracks t₀ w s) :
    Mirrors t₀ w s (.done (.ok a)) (.ok s) Q where
  follows hrun := by
    obtain ⟨hres, rfl⟩ := Prod.mk.injEq .. ▸ hrun
    obtain rfl := Except.ok.inj hres
    exact ⟨s, rfl, ha, htracks⟩
  succeeds hsteps htakes := by
    obtain rfl := Except.ok.inj hsteps
    rw [htakes.of_same rfl]
    exact ⟨a, rfl⟩

/-- **Sequences.** No step drops what was added before it. -/
theorem bind {k : α → Prog β} {e' : Written → Except String Written} (h : Mirrors t₀ w s q e Q)
    (hgrows : ∀ {s₁}, e = .ok s₁ → s.made <+: s₁.made)
    (hgrows' : ∀ {s₁ s₂}, e' s₁ = .ok s₂ → s₁.made <+: s₂.made)
    (hk : ∀ a w₁ s₁, Q a s₁ → Tracks t₀ w₁ s₁ → Mirrors t₀ w₁ s₁ (k a) (e' s₁) Q') :
    Mirrors t₀ w s (Prog.bind q k) (e >>= e') Q' where
  follows hrun := by
    obtain ⟨a, w₁, hq, hrun⟩ := run_bind_ok hrun
    obtain ⟨s₁, rfl, ha, htracks⟩ := h.follows hq
    exact (hk a w₁ s₁ ha htracks).follows hrun
  succeeds hsteps htakes := by
    obtain ⟨s₁, rfl, hsteps⟩ := bind_eq_ok hsteps
    obtain ⟨w₁, hfront, hback⟩ := htakes.split (hgrows rfl) (hgrows' hsteps)
    obtain ⟨a, hq⟩ := h.succeeds rfl hfront
    obtain ⟨s₁', hs₁, ha, htracks⟩ := h.follows hq
    obtain rfl := Except.ok.inj hs₁
    obtain ⟨b, hrun⟩ := (hk a w₁ s₁ ha htracks).succeeds hsteps hback
    exact ⟨b, (run_bind_of_ok hq).trans hrun⟩

lemma map {f : α → β} (h : Mirrors t₀ w s q e Q) (hf : ∀ a s', Q a s' → Q' (f a) s') :
    Mirrors t₀ w s (Prog.bind q fun a => .done (.ok (f a))) e Q' where
  follows hrun := by
    obtain ⟨a, w₁, hq, hrun⟩ := run_bind_ok hrun
    obtain ⟨s', he, ha, htracks⟩ := h.follows hq
    obtain ⟨hres, rfl⟩ := Prod.mk.injEq .. ▸ hrun
    exact ⟨s', he, Except.ok.inj hres ▸ hf a s' ha, htracks⟩
  succeeds hsteps htakes := by
    obtain ⟨a, hq⟩ := h.succeeds hsteps htakes
    exact ⟨f a, run_bind_of_ok hq⟩

end Mirrors

variable {pat : NodePattern} {rel : RelationshipPattern} {pattern : Pattern} {o : PendingWrites}
  {patterns : List Pattern} {written : PathMap}

lemma createNode_follows {id : NodeId} (hfollows : Follows path p s) (htracks : Tracks t₀ w s)
    (h : (createNode R params p pat).run w = (.ok (id, p'), w')) :
    ∃ props, (callerView R params).eval s pat.properties = .ok props ∧ id = s.nextNode ∧
      p' = { p with pending := p.pending.recordNode id pat.labels props } ∧
      Tracks t₀ w' (s.addNode pat props) := by
  unfold createNode at h
  split at h
  next => cases congrArg Prod.fst h
  next props heval =>
    change (Prog.done _).run ((TxnOp.mutation (.addNodeMulti pat.labels props)).exec w).2 = _ at h
    rcases hexec : (TxnOp.mutation (.addNodeMulti pat.labels props)).exec w with ⟨e | n, w₁⟩
    · rw [hexec] at h
      cases congrArg Prod.fst h
    · rw [hexec] at h
      obtain ⟨hres, rfl⟩ := Prod.mk.injEq .. ▸ h
      obtain ⟨rfl, rfl⟩ := Prod.mk.injEq .. ▸ Except.ok.inj hres
      obtain ⟨husable, hn, hnextNode, hnextEdge, hadds⟩ := adds_addNodeMulti htracks.usable hexec
      have hid : n = s.nextNode := hn.trans htracks.nextNode.symm
      refine ⟨props, ?_, hid, rfl, husable, ?_, ?_, ?_⟩
      · show evalProperties R params s.pending s.own pat.properties = .ok props
        rw [hfollows.own, hfollows.pending]
        exact heval
      · rw [(s.addNode_spec pat props).1]
        exact htracks.adds.trans (hid ▸ hadds)
      · rw [(s.addNode_spec pat props).2.1, hnextNode, htracks.nextNode]
      · rw [(s.addNode_spec pat props).2.2.1, hnextEdge, htracks.nextEdge]

lemma createNode_succeeds {props : Props} (hfollows : Follows path p s)
    (heval : (callerView R params).eval s pat.properties = .ok props)
    (h : Takes w s w' (s.addNode pat props)) :
    ∃ r, (createNode R params p pat).run w = (.ok r, w') := by
  obtain ⟨n, hexec⟩ := h.of_add (s.addNode_spec pat props).1
  have heval' : evalProperties R params p.pending p.combined pat.properties = .ok props := by
    rw [← hfollows.own, ← hfollows.pending]
    exact heval
  change (TxnOp.mutation (.addNodeMulti pat.labels props)).exec w = (.ok n, w') at hexec
  unfold createNode
  rw [heval']
  simp only [Prog.run, hexec]
  exact ⟨_, rfl⟩

variable (R params) in
/-- A program that looks for the node of a pattern and creates it if there is none places the
pattern, wherever the steps go from there. -/
theorem mirrors_place (pat : NodePattern) (q : Prog (NodeId × Progress))
    (go : NodeId → Written → Written) (hfollows : Follows path p s) (htracks : Tracks t₀ w s)
    (hgo : ∀ id x, (go id x).made = x.made ∧ (go id x).nextNode = x.nextNode ∧
      (go id x).nextEdge = x.nextEdge)
    (hfound : ∀ id, boundNode p.combined pat.var = some id →
      ∃ p', q = .done (.ok (id, p')) ∧ Follows path p' s)
    (hnew : boundNode p.combined pat.var = none →
      q = Prog.bind (createNode R params p pat) fun r =>
        .done (.ok (r.1, r.2.bindVar pat.var (.node r.1)))) :
    Mirrors t₀ w s q (place (callerView R params) s pat >>= fun r => .ok (go r.1 r.2))
      fun r s' => ∃ x, s' = go r.1 x ∧ Follows path r.2 x ∧ x.current = s.current ∧
        x.elementIds = s.elementIds := by
  have hfind : (callerView R params).find s pat.var = .ok (boundNode p.combined pat.var) :=
    congrArg (fun path => Except.ok (boundNode path pat.var)) hfollows.own
  have htracks' : ∀ {w' id x}, Tracks t₀ w' x → Tracks t₀ w' (go id x) := fun h =>
    h.congr (hgo _ _).1 (hgo _ _).2.1 (hgo _ _).2.2
  rcases hbound : boundNode p.combined pat.var with - | id
  · obtain rfl := hnew hbound
    rw [hbound] at hfind
    refine ⟨fun {a w'} hrun => ?_, fun {s' w'} hsteps htakes => ?_⟩
    · obtain ⟨⟨n, p₁⟩, w₁, hcreate, hrun⟩ := run_bind_ok hrun
      obtain ⟨hres, rfl⟩ := Prod.mk.injEq .. ▸ hrun
      obtain rfl := Except.ok.inj hres
      obtain ⟨props, heval, rfl, rfl, htracks₁⟩ := createNode_follows hfollows htracks hcreate
      refine ⟨go s.nextNode (s.addNode pat props), ?_,
        ⟨_, rfl, ?_, (s.addNode_spec pat props).2.2.2⟩,
        htracks' htracks₁⟩
      · rw [place_of_new hfind heval]
        rfl
      · apply Follows.bindNode
        exact ⟨hfollows.own, by rw [hfollows.pending], hfollows.extended⟩
    · obtain ⟨⟨id, x⟩, hplace, hsteps⟩ := bind_eq_ok hsteps
      obtain rfl := Except.ok.inj hsteps
      rcases place_eq_ok hplace with ⟨hsome, -⟩ | ⟨props, -, heval, rfl, rfl⟩
      · cases hfind.symm.trans hsome
      · obtain ⟨new, hmade, haccepts⟩ := htakes
        obtain ⟨r, hrun⟩ :=
          createNode_succeeds hfollows heval ⟨new, (hgo _ _).1.symm.trans hmade, haccepts⟩
        exact ⟨_, run_bind_of_ok hrun⟩
  · obtain ⟨p', rfl, hfollows'⟩ := hfound id hbound
    rw [hbound] at hfind
    rw [place_of_found hfind]
    refine ⟨fun {a w'} hrun => ?_, fun {s' w'} hsteps htakes => ?_⟩
    · obtain ⟨hres, rfl⟩ := Prod.mk.injEq .. ▸ hrun
      obtain rfl := Except.ok.inj hres
      exact ⟨_, rfl, ⟨s, rfl, hfollows', rfl, rfl⟩, htracks' htracks⟩
    · obtain rfl := Except.ok.inj hsteps
      rw [htakes.of_same (hgo _ _).1]
      exact ⟨_, rfl⟩

variable (m row) in
lemma mirrors_target (hfollows : Follows path p s) (htracks : Tracks t₀ w s) :
    Mirrors t₀ w s (targetNode R params p pat)
    (takeStep (callerView R params) R m row s (.target pat))
      fun r s' => s'.current = r.1 ∧ s'.previous = s.current ∧ s'.elementIds = s.elementIds ∧
        Follows path r.2 s' := by
  have hplace := mirrors_place R params pat (targetNode R params p pat) (fun id x => x.moveTo id)
    hfollows htracks (fun _ _ => ⟨rfl, rfl, rfl⟩)
    (fun id hbound => ⟨p, by rw [targetNode, hbound], hfollows⟩)
    (fun hbound => by rw [targetNode, hbound])
  refine ⟨fun hrun => ?_, hplace.succeeds⟩
  obtain ⟨s', he, ⟨x, rfl, hfollows', hcurrent, hids⟩, htracks'⟩ := hplace.follows hrun
  exact ⟨_, he,
    ⟨rfl, hcurrent, hids, hfollows'.own, hfollows'.pending, hfollows'.extended⟩, htracks'⟩

variable (m row) in
lemma mirrors_seed (hfollows : Follows path p s) (htracks : Tracks t₀ w s) :
    Mirrors t₀ w s (seedNode R params p pat) (takeStep (callerView R params) R m row s (.seed pat))
      fun r s' => s'.current = r.1 ∧ s'.elementIds = [r.1] ∧ Follows path r.2 s' := by
  have hplace := mirrors_place R params pat (seedNode R params p pat) (fun id x => x.startAt id)
    hfollows htracks (fun _ _ => ⟨rfl, rfl, rfl⟩)
    (fun id hbound => ⟨p.bindVar pat.var (.node id), by rw [seedNode, hbound]; rfl,
      hfollows.rebind hbound⟩)
    (fun hbound => by rw [seedNode, hbound])
  refine ⟨fun hrun => ?_, hplace.succeeds⟩
  obtain ⟨s', he, ⟨x, rfl, hfollows', -⟩, htracks'⟩ := hplace.follows hrun
  exact ⟨_, he, ⟨rfl, rfl, hfollows'.own, hfollows'.pending, hfollows'.extended⟩, htracks'⟩

/-- The relationship of a pattern is added as the step says. -/
theorem createRel_follows {id : EdgeId} (hfollows : Follows path p s) (htracks : Tracks t₀ w s)
    (h : (createRel R params p s.previous s.current rel).run w = (.ok (id, p'), w')) :
    ∃ props, (callerView R params).eval s rel.properties = .ok props ∧ id = s.nextEdge ∧
      Follows path p' (s.addEdge rel props) ∧ Tracks t₀ w' (s.addEdge rel props) := by
  unfold createRel at h
  split at h
  next => cases congrArg Prod.fst h
  next props heval =>
    have hspec := s.addEdge_spec rel props
    have hadded : s.addEdge rel props = Written.bindOther { s with
        pending := s.pending.recordEdge s.nextEdge (rel.ends s.previous s.current).1
          (rel.ends s.previous s.current).2 rel.typeName props
        nextEdge := s.nextEdge + 1
        elementIds := s.elementIds ++ [s.nextEdge, s.current]
        made := s.made ++ [.edge s.nextEdge (rel.ends s.previous s.current).1
          (rel.ends s.previous s.current).2 rel.typeName props] } rel.var (.edge s.nextEdge) := rfl
    rcases hends : rel.ends s.previous s.current with ⟨src, dst⟩
    rw [hends] at h hspec hadded
    change (Prog.done _).run
      ((TxnOp.mutation (.addEdge src dst rel.typeName props)).exec w).2 = _ at h
    rcases hexec : (TxnOp.mutation (.addEdge src dst rel.typeName props)).exec w with ⟨e | r, w₁⟩
    · rw [hexec] at h
      cases congrArg Prod.fst h
    · rw [hexec] at h
      obtain ⟨hres, rfl⟩ := Prod.mk.injEq .. ▸ h
      obtain ⟨rfl, rfl⟩ := Prod.mk.injEq .. ▸ Except.ok.inj hres
      obtain ⟨husable, hn, hnextEdge, hnextNode, hadds⟩ := adds_addEdge htracks.usable hexec
      have hid : r.1 = s.nextEdge := hn.trans htracks.nextEdge.symm
      refine ⟨props, ?_, hid, ?_, husable, ?_, ?_, ?_⟩
      · show evalProperties R params s.pending s.own rel.properties = .ok props
        rw [hfollows.own, hfollows.pending]
        exact heval
      · rw [hadded, hid]
        apply Follows.bindEdge
        exact ⟨hfollows.own, by rw [hfollows.pending], hfollows.extended⟩
      · rw [hspec.1]
        exact htracks.adds.trans (hid ▸ hadds)
      · rw [hspec.2.1, hnextNode, htracks.nextNode]
      · rw [hspec.2.2.1, hnextEdge, htracks.nextEdge]

lemma createRel_succeeds {props : Props} (hfollows : Follows path p s)
    (heval : (callerView R params).eval s rel.properties = .ok props)
    (h : Takes w s w' (s.addEdge rel props)) :
    ∃ r, (createRel R params p s.previous s.current rel).run w = (.ok r, w') := by
  obtain ⟨id, hexec⟩ := h.of_add (s.addEdge_spec rel props).1
  have heval' : evalProperties R params p.pending p.combined rel.properties = .ok props := by
    rw [← hfollows.own, ← hfollows.pending]
    exact heval
  change
      (TxnOp.mutation (.addEdge (rel.ends s.previous s.current).1 (rel.ends s.previous s.current).2
    rel.typeName props)).exec w = (.ok id, w') at hexec
  unfold createRel
  rw [heval']
  simp only [Prog.run, hexec]
  exact ⟨_, rfl⟩

variable (m row) in
lemma mirrors_rel (hfollows : Follows path p s) (htracks : Tracks t₀ w s) :
    Mirrors t₀ w s (createRel R params p s.previous s.current rel)
      (takeStep (callerView R params) R m row s (.rel rel))
      fun r s' => s'.current = s.current ∧ s'.elementIds = s.elementIds ++ [r.1, s.current] ∧
        Follows path r.2 s' where
  follows hrun := by
    obtain ⟨props, heval, hid, hfollows', htracks'⟩ := createRel_follows hfollows htracks hrun
    obtain ⟨-, -, -, -, hcurrent, hids⟩ := s.addEdge_spec rel props
    refine ⟨s.addEdge rel props, ?_, ⟨hcurrent, hid ▸ hids, hfollows'⟩, htracks'⟩
    rw [takeStep, heval]
    rfl
  succeeds hsteps htakes := by
    obtain ⟨props, heval, hsteps⟩ := bind_eq_ok hsteps
    obtain rfl := Except.ok.inj hsteps
    exact createRel_succeeds hfollows heval htakes

variable (m row) in
/-- What follows the first node is written as the steps say. -/
theorem mirrors_createHops {hops : List (RelationshipPattern × NodePattern)}
    (hfollows : Follows path p s) (htracks : Tracks t₀ w s) :
    Mirrors t₀ w s (createHops R params hops s.current s.elementIds p)
      ((hopSteps hops).foldlM (takeStep (callerView R params) R m row) s)
      fun r s' => s'.elementIds = r.1 ∧ Follows path r.2 s' := by
  induction hops generalizing w p s with
  | nil => exact .done ⟨rfl, hfollows⟩ htracks
  | cons hop hops ih =>
    refine (mirrors_target m row hfollows htracks).bind made_takeStep
      (made_takeSteps (.rel hop.1 :: hopSteps hops)) ?_
    rintro target w₁ s₁ ⟨hcurrent, hprevious, hids, hfollows₁⟩ htracks₁
    rw [← hprevious, ← hcurrent]
    refine (mirrors_rel m row hfollows₁ htracks₁).bind made_takeStep (made_takeSteps _) ?_
    rintro edge w₂ s₂ ⟨hcurrent₂, hids₂, hfollows₂⟩ htracks₂
    rw [← hids, ← hids₂, ← hcurrent₂]
    exact ih hfollows₂ htracks₂

variable (m row) in
/-- A pattern is written as its steps say, up to its end. -/
theorem mirrors_createPattern (hown : s.own = path) (hpending : s.pending = o)
    (htracks : Tracks t₀ w s) :
    Mirrors t₀ w s (createPattern R params path pattern o)
      ((PatternStep.seed pattern.node :: hopSteps pattern.rels).foldlM
        (takeStep (callerView R params) R m row) s)
      fun r s' => s'.pending = r.2 ∧
        path.extend r.1 = (match pattern.pathVariable with
          | none => s'.own
          | some pv => s'.own.put (pathIdsVar pv) (.scalar (pathIds s'.elementIds))) ∧
        ∀ pv, pattern.pathVariable = some pv →
          r.1.get (pathIdsVar pv) = some (.scalar (pathIds s'.elementIds)) := by
  have hfollows : Follows path ⟨.empty, path, o⟩ s :=
    ⟨hown, hpending, (PathMap.extend_empty path).symm⟩
  refine (mirrors_seed m row hfollows htracks).bind made_takeStep (made_takeSteps _) ?_
  rintro seed w₁ s₁ ⟨hcurrent, hids, hfollows₁⟩ htracks₁
  rw [← hids, ← hcurrent]
  refine (mirrors_createHops m row hfollows₁ htracks₁).map ?_
  rintro ⟨ids, p₂⟩ s' ⟨rfl, hfollows'⟩
  refine ⟨hfollows'.pending, ?_, fun pv hpv => ?_⟩
  · cases pattern.pathVariable with
    | none => exact hfollows'.extended.symm.trans hfollows'.own.symm
    | some pv =>
      show path.extend (p₂.bindings.put _ _) = _
      rw [PathMap.extend_put, ← hfollows'.extended, hfollows'.own]
  · rw [hpv]
    exact Table.get_put_self ..

omit [TextLib] in
/-- A pattern that is written and ended leaves its caller where its steps say. -/
theorem closePattern_follows {bindings written written' : PathMap}
    (hpath : path = if m.threads then written else row)
    (hbindings : path.extend bindings =
        (match pattern.pathVariable with
          | none => s.own
          | some pv => s.own.put (pathIdsVar pv) (.scalar (pathIds s.elementIds))))
    (hids : ∀ pv, pattern.pathVariable = some pv → bindings.get (pathIdsVar pv) =
        some (.scalar (pathIds s.elementIds)))
    (h : (if m.bindsPaths then bindWrittenPath R s.pending (written.extend bindings) pattern
        else .ok (written.extend bindings)) = .ok written') :
    ∃ s', closePattern R m row s pattern.pathVariable = .ok s' ∧
      s'.own = (if m.threads then written' else row) ∧ s'.pending = s.pending ∧
      s'.made = s.made ∧ s'.nextNode = s.nextNode ∧ s'.nextEdge = s.nextEdge := by
  have hextended : m.threads = true → written.extend bindings = path.extend bindings := by
    intro hthreads
    rw [hpath, if_pos hthreads]
  cases hpv : pattern.pathVariable with
  | none =>
    rw [hpv] at hbindings
    have hwritten : written.extend bindings = written' := by
      rw [bindWrittenPath, hpv, ite_self] at h
      exact Except.ok.inj h
    refine ⟨s.next m row, rfl, ?_, rfl, rfl, rfl, rfl⟩
    show (if m.threads then s.own else row) = _
    split
    next hthreads => rw [← hwritten, hextended hthreads, hbindings]
    next => rfl
  | some pv =>
    rw [hpv] at hbindings
    have hget : (written.extend bindings).get (pathIdsVar pv) =
        some (.scalar (pathIds s.elementIds)) := by
      rw [PathMap.get_extend, hids pv hpv]
      rfl
    rw [closePattern]
    split at h
    next hbinds =>
      rw [if_pos hbinds]
      rw [bindWrittenPath, hpv] at h
      simp only [hget] at h
      show ∃ s', (R.writtenPathValue s.pending (pathIds s.elementIds) >>= _) = .ok s' ∧ _
      rcases hv : R.writtenPathValue s.pending (pathIds s.elementIds) with e | v
      · rw [hv] at h
        cases h
      · rw [hv] at h
        refine ⟨_, rfl, ?_, rfl, rfl, rfl, rfl⟩
        show (if m.threads then (s.own.put _ _).put _ _ else row) = _
        split
        next hthreads => rw [← Except.ok.inj h, hextended hthreads, hbindings]
        next => rfl
    next hbinds =>
      rw [if_neg hbinds]
      refine ⟨_, rfl, ?_, rfl, rfl, rfl, rfl⟩
      show (if m.threads then s.own.put _ _ else row) = _
      split
      next hthreads => rw [← Except.ok.inj h, hextended hthreads, hbindings]
      next => rfl

omit [TextLib] in
/-- The path of a pattern is bound, if its end can be taken. -/
theorem closePattern_succeeds {bindings : PathMap} {s' : Written} (written : PathMap)
    (hids : ∀ pv, pattern.pathVariable = some pv → bindings.get (pathIdsVar pv) =
      some (.scalar (pathIds s.elementIds)))
    (h : closePattern R m row s pattern.pathVariable = .ok s') :
    ∃ written', (if m.bindsPaths then bindWrittenPath R s.pending (written.extend bindings) pattern
      else .ok (written.extend bindings)) = .ok written' := by
  by_cases hbinds : m.bindsPaths
  · rw [if_pos hbinds, bindWrittenPath]
    cases hpv : pattern.pathVariable with
    | none => exact ⟨_, rfl⟩
    | some pv =>
      have hget : (written.extend bindings).get (pathIdsVar pv) =
          some (.scalar (pathIds s.elementIds)) := by
        rw [PathMap.get_extend, hids pv hpv]
        rfl
      rw [hpv, closePattern, if_pos hbinds] at h
      obtain ⟨v, hv, -⟩ := bind_eq_ok h
      have hv' : R.writtenPathValue s.pending (pathIds s.elementIds) = .ok v := hv
      simp only [hget, hv']
      exact ⟨_, rfl⟩
  · rw [if_neg hbinds]
    exact ⟨_, rfl⟩

/-- **A caller writes its clause as the steps say.** -/
theorem mirrors_createEach (hpath : path = if m.threads then written else row) (hown : s.own = path)
    (hpending : s.pending = o) (htracks : Tracks t₀ w s) :
    Mirrors t₀ w s (createEach R params m patterns path written o)
      ((clauseSteps patterns).foldlM (takeStep (callerView R params) R m row) s)
      fun _ _ => True := by
  induction patterns generalizing w s path written o with
  | nil => exact .done trivial htracks
  | cons pattern patterns ih =>
    rw [clauseSteps, flatMap_cons, Pattern.steps, ← cons_append, append_assoc,
      foldlM_append]
    refine (mirrors_createPattern m row hown hpending htracks).bind (made_takeSteps _)
      (made_takeSteps _) ?_
    rintro ⟨bindings, o₁⟩ w₁ s₁ ⟨rfl, hbindings, hids⟩ htracks₁
    have hrest : ∀ written₁ s₂, s₂.own = (if m.threads then written₁ else row) →
        s₂.pending = s₁.pending → Tracks t₀ w₁ s₂ →
        Mirrors t₀ w₁ s₂ (createEach R params m patterns (if m.threads then written₁ else path)
          written₁ s₁.pending)
          ((clauseSteps patterns).foldlM (takeStep (callerView R params) R m row) s₂)
          fun _ _ => True := by
      intro written₁ s₂ hown₂ hpending₂ htracks₂
      have hpath' : (if m.threads then written₁ else path) =
          if m.threads then written₁ else row := by
        split
        next => rfl
        next hthreads => rw [hpath, if_neg hthreads]
      exact ih hpath' (hown₂.trans hpath'.symm) hpending₂ htracks₂
    refine ⟨fun {a w'} hrun => ?_, fun {s' w'} hsteps htakes => ?_⟩
    · simp only at hrun
      split at hrun
      next => cases congrArg Prod.fst hrun
      next written₁ hbind =>
        obtain ⟨s₂, hclose, hown₂, hpending₂, hmade, hnode, hedge⟩ :=
          closePattern_follows hpath hbindings hids hbind
        obtain ⟨s', he, hs'⟩ :=
          (hrest written₁ s₂ hown₂ hpending₂ (htracks₁.congr hmade hnode hedge)).follows hrun
        have hstep :
            takeStep (callerView R params) R m row s₁ (.close pattern.pathVariable) = .ok s₂ :=
          hclose
        exact ⟨s', (PairedRuns.foldlM_cons_of_ok hstep).trans he, hs'⟩
    · obtain ⟨s₂, hclose, hsteps⟩ := PairedRuns.foldlM_cons_ok hsteps
      obtain ⟨written₁, hbind⟩ := closePattern_succeeds written hids hclose
      obtain ⟨s₂', hclose', hown₂, hpending₂, hmade, hnode, hedge⟩ :=
        closePattern_follows hpath hbindings hids hbind
      obtain rfl := Except.ok.inj (Eq.trans (Eq.symm hclose) hclose')
      obtain ⟨new, hnew, haccepts⟩ := htakes
      obtain ⟨a, hrun⟩ :=
        (hrest written₁ s₂ hown₂ hpending₂ (htracks₁.congr hmade hnode hedge)).succeeds hsteps
          ⟨new, hmade ▸ hnew, haccepts⟩
      refine ⟨a, ?_⟩
      simp only [hbind]
      exact hrun

omit [TextLib] in
lemma Tracks.start (hw : Usable w) (row : PathMap) (o : PendingWrites) :
    Tracks w.txn w (.start row o w.txn) := ⟨hw, .refl _, rfl, rfl⟩

/-- A caller that succeeds has taken the steps of its clause. -/
theorem createEach_reads {o o' : PendingWrites} (hw : Usable w)
    (h : (createEach R params m patterns row row o).run w = (.ok (written, o'), w')) :
    ∃ s, (clauseSteps patterns).foldlM (takeStep (callerView R params) R m row)
    (.start row o w.txn) =
      .ok s ∧ Tracks w.txn w' s :=
  let ⟨s, hs, _, htracks⟩ :=
    (mirrors_createEach (ite_self row).symm rfl rfl (.start hw row o)).follows h
  ⟨s, hs, htracks⟩

/-- **What a caller adds.** -/
theorem creates_iff {callerParams : Params} {o o' : PendingWrites} (hw : Usable w)
    (h : (createEach R callerParams m patterns row row o).run w = (.ok (written, o'), w')) :
    Creates R params m row patterns o w.txn w'.txn ↔
      SameReading R params callerParams m row patterns o w.txn := by
  obtain ⟨s, hs, htracks⟩ := createEach_reads hw h
  constructor
  · rintro ⟨s', hs', hadds⟩
    rcases compare_readings (Fits.start row o w.txn) hs hs' with hsame | hapart
    · exact ⟨s, hsame⟩
    · exact absurd hapart (not_apart htracks.adds hadds)
  · rintro ⟨s', hs'⟩
    obtain ⟨hcaller, hclause⟩ := readings_of_compared hs'
    obtain rfl := Except.ok.inj (hs.symm.trans hcaller)
    exact ⟨s, hclause, htracks.adds⟩

/-- A clause can be carried out for a row: its properties have values, and the transaction takes
what it adds. -/
def Feasible (R : Readers) (params : Params) (m : Threading) (row : PathMap)
    (patterns : List Pattern)
    (o : PendingWrites) (w : WriteTxn) : Prop :=
  ∃ s w', (clauseSteps patterns).foldlM (takeStep (clauseView R params row) R m row)
    (.start row o w.txn) = .ok s ∧ Accepts w s.made w'

/-- A caller whose bindings are as good as those of the clause succeeds where the clause can be
carried out. -/
theorem createEach_of_sameReading {callerParams : Params} (hw : Usable w)
    (hfeasible : Feasible R params m row patterns o w)
    (h : SameReading R params callerParams m row patterns o w.txn) :
    ∃ r w', (createEach R callerParams m patterns row row o).run w = (.ok r, w') := by
  obtain ⟨s, w', hclause, haccepts⟩ := hfeasible
  obtain ⟨s', hs'⟩ := h
  obtain ⟨hcaller, hclause'⟩ := readings_of_compared hs'
  obtain rfl := Except.ok.inj (hclause.symm.trans hclause')
  obtain ⟨r, hrun⟩ := (mirrors_createEach (ite_self row).symm rfl rfl (.start hw row o)).succeeds
    hcaller ⟨s.made, rfl, haccepts⟩
  exact ⟨r, w', hrun⟩

end Runs

/-! ## All callers -/

/-- Where a `CREATE` stands. -/
inductive CreatePlace where
  /-- Alone, or in a pipeline. -/
  | statement
  /-- Alone, with a `RETURN`. -/
  | returning
  /-- In a query. -/
  | part
  /-- In the body of a `FOREACH` over this variable, for this element of its list. -/
  | foreach (loopVar : String) (element : Json)

namespace CreatePlace

/-- How the caller goes from one pattern to the next. -/
def threading : CreatePlace → Threading
  | statement => ⟨true, false⟩
  | returning => ⟨true, true⟩
  | part | foreach .. => ⟨false, true⟩

/-- The row that the clause extends. -/
def row : CreatePlace → PathMap → PathMap
  | statement, row | part, row => row
  | returning, _ | foreach .., _ => .empty

/-- The parameters of the clause; a loop variable is one of them. -/
def params : CreatePlace → Params → Params
  | foreach loopVar element, params => params.put loopVar element
  | _, params => params

/-- The patterns of the clause, as they are run. -/
def patterns : CreatePlace → List Pattern → List Pattern
  | foreach loopVar _, patterns => patterns.map (substLoopVarPattern loopVar)
  | _, patterns => patterns

def execute (R : Readers) (params : Params) (patterns : List Pattern) (row : PathMap) :
    CreatePlace → PendingWrites → Prog (PathMap × PendingWrites)
  | statement => executeCreate R params patterns row
  | returning => executeCreateAndReturn R params patterns
  | part => writePartCreate R params patterns row
  | foreach loopVar element => executeForeachCreate R params loopVar element patterns

lemma execute_eq (R : Readers) (params : Params) (patterns : List Pattern) (row : PathMap)
    (place : CreatePlace) : execute R params patterns row place =
      createEach R (place.params params) place.threading (place.patterns patterns) (place.row row)
        (place.row row) := by
  cases place <;> rfl

end CreatePlace

section Callers

variable [TextLib] {α : Type}

/-- The transaction has exactly what the clause says for the row. -/
def CreatePlace.Creates (place : CreatePlace) (R : Readers) (params : Params)
    (patterns : List Pattern)
    (row : PathMap) (o : PendingWrites) (t t' : Txn) : Prop :=
  Cypher.Creates R (place.params params) place.threading (place.row row)
    (place.patterns patterns) o t t'

/-- The bindings that each pattern gets are as good as those of the whole clause. -/
def CreatePlace.SameReading (place : CreatePlace) (R : Readers) (params : Params)
    (patterns : List Pattern) (row : PathMap) (o : PendingWrites) (t : Txn) : Prop :=
  Cypher.SameReading R (place.params params) (place.params params) place.threading (place.row row)
    (place.patterns patterns) o t

/-- **What a `CREATE` adds.** In every transaction that a run reaches, a clause that succeeds on a
row adds what it says iff the bindings of its patterns are as good as those of the clause; and a
clause that can be carried out succeeds and adds what it says iff they are. What a clause says is a
node for each variable that the row does not bind and for each node pattern without a variable, and
a relationship for each relationship pattern. -/
theorem create_adds_iff (actions : List Graph.Action) (p : Prog α) {w : WriteTxn}
    (hreached : (p.run (.begin (Graph.run actions .empty).storage)).2 = w) (hw : w.failed = false)
    (R : Readers) (params : Params) (place : CreatePlace) (patterns : List Pattern) (row : PathMap)
    (o : PendingWrites) :
    (∀ written o' w', (place.execute R params patterns row o).run w = (.ok (written, o'), w') →
      (place.Creates R params patterns row o w.txn w'.txn ↔
        place.SameReading R params patterns row o w.txn)) ∧
    (Feasible R (place.params params) place.threading (place.row row)
    (place.patterns patterns) o w →
      ((∃ written o' w', (place.execute R params patterns row o).run w = (.ok (written, o'), w') ∧
          place.Creates R params patterns row o w.txn w'.txn) ↔
        place.SameReading R params patterns row o w.txn)) ∧
    ∀ t', place.Creates R params patterns row o w.txn t' →
      ∃ made, Adds made w.txn t' ∧
        (made.filterMap Element.nodeId).length =
          (newVariables (place.row row) (clauseNodes (place.patterns patterns))).card +
            anonymousNodes (clauseNodes (place.patterns patterns)) ∧
        (made.filterMap Element.edgeId).length = (clauseRels (place.patterns patterns)).length := by
  have husable := usable_of_reached actions p hreached hw
  rw [CreatePlace.execute_eq]
  refine ⟨fun _ _ _ hrun => creates_iff husable hrun, fun hfeasible => ⟨?_, fun h => ?_⟩, ?_⟩
  · rintro ⟨written, o', w', hrun, hcreates⟩
    exact (creates_iff husable hrun).mp hcreates
  · obtain ⟨⟨written, o'⟩, w', hrun⟩ := createEach_of_sameReading husable hfeasible h
    exact ⟨written, o', w', hrun, (creates_iff husable hrun).mpr h⟩
  · rintro t' ⟨s, hs, hadds⟩
    exact ⟨s.made, hadds, counts_clause hs⟩

end Callers

section Example

attribute [local instance] TextLib.ascii

/-- `CREATE (a), (a)-[:R]->(b)`. -/
def sharedVariable : List Pattern :=
  [⟨⟨some "a", [], none⟩, [], none⟩,
    ⟨⟨some "a", [], none⟩,
    [(⟨none, some "R", false, false, none, none⟩, ⟨some "b", [], none⟩)], none⟩]

/-- Nothing is read where no pattern has properties or a path variable. -/
def Readers.none : Readers := ⟨fun _ _ _ _ => .error "no expressions", fun _ _ => .error "no paths"⟩

def PendingWrites.empty : PendingWrites := ⟨.empty, .empty, ∅, ∅⟩

/-- `CREATE (:F {num: x})`. -/
def loopProperty : List Pattern := [⟨⟨none, ["F"], some [("num", .prop "x" "")]⟩, [], none⟩]

/-- The body of a `FOREACH` over `x`, for the element 1. -/
def loopPlace : CreatePlace := .foreach "x" (.number (.posInt 1 F64.one_fits))

/-- Only parameters are read. -/
def Readers.ofParams : Readers where
  evaluateExpr params _ _
    | .param p =>
      match params.get p with
      | some v => if hv : v.wellFormed = true then .ok ⟨v, hv⟩ else .error "a malformed value"
      | .none => .error "no value"
    | _ => .error "no parameter"
  writtenPathValue _ _ := .error "no paths"

/-- A transaction on an empty graph. -/
def freshTxn : WriteTxn := .begin (Graph.run [] .empty).storage

lemma sameReading_statement :
    SameReading .none .empty .empty ⟨true, false⟩ .empty sharedVariable .empty
    freshTxn.txn := ⟨_, rfl⟩

lemma not_sameReading_part :
    ¬SameReading .none .empty .empty ⟨false, true⟩ .empty sharedVariable .empty
    freshTxn.txn := by
  rintro ⟨s, hs⟩
  have hrun : (clauseSteps sharedVariable).foldlM
      (takeStep ((callerView .none .empty).compared (clauseView .none .empty .empty)) .none ⟨false,
        true⟩ .empty)
      (.start .empty .empty freshTxn.txn) = .error "a variable denotes two nodes" := rfl
  cases hrun.symm.trans hs

lemma exists_run {α : Type} {q : Prog α} {w : WriteTxn} (h : (q.run w).1.toOption.isSome = true) :
    ∃ r w', q.run w = (.ok r, w') := by
  rcases hq : q.run w with ⟨e | r, w'⟩
  · rw [hq] at h
    cases h
  · exact ⟨r, w', rfl⟩

/-- Standing alone, the clause adds what it says; and so does one in a `FOREACH` whose property is
the loop variable. -/
theorem create_adds_iff_statement :
    (∃ t',
    CreatePlace.statement.Creates .none .empty sharedVariable .empty .empty freshTxn.txn t') ∧
    ∃ t', loopPlace.Creates .ofParams .empty loopProperty .empty .empty freshTxn.txn t' ∧
      ((t'.work.tables.nodes.get 0).map fun r => r.props.fields) =
        some [("num", .number (.posInt 1 (by decide)))] := by
  constructor
  · obtain ⟨⟨written, o'⟩, w', hrun⟩ :
        ∃ r w', (CreatePlace.statement.execute .none .empty sharedVariable
        .empty .empty).run freshTxn = (.ok r, w') := exists_run (by decide +kernel)
    exact ⟨w'.txn, ((create_adds_iff [] (.done (.ok ()) : Prog Unit) rfl rfl .none .empty .statement
      sharedVariable .empty .empty).1 written o' w' hrun).mpr sameReading_statement⟩
  · obtain ⟨⟨written, o'⟩, w', hrun⟩ : ∃ r w', (loopPlace.execute .ofParams .empty loopProperty
        .empty .empty).run freshTxn = (.ok r, w') := exists_run (by decide +kernel)
    have hnode : ((((loopPlace.execute .ofParams .empty loopProperty .empty .empty).run
        freshTxn).2.txn.work.tables.nodes.get 0).map fun r => r.props.fields) =
          some [("num", .number (.posInt 1 (by decide)))] := by
      decide +kernel
    rw [hrun] at hnode
    exact ⟨w'.txn,
      ((create_adds_iff [] (.done (.ok ()) : Prog Unit) rfl rfl .ofParams .empty loopPlace
      loopProperty .empty .empty).1 written o' w' hrun).mpr ⟨_, rfl⟩, hnode⟩

/-- In a query the second pattern does not know the node of the first: the clause succeeds, and adds
another. -/
theorem create_adds_node_twice :
    ∃ r w', (CreatePlace.part.execute .none .empty sharedVariable .empty
      .empty).run freshTxn = (.ok r, w') ∧ (w'.txn.work.tables.nodes.get 2).isSome ∧
    ¬CreatePlace.part.Creates .none .empty sharedVariable .empty .empty freshTxn.txn w'.txn := by
  obtain ⟨r, w', hrun⟩ : ∃ r w', (CreatePlace.part.execute .none .empty sharedVariable
      .empty .empty).run freshTxn = (.ok r, w') := exists_run (by decide +kernel)
  have hthree : (((CreatePlace.part.execute .none .empty sharedVariable .empty .empty).run
      freshTxn).2.txn.work.tables.nodes.get 2).isSome = true := by decide +kernel
  have husable : Usable freshTxn := usable_of_reached [] (.done (.ok ()) : Prog Unit) rfl rfl
  rw [hrun] at hthree
  refine ⟨r, w', hrun, hthree, fun h => not_sameReading_part ?_⟩
  exact (creates_iff husable hrun).mp h

end Example

end IssunDB.Cypher
