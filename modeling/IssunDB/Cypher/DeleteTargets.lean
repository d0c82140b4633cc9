import IssunDB.Columns
import IssunDB.Cypher.Statements
import IssunDB.Cypher.Values

/-!
# The targets of a deletion

A `DELETE` gathers the nodes and relationships that its targets name in all rows before it deletes
any of them. A bare variable names what it is bound to; any other target is evaluated, and its value
names the entities that it encodes: a node, a relationship, those of a path, and those of the items
of a list.

* `gathers_value` — a value is gathered unless some of it is no entity.
* `remembers_rows` — the entities that the rows list are gathered.
-/

namespace IssunDB.Cypher

open List

/-! ## Gathering -/

def deleteTypeError : String := "TypeError: DELETE expects a node, relationship, or path"

/-- A signed integer cast to an id, `as u64`. -/
def castId (i : I64) : ℕ := (i.1 % 2 ^ 64).toNat

def encodedId (fields : List (String × Json)) : Option ℕ :=
  ((getField "id" fields).bind Json.asI64).map castId

mutual

/-- `value_to_delete_targets`. -/
def valueToDeleteTargets : Json → Except String (List GraphBinding)
  | .null => .ok []
  | .array items => itemsToDeleteTargets items
  | .object fields =>
    if typeTag fields = some "__Node__" then
      match encodedId fields with
      | some n => .ok [.node n]
      | none => .error "DELETE: malformed node value"
    else if typeTag fields = some "__Edge__" then
      match encodedId fields with
      | some id => .ok [.edge id]
      | none => .error "DELETE: malformed relationship value"
    else if typeTag fields = some "__Path__" then
      match partToDeleteTargets "relationships" fields with
      | .error text => .error text
      | .ok rels =>
        match partToDeleteTargets "nodes" fields with
        | .error text => .error text
        | .ok nodes => .ok (rels ++ nodes)
    else .error deleteTypeError
  | _ => .error deleteTypeError

/-- The targets of a list of values, up to the first that is none. -/
def itemsToDeleteTargets : List Json → Except String (List GraphBinding)
  | [] => .ok []
  | v :: items =>
    match valueToDeleteTargets v with
    | .error text => .error text
    | .ok named =>
      match itemsToDeleteTargets items with
      | .error text => .error text
      | .ok further => .ok (named ++ further)

def partToDeleteTargets (key : String) : List (String × Json) → Except String (List GraphBinding)
  | [] => .ok []
  | (k, v) :: fields =>
    if k = key then
      match v with
      | .array items => itemsToDeleteTargets items
      | _ => .ok []
    else partToDeleteTargets key fields

end

section Targets

-- `evaluate_expr` on the graph and the parameters of the statement
variable (evaluate : PathMap → Expr → Except String Json)

/-- `collect_delete_targets`. -/
def collectDeleteTargets (path : PathMap) (expr : Expr) : Except String (List GraphBinding) :=
  match expr with
  | .prop var "" =>
    match path.get var with
    | some (.node n) => .ok [.node n]
    | some (.edge id) => .ok [.edge id]
    | some (.edgeList ids) => .ok (ids.map .edge)
    | some (.scalar v) => valueToDeleteTargets v
    | none => .error ("unbound variable: " ++ var)
  | expr =>
    match evaluate path expr with
    | .error text => .error text
    | .ok v => valueToDeleteTargets v

/-- The entities gathered so far, each once. -/
structure DeleteTargets where
  nodes : List NodeId
  edges : List EdgeId

/-- Remember an entity unless it was seen. -/
def DeleteTargets.push (t : DeleteTargets) : GraphBinding → DeleteTargets
  | .node n => if n ∈ t.nodes then t else { t with nodes := t.nodes ++ [n] }
  | .edge id => if id ∈ t.edges then t else { t with edges := t.edges ++ [id] }
  | _ => t

def gatherRow (path : PathMap) : List Expr → DeleteTargets → Except String DeleteTargets
  | [], t => .ok t
  | target :: targets, t =>
    match collectDeleteTargets evaluate path target with
    | .error text => .error text
    | .ok named => gatherRow path targets (named.foldl DeleteTargets.push t)

def gatherRows (targets : List Expr) : List PathMap → DeleteTargets → Except String DeleteTargets
  | [], t => .ok t
  | path :: paths, t =>
    match gatherRow evaluate path targets t with
    | .error text => .error text
    | .ok t => gatherRows targets paths t

end Targets

/-! ## What targets name -/

/-- The value names a node or a relationship. -/
inductive Names : Json → GraphBinding → Prop
  | node {fields n} (h : typeTag fields = some "__Node__") (hid : encodedId fields = some n) :
    Names (.object fields) (.node n)
  | edge {fields id} (h : typeTag fields = some "__Edge__") (hid : encodedId fields = some id) :
    Names (.object fields) (.edge id)
  | item {items v b} (h : v ∈ items) (hv : Names v b) : Names (.array items) b
  | part {fields key v b} (h : typeTag fields = some "__Path__")
    (hkey : key = "relationships" ∨ key = "nodes") (hmem : v ∈ pathPart key fields)
    (hv : Names v b) : Names (.object fields) b

/-- The value is made of nodes, relationships, paths, lists and nulls. -/
inductive Deletable : Json → Prop
  | null : Deletable .null
  | node {fields n} (h : typeTag fields = some "__Node__") (hid : encodedId fields = some n) :
    Deletable (.object fields)
  | edge {fields id} (h : typeTag fields = some "__Edge__") (hid : encodedId fields = some id) :
    Deletable (.object fields)
  | array {items} (h : ∀ v ∈ items, Deletable v) : Deletable (.array items)
  | path {fields} (h : typeTag fields = some "__Path__")
    (hparts : ∀ key, key = "relationships" ∨ key = "nodes" → ∀ v ∈ pathPart key fields,
      Deletable v) : Deletable (.object fields)

def GraphBinding.Names : GraphBinding → GraphBinding → Prop
  | .scalar v, b => Cypher.Names v b
  | .edgeList ids, b => ∃ id ∈ ids, b = .edge id
  | c, b => b = c

/-- The binding is made of nodes, relationships, paths, lists and nulls. -/
def GraphBinding.Deletable : GraphBinding → Prop
  | .scalar v => Cypher.Deletable v
  | _ => True

section Targets

variable (evaluate : PathMap → Expr → Except String Json) (path : PathMap) (target : Expr)

def StandsFor (b : GraphBinding) : Prop :=
  match target with
  | .prop var "" => path.get var = some b
  | target => ∃ v, evaluate path target = .ok v ∧ b = .scalar v

def TargetNames (b : GraphBinding) : Prop := ∃ c, StandsFor evaluate path target c ∧ c.Names b

/-- The target names entities, or nothing, in a row. -/
def TargetDeletable : Prop := ∃ c, StandsFor evaluate path target c ∧ c.Deletable

end Targets

/-- What gathering answers: the entities named, where there is nothing else. -/
def Gathers (r : Except String (List GraphBinding)) (deletable : Prop)
    (named : GraphBinding → Prop) :
    Prop :=
  match r with
  | .ok found => deletable ∧ ∀ b, b ∈ found ↔ named b
  | .error _ => ¬deletable

lemma Gathers.append {r r' : Except String (List GraphBinding)} {D D' : Prop}
    {N N' : GraphBinding → Prop} : Gathers r D N → Gathers r' D' N' →
    Gathers (match r with
      | .error text => .error text
      | .ok named =>
        match r' with
        | .error text => .error text
        | .ok further => .ok (named ++ further)) (D ∧ D') fun b => N b ∨ N' b := by
  intro h h'
  cases r with
  | error text => exact fun hD => h hD.1
  | ok named =>
    cases r' with
    | error text => exact fun hD => h' hD.2
    | ok further =>
      refine ⟨⟨h.1, h'.1⟩, fun b => ?_⟩
      rw [mem_append, h.2, h'.2]

lemma Gathers.congr {r : Except String (List GraphBinding)} {D D' : Prop}
    {N N' : GraphBinding → Prop} (h : Gathers r D N) (hD : D' ↔ D) (hN : ∀ b, N' b ↔ N b) :
    Gathers r D' N' := by
  obtain rfl : D' = D := propext hD
  obtain rfl : N' = N := funext fun b => propext (hN b)
  exact h

lemma names_array {items : List Json} {b : GraphBinding} :
    Names (.array items) b ↔ ∃ v ∈ items, Names v b := by
  constructor
  · intro h
    cases h with
    | item h hv => exact ⟨_, h, hv⟩
  · rintro ⟨v, h, hv⟩
    exact .item h hv

lemma deletable_array {items : List Json} :
    Deletable (.array items) ↔ ∀ v ∈ items, Deletable v := by
  constructor
  · intro h
    cases h with
    | array h => exact h
  · exact .array

section Objects

variable {fields : List (String × Json)} {b : GraphBinding}

lemma names_object : Names (.object fields) b ↔
    (typeTag fields = some "__Node__" ∧ ∃ n, encodedId fields = some n ∧ b = .node n) ∨
    (typeTag fields = some "__Edge__" ∧ ∃ id, encodedId fields = some id ∧ b = .edge id) ∨
    typeTag fields = some "__Path__" ∧
      ∃ key, (key = "relationships" ∨ key = "nodes") ∧ ∃ v ∈ pathPart key fields, Names v b := by
  constructor
  · intro h
    cases h with
    | node h hid => exact .inl ⟨h, _, hid, rfl⟩
    | edge h hid => exact .inr (.inl ⟨h, _, hid, rfl⟩)
    | part h hkey hmem hv => exact .inr (.inr ⟨h, _, hkey, _, hmem, hv⟩)
  · rintro (⟨h, n, hid, rfl⟩ | ⟨h, id, hid, rfl⟩ | ⟨h, key, hkey, v, hmem, hv⟩)
    · exact .node h hid
    · exact .edge h hid
    · exact .part h hkey hmem hv

lemma deletable_object : Deletable (.object fields) ↔
    (typeTag fields = some "__Node__" ∧ ∃ n, encodedId fields = some n) ∨
    (typeTag fields = some "__Edge__" ∧ ∃ id, encodedId fields = some id) ∨
    typeTag fields = some "__Path__" ∧
      ∀ key, key = "relationships" ∨ key = "nodes" → ∀ v ∈ pathPart key fields, Deletable v := by
  constructor
  · intro h
    cases h with
    | node h hid => exact .inl ⟨h, _, hid⟩
    | edge h hid => exact .inr (.inl ⟨h, _, hid⟩)
    | path h hparts => exact .inr (.inr ⟨h, hparts⟩)
  · rintro (⟨h, n, hid⟩ | ⟨h, id, hid⟩ | ⟨h, hparts⟩)
    · exact .node h hid
    · exact .edge h hid
    · exact .path h hparts

lemma gathers_object (hparts : ∀ key, Gathers (partToDeleteTargets key fields)
      (∀ v ∈ pathPart key fields, Deletable v) fun b => ∃ v ∈ pathPart key fields, Names v b) :
    Gathers (valueToDeleteTargets (.object fields)) (Deletable (.object fields))
      (Names (.object fields)) := by
  rw [valueToDeleteTargets]
  by_cases hnode : typeTag fields = some "__Node__"
  · rw [if_pos hnode]
    rcases hid : encodedId fields with _ | n <;>
      simp [Gathers, names_object, deletable_object, hnode, hid]
  rw [if_neg hnode]
  by_cases hedge : typeTag fields = some "__Edge__"
  · rw [if_pos hedge]
    rcases hid : encodedId fields with _ | id <;>
      simp [Gathers, names_object, deletable_object, hedge, hid]
  rw [if_neg hedge]
  by_cases hpath : typeTag fields = some "__Path__"
  · rw [if_pos hpath]
    refine ((hparts "relationships").append (hparts "nodes")).congr ?_ fun b => ?_
    · simp [deletable_object, hpath]
    · simp [names_object, hpath]
  · rw [if_neg hpath]
    simp [Gathers, deletable_object, hnode, hedge, hpath]

end Objects

mutual

/-- **What a value names** is gathered, unless some of it is no entity. -/
theorem gathers_value : ∀ v : Json, Gathers (valueToDeleteTargets v) (Deletable v) (Names v)
  | .null => by
    refine ⟨.null, fun b => ?_⟩
    simp only [not_mem_nil, false_iff]
    intro h
    cases h
  | .array items => by
    rw [valueToDeleteTargets]
    exact (gathers_items items).congr deletable_array fun b => names_array
  | .object fields => gathers_object fun key => gathers_part key fields
  | .bool _ => by
    rintro ⟨⟩
  | .number _ => by
    rintro ⟨⟩
  | .string _ => by
    rintro ⟨⟩

theorem gathers_items : ∀ items : List Json, Gathers (itemsToDeleteTargets items)
    (∀ v ∈ items, Deletable v) fun b => ∃ v ∈ items, Names v b
  | [] => by simp [itemsToDeleteTargets, Gathers]
  | v :: items => by
    rw [itemsToDeleteTargets]
    exact ((gathers_value v).append (gathers_items items)).congr forall_mem_cons (by simp)

theorem gathers_part (key : String) : ∀ fields : List (String × Json),
    Gathers (partToDeleteTargets key fields) (∀ v ∈ pathPart key fields, Deletable v)
      fun b => ∃ v ∈ pathPart key fields, Names v b
  | [] => by simp [partToDeleteTargets, Gathers, pathPart, getField]
  | (k, v) :: fields => by
    unfold partToDeleteTargets
    by_cases hk : k = key
    · rw [if_pos hk]
      have hpart : pathPart key ((k, v) :: fields) = arrayItems v := by
        simp [pathPart, getField, hk]
      rw [hpart]
      cases v with
      | array items => exact gathers_items items
      | _ => simp [Gathers, arrayItems]
    · rw [if_neg hk]
      have hpart : pathPart key ((k, v) :: fields) = pathPart key fields := by
        simp [pathPart, getField, hk]
      rw [hpart]
      exact gathers_part key fields

end

section Rows

variable {evaluate : PathMap → Expr → Except String Json}

lemma gathers_target (path : PathMap) (target : Expr) :
    Gathers (collectDeleteTargets evaluate path target) (TargetDeletable evaluate path target)
      (TargetNames evaluate path target) := by
  unfold collectDeleteTargets TargetDeletable TargetNames StandsFor
  split
  next var =>
    rcases path.get var with _ | c
    · simp [Gathers]
    · simp only [Option.some.injEq, exists_eq_left']
      rcases c with n | id | ids | v
      · simp [Gathers, GraphBinding.Names, GraphBinding.Deletable]
      · simp [Gathers, GraphBinding.Names, GraphBinding.Deletable]
      · simp [Gathers, GraphBinding.Names, GraphBinding.Deletable, eq_comm]
      · exact gathers_value v
  next =>
    rcases evaluate path target with text | v
    · simp [Gathers]
    · apply (gathers_value v).congr
      · simp [GraphBinding.Deletable]
      · simp [GraphBinding.Names]

/-- What a gathering remembers: what was remembered before it, and what is named now. -/
def Remembers (t : DeleteTargets) (r : Except String DeleteTargets) (deletable : Prop)
    (named : GraphBinding → Prop) : Prop :=
  match r with
  | .ok t' => deletable ∧ (∀ n, n ∈ t'.nodes ↔ n ∈ t.nodes ∨ named (.node n)) ∧
    ∀ id, id ∈ t'.edges ↔ id ∈ t.edges ∨ named (.edge id)
  | .error _ => ¬deletable

variable {t : DeleteTargets}

lemma mem_nodes_push {b : GraphBinding} {n : NodeId} :
    n ∈ (t.push b).nodes ↔ n ∈ t.nodes ∨ b = .node n := by
  cases b with
  | node m =>
    rw [DeleteTargets.push]
    split
    next h =>
      refine ⟨.inl, ?_⟩
      rintro (h' | h')
      · exact h'
      · cases h'
        exact h
    next => simp [eq_comm]
  | edge id =>
    rw [DeleteTargets.push]
    split <;> simp
  | _ => simp [DeleteTargets.push]

lemma mem_edges_push {b : GraphBinding} {id : EdgeId} :
    id ∈ (t.push b).edges ↔ id ∈ t.edges ∨ b = .edge id := by
  cases b with
  | edge id' =>
    rw [DeleteTargets.push]
    split
    next h =>
      refine ⟨.inl, ?_⟩
      rintro (h' | h')
      · exact h'
      · cases h'
        exact h
    next => simp [eq_comm]
  | node n =>
    rw [DeleteTargets.push]
    split <;> simp
  | _ => simp [DeleteTargets.push]

lemma remembers_push (found : List GraphBinding) (t : DeleteTargets) :
    Remembers t (.ok (found.foldl DeleteTargets.push t)) True (· ∈ found) := by
  induction found generalizing t with
  | nil => simp [Remembers]
  | cons b found ih =>
    obtain ⟨-, hnodes, hedges⟩ := ih (t.push b)
    refine ⟨trivial, fun n => ?_, fun id => ?_⟩
    · rw [foldl_cons, hnodes, mem_nodes_push, or_assoc]
      simp [eq_comm]
    · rw [foldl_cons, hedges, mem_edges_push, or_assoc]
      simp [eq_comm]

lemma Remembers.step {f : DeleteTargets → Except String DeleteTargets} {D D' : Prop}
    {N N' : GraphBinding → Prop} {r : Except String DeleteTargets} :
    Remembers t r D N → (∀ t', Remembers t' (f t') D' N') →
      Remembers t (match r with
        | .error text => .error text
        | .ok t' => f t') (D ∧ D') fun b => N b ∨ N' b := by
  intro h h'
  rcases r with text | t'
  · exact fun hD => h hD.1
  show Remembers t (f t') _ _
  obtain ⟨hD, hnodes, hedges⟩ := h
  have hnext := h' t'
  rcases hf : f t' with text | t'' <;> rw [hf] at hnext
  · exact fun hD => hnext hD.2
  · refine ⟨⟨hD, hnext.1⟩, fun n => ?_, fun id => ?_⟩
    · rw [hnext.2.1, hnodes, or_assoc]
    · rw [hnext.2.2, hedges, or_assoc]

lemma Remembers.congr {r : Except String DeleteTargets} {D D' : Prop} {N N' : GraphBinding → Prop}
    (h : Remembers t r D N) (hD : D' ↔ D) (hN : ∀ b, N' b ↔ N b) :
    Remembers t r D' N' := by
  obtain rfl : D' = D := propext hD
  obtain rfl : N' = N := funext fun b => propext (hN b)
  exact h

lemma remembers_row (path : PathMap) (targets : List Expr) (t : DeleteTargets) :
    Remembers t (gatherRow evaluate path targets t)
      (∀ target ∈ targets, TargetDeletable evaluate path target)
      fun b => ∃ target ∈ targets, TargetNames evaluate path target b := by
  induction targets generalizing t with
  | nil => simp [Remembers, gatherRow]
  | cons target targets ih =>
    have htarget : Remembers t ((collectDeleteTargets evaluate path target).map
        (List.foldl DeleteTargets.push t)) (TargetDeletable evaluate path target)
        (TargetNames evaluate path target) := by
      have hgathers := @gathers_target evaluate path target
      rcases hfound : collectDeleteTargets evaluate path target with text | found <;>
        rw [hfound] at hgathers
      · exact hgathers
      · exact (remembers_push found t).congr (iff_true_intro hgathers.1) fun b =>
          (hgathers.2 b).symm
    have hrow : gatherRow evaluate path (target :: targets) t =
        match (collectDeleteTargets evaluate path target).map (List.foldl DeleteTargets.push t) with
        | .error text => .error text
        | .ok t' => gatherRow evaluate path targets t' := by
      rw [gatherRow]
      rcases collectDeleteTargets evaluate path target with text | found <;> rfl
    rw [hrow]
    exact (htarget.step ih).congr forall_mem_cons fun b => exists_mem_cons_iff _ _ _

/-- All rows and targets name entities. -/
def AllDeletable (evaluate : PathMap → Expr → Except String Json) (paths : List PathMap)
    (targets : List Expr) : Prop :=
  ∀ path ∈ paths, ∀ target ∈ targets, TargetDeletable evaluate path target

def Listed (evaluate : PathMap → Expr → Except String Json) (paths : List PathMap)
    (targets : List Expr) (b : GraphBinding) : Prop :=
  ∃ path ∈ paths, ∃ target ∈ targets, TargetNames evaluate path target b

/-- **What the rows list** is gathered. -/
theorem remembers_rows (targets : List Expr) (paths : List PathMap) (t : DeleteTargets) :
    Remembers t (gatherRows evaluate targets paths t) (AllDeletable evaluate paths targets)
      (Listed evaluate paths targets) := by
  induction paths generalizing t with
  | nil => simp [Remembers, gatherRows, AllDeletable, Listed]
  | cons path paths ih =>
    rw [gatherRows]
    exact ((remembers_row path targets t).step ih).congr forall_mem_cons
      fun b => exists_mem_cons_iff _ _ _

end Rows

end IssunDB.Cypher
