import IssunDB.Cypher.Keys
import IssunDB.Cypher.Raising
import IssunDB.Cypher.TopRows

/-!
# Pruning the groups of a count

A grouped count below `ORDER BY <count> LIMIT n` emits only the groups whose count reaches the
`n`-th best, ties included. `countWindow_iff` says when this cannot be told from emitting all
groups: exactly when the order of the further sort keys is transitive. Where it is not, the groups
left out decide when the bounded sort trims its buffer, and so which of the others it keeps
(`countWindow_differs`).
-/

namespace IssunDB.Cypher

open List Option

/-! ## Groups -/

/-- The top-N window pushed into a grouped count. -/
structure CountWindow where
  bound : ℕ
  descending : Bool
  deriving DecidableEq

/-- A group: the values it is grouped by and its count, a number of relationships. -/
structure Group where
  key : List Json
  count : ℕ
  count_lt : count < 2 ^ 63

def Group.countValue (g : Group) : Json := .number (.posInt g.count (g.count_lt.trans (by decide)))

/-- The first count is at least as good as the second. -/
def CountWindow.reaches (w : CountWindow) (count cutoff : ℕ) : Bool :=
  if w.descending then cutoff ≤ count else count ≤ cutoff

/-- The `bound`-th best count, `select_nth_unstable_by`. -/
def CountWindow.cutoff (w : CountWindow) (counts : List ℕ) : ℕ :=
  ((counts.mergeSort fun a b => w.reaches a b)[w.bound - 1]?).getD 0

/-- `count_window_survivors`. -/
def countWindowSurvivors (counts : List ℕ) (w : CountWindow) : Option (List ℕ) :=
  if w.bound = 0 ∨ counts.length ≤ w.bound then none
  else
    let cutoff := w.cutoff counts
    let keep := (List.range counts.length).filter fun g => w.reaches (counts.getD g 0) cutoff
    -- A cutoff that all groups reach saves nothing.
    if keep.length = counts.length then none else some keep

section Emit

variable (ft : FloatTexts) (cols : List String) (output : String)

def groupRow (g : Group) : PathMap :=
  ((cols.zip g.key).foldl (fun (row : PathMap) c => row.put c.1 (.scalar c.2)) Table.empty).put
    output (.scalar g.countValue)

def emittedGroups (w : Option CountWindow) (groups : List Group) : List Group :=
  match w.bind (countWindowSurvivors (groups.map (·.count))) with
  | some keep => keep.filterMap fun i => groups[i]?
  | none => groups

def groupRows (w : Option CountWindow) (groups : List Group) : List PathMap :=
  let keyed := (emittedGroups w groups).map fun g => (groupKey ft g.key, groupRow cols output g)
  (stableSort (fun a b => compare a.1 b.1) keyed).map Prod.snd

end Emit

/-! ## Projecting and sorting -/

/-- What projecting computes with, apart from property reads. -/
structure Projector where
  engine : Engine
  view : GraphView
  /-- `GraphBinding::from_value`. -/
  fromValue : Json → GraphBinding
  /-- The binding of an item that is no property read. -/
  item : PathMap → Expr → String → Except Error (Option GraphBinding)
  /-- `expr_display_name` of the same. -/
  displayName : Expr → String

namespace Projector

variable (P : Projector)

/-- The variable an item is bound to. -/
def target (item : Expr × Option String) : String :=
  match item.2, item.1 with
  | some name, _ => name
  | none, .prop v p => if p = "" then v else v ++ "." ++ p
  | none, e => P.displayName e

def itemBinding (path : PathMap) (item : Expr × Option String) :
    Except Error (Option GraphBinding) :=
  match item.1 with
  | .prop v p =>
    -- A group row has the item under its column name.
    if (path.get v).isNone ∧ (path.get (P.target item)).isSome then .ok (path.get (P.target item))
    else if p = "" then .ok ((path.get v).or (path.get (P.target item)))
    else
      match (P.engine.reading P.view).operand path (.prop v p) with
      | .ok val => .ok (some (P.fromValue val))
      | .error e =>
        match path.get (P.target item) with
        | some b => .ok (some b)
        | none => .error e
  | e => P.item path e (P.target item)

def projectItem (path row : PathMap) (item : Expr × Option String) : Except Error PathMap :=
  match P.itemBinding path item with
  | .ok (some b) => .ok (row.put (P.target item) b)
  | .ok none => .ok row
  | .error e => .error e

/-- `project_rows`, on one row. -/
def projectRow (items : List (Expr × Option String)) (isBarrier : Bool) (path : PathMap) :
    Except Error PathMap :=
  items.foldlM (P.projectItem path) (if isBarrier then .empty else path)

/-- The column a sort key falls back to. -/
def columnOrNull (row : PathMap) (col : String) : Option Json :=
  match row.get col with
  | some (.scalar v) => some v
  | _ => none

/-- `evaluate_sort_key`. -/
def evaluateSortKey (row : PathMap) (e : Expr) : Json :=
  match (P.engine.reading P.view).operand row e with
  | .ok v => v
  | .error _ =>
    match e with
    | .prop v p =>
      if p = "" then (columnOrNull row v).getD .null
      else ((columnOrNull row (v ++ "." ++ p)).or (columnOrNull row p)).getD .null
    | .literal l => P.engine.literalToValue l
    | .param p => (P.engine.params.get p).getD .null
    | .countStar => (columnOrNull row "count(*)").getD .null
    | _ => .null

end Projector

/-! ## The window -/

def isPropRead : Expr → Bool
  | .prop .. => true
  | _ => false

/-- The item is the variable itself, under the alias. -/
def isAliasOf (output var : String) (item : Expr × Option String) : Bool :=
  item.2 = some var &&
    match item.1 with
    | .prop v p => p = "" && v = output
    | _ => false

/-- `leading_count_sort`: whether the sort is descending. -/
def leadingCountSort (sortItems : List SortItem) (projectItems : List (Expr × Option String))
    (output : String) : Option Bool :=
  match sortItems with
  | [] => none
  | leading :: _ =>
    match leading.expr with
    | .prop var prop =>
      if prop ≠ "" then none
      else if !projectItems.all fun item => isPropRead item.1 then none
      else if var = output ∨ projectItems.any (isAliasOf output var) then some !leading.ascending
      else none
    | _ => none

/-- `Limit > Sort > Project > GroupedDegree`. `furtherKeys` evaluates the sort items but the first
on a projected row. -/
structure CountPlan where
  projector : Projector
  texts : FloatTexts
  cols : List String
  output : String
  projectItems : List (Expr × Option String)
  isBarrier : Bool
  lead : SortItem
  further : List SortItem
  furtherKeys : PathMap → List Json
  skip : ℕ
  count : ℕ

namespace CountPlan

variable (plan : CountPlan)

/-- `set_count_window`. -/
def window : Option CountWindow :=
  (leadingCountSort (plan.lead :: plan.further) plan.projectItems plan.output).map fun descending =>
    ⟨u64SaturatingAdd plan.skip plan.count, descending⟩

def keysOf (row : PathMap) : List Json :=
  plan.projector.evaluateSortKey row plan.lead.expr :: plan.furtherKeys row

/-- The rows the plan returns, with the groups pruned by a window or not. -/
def run (w : Option CountWindow) (groups : List Group) : Except Error (List PathMap) := do
  let rows ← (groupRows plan.texts plan.cols plan.output w groups).mapM
    (plan.projector.projectRow plan.projectItems plan.isBarrier)
  match limitOverSort plan.skip plan.count plan.keysOf (plan.lead :: plan.further) rows with
  | .ok rows => .ok rows
  | .error text => .error (.invalidArgument text)

/-- Every projected item is the count or a key column; no other item has the name of the count that
the sort begins with. -/
structure Planned : Prop where
  reads : ∀ item ∈ plan.projectItems, item.1 = .prop plan.output "" ∨
    ∃ v p, item.1 = .prop v p ∧ p ≠ "" ∧ plan.projector.target item ∈ plan.cols
  leads : ∀ var, plan.lead.expr = .prop var "" →
    (∀ item ∈ plan.projectItems, plan.projector.target item = var → item.1 = .prop plan.output "") ∧
      (plan.isBarrier = true → ∃ item ∈ plan.projectItems, plan.projector.target item = var)

end CountPlan

/-! ## Survivors -/

section Survivors

variable {w : CountWindow} {counts : List ℕ}

lemma reaches_trans {a b c : ℕ} (hab : w.reaches a b = true) (hbc : w.reaches b c = true) :
    w.reaches a c = true := by
  unfold CountWindow.reaches at hab hbc ⊢
  split at hab <;> simp_all <;> omega

lemma reaches_total (a b : ℕ) : (w.reaches a b || w.reaches b a) = true := by
  unfold CountWindow.reaches
  rw [Bool.or_eq_true]
  split <;> simp only [decide_eq_true_eq] <;> omega

/-- **As many groups as the window holds reach the cutoff.** -/
theorem bound_le_reaching (hlen : w.bound < counts.length) :
    w.bound ≤ (counts.filter fun c => w.reaches c (w.cutoff counts)).length := by
  let sorted := counts.mergeSort fun a b => w.reaches a b
  have hperm : sorted.Perm counts := mergeSort_perm _ _
  have hsorted : sorted.Pairwise fun a b => w.reaches a b = true :=
    @pairwise_mergeSort _ (fun a b => w.reaches a b) (fun _ _ _ => reaches_trans)
      reaches_total _
  have hlt : w.bound - 1 < sorted.length := by
    rw [hperm.length_eq]
    omega
  have hcutoff : w.cutoff counts = sorted[w.bound - 1] := by
    show (sorted[w.bound - 1]?).getD 0 = _
    rw [getElem?_eq_getElem hlt]
    rfl
  -- The first of the sorted counts reach the cutoff.
  have hall : ∀ c ∈ sorted.take w.bound, w.reaches c (w.cutoff counts) = true := by
    intro c hc
    obtain ⟨i, hi, rfl⟩ := getElem_of_mem hc
    rw [length_take] at hi
    rw [getElem_take, hcutoff]
    rcases Nat.lt_or_ge i (w.bound - 1) with hbefore | hge
    · exact pairwise_iff_getElem.mp hsorted i _ (by omega) hlt hbefore
    · have hi' : i = w.bound - 1 := by omega
      subst hi'
      have hself := reaches_total (w := w) sorted[w.bound - 1] sorted[w.bound - 1]
      rwa [Bool.or_self] at hself
  calc w.bound = (sorted.take w.bound).length := by
        rw [length_take, hperm.length_eq, min_eq_left hlen.le]
    _ = ((sorted.take w.bound).filter fun c => w.reaches c (w.cutoff counts)).length := by
        rw [filter_eq_self.mpr hall]
    _ ≤ (sorted.filter fun c => w.reaches c (w.cutoff counts)).length :=
        ((take_sublist _ _).filter _).length_le
    _ = (counts.filter fun c => w.reaches c (w.cutoff counts)).length :=
        (hperm.filter _).length_eq

lemma filterMap_getElem_filter {α : Type} (l : List α) (p : ℕ → Bool) (q : α → Bool)
    (hpq : ∀ i (hi : i < l.length), p i = q l[i]) :
    ((List.range l.length).filter p).filterMap (fun i => l[i]?) = l.filter q := by
  induction l using List.reverseRecOn with
  | nil => rfl
  | append_singleton l a ih =>
    have hlast : p l.length = q a := by
      have := hpq l.length (by simp)
      simpa using this
    have hinit : ∀ i (hi : i < l.length), p i = q l[i] := by
      intro i hi
      have := hpq i (by simp; omega)
      rwa [getElem_append_left hi] at this
    have hfront : ((List.range l.length).filter p).filterMap (fun i => (l ++ [a])[i]?) =
        ((List.range l.length).filter p).filterMap fun i => l[i]? := by
      apply filterMap_congr
      intro i hi
      rw [mem_filter, mem_range] at hi
      rw [getElem?_append_left hi.1]
    rw [length_append, length_singleton, range_succ, filter_append,
      filterMap_append, hfront, ih hinit, filter_append]
    congr 1
    rw [filter_singleton, filter_singleton, hlast]
    cases q a <;> simp

lemma countWindowSurvivors_cases (counts : List ℕ) (w : CountWindow) :
    countWindowSurvivors counts w = none ∨
      (w.bound ≠ 0 ∧ w.bound < counts.length) ∧ countWindowSurvivors counts w =
        some ((List.range counts.length).filter fun g =>
          w.reaches (counts.getD g 0) (w.cutoff counts)) := by
  unfold countWindowSurvivors
  by_cases hsmall : w.bound = 0 ∨ counts.length ≤ w.bound
  · exact .inl (if_pos hsmall)
  · rw [if_neg hsmall]
    push Not at hsmall
    dsimp only
    split
    · exact .inl rfl
    · exact .inr ⟨hsmall, rfl⟩

lemma emittedGroups_cases (w : Option CountWindow) (groups : List Group) :
    emittedGroups w groups = groups ∨
      ∃ v, w = some v ∧ ∃ cutoff,
        emittedGroups w groups = groups.filter (fun g => v.reaches g.count cutoff) ∧
          v.bound ≤ (groups.filter fun g => v.reaches g.count cutoff).length := by
  unfold emittedGroups
  rcases w with _ | v
  · exact .inl rfl
  rw [bind_some]
  rcases countWindowSurvivors_cases (groups.map (·.count)) v with hnone | ⟨⟨-, hlt⟩, hkeep⟩
  · rw [hnone]
    exact .inl rfl
  · rw [hkeep]
    refine .inr ⟨v, rfl, v.cutoff (groups.map (·.count)), ?_, ?_⟩
    · dsimp only
      rw [length_map]
      apply filterMap_getElem_filter
      intro i hi
      rw [getD_eq_getElem?_getD, getElem?_map, getElem?_eq_getElem hi]
      rfl
    · have hreach := bound_le_reaching hlt
      rw [List.filter_map, length_map] at hreach
      exact hreach

end Survivors

/-! ## Rows of groups -/

section Rows

variable {plan : CountPlan} {g : Group}

lemma isSome_foldl_put {l : List (String × Json)} {row : PathMap} {v : String}
    (h : (row.get v).isSome ∨ v ∈ l.map Prod.fst) :
    ((l.foldl (fun (row : PathMap) c => row.put c.1 (.scalar c.2)) row).get v).isSome := by
  induction l generalizing row with
  | nil =>
    rcases h with h | h
    · exact h
    · cases h
  | cons c l ih =>
    apply ih
    rcases h with h | h
    · exact .inl (Table.isSome_get_put h)
    · rw [map_cons, mem_cons] at h
      rcases h with rfl | h
      · exact .inl (by rw [Table.get_put_self]; rfl)
      · exact .inr h

lemma get_groupRow_output (cols : List String) (output : String) (g : Group) :
    (groupRow cols output g).get output = some (.scalar g.countValue) :=
  Table.get_put_self _ _ _

lemma isSome_get_groupRow {cols : List String} {output col : String}
    (hlen : g.key.length = cols.length) (hcol : col ∈ cols) :
    ((groupRow cols output g).get col).isSome := by
  apply Table.isSome_get_put
  apply isSome_foldl_put
  right
  rwa [map_fst_zip hlen.ge]

namespace CountPlan

def row (plan : CountPlan) (g : Group) : PathMap := groupRow plan.cols plan.output g

/-- **One item.** It is bound, and to the count where it reads the count. -/
theorem itemBinding_eq (h : plan.Planned) (hlen : g.key.length = plan.cols.length)
    {item : Expr × Option String} (hitem : item ∈ plan.projectItems) :
    ∃ b, plan.projector.itemBinding (plan.row g) item = .ok (some b) ∧
      (item.1 = .prop plan.output "" → b = .scalar g.countValue) := by
  have hcount : (plan.row g).get plan.output = some (.scalar g.countValue) :=
    get_groupRow_output _ _ _
  rcases h.reads item hitem with hread | ⟨v, p, hread, hp, hcol⟩
  · refine ⟨.scalar g.countValue, ?_, fun _ => rfl⟩
    unfold Projector.itemBinding
    rw [hread]
    dsimp only
    rw [hcount, if_neg (by simp), if_pos rfl]
    rfl
  · obtain ⟨b, hb⟩ := isSome_iff_exists.mp
      (@isSome_get_groupRow _ _ plan.output _ hlen hcol)
    have hb' : (plan.row g).get (plan.projector.target item) = some b := hb
    have hother : ∀ {b : GraphBinding}, Expr.prop v p = .prop plan.output "" →
        b = .scalar g.countValue := fun heq => absurd (Expr.prop.inj heq).2 hp
    unfold Projector.itemBinding
    rw [hread]
    dsimp only
    rw [hb']
    split
    · exact ⟨b, rfl, hother⟩
    · -- A read that raises falls back to the key column.
      cases (plan.projector.engine.reading plan.projector.view).operand (plan.row g)
        (.prop v p) with
      | ok val => exact ⟨_, rfl, hother⟩
      | error e => exact ⟨b, rfl, hother⟩

/-- **Run.** Projecting the row of a group succeeds, and a variable that only the count is bound to
is bound to the count. -/
theorem foldlM_projectItem (h : plan.Planned) (hlen : g.key.length = plan.cols.length)
    {items : List (Expr × Option String)} (hitems : ∀ item ∈ items, item ∈ plan.projectItems)
    (start : PathMap) :
    ∃ row, items.foldlM (plan.projector.projectItem (plan.row g)) start = .ok row ∧
      ∀ var, (∀ item ∈ items, plan.projector.target item = var → item.1 = .prop plan.output "") →
        (start.get var = some (.scalar g.countValue) ∨
          ∃ item ∈ items, plan.projector.target item = var) →
        row.get var = some (.scalar g.countValue) := by
  induction items generalizing start with
  | nil =>
    refine ⟨start, rfl, fun var _ hvar => ?_⟩
    rcases hvar with hvar | ⟨item, hitem, -⟩
    · exact hvar
    · cases hitem
  | cons item items ih =>
    obtain ⟨b, hb, hcount⟩ := itemBinding_eq h hlen (hitems item mem_cons_self)
    obtain ⟨row, hrow, hvar⟩ := ih (fun i hi => hitems i (mem_cons_of_mem _ hi))
      (start.put (plan.projector.target item) b)
    refine ⟨row, ?_, fun var hreads hbound => ?_⟩
    · have hstep : plan.projector.projectItem (plan.row g) start item =
          .ok (start.put (plan.projector.target item) b) := by
        unfold Projector.projectItem
        rw [hb]
      rw [foldlM_cons, hstep]
      exact hrow
    · apply hvar var fun i hi => hreads i (mem_cons_of_mem _ hi)
      by_cases htarget : plan.projector.target item = var
      · left
        rw [htarget, Table.get_put_self, hcount (hreads item mem_cons_self htarget)]
      · rcases hbound with hbound | ⟨i, hi, hname⟩
        · left
          rwa [Table.get_put_of_ne _ _ (Ne.symm htarget)]
        · rcases mem_cons.mp hi with rfl | hi
          · exact absurd hname htarget
          · exact .inr ⟨i, hi, hname⟩

def projected (plan : CountPlan) (g : Group) : PathMap :=
  match plan.projector.projectRow plan.projectItems plan.isBarrier (plan.row g) with
  | .ok row => row
  | .error _ => .empty

lemma projectRow_eq (h : plan.Planned) (hlen : g.key.length = plan.cols.length) :
    plan.projector.projectRow plan.projectItems plan.isBarrier (plan.row g) =
      .ok (plan.projected g) := by
  obtain ⟨row, hrow, -⟩ := foldlM_projectItem h hlen (fun _ hitem => hitem)
    (if plan.isBarrier then .empty else plan.row g)
  have hok : plan.projector.projectRow plan.projectItems plan.isBarrier (plan.row g) = .ok row :=
    hrow
  unfold projected
  rw [hok]

lemma keysOf_projected (h : plan.Planned) (hlen : g.key.length = plan.cols.length)
    {descending : Bool} (hlead : leadingCountSort (plan.lead :: plan.further) plan.projectItems
      plan.output = some descending) :
    plan.keysOf (plan.projected g) = g.countValue :: plan.furtherKeys (plan.projected g) ∧
      descending = !plan.lead.ascending := by
  unfold leadingCountSort at hlead
  dsimp only at hlead
  cases hexpr : plan.lead.expr with
  | prop var prop =>
    rw [hexpr] at hlead
    dsimp only at hlead
    by_cases hprop : prop = ""
    · subst hprop
      rw [if_neg (by simp)] at hlead
      split at hlead
      · cases hlead
      · split at hlead
        next hnamed =>
          refine ⟨?_, (some.inj hlead).symm⟩
          obtain ⟨hreads, hbarrier⟩ := h.leads var hexpr
          have hget : (plan.projected g).get var = some (.scalar g.countValue) := by
            obtain ⟨row, hrow, hvar⟩ := foldlM_projectItem h hlen (fun _ hitem => hitem)
              (if plan.isBarrier then .empty else plan.row g)
            have hsame := (projectRow_eq h hlen).symm.trans hrow
            rw [Except.ok.inj hsame]
            apply hvar var hreads
            rcases hnamed with rfl | hany
            · -- The count has the name itself.
              cases hbar : plan.isBarrier with
              | true => exact .inr (hbarrier hbar)
              | false => exact .inl (get_groupRow_output _ _ _)
            · obtain ⟨item, hitem, halias⟩ := List.any_eq_true.mp hany
              refine .inr ⟨item, hitem, ?_⟩
              unfold isAliasOf at halias
              rw [Bool.and_eq_true, decide_eq_true_eq] at halias
              unfold Projector.target
              rw [halias.1]
          unfold keysOf
          congr 1
          rw [hexpr]
          unfold Projector.evaluateSortKey Engine.operand
          dsimp only
          rw [hget]
          rfl
        next => cases hlead
    · rw [if_pos hprop] at hlead
      cases hlead
  | _ =>
    rw [hexpr] at hlead
    cases hlead

end CountPlan

end Rows

/-! ## The order of the rows of groups -/

section Order

variable {lead : SortItem} {further : List SortItem} {T : Set (List Json)}

/-- Two counts under the direction of a sort item. -/
def countCmp (lead : SortItem) (m n : ℕ) : Ordering :=
  if lead.ascending then compare m n else compare n m

lemma sortCmp_count (g g' : Group) (t t' : List Json) :
    sortCmp (lead :: further) (g.countValue :: t) (g'.countValue :: t') =
      (countCmp lead g.count g'.count).then (sortCmp further t t') := by
  have hone : (jsonCmp g.countValue g'.countValue).getD (jsonCmpTotal g.countValue g'.countValue) =
      compare g.count g'.count := by
    have hi64 : ∀ g : Group, ∀ h, (Number.posInt g.count h).asI64 = some (g.count : ℤ) :=
      fun g _ => if_pos g.count_lt
    show numberCmp (.posInt g.count _) (.posInt g'.count _) = _
    unfold numberCmp
    rw [hi64 g, hi64 g']
    show compareOfLessAndEq (g.count : ℤ) g'.count = compareOfLessAndEq g.count g'.count
    simp [compareOfLessAndEq]
  rw [sortCmp, hone]
  unfold countCmp
  have hswap : (compare g.count g'.count).swap = compare g'.count g.count :=
    Std.OrientedOrd.eq_swap.symm
  rw [hswap]
  cases (if lead.ascending then compare g.count g'.count else compare g'.count g.count) <;> rfl

def countKeys (T : Set (List Json)) : Set (List Json) :=
  {keys | ∃ g : Group, ∃ t ∈ T, keys = g.countValue :: t}

lemma comparesOn_countCmp (lead : SortItem) : ComparesOn (countCmp lead) Set.univ := by
  unfold countCmp
  cases lead.ascending with
  | true => exact ComparesOn.ofKey id fun _ _ _ _ => rfl
  | false =>
    have hcounts : ComparesOn (fun a b : ℕ => compare a b) Set.univ :=
      ComparesOn.ofKey id fun _ _ _ _ => rfl
    refine hcounts.reverse.congr fun a _ b _ => ?_
    exact Std.OrientedOrd.eq_swap

/-- **A count and then a lawful order is a lawful order.** -/
theorem comparesOn_countKeys (h : ComparesOn (sortCmp further) T) :
    ComparesOn (sortCmp (lead :: further)) (countKeys T) := by
  have hcount : ∀ keys ∈ countKeys T, ((asU64 (keys.headD .null)).getD 0) ∈ Set.univ :=
    fun _ _ => trivial
  have htail : ∀ keys ∈ countKeys T, keys.tail ∈ T := by
    rintro _ ⟨g, t, ht, rfl⟩
    exact ht
  refine (((comparesOn_countCmp lead).comap hcount).lex (h.comap htail)).congr ?_
  rintro _ ⟨g, t, ht, rfl⟩ _ ⟨g', t', ht', rfl⟩
  exact sortCmp_count g g' t t'

end Order

/-! ## When pruning cannot be told -/

section Contract

namespace CountPlan

variable {plan : CountPlan} {groups : List Group} {T : Set (List Json)}

def inOrder (plan : CountPlan) (groups : List Group) : List Group :=
  stableSort (fun g g' => compare (groupKey plan.texts g.key) (groupKey plan.texts g'.key)) groups

lemma groupRows_eq (w : Option CountWindow) (groups : List Group) :
    groupRows plan.texts plan.cols plan.output w groups =
      (plan.inOrder (emittedGroups w groups)).map plan.row := by
  unfold groupRows inOrder stableSort
  dsimp only
  rw [← map_mergeSort (f := fun g : Group =>
      (groupKey plan.texts g.key, groupRow plan.cols plan.output g))
    (r := fun g g' => (compare (groupKey plan.texts g.key) (groupKey plan.texts g'.key)).isLE)
    (s := fun a b => (compare a.1 b.1).isLE) fun _ _ _ _ => rfl, List.map_map]
  rfl

lemma mem_inOrder {g : Group} : g ∈ plan.inOrder groups ↔ g ∈ groups :=
  (perm_stableSort _ groups).mem_iff

lemma filter_inOrder (p : Group → Bool) :
    (plan.inOrder groups).filter p = plan.inOrder (groups.filter p) :=
  stableSort_filter (T := Set.univ) (ComparesOn.ofKey (fun g : Group => groupKey plan.texts g.key)
    fun _ _ _ _ => rfl) (fun _ _ => trivial) p

lemma mapM_projectRow (h : plan.Planned) (l : List Group)
    (hlen : ∀ g ∈ l, g.key.length = plan.cols.length) :
    (l.map plan.row).mapM (plan.projector.projectRow plan.projectItems plan.isBarrier) =
      .ok (l.map plan.projected) := by
  induction l with
  | nil => rfl
  | cons g l ih =>
    rw [map_cons, mapM_cons, projectRow_eq h (hlen g mem_cons_self),
      ih fun g hg => hlen g (mem_cons_of_mem _ hg)]
    rfl

/-- **The window.** Where the order of the further keys is lawful, the first rows of the groups that
reach the cutoff are the first rows of all groups. -/
theorem run_window (h : plan.Planned) (hlen : ∀ g ∈ groups, g.key.length = plan.cols.length)
    (hfurther : ComparesOn (sortCmp plan.further) T)
    (hkeys : ∀ g ∈ groups, plan.furtherKeys (plan.projected g) ∈ T) :
    plan.run plan.window groups = plan.run none groups := by
  rcases hlead : leadingCountSort (plan.lead :: plan.further) plan.projectItems plan.output with
    _ | descending
  · unfold window
    rw [hlead]
    rfl
  have hwindow : plan.window = some ⟨u64SaturatingAdd plan.skip plan.count, descending⟩ := by
    unfold window
    rw [hlead]
    rfl
  unfold run
  rw [groupRows_eq, groupRows_eq, hwindow]
  have hnone : emittedGroups none groups = groups := rfl
  rcases emittedGroups_cases (some ⟨u64SaturatingAdd plan.skip plan.count, descending⟩) groups with
    hall | ⟨v, hv, cutoff, hfilter, henough⟩
  · rw [hall, hnone]
  obtain rfl := some.inj hv
  rw [hfilter, hnone, ← filter_inOrder]
  let w : CountWindow := ⟨u64SaturatingAdd plan.skip plan.count, descending⟩
  let good : Group → Bool := fun g => w.reaches g.count cutoff
  let items := plan.lead :: plan.further
  let sorted := plan.inOrder groups
  have hmem : ∀ g ∈ sorted, g ∈ groups := fun g hg => mem_inOrder.mp hg
  have hmem' : ∀ g ∈ sorted.filter good, g ∈ groups := fun g hg =>
    hmem g (mem_of_mem_filter hg)
  -- The sort keys of a group are its count and the further ones.
  have hsplit : ∀ g ∈ groups, plan.keysOf (plan.projected g) =
      g.countValue :: plan.furtherKeys (plan.projected g) := fun g hg =>
    (keysOf_projected h (hlen g hg) hlead).1
  have hK : ComparesOn (sortCmp items) (countKeys T) := comparesOn_countKeys hfurther
  have hinK : ∀ g ∈ groups, plan.keysOf (plan.projected g) ∈ countKeys T := fun g hg =>
    ⟨g, _, hkeys g hg, hsplit g hg⟩
  let cmp := fun g g' : Group =>
    sortCmp items (plan.keysOf (plan.projected g)) (plan.keysOf (plan.projected g'))
  have hcmp : ComparesOn cmp {g | g ∈ groups} := hK.comap hinK
  have hfirst : ∀ g ∈ sorted, ∀ g' ∈ sorted, good g = true → good g' = false → cmp g g' = .lt := by
    intro g hg g' hg' hgood hbad
    have hdesc := (keysOf_projected h (hlen g (hmem g hg)) hlead).2
    show sortCmp items (plan.keysOf (plan.projected g)) (plan.keysOf (plan.projected g')) = .lt
    rw [hsplit g (hmem g hg), hsplit g' (hmem g' hg'), sortCmp_count]
    have hlt : countCmp plan.lead g.count g'.count = .lt := by
      have hbad' : w.reaches g'.count cutoff = false := hbad
      have hgood' : w.reaches g.count cutoff = true := hgood
      unfold CountWindow.reaches at hgood' hbad'
      unfold countCmp
      rw [show w.descending = !plan.lead.ascending from hdesc] at hgood' hbad'
      cases hasc : plan.lead.ascending <;> rw [hasc] at hgood' hbad' <;>
        simp only [Bool.not_true, Bool.not_false, if_true, Bool.false_eq_true, if_false,
          decide_eq_true_eq, decide_eq_false_iff_not] at hgood' hbad' ⊢ <;>
        exact Nat.compare_eq_lt.mpr (by omega)
    rw [hlt]
    rfl
  have htake : (stableSort cmp (sorted.filter good)).take w.bound =
      (stableSort cmp sorted).take w.bound := by
    apply take_stableSort_filter hcmp (fun g hg => hmem g hg) hfirst
    rw [filter_inOrder]
    exact henough.trans_eq (perm_stableSort _ _).length_eq.symm
  -- Sorting rows of groups is sorting groups.
  have hrows : ∀ l : List Group, (∀ g ∈ l, g ∈ groups) →
      sortAll plan.keysOf items (l.map plan.projected) (some w.bound) =
        ((stableSort cmp l).take w.bound).map plan.projected := by
    intro l hl
    have hin : ∀ r ∈ l.map plan.projected, plan.keysOf r ∈ countKeys T := by
      intro r hr
      obtain ⟨g, hg, rfl⟩ := List.mem_map.mp hr
      exact hinK g (hl g hg)
    rw [sortAll_some hK hin, sortAll_none, map_take]
    congr 1
    exact (map_mergeSort (f := plan.projected) (r := fun g g' => (cmp g g').isLE)
      (s := fun r r' => (sortCmp items (plan.keysOf r) (plan.keysOf r')).isLE)
      fun _ _ _ _ => rfl).symm
  have hlimit : limitOverSort plan.skip plan.count plan.keysOf items
      ((sorted.filter good).map plan.projected) =
        limitOverSort plan.skip plan.count plan.keysOf items (sorted.map plan.projected) := by
    show limit _ _ (sortAll plan.keysOf items _ (some w.bound)) =
      limit _ _ (sortAll plan.keysOf items _ (some w.bound))
    rw [hrows _ hmem', hrows _ hmem, htake]
  rw [mapM_projectRow h _ fun g hg => hlen g (hmem' g hg),
    mapM_projectRow h _ fun g hg => hlen g (hmem g hg)]
  show (match limitOverSort plan.skip plan.count plan.keysOf items
      ((sorted.filter good).map plan.projected) with
    | .ok rows => Except.ok rows
    | .error text => Except.error (Error.invalidArgument text)) = _
  rw [hlimit]
  rfl

/-- A plan whose further sort keys are those a table gives for the values of its key column. -/
def keyed (further : List SortItem) (furtherKeys : Json → List Json) : CountPlan where
  projector := ⟨Engine.openWedge, oneNodeView, .scalar, fun _ _ _ => .ok none, fun _ => ""⟩
  texts := bitsTexts
  cols := ["n.k"]
  output := "_ret_agg_0"
  projectItems := [(.prop "n" "k", none), (.prop "_ret_agg_0" "", some "c")]
  isBarrier := false
  lead := ⟨.prop "c" "", false⟩
  further := further
  furtherKeys row :=
    match row.get "n.k" with
    | some (.scalar v) => furtherKeys v
    | _ => furtherKeys .null
  skip := 0
  count := 2

lemma planned_keyed (further : List SortItem) (furtherKeys : Json → List Json) :
    (keyed further furtherKeys).Planned where
  reads item hitem := by
    simp only [keyed, mem_cons, not_mem_nil, or_false] at hitem
    rcases hitem with rfl | rfl
    · refine .inr ⟨"n", "k", rfl, by decide, ?_⟩
      show "n" ++ "." ++ "k" ∈ ["n.k"]
      decide
    · exact .inl rfl
  leads var hvar := by
    obtain ⟨rfl, -⟩ := Expr.prop.inj hvar
    refine ⟨fun item hitem htarget => ?_, fun hbar => by cases hbar⟩
    simp only [keyed, mem_cons, not_mem_nil, or_false] at hitem
    rcases hitem with rfl | rfl
    · change "n" ++ "." ++ "k" = "c" at htarget
      exact absurd htarget (by decide)
    · rfl

end CountPlan

lemma small_fits (n : Fin 5) : n.1 < 2 ^ 64 := n.2.trans (by decide)

def smallGroup (n count : Fin 5) : Group :=
  ⟨[.number (.posInt n.1 (small_fits n))], count.1, count.2.trans (by decide)⟩

def fiveGroups : List Group :=
  [smallGroup 0 2, smallGroup 1 2, smallGroup 2 2, smallGroup 3 1, smallGroup 4 2]

lemma cutoff_fiveGroups : CountWindow.cutoff ⟨2, true⟩ [2, 2, 2, 1, 2] = 2 := by
  unfold CountWindow.cutoff
  simp [List.mergeSort, List.MergeSort.Internal.splitInTwo_fst,
    List.MergeSort.Internal.splitInTwo_snd, CountWindow.reaches]

lemma survivors_fiveGroups :
    countWindowSurvivors [2, 2, 2, 1, 2] ⟨2, true⟩ = some [0, 1, 2, 4] := by
  unfold countWindowSurvivors
  rw [cutoff_fiveGroups]
  decide

lemma sortedBy_fiveGroups : SortedBy
    (fun g g' => compare (groupKey bitsTexts g.key) (groupKey bitsTexts g'.key)) fiveGroups := by
  unfold SortedBy
  decide +kernel

section Circle

variable {further : List SortItem} {a b c : List Json}

def fiveKeys (a b c : List Json) (v : Json) : List Json :=
  match asU64 v with
  | some 2 => b
  | some 4 => c
  | _ => a

/-- The plan over the five groups. -/
def circlePlan (further : List SortItem) (a b c : List Json) : CountPlan :=
  .keyed further (fiveKeys a b c)

lemma get_projected (n count : Fin 5) :
    ((circlePlan further a b c).projected (smallGroup n count)).get "n.k" =
      some (.scalar (.number (.posInt n.1 (small_fits n)))) := by
  rfl

lemma keysOf_circlePlan (n count : Fin 5) :
    (circlePlan further a b c).keysOf ((circlePlan further a b c).projected (smallGroup n count)) =
      (smallGroup n count).countValue :: fiveKeys a b c (.number (.posInt n.1 (small_fits n))) := by
  rfl

lemma length_fiveGroups :
    ∀ g ∈ fiveGroups, g.key.length = (circlePlan further a b c).cols.length := by
  intro g hg
  simp only [fiveGroups, mem_cons, not_mem_nil, or_false] at hg
  rcases hg with rfl | rfl | rfl | rfl | rfl <;> rfl

/-- What the plan returns, by the bounded sort of the rows of the groups. -/
theorem run_circlePlan {w : Option CountWindow} {l : List Group}
    (hemitted : (circlePlan further a b c).inOrder (emittedGroups w fiveGroups) = l)
    (hl : ∀ g ∈ l, g ∈ fiveGroups) {out : List PathMap}
    (hout : sortAll (circlePlan further a b c).keysOf (⟨.prop "c" "", false⟩ :: further)
      (l.map (circlePlan further a b c).projected) (some 2) = out) (hlen : out.length ≤ 2) :
    (circlePlan further a b c).run w fiveGroups = .ok out := by
  have hproject := @CountPlan.mapM_projectRow (circlePlan further a b c)
    (CountPlan.planned_keyed _ _) l fun g hg => length_fiveGroups g (hl g hg)
  have hsort :
      limitOverSort 0 2 (circlePlan further a b c).keysOf (⟨.prop "c" "", false⟩ :: further)
      (l.map (circlePlan further a b c).projected) = .ok out := by
    have hbound : u64SaturatingAdd 0 2 = 2 := by decide
    unfold limitOverSort
    rw [hbound, hout, limit_eq, if_neg (by decide), drop_zero, take_of_length_le hlen]
  unfold CountPlan.run
  rw [CountPlan.groupRows_eq, hemitted, hproject]
  show (match limitOverSort 0 2 (circlePlan further a b c).keysOf (⟨.prop "c" "", false⟩ :: further)
      (l.map (circlePlan further a b c).projected) with
    | .ok rows => Except.ok rows
    | .error text => Except.error (Error.invalidArgument text)) = _
  rw [hsort]

/-- Further sort keys that run in a circle: with the window the plan returns the first two groups,
without it the fifth and the first. -/
theorem run_circle (hself : sortCmp further a a = .eq) (hab : (sortCmp further a b).isLE)
    (hbc : (sortCmp further b c).isLE) (hac : ¬(sortCmp further a c).isLE) :
    (circlePlan further a b c).run (circlePlan further a b c).window fiveGroups ≠
      (circlePlan further a b c).run none fiveGroups := by
  let plan := circlePlan further a b c
  let lead : SortItem := ⟨.prop "c" "", false⟩
  let g₀ := smallGroup 0 2
  let g₁ := smallGroup 1 2
  let g₂ := smallGroup 2 2
  let g₃ := smallGroup 3 1
  let g₄ := smallGroup 4 2
  let entry := fun (g : Group) (i : ℕ) => ((plan.keysOf (plan.projected g), plan.projected g), i)
  let order := fun x y : (List Json × PathMap) × ℕ =>
    (sortCmp (lead :: further) x.1.1 y.1.1).then (compare x.2 y.2)
  -- Entries of one count are ordered by the further keys and then by their places.
  have hle : ∀ (m n : Fin 5) (i j : ℕ), i < j →
      (sortCmp further (fiveKeys a b c (.number (.posInt m.1 (small_fits m))))
        (fiveKeys a b c (.number (.posInt n.1 (small_fits n))))).isLE →
      (order (entry (smallGroup m 2) i)
        (entry (smallGroup n 2) j)).isLE := by
    intro m n i j hij hle
    show ((sortCmp (lead :: further) (plan.keysOf (plan.projected (smallGroup m 2)))
      (plan.keysOf (plan.projected (smallGroup n 2)))).then (compare i j)).isLE
    rw [keysOf_circlePlan, keysOf_circlePlan, sortCmp_count, Nat.compare_eq_lt.mpr hij]
    show ((sortCmp further _ _).then .lt).isLE
    cases hcmp : sortCmp further (fiveKeys a b c (.number (.posInt m.1 (small_fits m))))
        (fiveKeys a b c (.number (.posInt n.1 (small_fits n)))) with
    | lt => rfl
    | eq => rfl
    | gt => rw [hcmp] at hle; cases hle
  have h01 : (order (entry g₀ 0) (entry g₁ 1)).isLE := hle 0 1 0 1 (by decide) (by
    show (sortCmp further a a).isLE
    rw [hself]
    rfl)
  have h02 : (order (entry g₀ 0) (entry g₂ 2)).isLE := hle 0 2 0 2 (by decide) hab
  have h12 : (order (entry g₁ 1) (entry g₂ 2)).isLE := hle 1 2 1 2 (by decide) hab
  have h24 : (order (entry g₂ 2) (entry g₄ 3)).isLE := hle 2 4 2 3 (by decide) hbc
  have h23 : (order (entry g₂ 2) (entry g₃ 3)).isLE := by
    show ((sortCmp (lead :: further) (plan.keysOf (plan.projected g₂))
      (plan.keysOf (plan.projected g₃))).then (compare 2 3)).isLE
    rw [keysOf_circlePlan, keysOf_circlePlan, sortCmp_count]
    rfl
  have h04 : ¬(order (entry g₀ 0) (entry g₄ 4)).isLE := by
    show ¬((sortCmp (lead :: further) (plan.keysOf (plan.projected g₀))
      (plan.keysOf (plan.projected g₄))).then (compare 0 4)).isLE
    rw [keysOf_circlePlan, keysOf_circlePlan, sortCmp_count]
    show ¬((sortCmp further a c).then (compare 0 4)).isLE
    intro h
    apply hac
    cases hcmp : sortCmp further a c with
    | lt => rfl
    | eq => rfl
    | gt => rw [hcmp] at h; cases h
  have hall := @run_circlePlan further a b c none fiveGroups
    (stableSort_of_sortedBy sortedBy_fiveGroups) (fun _ hg => hg)
    [plan.projected g₄, plan.projected g₀] (by
      show (topN order 2 [entry g₀ 0, entry g₁ 1, entry g₂ 2, entry g₃ 3, entry g₄ 4]).map
        (fun x => x.1.2) = _
      rw [topN_two_of_five h01 h23 h02 h12 h04]
      rfl) (by simp)
  have hfour : SortedBy (fun g g' => compare (groupKey bitsTexts g.key) (groupKey bitsTexts g'.key))
      [g₀, g₁, g₂, g₄] :=
    sortedBy_fiveGroups.sublist (by
      show [g₀, g₁, g₂, g₄].Sublist [g₀, g₁, g₂, g₃, g₄]
      simp)
  have hwindow := @run_circlePlan further a b c (circlePlan further a b c).window
    [g₀, g₁, g₂, g₄] (by
      have hemitted : emittedGroups (circlePlan further a b c).window fiveGroups =
          [g₀, g₁, g₂, g₄] := by
        have hsurvivors : (circlePlan further a b c).window.bind
            (countWindowSurvivors (fiveGroups.map (·.count))) = some [0, 1, 2, 4] := by
          have hattach : (circlePlan further a b c).window = some ⟨2, true⟩ := rfl
          rw [hattach]
          exact survivors_fiveGroups
        unfold emittedGroups
        rw [hsurvivors]
        rfl
      rw [hemitted]
      exact stableSort_of_sortedBy hfour) (by
      intro g hg
      simp only [mem_cons, not_mem_nil, or_false] at hg
      rcases hg with rfl | rfl | rfl | rfl <;> simp [fiveGroups, g₀, g₁, g₂, g₄])
    [plan.projected g₀, plan.projected g₁] (by
      show (topN order 2 [entry g₀ 0, entry g₁ 1, entry g₂ 2, entry g₄ 3]).map
        (fun x => x.1.2) = _
      rw [topN_two_of_four h01 h24 h02 h12]
      rfl) (by simp)
  rw [hall, hwindow]
  intro heq
  have hrows := (List.cons.inj (Except.ok.inj heq)).1
  have hget := congrArg (fun row : PathMap => row.get "n.k") hrows
  rw [get_projected, get_projected] at hget
  cases hget

end Circle

/-- **Pruning the groups of a count cannot be told from emitting them all iff the order of the
further sort keys is transitive.** -/
theorem countWindow_iff {further : List SortItem} {T : Set (List Json)}
    (hT : T ⊆ ValidKeys further) :
    (∀ (plan : CountPlan) (groups : List Group), plan.further = further → plan.Planned →
        (∀ g ∈ groups, g.key.length = plan.cols.length ∧
          plan.furtherKeys (plan.projected g) ∈ T) →
        plan.run plan.window groups = plan.run none groups) ↔
      Transitive further T := by
  constructor
  · intro h a ha b hb c hc hab hbc
    by_contra hac
    apply run_circle (sortCmp_self (hT ha).2) hab hbc hac
    apply h _ _ rfl (CountPlan.planned_keyed _ _)
    intro g hg
    refine ⟨length_fiveGroups g hg, ?_⟩
    simp only [fiveGroups, mem_cons, not_mem_nil, or_false] at hg
    rcases hg with rfl | rfl | rfl | rfl | rfl
    · exact ha
    · exact ha
    · exact hb
    · exact ha
    · exact hc
  · rintro h plan groups rfl hplanned hgroups
    exact CountPlan.run_window hplanned (fun g hg => (hgroups g hg).1)
      (comparesOn_of_transitive hT h) fun g hg => (hgroups g hg).2

theorem countWindow_iff_count :
    (∀ (plan : CountPlan) (groups : List Group), plan.further = [] → plan.Planned →
        (∀ g ∈ groups, g.key.length = plan.cols.length ∧
          plan.furtherKeys (plan.projected g) ∈ ({[]} : Set (List Json))) →
        plan.run plan.window groups = plan.run none groups) ↔
      Transitive [] {[]} :=
  countWindow_iff fun keys hkeys => by
    rw [Set.mem_singleton_iff.mp hkeys]
    exact ⟨rfl, fun v hv => by cases hv⟩

/-- The further keys `2 ^ 53 + 1`, the double `2 ^ 53` and the integer `2 ^ 53`. -/
theorem countWindow_differs :
    ¬ ∀ (plan : CountPlan) (groups : List Group), plan.Planned →
        (∀ g ∈ groups, g.key.length = plan.cols.length ∧
          plan.furtherKeys (plan.projected g) ∈ ValidKeys plan.further) →
        plan.run plan.window groups = plan.run none groups := by
  intro h
  obtain ⟨hhigh, hlow, hcircle⟩ := numbers_circle
  have hself := @sortCmp_self ascendingKey _ (numbers_valid highInteger (by simp)).2
  apply run_circle hself hhigh hlow hcircle
  apply h _ _ (CountPlan.planned_keyed _ _)
  intro g hg
  refine ⟨length_fiveGroups g hg, ?_⟩
  simp only [fiveGroups, mem_cons, not_mem_nil, or_false] at hg
  rcases hg with rfl | rfl | rfl | rfl | rfl <;> exact numbers_valid _ (by simp)

end Contract

end IssunDB.Cypher
