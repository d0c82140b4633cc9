import IssunDB.Cypher.Ast
import IssunDB.Cypher.Ordering

/-!
# Sorting rows, and the extrema

`sortAll` sorts rows by their sort keys, whole or the first few of them through a bounded buffer;
`min` and `max` keep a running extremum. Where the order of the values is lawful
(`Separated`) all of them forget the order in which the rows come, up to ties
(`orderContract_iff`).
-/

namespace IssunDB.Cypher

open List

/-! ## The operators -/

def sortCmp : List SortItem → List Json → List Json → Ordering
  | si :: items, a :: ka, b :: kb =>
    let ord := (jsonCmp a b).getD (jsonCmpTotal a b)
    let ord := if si.ascending then ord else ord.swap
    if ord ≠ .eq then ord else sortCmp items ka kb
  | _, _, _ => .eq

section SortAll

variable {ρ : Type} (keysOf : ρ → List Json) (items : List SortItem)

/-- `sort_all`. `keysOf` evaluates the sort keys of a row. -/
def sortAll (childPaths : List ρ) : Option ℕ → List ρ
  | none =>
    let keyed := childPaths.map fun path => (keysOf path, path)
    (stableSort (fun a b => sortCmp items a.1 b.1) keyed).map Prod.snd
  | some 0 => []
  | some k =>
    -- The place in the input breaks ties, so that trimming keeps what a stable sort puts first.
    let order := fun a b : (List Json × ρ) × ℕ =>
      (sortCmp items a.1.1 b.1.1).then (compare a.2 b.2)
    let keyed := childPaths.map fun path => (keysOf path, path)
    (topN order k keyed.zipIdx).map fun a => a.1.2

end SortAll

/-- `AggFn::Min`. -/
def minOf (values : List Json) : Json :=
  (leastOf jsonCmpTotal (values.filter (· ≠ .null))).getD .null

/-- `AggFn::Max`. -/
def maxOf (values : List Json) : Json :=
  (leastOf (fun a b => (jsonCmpTotal a b).swap) (values.filter (· ≠ .null))).getD .null

/-! ## Sort keys -/

section Keys

variable {T : Set Json} {items : List SortItem}

/-- The sort keys of a row: one for each item, and all among the values at hand. -/
def SortKeys (T : Set Json) (items : List SortItem) : Set (List Json) :=
  {keys | keys.length = items.length ∧ ∀ v ∈ keys, v ∈ T}

/-- **The order of sort keys** is a total preorder where the order of values is. -/
theorem comparesOn_sortCmp (h : ComparesOn jsonCmpTotal T)
    (hcmp : ∀ a ∈ T, ∀ b ∈ T, ∀ o, jsonCmp a b = some o → jsonCmpTotal a b = o) :
    ComparesOn (sortCmp items) (SortKeys T items) := by
  induction items with
  | nil => exact ComparesOn.ties fun _ _ _ _ => by unfold sortCmp; rfl
  | cons si items ih =>
    have hone : ComparesOn
        (fun a b => if si.ascending then jsonCmpTotal a b else (jsonCmpTotal a b).swap) T := by
      cases si.ascending with
      | true => exact h
      | false => exact h.reverse
    -- The first key decides, and then the others.
    have hhead : ∀ keys ∈ SortKeys T (si :: items), keys.headD .null ∈ T := by
      rintro (_ | ⟨a, ka⟩) ⟨hlen, hmem⟩
      · cases hlen
      · exact hmem a mem_cons_self
    have htail : ∀ keys ∈ SortKeys T (si :: items), keys.tail ∈ SortKeys T items := by
      rintro (_ | ⟨a, ka⟩) ⟨hlen, hmem⟩
      · cases hlen
      · exact ⟨Nat.succ.inj hlen, fun v hv => hmem v (mem_cons_of_mem _ hv)⟩
    refine ((hone.comap hhead).lex (ih.comap htail)).congr ?_
    rintro (_ | ⟨a, ka⟩) ⟨hlen, hmem⟩ (_ | ⟨b, kb⟩) ⟨hlen', hmem'⟩
    · cases hlen
    · cases hlen
    · cases hlen'
    · have hord : (jsonCmp a b).getD (jsonCmpTotal a b) = jsonCmpTotal a b := by
        rcases ho : jsonCmp a b with _ | o
        · rfl
        · exact (hcmp a (hmem a mem_cons_self) b (hmem' b mem_cons_self) o ho).symm
      rw [sortCmp, hord]
      show _ = Ordering.then (if si.ascending then jsonCmpTotal a b else (jsonCmpTotal a b).swap)
        (sortCmp items ka kb)
      cases (if si.ascending then jsonCmpTotal a b else (jsonCmpTotal a b).swap) <;> rfl

end Keys

/-! ## Rows -/

section Rows

variable {ρ : Type} {keysOf : ρ → List Json} {items : List SortItem} {T : Set Json}
  {rows rows' : List ρ}

lemma sortAll_none (rows : List ρ) :
    sortAll keysOf items rows none =
      stableSort (fun r r' => sortCmp items (keysOf r) (keysOf r')) rows := by
  have hmap : stableSort (fun a b => sortCmp items a.1 b.1)
      (rows.map fun path => (keysOf path, path)) =
      (stableSort (fun r r' => sortCmp items (keysOf r) (keysOf r')) rows).map
        fun path => (keysOf path, path) :=
    (map_mergeSort (r := fun r r' => (sortCmp items (keysOf r) (keysOf r')).isLE)
      (s := fun a b : List Json × ρ => (sortCmp items a.1 b.1).isLE) fun _ _ _ _ => rfl).symm
  unfold sortAll
  dsimp only
  rw [hmap, map_map]
  exact map_id _

/-- **The first few.** The bounded buffer gives what sorting and then truncating gives. -/
theorem sortAll_some {K : Set (List Json)} (h : ComparesOn (sortCmp items) K)
    (hkeys : ∀ r ∈ rows, keysOf r ∈ K) (k : ℕ) :
    sortAll keysOf items rows (some k) = (sortAll keysOf items rows none).take k := by
  cases k with
  | zero => rfl
  | succ k =>
    let keyed := rows.map fun path => (keysOf path, path)
    let U : Set (List Json × ρ) := {a | a.1 ∈ K}
    let order := fun a b : (List Json × ρ) × ℕ =>
      (sortCmp items a.1.1 b.1.1).then (compare a.2 b.2)
    have hU : ComparesOn (fun a b : List Json × ρ => sortCmp items a.1 b.1) U :=
      h.comap fun a ha => ha
    have hkeyed : ∀ a ∈ keyed, a ∈ U := by
      intro a ha
      obtain ⟨r, hr, rfl⟩ := mem_map.mp ha
      exact hkeys r hr
    -- Two entries of the buffer never tie: their places differ.
    let V : Set ((List Json × ρ) × ℕ) := {a | a ∈ keyed.zipIdx}
    have horder : ComparesOn order V := by
      have hfst : ∀ a ∈ V, a.1 ∈ U := fun a ha => hkeyed a.1 (fst_mem_of_mem_zipIdx ha)
      exact (hU.comap hfst).lex (ComparesOn.ofKey Prod.snd fun _ _ _ _ => rfl)
    have hstrict : ∀ a ∈ V, ∀ b ∈ V, order a b = .eq → a = b := by
      intro a ha b hb hab
      have hplace : a.2 = b.2 :=
        Std.LawfulEqOrd.compare_eq_iff_eq.mp (Ordering.then_eq_eq.mp hab).2
      have hsome := mem_zipIdx_iff_getElem?.mp ha
      rw [hplace, mem_zipIdx_iff_getElem?.mp hb] at hsome
      exact Prod.ext (Option.some.inj hsome).symm hplace
    have htop := topN_eq horder hstrict (k + 1) (l := keyed.zipIdx) fun a ha => ha
    have hstable := stableSort_zipIdx hU hkeyed
    show (topN order (k + 1) keyed.zipIdx).map (fun a => a.1.2) =
      ((stableSort (fun a b => sortCmp items a.1 b.1) keyed).map Prod.snd).take (k + 1)
    rw [htop, ← hstable, map_map, map_take]
    rfl

/-- **Sorting rows forgets their order, up to ties.** -/
theorem sortAll_ties (h : ComparesOn (sortCmp items) (SortKeys T items))
    (hkeys : ∀ r ∈ rows, keysOf r ∈ SortKeys T items) (hperm : rows.Perm rows')
    (bound : Option ℕ) :
    List.Forall₂ (fun r r' => sortCmp items (keysOf r) (keysOf r') = .eq)
      (sortAll keysOf items rows bound) (sortAll keysOf items rows' bound) := by
  have hkeys' : ∀ r ∈ rows', keysOf r ∈ SortKeys T items :=
    fun r hr => hkeys r (hperm.mem_iff.mpr hr)
  have hrows : ComparesOn (fun r r' => sortCmp items (keysOf r) (keysOf r'))
      {r | keysOf r ∈ SortKeys T items} := h.comap fun r hr => hr
  have hnone := stableSort_ties hrows hkeys hperm
  rw [← sortAll_none, ← sortAll_none] at hnone
  cases bound with
  | none => exact hnone
  | some k =>
    rw [sortAll_some h hkeys, sortAll_some h hkeys']
    exact List.forall₂_take k hnone

end Rows

/-! ## The contract -/

/-- What sorting and the extrema promise on the values at hand: a lawful order, and answers that
depend on the order of the input no further than ties do. -/
structure OrderContract (T : Set Json) : Prop where
  laws : OrderLaws T
  sorting : ∀ (ρ : Type) (keysOf : ρ → List Json) (items : List SortItem) (rows rows' : List ρ)
    (bound : Option ℕ), (∀ r ∈ rows, keysOf r ∈ SortKeys T items) → rows.Perm rows' →
    List.Forall₂ (fun r r' => sortCmp items (keysOf r) (keysOf r') = .eq)
      (sortAll keysOf items rows bound) (sortAll keysOf items rows' bound)
  extrema : ∀ values values' : List Json, (∀ v ∈ values, v ∈ T) → values.Perm values' →
    jsonCmpTotal (minOf values) (minOf values') = .eq ∧
      jsonCmpTotal (maxOf values) (maxOf values') = .eq

section Contract

variable {T : Set Json}

lemma separated_of_laws (h : OrderLaws T) : Separated T where
  numbers x y z hx hy hz _ _ hi hj hk hxz hyz := numbers_of_laws h x y z hx hy hz hi hj hk hxz hyz
  tagged _ _ _ hu hv hw hru hrw huv _ _ hk hl hkl :=
    tagged_of_laws h hu hv hw hru hrw huv hk hl hkl

lemma orderLaws_of_separated (h : Separated T) (hT : Closed T) (hgenuine : ∀ v ∈ T, Genuine v) :
    OrderLaws T where
  refl _ ha := (comparesOn_jsonCmpTotal h hT).self ha
  swap := (comparesOn_jsonCmpTotal h hT).swap
  trans := (comparesOn_jsonCmpTotal h hT).trans
  eq_of_cypherEq _ ha _ hb := jsonCmpTotal_of_cypherEq hT hgenuine ha hb
  eq_of_jsonCmp _ ha _ hb _ := jsonCmpTotal_of_jsonCmp hT hgenuine ha hb

/-- Extrema of two orders of the same values tie. -/
theorem leastOf_getD_ties {cmp : Json → Json → Ordering} (h : ComparesOn cmp T)
    {values values' : List Json} (hvalues : ∀ v ∈ values, v ∈ T) (hperm : values.Perm values')
    (hnull : cmp .null .null = .eq) :
    cmp ((leastOf cmp (values.filter (· ≠ .null))).getD .null)
      ((leastOf cmp (values'.filter (· ≠ .null))).getD .null) = .eq := by
  have hties := leastOf_ties h (fun v hv => hvalues v (mem_of_mem_filter hv))
    (hperm.filter (· ≠ .null))
  generalize leastOf cmp (values.filter (· ≠ .null)) = o at hties ⊢
  generalize leastOf cmp (values'.filter (· ≠ .null)) = o' at hties ⊢
  cases hties with
  | none => exact hnull
  | some hab => exact hab

/-- **The contract is met as long as no three values are out of line.** -/
theorem orderContract_iff (S : Set Json) :
    (OrderContract {v | Reach S v} → Separated {v | Reach S v}) ∧
      ((∀ v, Reach S v → Genuine v) →
        Separated {v | Reach S v} → OrderContract {v | Reach S v}) := by
  refine ⟨fun h => separated_of_laws h.laws, fun hgenuine h => ?_⟩
  have hT := closed_reach S
  have horder := comparesOn_jsonCmpTotal h hT
  have hlaws := orderLaws_of_separated h hT hgenuine
  refine ⟨hlaws, ?_, ?_⟩
  · intro ρ keysOf items rows rows' bound hkeys hperm
    exact sortAll_ties (comparesOn_sortCmp horder hlaws.eq_of_jsonCmp) hkeys hperm bound
  · intro values values' hvalues hperm
    constructor
    · exact leastOf_getD_ties horder hvalues hperm rfl
    · have hties := leastOf_getD_ties horder.reverse hvalues hperm rfl
      rwa [Ordering.swap_eq_eq] at hties

/-- A list of an integer, a double and a date. -/
def mixedItems : List Json :=
  [.number (.posInt 1 (by decide)), .number (.float ⟨false, 1023, 2 ^ 51, by decide, by decide⟩),
    .object [("__sort_key__", .string "2024-01-01"), ("__type__", .string "Date")]]

theorem orderContract_iff_mixed : OrderContract {v | Reach {.array mixedItems} v} := by
  have hreach : ∀ v, Reach {.array mixedItems} v → v = .array mixedItems ∨ v ∈ mixedItems := by
    intro v hv
    induction hv with
    | base hv => exact .inl hv
    | item _ hmem ih =>
      rcases ih with heq | hin
      · exact .inr (Json.array.inj heq ▸ hmem)
      · simp [mixedItems] at hin
    | part _ htag _ ih =>
      rcases ih with heq | hin
      · cases heq
      · simp only [mixedItems, mem_cons, not_mem_nil, or_false, reduceCtorEq,
          Json.object.injEq, false_or] at hin
        subst hin
        exact absurd htag (by decide)
  apply (orderContract_iff {.array mixedItems}).2
  · intro v hv
    rcases hreach v hv with rfl | hin
    · trivial
    · simp only [mixedItems, mem_cons, not_mem_nil, or_false] at hin
      rcases hin with rfl | rfl | rfl
      · trivial
      · trivial
      · exact fun h => absurd h (by decide)
  constructor
  · -- The only number that is no integer is one and a half.
    have hnumber : ∀ x, Reach {.array mixedItems} (.number x) →
        x.asI64 = none ∨ x.asI64 = some 1 := by
      intro x hx
      rcases hreach _ hx with heq | hin
      · cases heq
      · simp only [mixedItems, mem_cons, not_mem_nil, or_false, reduceCtorEq,
          Json.number.injEq] at hin
        rcases hin with rfl | rfl
        · exact .inr rfl
        · exact .inl rfl
    intro x y z hx hy _ i j hi hj _ _ _
    rcases hnumber x hx with hx | hx <;> rcases hnumber y hy with hy | hy <;> rw [hx] at hi <;>
      rw [hy] at hj <;> cases hi <;> cases hj
    rfl
  · -- There is one tagged value.
    have hobject : ∀ m, Reach {.array mixedItems} (.object m) →
        m = [("__sort_key__", .string "2024-01-01"), ("__type__", .string "Date")] := by
      intro m hm
      rcases hreach _ hm with heq | hin
      · cases heq
      · simpa [mixedItems] using hin
    intro u v w hu hv hw _ _ _ k l hk hl hkl
    rw [hobject u hu] at hk
    rw [hobject v hv] at hl
    exact absurd (Option.some.inj (hk.symm.trans hl)) hkl

/-- Two different integers tie with one double. -/
theorem not_orderContract :
    ¬ ∀ S : Set Json, (∀ v, Reach S v → Genuine v) → OrderContract {v | Reach S v} := by
  intro h
  let low : Json := .number (.posInt (2 ^ 53) (by decide))
  let high : Json := .number (.posInt (2 ^ 53 + 1) (by decide))
  let double : Json := .number (.float ⟨false, 1076, 0, by decide, by decide⟩)
  have hreach : ∀ v, Reach {low, high, double} v → ∃ x, v = .number x := by
    intro v hv
    induction hv with
    | base hv => rcases hv with rfl | rfl | rfl <;> exact ⟨_, rfl⟩
    | item _ _ ih => obtain ⟨x, hx⟩ := ih; cases hx
    | part _ _ _ ih => obtain ⟨x, hx⟩ := ih; cases hx
  have hlaws := (h {low, high, double} fun v hv => by
    obtain ⟨x, rfl⟩ := hreach v hv
    trivial).laws
  have hle : (jsonCmpTotal high low).isLE :=
    hlaws.trans high (.base (by simp)) double (.base (by simp)) low (.base (by simp))
      (by decide +kernel) (by decide +kernel)
  exact absurd hle (by decide +kernel)

end Contract

end IssunDB.Cypher
