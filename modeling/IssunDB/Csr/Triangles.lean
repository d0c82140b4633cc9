import IssunDB.Csr.PathCount
import IssunDB.Lib.SortedRuns

/-!
# Counting triangles

`countTriangleCycles` counts the matches of the directed cycle `(a)-[t1]->(b)-[t2]->(c)-[t3]->(a)`.
For each `a` and each run of parallel edges from `a` to a `b`, it merges the sorted edges out of `b`
with the sorted edges into `a`, and multiplies the lengths of the runs. Where `a`, `b` and `c` are
one node the triples of distinct loops are listed instead.

`countTriangleCycles_eq` states that the result is the number of matches as a 64-bit number.
-/

namespace IssunDB

open List

/-- A directed cycle of three hops: a relationship type for each hop and a label for each node
variable, where the pattern has one. -/
structure TriangleCountSpec where
  relTypes : List (Option String)
  labels : List (Option String)
  length_relTypes : relTypes.length = 3
  length_labels : labels.length = 3

/-- Adjacency of one relationship type, each row ascending by neighbor and edge id. -/
structure TypedSortedAdj where
  ptr : List ℕ
  adj : List (ℕ × EdgeId)

/-- The neighbors of a node with the ids of the edges. -/
def TypedSortedAdj.row (t : TypedSortedAdj) (d : ℕ) : List (ℕ × EdgeId) := rowAt t.ptr t.adj d

def pairLe (x y : ℕ × ℕ) : Bool := x.1 < y.1 || (x.1 = y.1 && x.2 ≤ y.2)

def sortPairs (row : List (ℕ × EdgeId)) : List (ℕ × EdgeId) := row.mergeSort pairLe

namespace CsrArrays

variable (S : CsrArrays)

/-- The outgoing edges of a type, rows ascending by destination. -/
def typedOutSorted (t : Option TypeId) : TypedSortedAdj :=
  let rows := (List.range S.denseToId.length).map fun row =>
    ((S.outRow row).filter fun e => typeOk t e.edgeType).map fun e => (e.col, e.edgeId)
  ⟨rowOffsets rows, (rows.map sortPairs).flatten⟩

/-- The incoming edges of a type, rows ascending by source. -/
def typedInSorted (t : Option TypeId) : TypedSortedAdj :=
  let n := S.denseToId.length
  let ptr := offsets (tally n ((S.out.filter fun e => typeOk t e.edgeType).map (·.col)))
  let items := (List.range n).flatMap fun row =>
    ((S.outRow row).filter fun e => typeOk t e.edgeType).map fun e => (e.col, (row, e.edgeId))
  ⟨ptr, rewriteRows sortPairs ptr n (scatter items ptr (List.replicate (ptr.getD n 0) (0, 0))).2⟩

/-- Add the triples of pairwise distinct edges, one from each run. -/
def countTriples (run₁ run₂ run₃ : List (ℕ × EdgeId)) (total : ℕ) : ℕ :=
  run₁.foldl (fun total e₁ => run₂.foldl (fun total e₂ =>
    if e₂.2 = e₁.2 then total
    else run₃.foldl (fun total e₃ =>
      if e₃.2 ≠ e₁.2 ∧ e₃.2 ≠ e₂.2 then u64Add total 1 else total) total) total) total

/-- Add the matches through one `c`, to the total or to the pairs that are multiplied later. -/
def countCell (mask₂ : Option (List Bool)) (a b : ℕ) (run₁ : List (ℕ × EdgeId)) (acc : ℕ × ℕ)
    (cell : ℕ × List (ℕ × EdgeId) × List (ℕ × EdgeId)) : ℕ × ℕ :=
  let (c, run₂, run₃) := cell
  let (total, pairCount) := acc
  if maskOk mask₂ c = false then (total, pairCount)
  else if a = b ∧ c = a then (countTriples run₁ run₂ run₃ total, pairCount)
  else (total, u64Add pairCount (u64Mul run₂.length run₃.length))

/-- Add the matches through one `b`. -/
def countRun (mask₁ mask₂ : Option (List Bool)) (out₂ : TypedSortedAdj) (a : ℕ)
    (in₃Row : List (ℕ × EdgeId)) (total : ℕ) (run : ℕ × List (ℕ × EdgeId)) : ℕ :=
  let (b, run₁) := run
  if maskOk mask₁ b = false then total
  else
    let (total, pairCount) :=
      (commonRuns (out₂.row b) in₃Row).foldl (countCell mask₂ a b run₁) (total, 0)
    u64Add total (u64Mul run₁.length pairCount)

/-- Add the matches through one `a`. -/
def countFrom (mask₀ mask₁ mask₂ : Option (List Bool)) (out₁ out₂ in₃ : TypedSortedAdj)
    (total a : ℕ) : ℕ :=
  if maskOk mask₀ a = false then total
  else if in₃.row a = [] then total
  else (runs (out₁.row a)).foldl (countRun mask₁ mask₂ out₂ a (in₃.row a)) total

def countTriangleCycles (s : Tables) (spec : TriangleCountSpec) : ℕ :=
  if S.denseToId.length = 0 then 0
  else
    match s.resolveTypes spec.relTypes with
    | none => 0
    | some types =>
      let masks := S.labelMasks s spec.labels []
      let out₁ := S.typedOutSorted (types.getD 0 none)
      let out₂ := S.typedOutSorted (types.getD 1 none)
      let in₃ := S.typedInSorted (types.getD 2 none)
      (List.range S.denseToId.length).foldl
        (countFrom (masks.getD 0 none) (masks.getD 1 none) (masks.getD 2 none) out₁ out₂ in₃) 0

end CsrArrays

/-! ## What is counted -/

/-- An edge has the type hop `i` of the triangle asks for. -/
def TriangleCountSpec.relOk (spec : TriangleCountSpec) (s : Tables) (i : ℕ)
    (e : DenseEdge) : Bool :=
  (spec.relTypes.getD i none).all fun name => s.getType name = some e.edgeType

/-- A node carries the label variable `i` of the triangle asks for. -/
def TriangleCountSpec.labelOk (spec : TriangleCountSpec) (s : Tables) (i : ℕ)
    (id : NodeId) : Bool :=
  (spec.labels.getD i none).all fun name => id ∈ s.nodesByLabel name

namespace Snapshot

variable (S : Snapshot)

/-- The matches `(a, b, c, e1, e2, e3)` of a triangle, its relationships pairwise distinct. -/
def triangleMatches (s : Tables) (spec : TriangleCountSpec) :
    Finset (ℕ × ℕ × ℕ × DenseEdge × DenseEdge × DenseEdge) :=
  (Finset.range S.n ×ˢ Finset.range S.n ×ˢ Finset.range S.n ×ˢ S.edgeSet ×ˢ S.edgeSet ×ˢ
    S.edgeSet).filter fun (a, b, c, e₁, e₂, e₃) =>
      e₁.src = a ∧ e₁.dst = b ∧ e₂.src = b ∧ e₂.dst = c ∧ e₃.src = c ∧ e₃.dst = a ∧
        spec.relOk s 0 e₁ ∧ spec.relOk s 1 e₂ ∧ spec.relOk s 2 e₃ ∧
        spec.labelOk s 0 (S.idOf a) ∧ spec.labelOk s 1 (S.idOf b) ∧ spec.labelOk s 2 (S.idOf c) ∧
        e₁ ≠ e₂ ∧ e₁ ≠ e₃ ∧ e₂ ≠ e₃

/-! ## The sorted rows -/

def edgesOfType (t : Option TypeId) : List DenseEdge := S.edges.filter fun e => typeOk t e.edgeType

end Snapshot

lemma sortPairs_perm (row : List (ℕ × EdgeId)) : (sortPairs row).Perm row :=
  mergeSort_perm _ _

lemma ascendingKeys_sortPairs (row : List (ℕ × EdgeId)) : AscendingKeys (sortPairs row) := by
  have h : (sortPairs row).Pairwise fun x y => pairLe x y := by
    apply pairwise_mergeSort
    · intro (x : ℕ × ℕ) (y : ℕ × ℕ) (z : ℕ × ℕ)
      simp only [pairLe, Bool.or_eq_true, Bool.and_eq_true, decide_eq_true_eq]
      omega
    · intro (x : ℕ × ℕ) (y : ℕ × ℕ)
      simp only [pairLe, Bool.or_eq_true, Bool.and_eq_true, decide_eq_true_eq]
      omega
  apply h.imp
  intro x y hle
  simp only [pairLe, Bool.or_eq_true, Bool.and_eq_true, decide_eq_true_eq] at hle
  omega

lemma rowOffsets_map_sortPairs (rows : List (List (ℕ × EdgeId))) :
    rowOffsets (rows.map sortPairs) = rowOffsets rows := by
  rw [rowOffsets, rowOffsets, map_map]
  congr 1
  apply map_congr_left
  intro row _
  exact (sortPairs_perm row).length_eq

lemma row_sorted (rows : List (List (ℕ × EdgeId))) (d : ℕ) :
    TypedSortedAdj.row ⟨rowOffsets rows, (rows.map sortPairs).flatten⟩ d =
      sortPairs (rows.getD d []) := by
  rw [TypedSortedAdj.row, ← rowOffsets_map_sortPairs, rowAt_offsets]
  rcases lt_or_ge d rows.length with hd | hd
  · rw [getD_eq_getElem _ _ (by simpa using hd), getElem_map,
      getD_eq_getElem _ _ hd]
  · rw [getD_eq_default _ _ (by simpa using hd), getD_eq_default _ _ hd]
    exact (sortPairs_perm []).eq_nil.symm

namespace Snapshot

variable (S : Snapshot)

lemma row_typedOutSorted (t : Option TypeId) {a : ℕ} (ha : a < S.n) :
    (S.typedOutSorted t).row a = sortPairs
      (((S.edgesOfType t).filter (·.src = a)).map fun e => (e.dst, e.edgeId)) := by
  have hrow : ((S.edgesOfType t).filter (·.src = a)).map (fun e => (e.dst, e.edgeId)) =
      ((S.outRow a).filter fun e => typeOk t e.edgeType).map fun e => (e.col, e.edgeId) := by
    rw [edgesOfType, filter_comm, ← outRow_eq, filter_map, map_map]
    rfl
  rw [CsrArrays.typedOutSorted, row_sorted, hrow,
    getD_eq_getElem _ _ (by simpa [n] using ha), getElem_map, getElem_range]

lemma row_typedInSorted (t : Option TypeId) {a : ℕ} (ha : a < S.n) :
    (S.typedInSorted t).row a = sortPairs
      (((S.edgesOfType t).filter (·.dst = a)).map fun e => (e.src, e.edgeId)) := by
  let items : List (ℕ × ℕ × EdgeId) :=
    (S.edgesOfType t).map fun e => (e.dst, (e.src, e.edgeId))
  have hitems : ((List.range S.denseToId.length).flatMap fun row =>
      ((S.outRow row).filter fun e => typeOk t e.edgeType).map fun e =>
        (e.col, (row, e.edgeId))) = items := by
    show _ = (S.edges.filter fun e => typeOk t e.edgeType).map _
    rw [edges_eq_flatMap, filter_flatMap, map_flatMap]
    apply flatMap_congr
    intro row _
    rw [filter_map, map_map]
    rfl
  have hkeys : (S.out.filter fun e => typeOk t e.edgeType).map (·.col) = items.map Prod.fst := by
    show _ = ((S.edges.filter fun e => typeOk t e.edgeType).map _).map Prod.fst
    rw [out_eq_map, filter_map, map_map, map_map]
    rfl
  have hlt : ∀ p ∈ items, p.1 < S.n := by
    intro p hp
    obtain ⟨e, he, rfl⟩ := mem_map.mp hp
    exact S.dst_lt (mem_filter.mp he).1
  have hlen : (rowOffsets (keyedRows S.n items)).getD S.n 0 = items.length :=
    getD_rowOffsets_keyedRows hlt
  have hadj : S.typedInSorted t = ⟨rowOffsets (keyedRows S.n items),
      ((keyedRows S.n items).map sortPairs).flatten⟩ := by
    rw [CsrArrays.typedInSorted, hitems, hkeys]
    change TypedSortedAdj.mk (offsets (tally S.n _)) (rewriteRows sortPairs
      (offsets (tally S.n _)) S.n (scatter items (offsets (tally S.n _))
        (List.replicate ((offsets (tally S.n _)).getD S.n 0) _)).2) = _
    rw [offsets_tally, hlen, scatter_keyedRows hlt]
    congr 1
    have hrewrite := rewriteRows_flatten (f := sortPairs)
      (fun row => (sortPairs_perm row).length_eq) (keyedRows S.n items)
    rwa [length_keyedRows] at hrewrite
  rw [hadj, row_sorted, getD_keyedRows ha, filter_map, map_map]
  rfl

/-! ## Runs of parallel edges -/

def typeSet (t : Option TypeId) : Finset DenseEdge :=
  S.edgeSet.filter fun e => typeOk t e.edgeType

/-- The edges of a type from one node to another. -/
def parallel (t : Option TypeId) (a b : ℕ) : Finset DenseEdge :=
  between DenseEdge.src DenseEdge.dst (S.typeSet t) a b

end Snapshot

/-- A run lists the edges of a set, by their ids. -/
def RunOf (run : List (ℕ × EdgeId)) (k : ℕ) (E : Finset DenseEdge) : Prop :=
  ∃ l : List DenseEdge, l.Nodup ∧ l.toFinset = E ∧ run.Perm (l.map fun e => (k, e.edgeId))

namespace RunOf

variable {run : List (ℕ × EdgeId)} {k : ℕ} {E : Finset DenseEdge}

lemma sum_map (h : RunOf run k E) (f : ℕ × EdgeId → ℕ) :
    (run.map f).sum = ∑ e ∈ E, f (k, e.edgeId) := by
  obtain ⟨l, hnodup, rfl, hperm⟩ := h
  rw [(hperm.map f).sum_eq, map_map, sum_toFinset _ hnodup]
  rfl

lemma length_eq (h : RunOf run k E) : run.length = E.card := by
  obtain ⟨l, hnodup, rfl, hperm⟩ := h
  rw [hperm.length_eq, length_map, toFinset_card_of_nodup hnodup]

end RunOf

namespace Snapshot

variable (S : Snapshot)

lemma lists_parallel (t : Option TypeId) (a b k : ℕ) {row : List (ℕ × EdgeId)}
    (h : (ofKey row k).Perm
      (((S.edgesOfType t).filter fun e => e.src = a ∧ e.dst = b).map fun e => (k, e.edgeId))) :
    RunOf (ofKey row k) k (S.parallel t a b) := by
  refine ⟨_, (S.edges_nodup.filter _).filter _, ?_, h⟩
  ext e
  simp only [parallel, between, typeSet, mem_toFinset, mem_filter, Finset.mem_filter,
    mem_edgeSet, decide_eq_true_eq]

/-- The run of a destination in an outgoing row. -/
theorem lists_out (t : Option TypeId) {a : ℕ} (ha : a < S.n) (b : ℕ) :
    RunOf (ofKey ((S.typedOutSorted t).row a) b) b (S.parallel t a b) := by
  apply S.lists_parallel
  rw [row_typedOutSorted _ _ ha]
  refine ((sortPairs_perm _).filter _).trans ?_
  rw [filter_map, filter_filter]
  apply List.Perm.of_eq
  rw [filter_congr (q := fun e => decide (e.src = a ∧ e.dst = b))]
  · apply map_congr_left
    intro e he
    rw [(of_decide_eq_true (mem_filter.mp he).2).2]
  · intro e _
    simp [Bool.and_comm]

/-- The run of a source in an incoming row. -/
theorem lists_in (t : Option TypeId) {a : ℕ} (ha : a < S.n) (c : ℕ) :
    RunOf (ofKey ((S.typedInSorted t).row a) c) c (S.parallel t c a) := by
  apply S.lists_parallel
  rw [row_typedInSorted _ _ ha]
  refine ((sortPairs_perm _).filter _).trans ?_
  rw [filter_map, filter_filter]
  apply List.Perm.of_eq
  rw [filter_congr (q := fun e => decide (e.src = c ∧ e.dst = a))]
  · apply map_congr_left
    intro e he
    rw [(of_decide_eq_true (mem_filter.mp he).2).1]
  · intro e _
    simp

end Snapshot

/-! ## The cells of the merge -/

/-- The triples of pairwise distinct ids. -/
def triples (run₁ run₂ run₃ : List (ℕ × EdgeId)) : ℕ :=
  (run₁.map fun e₁ => (run₂.map fun e₂ =>
    if e₂.2 = e₁.2 then 0
    else (run₃.map fun e₃ => if e₃.2 ≠ e₁.2 ∧ e₃.2 ≠ e₂.2 then 1 else 0).sum).sum).sum

lemma countTriples_modEq (run₁ run₂ run₃ : List (ℕ × EdgeId)) (total : ℕ) :
    CsrArrays.countTriples run₁ run₂ run₃ total ≡ total + triples run₁ run₂ run₃ [MOD 2 ^ 64] := by
  apply foldl_modEq
  intro total e₁ _
  apply foldl_modEq
  intro total e₂ _
  split
  · exact Nat.ModEq.refl _
  · apply foldl_modEq
    intro total e₃ _
    split
    · exact u64Add_modEq (Nat.ModEq.refl _) (Nat.ModEq.refl _)
    · exact Nat.ModEq.refl _

/-- The matches through one `a`, `b` and `c`, from the runs of their edges. -/
def cellCount (a b c : ℕ) (run₁ run₂ run₃ : List (ℕ × EdgeId)) : ℕ :=
  if a = b ∧ c = a then triples run₁ run₂ run₃ else run₁.length * (run₂.length * run₃.length)

lemma cellCount_nil {a b c : ℕ} {run₁ run₂ run₃ : List (ℕ × EdgeId)}
    (h : run₁ = [] ∨ run₂ = [] ∨ run₃ = []) : cellCount a b c run₁ run₂ run₃ = 0 := by
  unfold cellCount triples
  rcases h with rfl | rfl | rfl <;> simp

lemma cellCount_eq {S : Snapshot} {t₁ t₂ t₃ : Option TypeId} {a b c : ℕ}
    {run₁ run₂ run₃ : List (ℕ × EdgeId)} (h₁ : RunOf run₁ b (S.parallel t₁ a b))
    (h₂ : RunOf run₂ c (S.parallel t₂ b c)) (h₃ : RunOf run₃ c (S.parallel t₃ c a)) :
    cellCount a b c run₁ run₂ run₃ =
      triangleCell DenseEdge.src DenseEdge.dst (S.typeSet t₁) (S.typeSet t₂)
      (S.typeSet t₃) a b c := by
  unfold cellCount triangleCell
  split
  · -- Ids are distinct exactly where edges are.
    have hid : ∀ {t t' : Option TypeId} {x y x' y' : ℕ}, ∀ e ∈ S.parallel t x y,
        ∀ e' ∈ S.parallel t' x' y', e.edgeId = e'.edgeId ↔ e = e' := by
      intro t t' x y x' y' e he e' he'
      have hmem := S.mem_edgeSet.mp (Finset.mem_filter.mp (mem_between.mp he).1).1
      have hmem' := S.mem_edgeSet.mp (Finset.mem_filter.mp (mem_between.mp he').1).1
      constructor
      · exact inj_on_of_nodup_map S.edgeId_nodup hmem hmem'
      · exact congrArg _
    rw [Finset.card_filter, Finset.sum_product, triples, h₁.sum_map]
    apply Finset.sum_congr rfl
    intro e₁ he₁
    rw [Finset.sum_product, h₂.sum_map]
    apply Finset.sum_congr rfl
    intro e₂ he₂
    rw [h₃.sum_map]
    simp only [hid e₂ he₂ e₁ he₁]
    split
    next heq => simp [heq]
    next hne =>
      apply Finset.sum_congr rfl
      intro e₃ he₃
      simp only [ne_eq, hid e₃ he₃ e₁ he₁, hid e₃ he₃ e₂ he₂]
      grind
  · rw [h₁.length_eq, h₂.length_eq, h₃.length_eq, Nat.mul_assoc]
    rfl

lemma foldl_countCell (mask₂ : Option (List Bool)) (a b : ℕ) (run₁ : List (ℕ × EdgeId))
    (cells : List (ℕ × List (ℕ × EdgeId) × List (ℕ × EdgeId))) (total pairCount : ℕ) :
    u64Add (cells.foldl (CsrArrays.countCell mask₂ a b run₁) (total, pairCount)).1
        (u64Mul run₁.length
          (cells.foldl (CsrArrays.countCell mask₂ a b run₁) (total, pairCount)).2) ≡
      total + run₁.length * pairCount + (cells.map fun cell =>
        if maskOk mask₂ cell.1 then cellCount a b cell.1 run₁ cell.2.1 cell.2.2 else 0).sum
      [MOD 2 ^ 64] := by
  induction cells generalizing total pairCount with
  | nil =>
    rw [foldl_nil, map_nil, sum_nil, Nat.add_zero]
    exact u64Add_modEq (Nat.ModEq.refl _) (Nat.mod_modEq _ _)
  | cons cell cells ih =>
    obtain ⟨c, run₂, run₃⟩ := cell
    rw [foldl_cons, map_cons, sum_cons, CsrArrays.countCell]
    dsimp only
    by_cases hc : maskOk mask₂ c = true
    · rw [if_neg (by simp [hc]), if_pos hc]
      by_cases hloop : a = b ∧ c = a
      · rw [if_pos hloop, cellCount, if_pos hloop]
        refine (ih _ _).trans ?_
        have hstep := ((countTriples_modEq run₁ run₂ run₃ total).add_right
          (run₁.length * pairCount)).add_right (cells.map fun cell =>
            if maskOk mask₂ cell.1 then cellCount a b cell.1 run₁ cell.2.1 cell.2.2 else 0).sum
        refine hstep.trans (congrArg (· % 2 ^ 64) ?_)
        ring
      · rw [if_neg hloop, cellCount, if_neg hloop]
        refine (ih _ _).trans ?_
        have hpair : u64Add pairCount (u64Mul run₂.length run₃.length) ≡
            pairCount + run₂.length * run₃.length [MOD 2 ^ 64] :=
          u64Add_modEq (Nat.ModEq.refl _) (Nat.mod_modEq _ _)
        have hstep := ((hpair.mul_left run₁.length).add_left total).add_right
          (cells.map fun cell =>
            if maskOk mask₂ cell.1 then cellCount a b cell.1 run₁ cell.2.1 cell.2.2 else 0).sum
        refine hstep.trans (congrArg (· % 2 ^ 64) ?_)
        ring
    · rw [if_pos (by simpa using hc), if_neg hc, Nat.zero_add]
      exact ih _ _

namespace Snapshot

variable (S : Snapshot)

/-- The matches through one `a`, `b` and `c`. -/
def cellOf (t₁ t₂ t₃ : Option TypeId) (a b c : ℕ) : ℕ :=
  triangleCell DenseEdge.src DenseEdge.dst (S.typeSet t₁) (S.typeSet t₂) (S.typeSet t₃) a b c

variable {a : ℕ}

lemma keys_out_lt (t : Option TypeId) (ha : a < S.n) :
    ∀ k ∈ ((S.typedOutSorted t).row a).map Prod.fst, k ∈ Finset.range S.n := by
  intro k hk
  rw [row_typedOutSorted _ _ ha] at hk
  obtain ⟨p, hp, rfl⟩ := mem_map.mp hk
  obtain ⟨e, he, rfl⟩ := mem_map.mp ((sortPairs_perm _).mem_iff.mp hp)
  exact Finset.mem_range.mpr (S.dst_lt (mem_filter.mp (mem_filter.mp he).1).1)

lemma ascending_out (t : Option TypeId) (ha : a < S.n) :
    AscendingKeys ((S.typedOutSorted t).row a) := by
  rw [row_typedOutSorted _ _ ha]
  exact ascendingKeys_sortPairs _

lemma ascending_in (t : Option TypeId) (ha : a < S.n) :
    AscendingKeys ((S.typedInSorted t).row a) := by
  rw [row_typedInSorted _ _ ha]
  exact ascendingKeys_sortPairs _

/-- The matches through one `a`, over the runs of its row. -/
theorem sum_runs_eq (t₁ t₂ t₃ : Option TypeId) (mask₁ mask₂ : Option (List Bool)) (ha : a < S.n) :
    ((runs ((S.typedOutSorted t₁).row a)).map fun run =>
      if maskOk mask₁ run.1 then
        ((commonRuns ((S.typedOutSorted t₂).row run.1) ((S.typedInSorted t₃).row a)).map fun cell =>
          if maskOk mask₂ cell.1 then cellCount a run.1 cell.1 run.2 cell.2.1 cell.2.2 else 0).sum
      else 0).sum =
      ∑ b ∈ Finset.range S.n, if maskOk mask₁ b then
        ∑ c ∈ Finset.range S.n, if maskOk mask₂ c then S.cellOf t₁ t₂ t₃ a b c else 0
      else 0 := by
  rw [sum_runs (S.ascending_out t₁ ha) (S.keys_out_lt t₁ ha) fun b run₁ =>
    if maskOk mask₁ b then
      ((commonRuns ((S.typedOutSorted t₂).row b) ((S.typedInSorted t₃).row a)).map fun cell =>
        if maskOk mask₂ cell.1 then cellCount a b cell.1 run₁ cell.2.1 cell.2.2 else 0).sum
    else 0]
  · apply Finset.sum_congr rfl
    intro b hb
    have hb' : b < S.n := Finset.mem_range.mp hb
    split
    · rw [sum_commonRuns (S.ascending_out t₂ hb') (S.ascending_in t₃ ha) (S.keys_out_lt t₂ hb')
        fun c run₂ run₃ => if maskOk mask₂ c then
          cellCount a b c (ofKey ((S.typedOutSorted t₁).row a) b) run₂ run₃ else 0]
      · apply Finset.sum_congr rfl
        intro c _
        rw [cellCount_eq (S.lists_out t₁ ha b) (S.lists_out t₂ hb' c) (S.lists_in t₃ ha c), cellOf]
      · intro c run₂ run₃ hnil
        rw [cellCount_nil (Or.inr hnil), ite_self]
    · rfl
  · intro b
    simp [cellCount_nil]

/-- One `a` adds its matches. -/
theorem countFrom_modEq (t₁ t₂ t₃ : Option TypeId) (mask₀ mask₁ mask₂ : Option (List Bool))
    (total : ℕ) (ha : a < S.n) :
    CsrArrays.countFrom mask₀ mask₁ mask₂ (S.typedOutSorted t₁) (S.typedOutSorted t₂)
        (S.typedInSorted t₃) total a ≡
      total + (if maskOk mask₀ a then ∑ b ∈ Finset.range S.n, if maskOk mask₁ b then
        ∑ c ∈ Finset.range S.n, if maskOk mask₂ c then S.cellOf t₁ t₂ t₃ a b c else 0
      else 0 else 0) [MOD 2 ^ 64] := by
  have hruns : (runs ((S.typedOutSorted t₁).row a)).foldl (CsrArrays.countRun mask₁ mask₂
      (S.typedOutSorted t₂) a ((S.typedInSorted t₃).row a)) total ≡
      total + ((runs ((S.typedOutSorted t₁).row a)).map fun run =>
        if maskOk mask₁ run.1 then
          ((commonRuns ((S.typedOutSorted t₂).row run.1) ((S.typedInSorted t₃).row a)).map
            fun cell => if maskOk mask₂ cell.1 then
              cellCount a run.1 cell.1 run.2 cell.2.1 cell.2.2 else 0).sum
        else 0).sum [MOD 2 ^ 64] := by
    apply foldl_modEq
    rintro total ⟨b, run₁⟩ _
    rw [CsrArrays.countRun]
    dsimp only
    by_cases hb : maskOk mask₁ b = true
    · rw [if_neg (by simp [hb]), if_pos hb]
      simpa using foldl_countCell mask₂ a b run₁ _ total 0
    · rw [if_pos (by simpa using hb), if_neg hb]
      exact Nat.ModEq.refl _
  rw [S.sum_runs_eq t₁ t₂ t₃ mask₁ mask₂ ha] at hruns
  unfold CsrArrays.countFrom
  by_cases hmask : maskOk mask₀ a = true
  · rw [if_neg (by simp [hmask]), if_pos hmask]
    split
    next hnil =>
      -- Without an edge into `a` there is no match.
      rw [← S.sum_runs_eq t₁ t₂ t₃ mask₁ mask₂ ha, hnil]
      have hcommon : ∀ js : List (ℕ × EdgeId), commonRuns js ([] : List (ℕ × EdgeId)) = [] := by
        intro js
        cases js <;> simp [commonRuns]
      simp only [hcommon, map_nil, sum_nil, ite_self]
      simp
      exact Nat.ModEq.refl _
    next => exact hruns
  · rw [if_pos (by simpa using hmask), if_neg hmask]
    exact Nat.ModEq.refl _

/-! ## The matches -/

def hop₁ (s : Tables) (spec : TriangleCountSpec) : Finset DenseEdge :=
  S.edgeSet.filter fun e => spec.relOk s 0 e ∧ spec.labelOk s 0 (S.idOf e.src) ∧
    spec.labelOk s 1 (S.idOf e.dst)

def hop₂ (s : Tables) (spec : TriangleCountSpec) : Finset DenseEdge :=
  S.edgeSet.filter fun e => spec.relOk s 1 e ∧ spec.labelOk s 2 (S.idOf e.dst)

def hop₃ (s : Tables) (spec : TriangleCountSpec) : Finset DenseEdge :=
  S.edgeSet.filter fun e => spec.relOk s 2 e

/-- A match is a closed walk of edges that can be its hops. -/
theorem card_triangleMatches (s : Tables) (spec : TriangleCountSpec) :
    (S.triangleMatches s spec).card = (triangles DenseEdge.src DenseEdge.dst (S.hop₁ s spec)
      (S.hop₂ s spec) (S.hop₃ s spec)).card := by
  symm
  apply Finset.card_bij fun p _ => (p.1.src, p.1.dst, p.2.1.dst, p.1, p.2.1, p.2.2)
  · rintro ⟨e₁, e₂, e₃⟩ h
    simp only [triangles, hop₁, hop₂, hop₃, Finset.mem_filter, Finset.mem_product] at h
    obtain ⟨⟨⟨hmem₁, hrel₁, ha, hb⟩, ⟨hmem₂, hrel₂, hc⟩, hmem₃, hrel₃⟩, h₁₂, h₂₃, h₃₁, hne⟩ := h
    have hedge₁ := S.mem_edgeSet.mp hmem₁
    have hedge₂ := S.mem_edgeSet.mp hmem₂
    simp only [triangleMatches, Finset.mem_filter, Finset.mem_product, Finset.mem_range]
    exact ⟨⟨S.src_lt hedge₁, S.dst_lt hedge₁, S.dst_lt hedge₂, hmem₁, hmem₂, hmem₃⟩,
      trivial, trivial, h₁₂.symm, trivial, h₂₃.symm, h₃₁, hrel₁, hrel₂, hrel₃, ha, hb, hc, hne⟩
  · rintro ⟨e₁, e₂, e₃⟩ _ ⟨e₁', e₂', e₃'⟩ _ h
    exact congrArg (fun p => (p.2.2.2.1, p.2.2.2.2.1, p.2.2.2.2.2)) h
  · rintro ⟨a, b, c, e₁, e₂, e₃⟩ h
    simp only [triangleMatches, Finset.mem_filter, Finset.mem_product] at h
    obtain ⟨⟨-, -, -, hmem₁, hmem₂, hmem₃⟩, rfl, rfl, h₁₂, rfl, h₂₃, h₃₁, hrel₁, hrel₂, hrel₃, ha,
      hb, hc, hne⟩ := h
    refine ⟨(e₁, e₂, e₃), ?_, rfl⟩
    simp only [triangles, hop₁, hop₂, hop₃, Finset.mem_filter, Finset.mem_product]
    exact ⟨⟨⟨hmem₁, hrel₁, ha, hb⟩, ⟨hmem₂, hrel₂, hc⟩, hmem₃, hrel₃⟩, h₁₂.symm, h₂₃.symm, h₃₁, hne⟩

/-- The cell of three nodes counts if the nodes carry their labels. -/
theorem triangleCell_hops {s : Tables} {spec : TriangleCountSpec} {types : List (Option TypeId)}
    (htypes : s.resolveTypes spec.relTypes = some types) (a b c : ℕ) :
    triangleCell DenseEdge.src DenseEdge.dst (S.hop₁ s spec) (S.hop₂ s spec) (S.hop₃ s spec) a b c =
      if spec.labelOk s 0 (S.idOf a) then if spec.labelOk s 1 (S.idOf b) then
        if spec.labelOk s 2 (S.idOf c) then
          S.cellOf (types.getD 0 none) (types.getD 1 none) (types.getD 2 none) a b c
        else 0 else 0 else 0 := by
  have htype : ∀ i e, typeOk (types.getD i none) e.edgeType = spec.relOk s i e :=
    fun i e => Tables.typeOk_resolveTypes htypes i e.edgeType
  have h₁ : between DenseEdge.src DenseEdge.dst (S.hop₁ s spec) a b =
      (S.parallel (types.getD 0 none) a b).filter fun _ =>
        spec.labelOk s 0 (S.idOf a) ∧ spec.labelOk s 1 (S.idOf b) := by
    ext e
    simp only [between, parallel, hop₁, typeSet, Finset.mem_filter, htype]
    grind
  have h₂ : between DenseEdge.src DenseEdge.dst (S.hop₂ s spec) b c =
      (S.parallel (types.getD 1 none) b c).filter fun _ => spec.labelOk s 2 (S.idOf c) := by
    ext e
    simp only [between, parallel, hop₂, typeSet, Finset.mem_filter, htype]
    grind
  have h₃ : between DenseEdge.src DenseEdge.dst (S.hop₃ s spec) c a =
      S.parallel (types.getD 2 none) c a := by
    ext e
    simp only [between, parallel, hop₃, typeSet, Finset.mem_filter, htype]
  unfold cellOf triangleCell
  rw [h₁, h₂, h₃]
  by_cases ha : spec.labelOk s 0 (S.idOf a) = true
  · by_cases hb : spec.labelOk s 1 (S.idOf b) = true
    · by_cases hc : spec.labelOk s 2 (S.idOf c) = true
      · simp only [ha, hb, hc, and_self, if_true, Finset.filter_true]
        rfl
      · simp [hc]
    · simp [hb]
  · simp [ha]

lemma triangleMatches_of_unregistered {s : Tables} {spec : TriangleCountSpec}
    (h : s.resolveTypes spec.relTypes = none) : S.triangleMatches s spec = ∅ := by
  obtain ⟨i, hi, name, hname, hget⟩ := Tables.resolveTypes_eq_none h
  have hrel : ∀ e, spec.relOk s i e = false := by
    intro e
    rw [TriangleCountSpec.relOk, hname, Option.all_some, hget]
    rfl
  have hlt : i < 3 := by
    rw [← spec.length_relTypes]
    exact hi
  rw [triangleMatches, Finset.filter_eq_empty_iff]
  rintro ⟨a, b, c, e₁, e₂, e₃⟩ -
  interval_cases i <;> simp [hrel]

lemma maskOk_labelMasks (s : Tables) (spec : TriangleCountSpec) {i d : ℕ} (hi : i < 3)
    (hd : d < S.n) :
    maskOk ((S.labelMasks s spec.labels []).getD i none) d = spec.labelOk s i (S.idOf d) := by
  have hi' : i < spec.labels.length := by
    rw [spec.length_labels]
    exact hi
  rw [labelMasks_eq, getD_eq_getElem _ _ (by simpa using hi'), getElem_map,
    TriangleCountSpec.labelOk, getD_eq_getElem _ _ hi']
  cases spec.labels[i] with
  | none => rfl
  | some name => exact S.maskOk_maskOf _ hd

/-- The counters of the kernel are 64-bit numbers. -/
theorem countTriangleCycles_lt (s : Tables) (spec : TriangleCountSpec) :
    S.countTriangleCycles s spec < 2 ^ 64 := by
  have hfold : ∀ {α : Type} {f : ℕ → α → ℕ}, (∀ total x, total < 2 ^ 64 → f total x < 2 ^ 64) →
      ∀ (l : List α) (total : ℕ), total < 2 ^ 64 → l.foldl f total < 2 ^ 64 := by
    intro α f hstep l
    induction l with
    | nil => exact fun _ h => h
    | cons x l ih => exact fun total h => ih _ (hstep total x h)
  unfold CsrArrays.countTriangleCycles
  split
  · exact Nat.two_pow_pos 64
  split
  · exact Nat.two_pow_pos 64
  apply hfold _ _ _ (Nat.two_pow_pos 64)
  intro total a htotal
  unfold CsrArrays.countFrom
  split
  · exact htotal
  split
  · exact htotal
  apply hfold _ _ _ htotal
  intro total run htotal
  unfold CsrArrays.countRun
  dsimp only
  split
  · exact htotal
  · exact u64Add_lt _ _

lemma countTriangleCycles_modEq (s : Tables) (spec : TriangleCountSpec) :
    S.countTriangleCycles s spec ≡ (S.triangleMatches s spec).card [MOD 2 ^ 64] := by
  unfold CsrArrays.countTriangleCycles
  split
  next hn =>
    have hempty : Finset.range S.n = ∅ := by
      rw [Finset.range_eq_empty_iff]
      exact hn
    simp [triangleMatches, hempty]
    exact Nat.ModEq.refl _
  next =>
    split
    next hnone =>
      rw [S.triangleMatches_of_unregistered hnone, Finset.card_empty]
    next types htypes =>
      refine (foldl_modEq (l := List.range S.n) (fun total a ha =>
        S.countFrom_modEq (a := a) _ _ _ _ _ _ total (mem_range.mp ha)) 0).trans ?_
      have hends₁ : ∀ e ∈ S.hop₁ s spec, e.src ∈ Finset.range S.n ∧ e.dst ∈ Finset.range S.n := by
        intro e he
        have hedge := S.mem_edgeSet.mp (Finset.mem_filter.mp he).1
        exact ⟨Finset.mem_range.mpr (S.src_lt hedge), Finset.mem_range.mpr (S.dst_lt hedge)⟩
      have hends₂ : ∀ e ∈ S.hop₂ s spec, e.dst ∈ Finset.range S.n := by
        intro e he
        exact Finset.mem_range.mpr (S.dst_lt (S.mem_edgeSet.mp (Finset.mem_filter.mp he).1))
      rw [card_triangleMatches, card_triangles hends₁ hends₂, Nat.zero_add,
        ← sum_toFinset _ nodup_range, toFinset_range]
      apply congrArg (· % 2 ^ 64)
      apply Finset.sum_congr rfl
      intro a ha
      have hmask : ∀ {i d : ℕ}, i < 3 → d ∈ Finset.range S.n →
          maskOk ((S.labelMasks s spec.labels []).getD i none) d = spec.labelOk s i (S.idOf d) :=
        fun hi hd => S.maskOk_labelMasks s spec hi (Finset.mem_range.mp hd)
      simp only [S.triangleCell_hops htypes]
      rw [hmask (by decide) ha]
      split
      · apply Finset.sum_congr rfl
        intro b hb
        rw [hmask (by decide) hb]
        split
        · apply Finset.sum_congr rfl
          intro c hc
          rw [hmask (by decide) hc]
        · simp
      · simp

/-- The count is the number of matches as a 64-bit number: the number itself where it fits. -/
theorem countTriangleCycles_eq (s : Tables) (spec : TriangleCountSpec) :
    S.countTriangleCycles s spec = (S.triangleMatches s spec).card % 2 ^ 64 := by
  have h : S.countTriangleCycles s spec % 2 ^ 64 = (S.triangleMatches s spec).card % 2 ^ 64 :=
    S.countTriangleCycles_modEq s spec
  rwa [Nat.mod_eq_of_lt (S.countTriangleCycles_lt s spec)] at h

end Snapshot

/-! ## More matches than the counter holds -/

/-- Three rows of `k` parallel edges from each node to the next one. -/
def parallelRows (k : ℕ) : List (List OutEntry) :=
  [(List.range k).map fun j => ⟨1, 0, j⟩, (List.range k).map fun j => ⟨2, 0, k + j⟩,
    (List.range k).map fun j => ⟨0, 0, 2 * k + j⟩]

lemma parallelRows_ascending (k : ℕ) :
    ((parallelRows k).flatten.map (·.edgeId)).Pairwise (· < ·) := by
  simp only [parallelRows, flatten_cons, flatten_nil, append_nil, map_append,
    map_map, Function.comp_def, pairwise_append, pairwise_map, mem_append,
    mem_map, mem_range]
  refine ⟨?_, ⟨?_, ?_, ?_⟩, ?_⟩
  · exact pairwise_lt_range
  · exact pairwise_lt_range.imp fun h => Nat.add_lt_add_left h _
  · exact pairwise_lt_range.imp fun h => Nat.add_lt_add_left h _
  · rintro _ ⟨i, hi, rfl⟩ _ ⟨j, hj, rfl⟩
    show k + i < 2 * k + j
    omega
  · rintro _ ⟨i, hi, rfl⟩ _ (⟨j, hj, rfl⟩ | ⟨j, hj, rfl⟩)
    · exact Nat.lt_of_lt_of_le hi (by omega : k ≤ k + j)
    · exact Nat.lt_of_lt_of_le hi (by omega : k ≤ 2 * k + j)

/-- A triangle with `k` parallel edges on each side. -/
def parallelTriangle (k : ℕ) (hk : 3 * k ≤ maxSnapshotEdges) : Snapshot where
  toCsrArrays := CsrArrays.layout [0, 1, 2] (parallelRows k) none
  wellFormed := by
    have hrows : (CsrArrays.layout [0, 1, 2] (parallelRows k) none).rows = parallelRows k :=
      CsrArrays.rows_layout rfl none
    constructor
    · show [0, 1, 2].Pairwise (· < ·)
      decide
    · rw [hrows]
      rfl
    · rw [hrows]
      show ∀ e ∈ (parallelRows k).flatten, e.col < 3
      simp [parallelRows]
      grind
    · rw [hrows]
      intro row hrow
      exact pairwise_map.mp
        ((parallelRows_ascending k).sublist ((sublist_flatten_of_mem hrow).map _))
    · rw [hrows]
      exact (parallelRows_ascending k).imp fun h => h.ne
    · rw [hrows]
      simp [parallelRows]
      omega

def anyTriangle : TriangleCountSpec := ⟨[none, none, none], [none, none, none], rfl, rfl⟩

/-- Every choice of one edge on each side is a match. -/
theorem le_card_parallelTriangle {k : ℕ} (hk : 3 * k ≤ maxSnapshotEdges) (s : Tables) :
    k * (k * k) ≤ ((parallelTriangle k hk).triangleMatches s anyTriangle).card := by
  have hcard : k * (k * k) = (Finset.range k ×ˢ Finset.range k ×ˢ Finset.range k).card := by
    simp
  rw [hcard]
  have hrows : (parallelTriangle k hk).rows = parallelRows k := CsrArrays.rows_layout rfl none
  have hmem : ∀ i < k, (⟨0, 1, 0, i⟩ : DenseEdge) ∈ (parallelTriangle k hk).edgeSet ∧
      (⟨1, 2, 0, k + i⟩ : DenseEdge) ∈ (parallelTriangle k hk).edgeSet ∧
      (⟨2, 0, 0, 2 * k + i⟩ : DenseEdge) ∈ (parallelTriangle k hk).edgeSet := by
    intro i hi
    simp [Snapshot.mem_edgeSet, CsrArrays.edges, hrows, pushRows, parallelRows, hi]
  apply Finset.card_le_card_of_injOn fun (p : ℕ × ℕ × ℕ) =>
    (0, 1, 2, ⟨0, 1, 0, p.1⟩, ⟨1, 2, 0, k + p.2.1⟩, ⟨2, 0, 0, 2 * k + p.2.2⟩)
  · rintro ⟨i, j, l⟩ hp
    simp only [Finset.coe_product, Finset.coe_range, Set.mem_prod, Set.mem_Iio] at hp
    obtain ⟨hi, hj, hl⟩ := hp
    simp only [Snapshot.triangleMatches, Finset.coe_filter, Set.mem_ofPred_eq, Finset.mem_product,
      Finset.mem_range]
    refine ⟨⟨?_, ?_, ?_, (hmem i hi).1, (hmem j hj).2.1, (hmem l hl).2.2⟩, ?_⟩
    · exact (by decide : 0 < 3)
    · exact (by decide : 1 < 3)
    · exact (by decide : 2 < 3)
    · simp [anyTriangle, TriangleCountSpec.relOk, TriangleCountSpec.labelOk]
  · rintro ⟨i, j, l⟩ _ ⟨i', j', l'⟩ _ h
    simpa using h

/-- With `2 ^ 22` parallel edges on each side there are more matches than a 64-bit counter holds. -/
theorem countTriangleCycles_overflow :
    (parallelTriangle (2 ^ 22) (by decide)).countTriangleCycles Storage.empty.tables anyTriangle ≠
      ((parallelTriangle (2 ^ 22) (by decide)).triangleMatches Storage.empty.tables
        anyTriangle).card := by
  have hlt := (parallelTriangle (2 ^ 22) (by decide)).countTriangleCycles_lt Storage.empty.tables
    anyTriangle
  have hle := le_card_parallelTriangle (k := 2 ^ 22) (by decide) Storage.empty.tables
  omega

end IssunDB
