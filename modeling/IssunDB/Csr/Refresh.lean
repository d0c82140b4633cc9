import IssunDB.Csr.Snapshot
import IssunDB.Lib.SortedRuns

/-!
# The incremental refresh

`withAdditions` extends a snapshot by the nodes and edges that committed writes have added, without
reading the adjacency table: it walks the rows once, appends to each what was added to it, restores
the order of the row where that is needed and derives the incoming side again. It gives up when the
change is not one of additions, when a new node does not come after all others, or when there are
too many edges.

## Main results

* `CsrArrays.withAdditions_eq`: over what a build returns, and a change that lists what a later
  database has more, the extended rows are those of the later database;
* `Graph.build_of_withAdditions`: what a refresh returns is what a build of the later database
  returns.
-/

namespace IssunDB

open List Option

namespace OutEntry

/-- The fields in the order in which added entries are compared. -/
def sortKey (e : OutEntry) : ℕ ×ₗ ℕ ×ₗ ℕ := toLex (e.edgeId, toLex (e.col, e.edgeType))

lemma sortKey_injective : Function.Injective sortKey := by
  rintro ⟨col, ty, id⟩ ⟨col', ty', id'⟩ h
  have hfields : id = id' ∧ col = col' ∧ ty = ty' := by simpa [sortKey] using h
  obtain ⟨rfl, rfl, rfl⟩ := hfields
  rfl

instance : LinearOrder OutEntry := LinearOrder.lift' sortKey sortKey_injective

end OutEntry

/-- The outgoing arrays under construction, and the added entries that have no row yet, each with
the dense index of its source. -/
structure Patch where
  rowPtr : List ℕ
  out : List OutEntry
  edgeWeight : Option (List F64)
  hasNegativeWeight : Bool
  adds : List (ℕ × OutEntry)

/-- Sort what lies from `start` on by edge id, entries and weights together. -/
def sortFrom (start : ℕ) (out : List OutEntry) (weights : Option (List F64)) :
    List OutEntry × Option (List F64) :=
  let row := out.drop start
  let scratch := (row.zip ((weights.map fun w => w.drop start).getD
    (List.replicate row.length (.ofNat 1 F64.one_fits)))).mergeSort
      fun a b => a.1.edgeId ≤ b.1.edgeId
  (out.take start ++ scratch.map Prod.fst,
    weights.map fun w => w.take start ++ scratch.map Prod.snd)

/-- Restore the order of a row from `start` on, to which `adds` have been appended. Edge ids ascend
with time, so the added entries come last already unless one has an earlier id. -/
def restoreOrder (start : ℕ) (oldLast : Option EdgeId) (adds out : List OutEntry)
    (weights : Option (List F64)) : List OutEntry × Option (List F64) :=
  let needsSort := adds.head?.any fun first => oldLast.any fun last => first.edgeId < last
  if needsSort then sortFrom start out weights else (out, weights)

namespace CsrArrays

variable (S : CsrArrays) (weightOf : EdgeId → F64)

/-- Append the row of one node: its old entries, then the added ones. -/
def patchRow (p : Patch) (i : ℕ) : Patch :=
  let rowStart := p.out.length
  let kept := i < S.denseToId.length
  let out := if kept then p.out ++ S.outRow i else p.out
  let edgeWeight := p.edgeWeight.map fun w =>
    match S.edgeWeight with
    | some old => if kept then w ++ rowAt S.rowPtr old i else w
    | none => w
  let oldLast := out.getLast?.map (·.edgeId)
  let adds := (p.adds.takeWhile (·.1 = i)).map Prod.snd
  let weights := adds.map fun e => weightOf e.edgeId
  let row := restoreOrder rowStart oldLast adds (out ++ adds) (edgeWeight.map (· ++ weights))
  { rowPtr := p.rowPtr ++ [row.1.length]
    out := row.1
    edgeWeight := row.2
    hasNegativeWeight := p.hasNegativeWeight || anyNegative (p.edgeWeight.map fun _ => weights)
    adds := p.adds.dropWhile (·.1 = i) }

def newNodes (c : CsrChange) : List NodeId :=
  (c.addedNodes.filter fun id => (S.idToDense.get id).isNone).toFinset.ascending

/-- The added entries of a change, sorted and each once. An edge with an unknown end is skipped. -/
def addedEntries (c : CsrChange) (index : DenseIndex) : List (ℕ × OutEntry) :=
  ((c.addedEdges.filterMap fun e => (index.get e.src).bind fun srcD => (index.get e.dst).map
    fun dstD =>
      (toLex (srcD, ⟨dstD, e.edgeType, e.edgeId⟩) : ℕ ×ₗ OutEntry)).toFinset.ascending).map
      ofLex

/-- Extend a snapshot by what a change adds; nothing when that is not possible. -/
def withAdditions (c : CsrChange) : Option CsrArrays :=
  if c.full || (c.edgesUpdated && S.edgeWeight.isSome) then none
  else
    let addedNodes := S.newNodes c
    let outOfOrder := S.denseToId.getLast?.any fun last =>
      addedNodes.head?.any fun first => first ≤ last
    if outOfOrder then none
    else
      let denseToId := S.denseToId ++ addedNodes
      let idToDense := DenseIndex.fromIds denseToId
      let adds := addedEntries c idToDense
      if maxSnapshotEdges < S.out.length + adds.length then none
      else
        let patched := (List.range denseToId.length).foldl (S.patchRow weightOf)
          { rowPtr := [0], out := [], edgeWeight := S.edgeWeight.map fun _ => []
            hasNegativeWeight := S.hasNegativeWeight, adds }
        let incoming := transpose denseToId.length patched.rowPtr patched.out
        some { rowPtr := patched.rowPtr, out := patched.out, edgeWeight := patched.edgeWeight
               hasNegativeWeight := patched.hasNegativeWeight
               inRowPtr := incoming.1, inc := incoming.2, denseToId, idToDense }

end CsrArrays

/-- The change lists what the later database has more: the nodes that are added, and the edges,
which are new. What was there keeps its ends and type and, unless the change says otherwise, its
properties. -/
structure CsrChange.AddsTo (c : CsrChange) (s s' : Storage) : Prop where
  nodes : ∀ id, (s'.tables.nodes.get id).isSome ↔
    (s.tables.nodes.get id).isSome ∨ id ∈ c.addedNodes
  edges : ∀ e, e ∈ c.addedEdges ↔ s.tables.edges.get e.edgeId = .none ∧
    ∃ props, s'.tables.edges.get e.edgeId = some ⟨e.src, e.dst, e.edgeType, props⟩
  kept : ∀ id r, s.tables.edges.get id = some r → ∃ props,
    s'.tables.edges.get id = some { r with props } ∧ (c.edgesUpdated = false → props = r.props)

/-- The tables tell whether a change lists the additions, when nothing else has changed. -/
theorem CsrChange.AddsTo.of_keys {c : CsrChange} {s s' : Storage}
    (hnodes : s'.tables.nodes.keys = s.tables.nodes.keys ∪ c.addedNodes.toFinset)
    (hedges : s'.tables.edges.keys = s.tables.edges.keys ∪ (c.addedEdges.map (·.edgeId)).toFinset)
    (hadded : ∀ e ∈ c.addedEdges, s.tables.edges.get e.edgeId = .none ∧
      (s'.tables.edges.get e.edgeId).map (fun r => (r.src, r.dst, r.edgeType)) =
        some (e.src, e.dst, e.edgeType))
    (hkept : ∀ id ∈ s.tables.edges.keys, s'.tables.edges.get id = s.tables.edges.get id) :
    c.AddsTo s s' where
  nodes id := by
    rw [← Table.mem_keys, hnodes, Finset.mem_union, Table.mem_keys, List.mem_toFinset]
  edges e := by
    constructor
    · intro he
      obtain ⟨hold, hnew⟩ := hadded e he
      obtain ⟨r, hget, hr⟩ := map_eq_some_iff.mp hnew
      obtain ⟨hsrc, hdst, htype⟩ : r.src = e.src ∧ r.dst = e.dst ∧ r.edgeType = e.edgeType := by
        simpa using hr
      exact ⟨hold, r.props, by rw [hget, ← hsrc, ← hdst, ← htype]⟩
    · rintro ⟨hold, props, hnew⟩
      have hmem : e.edgeId ∈ s'.tables.edges.keys := by
        rw [Table.mem_keys, hnew]
        rfl
      rw [hedges, Finset.mem_union, Table.mem_keys, hold, List.mem_toFinset, List.mem_map] at hmem
      obtain ⟨a, ha, hid⟩ := hmem.resolve_left Bool.false_ne_true
      obtain ⟨-, hrec⟩ := hadded a ha
      rw [hid, hnew] at hrec
      obtain ⟨hsrc, hdst, htype⟩ : e.src = a.src ∧ e.dst = a.dst ∧ e.edgeType = a.edgeType := by
        simpa using hrec
      have heq : e = a := by
        obtain ⟨src, dst, ty, id⟩ := e
        obtain ⟨src', dst', ty', id'⟩ := a
        obtain ⟨rfl, rfl, rfl, rfl⟩ := And.intro hsrc (And.intro hdst (And.intro htype hid.symm))
        rfl
      rwa [heq]
  kept id r hget := by
    have hmem : id ∈ s.tables.edges.keys := by
      rw [Table.mem_keys, hget]
      rfl
    exact ⟨r.props, (hkept id hmem).trans hget, fun _ => rfl⟩

/-! ## One row -/

/-- The weights of a list of entries, when there are any. -/
def weightsOf (weighted : Bool) (g : OutEntry → F64) (l : List OutEntry) : Option (List F64) :=
  if weighted then some (l.map g) else none

lemma weightsOf_append (weighted : Bool) (g : OutEntry → F64) (l l' : List OutEntry) :
    (weightsOf weighted g l).map (· ++ l'.map g) = weightsOf weighted g (l ++ l') := by
  rw [weightsOf, weightsOf]
  split
  · rw [map_append, map_some]
  · rfl

lemma anyNegative_weightsOf (weighted : Bool) (g : OutEntry → F64) (l : List OutEntry) :
    anyNegative (weightsOf weighted g l) = (weighted && l.any fun e => (g e).scaled < 0) := by
  cases weighted with
  | false => rfl
  | true => simp [anyNegative, weightsOf, List.any_map, Function.comp_def]

lemma nodup_of_ascending {row : List OutEntry}
    (h : row.Pairwise fun a b => a.edgeId < b.edgeId) : row.Nodup := by
  refine h.imp ?_
  rintro a b hlt rfl
  exact lt_irrefl _ hlt

/-- A row is the only way to list its entries by id. -/
theorem eq_row {row l : List OutEntry} (hrow : row.Pairwise fun a b => a.edgeId < b.edgeId)
    (hperm : l.Perm row) (hl : l.Pairwise fun a b => a.edgeId ≤ b.edgeId) : l = row := by
  have hinj : ∀ a ∈ row, ∀ b ∈ row, a.edgeId = b.edgeId → a = b := by
    have hnodup : (row.map (·.edgeId)).Nodup := by
      rw [List.Nodup, pairwise_map]
      exact hrow.imp fun h => h.ne
    exact fun a ha b hb => inj_on_of_nodup_map hnodup ha hb
  refine hperm.eq_of_pairwise ?_ hl (hrow.imp fun h => h.le)
  intro a b ha hb hab hba
  exact hinj a (hperm.mem_iff.mp ha) b hb (le_antisymm hab hba)

/-- Sorting what comes after `out` makes a row of it, and takes the weights along. -/
theorem sortFrom_eq {row l : List OutEntry} (hrow : row.Pairwise fun a b => a.edgeId < b.edgeId)
    (hperm : l.Perm row) (out : List OutEntry) (weighted : Bool) (g : OutEntry → F64) :
    sortFrom out.length (out ++ l) (weightsOf weighted g (out ++ l)) =
      (out ++ row, weightsOf weighted g (out ++ row)) := by
  have hsort : ∀ f : OutEntry → F64,
      (l.map fun e => (e, f e)).mergeSort (fun a b => a.1.edgeId ≤ b.1.edgeId) =
        row.map fun e => (e, f e) := by
    intro f
    set scratch := (l.map fun e => (e, f e)).mergeSort (fun a b => a.1.edgeId ≤ b.1.edgeId)
      with hscratch
    have hmem : scratch.Perm (l.map fun e => (e, f e)) := mergeSort_perm _ _
    have hfst : scratch.map Prod.fst = row := by
      apply eq_row hrow
      · refine (hmem.map Prod.fst).trans ?_
        rw [List.map_map]
        simpa [Function.comp_def] using hperm
      · rw [pairwise_map]
        have hle : scratch.Pairwise fun a b => decide (a.1.edgeId ≤ b.1.edgeId) := by
          apply pairwise_mergeSort
          · intro a b c hab hbc
            exact decide_eq_true (le_trans (of_decide_eq_true hab) (of_decide_eq_true hbc))
          · intro a b
            simpa using Nat.le_total a.1.edgeId b.1.edgeId
        exact hle.imp of_decide_eq_true
    rw [← hfst, List.map_map]
    conv_lhs => rw [← List.map_id scratch]
    apply map_congr_left
    intro p hp
    obtain ⟨e, -, rfl⟩ := List.mem_map.mp (hmem.mem_iff.mp hp)
    rfl
  cases weighted with
  | true =>
    have hzip : l.zip (l.map g) = l.map fun e => (e, g e) := map_prod_left_eq_zip.symm
    have hdrop : ((out ++ l).map g).drop out.length = l.map g := by
      rw [map_append, drop_left' (length_map g)]
    have htake : ((out ++ l).map g).take out.length = out.map g := by
      rw [map_append, take_left' (length_map g)]
    simp only [sortFrom, weightsOf, if_true, drop_left, take_left, map_some,
      getD_some, hdrop, htake, hzip, hsort, List.map_map]
    simp [Function.comp_def]
  | false =>
    have hzip : l.zip (List.replicate l.length (.ofNat 1 (by decide))) =
        l.map fun e => (e, (F64.ofNat 1 (by decide))) := by
      rw [← map_const', map_prod_left_eq_zip]
    simp only [sortFrom, weightsOf, Bool.false_eq_true, if_false, drop_left, take_left,
      map_none, getD_none, hzip, hsort, List.map_map]
    simp [Function.comp_def]

/-! ## All rows -/

def CsrArrays.keptRow (S : CsrArrays) (i : ℕ) : List OutEntry :=
  if i < S.denseToId.length then S.outRow i else []

def addedRow (adds : List (ℕ × OutEntry)) (i : ℕ) : List OutEntry := (ofKey adds i).map Prod.snd

lemma mem_addedRow_iff_mem {adds : List (ℕ × OutEntry)} {i : ℕ} {e : OutEntry} :
    e ∈ addedRow adds i ↔ (i, e) ∈ adds := by
  rw [addedRow, ofKey, List.mem_map]
  constructor
  · rintro ⟨⟨j, e⟩, hmem, rfl⟩
    obtain ⟨hmem, hj⟩ := mem_filter.mp hmem
    obtain rfl : j = i := of_decide_eq_true hj
    assumption
  · intro hmem
    exact ⟨(i, e), mem_filter.mpr ⟨hmem, decide_eq_true rfl⟩, rfl⟩

/-- The given rows hold what a snapshot has and what is added, each row by edge id, and the weights
of the snapshot are those of its entries. -/
structure CsrArrays.ExtendsTo (S : CsrArrays) (adds : List (ℕ × OutEntry)) (weighted : Bool)
    (g : OutEntry → F64) (rows : List (List OutEntry)) : Prop where
  adds_ascending : AscendingKeys adds
  weights : S.edgeWeight = weightsOf weighted g S.out
  row_ascending : ∀ (i : ℕ) (row : List OutEntry), rows[i]? = some row →
    row.Pairwise fun a b => a.edgeId < b.edgeId
  row_perm : ∀ (i : ℕ) (row : List OutEntry), rows[i]? = some row →
    (S.keptRow i ++ addedRow adds i).Perm row
  kept_ascending : ∀ i, (S.keptRow i).Pairwise fun a b => a.edgeId < b.edgeId
  added_ascending : ∀ i, (addedRow adds i).Pairwise fun a b => a.edgeId < b.edgeId

namespace CsrArrays

section

variable {S : CsrArrays} {adds : List (ℕ × OutEntry)} {weighted : Bool} {weightOf : EdgeId → F64}
  {g : OutEntry → F64} {rows : List (List OutEntry)}

/-- The arrays after the first `i` rows. -/
def patched (S : CsrArrays) (adds : List (ℕ × OutEntry)) (weighted : Bool) (g : OutEntry → F64)
    (rows : List (List OutEntry)) (i : ℕ) : Patch :=
  { rowPtr := rowOffsets (rows.take i)
    out := (rows.take i).flatten
    edgeWeight := weightsOf weighted g (rows.take i).flatten
    hasNegativeWeight := S.hasNegativeWeight ||
      anyNegative (weightsOf weighted g ((adds.filter (·.1 < i)).map Prod.snd))
    adds := adds.filter (i ≤ ·.1) }

/-- Some weight is below zero among the first rows and the next one. -/
theorem anyNegative_filter_lt_succ (weighted : Bool) (g : OutEntry → F64)
    (adds : List (ℕ × OutEntry)) (i : ℕ) :
    (anyNegative (weightsOf weighted g ((adds.filter (·.1 < i)).map Prod.snd)) ||
      anyNegative (weightsOf weighted g (addedRow adds i))) =
      anyNegative (weightsOf weighted g ((adds.filter (·.1 < i + 1)).map Prod.snd)) := by
  simp only [anyNegative_weightsOf, addedRow, ofKey, ← Bool.and_or_distrib_left]
  congr 1
  rw [Bool.eq_iff_iff, Bool.or_eq_true]
  simp only [List.any_map, List.any_filter, List.any_eq_true, Nat.lt_succ_iff_lt_or_eq]
  grind

lemma append_keptRow (S : CsrArrays) (out : List OutEntry) (i : ℕ) :
    (if i < S.denseToId.length then out ++ S.outRow i else out) = out ++ S.keptRow i := by
  rw [keptRow]
  split
  · rfl
  · rw [append_nil]

lemma copied_weights (h : S.ExtendsTo adds weighted g rows) (out : List OutEntry) (i : ℕ) :
    ((weightsOf weighted g out).map fun w =>
      match S.edgeWeight with
      | some old => if i < S.denseToId.length then w ++ rowAt S.rowPtr old i else w
      | none => w) = weightsOf weighted g (out ++ S.keptRow i) := by
  rw [h.weights]
  cases weighted with
  | false => rfl
  | true =>
    have hrow : rowAt S.rowPtr (S.out.map g) i = (S.outRow i).map g := by
      rw [outRow, rowAt, rowAt, extract_eq_take_drop, extract_eq_take_drop,
        map_take, map_drop]
    rw [← append_keptRow]
    simp only [weightsOf, if_true, map_some, hrow]
    split
    · rw [map_append]
    · rfl

/-- Where no added edge has an earlier id than the last kept one, the kept and added entries are the
row of the extension as they stand. -/
theorem appended_row (h : S.ExtendsTo adds weighted g rows) {i : ℕ} {row : List OutEntry}
    (hrow : rows[i]? = some row) (out : List OutEntry)
    (hsorted : ((addedRow adds i).head?.any fun first =>
      ((out ++ S.keptRow i).getLast?.map (·.edgeId)).any fun last => first.edgeId < last) = false) :
    S.keptRow i ++ addedRow adds i = row := by
  apply eq_row (h.row_ascending i row hrow) (h.row_perm i row hrow)
  -- Both parts ascend, so the last kept entry and the first added one decide.
  let R (a b : OutEntry) : Prop := a.edgeId ≤ b.edgeId
  have htrans : Trans R R R := ⟨fun {a b c} (hab : a.edgeId ≤ b.edgeId) hbc => hab.trans hbc⟩
  have hkept : List.IsChain R (S.keptRow i) :=
    ((h.kept_ascending i).imp fun hlt => hlt.le).isChain
  have hadded : List.IsChain R (addedRow adds i) :=
    ((h.added_ascending i).imp fun hlt => hlt.le).isChain
  refine (hkept.append hadded ?_).pairwise
  intro last hlast first hfirst
  have hlast' : (out ++ S.keptRow i).getLast? = some last := by
    rw [getLast?_append, mem_def.mp hlast]
    rfl
  rw [mem_def.mp hfirst, hlast'] at hsorted
  simpa using hsorted

lemma restoreOrder_eq (h : S.ExtendsTo adds weighted g rows) {i : ℕ} {row : List OutEntry}
    (hrow : rows[i]? = some row) (out : List OutEntry) :
    restoreOrder out.length ((out ++ S.keptRow i).getLast?.map (·.edgeId)) (addedRow adds i)
      (out ++ S.keptRow i ++ addedRow adds i)
      (weightsOf weighted g (out ++ S.keptRow i ++ addedRow adds i)) =
      (out ++ row, weightsOf weighted g (out ++ row)) := by
  rw [restoreOrder, append_assoc]
  split
  next => rw [sortFrom_eq (h.row_ascending i row hrow) (h.row_perm i row hrow)]
  next hno => rw [appended_row h hrow out (by simpa using hno)]

lemma patchRow_patched (h : S.ExtendsTo adds weighted (fun e => weightOf e.edgeId) rows) {i : ℕ}
    (hi : i < rows.length) :
    S.patchRow weightOf (S.patched adds weighted (fun e => weightOf e.edgeId) rows i) i =
      S.patched adds weighted (fun e => weightOf e.edgeId) rows (i + 1) := by
  have hrow := getElem?_eq_getElem hi
  have htake : ((adds.filter (i ≤ ·.1)).takeWhile (·.1 = i)).map Prod.snd = addedRow adds i := by
    rw [addedRow, (h.adds_ascending.filter _).takeWhile_eq (by simp), ofKey, ofKey,
      List.filter_filter]
    congr 1
    apply filter_congr
    intro x _
    simp only [← Bool.decide_and, decide_eq_decide]
    omega
  have hdrop : (adds.filter (i ≤ ·.1)).dropWhile (·.1 = i) = adds.filter (i + 1 ≤ ·.1) := by
    rw [(h.adds_ascending.filter _).dropWhile_eq (by simp), List.filter_filter]
    apply filter_congr
    intro x _
    simp only [← Bool.decide_and, decide_eq_decide]
    omega
  have hout : (rows.take (i + 1)).flatten = (rows.take i).flatten ++ rows[i] := by
    rw [take_add_one, hrow, toList_some, flatten_append, flatten_singleton]
  have hptr : rowOffsets (rows.take (i + 1)) =
      rowOffsets (rows.take i) ++ [((rows.take i).flatten ++ rows[i]).length] := by
    rw [take_add_one, hrow, toList_some, rowOffsets_concat, length_append]
  have hweights : anyNegative
      ((weightsOf weighted (fun e => weightOf e.edgeId) (rows.take i).flatten).map fun _ =>
        (addedRow adds i).map fun e => weightOf e.edgeId) =
      anyNegative (weightsOf weighted (fun e => weightOf e.edgeId) (addedRow adds i)) := by
    cases weighted <;> rfl
  simp only [patchRow, patched, htake, hdrop, append_keptRow, copied_weights h, weightsOf_append,
    restoreOrder_eq h hrow, hweights, hout, hptr, Bool.or_assoc, anyNegative_filter_lt_succ]

lemma foldl_patchRow (h : S.ExtendsTo adds weighted (fun e => weightOf e.edgeId) rows) :
    (List.range rows.length).foldl (S.patchRow weightOf)
      { rowPtr := [0], out := [], edgeWeight := S.edgeWeight.map fun _ => []
        hasNegativeWeight := S.hasNegativeWeight, adds } =
      S.patched adds weighted (fun e => weightOf e.edgeId) rows rows.length := by
  have hstart : ({ rowPtr := [0], out := [], edgeWeight := S.edgeWeight.map fun _ => []
                   hasNegativeWeight := S.hasNegativeWeight, adds } : Patch) =
      S.patched adds weighted (fun e => weightOf e.edgeId) rows 0 := by
    have hweights : S.edgeWeight.map (fun _ => []) =
        weightsOf weighted (fun e => weightOf e.edgeId) [] := by
      rw [h.weights]
      cases weighted <;> rfl
    simp [patched, hweights, rowOffsets, offsets, anyNegative_weightsOf]
  have hrun : ∀ n ≤ rows.length, (List.range n).foldl (S.patchRow weightOf)
      (S.patched adds weighted (fun e => weightOf e.edgeId) rows 0) =
      S.patched adds weighted (fun e => weightOf e.edgeId) rows n := by
    intro n hn
    induction n with
    | zero => rfl
    | succ n ih =>
      rw [range_succ, foldl_append, ih (by omega), foldl_cons, foldl_nil,
        patchRow_patched h (by omega)]
  rw [hstart, hrun _ le_rfl]

/-- The rows hold what the snapshot has and what is added. -/
theorem mem_flatten_iff (h : S.ExtendsTo adds weighted g rows) {e : OutEntry} : e ∈ rows.flatten ↔
    ∃ i < rows.length, e ∈ S.keptRow i ∨ e ∈ addedRow adds i := by
  have hmem : ∀ {i : ℕ} {row : List OutEntry}, rows[i]? = some row →
      (e ∈ row ↔ e ∈ S.keptRow i ∨ e ∈ addedRow adds i) := by
    intro i row hrow
    rw [← (h.row_perm i row hrow).mem_iff, mem_append]
  rw [mem_flatten]
  constructor
  · rintro ⟨row, hrow, he⟩
    obtain ⟨i, hi⟩ := mem_iff_getElem?.mp hrow
    exact ⟨i, (List.getElem?_eq_some_iff.mp hi).1, (hmem hi).mp he⟩
  · rintro ⟨i, hi, he⟩
    exact ⟨rows[i], getElem_mem hi, (hmem (getElem?_eq_getElem hi)).mpr he⟩

end

end CsrArrays

/-! ## Two databases -/

namespace CsrChange.AddsTo

variable {c : CsrChange} {s s' : Storage} (hadds : c.AddsTo s s') (h : s.AdjacencyAgrees)
  (h' : s'.AdjacencyAgrees) {weighted : Bool} {S : CsrArrays}
  (hS : S = CsrArrays.layout s.nodeIds s.outRows (s.outWeights weighted))

include hadds

lemma weightOfEdge_eq (hupdated : c.edgesUpdated = false) {id : EdgeId} {r : EdgeRecord}
    (hget : s.tables.edges.get id = some r) : weightOfEdge s' id = weightOfEdge s id := by
  obtain ⟨props, hkept, hprops⟩ := hadds.kept id r hget
  rw [weightOfEdge, weightOfEdge, hget, hkept, hprops hupdated]

section

include hS

omit hadds in
lemma mem_newNodes {id : NodeId} : id ∈ S.newNodes c ↔ id ∈ c.addedNodes ∧ id ∉ s.nodeIds := by
  have hget : (S.idToDense.get id).isNone ↔ id ∉ s.nodeIds := by
    rw [hS, isNone_iff_eq_none, ← not_isSome_iff_eq_none]
    exact not_congr ((DenseIndex.indexes_fromIds s.nodeIds_nodup).isSome_get id)
  rw [CsrArrays.newNodes, Finset.mem_ascending, List.mem_toFinset, mem_filter, hget]

/-- The nodes of the later database, when the new ones come last. -/
theorem nodeIds_eq (horder : (S.denseToId.getLast?.any fun last =>
    (S.newNodes c).head?.any fun first => first ≤ last) = false) :
    s'.nodeIds = s.nodeIds ++ S.newNodes c := by
  have hids : S.denseToId = s.nodeIds := congrArg CsrArrays.denseToId hS
  apply Finset.ascending_eq_of_pairwise_lt
  · have hold : List.IsChain (· < ·) s.nodeIds := (Finset.ascending_pairwise_lt _).isChain
    have hnew : List.IsChain (· < ·) (S.newNodes c) := (Finset.ascending_pairwise_lt _).isChain
    refine (hold.append hnew ?_).pairwise
    intro last hlast first hfirst
    rw [hids, mem_def.mp hfirst, mem_def.mp hlast] at horder
    simpa using horder
  · intro id
    rw [mem_append, mem_newNodes hS, Table.mem_keys, hadds.nodes, ← Storage.mem_nodeIds]
    by_cases hid : id ∈ s.nodeIds <;> simp [hid]

end

variable {new : List NodeId}

omit hadds in
lemma getElem?_nodeIds_iff (hids : s'.nodeIds = s.nodeIds ++ new) {k : ℕ} {id : NodeId}
    (hid : id ∈ s.nodeIds) :
    s'.nodeIds[k]? = some id ↔ s.nodeIds[k]? = some id := by
  obtain ⟨j, hj⟩ := mem_iff_getElem?.mp hid
  have hj' : s'.nodeIds[j]? = some id := by
    rw [hids, getElem?_append_left (List.getElem?_eq_some_iff.mp hj).1, hj]
  constructor
  · intro hk
    have heq : k = j := (getElem?_inj (List.getElem?_eq_some_iff.mp hk).1
      s'.nodeIds_nodup).mp (hk.trans hj'.symm)
    rw [heq, hj]
  · intro hk
    rw [hids, getElem?_append_left (List.getElem?_eq_some_iff.mp hk).1, hk]

omit hadds in
lemma mem_addedRow {i : ℕ} {e : OutEntry} :
    e ∈ addedRow (CsrArrays.addedEntries c (.fromIds s'.nodeIds)) i ↔
      ∃ src dst, s'.nodeIds[i]? = some src ∧ s'.nodeIds[e.col]? = some dst ∧
        ⟨src, dst, e.edgeType, e.edgeId⟩ ∈ c.addedEdges := by
  rw [mem_addedRow_iff_mem, CsrArrays.addedEntries, List.mem_map]
  simp only [Finset.mem_ascending, List.mem_toFinset, mem_filterMap,
    bind_eq_some_iff, map_eq_some_iff, DenseIndex.get_fromIds s'.nodeIds_nodup]
  constructor
  · rintro ⟨-, ⟨a, ha, srcD, hsrc, dstD, hdst, rfl⟩, heq⟩
    obtain ⟨rfl, rfl⟩ := Prod.mk.inj heq
    exact ⟨a.src, a.dst, hsrc, hdst, ha⟩
  · rintro ⟨src, dst, hsrc, hdst, hmem⟩
    exact ⟨toLex (i, e), ⟨_, hmem, i, hsrc, e.col, hdst, rfl⟩, rfl⟩

/-- An added entry is an edge of the later database only. -/
theorem mem_addedRow_iff {i : ℕ} {e : OutEntry} :
    e ∈ addedRow (CsrArrays.addedEntries c (.fromIds s'.nodeIds)) i ↔
      s.tables.edges.get e.edgeId = .none ∧ ∃ r, s'.tables.edges.get e.edgeId = some r ∧
        s'.nodeIds[i]? = some r.src ∧ r.edgeType = e.edgeType ∧
        s'.nodeIds[e.col]? = some r.dst := by
  rw [mem_addedRow]
  constructor
  · rintro ⟨src, dst, hsrc, hdst, hmem⟩
    obtain ⟨hfresh, props, hget⟩ := (hadds.edges _).mp hmem
    exact ⟨hfresh, _, hget, hsrc, rfl, hdst⟩
  · rintro ⟨hfresh, r, hget, hsrc, htype, hdst⟩
    refine ⟨r.src, r.dst, hsrc, hdst, (hadds.edges _).mpr ⟨hfresh, r.props, ?_⟩⟩
    rw [hget, ← htype]

omit hadds in
lemma addedEntries_pairwise (index : DenseIndex) :
    (CsrArrays.addedEntries c index).Pairwise fun a b => toLex a < toLex b := by
  rw [CsrArrays.addedEntries, pairwise_map]
  exact Finset.ascending_pairwise_lt _

lemma addedRow_ascending (i : ℕ) :
    (addedRow (CsrArrays.addedEntries c (.fromIds s'.nodeIds)) i).Pairwise
      fun a b => a.edgeId < b.edgeId := by
  have hsorted : (addedRow (CsrArrays.addedEntries c (.fromIds s'.nodeIds)) i).Pairwise
      (· < ·) := by
    rw [addedRow, pairwise_map]
    refine ((addedEntries_pairwise _).filter _).imp_of_mem ?_
    intro a b ha hb hlt
    have hrow : a.1 = i := of_decide_eq_true (mem_filter.mp ha).2
    have hrow' : b.1 = i := of_decide_eq_true (mem_filter.mp hb).2
    rcases (Prod.Lex.lt_iff ..).mp hlt with hlt | ⟨-, hlt⟩
    · exact absurd (hrow.trans hrow'.symm) hlt.ne
    · exact hlt
  refine hsorted.imp_of_mem ?_
  intro a b ha hb hlt
  have hkey : a.sortKey < b.sortKey := hlt
  rcases (Prod.Lex.lt_iff ..).mp hkey with hid | ⟨hid, -⟩
  · exact hid
  · -- two added entries of one edge are the same
    obtain ⟨-, r, hget, -, htype, hdst⟩ := hadds.mem_addedRow_iff.mp ha
    obtain ⟨-, r', hget', -, htype', hdst'⟩ := hadds.mem_addedRow_iff.mp hb
    have hids : a.edgeId = b.edgeId := hid
    rw [hids, hget'] at hget
    obtain rfl := some.inj hget
    have hcol : a.col = b.col := (getElem?_inj (List.getElem?_eq_some_iff.mp hdst).1
      s'.nodeIds_nodup).mp (hdst.trans hdst'.symm)
    have heq : a = b := by
      obtain ⟨col, ty, id⟩ := a
      obtain ⟨col', ty', id'⟩ := b
      exact congr (congr (congrArg OutEntry.mk hcol) (htype.symm.trans htype')) hids
    exact absurd heq hlt.ne

section

omit hadds

include hS

lemma keptRow_eq (i : ℕ) : S.keptRow i = s.outRows.getD i [] := by
  rw [CsrArrays.keptRow, hS, CsrArrays.outRow_layout]
  split
  · rfl
  next hlt =>
    rw [getD_eq_default]
    rw [Storage.length_outRows]
    exact not_lt.mp hlt

include h

/-- A kept entry is an edge of the earlier database. -/
theorem mem_keptRow {i : ℕ} {e : OutEntry} :
    e ∈ S.keptRow i ↔ ∃ r, s.tables.edges.get e.edgeId = some r ∧ s.nodeIds[i]? = some r.src ∧
      r.edgeType = e.edgeType ∧ s.nodeIds[e.col]? = some r.dst := by
  rw [keptRow_eq hS]
  rcases lt_or_ge i s.outRows.length with hi | hi
  · rw [getD_eq_getElem _ _ hi]
    exact Storage.mem_outRows h (getElem?_eq_getElem hi)
  · rw [getD_eq_default _ _ hi]
    constructor
    · intro he
      cases he
    · rintro ⟨r, -, hsrc, -⟩
      have hlt := (List.getElem?_eq_some_iff.mp hsrc).1
      rw [Storage.length_outRows] at hi
      omega

lemma keptRow_ascending (i : ℕ) : (S.keptRow i).Pairwise fun a b => a.edgeId < b.edgeId := by
  rw [keptRow_eq hS]
  rcases lt_or_ge i s.outRows.length with hi | hi
  · rw [getD_eq_getElem _ _ hi]
    exact Storage.outRows_ascending h (getElem_mem hi)
  · rw [getD_eq_default _ _ hi]
    exact List.Pairwise.nil

end

include h h' hS

lemma row_perm (hids : s'.nodeIds = s.nodeIds ++ new) {i : ℕ} {row : List OutEntry}
    (hrow : s'.outRows[i]? = some row) :
    (S.keptRow i ++ addedRow (CsrArrays.addedEntries c (.fromIds s'.nodeIds)) i).Perm row := by
  have hkept := nodup_of_ascending (keptRow_ascending h hS i)
  have hadded := nodup_of_ascending (hadds.addedRow_ascending i)
  have hrows := nodup_of_ascending (Storage.outRows_ascending h' (mem_of_getElem? hrow))
  rw [perm_ext_iff_of_nodup (hkept.append hadded ?_) hrows]
  · intro e
    rw [mem_append, mem_keptRow h hS, hadds.mem_addedRow_iff, Storage.mem_outRows h' hrow]
    constructor
    · rintro (⟨r, hget, hsrc, htype, hdst⟩ | ⟨-, hadded⟩)
      · obtain ⟨props, hget', -⟩ := hadds.kept _ r hget
        obtain ⟨hmem, hmem'⟩ := h.ends _ r hget
        refine ⟨_, hget', ?_, htype, ?_⟩
        · exact (getElem?_nodeIds_iff hids (Storage.mem_nodeIds.mpr hmem)).mpr hsrc
        · exact (getElem?_nodeIds_iff hids (Storage.mem_nodeIds.mpr hmem')).mpr hdst
      · exact hadded
    · rintro ⟨r, hget, hsrc, htype, hdst⟩
      rcases hold : s.tables.edges.get e.edgeId with _ | old
      · exact Or.inr ⟨rfl, r, hget, hsrc, htype, hdst⟩
      · left
        obtain ⟨props, hkept, -⟩ := hadds.kept _ old hold
        rw [hget] at hkept
        obtain rfl := some.inj hkept
        obtain ⟨hmem, hmem'⟩ := h.ends _ old hold
        refine ⟨old, rfl, ?_, htype, ?_⟩
        · exact (getElem?_nodeIds_iff hids (Storage.mem_nodeIds.mpr hmem)).mp hsrc
        · exact (getElem?_nodeIds_iff hids (Storage.mem_nodeIds.mpr hmem')).mp hdst
  · intro e he he'
    obtain ⟨r, hget, -⟩ := (mem_keptRow h hS).mp he
    obtain ⟨hfresh, -⟩ := hadds.mem_addedRow_iff.mp he'
    rw [hget] at hfresh
    cases hfresh

/-- What a build of the earlier database has, the change adds up to the rows of the later one. -/
theorem extendsTo (hupdated : weighted = true → c.edgesUpdated = false)
    (hids : s'.nodeIds = s.nodeIds ++ new) :
    S.ExtendsTo (CsrArrays.addedEntries c (.fromIds s'.nodeIds)) weighted
      (fun e => weightOfEdge s' e.edgeId) s'.outRows where
  adds_ascending := (addedEntries_pairwise _).imp fun {a b} hlt => by
    rcases (Prod.Lex.lt_iff ..).mp hlt with hlt | ⟨heq, -⟩
    · exact hlt.le
    · exact heq.le
  weights := by
    have hweights : S.edgeWeight = s.outWeights weighted := congrArg CsrArrays.edgeWeight hS
    have hout : S.out = s.outRows.flatten := congrArg CsrArrays.out hS
    rw [hweights, hout]
    cases weighted with
    | false => rfl
    | true =>
      refine congrArg some (map_congr_left fun e he => ?_)
      obtain ⟨row, hrow, he⟩ := mem_flatten.mp he
      obtain ⟨i, hi⟩ := mem_iff_getElem?.mp hrow
      obtain ⟨r, hget, -⟩ := (Storage.mem_outRows h hi).mp he
      exact (hadds.weightOfEdge_eq (hupdated rfl) hget).symm
  row_ascending i row hrow := Storage.outRows_ascending h' (mem_of_getElem? hrow)
  row_perm i row hrow := hadds.row_perm h h' hS hids hrow
  kept_ascending i := keptRow_ascending h hS i
  added_ascending i := hadds.addedRow_ascending i

end CsrChange.AddsTo

/-! ## The refresh -/

section

variable {s s' : Storage} {c : CsrChange} (hadds : c.AddsTo s s') (h : s.AdjacencyAgrees)
  (h' : s'.AdjacencyAgrees) {weighted : Bool} {S : CsrArrays}
  (hS : S = CsrArrays.layout s.nodeIds s.outRows (s.outWeights weighted))

include hadds h h'

/-- The later database has no more edges than the earlier one and the change together. -/
theorem CsrChange.AddsTo.length_le :
    s'.outRows.flatten.length ≤ s.outRows.flatten.length +
      (CsrArrays.addedEntries c (.fromIds s'.nodeIds)).length := by
  rw [Storage.length_flatten_outRows h, Storage.length_flatten_outRows h']
  set adds := CsrArrays.addedEntries c (.fromIds s'.nodeIds)
  have hsub : s'.tables.edges.keys ⊆
      s.tables.edges.keys ∪ (adds.map (·.2.edgeId)).toFinset := by
    intro id hid
    obtain ⟨r, hget⟩ := isSome_iff_exists.mp ((Table.mem_keys ..).mp hid)
    obtain ⟨hsrc, hdst⟩ := h'.ends id r hget
    obtain ⟨i, hi⟩ := mem_iff_getElem?.mp (Storage.mem_nodeIds.mpr hsrc)
    obtain ⟨k, hk⟩ := mem_iff_getElem?.mp (Storage.mem_nodeIds.mpr hdst)
    rw [Finset.mem_union, Table.mem_keys, List.mem_toFinset, List.mem_map]
    rcases hold : s.tables.edges.get id with _ | old
    · right
      have hadded : (⟨k, r.edgeType, id⟩ : OutEntry) ∈ addedRow adds i :=
        hadds.mem_addedRow_iff.mpr ⟨hold, r, hget, hi, rfl, hk⟩
      exact ⟨(i, ⟨k, r.edgeType, id⟩), mem_addedRow_iff_mem.mp hadded, rfl⟩
    · exact Or.inl rfl
  calc s'.tables.edges.keys.card
      ≤ (s.tables.edges.keys ∪ (adds.map (·.2.edgeId)).toFinset).card := Finset.card_le_card hsub
    _ ≤ s.tables.edges.keys.card + (adds.map (·.2.edgeId)).toFinset.card := Finset.card_union_le ..
    _ ≤ s.tables.edges.keys.card + adds.length := by
      have hlen := toFinset_card_le (adds.map (·.2.edgeId))
      rw [length_map] at hlen
      omega

include hS

/-- A weight below zero is one of the earlier ones or comes with the change. -/
theorem CsrChange.AddsTo.anyNegative_eq (hupdated : weighted = true → c.edgesUpdated = false)
    {new : List NodeId} (hids : s'.nodeIds = s.nodeIds ++ new) :
    (S.patched (CsrArrays.addedEntries c (.fromIds s'.nodeIds)) weighted
      (fun e => weightOfEdge s' e.edgeId) s'.outRows s'.outRows.length).hasNegativeWeight =
      anyNegative (s'.outWeights weighted) := by
  have hext := hadds.extendsTo h h' hS hupdated hids
  have hold : S.hasNegativeWeight = anyNegative S.edgeWeight := by
    rw [hS]
    rfl
  have hkept : ∀ e, e ∈ S.out ↔ ∃ i < s'.outRows.length, e ∈ S.keptRow i := by
    have hlen : s.outRows.length ≤ s'.outRows.length := by
      rw [Storage.length_outRows, Storage.length_outRows, hids, length_append]
      omega
    intro e
    have hout : S.out = s.outRows.flatten := congrArg CsrArrays.out hS
    rw [hout, mem_flatten]
    simp only [CsrChange.AddsTo.keptRow_eq hS]
    constructor
    · rintro ⟨row, hrow, he⟩
      obtain ⟨i, hi, rfl⟩ := mem_iff_getElem.mp hrow
      refine ⟨i, by omega, ?_⟩
      rwa [getD_eq_getElem _ _ hi]
    · rintro ⟨i, -, he⟩
      rcases lt_or_ge i s.outRows.length with hi | hi
      · rw [getD_eq_getElem _ _ hi] at he
        exact ⟨_, getElem_mem hi, he⟩
      · rw [getD_eq_default _ _ hi] at he
        cases he
  have hnew : s'.outWeights weighted =
      weightsOf weighted (fun e => weightOfEdge s' e.edgeId) s'.outRows.flatten := rfl
  simp only [CsrArrays.patched, hold, hext.weights, hnew, anyNegative_weightsOf,
    ← Bool.and_or_distrib_left]
  congr 1
  rw [Bool.eq_iff_iff, Bool.or_eq_true, List.any_eq_true, List.any_eq_true, List.any_eq_true]
  simp only [CsrArrays.mem_flatten_iff hext, hkept, List.mem_map, mem_filter,
    decide_eq_true_eq, mem_addedRow_iff_mem]
  constructor
  · rintro (⟨e, ⟨i, hi, he⟩, hneg⟩ | ⟨-, ⟨⟨i, e⟩, ⟨hmem, hi⟩, rfl⟩, hneg⟩)
    · exact ⟨e, ⟨i, hi, Or.inl he⟩, hneg⟩
    · exact ⟨e, ⟨i, hi, Or.inr hmem⟩, hneg⟩
  · rintro ⟨e, ⟨i, hi, he | hmem⟩, hneg⟩
    · exact Or.inl ⟨e, ⟨i, hi, he⟩, hneg⟩
    · exact Or.inr ⟨e, ⟨(i, e), ⟨hmem, hi⟩, rfl⟩, hneg⟩

/-- What a patch of a built snapshot returns is the layout of the later database. -/
theorem CsrArrays.withAdditions_eq {S' : CsrArrays}
    (hS' : S.withAdditions (weightOfEdge s') c = some S') :
    S' = layout s'.nodeIds s'.outRows (s'.outWeights weighted) ∧
      s'.outRows.flatten.length ≤ maxSnapshotEdges := by
  have hweighted : S.edgeWeight.isSome = weighted := by
    rw [hS]
    cases weighted <;> rfl
  have hdense : S.denseToId = s.nodeIds := congrArg denseToId hS
  rw [withAdditions] at hS'
  split at hS'
  · cases hS'
  next hflags =>
    have hupdated : weighted = true → c.edgesUpdated = false := by
      intro hw
      rw [hweighted, hw] at hflags
      simp only [Bool.and_true, Bool.or_eq_true, not_or, Bool.not_eq_true] at hflags
      exact hflags.2
    dsimp only at hS'
    split at hS'
    · cases hS'
    next horder =>
      have hids := hadds.nodeIds_eq hS (by simpa using horder)
      rw [hdense, ← hids] at hS'
      split at hS'
      · cases hS'
      next hsize =>
        have hext := hadds.extendsTo h h' hS hupdated hids
        have hfold := foldl_patchRow hext
        have hnegative := hadds.anyNegative_eq h h' hS hupdated hids
        have hout : S.out = s.outRows.flatten := congrArg out hS
        rw [Storage.length_outRows] at hfold hnegative
        refine ⟨?_, (hadds.length_le h h').trans (hout ▸ not_lt.mp hsize)⟩
        rw [← some.inj hS', hfold]
        simp only [layout, hnegative]
        simp only [patched, ← Storage.length_outRows, take_length]
        rfl

end

namespace Graph

section

variable [TextLib]

/-- **The incremental refresh.** A snapshot that was built after a run, with or without weights, is
patched with a change that lists what later actions have added. The patch gives up, or what it
returns is in all its arrays what a build after the later actions returns. -/
theorem build_of_withAdditions (actions later : List Action) (c : CsrChange) (weighted : Bool)
    (S : CsrArrays) (hS : CsrArrays.build (run actions .empty).storage weighted = .ok S)
    (hadds : c.AddsTo (run actions .empty).storage (run (actions ++ later) .empty).storage) :
    S.withAdditions (weightOfEdge (run (actions ++ later) .empty).storage) c = none ∨
      ∃ S', S.withAdditions (weightOfEdge (run (actions ++ later) .empty).storage) c = some S' ∧
        CsrArrays.build (run (actions ++ later) .empty).storage weighted = .ok S' := by
  have h := adjacencyAgrees_run actions
  have h' := adjacencyAgrees_run (actions ++ later)
  generalize (run actions .empty).storage = s at *
  generalize (run (actions ++ later) .empty).storage = s' at *
  rw [CsrArrays.build_eq h] at hS
  split at hS
  · cases hS
  · rcases hpatch : S.withAdditions (weightOfEdge s') c with _ | S'
    · exact Or.inl rfl
    · obtain ⟨rfl, hsize⟩ := CsrArrays.withAdditions_eq hadds h h' (Except.ok.inj hS).symm hpatch
      refine Or.inr ⟨_, rfl, ?_⟩
      rw [CsrArrays.build_eq h', if_neg (not_lt.mpr hsize)]

end

section

attribute [local instance] TextLib.ascii

/-- Two nodes and an edge between them. -/
def firstEdge : List Action :=
  let none : Props := ⟨.object [], Json.wellFormed_empty⟩
  [.mutation (.addNode "A" none) (.ok ()), .mutation (.addNode "A" none) (.ok ()),
    .mutation (.addEdge 0 1 "T" none) (.ok ())]

/-- A third node with an edge from each of the others. -/
def laterEdges : List Action :=
  let none : Props := ⟨.object [], Json.wellFormed_empty⟩
  [.mutation (.addNode "A" none) (.ok ()), .mutation (.addEdge 1 2 "T" none) (.ok ()),
    .mutation (.addEdge 0 2 "U" none) (.ok ())]

/-- The change that lists the third node and its edges, the last one first. -/
def laterChange : CsrChange := ⟨[2], [⟨0, 2, 1, 2⟩, ⟨1, 2, 0, 1⟩], false, false⟩

lemma laterChange_addsTo :
    laterChange.AddsTo (run firstEdge .empty).storage
    (run (firstEdge ++ laterEdges) .empty).storage := by
  apply CsrChange.AddsTo.of_keys
  · decide +kernel
  · decide +kernel
  · decide +kernel
  · decide +kernel

/-- A snapshot of the first edge takes in the later ones. -/
theorem build_of_withAdditions_laterEdges : ∃ S,
    CsrArrays.build (run firstEdge .empty).storage true = .ok S ∧
      (S.withAdditions (weightOfEdge (run (firstEdge ++ laterEdges) .empty).storage)
        laterChange).isSome ∧
      (S.withAdditions (weightOfEdge (run (firstEdge ++ laterEdges) .empty).storage)
          laterChange = none ∨
        ∃ S', S.withAdditions (weightOfEdge (run (firstEdge ++ laterEdges) .empty).storage)
            laterChange = some S' ∧
          CsrArrays.build (run (firstEdge ++ laterEdges) .empty).storage true = .ok S') := by
  have hsize : (run firstEdge .empty).storage.tables.edges.keys.card = 1 := by decide +kernel
  have hbuild : CsrArrays.build (run firstEdge .empty).storage true =
      .ok (CsrArrays.layout (run firstEdge .empty).storage.nodeIds
        (run firstEdge .empty).storage.outRows
        ((run firstEdge .empty).storage.outWeights true)) := by
    have h := adjacencyAgrees_run firstEdge
    rw [CsrArrays.build_eq h, Storage.length_flatten_outRows h, hsize, if_neg (by decide)]
  refine ⟨_, hbuild, by decide +kernel, ?_⟩
  exact build_of_withAdditions firstEdge laterEdges laterChange true _ hbuild laterChange_addsTo

end

end Graph

end IssunDB
