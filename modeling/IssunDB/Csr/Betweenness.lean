import IssunDB.Csr.Search
import IssunDB.Lib.Loop
import IssunDB.Lib.Paths
import IssunDB.Lib.Words

/-!
# Counting shortest paths

Betweenness centrality makes one breadth-first pass per source. A pass counts in `sigma` the
shortest paths to each node and lists in `pred` the predecessors of each node on them, a second walk
over the edges of a level adding the counts of the level before. `sigma` is a 64-bit number.

`Counted` is the invariant of a pass between two levels. It gives that a pass ends, that the
predecessor lists are exact, and that the counts are exact up to a multiple of `2 ^ 64`.
-/

namespace IssunDB

open List

/-- What a pass from one source has found. -/
structure PathDag where
  levels : Levels
  /-- The number of shortest paths to each node. -/
  sigma : List ℕ
  /-- The predecessors of each node on its shortest paths. -/
  pred : List (List ℕ)
  /-- The members of each level. -/
  order : List (List ℕ)

/-- Credit an edge from `v` to `w` when `w` is on the level `hop`. A pair counts once however many
edges join it: `v` contributes its whole row before the next node does. -/
def creditEdge (levels : Levels) (hop v : ℕ) (st : List ℕ × List (List ℕ)) (w : ℕ) :
    List ℕ × List (List ℕ) :=
  if levels.getD w none = some hop ∧ (st.2.getD w []).getLast? ≠ some v then
    (st.1.set w (u64Add (st.1.getD w 0) (st.1.getD v 0)), st.2.set w (st.2.getD w [] ++ [v]))
  else st

namespace CsrArrays

variable (S : CsrArrays)

/-- The second walk over the edges of a level, once the members of the next level are marked. -/
def creditFrontier (levels : Levels) (hop : ℕ) (frontier : List ℕ)
    (st : List ℕ × List (List ℕ)) : List ℕ × List (List ℕ) :=
  frontier.foldl
    (fun st v => (S.outRow v).foldl (fun st e => creditEdge levels hop v st e.col) st) st

/-- The level loop: expand the level `current`, discovering the next one, until there is none. -/
def discoverLevels : (fuel current : ℕ) → PathDag → Option PathDag
  | 0, _, _ => none
  | fuel + 1, current, dag =>
    let hop := current + 1
    let frontier := dag.order.getD current []
    let (levels, next) := S.expandFrontier frontier hop dag.levels
    if next = [] then some { dag with levels }
    else
      let (sigma, pred) := S.creditFrontier levels hop frontier (dag.sigma, dag.pred)
      discoverLevels fuel hop ⟨levels, sigma, pred, dag.order ++ [next]⟩

/-- The forward half of a pass from one source. -/
def shortestPathDag (fuel s : ℕ) : Option PathDag :=
  let n := S.denseToId.length
  S.discoverLevels fuel 0
    ⟨(List.replicate n none).set s (some 0), (List.replicate n 0).set s 1, List.replicate n [],
      [[s]]⟩

end CsrArrays

/-! ## Crediting -/

/-- The count and the predecessors of one node. -/
def entryOf (st : List ℕ × List (List ℕ)) (w : ℕ) : ℕ × List ℕ :=
  (st.1.getD w 0, st.2.getD w [])

/-- What a credit from `v`, of count `count`, does to the entry of a node. -/
def credited (v count : ℕ) (entry : ℕ × List ℕ) : ℕ × List ℕ :=
  if entry.2.getLast? = some v then entry else (u64Add entry.1 count, entry.2 ++ [v])

lemma credited_credited (v count : ℕ) (entry : ℕ × List ℕ) :
    credited v count (credited v count entry) = credited v count entry := by
  by_cases h : entry.2.getLast? = some v
  · simp [credited, h]
  · simp [credited, h]

section Credit

variable {levels : Levels} {hop : ℕ}

variable (levels hop) in
lemma length_creditEdge (v w : ℕ) (st : List ℕ × List (List ℕ)) :
    (creditEdge levels hop v st w).1.length = st.1.length ∧
      (creditEdge levels hop v st w).2.length = st.2.length := by
  rw [creditEdge]
  split
  · exact ⟨List.length_set .., List.length_set ..⟩
  · exact ⟨rfl, rfl⟩

lemma entryOf_creditEdge {v w : ℕ} {st : List ℕ × List (List ℕ)} (h₁ : w < st.1.length)
    (h₂ : w < st.2.length) (x : ℕ) :
    entryOf (creditEdge levels hop v st w) x =
      if x = w ∧ levels.getD x none = some hop then credited v (entryOf st v).1 (entryOf st x)
      else entryOf st x := by
  rw [creditEdge]
  split
  next h =>
    rw [entryOf, List.getD_set h₁, List.getD_set h₂]
    by_cases hx : x = w
    · subst hx
      have hlast : ¬(entryOf st x).2.getLast? = some v := h.2
      rw [if_pos rfl, if_pos rfl, if_pos ⟨rfl, h.1⟩, credited, if_neg hlast]
      rfl
    · rw [if_neg hx, if_neg hx, if_neg fun h' => hx h'.1]
      rfl
  next h =>
    by_cases hx : x = w ∧ levels.getD x none = some hop
    · obtain ⟨rfl, hlevel⟩ := hx
      have hlast : (entryOf st x).2.getLast? = some v := by
        by_contra hne
        exact h ⟨hlevel, hne⟩
      rw [if_pos ⟨rfl, hlevel⟩, credited, if_pos hlast]
    · rw [if_neg hx]

lemma entryOf_creditRow {n v : ℕ} (hv : levels.getD v none ≠ some hop) {ts : List ℕ}
    (hts : ∀ w ∈ ts, w < n) {st : List ℕ × List (List ℕ)} (h₁ : st.1.length = n)
    (h₂ : st.2.length = n) :
    (ts.foldl (creditEdge levels hop v) st).1.length = n ∧
      (ts.foldl (creditEdge levels hop v) st).2.length = n ∧
      ∀ x, entryOf (ts.foldl (creditEdge levels hop v) st) x =
        if x ∈ ts ∧ levels.getD x none = some hop then credited v (entryOf st v).1 (entryOf st x)
        else entryOf st x := by
  induction ts generalizing st with
  | nil => exact ⟨h₁, h₂, fun x => by simp⟩
  | cons w ts ih =>
    have hw : w < n := hts w mem_cons_self
    obtain ⟨hlen₁, hlen₂⟩ := length_creditEdge levels hop v w st
    obtain ⟨hall₁, hall₂, hall⟩ := ih (fun x hx => hts x (mem_cons_of_mem _ hx))
      (hlen₁.trans h₁) (hlen₂.trans h₂)
    have hstep : ∀ x, entryOf (creditEdge levels hop v st w) x = _ :=
      entryOf_creditEdge (h₁.symm ▸ hw) (h₂.symm ▸ hw)
    refine ⟨hall₁, hall₂, fun x => ?_⟩
    -- The count of `v` is not touched, for `v` is not on the level.
    have hcount : entryOf (creditEdge levels hop v st w) v = entryOf st v := by
      rw [hstep v, if_neg fun h => hv h.2]
    rw [foldl_cons, hall, hcount, hstep x]
    generalize levels.getD x none = level
    by_cases hlevel : level = some hop
    · by_cases hxw : x = w
      · simp [hlevel, hxw, credited_credited]
      · simp [hlevel, hxw]
    · simp [hlevel]

/-- The credits of a row of nodes to a node on the level. -/
def creditedBy (st : List ℕ × List (List ℕ)) (vs : List ℕ) (entry : ℕ × List ℕ) : ℕ × List ℕ :=
  vs.foldl (fun entry v => credited v (entryOf st v).1 entry) entry

/-- The credits of nodes that are not among the predecessors yet add their counts and append
them. -/
theorem creditedBy_eq (st : List ℕ × List (List ℕ)) {vs : List ℕ} (hvs : vs.Nodup) {count : ℕ}
    {preds : List ℕ} (hfresh : ∀ v ∈ vs, preds.getLast? ≠ some v) :
    creditedBy st vs (count, preds) =
      (vs.foldl (fun total v => u64Add total (entryOf st v).1) count, preds ++ vs) := by
  induction vs generalizing count preds with
  | nil => simp [creditedBy]
  | cons v vs ih =>
    obtain ⟨hv, hvs⟩ := nodup_cons.mp hvs
    have hfirst : credited v (entryOf st v).1 (count, preds) =
        (u64Add count (entryOf st v).1, preds ++ [v]) := if_neg (hfresh v mem_cons_self)
    have hrest : ∀ w ∈ vs, (preds ++ [v]).getLast? ≠ some w := by
      intro w hw heq
      rw [getLast?_concat, Option.some.injEq] at heq
      exact hv (heq ▸ hw)
    have hsplit : creditedBy st (v :: vs) (count, preds) =
        creditedBy st vs (u64Add count (entryOf st v).1, preds ++ [v]) := by
      rw [creditedBy, foldl_cons, hfirst]
      rfl
    rw [hsplit, ih hvs hrest, foldl_cons, append_assoc, singleton_append]

end Credit

namespace Snapshot

variable (S : Snapshot)

/-- There is an edge from one dense index to another, as a test. -/
def joins (v w : ℕ) : Bool := w ∈ (S.outRow v).map (·.col)

lemma joins_iff {v w : ℕ} : S.joins v w = true ↔ S.DenseStep v w := by
  rw [joins, decide_eq_true_iff, mem_map]
  exact S.exists_mem_outRow

lemma entryOf_creditFrontier {levels : Levels} {hop : ℕ} {frontier : List ℕ}
    (hlevel : ∀ v ∈ frontier, levels.getD v none ≠ some hop) (st : List ℕ × List (List ℕ))
    (h₁ : st.1.length = S.n) (h₂ : st.2.length = S.n) :
    (S.creditFrontier levels hop frontier st).1.length = S.n ∧
      (S.creditFrontier levels hop frontier st).2.length = S.n ∧
      ∀ x, entryOf (S.creditFrontier levels hop frontier st) x =
        if levels.getD x none = some hop then
          creditedBy st (frontier.filter fun v => S.joins v x) (entryOf st x)
        else entryOf st x := by
  rw [CsrArrays.creditFrontier]
  have hmain : ∀ (frontier : List ℕ) (st' : List ℕ × List (List ℕ)),
      (∀ v ∈ frontier, levels.getD v none ≠ some hop) → st'.1.length = S.n → st'.2.length = S.n →
      (∀ v, levels.getD v none ≠ some hop → entryOf st' v = entryOf st v) →
      (S.creditFrontier levels hop frontier st').1.length = S.n ∧
      (S.creditFrontier levels hop frontier st').2.length = S.n ∧
      ∀ x, entryOf (S.creditFrontier levels hop frontier st') x =
        if levels.getD x none = some hop then
          creditedBy st (frontier.filter fun v => S.joins v x) (entryOf st' x)
        else entryOf st x := by
    intro frontier
    induction frontier with
    | nil =>
      intro st' _ h₁ h₂ hsame
      refine ⟨h₁, h₂, fun x => ?_⟩
      split
      next => rfl
      next hx => exact hsame x hx
    | cons v frontier ih =>
      intro st' hlevel h₁ h₂ hsame
      have hv := hlevel v mem_cons_self
      have hrow : (S.outRow v).foldl (fun st e => creditEdge levels hop v st e.col) st' =
          ((S.outRow v).map (·.col)).foldl (creditEdge levels hop v) st' := by
        rw [foldl_map]
      have hcols : ∀ w ∈ (S.outRow v).map (·.col), w < S.n := by
        intro w hw
        obtain ⟨e, he, rfl⟩ := mem_map.mp hw
        exact (S.exists_mem_outRow.mp ⟨e, he, rfl⟩).lt.2
      obtain ⟨hlen₁, hlen₂, hentry⟩ := entryOf_creditRow hv hcols h₁ h₂
      rw [← hrow] at hlen₁ hlen₂ hentry
      obtain ⟨hall₁, hall₂, hall⟩ := ih _ (fun w hw => hlevel w (mem_cons_of_mem _ hw)) hlen₁
        hlen₂ fun w hw => by rw [hentry, if_neg fun h => hw h.2, hsame w hw]
      refine ⟨hall₁, hall₂, fun x => ?_⟩
      refine (hall x).trans ?_
      split
      next hx =>
        rw [hentry, hsame v hv]
        by_cases hjoin : S.joins v x = true
        · have hmem : x ∈ (S.outRow v).map (·.col) := of_decide_eq_true hjoin
          rw [if_pos ⟨hmem, hx⟩, filter_cons, if_pos hjoin]
          rfl
        · have hmem : x ∉ (S.outRow v).map (·.col) := fun h => hjoin (decide_eq_true h)
          rw [if_neg fun h => hmem h.1, filter_cons, if_neg hjoin]
      next => rfl
  exact hmain frontier st hlevel h₁ h₂ fun _ _ => rfl

/-! ## The level loop -/

/-- The number of shortest paths between two dense indices. -/
noncomputable def pathCount (s w : ℕ) : ℕ := (shortestWalks S.DenseStep s w).ncard

/-- A pass that has discovered the levels up to `k`. -/
structure Counted (s k : ℕ) (dag : PathDag) : Prop where
  length_levels : dag.levels.length = S.n
  length_sigma : dag.sigma.length = S.n
  length_pred : dag.pred.length = S.n
  length_order : dag.order.length = k + 1
  levels : ∀ d j, dag.levels.getD d none = some j ↔ j ≤ k ∧ AtDist S.DenseStep s j d
  ascending : (dag.order.getD k []).Pairwise (· < ·)
  frontier : ∀ v, v ∈ dag.order.getD k [] ↔ AtDist S.DenseStep s k v
  finite : ∀ j ≤ k, ∀ w, AtDist S.DenseStep s j w → (shortestWalks S.DenseStep s w).Finite
  sigma : ∀ j ≤ k, ∀ w, AtDist S.DenseStep s j w → dag.sigma.getD w 0 = S.pathCount s w % 2 ^ 64
  sigma_zero : ∀ w, dag.levels.getD w none = none → dag.sigma.getD w 0 = 0
  pred_ascending : ∀ w, (dag.pred.getD w []).Pairwise (· < ·)
  pred : ∀ w v, v ∈ dag.pred.getD w [] ↔
    ∃ j < k, (AtDist S.DenseStep s j v ∧ S.DenseStep v w) ∧ AtDist S.DenseStep s (j + 1) w
  /-- Each level has a member. -/
  size : k + 1 ≤ (IssunDB.marked dag.levels).card

variable {S}

lemma counted_start {s : ℕ} (hs : s < S.n) : S.Counted s 0
    ⟨(List.replicate S.n none).set s (some 0), (List.replicate S.n 0).set s 1,
      List.replicate S.n [], [[s]]⟩ := by
  have hlevels : ∀ d, ((List.replicate S.n none).set s (some 0)).getD d none =
      if d = s then some 0 else none := by
    intro d
    rw [List.getD_set (by simpa using hs)]
    rw [List.getD_replicate_self]
  have hsigma : ∀ d, ((List.replicate S.n 0).set s 1).getD d 0 = if d = s then 1 else 0 := by
    intro d
    rw [List.getD_set (by simpa using hs)]
    rw [List.getD_replicate_self]
  have hpred : ∀ w, (List.replicate S.n ([] : List ℕ)).getD w [] = [] := by
    intro w
    exact List.getD_replicate_self _ _ _
  constructor
  · simp
  · simp
  · simp
  · rfl
  · intro d j
    rw [hlevels]
    constructor
    · split
      next heq =>
        rintro ⟨⟩
        exact ⟨le_rfl, atDist_zero.mpr heq⟩
      next => rintro ⟨⟩
    · rintro ⟨hj, hdist⟩
      obtain rfl : j = 0 := by omega
      rw [if_pos (atDist_zero.mp hdist)]
  · exact pairwise_singleton _ _
  · intro v
    rw [atDist_zero]
    exact mem_singleton
  · intro j hj w hdist
    obtain rfl : j = 0 := by omega
    rw [atDist_zero.mp hdist, shortestWalks_self]
    exact Set.finite_singleton _
  · intro j hj w hdist
    obtain rfl : j = 0 := by omega
    rw [hsigma, if_pos (atDist_zero.mp hdist), pathCount, atDist_zero.mp hdist, shortestWalks_self,
      Set.ncard_singleton]
    rfl
  · intro w hw
    rw [hlevels] at hw
    rw [hsigma]
    split at hw
    next => cases hw
    next hne => exact if_neg hne
  · intro w
    rw [hpred]
    exact List.Pairwise.nil
  · intro w v
    rw [hpred]
    simp
  · rw [marked_set_some (by simpa using hs), Finset.card_insert_of_notMem]
    · omega
    · rw [marked_replicate]
      exact Finset.notMem_empty s

lemma foldl_u64Add (f g : ℕ → ℕ) {vs : List ℕ} (h : ∀ v ∈ vs, f v = g v % 2 ^ 64) {total : ℕ}
    (htotal : total < 2 ^ 64) :
    vs.foldl (fun total v => u64Add total (f v)) total = (total + (vs.map g).sum) % 2 ^ 64 := by
  induction vs generalizing total with
  | nil => simpa using (Nat.mod_eq_of_lt htotal).symm
  | cons v vs ih =>
    rw [foldl_cons, ih (fun w hw => h w (mem_cons_of_mem _ hw)) (u64Add_lt _ _),
      h v mem_cons_self, u64Add, map_cons, sum_cons]
    omega

namespace Counted

variable {s k : ℕ} {dag : PathDag}

lemma level_eq_none (h : S.Counted s k dag) {d : ℕ} :
    d ∉ IssunDB.marked dag.levels ↔ ∀ j ≤ k, ¬AtDist S.DenseStep s j d :=
  (notMem_marked_iff (h.levels d)).trans (forall_congr' fun _ => not_and)

lemma mem_next (h : S.Counted s k dag) (hop v : ℕ) :
    v ∈ (S.expandFrontier (dag.order.getD k []) hop dag.levels).2 ↔
      AtDist S.DenseStep s (k + 1) v := by
  obtain ⟨-, -, -, hmem⟩ := S.expandFrontier_spec h.length_levels (dag.order.getD k []) hop
  rw [hmem, atDist_succ, h.level_eq_none]
  simp only [h.frontier]

/-- After one more level is discovered, the levels are the distances up to it. -/
lemma levels_next (h : S.Counted s k dag) (d j : ℕ) :
    (S.expandFrontier (dag.order.getD k []) (k + 1) dag.levels).1.getD d none = some j ↔
      j ≤ k + 1 ∧ AtDist S.DenseStep s j d := by
  have hdist := h.mem_next (k + 1) d
  rw [S.getD_expandFrontier h.length_levels (dag.order.getD k []) (k + 1)]
  split
  next hin =>
    have hd := hdist.mp hin
    constructor
    · rintro ⟨⟩
      exact ⟨le_rfl, hd⟩
    · rintro ⟨-, hj⟩
      rw [hd.unique hj]
  next hout =>
    rw [h.levels]
    constructor
    · rintro ⟨hj, hd⟩
      exact ⟨by omega, hd⟩
    · rintro ⟨hj, hd⟩
      refine ⟨?_, hd⟩
      by_contra hgt
      obtain rfl : j = k + 1 := by omega
      exact hout (hdist.mpr hd)

section Credit

variable {levels : Levels}
  (hlevels : ∀ d j, levels.getD d none = some j ↔ j ≤ k + 1 ∧ AtDist S.DenseStep s j d)

include hlevels

lemma frontier_level (h : S.Counted s k dag) {v : ℕ} (hv : v ∈ dag.order.getD k []) :
    levels.getD v none ≠ some (k + 1) := by
  intro heq
  have := ((h.frontier v).mp hv).unique ((hlevels v (k + 1)).mp heq).2
  omega

/-- The credits leave what is not on the new level as it was. -/
lemma entryOf_old (h : S.Counted s k dag) {w : ℕ} (hw : ¬AtDist S.DenseStep s (k + 1) w) :
    entryOf (S.creditFrontier levels (k + 1) (dag.order.getD k []) (dag.sigma, dag.pred)) w =
      entryOf (dag.sigma, dag.pred) w := by
  obtain ⟨-, -, hentry⟩ := S.entryOf_creditFrontier (fun v => h.frontier_level hlevels)
    (dag.sigma, dag.pred) h.length_sigma h.length_pred
  rw [hentry, if_neg fun heq => hw ((hlevels w (k + 1)).mp heq).2]

/-- The predecessors of a node on the new level are all on the last one, and its shortest paths are
those of its predecessors, one step longer. -/
theorem entryOf_new (h : S.Counted s k dag) {w : ℕ} (hw : AtDist S.DenseStep s (k + 1) w) :
    entryOf (S.creditFrontier levels (k + 1) (dag.order.getD k []) (dag.sigma, dag.pred)) w =
        (S.pathCount s w % 2 ^ 64, (dag.order.getD k []).filter fun v => S.joins v w) ∧
      (shortestWalks S.DenseStep s w).Finite := by
  obtain ⟨-, -, hentry⟩ := S.entryOf_creditFrontier (fun v => h.frontier_level hlevels)
    (dag.sigma, dag.pred) h.length_sigma h.length_pred
  have hunmarked : w ∉ IssunDB.marked dag.levels := by
    rw [h.level_eq_none]
    intro j hj hd
    have := hd.unique hw
    omega
  have hempty : dag.pred.getD w [] = [] := by
    apply eq_nil_iff_forall_not_mem.mpr
    intro v hv
    obtain ⟨j, hj, -, hd⟩ := (h.pred w v).mp hv
    have := hd.unique hw
    omega
  have hzero : dag.sigma.getD w 0 = 0 := h.sigma_zero w (getD_eq_none_iff.mpr hunmarked)
  have hpreds : ∀ v, v ∈ (dag.order.getD k []).filter (fun v => S.joins v w) ↔
      AtDist S.DenseStep s k v ∧ S.DenseStep v w := by
    intro v
    rw [mem_filter, h.frontier, S.joins_iff]
  have hpredsNodup := (h.ascending.imp (fun {a b} (hab : a < b) => hab.ne)).filter
    fun v => S.joins v w
  obtain ⟨hfin, hcount⟩ := ncard_shortestWalks hw hpredsNodup hpreds
    fun v hv => h.finite k le_rfl v ((hpreds v).mp hv).1
  refine ⟨?_, hfin⟩
  have hold : entryOf (dag.sigma, dag.pred) w = (0, []) := Prod.ext hzero hempty
  rw [hentry, if_pos ((hlevels w (k + 1)).mpr ⟨le_rfl, hw⟩), hold,
    creditedBy_eq _ hpredsNodup (by simp), nil_append,
    foldl_u64Add (fun v => (entryOf (dag.sigma, dag.pred) v).1) (S.pathCount s)
      (fun v hv => h.sigma k le_rfl v ((hpreds v).mp hv).1) (by decide), Nat.zero_add, pathCount,
    hcount]
  rfl

end Credit

/-- Discovering one more level keeps the invariant. -/
theorem advance (h : S.Counted s k dag)
    (hnext : (S.expandFrontier (dag.order.getD k []) (k + 1) dag.levels).2 ≠ []) :
    S.Counted s (k + 1)
      ⟨(S.expandFrontier (dag.order.getD k []) (k + 1) dag.levels).1,
        (S.creditFrontier (S.expandFrontier (dag.order.getD k []) (k + 1) dag.levels).1 (k + 1)
          (dag.order.getD k []) (dag.sigma, dag.pred)).1,
        (S.creditFrontier (S.expandFrontier (dag.order.getD k []) (k + 1) dag.levels).1 (k + 1)
          (dag.order.getD k []) (dag.sigma, dag.pred)).2,
        dag.order ++ [(S.expandFrontier (dag.order.getD k []) (k + 1) dag.levels).2]⟩ := by
  obtain ⟨hlen, hmarked, hnodup, hmem⟩ :=
    S.expandFrontier_spec h.length_levels (dag.order.getD k []) (k + 1)
  have hgetD := S.getD_expandFrontier h.length_levels (dag.order.getD k []) (k + 1)
  have hascending := S.expandFrontier_ascending h.length_levels (dag.order.getD k []) (k + 1)
  have hdist := h.mem_next (k + 1)
  have hlevels := h.levels_next
  revert hnext hlen hmarked hnodup hmem hgetD hascending hdist hlevels
  generalize S.expandFrontier (dag.order.getD k []) (k + 1) dag.levels = expanded
  obtain ⟨levels, next⟩ := expanded
  intro hnext hlen hmarked hnodup hmem hgetD hascending hdist hlevels
  dsimp only at *
  obtain ⟨hlen₁, hlen₂, -⟩ := S.entryOf_creditFrontier (fun v => h.frontier_level hlevels)
    (dag.sigma, dag.pred) h.length_sigma h.length_pred
  have hlast : (dag.order ++ [next]).getD (k + 1) [] = next := by
    rw [getD_append_right _ _ _ _ h.length_order.le, h.length_order, Nat.sub_self]
    rfl
  have hlater : ∀ j ≤ k, ∀ w, AtDist S.DenseStep s j w → ¬AtDist S.DenseStep s (k + 1) w := by
    intro j hj w hd hw
    have := hd.unique hw
    omega
  have hle : ∀ j, j ≤ k + 1 ↔ j ≤ k ∨ j = k + 1 := by omega
  constructor
  · exact hlen
  · exact hlen₁
  · exact hlen₂
  · rw [length_append, h.length_order, length_singleton]
  · exact hlevels
  · rw [hlast]
    exact hascending
  · intro v
    rw [hlast]
    exact hdist v
  · intro j hj w hw
    rcases (hle j).mp hj with hj | rfl
    · exact h.finite j hj w hw
    · exact (h.entryOf_new hlevels hw).2
  · intro j hj w hw
    rcases (hle j).mp hj with hj | rfl
    · exact (congrArg Prod.fst (h.entryOf_old hlevels (hlater j hj w hw))).trans (h.sigma j hj w hw)
    · exact congrArg Prod.fst (h.entryOf_new hlevels hw).1
  · intro w hw
    have hout : w ∉ next := by
      intro hin
      rw [hgetD, if_pos hin] at hw
      cases hw
    rw [hgetD, if_neg hout] at hw
    have hnot : ¬AtDist S.DenseStep s (k + 1) w := fun hd => hout ((hdist w).mpr hd)
    exact (congrArg Prod.fst (h.entryOf_old hlevels hnot)).trans (h.sigma_zero w hw)
  · intro w
    by_cases hw : AtDist S.DenseStep s (k + 1) w
    · have hpred := congrArg Prod.snd (h.entryOf_new hlevels hw).1
      change List.getD _ w [] = _ at hpred
      rw [hpred]
      exact h.ascending.filter _
    · have hpred := congrArg Prod.snd (h.entryOf_old hlevels hw)
      change List.getD _ w [] = _ at hpred
      rw [hpred]
      exact h.pred_ascending w
  · intro w v
    by_cases hw : AtDist S.DenseStep s (k + 1) w
    · have hpred := congrArg Prod.snd (h.entryOf_new hlevels hw).1
      change List.getD _ w [] = _ at hpred
      rw [hpred, mem_filter, h.frontier, S.joins_iff]
      constructor
      · exact fun hv => ⟨k, by omega, hv, hw⟩
      · rintro ⟨j, -, hv, hd⟩
        obtain rfl : j = k := by
          have := hd.unique hw
          omega
        exact hv
    · have hpred := congrArg Prod.snd (h.entryOf_old hlevels hw)
      change List.getD _ w [] = List.getD _ w [] at hpred
      rw [hpred, h.pred]
      constructor
      · rintro ⟨j, hj, hv⟩
        exact ⟨j, by omega, hv⟩
      · rintro ⟨j, hj, hv, hd⟩
        refine ⟨j, ?_, hv, hd⟩
        by_contra hge
        obtain rfl : j = k := by omega
        exact hw hd
  · rw [hmarked, Finset.card_union_of_disjoint, toFinset_card_of_nodup hnodup]
    · have := length_pos_of_ne_nil hnext
      have := h.size
      omega
    · rw [Finset.disjoint_right]
      intro v hv
      exact ((hmem v).mp (mem_toFinset.mp hv)).2

lemma card_marked_le (h : S.Counted s k dag) : (IssunDB.marked dag.levels).card ≤ S.n := by
  rw [IssunDB.marked, ← h.length_levels]
  exact (Finset.card_filter_le _ _).trans (Finset.card_range _).le

/-- An expansion that discovers nothing leaves the invariant, and there is no further level. -/
theorem finish (h : S.Counted s k dag)
    (hnext : (S.expandFrontier (dag.order.getD k []) (k + 1) dag.levels).2 = []) :
    S.Counted s k { dag with
        levels := (S.expandFrontier (dag.order.getD k []) (k + 1) dag.levels).1 } ∧
      ∀ j w, AtDist S.DenseStep s j w → j ≤ k := by
  obtain ⟨hlen, hmarked, -, -⟩ :=
    S.expandFrontier_spec h.length_levels (dag.order.getD k []) (k + 1)
  have hgetD := S.getD_expandFrontier h.length_levels (dag.order.getD k []) (k + 1)
  have hdist := h.mem_next (k + 1)
  simp only [hnext, not_mem_nil, if_false, false_iff] at hgetD hdist
  constructor
  · constructor
    · exact hlen
    · exact h.length_sigma
    · exact h.length_pred
    · exact h.length_order
    · exact fun d j => (hgetD d) ▸ h.levels d j
    · exact h.ascending
    · exact h.frontier
    · exact h.finite
    · exact h.sigma
    · exact fun w hw => h.sigma_zero w ((hgetD w).symm.trans hw)
    · exact h.pred_ascending
    · exact h.pred
    · rw [hmarked, hnext]
      simpa using h.size
  · have hnone : ∀ i w, ¬AtDist S.DenseStep s (k + 1 + i) w := by
      intro i
      induction i with
      | zero => exact hdist
      | succ i ih =>
        intro w hw
        obtain ⟨⟨v, hv, -⟩, -⟩ := atDist_succ.mp hw
        exact ih v hv
    intro j w hw
    by_contra hgt
    exact hnone (j - (k + 1)) w (by rwa [Nat.add_sub_cancel' (by omega)])

lemma discoverLevels {fuel : ℕ} (h : S.Counted s k dag)
    (hfuel : S.n < fuel + (IssunDB.marked dag.levels).card) :
    ∃ m out, S.discoverLevels fuel k dag = some out ∧ S.Counted s m out ∧
      ∀ j w, AtDist S.DenseStep s j w → j ≤ m := by
  induction fuel generalizing k dag with
  | zero =>
    have := h.card_marked_le
    omega
  | succ fuel ih =>
    rw [CsrArrays.discoverLevels]
    dsimp only
    split
    next hnext => exact ⟨k, _, rfl, h.finish hnext⟩
    next hnext =>
      obtain ⟨-, hmarked, hnodup, hmem⟩ :=
        S.expandFrontier_spec h.length_levels (dag.order.getD k []) (k + 1)
      refine ih (h.advance hnext) ?_
      change S.n < fuel + (IssunDB.marked (S.expandFrontier _ (k + 1) dag.levels).1).card
      rw [hmarked, Finset.card_union_of_disjoint, toFinset_card_of_nodup hnodup]
      · have := length_pos_of_ne_nil hnext
        omega
      · rw [Finset.disjoint_right]
        intro v hv
        exact ((hmem v).mp (mem_toFinset.mp hv)).2

end Counted

/-- The predecessor list of every node holds each of its predecessors on a shortest path once. -/
def PredecessorsExact (S : Snapshot) (s : ℕ) (dag : PathDag) : Prop :=
  ∀ w < S.n, (dag.pred.getD w []).Nodup ∧
    ∀ v, v ∈ dag.pred.getD w [] ↔ ∃ q, q ++ [v, w] ∈ shortestWalks S.DenseStep s w

/-- The count of every node is the number of its shortest paths. -/
def CountsExact (S : Snapshot) (s : ℕ) (dag : PathDag) : Prop :=
  ∀ w < S.n, dag.sigma.getD w 0 = S.pathCount s w

/-- A pass ends. Its predecessor lists are exact, and its counts are exact up to multiples of
`2 ^ 64`. -/
theorem exists_shortestPathDag {fuel s : ℕ} (hfuel : S.n ≤ fuel) (hs : s < S.n) :
    ∃ dag, S.shortestPathDag fuel s = some dag ∧ S.PredecessorsExact s dag ∧
      ∀ w, dag.sigma.getD w 0 = S.pathCount s w % 2 ^ 64 := by
  have hstart := counted_start hs
  have hone := hstart.size
  obtain ⟨m, dag, hrun, h, hall⟩ := hstart.discoverLevels
    (show S.n < fuel + (IssunDB.marked _).card by omega)
  refine ⟨dag, hrun, fun w _ => ⟨?_, fun v => ?_⟩, fun w => ?_⟩
  · exact (h.pred_ascending w).imp fun hab => hab.ne
  · rw [h.pred]
    constructor
    · rintro ⟨j, -, hv, hw⟩
      exact (exists_mem_shortestWalks_succ hw).mpr hv
    · rintro ⟨q, hq⟩
      obtain ⟨j, -, hw⟩ := hq.1.exists_atDist
      cases j with
      | zero =>
        rw [atDist_zero.mp hw, shortestWalks_self] at hq
        have := congrArg List.length (Set.mem_singleton_iff.mp hq)
        simp at this
      | succ j =>
        have := hall _ _ hw
        exact ⟨j, by omega, (exists_mem_shortestWalks_succ hw).mp ⟨q, hq⟩, hw⟩
  · by_cases hw : ∃ j, AtDist S.DenseStep s j w
    · obtain ⟨j, hw⟩ := hw
      exact h.sigma j (hall j w hw) w hw
    · have hnone : ∀ j, ¬AtDist S.DenseStep s j w := not_exists.mp hw
      have hlevel : dag.levels.getD w none = none := by
        by_contra hsome
        obtain ⟨j, hj⟩ := Option.ne_none_iff_exists'.mp hsome
        exact hnone j ((h.levels w j).mp hj).2
      rw [h.sigma_zero w hlevel, pathCount, shortestWalks_eq_empty hnone, Set.ncard_empty]
      rfl

end Snapshot

open Snapshot in
/-- The counts and predecessors of a pass are exact just when no node has `2 ^ 64` shortest paths
or more. -/
theorem Snapshot.countsExact_iff (S : Snapshot) {fuel s : ℕ} (hfuel : S.n ≤ fuel) (hs : s < S.n) :
    ∃ dag, S.shortestPathDag fuel s = some dag ∧
      (S.CountsExact s dag ∧ S.PredecessorsExact s dag ↔ ∀ w < S.n, S.pathCount s w < 2 ^ 64) := by
  obtain ⟨dag, hrun, hpred, hsigma⟩ := S.exists_shortestPathDag hfuel hs
  refine ⟨dag, hrun, ?_, ?_⟩
  · rintro ⟨hcounts, -⟩ w hw
    rw [← hcounts w hw, hsigma]
    exact Nat.mod_lt _ (by decide)
  · intro hsmall
    refine ⟨fun w hw => ?_, hpred⟩
    rw [hsigma, Nat.mod_eq_of_lt (hsmall w hw)]

/-! ## A graph with many shortest paths -/

/-- The layer of a node: layer `0` is node `0`, every further layer has two nodes. -/
def layer (d : ℕ) : ℕ := (d + 1) / 2

/-- Layers `0` to `65`, each node joined to both nodes of the next layer. -/
def layeredRows : List (List OutEntry) := (List.range 131).map fun d =>
  if d < 129 then [⟨2 * layer d + 1, 0, 2 * d + 1⟩, ⟨2 * layer d + 2, 0, 2 * d + 2⟩] else []

lemma layeredRows_fit : Snapshot.RowsFit ((List.range 131).map (· + 1)) layeredRows := by
  have hids : layeredRows.flatten.map (·.edgeId) = List.range' 1 258 := by decide +kernel
  refine ⟨?_, by simp [layeredRows], by decide +kernel, by decide +kernel, ?_, by decide +kernel⟩
  · exact pairwise_map.mpr (pairwise_lt_range.imp Nat.succ_lt_succ)
  · rw [hids]
    exact nodup_range'

/-- The layered graph, its nodes numbered from `1`. -/
def layered : Snapshot := .ofRows _ layeredRows none layeredRows_fit

namespace Snapshot

lemma layered_n : layered.n = 131 := by decide +kernel

lemma layered_step {v w : ℕ} :
    layered.DenseStep v w ↔ v < 129 ∧ w < 131 ∧ layer w = layer v + 1 := by
  rw [← exists_mem_outRow, layered, outRow_ofRows, layeredRows]
  rcases lt_or_ge v 131 with hv | hv
  · rw [getD_eq_getElem _ _ (by simpa using hv), getElem_map, getElem_range]
    split
    next hlt =>
      simp only [mem_cons, not_mem_nil, or_false, exists_eq_or_imp, exists_eq_left]
      unfold layer
      omega
    next hge => simp [hge]
  · rw [getD_eq_default _ _ (by simpa using hv)]
    simp
    omega

lemma layered_atDist {j w : ℕ} : AtDist layered.DenseStep 0 j w ↔ w < 131 ∧ layer w = j := by
  induction j using Nat.strongRecOn generalizing w with
  | ind j ih =>
    cases j with
    | zero =>
      rw [atDist_zero, layer]
      omega
    | succ j =>
      rw [atDist_succ]
      constructor
      · rintro ⟨⟨b, hb, hstep⟩, -⟩
        obtain ⟨-, hw, hlayer⟩ := Iff.mp layered_step hstep
        exact ⟨hw, hlayer.trans (congrArg (· + 1) ((ih j j.lt_succ_self).mp hb).2)⟩
      · rintro ⟨hw, hlayer⟩
        have hlast : layer (2 * j) = j := by
          unfold layer
          omega
        have hj : 2 * j < 129 := by
          unfold layer at hlayer
          omega
        refine ⟨⟨2 * j, (ih j j.lt_succ_self).mpr ⟨by omega, hlast⟩,
          Iff.mpr layered_step ⟨hj, hw, by rw [hlayer, hlast]⟩⟩, fun i hi hdist => ?_⟩
        have := ((ih i (by omega)).mp hdist).2
        omega

lemma layered_pathCount {j w : ℕ} (hw : w < 131) (hlayer : layer w = j + 1) :
    (shortestWalks layered.DenseStep 0 w).Finite ∧ layered.pathCount 0 w = 2 ^ j := by
  induction j generalizing w with
  | zero =>
    have hdist := Iff.mpr layered_atDist ⟨hw, hlayer⟩
    have hpreds : ∀ b, b ∈ [0] ↔ AtDist layered.DenseStep 0 0 b ∧ layered.DenseStep b w := by
      intro b
      rw [atDist_zero, layered_step, mem_singleton]
      constructor
      · rintro rfl
        exact ⟨rfl, by decide, hw, hlayer⟩
      · exact fun h => h.1
    obtain ⟨hfin, hcount⟩ := ncard_shortestWalks hdist (nodup_singleton 0) hpreds
      fun b hb => by
        rw [mem_singleton.mp hb, shortestWalks_self]
        exact Set.finite_singleton _
    refine ⟨hfin, hcount.trans ?_⟩
    simp [shortestWalks_self]
  | succ j ih =>
    have hdist := Iff.mpr layered_atDist ⟨hw, hlayer⟩
    have hj : j < 64 := by
      unfold layer at hlayer
      omega
    have hlast : ∀ b, b ∈ [2 * j + 1, 2 * j + 2] ↔ layer b = j + 1 := by
      intro b
      rw [mem_cons, mem_singleton, layer]
      omega
    have hpreds : ∀ b, b ∈ [2 * j + 1, 2 * j + 2] ↔
        AtDist layered.DenseStep 0 (j + 1) b ∧ layered.DenseStep b w := by
      intro b
      rw [layered_atDist, layered_step, hlast]
      constructor
      · intro hb
        have hlt : b < 129 := by
          unfold layer at hb
          omega
        exact ⟨⟨by omega, hb⟩, hlt, hw, by rw [hlayer, hb]⟩
      · exact fun h => h.1.2
    have hcounts : ∀ b ∈ [2 * j + 1, 2 * j + 2],
        (shortestWalks layered.DenseStep 0 b).Finite ∧ layered.pathCount 0 b = 2 ^ j :=
      fun b hb => ih (Iff.mp layered_atDist ((hpreds b).mp hb).1).1 ((hlast b).mp hb)
    obtain ⟨hfin, hcount⟩ := ncard_shortestWalks hdist (by simp) hpreds fun b hb => (hcounts b hb).1
    refine ⟨hfin, hcount.trans ?_⟩
    have h₁ := (hcounts (2 * j + 1) (by simp)).2
    have h₂ := (hcounts (2 * j + 2) (by simp)).2
    rw [pathCount] at h₁ h₂
    rw [map_cons, map_cons, map_nil, h₁, h₂, sum_cons, sum_cons,
      sum_nil, Nat.pow_succ]
    omega

end Snapshot

/-- On the layered graph the count of the last node comes out as zero: it has `2 ^ 64` shortest
paths from the first node. -/
theorem Snapshot.layered_overflow : ∃ dag, layered.shortestPathDag 131 0 = some dag ∧
    dag.sigma.getD 130 0 = 0 ∧ layered.pathCount 0 130 = 2 ^ 64 ∧ ¬layered.CountsExact 0 dag := by
  have hn := layered_n
  obtain ⟨dag, hrun, -, hsigma⟩ := exists_shortestPathDag hn.le (show 0 < layered.n by omega)
  have hlayer : layer 130 = 64 + 1 := by decide
  have hcount := (layered_pathCount (by decide) hlayer).2
  have hzero : dag.sigma.getD 130 0 = 0 := by
    rw [hsigma, hcount, Nat.mod_self]
  refine ⟨dag, hrun, hzero, hcount, fun hexact => ?_⟩
  have heq := hexact 130 (by omega)
  rw [hzero, hcount] at heq
  exact absurd heq (by decide)

theorem Snapshot.layered_countsExact_iff : ∃ dag, layered.shortestPathDag 131 0 = some dag ∧
    (layered.CountsExact 0 dag ∧ layered.PredecessorsExact 0 dag ↔
      ∀ w < layered.n, layered.pathCount 0 w < 2 ^ 64) :=
  layered.countsExact_iff layered_n.le (by rw [layered_n]; decide)

end IssunDB
