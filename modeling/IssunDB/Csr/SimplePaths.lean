import IssunDB.Csr.Expand
import IssunDB.Csr.Levels
import IssunDB.Lib.DepthFirst
import IssunDB.Lib.Fallible

/-!
# Enumerating paths

`allPaths` and `longestPath` walk the simple paths between two nodes depth first over the rows of
the snapshot. `shortestPath` and `allShortestPaths` give each node its level and walk back from the
destination over the stored adjacency, to nodes one level closer.

* `count_walkSimplePaths`: a simple path is emitted once for every way to choose among the parallel
  edges along it;
* `pathQueriesExact_iff`: the four queries answer as documented just when no simple path between the
  two nodes runs along parallel edges.
-/

namespace IssunDB

open List Option

/-- A snapshot built from a database, and the database. Some kernels read both. -/
structure StoredSnapshot extends Snapshot where
  storage : Storage
  agrees : storage.AdjacencyAgrees
  weighted : Bool
  built : CsrArrays.build storage weighted = .ok toCsrArrays

namespace CsrArrays

variable (S : CsrArrays)

/-- The search of `walk_simple_paths`: along a path and the set of the nodes on it, over rows. -/
def simplePathSearch (dst : NodeId) :
    Enumeration ℕ (List NodeId × Finset NodeId) (List NodeId) where
  next u := (S.outRow u).map (·.col)
  skip trail v := S.denseToId.getD v 0 ∈ trail.2
  target v := S.denseToId.getD v 0 = dst
  enter trail v :=
    let neighbor := S.denseToId.getD v 0
    (trail.1 ++ [neighbor], insert neighbor trail.2)
  leave trail := (trail.1.dropLast, trail.1.getLast?.elim trail.2 trail.2.erase)
  emit trail v := trail.1 ++ [S.denseToId.getD v 0]

/-- Every simple path from `src` to `dst`, in the order of emission. -/
def walkSimplePaths (fuel : ℕ) (src dst : NodeId) : Option (List (List NodeId)) :=
  if src = dst then some [[src]]
  else
    match S.idToDense.get src with
    | none => some []
    | some srcDense => (S.simplePathSearch dst).run fuel ([src], {src})
        ((S.simplePathSearch dst).next srcDense)

/-- All simple paths between `src` and `dst`. -/
def allPaths (fuel : ℕ) (src dst : NodeId) : Option (List (List NodeId)) :=
  S.walkSimplePaths fuel src dst

def keepLonger (best : Option (List NodeId)) (path : List NodeId) : Option (List NodeId) :=
  if best.all (·.length < path.length) then some path else best

/-- Longest simple path between `src` and `dst`, the first of its length. -/
def longestPath (fuel : ℕ) (src dst : NodeId) : Option (Option (List NodeId)) :=
  (S.walkSimplePaths fuel src dst).map fun paths => paths.foldl keepLonger none

/-- The number of edges from one node to another. -/
def edgeCount (a b : NodeId) : ℕ :=
  S.edges.countP fun e => S.denseToId.getD e.src 0 = a ∧ S.denseToId.getD e.dst 0 = b

end CsrArrays

namespace StoredSnapshot

variable (S : StoredSnapshot)

/-- The dense index of the node that an incoming entry comes from, if it is on the level before
`level`. -/
def closer (levels : Levels) (level : ℕ) (ne : AdjEntry) : Option ℕ :=
  (S.idToDense.get ne.other).filter fun pred => levels.getD pred none = some (level - 1)

/-- The first stored predecessor of a node that is one level closer to the source. -/
def firstPred (levels : Levels) (cur : ℕ) : Option ℕ :=
  (levels.getD cur none).bind fun level =>
    (S.storage.adj.entries (S.denseToId.getD cur 0) false).findSome? (S.closer levels level)

/-- Walk back from `cur` to the source. The inner result is `none` when there is no predecessor. -/
def traceBack (levels : Levels) (src : ℕ) :
    (fuel cur : ℕ) → (path : List ℕ) → Option (Option (List ℕ))
  | 0, _, _ => none
  | fuel + 1, cur, path =>
    if cur = src then some (some path)
    else
      match S.firstPred levels cur with
      | none => some none
      | some pred => traceBack levels src fuel pred (path ++ [pred])

/-- Unweighted shortest path from `src` to `dst`, by hop count. -/
def shortestPath (fuel : ℕ) (src dst : NodeId) : Option (Option (List NodeId)) :=
  if src = dst then some (some [src])
  else
    match S.idToDense.get src, S.idToDense.get dst with
    | some srcDense, some dstDense =>
      (S.hopDistances fuel srcDense (some dstDense)).bind fun levels =>
        if levels.getD dstDense none = none then some none
        else
          (S.traceBack levels srcDense fuel dstDense [dstDense]).map fun path =>
            path.map fun path => path.reverse.map fun d => S.denseToId.getD d 0
    | _, _ => some none

/-- The distinct stored predecessors of a node that are one level closer to the source. -/
def admissible (levels : Levels) (node : NodeId) : List NodeId :=
  match (S.idToDense.get node).bind fun dense => levels.getD dense none with
  | none => []
  | some level => ((S.storage.adj.entries node false).filterMap fun ne =>
      (S.closer levels level ne).map fun _ => ne.other).eraseDups

/-- The walk back from the destination. The path runs destination first and is reversed when it is
emitted. -/
def shortestPathSearch (levels : Levels) (src : NodeId) :
    Enumeration NodeId (List NodeId) (List NodeId) where
  next := S.admissible levels
  skip _ _ := false
  target pred := pred = src
  enter trail pred := trail ++ [pred]
  leave := List.dropLast
  emit trail pred := (trail ++ [pred]).reverse

/-- Every unweighted shortest path between `src` and `dst`. -/
def allShortestPaths (fuel : ℕ) (src dst : NodeId) : Option (List (List NodeId)) :=
  if src = dst then some [[src]]
  else
    match S.idToDense.get src, S.idToDense.get dst with
    | some srcDense, some dstDense =>
      (S.hopDistances fuel srcDense (some dstDense)).bind fun levels =>
        if levels.getD dstDense none = none then some []
        else (S.shortestPathSearch levels src).run fuel [dst] (S.admissible levels dst)
    | _, _ => some []

end StoredSnapshot

/-! ## Simple paths -/

namespace Snapshot

variable {S : Snapshot}

/-- A row holds one entry for each edge to a node. -/
theorem count_outRow {u : ℕ} (hu : u < S.n) (b : NodeId) :
    (((S.outRow u).map (·.col)).map S.idOf).count b = S.edgeCount (S.idOf u) b := by
  have hrow := S.outRow_eq u
  rw [List.map_map, List.count, countP_map, CsrArrays.edgeCount]
  have hcount : (S.outRow u).countP ((fun x => x == b) ∘ S.idOf ∘ (·.col)) =
      ((S.outRow u).map fun e => (⟨u, e.col, e.edgeType, e.edgeId⟩ : DenseEdge)).countP
        fun e => S.idOf e.dst = b := by
    rw [countP_map]
    apply countP_congr
    intro e _
    simp
  rw [hcount, hrow, countP_filter]
  apply countP_congr
  intro e he
  have hsrc : S.denseToId.getD e.src 0 = S.idOf u ↔ e.src = u := S.idOf_inj (S.src_lt he) hu
  simp only [hsrc, Bool.and_eq_true, decide_eq_true_eq]
  exact and_comm

lemma edgeCount_pos_iff (a b : NodeId) : 0 < S.edgeCount a b ↔ S.OutStep a b := by
  rw [CsrArrays.edgeCount, countP_pos_iff, CsrArrays.OutStep]
  simp only [decide_eq_true_eq]
  refine exists_congr fun e => and_congr_right fun he => ?_
  rw [S.getElem?_denseToId (S.src_lt he), S.getElem?_denseToId (S.dst_lt he), some.injEq,
    some.injEq]
  rfl

variable {dst : NodeId} {trail : List NodeId × Finset NodeId} {vs : List ℕ}
  {out : List (List NodeId)}

lemma simplePathSearch_leave {v : ℕ} (hv : S.idOf v ∉ trail.2) :
    (S.simplePathSearch dst).leave ((S.simplePathSearch dst).enter trail v) = trail := by
  obtain ⟨path, visited⟩ := trail
  refine Prod.ext dropLast_concat ?_
  show (path ++ [S.idOf v]).getLast?.elim _ _ = visited
  rw [getLast?_concat]
  exact Finset.erase_insert hv

lemma next_lt {u v : ℕ} (h : v ∈ (S.simplePathSearch dst).next u) : v < S.n := by
  obtain ⟨e, he, rfl⟩ := List.mem_map.mp h
  exact (S.exists_mem_outRow.mp ⟨e, he, rfl⟩).lt.2

variable (dst) in
/-- The search ends: each entry leaves fewer nodes to visit. -/
theorem exists_enumerates (trail : List NodeId × Finset NodeId) (hvs : ∀ v ∈ vs, v < S.n) :
    ∃ out, (S.simplePathSearch dst).Enumerates trail vs out := by
  induction hm : (S.denseToId.toFinset \ trail.2).card using Nat.strong_induction_on
    generalizing trail vs with
  | _ m ih =>
    induction vs with
    | nil => exact ⟨[], .nil trail⟩
    | cons v vs ihRest =>
      obtain ⟨out, hout⟩ := ihRest fun w hw => hvs w (mem_cons_of_mem _ hw)
      by_cases hskip : S.idOf v ∈ trail.2
      · exact ⟨out, .skip (decide_eq_true hskip) hout⟩
      by_cases htarget : S.idOf v = dst
      · exact ⟨_, .target (decide_eq_false hskip) (decide_eq_true htarget) hout⟩
      have hmem : S.idOf v ∈ S.denseToId.toFinset \ trail.2 :=
        Finset.mem_sdiff.mpr ⟨List.mem_toFinset.mpr (S.idOf_mem (hvs v mem_cons_self)), hskip⟩
      have hless : (S.denseToId.toFinset \ insert (S.idOf v) trail.2).card < m := by
        rw [← hm, Finset.sdiff_insert, Finset.card_erase_of_mem hmem]
        exact Nat.sub_lt (Finset.card_pos.mpr ⟨_, hmem⟩) Nat.one_pos
      obtain ⟨inner, hinner⟩ := ih _ hless ((S.simplePathSearch dst).enter trail v)
        (fun w hw => next_lt hw) rfl
      exact ⟨_, .enter (decide_eq_false hskip) (decide_eq_false htarget)
        (simplePathSearch_leave hskip) hinner hout⟩

variable (S dst) in
/-- The results go on from `path` to a node of `vs`, and a path is among them once for every way to
choose among the parallel edges along it, if it is simple and ends at the destination. -/
structure Emitted (path : List NodeId) (vs : List ℕ) (out : List (List NodeId)) : Prop where
  extends_path : ∀ p ∈ out, ∃ a q, p = path ++ a :: q
  count : ∀ a q, out.count (path ++ a :: q) =
    if (path ++ a :: q).Nodup ∧ (a :: q).getLast? = some dst then
      (vs.map S.idOf).count a * stepChoices S.edgeCount (a :: q)
    else 0

namespace Emitted

variable {path : List NodeId} {v : ℕ}

lemma nil (path : List NodeId) : S.Emitted dst path [] [] where
  extends_path p hp := absurd hp not_mem_nil
  count a q := by simp

lemma skip (h : S.Emitted dst path vs out) (hv : S.idOf v ∈ path) :
    S.Emitted dst path (v :: vs) out where
  extends_path := h.extends_path
  count a q := by
    rw [h.count]
    by_cases ha : S.idOf v = a
    · have hnot : ¬(path ++ a :: q).Nodup := fun hn =>
        (nodup_append.mp hn).2.2 a (ha ▸ hv) a mem_cons_self rfl
      rw [if_neg fun h => hnot h.1, if_neg fun h => hnot h.1]
    · rw [map_cons, count_cons_of_ne ha]

lemma target (h : S.Emitted dst path vs out) (hv : S.idOf v = dst) (hpath : (path ++ [dst]).Nodup) :
    S.Emitted dst path (v :: vs) ((path ++ [dst]) :: out) where
  extends_path := by
    rintro p (_ | ⟨_, hp⟩)
    · exact ⟨dst, [], rfl⟩
    · exact h.extends_path p hp
  count a q := by
    rw [map_cons, hv]
    by_cases ha : dst = a
    · subst ha
      by_cases hq : q = []
      · subst hq
        have hends : (path ++ [dst]).Nodup ∧ [dst].getLast? = some dst := ⟨hpath, rfl⟩
        rw [count_cons_self, h.count, if_pos hends, if_pos hends, count_cons_self]
        have hone : stepChoices S.edgeCount [dst] = 1 := rfl
        rw [hone]
        omega
      · have hnot : ¬((path ++ dst :: q).Nodup ∧ (dst :: q).getLast? = some dst) := by
          rintro ⟨hn, hlast⟩
          rw [getLast?_cons_of_ne_nil hq] at hlast
          exact (nodup_cons.mp (nodup_append.mp hn).2.1).1 (mem_of_getLast? hlast)
        have hne : path ++ [dst] ≠ path ++ dst :: q := fun heq =>
          hq (List.cons.inj (append_cancel_left heq)).2.symm
        rw [count_cons_of_ne hne, h.count, if_neg hnot, if_neg hnot]
    · have hne : path ++ [dst] ≠ path ++ a :: q := fun heq =>
        ha (List.cons.inj (append_cancel_left heq)).1
      rw [count_cons_of_ne hne, h.count, count_cons_of_ne ha]

/-- The results inside a child are those of the paths through it. -/
theorem enter {row : List ℕ} {inner : List (List NodeId)} (h : S.Emitted dst path vs out)
    (hv : S.idOf v ≠ dst) (hrow : ∀ b, (row.map S.idOf).count b = S.edgeCount (S.idOf v) b)
    (hinner : S.Emitted dst (path ++ [S.idOf v]) row inner) :
    S.Emitted dst path (v :: vs) (inner ++ out) where
  extends_path p hp := by
    rcases mem_append.mp hp with hp | hp
    · obtain ⟨b, q, rfl⟩ := hinner.extends_path p hp
      exact ⟨S.idOf v, b :: q, by rw [append_assoc, singleton_append]⟩
    · exact h.extends_path p hp
  count a q := by
    rw [count_append, h.count, map_cons]
    by_cases ha : S.idOf v = a
    · subst ha
      cases q with
      | nil =>
        have hzero : inner.count (path ++ [S.idOf v]) = 0 := by
          rw [count_eq_zero]
          intro hp
          obtain ⟨b, q, heq⟩ := hinner.extends_path _ hp
          exact absurd (self_eq_append_right.mp heq) (cons_ne_nil b q)
        have hnot : [S.idOf v].getLast? ≠ some dst := fun h => hv (some.inj h)
        rw [hzero, if_neg fun h => hnot h.2, if_neg fun h => hnot h.2]
      | cons b q =>
        have hsplit : path ++ S.idOf v :: b :: q = (path ++ [S.idOf v]) ++ b :: q := by
          rw [append_assoc, singleton_append]
        rw [hsplit, hinner.count, ← hsplit, getLast?_cons_cons, count_cons_self,
          stepChoices, hrow]
        split
        · ring
        · rfl
    · have hzero : inner.count (path ++ a :: q) = 0 := by
        rw [count_eq_zero]
        intro hp
        obtain ⟨b, q', heq⟩ := hinner.extends_path _ hp
        rw [append_assoc, append_cancel_left_eq, singleton_append] at heq
        exact ha (List.cons.inj heq).1.symm
      rw [hzero, Nat.zero_add, count_cons_of_ne ha]

end Emitted

/-- What the search under a trail emits, by induction on the recursion. -/
theorem emitted_of_enumerates (h : (S.simplePathSearch dst).Enumerates trail vs out)
    (hvs : ∀ v ∈ vs, v < S.n) (hnodup : trail.1.Nodup) (hvisited : trail.2 = trail.1.toFinset)
    (hdst : dst ∉ trail.1) : S.Emitted dst trail.1 vs out := by
  have hconcat : ∀ {path : List NodeId} {a : NodeId}, path.Nodup → a ∉ path →
      (path ++ [a]).Nodup := by
    intro path a hpath ha
    rw [nodup_append_comm]
    exact nodup_cons.mpr ⟨ha, hpath⟩
  induction h with
  | nil trail => exact .nil trail.1
  | @skip trail v vs out hskip _ ih =>
    have hrest := ih (fun w hw => hvs w (mem_cons_of_mem _ hw)) hnodup hvisited hdst
    have hmem : S.idOf v ∈ trail.2 := of_decide_eq_true hskip
    rw [hvisited, List.mem_toFinset] at hmem
    exact hrest.skip hmem
  | @target trail v vs out _ htarget _ ih =>
    have hrest := ih (fun w hw => hvs w (mem_cons_of_mem _ hw)) hnodup hvisited hdst
    have hv : S.idOf v = dst := of_decide_eq_true htarget
    have hemit : (S.simplePathSearch dst).emit trail v = trail.1 ++ [dst] :=
      congrArg (fun a => trail.1 ++ [a]) hv
    rw [hemit]
    exact hrest.target hv (hconcat hnodup hdst)
  | @enter trail v vs inner out hskip htarget _ _ _ ihInner ih =>
    have hrest := ih (fun w hw => hvs w (mem_cons_of_mem _ hw)) hnodup hvisited hdst
    have hv : S.idOf v ≠ dst := of_decide_eq_false htarget
    have hfresh : S.idOf v ∉ trail.2 := of_decide_eq_false hskip
    rw [hvisited, List.mem_toFinset] at hfresh
    have hinner := ihInner (fun w hw => next_lt hw) (hconcat hnodup hfresh)
      (by
        show insert (S.idOf v) trail.2 = (trail.1 ++ [S.idOf v]).toFinset
        rw [hvisited, toFinset_append, toFinset_cons, toFinset_nil,
          Finset.insert_empty, Finset.union_comm]
        rfl)
      (by
        show dst ∉ trail.1 ++ [S.idOf v]
        rw [mem_append, mem_singleton]
        exact fun h => h.elim hdst fun h => hv h.symm)
    exact hrest.enter hv (count_outRow (hvs v mem_cons_self)) hinner

/-- A node without a record has no path to another node. -/
theorem mem_of_simplePath {src : NodeId} {p : List NodeId} (hne : src ≠ dst)
    (hp : p ∈ simplePaths S.OutStep src dst) :
    src ∈ S.denseToId ∧ ∃ a q, p = src :: a :: q := by
  obtain ⟨⟨hhead, hlast, hchain⟩, -⟩ := hp
  match p, hhead with
  | [_], rfl => exact absurd (some.inj hlast) hne
  | _ :: a :: q, rfl =>
    obtain ⟨e, -, hsrc, -⟩ := (isChain_cons_cons.mp hchain).1
    exact ⟨mem_of_getElem? hsrc, a, q, rfl⟩

lemma simplePaths_self (src : NodeId) : simplePaths S.OutStep src src = {[src]} := by
  ext p
  rw [Set.mem_singleton_iff]
  constructor
  · rintro ⟨⟨hhead, hlast, -⟩, hnodup⟩
    match p, hhead with
    | [_], rfl => rfl
    | _ :: a :: q, rfl =>
      rw [getLast?_cons_cons] at hlast
      exact absurd (mem_of_getLast? hlast) (nodup_cons.mp hnodup).1
  · rintro rfl
    exact ⟨.refl src, nodup_singleton src⟩

/-- More fuel does not change the enumeration. -/
theorem walkSimplePaths_mono {src : NodeId} {paths : List (List NodeId)} {fuel fuel' : ℕ}
    (h : S.walkSimplePaths fuel src dst = some paths) (hle : fuel ≤ fuel') :
    S.walkSimplePaths fuel' src dst = some paths := by
  rw [CsrArrays.walkSimplePaths] at h ⊢
  split at h
  next heq =>
    rw [if_pos heq]
    exact h
  next hne =>
    rw [if_neg hne]
    revert h
    cases S.idToDense.get src with
    | none => exact id
    | some s => exact fun h => Enumeration.run_mono h hle

variable (S) in
/-- The enumeration ends. It emits simple paths only, and each once for every way to choose among
the parallel edges along it. -/
theorem count_walkSimplePaths (src dst : NodeId) :
    ∃ paths, Returns (fun fuel => S.walkSimplePaths fuel src dst) paths ∧
      (∀ p ∈ paths, p ∈ simplePaths S.OutStep src dst) ∧
      ∀ p ∈ simplePaths S.OutStep src dst, paths.count p = stepChoices S.edgeCount p := by
  by_cases hne : src = dst
  · subst hne
    refine ⟨[[src]], ⟨0, fun fuel _ => if_pos rfl⟩, ?_, ?_⟩
    · intro p hp
      rwa [simplePaths_self, Set.mem_singleton_iff, ← mem_singleton]
    · intro p hp
      rw [simplePaths_self, Set.mem_singleton_iff] at hp
      rw [hp, count_singleton_self]
      rfl
  cases hget : S.idToDense.get src with
  | none =>
    have hunknown : simplePaths S.OutStep src dst = ∅ := by
      apply Set.eq_empty_of_forall_notMem
      intro p hp
      obtain ⟨s, hs, hid⟩ := S.exists_idOf (mem_of_simplePath hne hp).1
      rw [(S.idOf_eq_iff hs).mp hid] at hget
      cases hget
    refine ⟨[], ⟨0, fun fuel _ => ?_⟩, fun p hp => absurd hp not_mem_nil, ?_⟩
    · show S.walkSimplePaths fuel src dst = some []
      rw [CsrArrays.walkSimplePaths, if_neg hne, hget]
    · rw [hunknown]
      exact fun p hp => hp.elim
  | some s =>
    have hs : s < S.n := (List.getElem?_eq_some_iff.mp (S.get_idToDense.mp hget)).1
    have hid : S.idOf s = src := (S.idOf_eq_iff hs).mpr hget
    obtain ⟨out, hout⟩ := exists_enumerates dst ([src], {src})
      fun v (hv : v ∈ (S.simplePathSearch dst).next s) => next_lt hv
    have hemitted : S.Emitted dst [src] _ out := emitted_of_enumerates hout
      (fun v hv => next_lt hv) (nodup_singleton src) rfl
      (by simpa using Ne.symm hne)
    have hcount : ∀ a q, out.count (src :: a :: q) =
        if (src :: a :: q).Nodup ∧ (a :: q).getLast? = some dst then
          stepChoices S.edgeCount (src :: a :: q) else 0 := by
      intro a q
      have h := hemitted.count a q
      have hrow : (((S.simplePathSearch dst).next s).map S.idOf).count a = S.edgeCount src a :=
        hid ▸ count_outRow hs a
      rw [hrow] at h
      exact h
    refine ⟨out, ?_, fun p hp => ?_, fun p hp => ?_⟩
    · obtain ⟨fuel₀, hrun⟩ := hout.returns
      refine ⟨fuel₀, fun fuel hfuel => ?_⟩
      show S.walkSimplePaths fuel src dst = some out
      rw [CsrArrays.walkSimplePaths, if_neg hne, hget]
      exact hrun fuel hfuel
    · obtain ⟨a, q, rfl⟩ := hemitted.extends_path p hp
      have hpos : 0 < out.count (src :: a :: q) := count_pos_iff.mpr hp
      rw [hcount] at hpos
      split at hpos
      next hends =>
        refine ⟨⟨rfl, ?_, ?_⟩, hends.1⟩
        · rw [singleton_append, getLast?_cons_cons]
          exact hends.2
        · exact (stepChoices_pos_iff edgeCount_pos_iff).mp hpos
      next => cases hpos
    · obtain ⟨-, a, q, rfl⟩ := mem_of_simplePath hne hp
      rw [hcount, if_pos]
      refine ⟨hp.2, ?_⟩
      rw [← hp.1.last, getLast?_cons_cons]

/-! ## The longest path -/

lemma foldl_keepLonger (paths : List (List NodeId)) (best : Option (List NodeId)) :
    match paths.foldl CsrArrays.keepLonger best with
    | none => best = none ∧ paths = []
    | some p => (p ∈ paths ∨ best = some p) ∧ (∀ q ∈ paths, q.length ≤ p.length) ∧
        ∀ q, best = some q → q.length ≤ p.length := by
  induction paths generalizing best with
  | nil =>
    cases best with
    | none => exact ⟨rfl, rfl⟩
    | some p => exact ⟨Or.inr rfl, by simp, fun q hq => (some.inj hq ▸ le_rfl)⟩
  | cons path paths ih =>
    have hrest := ih (CsrArrays.keepLonger best path)
    rw [foldl_cons]
    revert hrest
    cases paths.foldl CsrArrays.keepLonger (CsrArrays.keepLonger best path) with
    | none =>
      rintro ⟨hnone, -⟩
      rw [CsrArrays.keepLonger] at hnone
      split at hnone
      · cases hnone
      next hshort =>
        subst hnone
        exact absurd rfl hshort
    | some p =>
      rintro ⟨hmem, hpaths, hbest⟩
      rw [CsrArrays.keepLonger] at hmem hbest
      split at hmem
      next hlonger =>
        rw [if_pos hlonger] at hbest
        have hpath := hbest path rfl
        refine ⟨?_, ?_, ?_⟩
        · rcases hmem with hmem | hmem
          · exact Or.inl (mem_cons_of_mem _ hmem)
          · exact Or.inl (some.inj hmem ▸ mem_cons_self)
        · rintro q (_ | ⟨_, hq⟩)
          · exact hpath
          · exact hpaths q hq
        · rintro q rfl
          have hlt : q.length < path.length := of_decide_eq_true hlonger
          omega
      next hshort =>
        rw [if_neg hshort] at hbest
        refine ⟨hmem.imp_left (mem_cons_of_mem _), ?_, hbest⟩
        rintro q (_ | ⟨_, hq⟩)
        · cases best with
          | none => exact absurd rfl hshort
          | some b =>
            have hle : ¬b.length < path.length := fun h => hshort (decide_eq_true h)
            have := hbest b rfl
            omega
        · exact hpaths q hq

end Snapshot

/-! ## Walking back -/

namespace StoredSnapshot

variable {S : StoredSnapshot}

lemma closer_eq_some {levels : Levels} {level : ℕ} {ne : AdjEntry} {u : ℕ} :
    S.closer levels level ne = some u ↔
      S.idToDense.get ne.other = some u ∧ levels.getD u none = some (level - 1) := by
  rw [closer, filter_eq_some_iff, decide_eq_true_eq]

/-- The stored predecessors of a node are its predecessors in the snapshot. -/
theorem exists_mem_entries {u v : ℕ} (hv : v < S.n) :
    (∃ ne ∈ S.storage.adj.entries (S.idOf v) false, S.idToDense.get ne.other = some u) ↔
      S.DenseStep u v := by
  have hids : S.denseToId = S.storage.nodeIds := denseToId_of_build S.agrees S.built
  constructor
  · rintro ⟨ne, hne, hget⟩
    obtain ⟨r, hr, hentry⟩ := (mem_entries_iff S.agrees).mp hne
    have hdst : r.dst = S.idOf v := congrArg Prod.fst hentry
    have hother : r.src = ne.other := congrArg (·.2.other) hentry
    refine ⟨⟨u, v, r.edgeType, ne.edgeId⟩, ?_, rfl, rfl⟩
    apply (mem_edges_build S.agrees S.built).mpr
    refine ⟨r, hr, rfl, ?_, ?_⟩
    · rw [← hids, hother]
      exact S.get_idToDense.mp hget
    · rw [← hids, hdst]
      exact S.getElem?_denseToId hv
  · rintro ⟨e, he, rfl, rfl⟩
    obtain ⟨r, hr, -, hsrc, hdst⟩ := (mem_edges_build S.agrees S.built).mp he
    rw [← hids] at hsrc hdst
    have hdst' : r.dst = S.idOf e.dst := some.inj (hdst.symm.trans (S.getElem?_denseToId hv))
    refine ⟨⟨r.edgeType, r.src, e.edgeId⟩, (mem_entries_iff S.agrees).mpr ⟨r, hr, ?_⟩,
      S.get_idToDense.mpr hsrc⟩
    rw [← hdst']
    rfl

/-- The levels of a search from `s` up to `m`. -/
def Leveled (S : StoredSnapshot) (s m : ℕ) (levels : Levels) : Prop :=
  ∀ d j, levels.getD d none = some j ↔ j ≤ m ∧ AtDist S.DenseStep s j d

section

variable {s m : ℕ} {levels : Levels} (h : S.Leveled s m levels)

include h

variable {j v : ℕ}

lemma exists_firstPred (hj : j + 1 ≤ m) (hv : AtDist S.DenseStep s (j + 1) v) :
    ∃ u, S.firstPred levels v = some u ∧ AtDist S.DenseStep s j u ∧ S.DenseStep u v := by
  obtain ⟨u, hu, huv⟩ := (atDist_succ.mp hv).1
  have hlt : v < S.n := huv.lt.2
  have hlevel : levels.getD v none = some (j + 1) := (h v (j + 1)).mpr ⟨hj, hv⟩
  obtain ⟨ne, hne, hget⟩ := (exists_mem_entries hlt).mpr huv
  have hcloser : S.closer levels (j + 1) ne = some u :=
    closer_eq_some.mpr ⟨hget, (h u j).mpr ⟨by omega, hu⟩⟩
  have hfound : ((S.storage.adj.entries (S.idOf v) false).findSome?
      (S.closer levels (j + 1))).isSome := by
    rw [findSome?_isSome_iff]
    exact ⟨ne, hne, by rw [hcloser]; rfl⟩
  obtain ⟨w, hw⟩ := isSome_iff_exists.mp hfound
  refine ⟨w, ?_, ?_⟩
  · rw [firstPred, hlevel]
    exact hw
  · obtain ⟨ne', hne', hcloser'⟩ := exists_of_findSome?_eq_some hw
    obtain ⟨hget', hlevel'⟩ := closer_eq_some.mp hcloser'
    exact ⟨((h w j).mp hlevel').2, (exists_mem_entries hlt).mp ⟨ne', hne', hget'⟩⟩

/-- The walk back takes a shortest walk to its node, and needs one step for each level. -/
theorem exists_traceBack (hj : j ≤ m) (hv : AtDist S.DenseStep s j v) (path : List ℕ) :
    ∃ q ∈ shortestWalks S.DenseStep s v, ∀ fuel, j < fuel →
      S.traceBack levels s fuel v (path ++ [v]) = some (some (path ++ q.reverse)) := by
  induction j generalizing v path with
  | zero =>
    obtain rfl := atDist_zero.mp hv
    rw [shortestWalks_self]
    refine ⟨[v], rfl, fun fuel hfuel => ?_⟩
    obtain ⟨fuel, rfl⟩ := Nat.exists_eq_add_of_lt hfuel
    rw [Nat.zero_add, traceBack, if_pos rfl]
    rfl
  | succ j ih =>
    have hne : v ≠ s := by
      rintro rfl
      have := hv.unique (atDist_zero.mpr rfl)
      omega
    obtain ⟨u, hpred, hu, huv⟩ := exists_firstPred h hj hv
    obtain ⟨q, hq, hrun⟩ := ih (by omega) hu (path ++ [v])
    refine ⟨q ++ [v], (mem_shortestWalks_succ hv).mpr ⟨u, ⟨hu, huv⟩, q, hq, rfl⟩,
      fun fuel hfuel => ?_⟩
    obtain ⟨fuel, rfl⟩ : ∃ k, fuel = k + 1 := ⟨fuel - 1, by omega⟩
    rw [traceBack, if_neg hne, hpred]
    dsimp only
    rw [hrun fuel (by omega), append_assoc, reverse_append]
    rfl

omit h in
lemma map_mem_shortestWalks {d : ℕ} (hs : s < S.n) (hd : d < S.n) {q : List ℕ}
    (hq : q ∈ shortestWalks S.DenseStep s d) :
    q.map S.idOf ∈ shortestWalks S.OutStep (S.idOf s) (S.idOf d) := by
  refine ⟨(Snapshot.isWalk_outStep hs).mpr ⟨d, q, hd, rfl, hq.1, rfl⟩, ?_⟩
  intro p hp
  obtain ⟨d', r, hd', heq, hr, rfl⟩ := (Snapshot.isWalk_outStep hs).mp hp
  obtain rfl := (S.idOf_inj hd' hd).mp heq
  rw [length_map, length_map]
  exact hq.2 r hr

/-- The admissible predecessors of a node are distinct, and are those one level closer. -/
theorem admissible_spec (hs : s < S.n) (hj : j + 1 ≤ m) (hv : AtDist S.DenseStep s (j + 1) v) :
    (S.admissible levels (S.idOf v)).Nodup ∧ ∀ a, a ∈ S.admissible levels (S.idOf v) ↔
      AtDist S.OutStep (S.idOf s) j a ∧ S.OutStep a (S.idOf v) := by
  have hlt : v < S.n := by
    obtain ⟨u, -, huv⟩ := (atDist_succ.mp hv).1
    exact huv.lt.2
  have hlevel : levels.getD v none = some (j + 1) := (h v (j + 1)).mpr ⟨hj, hv⟩
  have hlist : S.admissible levels (S.idOf v) =
      ((S.storage.adj.entries (S.idOf v) false).filterMap fun ne =>
        (S.closer levels (j + 1) ne).map fun _ => ne.other).eraseDups := by
    rw [admissible, S.get_idToDense_idOf hlt, bind_some, hlevel]
  rw [hlist]
  refine ⟨List.nodup_eraseDups _, fun a => ?_⟩
  rw [mem_eraseDups, mem_filterMap]
  constructor
  · rintro ⟨ne, hne, hmap⟩
    obtain ⟨u, hcloser, rfl⟩ := map_eq_some_iff.mp hmap
    obtain ⟨hget, hu⟩ := closer_eq_some.mp hcloser
    have huv := (exists_mem_entries hlt).mp ⟨ne, hne, hget⟩
    have hid : S.idOf u = ne.other := (S.idOf_eq_iff huv.lt.1).mpr hget
    rw [← hid]
    exact ⟨(Snapshot.atDist_outStep hs huv.lt.1).mpr ((h u j).mp hu).2,
      S.outStep_iff.mpr ⟨u, v, huv, rfl, rfl⟩⟩
  · rintro ⟨ha, hstep⟩
    obtain ⟨u, v', huv, rfl, hv'⟩ := S.outStep_iff.mp hstep
    obtain rfl := (S.idOf_inj huv.lt.2 hlt).mp hv'
    obtain ⟨ne, hne, hget⟩ := (exists_mem_entries hlt).mpr huv
    have hu := (Snapshot.atDist_outStep hs huv.lt.1).mp ha
    refine ⟨ne, hne, ?_⟩
    rw [closer_eq_some.mpr ⟨hget, (h u j).mpr ⟨by omega, hu⟩⟩, map_some,
      (S.idOf_eq_iff huv.lt.1).mpr hget]

/-- The walk back emits each shortest walk to the given nodes once, with the path behind it. -/
theorem exists_enumerates_back (hs : s < S.n) {j : ℕ} (hj : j ≤ m) {vs : List NodeId}
    (hnodup : vs.Nodup) (hvs : ∀ a ∈ vs, AtDist S.OutStep (S.idOf s) j a) (trail : List NodeId) :
    ∃ out, (S.shortestPathSearch levels (S.idOf s)).Enumerates trail vs out ∧ out.Nodup ∧
      ∀ p, p ∈ out ↔ ∃ a ∈ vs, ∃ q ∈ shortestWalks S.OutStep (S.idOf s) a,
        p = q ++ trail.reverse := by
  induction j generalizing vs trail with
  | zero =>
    -- All nodes on the first level are the source.
    have hall : ∀ a ∈ vs, a = S.idOf s := fun a ha => atDist_zero.mp (hvs a ha)
    have hemit : (S.shortestPathSearch levels (S.idOf s)).emit trail (S.idOf s) =
        S.idOf s :: trail.reverse := by
      show (trail ++ [S.idOf s]).reverse = _
      rw [reverse_append]
      rfl
    match vs, hnodup, hall with
    | [], _, _ => exact ⟨[], .nil trail, nodup_nil, by simp⟩
    | [a], _, hall =>
      obtain rfl := hall a mem_cons_self
      refine ⟨_, .target rfl (decide_eq_true rfl) (.nil trail), nodup_singleton _, ?_⟩
      intro p
      rw [hemit, mem_singleton]
      simp only [mem_singleton, exists_eq_left, shortestWalks_self, Set.mem_singleton_iff]
      rfl
    | a :: b :: vs, hnodup, hall =>
      have hab : a = b := (hall a mem_cons_self).trans
        (hall b (mem_cons_of_mem _ mem_cons_self)).symm
      exact absurd (hab ▸ mem_cons_self) (nodup_cons.mp hnodup).1
  | succ j ih =>
    induction vs with
    | nil => exact ⟨[], .nil trail, nodup_nil, by simp⟩
    | cons a vs ihRest =>
      obtain ⟨ha, hnodup⟩ := nodup_cons.mp hnodup
      obtain ⟨out, hout, houtNodup, hmem⟩ :=
        ihRest hnodup fun b hb => hvs b (mem_cons_of_mem _ hb)
      have hdist := hvs a mem_cons_self
      obtain ⟨⟨b, -, hstep⟩, -⟩ := atDist_succ.mp hdist
      obtain ⟨u, v, huv, -, rfl⟩ := S.outStep_iff.mp hstep
      have hne : S.idOf v ≠ S.idOf s := by
        intro heq
        rw [heq] at hdist
        have := hdist.unique (atDist_zero.mpr rfl)
        omega
      obtain ⟨hpredNodup, hpreds⟩ := admissible_spec h hs hj
        ((Snapshot.atDist_outStep hs huv.lt.2).mp hdist)
      obtain ⟨inner, hinner, hinnerNodup, hmemInner⟩ := ih (by omega) hpredNodup
        (fun b hb => ((hpreds b).mp hb).1) (trail ++ [S.idOf v])
      have hthrough : ∀ p, p ∈ inner ↔ ∃ q ∈ shortestWalks S.OutStep (S.idOf s) (S.idOf v),
          p = q ++ trail.reverse := by
        intro p
        rw [hmemInner]
        simp only [hpreds, mem_shortestWalks_succ hdist]
        constructor
        · rintro ⟨b, hb, q, hq, rfl⟩
          refine ⟨_, ⟨b, hb, q, hq, rfl⟩, ?_⟩
          rw [reverse_append, append_assoc]
          rfl
        · rintro ⟨_, ⟨b, hb, q, hq, rfl⟩, rfl⟩
          refine ⟨b, hb, q, hq, ?_⟩
          rw [reverse_append, append_assoc]
          rfl
      refine ⟨inner ++ out, .enter rfl (decide_eq_false hne) dropLast_concat hinner hout, ?_, ?_⟩
      · rw [nodup_append]
        refine ⟨hinnerNodup, houtNodup, ?_⟩
        rintro p hp _ hp' rfl
        obtain ⟨q, hq, rfl⟩ := (hthrough p).mp hp
        obtain ⟨b, hb, q', hq', heq⟩ := (hmem _).mp hp'
        obtain rfl := append_cancel_right heq
        have hlast := some.inj (hq.1.last.symm.trans hq'.1.last)
        exact ha (hlast ▸ hb)
      · intro p
        rw [mem_append, hthrough, hmem]
        simp only [mem_cons, exists_eq_or_imp]

end

/-! ## Shortest paths -/

/-- What a query between two nodes is asked to find: a list of the members of a set, each once. -/
def ListsOnce (paths : List (List NodeId)) (wanted : Set (List NodeId)) : Prop :=
  paths.Nodup ∧ ∀ p, p ∈ paths ↔ p ∈ wanted

/-- A member of a set, or nothing when it has none. -/
def PicksOne (path : Option (List NodeId)) (wanted : Set (List NodeId)) : Prop :=
  (∀ p, path = some p → p ∈ wanted) ∧ (path = none → wanted = ∅)

variable (S) in
/-- Both ends are known and joined, and then both searches start from the levels of the source;
or no shortest path is found. -/
theorem shortest_cases {src dst : NodeId} (hne : src ≠ dst) :
    (shortestWalks S.OutStep src dst = ∅ ∧
      Returns (fun fuel => S.shortestPath fuel src dst) none ∧
      Returns (fun fuel => S.allShortestPaths fuel src dst) []) ∨
    ∃ s d m k levels, s < S.n ∧ d < S.n ∧ S.idOf s = src ∧ S.idOf d = dst ∧
      S.Leveled s m levels ∧ k ≤ m ∧ AtDist S.DenseStep s k d ∧
      (∀ fuel, S.n ≤ fuel → S.shortestPath fuel src dst =
        (S.traceBack levels s fuel d [d]).map fun path =>
          path.map fun path => path.reverse.map S.idOf) ∧
      ∀ fuel, S.n ≤ fuel → S.allShortestPaths fuel src dst =
        (S.shortestPathSearch levels src).run fuel [dst] (S.admissible levels dst) := by
  have hends : ∀ p ∈ shortestWalks S.OutStep src dst, src ∈ S.denseToId ∧ dst ∈ S.denseToId := by
    intro p hp
    obtain ⟨hsrc, -⟩ := Snapshot.mem_of_simplePath hne (mem_shortestWalks_iff_simple.mp hp).1
    obtain ⟨s, hs, rfl⟩ := S.exists_idOf hsrc
    obtain ⟨d, -, hd, rfl, -⟩ := (Snapshot.isWalk_outStep hs).mp hp.1
    exact ⟨hsrc, S.idOf_mem hd⟩
  have hunknown : ∀ {id : NodeId}, S.idToDense.get id = none → id ∉ S.denseToId := by
    intro id hget hmem
    obtain ⟨d, hd, hid⟩ := S.exists_idOf hmem
    rw [(S.idOf_eq_iff hd).mp hid] at hget
    cases hget
  have hknown : ∀ {id : NodeId} {d : ℕ}, S.idToDense.get id = some d → d < S.n :=
    fun hget => (List.getElem?_eq_some_iff.mp (S.get_idToDense.mp hget)).1
  simp only [shortestPath, allShortestPaths, if_neg hne]
  cases hs : S.idToDense.get src with
  | none =>
    refine Or.inl ⟨Set.eq_empty_of_forall_notMem fun p hp => ?_, .const none, .const []⟩
    exact hunknown hs (hends p hp).1
  | some s =>
    cases hd : S.idToDense.get dst with
    | none =>
      refine Or.inl ⟨Set.eq_empty_of_forall_notMem fun p hp => ?_, .const none, .const []⟩
      exact hunknown hd (hends p hp).2
    | some d =>
      have hslt := hknown hs
      have hdlt := hknown hd
      obtain rfl := (S.idOf_eq_iff hslt).mpr hs
      obtain rfl := (S.idOf_eq_iff hdlt).mpr hd
      obtain ⟨m, levels, hrun, hlevels, hbound⟩ := Snapshot.exists_hopDistances hslt d
      cases hlevel : levels.getD d none with
      | none =>
        -- An unreached destination has no level at all.
        refine Or.inl ⟨?_, ⟨S.n, fun fuel hfuel => ?_⟩, ⟨S.n, fun fuel hfuel => ?_⟩⟩
        · apply shortestWalks_eq_empty
          intro k hk
          have hdist := (Snapshot.atDist_outStep hslt hdlt).mp hk
          rw [(hlevels d k).mpr ⟨hbound k hdist, hdist⟩] at hlevel
          cases hlevel
        · dsimp only
          rw [hrun fuel hfuel, bind_some, if_pos hlevel]
        · dsimp only
          rw [hrun fuel hfuel, bind_some, if_pos hlevel]
      | some k =>
        obtain ⟨hk, hdist⟩ := (hlevels d k).mp hlevel
        have hreached : levels.getD d none ≠ none := by
          rw [hlevel]
          exact some_ne_none k
        refine Or.inr ⟨s, d, m, k, levels, hslt, hdlt, rfl, rfl, hlevels, hk, hdist,
          fun fuel hfuel => ?_, fun fuel hfuel => ?_⟩
        · dsimp only
          rw [hrun fuel hfuel, bind_some, if_neg hreached]
          rfl
        · dsimp only
          rw [hrun fuel hfuel, bind_some, if_neg hreached]

variable (S) in
lemma shortestPath_spec (src dst : NodeId) :
    ∃ path, Returns (fun fuel => S.shortestPath fuel src dst) path ∧
      PicksOne path (shortestWalks S.OutStep src dst) := by
  by_cases hne : src = dst
  · subst hne
    refine ⟨some [src], ⟨0, fun fuel _ => if_pos rfl⟩, fun p hp => ?_, fun h => by cases h⟩
    rw [shortestWalks_self, ← some.inj hp]
    rfl
  rcases shortest_cases S hne with ⟨hempty, hrun, -⟩ |
    ⟨s, d, m, k, levels, hs, hd, rfl, rfl, hlevels, hk, hdist, hrun, -⟩
  · exact ⟨none, hrun, fun p hp => (by cases hp), fun _ => hempty⟩
  · obtain ⟨q, hq, htrace⟩ := exists_traceBack hlevels hk hdist []
    refine ⟨some (q.map S.idOf), ⟨max S.n (k + 1), fun fuel hfuel => ?_⟩, fun p hp => ?_,
      fun h => by cases h⟩
    · show S.shortestPath fuel (S.idOf s) (S.idOf d) = some (some (q.map S.idOf))
      have hback :=
        htrace fuel (lt_of_lt_of_le (Nat.lt_succ_self k) ((le_max_right ..).trans hfuel))
      rw [nil_append, nil_append] at hback
      rw [hrun fuel ((le_max_left ..).trans hfuel), hback, map_some, map_some,
        reverse_reverse]
    · rw [← some.inj hp]
      exact map_mem_shortestWalks hs hd hq

variable (S) in
lemma allShortestPaths_spec (src dst : NodeId) :
    ∃ paths, Returns (fun fuel => S.allShortestPaths fuel src dst) paths ∧
      ListsOnce paths (shortestWalks S.OutStep src dst) := by
  by_cases hne : src = dst
  · subst hne
    refine ⟨[[src]], ⟨0, fun fuel _ => if_pos rfl⟩, nodup_singleton _, fun p => ?_⟩
    rw [shortestWalks_self, mem_singleton, Set.mem_singleton_iff]
  rcases shortest_cases S hne with ⟨hempty, -, hrun⟩ |
    ⟨s, d, m, k, levels, hs, hd, rfl, rfl, hlevels, hk, hdist, -, hrun⟩
  · refine ⟨[], hrun, nodup_nil, fun p => ?_⟩
    rw [hempty]
    exact iff_of_false not_mem_nil (Set.notMem_empty p)
  · obtain ⟨k, rfl⟩ : ∃ j, k = j + 1 := by
      refine ⟨k - 1, ?_⟩
      by_contra hzero
      obtain rfl : k = 0 := by omega
      exact hne (congrArg S.idOf (atDist_zero.mp hdist).symm)
    have hdistId := (Snapshot.atDist_outStep hs hd).mpr hdist
    obtain ⟨hnodup, hpreds⟩ := admissible_spec hlevels hs hk hdist
    obtain ⟨out, hout, houtNodup, hmem⟩ := exists_enumerates_back hlevels hs (Nat.le_of_lt hk)
      hnodup (fun a ha => ((hpreds a).mp ha).1) [S.idOf d]
    obtain ⟨fuel₀, hreturns⟩ := hout.returns
    refine ⟨out, ⟨max S.n fuel₀, fun fuel hfuel => ?_⟩, houtNodup, fun p => ?_⟩
    · show S.allShortestPaths fuel (S.idOf s) (S.idOf d) = some out
      rw [hrun fuel ((le_max_left ..).trans hfuel)]
      exact hreturns fuel ((le_max_right ..).trans hfuel)
    · rw [hmem, mem_shortestWalks_succ hdistId]
      simp only [hpreds, eq_comm]
      rfl

/-! ## All four queries -/

variable (S) in
/-- The four path queries between two nodes answer as documented: all simple paths, all of minimum
length, one of minimum length, one of maximum length. -/
structure PathQueriesExact (src dst : NodeId) : Prop where
  all : ∃ paths, Returns (fun fuel => S.allPaths fuel src dst) paths ∧
    ListsOnce paths (simplePaths S.OutStep src dst)
  allShortest : ∃ paths, Returns (fun fuel => S.allShortestPaths fuel src dst) paths ∧
    ListsOnce paths {p ∈ simplePaths S.OutStep src dst |
      ∀ q ∈ simplePaths S.OutStep src dst, p.length ≤ q.length}
  shortest : ∃ path, Returns (fun fuel => S.shortestPath fuel src dst) path ∧
    PicksOne path {p ∈ simplePaths S.OutStep src dst |
      ∀ q ∈ simplePaths S.OutStep src dst, p.length ≤ q.length}
  longest : ∃ path, Returns (fun fuel => S.longestPath fuel src dst) path ∧
    PicksOne path {p ∈ simplePaths S.OutStep src dst |
      ∀ q ∈ simplePaths S.OutStep src dst, q.length ≤ p.length}

lemma shortestWalks_eq (src dst : NodeId) : shortestWalks S.OutStep src dst =
    {p ∈ simplePaths S.OutStep src dst |
      ∀ q ∈ simplePaths S.OutStep src dst, p.length ≤ q.length} := by
  ext p
  exact mem_shortestWalks_iff_simple

variable (S) in
lemma longestPath_spec (src dst : NodeId) :
    ∃ path, Returns (fun fuel => S.longestPath fuel src dst) path ∧
      PicksOne path {p ∈ simplePaths S.OutStep src dst |
        ∀ q ∈ simplePaths S.OutStep src dst, q.length ≤ p.length} := by
  obtain ⟨paths, hrun, hsimple, hcount⟩ := S.count_walkSimplePaths src dst
  have hmem : ∀ q ∈ simplePaths S.OutStep src dst, q ∈ paths := by
    intro q hq
    rw [← count_pos_iff, hcount q hq]
    exact (stepChoices_pos_iff Snapshot.edgeCount_pos_iff).mpr hq.1.chain
  have hfold := Snapshot.foldl_keepLonger paths none
  refine ⟨_, hrun.map fun paths => paths.foldl CsrArrays.keepLonger none, ?_⟩
  revert hfold
  cases paths.foldl CsrArrays.keepLonger none with
  | none =>
    rintro ⟨-, rfl⟩
    refine ⟨fun p hp => (by cases hp), fun _ => ?_⟩
    apply Set.eq_empty_of_forall_notMem
    rintro p ⟨hp, -⟩
    exact not_mem_nil (hmem p hp)
  | some p =>
    rintro ⟨hp, hlongest, -⟩
    refine ⟨?_, fun h => by cases h⟩
    intro _ heq
    obtain rfl := some.inj heq
    refine ⟨hsimple p (hp.resolve_right (some_ne_none p).symm), fun q hq => ?_⟩
    exact hlongest q (hmem q hq)

variable (S) in
/-- **Path enumeration on multigraphs.** The four queries between two nodes answer as documented iff
every step of every simple path between the nodes is along a single edge. -/
theorem pathQueriesExact_iff (src dst : NodeId) :
    S.PathQueriesExact src dst ↔ ∀ p ∈ simplePaths S.OutStep src dst,
      ∀ a b, [a, b] <:+: p → S.edgeCount a b = 1 := by
  obtain ⟨paths, hrun, hsimple, hcount⟩ := S.count_walkSimplePaths src dst
  constructor
  · intro h p hp
    obtain ⟨paths', hrun', hnodup, hmem⟩ := h.all
    obtain rfl := hrun.unique hrun'
    apply stepChoices_eq_one_iff.mp
    rw [← hcount p hp]
    exact count_eq_one_of_mem hnodup ((hmem p).mpr hp)
  · intro hsingle
    have hone : ∀ p ∈ simplePaths S.OutStep src dst, paths.count p = 1 := by
      intro p hp
      rw [hcount p hp]
      exact stepChoices_eq_one_iff.mpr (hsingle p hp)
    refine ⟨⟨paths, hrun, ?_, fun p => ⟨hsimple p, fun hp => ?_⟩⟩, ?_, ?_,
      S.longestPath_spec src dst⟩
    · rw [nodup_iff_count_eq_one]
      exact fun p hp => hone p (hsimple p hp)
    · rw [← count_pos_iff, hone p hp]
      exact Nat.one_pos
    · rw [← shortestWalks_eq]
      exact S.allShortestPaths_spec src dst
    · rw [← shortestWalks_eq]
      exact S.shortestPath_spec src dst

/-! ## After a run -/

section

variable [TextLib]

/-- The snapshot of a database after a run. -/
def ofRun (actions : List Graph.Action) (weighted : Bool)
    (h : (Graph.run actions .empty).storage.outRows.flatten.length ≤ maxSnapshotEdges) :
    StoredSnapshot where
  toCsrArrays := CsrArrays.layout (Graph.run actions .empty).storage.nodeIds
    (Graph.run actions .empty).storage.outRows
    ((Graph.run actions .empty).storage.outWeights weighted)
  wellFormed := by
    have hagrees := Graph.adjacencyAgrees_run actions
    apply CsrArrays.build_wellFormed hagrees
      (show CsrArrays.build _ weighted = _ from ?_)
    rw [CsrArrays.build_eq hagrees, if_neg (not_lt.mpr h)]
  storage := (Graph.run actions .empty).storage
  agrees := Graph.adjacencyAgrees_run actions
  weighted := weighted
  built := by
    rw [CsrArrays.build_eq (Graph.adjacencyAgrees_run actions), if_neg (not_lt.mpr h)]

end

section

attribute [local instance] TextLib.ascii

/-- Two nodes, and two edges from the first to the second. -/
def doubledEdge : List Graph.Action :=
  let none : Props := ⟨.object [], Json.wellFormed_empty⟩
  [.mutation (.addNode "A" none) (.ok ()), .mutation (.addNode "A" none) (.ok ()),
    .mutation (.addEdge 0 1 "T" none) (.ok ()), .mutation (.addEdge 0 1 "U" none) (.ok ())]

/-- The one path between the two nodes is listed twice. -/
theorem allPaths_doubledEdge :
    ∃ h : (Graph.run doubledEdge .empty).storage.outRows.flatten.length ≤ maxSnapshotEdges,
      Returns (fun fuel => (ofRun doubledEdge false h).allPaths fuel 0 1) [[0, 1], [0, 1]] ∧
        ¬(ofRun doubledEdge false h).PathQueriesExact 0 1 := by
  have hsize : (Graph.run doubledEdge .empty).storage.outRows.flatten.length ≤
      maxSnapshotEdges := by
    decide +kernel
  have hrun : (CsrArrays.layout (Graph.run doubledEdge .empty).storage.nodeIds
      (Graph.run doubledEdge .empty).storage.outRows none).allPaths 5 0 1 =
        some [[0, 1], [0, 1]] := by
    decide +kernel
  have hreturns : Returns (fun fuel => (ofRun doubledEdge false hsize).allPaths fuel 0 1)
      [[0, 1], [0, 1]] := by
    refine ⟨5, fun fuel hfuel => ?_⟩
    exact Snapshot.walkSimplePaths_mono (S := (ofRun doubledEdge false hsize).toSnapshot) hrun hfuel
  refine ⟨hsize, hreturns, fun h => ?_⟩
  obtain ⟨paths, hpaths, hnodup, -⟩ := h.all
  rw [← hreturns.unique hpaths] at hnodup
  exact absurd hnodup (by decide)

end

end StoredSnapshot

end IssunDB
