import IssunDB.Csr.Search
import IssunDB.Lib.Loop
import IssunDB.Lib.Paths

/-!
# Hop distances

`hopDistances` gives each node its level, the number of steps from a source, one level after
another. It may stop early, at the level of a given node.

`Levelled` is the invariant between two levels. `exists_hopDistances` states that the search ends
with the levels up to some bound, which the level of the given node does not exceed.
-/

namespace IssunDB

open List Option

namespace CsrArrays

variable (S : CsrArrays)

/-- Expand one level after another from level `hop` on, until there is none or `stop` is reached. -/
def hopLevels (stop : Option ℕ) : (fuel hop : ℕ) → Levels → (frontier : List ℕ) → Option Levels
  | 0, _, _, _ => none
  | fuel + 1, hop, levels, frontier =>
    let (levels, next) := S.expandFrontier frontier hop levels
    if next = [] then some levels
    else if stop.any fun dst => levels.getD dst none ≠ none then some levels
    else hopLevels stop fuel (hop + 1) levels next

/-- Breadth-first hop distance from `src`. Stops as soon as `stop` is reached, one whole level at a
time. -/
def hopDistances (fuel src : ℕ) (stop : Option ℕ) : Option Levels :=
  S.hopLevels stop fuel 1 ((List.replicate S.denseToId.length none).set src (some 0)) [src]

end CsrArrays

namespace Snapshot

variable {S : Snapshot} {s k : ℕ} {levels : Levels} {frontier : List ℕ}

/-! ## Levels by node id -/

/-- The walks between node ids are those between dense indices. -/
theorem isWalk_outStep (hs : s < S.n) {b : NodeId} {p : List NodeId} :
    IsWalk S.OutStep (S.idOf s) b p ↔
      ∃ d q, d < S.n ∧ S.idOf d = b ∧ IsWalk S.DenseStep s d q ∧ q.map S.idOf = p := by
  constructor
  · intro h
    have hlift : ∀ u b, u < S.n → S.OutStep (S.idOf u) b →
        ∃ v, S.idOf v = b ∧ S.DenseStep u v ∧ v < S.n := by
      intro u b hu hstep
      obtain ⟨u', v, huv, hu', rfl⟩ := S.outStep_iff.mp hstep
      obtain rfl := (S.idOf_inj huv.lt.1 hu).mp hu'
      exact ⟨v, rfl, huv, huv.lt.2⟩
    obtain ⟨d, q, hb, hd, hq, hmap⟩ := h.exists_map (· < S.n) hs hlift
    exact ⟨d, q, hd, hb, hq, hmap⟩
  · rintro ⟨d, q, -, rfl, hq, rfl⟩
    exact hq.map fun u v huv => S.outStep_iff.mpr ⟨u, v, huv, rfl, rfl⟩

lemma atDist_outStep (hs : s < S.n) {d : ℕ} (hd : d < S.n) :
    AtDist S.OutStep (S.idOf s) k (S.idOf d) ↔ AtDist S.DenseStep s k d := by
  have hwalk : ∀ p, IsWalk S.OutStep (S.idOf s) (S.idOf d) p ↔
      ∃ q, IsWalk S.DenseStep s d q ∧ q.map S.idOf = p := by
    intro p
    rw [isWalk_outStep hs]
    constructor
    · rintro ⟨d', q, hd', heq, hq⟩
      obtain rfl := (S.idOf_inj hd' hd).mp heq
      exact ⟨q, hq⟩
    · rintro ⟨q, hq⟩
      exact ⟨d, q, hd, rfl, hq⟩
  simp only [AtDist, hwalk]
  constructor
  · rintro ⟨⟨p, ⟨q, hq, rfl⟩, hlen⟩, hmin⟩
    rw [length_map] at hlen
    refine ⟨⟨q, hq, hlen⟩, fun r hr => ?_⟩
    simpa using hmin _ ⟨r, hr, rfl⟩
  · rintro ⟨⟨q, hq, hlen⟩, hmin⟩
    refine ⟨⟨_, ⟨q, hq, rfl⟩, by rw [length_map, hlen]⟩, ?_⟩
    rintro p ⟨r, hr, rfl⟩
    rw [length_map]
    exact hmin r hr

/-! ## The level loop -/

/-- More fuel does not change the result. -/
theorem hopLevels_mono {stop : Option ℕ} {fuel fuel' hop : ℕ} {out : Levels}
    (h : S.hopLevels stop fuel hop levels frontier = some out) (hle : fuel ≤ fuel') :
    S.hopLevels stop fuel' hop levels frontier = some out := by
  induction fuel generalizing fuel' hop levels frontier with
  | zero => cases h
  | succ fuel ih =>
    obtain ⟨fuel', rfl⟩ := Nat.exists_eq_add_of_le' (Nat.le_of_add_left_le hle)
    rw [CsrArrays.hopLevels] at h ⊢
    dsimp only at h ⊢
    split at h
    next hnext =>
      rw [if_pos hnext]
      exact h
    next hnext =>
      rw [if_neg hnext]
      split at h
      next hstop =>
        rw [if_pos hstop]
        exact h
      next hstop =>
        rw [if_neg hstop]
        exact ih h (by omega)

variable (S s k levels frontier) in
/-- A search that has found the levels up to `k`. -/
structure Levelled : Prop where
  length : levels.length = S.n
  level : ∀ d j, levels.getD d none = some j ↔ j ≤ k ∧ AtDist S.DenseStep s j d
  frontier : ∀ v, v ∈ frontier ↔ AtDist S.DenseStep s k v
  /-- Each level has a member. -/
  size : k + 1 ≤ (IssunDB.marked levels).card

lemma levelled_start (hs : s < S.n) :
    S.Levelled s 0 ((List.replicate S.n none).set s (some 0)) [s] := by
  have hlevels : ∀ d, ((List.replicate S.n none).set s (some 0)).getD d none =
      if d = s then some 0 else none := by
    intro d
    rw [List.getD_set (by simpa using hs), List.getD_replicate_self]
  constructor
  · simp
  · intro d j
    rw [hlevels]
    constructor
    · split
      next heq =>
        rintro ⟨⟩
        exact ⟨le_rfl, atDist_zero.mpr heq⟩
      next => rintro ⟨⟩
    · rintro ⟨hj, hdist⟩
      obtain rfl : j = 0 := by omega
      rw [if_pos (atDist_zero.mp hdist)]
  · intro v
    rw [atDist_zero]
    exact mem_singleton
  · rw [marked_set_some (by simpa using hs), Finset.card_insert_of_notMem]
    · omega
    · rw [marked_replicate]
      exact Finset.notMem_empty s

namespace Levelled

lemma level_eq_none (h : S.Levelled s k levels frontier) {d : ℕ} :
    d ∉ IssunDB.marked levels ↔ ∀ j ≤ k, ¬AtDist S.DenseStep s j d :=
  (notMem_marked_iff (h.level d)).trans (forall_congr' fun _ => not_and)

lemma mem_next (h : S.Levelled s k levels frontier) (hop v : ℕ) :
    v ∈ (S.expandFrontier frontier hop levels).2 ↔ AtDist S.DenseStep s (k + 1) v := by
  obtain ⟨-, -, -, hmem⟩ := S.expandFrontier_spec h.length frontier hop
  rw [hmem, atDist_succ, h.level_eq_none]
  simp only [h.frontier]

lemma card_marked_le (h : S.Levelled s k levels frontier) :
    (IssunDB.marked levels).card ≤ S.n := by
  rw [IssunDB.marked, ← h.length]
  exact (Finset.card_filter_le _ _).trans (Finset.card_range _).le

/-- What an expansion discovers is new. -/
theorem card_marked_next (h : S.Levelled s k levels frontier) (hop : ℕ) :
    (IssunDB.marked (S.expandFrontier frontier hop levels).1).card =
      (IssunDB.marked levels).card + (S.expandFrontier frontier hop levels).2.length := by
  obtain ⟨-, hmarked, hnodup, hmem⟩ := S.expandFrontier_spec h.length frontier hop
  rw [hmarked, Finset.card_union_of_disjoint, toFinset_card_of_nodup hnodup]
  rw [Finset.disjoint_right]
  intro v hv
  exact ((hmem v).mp (List.mem_toFinset.mp hv)).2

/-- Discovering one more level keeps the invariant. -/
theorem advance (h : S.Levelled s k levels frontier)
    (hnext : (S.expandFrontier frontier (k + 1) levels).2 ≠ []) :
    S.Levelled s (k + 1) (S.expandFrontier frontier (k + 1) levels).1
      (S.expandFrontier frontier (k + 1) levels).2 where
  length := (S.expandFrontier_spec h.length frontier (k + 1)).1
  level := by
    intro d j
    rw [S.getD_expandFrontier h.length frontier (k + 1)]
    split
    next hin =>
      have hd := (h.mem_next (k + 1) d).mp hin
      constructor
      · rintro ⟨⟩
        exact ⟨le_rfl, hd⟩
      · rintro ⟨-, hj⟩
        rw [hd.unique hj]
    next hout =>
      rw [h.level]
      constructor
      · rintro ⟨hj, hd⟩
        exact ⟨by omega, hd⟩
      · rintro ⟨hj, hd⟩
        refine ⟨?_, hd⟩
        by_contra hgt
        obtain rfl : j = k + 1 := by omega
        exact hout ((h.mem_next (k + 1) d).mpr hd)
  frontier := h.mem_next (k + 1)
  size := by
    rw [h.card_marked_next]
    have := length_pos_of_ne_nil hnext
    have := h.size
    omega

/-- An expansion that discovers nothing has found every level. -/
theorem finish (h : S.Levelled s k levels frontier)
    (hnext : (S.expandFrontier frontier (k + 1) levels).2 = []) :
    S.Levelled s k (S.expandFrontier frontier (k + 1) levels).1 frontier ∧
      ∀ j w, AtDist S.DenseStep s j w → j ≤ k := by
  have hsame : ∀ d, (S.expandFrontier frontier (k + 1) levels).1.getD d none =
      levels.getD d none := by
    intro d
    rw [S.getD_expandFrontier h.length, hnext, if_neg not_mem_nil]
  constructor
  · constructor
    · exact (S.expandFrontier_spec h.length frontier (k + 1)).1
    · exact fun d j => (hsame d) ▸ h.level d j
    · exact h.frontier
    · rw [h.card_marked_next, hnext]
      exact h.size
  · have hnone : ∀ i w, ¬AtDist S.DenseStep s (k + 1 + i) w := by
      intro i
      induction i with
      | zero =>
        intro w hw
        rw [Nat.add_zero, ← h.mem_next (k + 1), hnext] at hw
        exact not_mem_nil hw
      | succ i ih =>
        intro w hw
        obtain ⟨⟨v, hv, -⟩, -⟩ := atDist_succ.mp hw
        exact ih v hv
    intro j w hw
    by_contra hgt
    exact hnone (j - (k + 1)) w (by rwa [Nat.add_sub_cancel' (by omega)])

/-- With enough fuel the level loop ends. It has found every level up to that of `stop`. -/
theorem hopLevels (h : S.Levelled s k levels frontier) (stop : Option ℕ) {fuel : ℕ}
    (hfuel : S.n < fuel + (IssunDB.marked levels).card) :
    ∃ m out frontier', S.hopLevels stop fuel (k + 1) levels frontier = some out ∧
      S.Levelled s m out frontier' ∧
      ((∀ j w, AtDist S.DenseStep s j w → j ≤ m) ∨
        ∃ dst, stop = some dst ∧ ∃ j ≤ m, AtDist S.DenseStep s j dst) := by
  induction fuel generalizing k levels frontier with
  | zero =>
    have := h.card_marked_le
    omega
  | succ fuel ih =>
    rw [CsrArrays.hopLevels]
    dsimp only
    split
    next hnext =>
      obtain ⟨hdone, hall⟩ := h.finish hnext
      exact ⟨k, _, frontier, rfl, hdone, Or.inl hall⟩
    next hnext =>
      have hadvanced := h.advance hnext
      split
      next hstop =>
        obtain ⟨dst, rfl, hdst⟩ := (Option.any_eq_true _ _).mp hstop
        obtain ⟨j, hj⟩ := ne_none_iff_exists'.mp (of_decide_eq_true hdst)
        exact ⟨k + 1, _, _, rfl, hadvanced, Or.inr ⟨dst, rfl, j, (hadvanced.level dst j).mp hj⟩⟩
      next =>
        refine ih hadvanced ?_
        rw [h.card_marked_next]
        have := length_pos_of_ne_nil hnext
        omega

end Levelled

/-- A search toward `dst` ends with the levels up to some bound, which that of `dst` does not
exceed. -/
theorem exists_hopDistances (hs : s < S.n) (dst : ℕ) :
    ∃ m levels, (∀ fuel, S.n ≤ fuel → S.hopDistances fuel s (some dst) = some levels) ∧
      (∀ d j, levels.getD d none = some j ↔ j ≤ m ∧ AtDist S.DenseStep s j d) ∧
      ∀ j, AtDist S.DenseStep s j dst → j ≤ m := by
  have hstart := levelled_start hs
  have hone := hstart.size
  obtain ⟨m, levels, frontier, hrun, h, hstop⟩ := hstart.hopLevels (some dst)
    (show S.n < S.n + (IssunDB.marked _).card by omega)
  refine ⟨m, levels, fun fuel hfuel => hopLevels_mono hrun hfuel, h.level, fun j hj => ?_⟩
  rcases hstop with hall | ⟨_, ⟨⟩, i, hi, hdst⟩
  · exact hall j dst hj
  · rwa [hj.unique hdst]

end Snapshot

end IssunDB
