import IssunDB.Lib.Reach
import IssunDB.Lib.Table

/-!
# Depth-first search to a bounded depth

A search that prunes at any node met before misses what lies within the bound only along a shorter
branch. This one keeps the smallest depth at which it has met each node and expands a node again
whenever it is met at a smaller one.

A recorded depth changes while the search runs. What every call keeps is `Expands`: depths only
fall, and a depth that the call recorded below the bound is passed on to every successor by the
time the call returns. `nodup_and_mem_order_search` follows: a search meets just what lies within
the bound.
-/

/-- The smallest depth at which each node was met, and the nodes in the order of their first
meeting. -/
structure DepthSearch (α : Type) [LinearOrder α] where
  bestDepth : Table α ℕ
  order : List α

namespace DepthSearch

open List Option

variable {α : Type} [LinearOrder α] (next : α → List α)

/-- Nothing met yet. -/
def init : DepthSearch α := ⟨.empty, []⟩

/-- Record that a node is met at a depth. -/
def meet (st : DepthSearch α) (node : α) (depth : ℕ) : DepthSearch α where
  bestDepth := st.bestDepth.put node depth
  order := if st.bestDepth.get node = none then st.order ++ [node] else st.order

/-- Visit a node at a depth with `left` levels below it, unless it was met at most as deep. -/
def recurse : (left : ℕ) → (node : α) → (depth : ℕ) → DepthSearch α → DepthSearch α
  | left, node, depth, st =>
    if (st.bestDepth.get node).any (· ≤ depth) then st
    else
      match left with
      | 0 => st.meet node depth
      | left + 1 =>
        (next node).foldl (fun st neighbor => recurse left neighbor (depth + 1) st)
          (st.meet node depth)

/-! ## What a call does to the depths -/

def Met (st : DepthSearch α) (node : α) (depth : ℕ) : Prop :=
  ∃ d ≤ depth, st.bestDepth.get node = some d

/-- Depths only fall, and what is newly recorded below the bound is passed on to the
successors. -/
structure Expands (max : ℕ) (st st' : DepthSearch α) : Prop where
  falls : ∀ v d, st.bestDepth.get v = some d → st'.Met v d
  passed : ∀ v d, st'.bestDepth.get v = some d → st.bestDepth.get v ≠ some d → d < max →
    ∀ w ∈ next v, st'.Met w (d + 1)

variable {next} {max : ℕ} {st st' st'' : DepthSearch α} {node : α} {depth : ℕ}

lemma Met.mono (h : st.Met node depth) {d : ℕ} (hd : depth ≤ d) : st.Met node d := by
  obtain ⟨d', hle, hget⟩ := h
  exact ⟨d', hle.trans hd, hget⟩

lemma Expands.met (h : Expands next max st st') (hmet : st.Met node depth) :
    st'.Met node depth := by
  obtain ⟨d, hle, hget⟩ := hmet
  exact (h.falls node d hget).mono hle

lemma Expands.refl : Expands next max st st :=
  ⟨fun _ d hget => ⟨d, le_rfl, hget⟩, fun _ _ hget hnot => absurd hget hnot⟩

lemma Expands.trans (h : Expands next max st st') (h' : Expands next max st' st'') :
    Expands next max st st'' where
  falls v d hget := h'.met (h.falls v d hget)
  passed v d hget hnot hlt w hw := by
    by_cases hbefore : st'.bestDepth.get v = some d
    · -- Recorded by the first call: it passed the depth on, and the second kept that.
      exact h'.met (h.passed v d hbefore hnot hlt w hw)
    · exact h'.passed v d hget hbefore hlt w hw

lemma met_meet : (st.meet node depth).Met node depth :=
  ⟨depth, le_rfl, st.bestDepth.get_put_self node depth⟩

/-- A call that goes on past the check meets the node at a smaller depth than before. -/
theorem falls_meet (hnew : ¬ (st.bestDepth.get node).any (· ≤ depth) = true) (v : α) (d : ℕ)
    (hget : st.bestDepth.get v = some d) : (st.meet node depth).Met v d := by
  by_cases hv : v = node
  · subst hv
    have hgt : ¬ d ≤ depth := by simpa [hget] using hnew
    exact met_meet.mono (by omega)
  · exact ⟨d, le_rfl, (st.bestDepth.get_put_of_ne depth hv).trans hget⟩

/-- Calls on several nodes meet all of them. -/
theorem expands_foldl {call : α → DepthSearch α → DepthSearch α}
    (hcall : ∀ v st, Expands next max st (call v st) ∧ (call v st).Met v depth) (nodes : List α) :
    Expands next max st (nodes.foldl (fun st v => call v st) st) ∧
      ∀ v ∈ nodes, (nodes.foldl (fun st v => call v st) st).Met v depth := by
  induction nodes generalizing st with
  | nil => exact ⟨.refl, fun _ hv => absurd hv not_mem_nil⟩
  | cons v nodes ih =>
    obtain ⟨hfirst, hmet⟩ := hcall v st
    have hrest := @ih (call v st)
    refine ⟨hfirst.trans hrest.1, fun w hw => ?_⟩
    rcases mem_cons.mp hw with rfl | hw
    · exact hrest.1.met hmet
    · exact hrest.2 w hw

lemma expands_recurse (left : ℕ) (hmax : depth + left = max) :
    Expands next max st (recurse next left node depth st) ∧
      (recurse next left node depth st).Met node depth := by
  induction left generalizing node depth st with
  | zero =>
    rw [recurse]
    split
    next hseen =>
      obtain ⟨d, hget, hle⟩ := Option.any_eq_true .. |>.mp hseen
      exact ⟨.refl, d, by simpa using hle, hget⟩
    next hnew =>
      refine ⟨⟨falls_meet hnew, fun v d hget hnot hlt => ?_⟩, met_meet⟩
      -- The node itself is at the bound, and every other depth is an old one.
      by_cases hv : v = node
      · subst hv
        have : depth = d := some.inj ((st.bestDepth.get_put_self v depth).symm.trans hget)
        omega
      · exact absurd ((st.bestDepth.get_put_of_ne depth hv).symm.trans hget) hnot
  | succ left ih =>
    rw [recurse]
    split
    next hseen =>
      obtain ⟨d, hget, hle⟩ := Option.any_eq_true .. |>.mp hseen
      exact ⟨.refl, d, by simpa using hle, hget⟩
    next hnew =>
      have hcall : ∀ v st, Expands next max st (recurse next left v (depth + 1) st) ∧
          (recurse next left v (depth + 1) st).Met v (depth + 1) := fun v st => ih (by omega)
      obtain ⟨hexpands, hall⟩ := @expands_foldl _ _ _ _ (st.meet node depth) _ _ hcall (next node)
      refine ⟨⟨fun v d hget => hexpands.met (falls_meet hnew v d hget),
        fun v d hget hnot hlt w hw => ?_⟩, hexpands.met met_meet⟩
      by_cases hmeet : (st.meet node depth).bestDepth.get v = some d
      · -- Only the node's own depth is new before its successors are visited.
        by_cases hv : v = node
        · subst hv
          obtain rfl := some.inj ((st.bestDepth.get_put_self v depth).symm.trans hmeet)
          exact hall w hw
        · exact absurd ((st.bestDepth.get_put_of_ne depth hv).symm.trans hmeet) hnot
      · exact hexpands.passed v d hget hmeet hlt w hw

/-! ## What is met lies within reach -/

/-- Recorded depths are distances that can be walked, and the order lists the nodes met, each
once. -/
structure Sound (next : α → List α) (start : α) (max : ℕ) (st : DepthSearch α) : Prop where
  nodup : st.order.Nodup
  mem_order : ∀ v, v ∈ st.order ↔ (st.bestDepth.get v).isSome
  bound : ∀ v d, st.bestDepth.get v = some d → d ≤ max
  reach : ∀ v d, st.bestDepth.get v = some d → v ∈ within (fun u w => w ∈ next u) {start} d

variable {start : α}

lemma Sound.init : Sound next start max init where
  nodup := nodup_nil
  mem_order v := by simp [DepthSearch.init]
  bound v d hget := by simp [DepthSearch.init] at hget
  reach v d hget := by simp [DepthSearch.init] at hget

lemma Sound.meet (h : Sound next start max st) (hmax : depth ≤ max)
    (hreach : node ∈ within (fun u w => w ∈ next u) {start} depth) :
    Sound next start max (st.meet node depth) where
  nodup := by
    rw [DepthSearch.meet]
    dsimp only
    split
    next hnone =>
      have hnot : node ∉ st.order := by rw [h.mem_order, hnone]; simp
      exact nodup_append.mpr ⟨h.nodup, nodup_singleton node, by
        rintro a ha b hb rfl
        exact hnot (mem_singleton.mp hb ▸ ha)⟩
    next => exact h.nodup
  mem_order v := by
    rw [DepthSearch.meet]
    dsimp only
    by_cases hv : v = node
    · subst hv
      rw [Table.get_put_self]
      split
      next => simp
      next hsome => simpa [h.mem_order] using isSome_iff_ne_none.mpr hsome
    · rw [Table.get_put_of_ne _ _ hv, ← h.mem_order]
      split
      next => simp [hv]
      next => rfl
  bound v d hget := by
    by_cases hv : v = node
    · subst hv
      obtain rfl := some.inj ((st.bestDepth.get_put_self v depth).symm.trans hget)
      exact hmax
    · exact h.bound v d ((st.bestDepth.get_put_of_ne depth hv).symm.trans hget)
  reach v d hget := by
    by_cases hv : v = node
    · subst hv
      obtain rfl := some.inj ((st.bestDepth.get_put_self v depth).symm.trans hget)
      exact hreach
    · exact h.reach v d ((st.bestDepth.get_put_of_ne depth hv).symm.trans hget)

/-- Sound calls on nodes within reach, one after another. -/
theorem Sound.foldl {call : α → DepthSearch α → DepthSearch α} {reached : Set α}
    (hcall : ∀ v ∈ reached, ∀ st, Sound next start max st → Sound next start max (call v st))
    {nodes : List α} (hnodes : ∀ v ∈ nodes, v ∈ reached) (h : Sound next start max st) :
    Sound next start max (nodes.foldl (fun st v => call v st) st) := by
  induction nodes generalizing st with
  | nil => exact h
  | cons v nodes ih =>
    exact ih (fun w hw => hnodes w (mem_cons_of_mem _ hw))
      (hcall v (hnodes v mem_cons_self) st h)

lemma Sound.recurse (left : ℕ) (h : Sound next start max st) (hmax : depth + left = max)
    (hreach : node ∈ within (fun u w => w ∈ next u) {start} depth) :
    Sound next start max (recurse next left node depth st) := by
  induction left generalizing node depth st with
  | zero =>
    rw [DepthSearch.recurse]
    split
    next => exact h
    next => exact h.meet (by omega) hreach
  | succ left ih =>
    rw [DepthSearch.recurse]
    split
    next => exact h
    next =>
      -- The successors lie one step further out.
      have hstep : ∀ w ∈ next node, w ∈ within (fun u w => w ∈ next u) {start} (depth + 1) :=
        fun w hw => Or.inr ⟨node, hreach, hw⟩
      exact Sound.foldl (fun w hw st hst => ih hst (by omega) hw) hstep
        (h.meet (by omega) hreach)

/-! ## A whole search -/

/-- **Bounded search.** A search from a node with a bound meets just what lies within the bound,
each once. -/
theorem nodup_and_mem_order_search (next : α → List α) (start : α) (max : ℕ) :
    (DepthSearch.recurse next max start 0 init).order.Nodup ∧
      ∀ v, v ∈ (DepthSearch.recurse next max start 0 init).order ↔
        v ∈ within (fun u w => w ∈ next u) {start} max := by
  have hsound : Sound next start max (DepthSearch.recurse next max start 0 init) :=
    Sound.init.recurse max (Nat.zero_add max) rfl
  obtain ⟨hexpands, hmet⟩ : Expands next max init (recurse next max start 0 init) ∧
      (recurse next max start 0 init).Met start 0 := expands_recurse max (Nat.zero_add max)
  refine ⟨hsound.nodup, fun v => ?_⟩
  rw [hsound.mem_order]
  constructor
  · intro hsome
    obtain ⟨d, hget⟩ := isSome_iff_exists.mp hsome
    exact within_mono (hsound.bound v d hget) (hsound.reach v d hget)
  · -- What lies within `k` steps is met at depth `k` or less, for each `k` up to the bound.
    have hall : ∀ k ≤ max, ∀ v ∈ within (fun u w => w ∈ next u) {start} k,
        (DepthSearch.recurse next max start 0 init).Met v k := by
      intro k
      induction k with
      | zero =>
        rintro - v rfl
        exact hmet
      | succ k ih =>
        rintro hk v (hv | ⟨u, hu, hstep⟩)
        · exact (ih (by omega) v hv).mono (Nat.le_succ k)
        · obtain ⟨d, hle, hget⟩ := ih (by omega) u hu
          have hnew : (init : DepthSearch α).bestDepth.get u ≠ some d := by simp [init]
          exact (hexpands.passed u d hget hnew (by omega) v hstep).mono (by omega)
    intro hv
    obtain ⟨d, -, hget⟩ := hall max le_rfl v hv
    rw [hget]
    rfl

end DepthSearch
