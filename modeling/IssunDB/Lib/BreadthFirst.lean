import IssunDB.Lib.Table

/-!
# Breadth-first search with parents

A search from a source for a target, along the usable pairs among those a neighbor list offers. It
keeps the nodes it has seen in the order it saw them and a parent for each of them but the source;
the queue is the end of that order.

`searchFor_spec` states that the search ends. A failed search has found a closed set of nodes
without the target; after a successful one the parents lead from the target back to the source.
-/

variable {α : Type} [DecidableEq α]

/-- The state of a search. -/
structure SearchState (α : Type) where
  queue : List α
  visited : List α
  parent : Table α α

/-- Meet one neighbor of `curr`: one that is new and usable is queued. -/
def discover (usable : α → α → Bool) (curr : α) (st : SearchState α) (neighbor : α) :
    SearchState α :=
  if neighbor ∈ st.visited then st
  else if usable curr neighbor then
    { queue := st.queue ++ [neighbor]
      visited := st.visited ++ [neighbor]
      parent := st.parent.put neighbor curr }
  else st

/-- Take nodes off the queue until the target comes up or the queue is empty. Gives the parents when
the target was found. -/
def searchFor (neighbors : α → List α) (usable : α → α → Bool) (target : α) :
    (fuel : ℕ) → SearchState α → Option (Option (Table α α))
  | 0, _ => none
  | fuel + 1, st =>
    match st.queue with
    | [] => some none
    | curr :: queue =>
      if curr = target then some (some st.parent)
      else
        searchFor neighbors usable target fuel
          ((neighbors curr).foldl (discover usable curr) { st with queue })

/-- The pairs passed on the way back from a node to the source. -/
def walkBack (parent : Table α α) (source : α) : (fuel : ℕ) → α → Option (List (α × α))
  | 0, _ => none
  | fuel + 1, curr =>
    if curr = source then some []
    else do
      let p ← parent.get curr
      let rest ← walkBack parent source fuel p
      some ((p, curr) :: rest)

/-- The pairs lead back from a node to `s`. -/
inductive Backtrace {α : Type*} (s : α) : α → List (α × α) → Prop
  | nil : Backtrace s s []
  | cons {p v : α} {es : List (α × α)} : Backtrace s p es → Backtrace s v ((p, v) :: es)

/-- Nodes in the order they were seen, each but the source reached from one seen before. -/
structure Rooted (neighbors : α → List α) (usable : α → α → Bool) (s : α) (N : Finset α)
    (visited : List α) (parent : Table α α) : Prop where
  nodup : visited.Nodup
  within : ∀ v ∈ visited, v ∈ N
  parents : ∀ l₁ v l₂, visited = l₁ ++ v :: l₂ → (l₁ = [] ∧ v = s) ∨
    ∃ p ∈ l₁, parent.get v = some p ∧ v ∈ neighbors p ∧ usable p v = true

lemma Backtrace.eq_of_nil {α : Type*} {s v : α} (h : Backtrace s v []) : v = s := by
  cases h
  rfl

variable {neighbors : α → List α} {usable : α → α → Bool} {s target : α} {N : Finset α}

namespace Rooted

open List

variable {visited : List α} {parent : Table α α}

omit [DecidableEq α] in
lemma start (hs : s ∈ N) : Rooted neighbors usable s N [s] parent where
  nodup := nodup_singleton s
  within v hv := mem_singleton.mp hv ▸ hs
  parents l₁ v l₂ h := by
    cases l₁ with
    | nil =>
      obtain ⟨rfl, -⟩ := List.cons.inj h
      exact Or.inl ⟨rfl, rfl⟩
    | cons a l₁ => simp at h

/-- A new node may be reached from any node seen. -/
theorem concat (h : Rooted neighbors usable s N visited parent) {p v : α} (hp : p ∈ visited)
    (hv : v ∉ visited) (hN : v ∈ N) (hmem : v ∈ neighbors p) (husable : usable p v = true) :
    Rooted neighbors usable s N (visited ++ [v]) (parent.put v p) where
  nodup := nodup_append.mpr ⟨h.nodup, nodup_singleton v, fun a ha b hb heq => by
    rw [mem_singleton.mp hb] at heq
    exact hv (heq ▸ ha)⟩
  within w hw := by
    rcases mem_append.mp hw with hw | hw
    · exact h.within w hw
    · exact mem_singleton.mp hw ▸ hN
  parents l₁ w l₂ heq := by
    rcases eq_nil_or_concat l₂ with rfl | ⟨l₂, x, rfl⟩
    · obtain ⟨rfl, hlast⟩ := append_inj' heq rfl
      obtain ⟨rfl, -⟩ := List.cons.inj hlast
      exact Or.inr ⟨p, hp, parent.get_put_self v p, hmem, husable⟩
    · have hsplit : visited ++ [v] = (l₁ ++ w :: l₂) ++ [x] := by
        rw [heq, concat_eq_append, append_assoc, cons_append]
      obtain ⟨rfl, -⟩ := append_inj' hsplit rfl
      have hne : w ≠ v := by
        rintro rfl
        exact hv (mem_append_right _ mem_cons_self)
      rw [parent.get_put_of_ne p hne]
      exact h.parents l₁ w l₂ rfl

/-- The parents lead from every node seen back to the source, through nodes seen before it. -/
theorem exists_walkBack (h : Rooted neighbors usable s N visited parent) {l₁ l₂ : List α} {v : α}
    (hsplit : visited = l₁ ++ v :: l₂) {fuel : ℕ} (hfuel : l₁.length < fuel) :
    ∃ es, walkBack parent s fuel v = some es ∧ Backtrace s v es ∧ es.Nodup ∧
      ∀ e ∈ es, e.1 ∈ l₁ ∧ e.2 ∈ l₁ ++ [v] ∧ e.1 ≠ e.2 ∧ e.2 ∈ neighbors e.1 ∧
        usable e.1 e.2 = true := by
  induction fuel generalizing l₁ v l₂ with
  | zero => omega
  | succ fuel ih =>
    rw [walkBack]
    split
    next heq =>
      subst heq
      exact ⟨[], rfl, .nil, nodup_nil, by simp⟩
    next hne =>
      obtain ⟨-, heq⟩ | ⟨p, hp, hparent, hmem, husable⟩ := h.parents l₁ v l₂ hsplit
      · exact absurd heq hne
      obtain ⟨a, b, rfl⟩ := append_of_mem hp
      have hnodup := h.nodup
      rw [hsplit] at hnodup
      have hv : v ∉ a ++ p :: b := by
        intro hin
        exact disjoint_of_nodup_append hnodup hin mem_cons_self
      have hearlier : visited = a ++ p :: (b ++ v :: l₂) := by
        rw [hsplit, append_assoc, cons_append]
      obtain ⟨es, hwalk, hback, hes, hall⟩ := ih hearlier
        (by rw [length_append, length_cons] at hfuel; omega)
      refine ⟨(p, v) :: es, ?_, .cons hback, ?_, ?_⟩
      · rw [hparent]
        change (walkBack parent s fuel p >>= _) = _
        rw [hwalk]
        rfl
      · refine nodup_cons.mpr ⟨fun hin => hv ?_, hes⟩
        have hmem := (hall _ hin).2.1
        rw [mem_append, mem_singleton] at hmem
        rcases hmem with hmem | hmem
        · exact mem_append_left _ hmem
        · exact hmem ▸ hp
      · intro e he
        rcases mem_cons.mp he with rfl | he
        · exact ⟨hp, mem_append_right _ mem_cons_self,
            fun heq : p = v => hv (heq ▸ hp), hmem, husable⟩
        · obtain ⟨h₁, h₂, hrest⟩ := hall e he
          refine ⟨mem_append_left _ h₁, ?_, hrest⟩
          rw [mem_append, mem_singleton] at h₂
          rcases h₂ with h₂ | h₂
          · exact mem_append_left _ (mem_append_left _ h₂)
          · exact mem_append_left _ (h₂ ▸ hp)

end Rooted

/-- Meeting the neighbors of a node queues the new ones among the usable. -/
theorem foldl_discover {curr : α} {ns : List α} (st : SearchState α) (hcurr : curr ∈ st.visited)
    (h : Rooted neighbors usable s N st.visited st.parent) (hns : ∀ v ∈ ns, v ∈ neighbors curr)
    (hN : ∀ v ∈ ns, usable curr v = true → v ∈ N) :
    ∃ new, (ns.foldl (discover usable curr) st).visited = st.visited ++ new ∧
      (ns.foldl (discover usable curr) st).queue = st.queue ++ new ∧
      Rooted neighbors usable s N (ns.foldl (discover usable curr) st).visited
        (ns.foldl (discover usable curr) st).parent ∧
      ∀ v ∈ ns, usable curr v = true → v ∈ (ns.foldl (discover usable curr) st).visited := by
  induction ns generalizing st with
  | nil => exact ⟨[], by simp, by simp, h, by simp⟩
  | cons v ns ih =>
    have hrest : ∀ w ∈ ns, w ∈ neighbors curr := fun w hw => hns w (List.mem_cons_of_mem _ hw)
    have hrestN : ∀ w ∈ ns, usable curr w = true → w ∈ N :=
      fun w hw => hN w (List.mem_cons_of_mem _ hw)
    rw [List.foldl_cons]
    by_cases hv : v ∈ st.visited
    · have hstep : discover usable curr st v = st := if_pos hv
      rw [hstep]
      obtain ⟨new, hvisited, hqueue, hrooted, hall⟩ := ih st hcurr h hrest hrestN
      refine ⟨new, hvisited, hqueue, hrooted, fun w hw husable => ?_⟩
      rcases List.mem_cons.mp hw with rfl | hw
      · rw [hvisited]
        exact List.mem_append_left _ hv
      · exact hall w hw husable
    by_cases husable : usable curr v = true
    · have hstep : discover usable curr st v =
          ⟨st.queue ++ [v], st.visited ++ [v], st.parent.put v curr⟩ := by
        rw [discover, if_neg hv, if_pos husable]
      rw [hstep]
      obtain ⟨new, hvisited, hqueue, hrooted, hall⟩ := ih
        ⟨st.queue ++ [v], st.visited ++ [v], st.parent.put v curr⟩
        (List.mem_append_left _ hcurr)
        (h.concat hcurr hv (hN v List.mem_cons_self husable) (hns v List.mem_cons_self) husable)
        hrest hrestN
      dsimp only at hvisited hqueue
      refine ⟨v :: new, by rw [hvisited, List.append_assoc]; rfl,
        by rw [hqueue, List.append_assoc]; rfl, hrooted, fun w hw husable' => ?_⟩
      rcases List.mem_cons.mp hw with rfl | hw
      · rw [hvisited]
        exact List.mem_append_left _ (List.mem_append_right _ List.mem_cons_self)
      · exact hall w hw husable'
    · have hstep : discover usable curr st v = st := by
        rw [discover, if_neg hv, if_neg husable]
      rw [hstep]
      obtain ⟨new, hvisited, hqueue, hrooted, hall⟩ := ih st hcurr h hrest hrestN
      refine ⟨new, hvisited, hqueue, hrooted, fun w hw husable' => ?_⟩
      rcases List.mem_cons.mp hw with rfl | hw
      · exact absurd husable' husable
      · exact hall w hw husable'

/-- A search that has taken the nodes `popped` off the queue. -/
structure SearchingFor (neighbors : α → List α) (usable : α → α → Bool) (s target : α)
    (N : Finset α) (popped : List α) (st : SearchState α) : Prop extends
    Rooted neighbors usable s N st.visited st.parent where
  visited_eq : st.visited = popped ++ st.queue
  closed : ∀ u ∈ popped, ∀ v ∈ neighbors u, usable u v = true → v ∈ st.visited
  target_notMem : target ∉ popped

/-- What a search returns: on failure, a closed set of nodes without the target; on success, parents
that lead back to the source along usable pairs. -/
def SearchResult (neighbors : α → List α) (usable : α → α → Bool) (s target : α) (N : Finset α) :
    Option (Table α α) → Prop
  | none => ∃ T ⊆ N, s ∈ T ∧ target ∉ T ∧
      ∀ u ∈ T, ∀ v ∈ neighbors u, usable u v = true → v ∈ T
  | some parent => ∀ fuel, N.card ≤ fuel → ∃ es, walkBack parent s fuel target = some es ∧
      Backtrace s target es ∧ es.Nodup ∧ ∀ e ∈ es, e.1 ∈ N ∧ e.2 ∈ N ∧ e.1 ≠ e.2 ∧
        e.2 ∈ neighbors e.1 ∧ usable e.1 e.2 = true

lemma Rooted.length_le {visited : List α} {parent : Table α α}
    (h : Rooted neighbors usable s N visited parent) : visited.length ≤ N.card := by
  rw [← List.toFinset_card_of_nodup h.nodup]
  exact Finset.card_le_card fun v hv => h.within v (List.mem_toFinset.mp hv)

/-- With more fuel than there are nodes left, the search ends. -/
theorem SearchingFor.run {popped : List α} {st : SearchState α}
    (h : SearchingFor neighbors usable s target N popped st) (hs : s ∈ st.visited)
    (hN : ∀ u ∈ N, ∀ v ∈ neighbors u, usable u v = true → v ∈ N) {fuel : ℕ}
    (hfuel : N.card < fuel + popped.length) :
    ∃ r, searchFor neighbors usable target fuel st = some r ∧
      SearchResult neighbors usable s target N r := by
  induction fuel generalizing popped st with
  | zero =>
    have hlen := h.length_le
    rw [h.visited_eq, List.length_append] at hlen
    omega
  | succ fuel ih =>
    rw [searchFor]
    cases hqueue : st.queue with
    | nil =>
      have hvisited : st.visited = popped := by rw [h.visited_eq, hqueue, List.append_nil]
      refine ⟨none, rfl, popped.toFinset, ?_, ?_, ?_, ?_⟩
      · exact fun v hv => h.within v (hvisited ▸ List.mem_toFinset.mp hv)
      · exact List.mem_toFinset.mpr (hvisited ▸ hs)
      · exact fun hin => h.target_notMem (List.mem_toFinset.mp hin)
      · intro u hu v hv husable
        exact List.mem_toFinset.mpr (hvisited ▸ h.closed u (List.mem_toFinset.mp hu) v hv husable)
    | cons curr queue =>
      have hsplit : st.visited = popped ++ curr :: queue := by rw [h.visited_eq, hqueue]
      dsimp only
      split
      next heq =>
        subst heq
        refine ⟨_, rfl, fun fuel' hfuel' => ?_⟩
        have hlen := h.length_le
        rw [hsplit, List.length_append, List.length_cons] at hlen
        obtain ⟨es, hwalk, hback, hnodup, hall⟩ := h.toRooted.exists_walkBack hsplit
          (show popped.length < fuel' by omega)
        refine ⟨es, hwalk, hback, hnodup, fun e he => ?_⟩
        obtain ⟨h₁, h₂, hrest⟩ := hall e he
        refine ⟨h.within _ ?_, h.within _ ?_, hrest⟩
        · rw [hsplit]
          exact List.mem_append_left _ h₁
        · rw [hsplit]
          rw [List.mem_append, List.mem_singleton] at h₂
          rcases h₂ with h₂ | h₂
          · exact List.mem_append_left _ h₂
          · exact List.mem_append_right _ (h₂ ▸ List.mem_cons_self)
      next hne =>
        have hcurr : curr ∈ st.visited := by
          rw [hsplit]
          exact List.mem_append_right _ List.mem_cons_self
        obtain ⟨new, hvisited, hqueue', hrooted, hall⟩ := foldl_discover
          { st with queue := queue } hcurr h.toRooted (fun v hv => hv)
          (hN curr (h.within curr hcurr))
        dsimp only at hvisited hqueue'
        have hnext : SearchingFor neighbors usable s target N (popped ++ [curr])
            ((neighbors curr).foldl (discover usable curr) { st with queue := queue }) := by
          refine ⟨hrooted, ?_, ?_, ?_⟩
          · rw [hvisited, hqueue', hsplit]
            simp
          · intro u hu v hv husable
            rcases List.mem_append.mp hu with hu | hu
            · rw [hvisited]
              exact List.mem_append_left _ (h.closed u hu v hv husable)
            · obtain rfl := List.mem_singleton.mp hu
              exact hall v hv husable
          · rw [List.mem_append, List.mem_singleton]
            rintro (hin | rfl)
            · exact h.target_notMem hin
            · exact hne rfl
        refine ih hnext ?_ ?_
        · rw [hvisited]
          exact List.mem_append_left _ hs
        · rw [List.length_append, List.length_singleton]
          omega

variable (neighbors usable target) in
theorem searchFor_spec (hs : s ∈ N)
    (hN : ∀ u ∈ N, ∀ v ∈ neighbors u, usable u v = true → v ∈ N) {fuel : ℕ}
    (hfuel : N.card < fuel) :
    ∃ r, searchFor neighbors usable target fuel ⟨[s], [s], .empty⟩ = some r ∧
      SearchResult neighbors usable s target N r := by
  have hstart : SearchingFor neighbors usable s target N [] ⟨[s], [s], .empty⟩ :=
    ⟨Rooted.start hs, rfl, by simp, by simp⟩
  exact hstart.run List.mem_cons_self hN (by simpa using hfuel)
