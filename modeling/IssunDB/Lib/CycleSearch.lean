import IssunDB.Lib.Frames
import IssunDB.Lib.Loop

/-!
# Finding a cycle depth first

A node is white before it is visited, gray while it has a frame and black afterwards. An edge to a
gray node closes a cycle. A black node only has edges to black nodes and lies on no cycle, so a
search that finishes without such an edge has seen a graph without cycles (`exists_detectCycle`).
-/

namespace CycleSearch

open List Option

/-- How far the search of a node is. -/
inductive Color
  | white
  | gray
  | black
  deriving DecidableEq

/-- The colors, the stack of frames from the top, and whether a cycle was found. -/
structure State where
  colors : List Color
  stack : List (ℕ × List ℕ)
  found : Bool

def enter (row : ℕ → List ℕ) (v : ℕ) (st : State) : State :=
  { st with colors := st.colors.set v .gray, stack := (v, row v) :: st.stack }

/-- One round. There is none after a cycle was found. -/
def step (row : ℕ → List ℕ) (st : State) : Option State :=
  if st.found then none
  else
    match st.stack with
    | [] => none
    | (u, []) :: stack => some { st with colors := st.colors.set u .black, stack }
    | (u, v :: vs) :: stack =>
      match st.colors.getD v .white with
      | .gray => some { st with stack := (u, vs) :: stack, found := true }
      | .white => some (enter row v { st with stack := (u, vs) :: stack })
      | .black => some { st with stack := (u, vs) :: stack }

def searchFrom (row : ℕ → List ℕ) (fuel : ℕ) (st : State) (root : ℕ) : Option State :=
  if st.found ∨ st.colors.getD root .white ≠ .white then some st
  else runSteps (step row) fuel (enter row root st)

/-- Whether the graph of the nodes below `n` has a cycle. -/
def detectCycle (n : ℕ) (row : ℕ → List ℕ) (fuel : ℕ) : Option Bool :=
  ((List.range n).foldlM (searchFrom row fuel) ⟨List.replicate n .white, [], false⟩).map (·.found)

/-! ## The invariant -/

namespace State

variable (st : State)

def color (v : ℕ) : Color := st.colors.getD v .white

def nodes : List ℕ := st.stack.map Prod.fst

end State

abbrev OnCycle (row : ℕ → List ℕ) (x : ℕ) : Prop := Relation.TransGen (fun a b => b ∈ row a) x x

/-- The invariant of a search that has found no cycle yet. -/
structure Inv (n : ℕ) (row : ℕ → List ℕ) (st : State) : Prop where
  length : st.colors.length = n
  gray : ∀ v, st.color v = .gray ↔ v ∈ st.nodes
  nodup : st.nodes.Nodup
  suffix : ∀ f ∈ st.stack, ∃ pre, row f.1 = pre ++ f.2
  /-- A frame reaches the frames above it. -/
  path : st.nodes.Pairwise fun above below => Reaches row below above
  /-- An edge that has been looked at leads to a black node or to a frame above. -/
  scanned : ∀ x ∈ st.nodes, ∀ y, Scanned row st.stack x y →
    st.color y = .black ∨ [y, x].Sublist st.nodes
  closed : ∀ x, st.color x = .black → ∀ y ∈ row x, st.color y = .black
  acyclic : ∀ x, st.color x = .black → ¬OnCycle row x

section

variable {n : ℕ} {row : ℕ → List ℕ} {st : State} {u v : ℕ} {vs : List ℕ}
  {frames : List (ℕ × List ℕ)}

lemma inv_start (n : ℕ) (row : ℕ → List ℕ) :
    Inv n row ⟨List.replicate n .white, [], false⟩ := by
  have hwhite : ∀ v, (List.replicate n Color.white).getD v .white = .white :=
    List.getD_replicate_self n Color.white
  constructor
  · exact length_replicate
  · intro v
    rw [State.color, hwhite]
    exact iff_of_false Color.noConfusion not_mem_nil
  · exact nodup_nil
  · exact fun f hf => absurd hf not_mem_nil
  · exact List.Pairwise.nil
  · exact fun x hx => absurd hx not_mem_nil
  · intro x hx
    rw [State.color, hwhite] at hx
    cases hx
  · intro x hx
    rw [State.color, hwhite] at hx
    cases hx

namespace Inv

lemma lt_of_visited (h : Inv n row st) (hv : st.color v ≠ .white) : v < n := by
  by_contra hge
  rw [State.color, getD_eq_default _ _ (by rw [h.length]; omega)] at hv
  exact hv rfl

lemma nodes_eq (hstack : st.stack = (u, vs) :: frames) : st.nodes = u :: frames.map Prod.fst := by
  rw [State.nodes, hstack]
  rfl

lemma notMem_frames (h : Inv n row st) (hstack : st.stack = (u, vs) :: frames) :
    u ∉ frames.map Prod.fst := by
  have hnodup := h.nodup
  rw [nodes_eq hstack] at hnodup
  exact (nodup_cons.mp hnodup).1

/-- Going on past a black node. -/
theorem advance (h : Inv n row st) (hstack : st.stack = (u, v :: vs) :: frames)
    (hv : st.color v = .black) : Inv n row { st with stack := (u, vs) :: frames } := by
  have hnodes : ({ st with stack := (u, vs) :: frames } : State).nodes = st.nodes := by
    rw [nodes_eq hstack]
    rfl
  have hrow : ∃ pre, row u = pre ++ v :: vs := h.suffix (u, v :: vs) (by
    rw [hstack]
    exact mem_cons_self)
  refine ⟨h.length, ?_, ?_, ?_, ?_, ?_, h.closed, h.acyclic⟩
  · rw [hnodes]
    exact h.gray
  · rw [hnodes]
    exact h.nodup
  · rintro f (_ | ⟨_, hf⟩)
    · obtain ⟨pre, hpre⟩ := hrow
      exact ⟨pre ++ [v], by rw [hpre, append_assoc, singleton_append]⟩
    · exact h.suffix f (by
        rw [hstack]
        exact mem_cons_of_mem _ hf)
  · rw [hnodes]
    exact h.path
  · rw [hnodes]
    intro x hx y hxy
    rcases (scanned_advance (h.notMem_frames hstack) hrow).mp hxy with hxy | ⟨rfl, rfl⟩
    · exact h.scanned x hx y (hstack ▸ hxy)
    · exact Or.inl hv

/-- Entering a white node, from the top frame or with no frame. `stack` is the stack before it is
pushed. -/
theorem enter (h : Inv n row st) (hv : v < n) (hwhite : st.color v = .white)
    {stack : List (ℕ × List ℕ)} (hnodes : stack.map Prod.fst = st.nodes)
    (hsuffix : ∀ f ∈ stack, ∃ pre, row f.1 = pre ++ f.2)
    (hscanned : ∀ x y, Scanned row stack x y → Scanned row st.stack x y ∨ (y = v ∧ x ∈ st.nodes))
    (hreach : ∀ g ∈ st.nodes, Reaches row g v) :
    Inv n row (CycleSearch.enter row v { st with stack }) := by
  generalize hst' : CycleSearch.enter row v { st with stack } = st'
  have hcolor : ∀ w, st'.color w = if w = v then .gray else st.color w := by
    intro w
    rw [← hst']
    exact List.getD_set (by rwa [h.length]) _ _ _
  have hstack : st'.stack = (v, row v) :: stack := by
    rw [← hst']
    rfl
  have hnodes' : st'.nodes = v :: st.nodes := by
    rw [nodes_eq hstack, hnodes]
  have hfresh : v ∉ st.nodes := by
    rw [← h.gray, hwhite]
    exact Color.noConfusion
  have hblack : ∀ w, st'.color w = .black ↔ st.color w = .black := by
    intro w
    rw [hcolor]
    split
    next heq =>
      rw [heq, hwhite]
      exact iff_of_false Color.noConfusion Color.noConfusion
    next => rfl
  constructor
  · rw [← hst']
    exact (List.length_set ..).trans h.length
  · intro w
    rw [hcolor, hnodes', mem_cons]
    by_cases hw : w = v
    · simp [hw]
    · rw [if_neg hw, h.gray]
      simp [hw]
  · rw [hnodes']
    exact nodup_cons.mpr ⟨hfresh, h.nodup⟩
  · rw [hstack]
    rintro f (_ | ⟨_, hf⟩)
    · exact ⟨[], rfl⟩
    · exact hsuffix f hf
  · rw [hnodes']
    exact pairwise_cons.mpr ⟨hreach, h.path⟩
  · rw [hnodes', hstack]
    intro x hx y hxy
    rw [scanned_push (by rwa [hnodes])] at hxy
    rw [hblack]
    have hold := (mem_cons.mp hx).resolve_left hxy.1
    rcases hscanned x y hxy.2 with hxy | ⟨rfl, -⟩
    · exact (h.scanned x hold y hxy).imp_right fun hsub => hsub.cons v
    · exact Or.inr ((singleton_sublist.mpr hold).cons_cons y)
  · intro x hx y hy
    rw [hblack] at hx ⊢
    exact h.closed x hx y hy
  · intro x hx
    rw [hblack] at hx
    exact h.acyclic x hx

/-- A finished node is black, and all its edges lead to black nodes. -/
theorem finish (h : Inv n row st) (hstack : st.stack = (u, []) :: frames) :
    Inv n row { st with colors := st.colors.set u .black, stack := frames } := by
  generalize hst' : ({ st with colors := st.colors.set u .black, stack := frames } : State) = st'
  have hnodes := nodes_eq hstack
  have hu : st.color u = .gray := by
    rw [h.gray, hnodes]
    exact mem_cons_self
  have hlt : u < n := h.lt_of_visited (by
    rw [hu]
    exact Color.noConfusion)
  have hcolor : ∀ w, st'.color w = if w = u then .black else st.color w := by
    intro w
    rw [← hst']
    exact List.getD_set (by rwa [h.length]) _ _ _
  have hstack' : st'.stack = frames := by rw [← hst']
  have hnodes' : st'.nodes = frames.map Prod.fst := by rw [State.nodes, hstack']
  have hnot := h.notMem_frames hstack
  have hblack : ∀ w, st.color w = .black → st'.color w = .black := by
    intro w hw
    rw [hcolor]
    split
    · rfl
    · exact hw
  -- No frame is above the top one.
  have htop : ∀ y, ¬[y, u].Sublist st.nodes := by
    intro y hsub
    rw [hnodes, sublist_cons_iff] at hsub
    rcases hsub with hsub | ⟨r, heq, hsub⟩
    · exact hnot (hsub.subset (by simp))
    · obtain ⟨-, rfl⟩ := List.cons.inj heq
      exact hnot (singleton_sublist.mp hsub)
  have hrow : ∀ y ∈ row u, st.color y = .black := by
    intro y hy
    have hscanned : Scanned row st.stack u y := by
      rw [hstack, scanned_pop]
      exact scanned_of_notMem hnot hy
    exact (h.scanned u (by
      rw [hnodes]
      exact mem_cons_self) y hscanned).resolve_right (htop y)
  have hclosed : ∀ x, st.color x = .black → ∀ y, Reaches row x y → st.color y = .black := by
    intro x hx y hxy
    induction hxy with
    | refl => exact hx
    | tail _ hedge ih => exact h.closed _ ih _ hedge
  constructor
  · rw [← hst']
    exact (List.length_set ..).trans h.length
  · intro w
    rw [hcolor, hnodes']
    have hgray := h.gray w
    rw [hnodes, mem_cons] at hgray
    by_cases hw : w = u
    · subst hw
      rw [if_pos rfl]
      exact iff_of_false Color.noConfusion hnot
    · rw [if_neg hw, hgray]
      simp [hw]
  · rw [hnodes']
    have hnodup := h.nodup
    rw [hnodes] at hnodup
    exact (nodup_cons.mp hnodup).2
  · intro f hf
    rw [hstack'] at hf
    apply h.suffix f
    rw [hstack]
    exact mem_cons_of_mem _ hf
  · rw [hnodes']
    have hpath := h.path
    rw [hnodes] at hpath
    exact (pairwise_cons.mp hpath).2
  · rw [hnodes', hstack']
    intro x hx y hxy
    have hxNode : x ∈ st.nodes := by
      rw [hnodes]
      exact mem_cons_of_mem _ hx
    rcases h.scanned x hxNode y (by rwa [hstack, scanned_pop]) with hy | hsub
    · exact Or.inl (hblack y hy)
    · rw [hnodes, sublist_cons_iff] at hsub
      rcases hsub with hsub | ⟨r, heq, -⟩
      · exact Or.inr hsub
      · left
        rw [hcolor, if_pos (List.cons.inj heq).1]
  · intro x hx y hy
    rw [hcolor] at hx
    split at hx
    next heq => exact hblack y (hrow y (heq ▸ hy))
    next => exact hblack y (h.closed x hx y hy)
  · intro x hx hcycle
    rw [hcolor] at hx
    split at hx
    next heq =>
      subst heq
      obtain ⟨y, hy, hyx⟩ := Relation.TransGen.head'_iff.mp hcycle
      have hblackX := hclosed y (hrow y hy) x hyx
      rw [hu] at hblackX
      cases hblackX
    next => exact h.acyclic x hx hcycle

/-- An edge to a gray node closes a cycle. -/
theorem onCycle (h : Inv n row st) (hstack : st.stack = (u, v :: vs) :: frames)
    (hv : st.color v = .gray) : OnCycle row v := by
  have hnodes := nodes_eq hstack
  obtain ⟨pre, hpre⟩ := h.suffix (u, v :: vs) (by
    rw [hstack]
    exact mem_cons_self)
  have hedge : v ∈ row u := by
    rw [hpre]
    exact mem_append_right _ mem_cons_self
  have hmem := (h.gray v).mp hv
  have hpath := h.path
  rw [hnodes] at hmem hpath
  have hvu : Reaches row v u := by
    rcases mem_cons.mp hmem with rfl | hmem
    · exact .refl
    · exact (pairwise_cons.mp hpath).1 v hmem
  exact .tail' hvu hedge

end Inv

/-! ## Runs -/

/-- The white nodes. -/
def State.unvisited (n : ℕ) (st : State) : Finset ℕ :=
  (Finset.range n).filter fun v => st.color v = .white

/-- What a round leaves: the invariant, or a node on a cycle. -/
def Sound (n : ℕ) (row : ℕ → List ℕ) (st : State) : Prop :=
  if st.found then ∃ x < n, OnCycle row x else Inv n row st

lemma Inv.sound (h : Inv n row st) (hfound : st.found = false) : Sound n row st := by
  rw [Sound, if_neg (by simp [hfound])]
  exact h

lemma Sound.inv (h : Sound n row st) (hfound : st.found = false) : Inv n row st := by
  rw [Sound, if_neg (by simp [hfound])] at h
  exact h

lemma color_enter (h : Inv n row st) (hv : v < n) (stack : List (ℕ × List ℕ)) (w : ℕ) :
    (enter row v { st with stack }).color w = if w = v then .gray else st.color w :=
  List.getD_set (by rwa [h.length]) _ _ _

variable (hrow : ∀ u < n, ∀ v ∈ row u, v < n)

include hrow

/-- One round keeps what is visited, and leaves less to do. -/
theorem Inv.step {st' : State} (h : Inv n row st) (hfound : st.found = false)
    (hstep : CycleSearch.step row st = some st') :
    Sound n row st' ∧ (∀ v, st.color v ≠ .white → st'.color v ≠ .white) ∧
      workLeft row (st'.unvisited n) st'.stack < workLeft row (st.unvisited n) st.stack := by
  rw [CycleSearch.step, if_neg (by simp [hfound])] at hstep
  split at hstep
  next => cases hstep
  next u stack hstack =>
    obtain rfl := some.inj hstep
    have hkept := h.finish hstack
    have hgray : st.color u = .gray := by
      rw [h.gray, Inv.nodes_eq hstack]
      exact mem_cons_self
    have hlt : u < n := h.lt_of_visited (by
      rw [hgray]
      exact Color.noConfusion)
    have hcolor : ∀ w, ({ st with colors := st.colors.set u .black, stack } : State).color w =
        if w = u then .black else st.color w := fun w => List.getD_set (by rwa [h.length]) _ _ _
    have hwhite : ∀ w, ({ st with colors := st.colors.set u .black, stack } : State).color w =
        .white ↔ st.color w = .white := by
      intro w
      rw [hcolor]
      split
      next heq =>
        rw [heq, hgray]
        exact iff_of_false Color.noConfusion Color.noConfusion
      next => rfl
    refine ⟨?_, fun w hw hw' => hw ((hwhite w).mp hw'), ?_⟩
    · exact hkept.sound hfound
    · have hunvisited : ({ st with colors := st.colors.set u .black, stack } : State).unvisited n =
          st.unvisited n := Finset.filter_congr fun w _ => hwhite w
      rw [hunvisited, hstack]
      exact workLeft_pop row _ _ _
  next u v vs stack hstack =>
    have hless : workLeft row (st.unvisited n) ((u, vs) :: stack) <
        workLeft row (st.unvisited n) st.stack := by
      rw [hstack]
      exact workLeft_advance row _ u v vs stack
    have hu : u ∈ st.nodes := by
      rw [Inv.nodes_eq hstack]
      exact mem_cons_self
    have hpre : ∃ pre, row u = pre ++ v :: vs := h.suffix (u, v :: vs) (by
      rw [hstack]
      exact mem_cons_self)
    have hedge : v ∈ row u := by
      obtain ⟨pre, hpre⟩ := hpre
      rw [hpre]
      exact mem_append_right _ mem_cons_self
    have hv : v < n := by
      refine hrow u (h.lt_of_visited ?_) v hedge
      rw [(h.gray u).mpr hu]
      exact Color.noConfusion
    split at hstep
    next hgray =>
      obtain rfl := some.inj hstep
      refine ⟨?_, fun w hw => hw, hless⟩
      rw [Sound, if_pos rfl]
      exact ⟨v, hv, h.onCycle hstack hgray⟩
    next hwhite =>
      obtain rfl := some.inj hstep
      have hcolor := color_enter h hv ((u, vs) :: stack)
      refine ⟨?_, fun w hw => ?_, ?_⟩
      · have hnodes : ((u, vs) :: stack).map Prod.fst = st.nodes := (Inv.nodes_eq hstack).symm
        refine Inv.sound (h.enter hv hwhite hnodes ?_ ?_ ?_) hfound
        · rintro f (_ | ⟨_, hf⟩)
          · obtain ⟨pre, hpre⟩ := hpre
            exact ⟨pre ++ [v], by rw [hpre, append_assoc, singleton_append]⟩
          · exact h.suffix f (by
              rw [hstack]
              exact mem_cons_of_mem _ hf)
        · intro x y hxy
          rcases (scanned_advance (h.notMem_frames hstack) hpre).mp hxy with hxy | ⟨rfl, rfl⟩
          · exact Or.inl (hstack ▸ hxy)
          · exact Or.inr ⟨rfl, hu⟩
        · intro g hg
          have hpath := h.path
          rw [Inv.nodes_eq hstack] at hpath hg
          rcases mem_cons.mp hg with rfl | hg
          · exact .single hedge
          · exact ((pairwise_cons.mp hpath).1 g hg).tail hedge
      · rw [hcolor]
        split
        · exact Color.noConfusion
        · exact hw
      · have hunvisited :
            (CycleSearch.enter row v { st with stack := (u, vs) :: stack }).unvisited n =
            (st.unvisited n).erase v := by
          ext w
          rw [Finset.mem_erase, State.unvisited, State.unvisited, Finset.mem_filter,
            Finset.mem_filter, hcolor]
          by_cases hw : w = v
          · simp [hw]
          · simp [hw]
        rw [hunvisited]
        refine lt_trans (workLeft_push ?_ _) hless
        rw [State.unvisited, Finset.mem_filter, Finset.mem_range]
        exact ⟨hv, hwhite⟩
    next hblack =>
      obtain rfl := some.inj hstep
      exact ⟨(h.advance hstack hblack).sound hfound, fun w hw => hw, hless⟩

/-- The search from a root returns. It finds a cycle, or visits the root and finishes all it
visits. -/
theorem exists_searchFrom (h : Sound n row st) (hstack : st.found = false → st.stack = [])
    {root : ℕ} (hroot : root < n) :
    ∃ st', Returns (fun fuel => searchFrom row fuel st root) st' ∧ Sound n row st' ∧
      (st'.found = false → st'.stack = [] ∧ st'.color root ≠ .white ∧
        st.found = false ∧ ∀ v, st.color v ≠ .white → st'.color v ≠ .white) := by
  by_cases hskip : st.found ∨ st.colors.getD root .white ≠ .white
  · refine ⟨st, ⟨0, fun fuel _ => if_pos hskip⟩, h, fun hfound => ?_⟩
    exact ⟨hstack hfound, hskip.resolve_left (by simp [hfound]), hfound, fun _ hv => hv⟩
  obtain ⟨hfound, hwhite⟩ := not_or.mp hskip
  have hfound : st.found = false := by simpa using hfound
  have hwhite : st.color root = .white := not_not.mp hwhite
  replace h := h.inv hfound
  have hnil := hstack hfound
  have hsame : st = { st with stack := [] } := by rw [← hnil]
  have hnodes : st.nodes = [] := by
    rw [State.nodes, hnil]
    rfl
  have hstart : Inv n row (enter row root st) := by
    rw [hsame]
    refine h.enter hroot hwhite hnodes.symm (fun f hf => absurd hf not_mem_nil) ?_ ?_
    · intro x y hxy
      exact Or.inl (hnil ▸ hxy)
    · rw [hnodes]
      exact fun g hg => absurd hg not_mem_nil
  have hcolor : ∀ w, (enter row root st).color w = if w = root then .gray else st.color w := by
    rw [hsame]
    exact color_enter h hroot []
  let Kept (st' : State) : Prop := Sound n row st' ∧
    ∀ v, v = root ∨ st.color v ≠ .white → st'.color v ≠ .white
  obtain ⟨st', hsteps, hdone, hsound, hall⟩ := exists_stepsTo_of_measure Kept
    (fun st' => workLeft row (st'.unvisited n) st'.stack)
    (fun s t hs hst => by
      have hst : CycleSearch.step row s = some t := hst
      have hsfound : s.found = false := by
        by_contra htrue
        rw [CycleSearch.step, if_pos (by simpa using htrue)] at hst
        cases hst
      obtain ⟨hsound, hvis, hless⟩ := (Sound.inv hs.1 hsfound).step hrow hsfound hst
      exact ⟨⟨hsound, fun v hv => hvis v (hs.2 v hv)⟩, hless⟩)
    (show Kept (enter row root st) from ⟨hstart.sound hfound, fun v hv => by
      rw [hcolor]
      split
      next => exact Color.noConfusion
      next hne => exact hv.resolve_left hne⟩)
  refine ⟨st', ?_, hsound, fun hfound' => ⟨?_, hall root (Or.inl rfl), hfound,
    fun v hv => hall v (Or.inr hv)⟩⟩
  · obtain ⟨fuel₀, hrun⟩ := hsteps.returns hdone
    exact ⟨fuel₀, fun fuel hfuel => (if_neg hskip).trans (hrun fuel hfuel)⟩
  · rw [CycleSearch.step, if_neg (by simp [hfound'])] at hdone
    split at hdone
    next hnil => exact hnil
    next => cases hdone
    next => split at hdone <;> cases hdone

/-- **Cycle detection.** The search returns, and says whether a node lies on a cycle. -/
theorem exists_detectCycle :
    ∃ b, Returns (fun fuel => detectCycle n row fuel) b ∧ (b = true ↔ ∃ x < n, OnCycle row x) := by
  obtain ⟨st, hrun, hsound, hdone⟩ := exists_returns_foldlM
    (fun done st => Sound n row st ∧
      (st.found = false → st.stack = [] ∧ ∀ v ∈ done, st.color v ≠ .white))
    (f := fun fuel => searchFrom row fuel) (l := List.range n)
    (by
      rintro done root st hroot ⟨hsound, hdone⟩
      obtain ⟨st', hrun, hsound', hfinished⟩ :=
        exists_searchFrom hrow hsound (fun hf => (hdone hf).1) (mem_range.mp hroot)
      refine ⟨st', hrun, hsound', fun hfound => ?_⟩
      obtain ⟨hstack, hvisited, hbefore, hkeep⟩ := hfinished hfound
      refine ⟨hstack, fun v hv => ?_⟩
      rcases mem_append.mp hv with hv | hv
      · exact hkeep v ((hdone hbefore).2 v hv)
      · exact mem_singleton.mp hv ▸ hvisited)
    ⟨(inv_start n row).sound rfl,
      fun _ => ⟨rfl, fun v hv => absurd hv not_mem_nil⟩⟩
  refine ⟨st.found, hrun.map (·.found), ?_⟩
  cases hfound : st.found with
  | true =>
    rw [Sound, if_pos hfound] at hsound
    exact iff_of_true rfl hsound
  | false =>
    replace hsound := hsound.inv hfound
    obtain ⟨hstack, hvisited⟩ := hdone hfound
    refine iff_of_false Bool.false_ne_true ?_
    rintro ⟨x, hx, hcycle⟩
    -- Every node is black, for there is no frame.
    refine hsound.acyclic x ?_ hcycle
    cases hcolor : st.color x with
    | white => exact absurd hcolor (hvisited x (mem_range.mpr hx))
    | gray =>
      have hnode := (hsound.gray x).mp hcolor
      rw [State.nodes, hstack] at hnode
      exact absurd hnode not_mem_nil
    | black => rfl

end

end CycleSearch
