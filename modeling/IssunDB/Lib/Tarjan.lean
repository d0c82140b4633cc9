import IssunDB.Lib.Frames
import IssunDB.Lib.Loop

/-!
# Strongly connected components with an explicit stack

Tarjan's algorithm over the nodes below `n`, with the arrays and the two stacks of an iterative
program. The lowlink of a node is handed to the node beneath it when its frame is popped.

The invariant (`Inv`) speaks of the pending nodes, which are visited and have no component yet:

* a node of the search stack reaches every pending node numbered from it on, and every other
  pending node reaches one with a smaller number;
* an edge between pending nodes that has been looked at is accounted for in the lowlink of a frame
  above all frames numbered up to its start.

So the nodes popped with a node whose lowlink is its own number are a component
(`Inv.popped_iff`), and no edge leads from a finished component to an open one.
-/

namespace Tarjan

open List

/-- The arrays and stacks of the algorithm. Stacks are listed from the top. -/
structure State where
  /-- The number of the next node. -/
  index : ℕ
  indices : List (Option ℕ)
  lowlinks : List ℕ
  onStack : List Bool
  /-- The nodes awaiting assignment. -/
  pending : List ℕ
  /-- The component of each assigned node, in the order of assignment. -/
  components : List (ℕ × ℕ)
  nextCompId : ℕ
  /-- The frames: a node and what is left of its row. -/
  search : List (ℕ × List ℕ)

/-- Nothing visited. -/
def State.empty (n : ℕ) : State where
  index := 0
  indices := List.replicate n none
  lowlinks := List.replicate n 0
  onStack := List.replicate n false
  pending := []
  components := []
  nextCompId := 0
  search := []

/-- Number a node and push it on both stacks. -/
def visit (row : ℕ → List ℕ) (v : ℕ) (st : State) : State :=
  { st with
    index := st.index + 1
    indices := st.indices.set v (some st.index)
    lowlinks := st.lowlinks.set v st.index
    onStack := st.onStack.set v true
    pending := v :: st.pending
    search := (v, row v) :: st.search }

def lower (u k : ℕ) (st : State) : State :=
  { st with lowlinks := st.lowlinks.set u (min (st.lowlinks.getD u 0) k) }

/-- Pop the pending nodes down to `u` into a component. -/
def popComponent (u compId : ℕ) : List ℕ → State → State
  | [], st => { st with pending := [] }
  | w :: pending, st =>
    let st := { st with
      pending
      onStack := st.onStack.set w false
      components := st.components ++ [(w, compId)] }
    if w = u then st else popComponent u compId pending st

def close (u : ℕ) (st : State) : State :=
  popComponent u st.nextCompId st.pending { st with nextCompId := st.nextCompId + 1 }

/-- What becomes of a node whose row is finished, once its frame is popped. -/
def finish (u : ℕ) (st : State) : State :=
  let st :=
    match st.search with
    | [] => st
    | (parent, _) :: _ => lower parent (st.lowlinks.getD u 0) st
  if some (st.lowlinks.getD u 0) = st.indices.getD u none then close u st else st

/-- One round of the search. -/
def step (row : ℕ → List ℕ) (st : State) : Option State :=
  match st.search with
  | [] => none
  | (u, []) :: search => some (finish u { st with search })
  | (u, v :: vs) :: search =>
    let st := { st with search := (u, vs) :: search }
    match st.indices.getD v none with
    | none => some (visit row v st)
    | some iv => if st.onStack.getD v false then some (lower u iv st) else some st

def searchFrom (row : ℕ → List ℕ) (fuel : ℕ) (st : State) (root : ℕ) : Option State :=
  if (st.indices.getD root none).isSome then some st
  else runSteps (step row) fuel (visit row root st)

/-- The components of the nodes below `n`. -/
def stronglyConnected (n : ℕ) (row : ℕ → List ℕ) (fuel : ℕ) : Option (List (ℕ × ℕ)) :=
  ((List.range n).foldlM (searchFrom row fuel) (.empty n)).map (·.components)

lemma popComponent_append (u compId : ℕ) {popped : List ℕ} (hu : u ∉ popped) (rest : List ℕ)
    (st : State) : popComponent u compId (popped ++ u :: rest) st =
      { st with
        pending := rest
        onStack := (popped ++ [u]).foldl (fun flags w => flags.set w false) st.onStack
        components := st.components ++ (popped ++ [u]).map fun w => (w, compId) } := by
  induction popped generalizing st with
  | nil => exact if_pos rfl
  | cons w popped ih =>
    obtain ⟨hw, hu⟩ := not_or.mp (fun h => hu (mem_cons.mpr h))
    rw [cons_append, popComponent, if_neg (Ne.symm hw), ih hu, append_assoc]
    rfl

/-- Clearing flags. -/
theorem getD_foldl_set_false {ws : List ℕ} {flags : List Bool} (h : ∀ w ∈ ws, w < flags.length)
    (v : ℕ) : (ws.foldl (fun flags w => flags.set w false) flags).getD v false =
      if v ∈ ws then false else flags.getD v false := by
  induction ws generalizing flags with
  | nil => simp
  | cons w ws ih =>
    rw [foldl_cons, ih fun x hx => by
      rw [List.length_set]
      exact h x (mem_cons_of_mem _ hx), List.getD_set (h w mem_cons_self)]
    by_cases hw : v = w
    · simp [hw]
    · simp [hw]

lemma length_foldl_set (ws : List ℕ) (flags : List Bool) :
    (ws.foldl (fun flags w => flags.set w false) flags).length = flags.length := by
  induction ws generalizing flags with
  | nil => rfl
  | cons w ws ih => exact (ih _).trans (List.length_set ..)

/-! ## The invariant -/

namespace State

variable (st : State)

/-- The number of a node, `0` before it is visited. -/
def num (v : ℕ) : ℕ := (st.indices.getD v none).getD 0

def low (v : ℕ) : ℕ := st.lowlinks.getD v 0

def nodes : List ℕ := st.search.map Prod.fst

def Visited (v : ℕ) : Prop := (st.indices.getD v none).isSome = true

/-- The node has a component. -/
def Assigned (v : ℕ) : Prop := v ∈ st.components.map Prod.fst

end State

/-- The invariant of the search, between two rounds. -/
structure Inv (n : ℕ) (row : ℕ → List ℕ) (st : State) : Prop where
  length_indices : st.indices.length = n
  length_lowlinks : st.lowlinks.length = n
  length_onStack : st.onStack.length = n
  index_fresh : ∀ v i, st.indices.getD v none = some i → i < st.index
  onStack : ∀ v, st.onStack.getD v false = true ↔ v ∈ st.pending
  visited : ∀ v, st.Visited v ↔ v ∈ st.pending ∨ st.Assigned v
  disjoint : ∀ v ∈ st.pending, ¬st.Assigned v
  sorted : st.pending.Pairwise fun a b => st.num b < st.num a
  search : st.nodes.Sublist st.pending
  suffix : ∀ f ∈ st.search, ∃ pre, row f.1 = pre ++ f.2
  scanned : ∀ x, st.Visited x → ∀ y, Scanned row st.search x y → st.Visited y
  closed : ∀ x, st.Assigned x → ∀ y ∈ row x, st.Assigned y
  /-- The lowlink of a frame is its own number or a smaller one of a pending node it reaches. -/
  low : ∀ u ∈ st.nodes, st.low u ≤ st.num u ∧
    ∃ y ∈ st.pending, st.num y = st.low u ∧ Reaches row u y
  accounted : ∀ x ∈ st.pending, ∀ y ∈ st.pending, Scanned row st.search x y →
    ∃ f ∈ st.nodes, st.low f ≤ st.num y ∧ ∀ g ∈ st.nodes, st.num g ≤ st.num x → st.num g ≤ st.num f
  /-- The outermost frame is numbered before every pending node. -/
  bottom : ∀ x ∈ st.pending, ∃ g ∈ st.nodes, st.num g ≤ st.num x
  reach : ∀ g ∈ st.nodes, ∀ x ∈ st.pending, st.num g ≤ st.num x → Reaches row g x
  back : ∀ x ∈ st.pending, x ∉ st.nodes → ∃ y ∈ st.pending, st.num y < st.num x ∧ Reaches row x y
  components_nodup : (st.components.map Prod.fst).Nodup
  components_iff : ∀ p ∈ st.components, ∀ q ∈ st.components,
    p.2 = q.2 ↔ Reaches row p.1 q.1 ∧ Reaches row q.1 p.1
  components_le : ∀ p ∈ st.components, ∀ q ∈ st.components, q.1 ∈ row p.1 → q.2 ≤ p.2
  components_ids : ∀ c, c < st.nextCompId ↔ ∃ p ∈ st.components, p.2 = c

lemma inv_empty (n : ℕ) (row : ℕ → List ℕ) : Inv n row (.empty n) := by
  have hnone : ∀ v, (State.empty n).indices.getD v none = none := fun v =>
    List.getD_replicate_self n none v
  constructor
  · exact length_replicate
  · exact length_replicate
  · exact length_replicate
  · intro v i hv
    rw [hnone] at hv
    cases hv
  · intro v
    have hfalse : (State.empty n).onStack.getD v false = false := List.getD_replicate_self n false v
    rw [hfalse]
    exact iff_of_false Bool.false_ne_true not_mem_nil
  · intro v
    rw [State.Visited, hnone]
    exact iff_of_false Bool.false_ne_true fun h => h.elim not_mem_nil not_mem_nil
  · exact fun v hv => absurd hv not_mem_nil
  · exact List.Pairwise.nil
  · exact List.Sublist.refl []
  · exact fun f hf => absurd hf not_mem_nil
  · intro x hx
    rw [State.Visited, hnone] at hx
    cases hx
  · exact fun x hx => absurd hx not_mem_nil
  · exact fun u hu => absurd hu not_mem_nil
  · exact fun x hx => absurd hx not_mem_nil
  · exact fun x hx => absurd hx not_mem_nil
  · exact fun g hg => absurd hg not_mem_nil
  · exact fun x hx => absurd hx not_mem_nil
  · exact nodup_nil
  · exact fun p hp => absurd hp not_mem_nil
  · exact fun p hp => absurd hp not_mem_nil
  · intro c
    exact iff_of_false (Nat.not_lt_zero c) fun ⟨p, hp, _⟩ => not_mem_nil hp

section

variable {n : ℕ} {row : ℕ → List ℕ} {st : State} {u v : ℕ} {vs : List ℕ}
  {frames : List (ℕ × List ℕ)}

namespace Inv

lemma lt_of_visited (h : Inv n row st) (hv : st.Visited v) : v < n := by
  by_contra hge
  rw [State.Visited, getD_eq_default _ _ (by rw [h.length_indices]; omega)] at hv
  cases hv

lemma visited_of_pending (h : Inv n row st) (hv : v ∈ st.pending) : st.Visited v :=
  (h.visited v).mpr (Or.inl hv)

lemma pending_of_node (h : Inv n row st) (hv : v ∈ st.nodes) : v ∈ st.pending :=
  h.search.subset hv

lemma num_lt_index (h : Inv n row st) (hv : v ∈ st.pending) : st.num v < st.index := by
  obtain ⟨i, hi⟩ := Option.isSome_iff_exists.mp (h.visited_of_pending hv)
  rw [State.num, hi]
  exact h.index_fresh v i hi

/-- Numbers tell pending nodes apart. -/
theorem num_inj (h : Inv n row st) {x y : ℕ} (hx : x ∈ st.pending) (hy : y ∈ st.pending)
    (hxy : st.num x = st.num y) : x = y := by
  have hnodup : (st.pending.map st.num).Nodup := by
    rw [List.Nodup, pairwise_map]
    exact h.sorted.imp fun hab => hab.ne'
  exact inj_on_of_nodup_map hnodup hx hy hxy

lemma nodup_nodes (h : Inv n row st) : st.nodes.Nodup :=
  (h.sorted.sublist h.search).imp fun hab heq => absurd (heq ▸ hab) (lt_irrefl _)

lemma num_le_top (h : Inv n row st) (hsearch : st.search = (u, vs) :: frames) {g : ℕ}
    (hg : g ∈ st.nodes) : st.num g ≤ st.num u := by
  have hnodes : st.nodes = u :: frames.map Prod.fst := by
    rw [State.nodes, hsearch]
    rfl
  have hsorted := h.sorted.sublist h.search
  rw [hnodes] at hg hsorted
  rcases mem_cons.mp hg with rfl | hg
  · exact le_rfl
  · exact ((pairwise_cons.mp hsorted).1 g hg).le

lemma notMem_frames (h : Inv n row st) (hsearch : st.search = (u, vs) :: frames) :
    u ∉ frames.map Prod.fst := by
  have hnodup := h.nodup_nodes
  rw [State.nodes, hsearch] at hnodup
  exact (nodup_cons.mp hnodup).1

/-- The search goes on in a row past a visited node. A pending one may lower the lowlink. -/
theorem advance (h : Inv n row st) (hsearch : st.search = (u, v :: vs) :: frames)
    (hv : st.Visited v) {lowlinks : List ℕ} (hlen : lowlinks.length = n)
    (hother : ∀ w, w ≠ u → lowlinks.getD w 0 = st.low w) (hle : lowlinks.getD u 0 ≤ st.low u)
    (hpending : v ∈ st.pending → lowlinks.getD u 0 ≤ st.num v)
    (hfrom : lowlinks.getD u 0 = st.low u ∨ (v ∈ st.pending ∧ lowlinks.getD u 0 = st.num v)) :
    Inv n row { st with search := (u, vs) :: frames, lowlinks } := by
  have hnodes : ({ st with search := (u, vs) :: frames, lowlinks } : State).nodes = st.nodes := by
    rw [State.nodes, State.nodes, hsearch]
    rfl
  have hu : u ∈ st.nodes := by
    rw [State.nodes, hsearch]
    exact mem_cons_self
  have hrow : ∃ pre, row u = pre ++ v :: vs := h.suffix (u, v :: vs) (by
    rw [hsearch]
    exact mem_cons_self)
  have hscanned : ∀ x y, Scanned row ((u, vs) :: frames) x y ↔
      Scanned row st.search x y ∨ (x = u ∧ y = v) := by
    intro x y
    rw [scanned_advance (h.notMem_frames hsearch) hrow, hsearch]
  have hedge : v ∈ row u := by
    obtain ⟨pre, hpre⟩ := hrow
    rw [hpre]
    exact mem_append_right _ mem_cons_self
  have hlow : ∀ w, lowlinks.getD w 0 ≤ st.low w := by
    intro w
    by_cases hw : w = u
    · rw [hw]
      exact hle
    · exact (hother w hw).le
  refine ⟨h.length_indices, hlen, h.length_onStack, h.index_fresh, h.onStack, h.visited,
    h.disjoint, h.sorted, ?_, ?_, ?_, h.closed, ?_, ?_, ?_, ?_, ?_, h.components_nodup,
    h.components_iff, h.components_le, h.components_ids⟩
  · rw [hnodes]
    exact h.search
  · rintro f (_ | ⟨_, hf⟩)
    · obtain ⟨pre, hpre⟩ := hrow
      exact ⟨pre ++ [v], by rw [hpre, append_assoc, singleton_append]⟩
    · exact h.suffix f (by
        rw [hsearch]
        exact mem_cons_of_mem _ hf)
  · intro x hx y hxy
    rcases (hscanned x y).mp hxy with hxy | ⟨-, rfl⟩
    · exact h.scanned x hx y hxy
    · exact hv
  · intro w hw
    rw [hnodes] at hw
    obtain ⟨hlowNum, y, hy, hnum, hreach⟩ := h.low w hw
    refine ⟨(hlow w).trans hlowNum, ?_⟩
    show ∃ y ∈ st.pending, st.num y = lowlinks.getD w 0 ∧ _
    by_cases hwu : w = u
    · subst hwu
      rcases hfrom with hsame | ⟨hmem, hnew⟩
      · exact ⟨y, hy, hnum.trans hsame.symm, hreach⟩
      · exact ⟨v, hmem, hnew.symm, .single hedge⟩
    · exact ⟨y, hy, hnum.trans (hother w hwu).symm, hreach⟩
  · intro x hx y hy hxy
    rw [hnodes]
    rcases (hscanned x y).mp hxy with hxy | ⟨rfl, rfl⟩
    · obtain ⟨f, hf, hlowf, hall⟩ := h.accounted x hx y hy hxy
      exact ⟨f, hf, (hlow f).trans hlowf, hall⟩
    · exact ⟨x, hu, hpending hy, fun g _ hle => hle⟩
  · rw [hnodes]
    exact h.bottom
  · rw [hnodes]
    exact h.reach
  · rw [hnodes]
    exact h.back

section Visit

variable (search : List (ℕ × List ℕ))

lemma indices_visit (h : Inv n row st) (hv : v < n) (w : ℕ) :
    (Tarjan.visit row v { st with search }).indices.getD w none =
      if w = v then some st.index else st.indices.getD w none :=
  List.getD_set (by rwa [h.length_indices]) _ _ _

lemma num_visit (h : Inv n row st) (hv : v < n) (w : ℕ) :
    (Tarjan.visit row v { st with search }).num w = if w = v then st.index else st.num w := by
  rw [State.num, h.indices_visit search hv]
  split <;> rfl

lemma low_visit (h : Inv n row st) (hv : v < n) (w : ℕ) :
    (Tarjan.visit row v { st with search }).low w = if w = v then st.index else st.low w :=
  List.getD_set (by rwa [h.length_lowlinks]) _ _ _

lemma visited_visit (h : Inv n row st) (hv : v < n) (w : ℕ) :
    (Tarjan.visit row v { st with search }).Visited w ↔ w = v ∨ st.Visited w := by
  rw [State.Visited, h.indices_visit search hv]
  by_cases hw : w = v
  · simp [hw]
  · simp [hw, State.Visited]

lemma num_visit_of_pending (h : Inv n row st) (hv : v < n) (hnew : ¬st.Visited v) {w : ℕ}
    (hw : w ∈ st.pending) : (Tarjan.visit row v { st with search }).num w = st.num w := by
  have hne : w ≠ v := fun heq => hnew (heq ▸ h.visited_of_pending hw)
  rw [h.num_visit search hv, if_neg hne]

lemma num_visit_of_node (h : Inv n row st) (hv : v < n) (hnew : ¬st.Visited v) {w : ℕ}
    (hw : w ∈ st.nodes) : (Tarjan.visit row v { st with search }).num w = st.num w :=
  h.num_visit_of_pending search hv hnew (h.pending_of_node hw)

lemma low_visit_of_node (h : Inv n row st) (hv : v < n) (hnew : ¬st.Visited v) {w : ℕ}
    (hw : w ∈ st.nodes) : (Tarjan.visit row v { st with search }).low w = st.low w := by
  have hne : w ≠ v := fun heq => hnew (heq ▸ h.visited_of_pending (h.pending_of_node hw))
  rw [h.low_visit search hv, if_neg hne]

variable {search} in
lemma nodes_visit (row : ℕ → List ℕ) (v : ℕ) (hnodes : search.map Prod.fst = st.nodes) :
    (Tarjan.visit row v { st with search }).nodes = v :: st.nodes := by
  show v :: search.map Prod.fst = v :: st.nodes
  rw [hnodes]

/-- An edge to a new node comes from the frame that was on top, the others are accounted for as
before. -/
theorem accounted_visit (h : Inv n row st) (hv : v < n) (hnew : ¬st.Visited v) {x y : ℕ}
    (hx : x ∈ st.pending) (hy : y ∈ v :: st.pending) (hxy : Scanned row st.search x y ∨
      (y = v ∧ x ∈ st.nodes ∧ ∀ g ∈ st.nodes, st.num g ≤ st.num x)) :
    let st' := Tarjan.visit row v { st with search }
    ∃ f ∈ v :: st.nodes, st'.low f ≤ st'.num y ∧
      ∀ g ∈ v :: st.nodes, st'.num g ≤ st'.num x → st'.num g ≤ st'.num f := by
  intro st'
  have hbelow : ∀ f ∈ st.nodes, (∀ g ∈ st.nodes, st.num g ≤ st.num x → st.num g ≤ st.num f) →
      ∀ g ∈ v :: st.nodes, st'.num g ≤ st'.num x → st'.num g ≤ st'.num f := by
    rintro f hf hall g (_ | ⟨_, hg⟩) hle
    · rw [h.num_visit_of_pending search hv hnew hx, h.num_visit search hv, if_pos rfl] at hle
      exact absurd (h.num_lt_index hx) (not_lt.mpr hle)
    · rw [h.num_visit_of_pending search hv hnew hx, h.num_visit_of_node search hv hnew hg] at hle
      rw [h.num_visit_of_node search hv hnew hf, h.num_visit_of_node search hv hnew hg]
      exact hall g hg hle
  rcases hxy with hxy | ⟨rfl, hxNode, htop⟩
  · have hyv : y ≠ v := fun heq => hnew (heq ▸ h.scanned x (h.visited_of_pending hx) y hxy)
    have hyOld := (mem_cons.mp hy).resolve_left hyv
    obtain ⟨f, hf, hlow, hall⟩ := h.accounted x hx y hyOld hxy
    refine ⟨f, mem_cons_of_mem _ hf, ?_, hbelow f hf hall⟩
    rw [h.low_visit_of_node search hv hnew hf, h.num_visit_of_pending search hv hnew hyOld]
    exact hlow
  · refine ⟨x, mem_cons_of_mem _ hxNode, ?_, hbelow x hxNode fun g hg _ => htop g hg⟩
    rw [h.low_visit_of_node search hv hnew hxNode, h.num_visit search hv, if_pos rfl]
    exact (h.low x hxNode).1.trans (h.num_lt_index hx).le

variable {search}

/-- A node is visited from the top frame, or from the empty search stack. `search` is the search
stack before it is pushed. -/
theorem visit (h : Inv n row st) (hv : v < n) (hnew : ¬st.Visited v)
    (hnodes : search.map Prod.fst = st.nodes)
    (hsuffix : ∀ f ∈ search, ∃ pre, row f.1 = pre ++ f.2)
    (hscanned : ∀ x y, Scanned row search x y →
      Scanned row st.search x y ∨ (y = v ∧ x ∈ st.nodes ∧ ∀ g ∈ st.nodes, st.num g ≤ st.num x))
    (hreach : ∀ g ∈ st.nodes, Reaches row g v) :
    Inv n row (Tarjan.visit row v { st with search }) := by
  have hfresh : v ∉ st.pending := fun hmem => hnew (h.visited_of_pending hmem)
  have hunassigned : ¬st.Assigned v := fun hmem => hnew ((h.visited v).mpr (Or.inr hmem))
  have hnotNode : v ∉ st.nodes := fun hmem => hfresh (h.pending_of_node hmem)
  have hnodes' := nodes_visit row v hnodes
  have hnumV := (h.num_visit search hv v).trans (if_pos rfl)
  have hsc : ∀ x y, Scanned row ((v, row v) :: search) x y → x ≠ v ∧ (Scanned row st.search x y ∨
      (y = v ∧ x ∈ st.nodes ∧ ∀ g ∈ st.nodes, st.num g ≤ st.num x)) := by
    intro x y hxy
    rw [scanned_push (by rwa [hnodes])] at hxy
    exact ⟨hxy.1, hscanned x y hxy.2⟩
  constructor
  · exact (List.length_set ..).trans h.length_indices
  · exact (List.length_set ..).trans h.length_lowlinks
  · exact (List.length_set ..).trans h.length_onStack
  · intro w i hw
    show i < st.index + 1
    rw [h.indices_visit search hv] at hw
    split at hw
    next =>
      obtain rfl := Option.some.inj hw
      exact Nat.lt_succ_self _
    next => exact (h.index_fresh w i hw).trans (Nat.lt_succ_self _)
  · intro w
    have honStack : (Tarjan.visit row v { st with search }).onStack.getD w false =
        if w = v then true else st.onStack.getD w false :=
      List.getD_set (by rwa [h.length_onStack]) _ _ _
    show _ ↔ w ∈ v :: st.pending
    rw [honStack, mem_cons]
    by_cases hw : w = v
    · simp [hw]
    · rw [if_neg hw, h.onStack]
      simp [hw]
  · intro w
    show _ ↔ w ∈ v :: st.pending ∨ st.Assigned w
    rw [h.visited_visit search hv, mem_cons, h.visited, or_assoc]
  · rintro w (_ | ⟨_, hw⟩)
    · exact hunassigned
    · exact h.disjoint w hw
  · refine pairwise_cons.mpr ⟨fun w hw => ?_, ?_⟩
    · rw [hnumV, h.num_visit_of_pending search hv hnew hw]
      exact h.num_lt_index hw
    · refine h.sorted.imp_of_mem fun ha hb hab => ?_
      rwa [h.num_visit_of_pending search hv hnew ha, h.num_visit_of_pending search hv hnew hb]
  · rw [hnodes']
    exact h.search.cons_cons v
  · rintro f (_ | ⟨_, hf⟩)
    · exact ⟨[], rfl⟩
    · exact hsuffix f hf
  · intro x hx y hxy
    obtain ⟨hxv, hxy⟩ := hsc x y hxy
    rw [h.visited_visit search hv] at hx ⊢
    rcases hxy with hxy | ⟨rfl, -⟩
    · exact Or.inr (h.scanned x (hx.resolve_left hxv) y hxy)
    · exact Or.inl rfl
  · exact h.closed
  · rw [hnodes']
    rintro w (_ | ⟨_, hw⟩)
    · rw [h.low_visit search hv, if_pos rfl, hnumV]
      exact ⟨le_rfl, v, mem_cons_self, hnumV, .refl⟩
    · obtain ⟨hle, y, hy, hynum, hwy⟩ := h.low w hw
      rw [h.low_visit_of_node search hv hnew hw, h.num_visit_of_node search hv hnew hw]
      exact ⟨hle, y, mem_cons_of_mem _ hy,
        (h.num_visit_of_pending search hv hnew hy).trans hynum, hwy⟩
  · intro x hx y hy hxy
    obtain ⟨hxv, hxy⟩ := hsc x y hxy
    rw [hnodes']
    exact h.accounted_visit search hv hnew ((mem_cons.mp hx).resolve_left hxv) hy hxy
  · rw [hnodes']
    rintro x (_ | ⟨_, hx⟩)
    · exact ⟨v, mem_cons_self, le_rfl⟩
    · obtain ⟨g, hg, hle⟩ := h.bottom x hx
      refine ⟨g, mem_cons_of_mem _ hg, ?_⟩
      rwa [h.num_visit_of_node search hv hnew hg, h.num_visit_of_pending search hv hnew hx]
  · rw [hnodes']
    rintro g (_ | ⟨_, hg⟩) x (_ | ⟨_, hx⟩) hle
    · exact .refl
    · rw [hnumV, h.num_visit_of_pending search hv hnew hx] at hle
      exact absurd (h.num_lt_index hx) (not_lt.mpr hle)
    · exact hreach g hg
    · rw [h.num_visit_of_node search hv hnew hg, h.num_visit_of_pending search hv hnew hx] at hle
      exact h.reach g hg x hx hle
  · rw [hnodes']
    rintro x (_ | ⟨_, hx⟩) hnot
    · exact absurd mem_cons_self hnot
    · obtain ⟨y, hy, hlt, hxy⟩ := h.back x hx fun hmem => hnot (mem_cons_of_mem _ hmem)
      refine ⟨y, mem_cons_of_mem _ hy, ?_, hxy⟩
      rwa [h.num_visit_of_pending search hv hnew hy, h.num_visit_of_pending search hv hnew hx]
  · exact h.components_nodup
  · exact h.components_iff
  · exact h.components_le
  · exact h.components_ids

end Visit

/-! ## Leaving a node -/

lemma node_of_top (hsearch : st.search = (u, vs) :: frames) : u ∈ st.nodes := by
  rw [State.nodes, hsearch]
  exact mem_cons_self

/-- Pending nodes numbered from the top frame on have no other frame. -/
theorem eq_of_node (h : Inv n row st) (hsearch : st.search = (u, vs) :: frames) {x : ℕ}
    (hx : x ∈ st.nodes) (hle : st.num u ≤ st.num x) : x = u :=
  h.num_inj (h.pending_of_node hx) (h.pending_of_node (node_of_top hsearch))
    (le_antisymm (h.num_le_top hsearch hx) hle)

/-- Nodes below the top frame are numbered before it. -/
theorem num_lt_top (h : Inv n row st) (hsearch : st.search = (u, vs) :: frames) {g : ℕ}
    (hg : g ∈ frames.map Prod.fst) : st.num g < st.num u := by
  have hnode : g ∈ st.nodes := by
    rw [State.nodes, hsearch]
    exact mem_cons_of_mem _ hg
  apply lt_of_le_of_ne (h.num_le_top hsearch hnode)
  intro heq
  exact h.notMem_frames hsearch (h.eq_of_node hsearch hnode heq.ge ▸ hg)

/-- A finished frame that is no root is dropped, and the frame beneath takes over its lowlink. -/
theorem pop (h : Inv n row st) {parent : ℕ} {rest : List ℕ}
    (hsearch : st.search = (u, []) :: (parent, rest) :: frames) (hroot : st.low u ≠ st.num u)
    {lowlinks : List ℕ} (hlen : lowlinks.length = n) (hlow : ∀ w, lowlinks.getD w 0 =
      if w = parent then min (st.low parent) (st.low u) else st.low w) :
    Inv n row { st with search := (parent, rest) :: frames, lowlinks } := by
  have htop : u ∈ st.nodes := node_of_top hsearch
  have hparent : parent ∈ ((parent, rest) :: frames).map Prod.fst := mem_cons_self
  have hparentLt : st.num parent < st.num u := h.num_lt_top hsearch hparent
  have hnodes : st.nodes = u :: ((parent, rest) :: frames).map Prod.fst := by
    rw [State.nodes, hsearch]
    rfl
  have hbelow : ∀ g ∈ ((parent, rest) :: frames).map Prod.fst, g ∈ st.nodes := by
    intro g hg
    rw [hnodes]
    exact mem_cons_of_mem _ hg
  have hle : ∀ w, lowlinks.getD w 0 ≤ st.low w := by
    intro w
    rw [hlow]
    split
    next heq =>
      rw [heq]
      exact min_le_left _ _
    next => exact le_rfl
  have hscanned : ∀ x y, Scanned row ((parent, rest) :: frames) x y ↔
      Scanned row st.search x y := by
    intro x y
    rw [hsearch, scanned_pop]
  obtain ⟨hlowTop, z, hz, hznum, huz⟩ := h.low u htop
  have hlowLt : st.low u < st.num u := lt_of_le_of_ne hlowTop hroot
  refine ⟨h.length_indices, hlen, h.length_onStack, h.index_fresh, h.onStack, h.visited,
    h.disjoint, h.sorted, ?_, ?_, ?_, h.closed, ?_, ?_, ?_, ?_, ?_, h.components_nodup,
    h.components_iff, h.components_le, h.components_ids⟩
  · have hsub := h.search
    rw [hnodes] at hsub
    exact (sublist_cons_self ..).trans hsub
  · intro f hf
    apply h.suffix f
    rw [hsearch]
    exact mem_cons_of_mem _ hf
  · intro x hx y hxy
    exact h.scanned x hx y ((hscanned x y).mp hxy)
  · intro w hw
    obtain ⟨hlowNum, y, hy, hnum, hwy⟩ := h.low w (hbelow w hw)
    refine ⟨(hle w).trans hlowNum, ?_⟩
    show ∃ y ∈ st.pending, st.num y = lowlinks.getD w 0 ∧ _
    rw [hlow]
    split
    next heq =>
      subst heq
      rcases min_choice (st.low w) (st.low u) with hmin | hmin
      · exact ⟨y, hy, hnum.trans hmin.symm, hwy⟩
      · have hwu := h.reach w (hbelow w hw) u (h.pending_of_node htop) hparentLt.le
        exact ⟨z, hz, hznum.trans hmin.symm, hwu.trans huz⟩
    next => exact ⟨y, hy, hnum, hwy⟩
  · intro x hx y hy hxy
    obtain ⟨f, hf, hlowf, hall⟩ := h.accounted x hx y hy ((hscanned x y).mp hxy)
    rw [hnodes] at hf
    rcases mem_cons.mp hf with rfl | hf
    · -- The frame beneath takes the place of the dropped one.
      refine ⟨parent, hparent, ?_, fun g hg _ => ?_⟩
      · refine le_trans ?_ hlowf
        show lowlinks.getD parent 0 ≤ st.low f
        rw [hlow, if_pos rfl]
        exact min_le_right _ _
      · have hrest := h.sorted.sublist h.search
        rw [hnodes] at hrest
        rcases mem_cons.mp hg with rfl | hg
        · exact le_rfl
        · exact ((pairwise_cons.mp (pairwise_cons.mp hrest).2).1 g hg).le
    · exact ⟨f, hf, (hle f).trans hlowf, fun g hg => hall g (hbelow g hg)⟩
  · intro x hx
    obtain ⟨g, hg, hgx⟩ := h.bottom x hx
    rw [hnodes] at hg
    rcases mem_cons.mp hg with rfl | hg
    · exact ⟨parent, hparent, hparentLt.le.trans hgx⟩
    · exact ⟨g, hg, hgx⟩
  · exact fun g hg => h.reach g (hbelow g hg)
  · intro x hx hnot
    by_cases hxu : x = u
    · subst hxu
      exact ⟨z, hz, hznum.trans_lt hlowLt, huz⟩
    · refine h.back x hx fun hmem => ?_
      rw [hnodes] at hmem
      exact hnot ((mem_cons.mp hmem).resolve_left hxu)

/-- The lowlink of the outermost frame is its own number. -/
theorem low_outermost (h : Inv n row st) (hsearch : st.search = [(u, vs)]) :
    st.low u = st.num u := by
  have htop : u ∈ st.nodes := node_of_top hsearch
  obtain ⟨hle, y, hy, hnum, -⟩ := h.low u htop
  obtain ⟨g, hg, hgy⟩ := h.bottom y hy
  rw [State.nodes, hsearch] at hg
  obtain rfl := mem_singleton.mp hg
  omega

/-! ## Closing a component -/

/-- No path leads back from a component. -/
lemma assigned_of_reaches (h : Inv n row st) {x z : ℕ} (hx : st.Assigned x)
    (hz : Reaches row x z) : st.Assigned z := by
  induction hz with
  | refl => exact hx
  | tail _ hedge ih => exact h.closed _ ih _ hedge

section Close

variable (h : Inv n row st) (hsearch : st.search = (u, []) :: frames)

include h hsearch

/-- The edges of the nodes numbered from the top frame on have been looked at. -/
theorem scanned_popped {x y : ℕ} (hle : st.num u ≤ st.num x)
    (hy : y ∈ row x) : Scanned row st.search x y := by
  by_cases hxu : x = u
  · subst hxu
    rw [hsearch, scanned_pop]
    exact scanned_of_notMem (h.notMem_frames hsearch) hy
  · exact scanned_of_notMem (fun hnode => hxu (h.eq_of_node hsearch hnode hle)) hy

variable (hroot : st.low u = st.num u)

include hroot

/-- An edge out of the nodes numbered from a root on stays among them or leads to a component. -/
theorem step_popped {x y : ℕ} (hx : x ∈ st.pending) (hle : st.num u ≤ st.num x) (hy : y ∈ row x) :
    (y ∈ st.pending ∧ st.num u ≤ st.num y) ∨ st.Assigned y := by
  have hscanned := h.scanned_popped hsearch hle hy
  rcases (h.visited y).mp
    (h.scanned x (h.visited_of_pending hx) y hscanned) with hpending | hassigned
  · obtain ⟨f, hf, hlowf, hall⟩ := h.accounted x hx y hpending hscanned
    obtain rfl := h.eq_of_node hsearch hf (hall u (node_of_top hsearch) hle)
    exact Or.inl ⟨hpending, hroot ▸ hlowf⟩
  · exact Or.inr hassigned

lemma reaches_popped {x z : ℕ} (hx : x ∈ st.pending) (hle : st.num u ≤ st.num x)
    (hz : Reaches row x z) : (z ∈ st.pending ∧ st.num u ≤ st.num z) ∨ st.Assigned z := by
  induction hz with
  | refl => exact Or.inl ⟨hx, hle⟩
  | tail _ hedge ih =>
    rcases ih with ⟨hy, hley⟩ | hy
    · exact h.step_popped hsearch hroot hy hley hedge
    · exact Or.inr (h.closed _ hy _ hedge)

lemma reaches_root {x : ℕ} (hx : x ∈ st.pending) (hle : st.num u ≤ st.num x) :
    Reaches row x u := by
  induction hm : st.num x using Nat.strong_induction_on generalizing x with
  | _ m ih =>
    by_cases hxu : x = u
    · rw [hxu]
    obtain ⟨y, hy, hlt, hxy⟩ := h.back x hx fun hnode => hxu (h.eq_of_node hsearch hnode hle)
    rcases h.reaches_popped hsearch hroot hx hle hxy with ⟨-, hley⟩ | hassigned
    · exact hxy.trans (ih _ (hm ▸ hlt) hy hley rfl)
    · exact absurd hassigned (h.disjoint y hy)

/-- The nodes numbered from a root on are the component of the root. -/
theorem popped_iff {x : ℕ} : (x ∈ st.pending ∧ st.num u ≤ st.num x) ↔
    Reaches row u x ∧ Reaches row x u := by
  have htop : u ∈ st.nodes := node_of_top hsearch
  have hu := h.pending_of_node htop
  constructor
  · rintro ⟨hx, hle⟩
    exact ⟨h.reach u htop x hx hle, h.reaches_root hsearch hroot hx hle⟩
  · rintro ⟨hux, hxu⟩
    rcases h.reaches_popped hsearch hroot hu le_rfl hux with hx | hx
    · exact hx
    · exact absurd (h.assigned_of_reaches hx hxu) (h.disjoint u hu)

omit hroot in
/-- The nodes numbered from the top frame on lie above the others. -/
lemma exists_popped : ∃ popped rest, st.pending = popped ++ u :: rest ∧ u ∉ popped ∧
    (∀ x, x ∈ popped ++ [u] ↔ x ∈ st.pending ∧ st.num u ≤ st.num x) ∧
      ∀ x, x ∈ rest ↔ x ∈ st.pending ∧ st.num x < st.num u := by
  obtain ⟨popped, rest, hsplit⟩ := append_of_mem (h.pending_of_node (node_of_top hsearch))
  have hsorted := h.sorted
  rw [hsplit, pairwise_append] at hsorted
  obtain ⟨-, hrestSorted, hcross⟩ := hsorted
  have habove : ∀ x ∈ popped, st.num u < st.num x := fun x hx => hcross x hx u mem_cons_self
  have hbelow : ∀ x ∈ rest, st.num x < st.num u := (pairwise_cons.mp hrestSorted).1
  refine ⟨popped, rest, hsplit, fun hmem => lt_irrefl _ (habove u hmem), fun x => ?_, fun x => ?_⟩
  · simp only [hsplit, mem_append, mem_cons, not_mem_nil, or_false]
    constructor
    · rintro (hx | rfl)
      · exact ⟨Or.inl hx, (habove x hx).le⟩
      · exact ⟨Or.inr (Or.inl rfl), le_rfl⟩
    · rintro ⟨hx | rfl | hx, hle⟩
      · exact Or.inl hx
      · exact Or.inr rfl
      · exact absurd (hbelow x hx) (not_lt.mpr hle)
  · simp only [hsplit, mem_append, mem_cons]
    constructor
    · exact fun hx => ⟨Or.inr (Or.inr hx), hbelow x hx⟩
    · rintro ⟨hx | rfl | hx, hlt⟩
      · exact absurd (habove x hx) hlt.asymm
      · exact absurd hlt (lt_irrefl _)
      · exact hx

omit hroot in
/-- The frames left are numbered before the root, so they are still pending. -/
lemma frames_sublist {popped rest : List ℕ} (hsplit : st.pending = popped ++ u :: rest)
    (hpopped : ∀ x, x ∈ popped ++ [u] ↔ x ∈ st.pending ∧ st.num u ≤ st.num x)
    (hrest : ∀ x, x ∈ rest ↔ x ∈ st.pending ∧ st.num x < st.num u) :
    (frames.map Prod.fst).Sublist rest := by
  have hsub : (frames.map Prod.fst).Sublist st.pending := by
    have hall := h.search
    rw [State.nodes, hsearch] at hall
    exact (sublist_cons_self ..).trans hall
  have hfilter := hsub.filter fun x => st.num x < st.num u
  have hframes : (frames.map Prod.fst).filter (fun x => st.num x < st.num u) =
      frames.map Prod.fst :=
    filter_eq_self.mpr fun g hg => decide_eq_true (h.num_lt_top hsearch hg)
  have hpoppedNil : popped.filter (fun x => st.num x < st.num u) = [] :=
    filter_eq_nil_iff.mpr fun x hx => by
      simpa using ((hpopped x).mp (mem_append_left _ hx)).2
  have hrestAll : rest.filter (fun x => st.num x < st.num u) = rest :=
    filter_eq_self.mpr fun x hx => decide_eq_true ((hrest x).mp hx).2
  rw [hframes, hsplit, filter_append, hpoppedNil, nil_append,
    filter_cons_of_neg (by simp), hrestAll] at hfilter
  exact hfilter

omit hsearch hroot in
/-- A node with a component has it from before, or is one of those given a new one. -/
lemma mem_components_close {ws : List ℕ} {p : ℕ × ℕ}
    (hp : p ∈ st.components ++ ws.map fun w => (w, st.nextCompId)) :
    (p ∈ st.components ∧ st.Assigned p.1 ∧ p.2 < st.nextCompId) ∨
      (p.1 ∈ ws ∧ p.2 = st.nextCompId) := by
  rcases mem_append.mp hp with hp | hp
  · exact Or.inl ⟨hp, mem_map_of_mem hp, (h.components_ids p.2).mpr ⟨p, hp, rfl⟩⟩
  · obtain ⟨w, hw, rfl⟩ := mem_map.mp hp
    exact Or.inr ⟨hw, rfl⟩

/-- With the new component, nodes have one id iff each reaches the other. -/
lemma components_iff_close {ws : List ℕ}
    (hws : ∀ x, x ∈ ws ↔ x ∈ st.pending ∧ st.num u ≤ st.num x) {p q : ℕ × ℕ}
    (hp : p ∈ st.components ++ ws.map fun w => (w, st.nextCompId))
    (hq : q ∈ st.components ++ ws.map fun w => (w, st.nextCompId)) :
    p.2 = q.2 ↔ Reaches row p.1 q.1 ∧ Reaches row q.1 p.1 := by
  have hfresh : ∀ x ∈ ws, ¬st.Assigned x := fun x hx => h.disjoint x ((hws x).mp hx).1
  rcases h.mem_components_close hp with ⟨hp, hpa, hplt⟩ | ⟨hp, hpid⟩
  · rcases h.mem_components_close hq with ⟨hq, -, -⟩ | ⟨hq, hqid⟩
    · exact h.components_iff p hp q hq
    · exact iff_of_false (by omega) fun hreach =>
        hfresh q.1 hq (h.assigned_of_reaches hpa hreach.1)
  · rcases h.mem_components_close hq with ⟨hq, hqa, hqlt⟩ | ⟨hq, hqid⟩
    · exact iff_of_false (by omega) fun hreach =>
        hfresh p.1 hp (h.assigned_of_reaches hqa hreach.2)
    · obtain ⟨hup, hpu⟩ := (h.popped_iff hsearch hroot).mp ((hws _).mp hp)
      obtain ⟨huq, hqu⟩ := (h.popped_iff hsearch hroot).mp ((hws _).mp hq)
      exact iff_of_true (hpid.trans hqid.symm) ⟨hpu.trans huq, hqu.trans hup⟩

/-- The nodes numbered from a root on are taken off the stack and become a component. -/
theorem close {lowlinks : List ℕ} (hlen : lowlinks.length = n)
    (hlow : ∀ w, lowlinks.getD w 0 = st.low w) :
    Inv n row (Tarjan.close u { st with search := frames, lowlinks }) := by
  obtain ⟨popped, rest, hsplit, hupopped, hpopped, hrest⟩ := h.exists_popped hsearch
  have hclose : Tarjan.close u { st with search := frames, lowlinks } =
      { st with
        search := frames
        lowlinks
        nextCompId := st.nextCompId + 1
        pending := rest
        onStack := (popped ++ [u]).foldl (fun flags w => flags.set w false) st.onStack
        components := st.components ++ (popped ++ [u]).map fun w => (w, st.nextCompId) } := by
    rw [Tarjan.close, hsplit]
    exact popComponent_append u st.nextCompId hupopped rest _
  rw [hclose]
  have hnodes : st.nodes = u :: frames.map Prod.fst := by
    rw [State.nodes, hsearch]
    rfl
  have hbelow : ∀ g ∈ frames.map Prod.fst, g ∈ st.nodes := by
    intro g hg
    rw [hnodes]
    exact mem_cons_of_mem _ hg
  have hmemRest : ∀ x ∈ rest, x ∈ st.pending := fun x hx => ((hrest x).mp hx).1
  have hrestLt : ∀ x ∈ rest, st.num x < st.num u := fun x hx => ((hrest x).mp hx).2
  have hscanned : ∀ x y, Scanned row frames x y ↔ Scanned row st.search x y := by
    intro x y
    rw [hsearch, scanned_pop]
  have hassigned : ∀ x, x ∈ (st.components ++ (popped ++ [u]).map fun w =>
      (w, st.nextCompId)).map Prod.fst ↔ st.Assigned x ∨ x ∈ popped ++ [u] := by
    intro x
    rw [map_append, mem_append, map_map]
    simp [State.Assigned]
  have hfresh : ∀ x ∈ popped ++ [u], ¬st.Assigned x := fun x hx =>
    h.disjoint x ((hpopped x).mp hx).1
  have hsorted := h.sorted
  rw [hsplit, ← singleton_append, ← append_assoc] at hsorted
  constructor
  · exact h.length_indices
  · exact hlen
  · exact (length_foldl_set _ _).trans h.length_onStack
  · exact h.index_fresh
  · intro v
    have hbound : ∀ w ∈ popped ++ [u], w < st.onStack.length := by
      intro w hw
      rw [h.length_onStack]
      exact h.lt_of_visited (h.visited_of_pending ((hpopped w).mp hw).1)
    show (List.foldl _ st.onStack (popped ++ [u])).getD v false = true ↔ v ∈ rest
    rw [getD_foldl_set_false hbound, hrest, ← not_le]
    split
    next hv => simp [((hpopped v).mp hv).2]
    next hv =>
      rw [h.onStack]
      exact ⟨fun hmem => ⟨hmem, fun hle => hv ((hpopped v).mpr ⟨hmem, hle⟩)⟩, And.left⟩
  · intro v
    show st.Visited v ↔ v ∈ rest ∨ v ∈ _
    rw [h.visited, hassigned, hrest, hpopped]
    have := Nat.lt_or_ge (st.num v) (st.num u)
    tauto
  · intro v hv
    show ¬v ∈ _
    rw [hassigned]
    rintro (hold | hmem)
    · exact h.disjoint v (hmemRest v hv) hold
    · exact absurd ((hpopped v).mp hmem).2 (not_le.mpr (hrestLt v hv))
  · exact (pairwise_append.mp hsorted).2.1
  · exact h.frames_sublist hsearch hsplit hpopped hrest
  · intro f hf
    apply h.suffix f
    rw [hsearch]
    exact mem_cons_of_mem _ hf
  · intro x hx y hxy
    exact h.scanned x hx y ((hscanned x y).mp hxy)
  · intro x hx y hy
    have hx := (hassigned x).mp hx
    show y ∈ _
    rw [hassigned]
    rcases hx with hx | hx
    · exact Or.inl (h.closed x hx y hy)
    · obtain ⟨hpending, hle⟩ := (hpopped x).mp hx
      rcases h.step_popped hsearch hroot hpending hle hy with hy | hy
      · exact Or.inr ((hpopped y).mpr hy)
      · exact Or.inl hy
  · intro w hw
    obtain ⟨hle, y, hy, hnum, hwy⟩ := h.low w (hbelow w hw)
    have hlt := h.num_lt_top hsearch hw
    show lowlinks.getD w 0 ≤ st.num w ∧ ∃ y ∈ rest, st.num y = lowlinks.getD w 0 ∧ _
    rw [hlow]
    exact ⟨hle, y, (hrest y).mpr ⟨hy, by omega⟩, hnum, hwy⟩
  · intro x hx y hy hxy
    obtain ⟨f, hf, hlowf, hall⟩ := h.accounted x (hmemRest x hx) y (hmemRest y hy)
      ((hscanned x y).mp hxy)
    rw [hnodes] at hf
    rcases mem_cons.mp hf with rfl | hf
    · have := hrestLt y hy
      omega
    · refine ⟨f, hf, ?_, fun g hg => hall g (hbelow g hg)⟩
      show lowlinks.getD f 0 ≤ st.num y
      rw [hlow]
      exact hlowf
  · intro x hx
    obtain ⟨g, hg, hgx⟩ := h.bottom x (hmemRest x hx)
    rw [hnodes] at hg
    rcases mem_cons.mp hg with rfl | hg
    · exact absurd (hrestLt x hx) (not_lt.mpr hgx)
    · exact ⟨g, hg, hgx⟩
  · exact fun g hg x hx => h.reach g (hbelow g hg) x (hmemRest x hx)
  · intro x hx hnot
    have hlt := hrestLt x hx
    obtain ⟨y, hy, hyx, hxy⟩ := h.back x (hmemRest x hx) fun hmem => by
      rw [hnodes] at hmem
      rcases mem_cons.mp hmem with rfl | hmem
      · exact lt_irrefl _ hlt
      · exact hnot hmem
    exact ⟨y, (hrest y).mpr ⟨hy, hyx.trans hlt⟩, hyx, hxy⟩
  · rw [map_append, nodup_append]
    have hmap : ((popped ++ [u]).map fun w => (w, st.nextCompId)).map Prod.fst = popped ++ [u] := by
      rw [map_map]
      exact map_id _
    rw [hmap]
    refine ⟨h.components_nodup, ?_, ?_⟩
    · exact (pairwise_append.mp hsorted).1.imp fun hab heq => absurd (heq ▸ hab) (lt_irrefl _)
    · rintro x hx _ hx' rfl
      exact hfresh x hx' hx
  · exact fun p hp q hq => h.components_iff_close hsearch hroot hpopped hp hq
  · intro p hp q hq hedge
    rcases h.mem_components_close hp with ⟨hp, hpa, hplt⟩ | ⟨hp, hpid⟩
    · rcases h.mem_components_close hq with ⟨hq, -, -⟩ | ⟨hq, -⟩
      · exact h.components_le p hp q hq hedge
      · exact absurd (h.closed _ hpa _ hedge) (hfresh q.1 hq)
    · rcases h.mem_components_close hq with ⟨-, -, hqlt⟩ | ⟨-, hqid⟩
      · omega
      · exact (hqid.trans hpid.symm).le
  · intro c
    show c < st.nextCompId + 1 ↔ _
    constructor
    · intro hc
      rcases Nat.lt_succ_iff_lt_or_eq.mp hc with hc | rfl
      · obtain ⟨p, hp, hpc⟩ := (h.components_ids c).mp hc
        exact ⟨p, mem_append_left _ hp, hpc⟩
      · exact ⟨(u, st.nextCompId), mem_append_right _ (mem_map_of_mem (by simp)), rfl⟩
    · rintro ⟨p, hp, rfl⟩
      rcases h.mem_components_close hp with ⟨-, -, hlt⟩ | ⟨-, hid⟩
      · omega
      · omega

omit hroot in
lemma finish : Inv n row (Tarjan.finish u { st with search := frames }) := by
  have htop : u ∈ st.nodes := node_of_top hsearch
  have hindex : st.indices.getD u none = some (st.num u) := by
    obtain ⟨i, hi⟩ := Option.isSome_iff_exists.mp (h.visited_of_pending (h.pending_of_node htop))
    rw [State.num, hi]
    rfl
  match frames, hsearch with
  | [], hsearch =>
    have hroot := h.low_outermost hsearch
    have hsome : some (st.lowlinks.getD u 0) = st.indices.getD u none :=
      (congrArg some hroot).trans hindex.symm
    have hfinish : Tarjan.finish u { st with search := [] } =
        Tarjan.close u { st with search := [] } := if_pos hsome
    rw [hfinish]
    exact h.close hsearch hroot h.length_lowlinks fun w => rfl
  | (parent, rest) :: frames, hsearch =>
    have hparentMem : parent ∈ ((parent, rest) :: frames).map Prod.fst := mem_cons_self
    have hlt := h.num_lt_top hsearch hparentMem
    have hparent : parent ∈ st.nodes := by
      rw [State.nodes, hsearch]
      exact mem_cons_of_mem _ hparentMem
    have hne : u ≠ parent := by
      rintro rfl
      exact lt_irrefl _ hlt
    let lowlinks := st.lowlinks.set parent (min (st.low parent) (st.low u))
    have hlen : lowlinks.length = n := (List.length_set ..).trans h.length_lowlinks
    have hlow : ∀ w, lowlinks.getD w 0 =
        if w = parent then min (st.low parent) (st.low u) else st.low w := fun w =>
      List.getD_set (by
        rw [h.length_lowlinks]
        exact h.lt_of_visited (h.visited_of_pending (h.pending_of_node hparent))) _ _ _
    have hlowTop : lowlinks.getD u 0 = st.low u := by
      rw [hlow, if_neg hne]
    have hfinish : Tarjan.finish u { st with search := (parent, rest) :: frames } =
        if some (lowlinks.getD u 0) = st.indices.getD u none then
          Tarjan.close u { st with search := (parent, rest) :: frames, lowlinks }
        else { st with search := (parent, rest) :: frames, lowlinks } := rfl
    rw [hfinish, hlowTop, hindex]
    split
    next hsome =>
      have hroot := Option.some.inj hsome
      refine h.close hsearch hroot hlen fun w => ?_
      rw [hlow]
      split
      next heq =>
        -- A root hands on nothing, for the lowlink beneath is smaller.
        have := (h.low parent hparent).1
        rw [heq]
        omega
      next => rfl
    next hsome => exact h.pop hsearch (fun hroot => hsome (congrArg some hroot)) hlen hlow

end Close

end Inv

/-! ## Runs -/

/-- The nodes that are not visited. -/
def State.unvisited (n : ℕ) (st : State) : Finset ℕ :=
  (Finset.range n).filter fun v => ¬(st.indices.getD v none).isSome

lemma indices_popComponent (u compId : ℕ) (pending : List ℕ) (st : State) :
    (popComponent u compId pending st).indices = st.indices ∧
      (popComponent u compId pending st).search = st.search := by
  induction pending generalizing st with
  | nil => exact ⟨rfl, rfl⟩
  | cons w pending ih =>
    rw [popComponent]
    split
    · exact ⟨rfl, rfl⟩
    · exact ih _

lemma indices_finish (u : ℕ) (st : State) :
    (finish u st).indices = st.indices ∧ (finish u st).search = st.search := by
  have hrest : ∀ st' : State, st'.indices = st.indices → st'.search = st.search →
      (if some (st'.lowlinks.getD u 0) = st'.indices.getD u none then close u st'
        else st').indices = st.indices ∧
      (if some (st'.lowlinks.getD u 0) = st'.indices.getD u none then close u st'
        else st').search = st.search := by
    intro st' hindices hsearch
    split
    · obtain ⟨hindices', hsearch'⟩ := indices_popComponent u st'.nextCompId st'.pending
        { st' with nextCompId := st'.nextCompId + 1 }
      exact ⟨hindices'.trans hindices, hsearch'.trans hsearch⟩
    · exact ⟨hindices, hsearch⟩
  match hframes : st.search with
  | [] =>
    simp only [finish, hframes]
    exact hframes ▸ hrest st rfl rfl
  | (parent, _) :: _ =>
    simp only [finish, hframes]
    exact hframes ▸ hrest (lower parent (st.lowlinks.getD u 0) st) rfl rfl

lemma unvisited_visit (h : Inv n row st) (hv : v < n) {search : List (ℕ × List ℕ)} :
    (visit row v { st with search }).unvisited n = (st.unvisited n).erase v := by
  ext w
  rw [Finset.mem_erase, State.unvisited, State.unvisited, Finset.mem_filter, Finset.mem_filter,
    h.indices_visit search hv]
  by_cases hw : w = v
  · simp [hw]
  · simp [hw]

/-- With nothing on the search stack, every visited node has a component. -/
theorem Inv.pending_eq_nil (h : Inv n row st) (hsearch : st.search = []) : st.pending = [] := by
  apply eq_nil_iff_forall_not_mem.mpr
  intro x hx
  obtain ⟨g, hg, -⟩ := h.bottom x hx
  rw [State.nodes, hsearch] at hg
  exact not_mem_nil hg

variable (hrow : ∀ u < n, ∀ v ∈ row u, v < n)

include hrow

/-- One round keeps the invariant and what is visited, and leaves less to do. -/
theorem Inv.step {st' : State} (h : Inv n row st) (hstep : Tarjan.step row st = some st') :
    Inv n row st' ∧ (∀ v, st.Visited v → st'.Visited v) ∧
      workLeft row (st'.unvisited n) st'.search < workLeft row (st.unvisited n) st.search := by
  rw [Tarjan.step] at hstep
  split at hstep
  next => cases hstep
  next u search hsearch =>
    obtain rfl := Option.some.inj hstep
    obtain ⟨hindices, hframes⟩ := indices_finish u { st with search }
    refine ⟨h.finish hsearch, fun v hv => ?_, ?_⟩
    · rw [State.Visited, hindices]
      exact hv
    · have hunvisited : (Tarjan.finish u { st with search }).unvisited n = st.unvisited n := by
        rw [State.unvisited, hindices]
        rfl
      rw [hunvisited, hframes, hsearch]
      exact workLeft_pop row _ _ _
  next u v vs search hsearch =>
    have htop : u ∈ st.nodes := node_of_top hsearch
    have hu := h.lt_of_visited (h.visited_of_pending (h.pending_of_node htop))
    have hpre : ∃ pre, row u = pre ++ v :: vs := h.suffix (u, v :: vs) (by
      rw [hsearch]
      exact mem_cons_self)
    have hedge : v ∈ row u := by
      obtain ⟨pre, hpre⟩ := hpre
      rw [hpre]
      exact mem_append_right _ mem_cons_self
    dsimp only at hstep
    split at hstep
    next hnone =>
      have hnew : ¬st.Visited v := by
        rw [State.Visited, hnone]
        exact Bool.false_ne_true
      have hv := hrow u hu v hedge
      obtain rfl := Option.some.inj hstep
      have hnodes : ((u, vs) :: search).map Prod.fst = st.nodes := by
        rw [State.nodes, hsearch]
        rfl
      refine ⟨h.visit hv hnew hnodes ?_ ?_ ?_, fun w hw => ?_, ?_⟩
      · rintro f (_ | ⟨_, hf⟩)
        · obtain ⟨pre, hpre⟩ := hpre
          exact ⟨pre ++ [v], by rw [hpre, append_assoc, singleton_append]⟩
        · exact h.suffix f (by
            rw [hsearch]
            exact mem_cons_of_mem _ hf)
      · intro x y hxy
        rcases (scanned_advance (h.notMem_frames hsearch) hpre).mp hxy with hxy | ⟨rfl, rfl⟩
        · exact Or.inl (hsearch ▸ hxy)
        · exact Or.inr ⟨rfl, htop, fun g hg => h.num_le_top hsearch hg⟩
      · intro g hg
        exact (h.reach g hg u (h.pending_of_node htop) (h.num_le_top hsearch hg)).tail hedge
      · exact (h.visited_visit _ hv w).mpr (Or.inr hw)
      · rw [unvisited_visit h hv, hsearch]
        refine lt_trans (workLeft_push ?_ _) (workLeft_advance row _ u v vs search)
        rw [State.unvisited, Finset.mem_filter, Finset.mem_range]
        exact ⟨hv, hnew⟩
    next iv hsome =>
      have hv : st.Visited v := by
        rw [State.Visited, hsome]
        rfl
      have hless : workLeft row (st.unvisited n) ((u, vs) :: search) <
          workLeft row (st.unvisited n) st.search := by
        rw [hsearch]
        exact workLeft_advance row _ u v vs search
      split at hstep
      next hon =>
        have hpending := (h.onStack v).mp hon
        have hnum : st.num v = iv := by
          rw [State.num, hsome]
          rfl
        have hlow : ∀ w, (st.lowlinks.set u (min (st.low u) iv)).getD w 0 =
            if w = u then min (st.low u) iv else st.low w := fun w =>
          List.getD_set (by rwa [h.length_lowlinks]) _ _ _
        obtain rfl := Option.some.inj hstep
        refine ⟨h.advance hsearch hv ((List.length_set ..).trans h.length_lowlinks) ?_ ?_ ?_ ?_,
          fun w hw => hw, hless⟩
        · exact fun w hw => (hlow w).trans (if_neg hw)
        · exact ((hlow u).trans (if_pos rfl)).trans_le (min_le_left _ _)
        · exact fun _ => (((hlow u).trans (if_pos rfl)).trans_le (min_le_right _ _)).trans hnum.ge
        · rcases min_choice (st.low u) iv with hmin | hmin
          · exact Or.inl (((hlow u).trans (if_pos rfl)).trans hmin)
          · exact Or.inr ⟨hpending, (((hlow u).trans (if_pos rfl)).trans hmin).trans hnum.symm⟩
      next hoff =>
        have hpending : v ∉ st.pending := fun hmem => hoff ((h.onStack v).mpr hmem)
        obtain rfl := Option.some.inj hstep
        exact ⟨h.advance hsearch hv h.length_lowlinks (fun _ _ => rfl) le_rfl
          (fun hmem => absurd hmem hpending) (Or.inl rfl), fun w hw => hw, hless⟩

/-- The search from a root returns. It visits the root and finishes all it visits. -/
theorem exists_searchFrom (h : Inv n row st) (hsearch : st.search = []) {root : ℕ}
    (hroot : root < n) :
    ∃ st', Returns (fun fuel => searchFrom row fuel st root) st' ∧ Inv n row st' ∧ st'.search = [] ∧
      st'.Visited root ∧ ∀ v, st.Visited v → st'.Visited v := by
  by_cases hvisited : st.Visited root
  · exact ⟨st, ⟨0, fun fuel _ => if_pos hvisited⟩, h, hsearch, hvisited, fun _ hv => hv⟩
  have hstart : Inv n row (visit row root st) := by
    have hnodes : st.nodes = [] := by
      rw [State.nodes, hsearch]
      rfl
    have hsame : st = { st with search := [] } := by rw [← hsearch]
    rw [hsame]
    refine h.visit hroot hvisited hnodes.symm (fun f hf => absurd hf not_mem_nil) ?_ ?_
    · intro x y hxy
      exact Or.inl (hsearch ▸ hxy)
    · rw [hnodes]
      exact fun g hg => absurd hg not_mem_nil
  have hkeep : ∀ v, v = root ∨ st.Visited v → (visit row root st).Visited v :=
    fun v => (h.visited_visit st.search hroot v).mpr
  let Kept (st' : State) : Prop := Inv n row st' ∧ ∀ v, v = root ∨ st.Visited v → st'.Visited v
  obtain ⟨st', hsteps, hdone, hinv, hall⟩ := exists_stepsTo_of_measure Kept
    (fun st' => workLeft row (st'.unvisited n) st'.search)
    (fun s t hs hst => by
      obtain ⟨hinv, hvis, hless⟩ := hs.1.step hrow hst
      exact ⟨⟨hinv, fun v hv => hvis v (hs.2 v hv)⟩, hless⟩) ⟨hstart, hkeep⟩
  refine ⟨st', ?_, hinv, ?_, hall root (Or.inl rfl), fun v hv => hall v (Or.inr hv)⟩
  · obtain ⟨fuel₀, hrun⟩ := hsteps.returns hdone
    refine ⟨fuel₀, fun fuel hfuel => ?_⟩
    show searchFrom row fuel st root = some st'
    exact (if_neg hvisited).trans (hrun fuel hfuel)
  · rw [Tarjan.step] at hdone
    split at hdone
    next hnil => exact hnil
    next => cases hdone
    next =>
      dsimp only at hdone
      split at hdone
      · cases hdone
      · split at hdone <;> cases hdone

/-- **Tarjan's algorithm.** It returns, and assigns each node below `n` one component. Two nodes are
in the same one iff each reaches the other, an edge never leads to a component of a greater number,
and the numbers in use are those below some `k`. -/
theorem exists_stronglyConnected :
    ∃ components, Returns (fun fuel => stronglyConnected n row fuel) components ∧
      (components.map Prod.fst).Nodup ∧ (∀ v, v ∈ components.map Prod.fst ↔ v < n) ∧
      (∀ p ∈ components, ∀ q ∈ components,
        p.2 = q.2 ↔ Reaches row p.1 q.1 ∧ Reaches row q.1 p.1) ∧
      (∀ p ∈ components, ∀ q ∈ components, q.1 ∈ row p.1 → q.2 ≤ p.2) ∧
      ∃ k, ∀ c, c < k ↔ ∃ p ∈ components, p.2 = c := by
  obtain ⟨st, hrun, h, hsearch, hvisited⟩ := exists_returns_foldlM
    (fun done st => Inv n row st ∧ st.search = [] ∧ ∀ v ∈ done, st.Visited v)
    (f := fun fuel => searchFrom row fuel) (l := List.range n)
    (by
      rintro done root st hroot ⟨hinv, hsearch, hdone⟩
      obtain ⟨st', hrun, hinv', hsearch', hvisited, hkeep⟩ :=
        exists_searchFrom hrow hinv hsearch (mem_range.mp hroot)
      refine ⟨st', hrun, hinv', hsearch', fun v hv => ?_⟩
      rcases mem_append.mp hv with hv | hv
      · exact hkeep v (hdone v hv)
      · exact mem_singleton.mp hv ▸ hvisited)
    ⟨inv_empty n row, rfl, fun v hv => absurd hv not_mem_nil⟩
  refine ⟨st.components, hrun.map (·.components), h.components_nodup, fun v => ?_, h.components_iff,
    h.components_le, st.nextCompId, h.components_ids⟩
  have hassigned := h.visited v
  rw [h.pending_eq_nil hsearch] at hassigned
  constructor
  · intro hv
    exact h.lt_of_visited (hassigned.mpr (Or.inr hv))
  · intro hv
    exact (hassigned.mp (hvisited v (mem_range.mpr hv))).resolve_left not_mem_nil

end

end Tarjan
