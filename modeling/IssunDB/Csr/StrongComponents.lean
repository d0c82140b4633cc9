import IssunDB.Csr.Search
import IssunDB.Lib.CycleSearch
import IssunDB.Lib.Tarjan

/-!
# Strongly connected components

`stronglyConnectedComponents` runs Tarjan's algorithm over the rows of the snapshot with explicit
stacks, and `detectCycle` a depth-first search with three colors.

`strongComponents_spec` states that both return, that two nodes get one component id just when each
reaches the other, that the ids are in reverse topological order, and that there is a cycle just
when a component has two nodes or a node has an edge to itself.
-/

namespace IssunDB

open List

namespace CsrArrays

variable (S : CsrArrays)

/-- The destinations of the edges of a node. -/
def targetsOf (u : ℕ) : List ℕ := (S.outRow u).map (·.col)

/-- The component id of each node, in the order of assignment. -/
def stronglyConnectedComponents (fuel : ℕ) : Option (List (NodeId × ℕ)) :=
  let n := S.denseToId.length
  if n = 0 then some []
  else (Tarjan.stronglyConnected n S.targetsOf fuel).map fun components =>
    components.map fun p => (S.denseToId.getD p.1 0, p.2)

/-- Whether some nodes and edges form a cycle. -/
def detectCycle (fuel : ℕ) : Option Bool :=
  CycleSearch.detectCycle S.denseToId.length S.targetsOf fuel

/-- A node reaches another along edges. -/
def Reaches (a b : NodeId) : Prop := Relation.ReflTransGen S.OutStep a b

end CsrArrays

namespace Snapshot

variable (S : Snapshot)

lemma mem_targetsOf {u v : ℕ} : v ∈ S.targetsOf u ↔ S.DenseStep u v := by
  rw [CsrArrays.targetsOf, mem_map]
  exact S.exists_mem_outRow

lemma reaches_idOf {u v : ℕ} (hu : u < S.n) (hv : v < S.n) :
    S.Reaches (S.idOf u) (S.idOf v) ↔ Reaches S.targetsOf u v := by
  constructor
  · have hlift : ∀ b, S.Reaches (S.idOf u) b →
        ∃ w < S.n, S.idOf w = b ∧ Reaches S.targetsOf u w := by
      intro b hb
      induction hb with
      | refl => exact ⟨u, hu, rfl, .refl⟩
      | tail _ hstep ih =>
        obtain ⟨w, hw, rfl, huw⟩ := ih
        obtain ⟨w', x, hwx, hw', rfl⟩ := S.outStep_iff.mp hstep
        obtain rfl := (S.idOf_inj hwx.lt.1 hw).mp hw'
        exact ⟨x, hwx.lt.2, rfl, huw.tail (S.mem_targetsOf.mpr hwx)⟩
    intro h
    obtain ⟨w, hw, heq, huw⟩ := hlift _ h
    obtain rfl := (S.idOf_inj hw hv).mp heq
    exact huw
  · intro h
    exact h.lift S.idOf fun a b hab => S.outStep_iff.mpr ⟨a, b, S.mem_targetsOf.mp hab, rfl, rfl⟩

/-- A node on a cycle has an edge to itself or a partner that it reaches and that reaches it. -/
theorem onCycle_iff {u : ℕ} (hu : u < S.n) : CycleSearch.OnCycle S.targetsOf u ↔
    S.OutStep (S.idOf u) (S.idOf u) ∨ ∃ v < S.n, v ≠ u ∧
      S.Reaches (S.idOf u) (S.idOf v) ∧ S.Reaches (S.idOf v) (S.idOf u) := by
  rw [S.outStep_idOf hu hu]
  constructor
  · intro h
    obtain ⟨v, hv, hvu⟩ := Relation.TransGen.head'_iff.mp h
    have hstep := S.mem_targetsOf.mp hv
    by_cases hself : v = u
    · subst hself
      exact Or.inl hstep
    · exact Or.inr ⟨v, hstep.lt.2, hself, (S.reaches_idOf hu hstep.lt.2).mpr (.single hv),
        (S.reaches_idOf hstep.lt.2 hu).mpr hvu⟩
  · rintro (h | ⟨v, hv, hne, huv, hvu⟩)
    · exact .single (S.mem_targetsOf.mpr h)
    · have huv := (S.reaches_idOf hu hv).mp huv
      have hvu := (S.reaches_idOf hv hu).mp hvu
      rcases Relation.reflTransGen_iff_eq_or_transGen.mp huv with heq | huv
      · exact absurd heq hne
      · exact huv.trans_left hvu

/-- **Strongly connected components.** Both kernels return. Each node gets one component id, two
nodes get the same id iff each reaches the other, a node never reaches one with a greater id, the
ids are those below some `k`, and a cycle is reported iff two nodes share an id or a node has an
edge to itself. -/
theorem strongComponents_spec :
    ∃ components cycle, Returns S.stronglyConnectedComponents components ∧
      Returns S.detectCycle cycle ∧
      (components.map Prod.fst).Nodup ∧
      (∀ id, id ∈ components.map Prod.fst ↔ id ∈ S.denseToId) ∧
      (∀ p ∈ components, ∀ q ∈ components, p.2 = q.2 ↔ S.Reaches p.1 q.1 ∧ S.Reaches q.1 p.1) ∧
      (∀ p ∈ components, ∀ q ∈ components, S.Reaches p.1 q.1 → q.2 ≤ p.2) ∧
      (∃ k, ∀ c, c < k ↔ ∃ p ∈ components, p.2 = c) ∧
      (cycle = true ↔ (∃ p ∈ components, ∃ q ∈ components, p.1 ≠ q.1 ∧ p.2 = q.2) ∨
        ∃ id, S.OutStep id id) := by
  have hrow : ∀ u < S.n, ∀ v ∈ S.targetsOf u, v < S.n := fun u _ v hv =>
    (S.mem_targetsOf.mp hv).lt.2
  obtain ⟨comps, ⟨fuel₀, hrun⟩, hnodup, hkeys, hsame, hle, k, hk⟩ :=
    Tarjan.exists_stronglyConnected hrow
  obtain ⟨cycle, hcycle, hcycleIff⟩ := CycleSearch.exists_detectCycle hrow
  have hlt : ∀ p ∈ comps, p.1 < S.n := fun p hp => (hkeys p.1).mp (mem_map_of_mem hp)
  have hentry : ∀ v < S.n, ∃ p ∈ comps, p.1 = v := fun v hv =>
    mem_map.mp ((hkeys v).mpr hv)
  have hnames : (comps.map fun p => (S.idOf p.1, p.2)).map Prod.fst =
      (comps.map Prod.fst).map S.idOf := by
    rw [map_map, map_map]
    rfl
  have hreach : ∀ p ∈ comps, ∀ q ∈ comps, Reaches S.targetsOf p.1 q.1 → q.2 ≤ p.2 := by
    intro p hp q hq hpq
    generalize hv : q.1 = v at hpq
    induction hpq generalizing q with
    | refl =>
      have heq : p = q := inj_on_of_nodup_map hnodup hp hq hv.symm
      rw [heq]
    | @tail w v _ hstep ih =>
      obtain ⟨r, hr, hrw⟩ := hentry w (S.mem_targetsOf.mp hstep).lt.1
      subst hv hrw
      exact (hle r hr q hq hstep).trans (ih r hr rfl)
  refine ⟨comps.map fun p => (S.idOf p.1, p.2), cycle, ⟨fuel₀, fun fuel hfuel => ?_⟩, hcycle, ?_,
    ?_, ?_, ?_, ⟨k, ?_⟩, ?_⟩
  · rw [CsrArrays.stronglyConnectedComponents]
    split
    next hzero =>
      have hnil : comps = [] := by
        apply eq_nil_iff_forall_not_mem.mpr
        intro p hp
        exact absurd (hlt p hp) (by rw [n, hzero]; exact Nat.not_lt_zero _)
      rw [hnil]
      rfl
    next =>
      have hrun := hrun fuel hfuel
      dsimp only at hrun
      show (Tarjan.stronglyConnected S.n S.targetsOf fuel).map _ = _
      rw [hrun]
      rfl
  · rw [hnames]
    refine List.Nodup.map_on ?_ hnodup
    intro u hu v hv heq
    exact (S.idOf_inj ((hkeys u).mp hu) ((hkeys v).mp hv)).mp heq
  · intro id
    rw [hnames, mem_map]
    constructor
    · rintro ⟨v, hv, rfl⟩
      exact S.idOf_mem ((hkeys v).mp hv)
    · intro hid
      obtain ⟨v, hv, rfl⟩ := S.exists_idOf hid
      exact ⟨v, (hkeys v).mpr hv, rfl⟩
  · intro p hp q hq
    obtain ⟨a, ha, rfl⟩ := mem_map.mp hp
    obtain ⟨b, hb, rfl⟩ := mem_map.mp hq
    rw [S.reaches_idOf (hlt a ha) (hlt b hb), S.reaches_idOf (hlt b hb) (hlt a ha)]
    exact hsame a ha b hb
  · intro p hp q hq hpq
    obtain ⟨a, ha, rfl⟩ := mem_map.mp hp
    obtain ⟨b, hb, rfl⟩ := mem_map.mp hq
    exact hreach a ha b hb ((S.reaches_idOf (hlt a ha) (hlt b hb)).mp hpq)
  · intro c
    rw [hk]
    simp only [mem_map, exists_exists_and_eq_and]
  · rw [hcycleIff]
    constructor
    · rintro ⟨u, hu, hcyc⟩
      rcases (S.onCycle_iff hu).mp hcyc with hself | ⟨v, hv, hne, huv, hvu⟩
      · exact Or.inr ⟨_, hself⟩
      · obtain ⟨a, ha, rfl⟩ := hentry u hu
        obtain ⟨b, hb, rfl⟩ := hentry v hv
        refine Or.inl ⟨_, mem_map_of_mem ha, _, mem_map_of_mem hb, ?_, ?_⟩
        · exact fun heq => hne ((S.idOf_inj hu hv).mp heq).symm
        · exact (hsame a ha b hb).mpr
            ⟨(S.reaches_idOf hu hv).mp huv, (S.reaches_idOf hv hu).mp hvu⟩
    · rintro (⟨p, hp, q, hq, hne, heq⟩ | ⟨id, hself⟩)
      · obtain ⟨a, ha, rfl⟩ := mem_map.mp hp
        obtain ⟨b, hb, rfl⟩ := mem_map.mp hq
        have han := hlt a ha
        have hbn := hlt b hb
        obtain ⟨hab, hba⟩ := (hsame a ha b hb).mp heq
        refine ⟨a.1, han, (S.onCycle_iff han).mpr (Or.inr ⟨b.1, hbn, ?_, ?_, ?_⟩)⟩
        · exact fun h => hne (congrArg S.idOf h).symm
        · exact (S.reaches_idOf han hbn).mpr hab
        · exact (S.reaches_idOf hbn han).mpr hba
      · obtain ⟨u, v, huv, rfl, hv⟩ := S.outStep_iff.mp hself
        obtain rfl := (S.idOf_inj huv.lt.2 huv.lt.1).mp hv
        exact ⟨v, huv.lt.1, (S.onCycle_iff huv.lt.1).mpr (Or.inl hself)⟩

end Snapshot

end IssunDB
