import IssunDB.Csr.Search
import IssunDB.Lib.Flow

/-!
# Maximum flow

`maximumFlow` builds a residual network from the capacities the edges carry, one entry for each
ordered pair of nodes that an edge joins, and sends flow along shortest residual paths until no path
is left. Amounts are doubles; sums and differences of them are rounded.

`maximumFlow_eq_minimumCut` states that, while every amount fits 53 bits, the loop ends with the
capacity of a minimum cut.
-/

namespace IssunDB

open List

/-- A finite double, by its exact value in units of `2 ^ (-1074)`. -/
abbrev Amount := ℤ

/-- The sum of two doubles. -/
def addAmount (a b : Amount) : Amount := F64.roundScaled (a + b)

/-- The double `1e-9`. -/
def flowTolerance : F64 := ⟨false, 993, 0x12E0BE826D695, by decide, by decide⟩

/-- The residual amounts of pairs of nodes, and the nodes that entries join to each node. -/
structure FlowNetwork where
  residual : Table (NodeId × NodeId) Amount
  adj : Table NodeId (List NodeId)

/-- The capacity an edge carries under a property; nothing where there is no number. -/
def capacityOf (s : Tables) (property : String) (id : EdgeId) : Amount :=
  match s.edges.get id with
  | none => 0
  | some r =>
    match r.props.get property with
    | some (.number x) => x.asF64.scaled
    | _ => 0

namespace FlowNetwork

/-- Push a node onto the neighbors of another, `entry(u).or_default().push(v)`. -/
def pushNeighbor (adj : Table NodeId (List NodeId)) (u v : NodeId) : Table NodeId (List NodeId) :=
  adj.put u ((adj.get u).getD [] ++ [v])

def addEdge (net : FlowNetwork) (u v : NodeId) (capacity : Amount) : FlowNetwork :=
  if 0 < capacity then
    let residual := net.residual.put (u, v)
      (addAmount ((net.residual.get (u, v)).getD 0) capacity)
    let residual := if residual.get (v, u) = none then residual.put (v, u) 0 else residual
    ⟨residual, pushNeighbor (pushNeighbor net.adj u v) v u⟩
  else net

def sortNeighbors (net : FlowNetwork) : FlowNetwork :=
  { net with adj := net.adj.map fun neighbors => neighbors.toFinset.ascending }

/-- More than the tolerance can be sent from one node to another. -/
def usable (net : FlowNetwork) (u v : NodeId) : Bool :=
  (net.residual.get (u, v)).any fun cap => flowTolerance.scaled < cap

/-- The nodes that entries join to a node. -/
def neighbors (net : FlowNetwork) (u : NodeId) : List NodeId := (net.adj.get u).getD []

/-- The least amount on a path; `none` stands for infinity. Fails where an entry is missing. -/
def bottleneck (net : FlowNetwork) (path : List (NodeId × NodeId)) : Option (Option Amount) :=
  path.foldlM (fun least e => do
    let cap ← net.residual.get e
    some (some (match least with
      | none => cap
      | some least => if cap < least then cap else least))) none

/-- Add to an entry that is there. -/
def bump (residual : Table (NodeId × NodeId) Amount) (e : NodeId × NodeId) (b : Amount) :
    Table (NodeId × NodeId) Amount :=
  match residual.get e with
  | none => residual
  | some cap => residual.put e (addAmount cap b)

/-- Send an amount along a path. -/
def augment (net : FlowNetwork) (path : List (NodeId × NodeId)) (b : Amount) : FlowNetwork :=
  let residual := path.foldl (fun residual e => bump (bump residual e (-b)) e.swap b) net.residual
  { net with residual }

/-- Send flow along shortest residual paths until there is none. -/
def augmentAll (source sink : NodeId) : (fuel : ℕ) → FlowNetwork → (maxFlow : Amount) →
    Option Amount
  | 0, _, _ => none
  | fuel + 1, net, maxFlow => do
    match ← searchFor net.neighbors net.usable sink fuel ⟨[source], [source], .empty⟩ with
    | none => some maxFlow
    | some parent =>
      let path ← walkBack parent source fuel sink
      let b ← ← net.bottleneck path
      augmentAll source sink fuel (net.augment path b) (addAmount maxFlow b)

end FlowNetwork

namespace CsrArrays

variable (S : CsrArrays)

/-- The network of the edges of a snapshot, with the capacities that storage has for them. -/
def flowNetwork (s : Tables) (property : String) : FlowNetwork :=
  let addRow (net : FlowNetwork) (i : ℕ) : FlowNetwork := (S.outRow i).foldl (fun net e =>
    net.addEdge (S.denseToId.getD i 0) (S.denseToId.getD e.col 0) (capacityOf s property e.edgeId))
    net
  ((List.range S.denseToId.length).foldl addRow ⟨.empty, .empty⟩).sortNeighbors

/-- The maximum flow from one node to another. The fuel bounds each of the loops. -/
def maximumFlow (s : Tables) (source sink : NodeId) (property : String) (fuel : ℕ) :
    Option Amount :=
  if source = sink then some 0
  else
    let net := S.flowNetwork s property
    if net.adj.get source = none ∨ net.adj.get sink = none then some 0
    else FlowNetwork.augmentAll source sink fuel net 0

end CsrArrays

/-! ## Capacities -/

def exactCapacity (s : Tables) (property : String) (id : EdgeId) : ℤ :=
  match s.edges.get id with
  | none => 0
  | some r =>
    match r.props.get property with
    | some (.number x) => x.scaled
    | _ => 0

private lemma unit_pos : (0 : ℤ) < 2 ^ 1074 := by positivity

private lemma eq_of_mul_unit {i j : ℤ} (h : i * 2 ^ 1074 = j * 2 ^ 1074) : i = j :=
  mul_right_cancel₀ unit_pos.ne' h

/-- A number that is an integer converts to a double of the same sign, and exactly where it needs
no more than 53 bits. -/
theorem Number.asF64_of_integer (x : Number) {i : ℤ} (h : x.scaled = i * 2 ^ 1074) :
    (i ≤ 0 → x.asF64.scaled ≤ 0) ∧
      (0 ≤ i → i ≤ 2 ^ 53 → x.asF64.scaled = i * 2 ^ 1074) := by
  cases x with
  | posInt n hn =>
    have hi : (n : ℤ) = i := eq_of_mul_unit h
    subst hi
    rw [Number.asF64, F64.scaled_ofNat]
    constructor
    · intro hle
      obtain rfl : n = 0 := by omega
      have hzero : F64.roundedNat 0 = 0 := by decide
      rw [hzero, Nat.cast_zero, zero_mul]
    · intro _ hle
      have hround := F64.roundedNat_mul_pow (show n ≤ 2 ^ 53 by omega) 0
      rw [pow_zero, mul_one] at hround
      rw [hround]
  | negInt k hk =>
    have hi : k = i := eq_of_mul_unit h
    subst hi
    refine ⟨fun _ => ?_, fun hge => absurd hge (by omega)⟩
    rw [Number.asF64, F64.ofInt, if_pos hk.2, F64.scaled_neg, F64.scaled_ofNat]
    exact neg_nonpos.mpr (mul_nonneg (Nat.cast_nonneg _) unit_pos.le)
  | float f =>
    change f.scaled = i * 2 ^ 1074 at h
    change (i ≤ 0 → f.scaled ≤ 0) ∧ (0 ≤ i → i ≤ 2 ^ 53 → f.scaled = i * 2 ^ 1074)
    rw [h]
    exact ⟨fun hle => mul_nonpos_of_nonpos_of_nonneg hle unit_pos.le, fun _ _ => rfl⟩

lemma capacityOf_of_integer {s : Tables} {property : String} {id : EdgeId} {i : ℤ}
    (h : exactCapacity s property id = i * 2 ^ 1074) :
    (i ≤ 0 → capacityOf s property id ≤ 0) ∧
      (0 ≤ i → i ≤ 2 ^ 53 → capacityOf s property id = i * 2 ^ 1074) := by
  have hzero : ∀ {i : ℤ}, (0 : ℤ) = i * 2 ^ 1074 →
      (i ≤ 0 → (0 : ℤ) ≤ 0) ∧ (0 ≤ i → i ≤ 2 ^ 53 → (0 : ℤ) = i * 2 ^ 1074) :=
    fun h => ⟨fun _ => le_rfl, fun _ _ => h⟩
  unfold exactCapacity at h
  unfold capacityOf
  split at h
  next => exact hzero h
  next =>
    split at h
    next x _ => exact x.asF64_of_integer h
    next => exact hzero h

namespace Snapshot

variable (S : Snapshot) (cap : EdgeId → ℤ)

/-- The capacity from one node to another, parallel edges summed. An edge without a positive
capacity contributes nothing. -/
def pairCapacity (es : List DenseEdge) (u v : NodeId) : ℤ :=
  ((es.filter fun e => S.idOf e.src = u ∧ S.idOf e.dst = v).map fun e => max 0 (cap e.edgeId)).sum

/-- The total capacity of the edges that leave a set of nodes. -/
def cutCapacity (T : Finset NodeId) : ℤ :=
  ((S.edges.filter fun e => S.idOf e.src ∈ T ∧ S.idOf e.dst ∉ T).map
    fun e => max 0 (cap e.edgeId)).sum

/-- Some edge of positive capacity joins two nodes, in either direction. -/
def Linked (es : List DenseEdge) (u v : NodeId) : Prop :=
  ∃ e ∈ es, 0 < cap e.edgeId ∧ ((S.idOf e.src = u ∧ S.idOf e.dst = v) ∨
    (S.idOf e.src = v ∧ S.idOf e.dst = u))

lemma pairCapacity_concat (es : List DenseEdge) (e : DenseEdge) (u v : NodeId) :
    S.pairCapacity cap (es ++ [e]) u v = S.pairCapacity cap es u v +
      if S.idOf e.src = u ∧ S.idOf e.dst = v then max 0 (cap e.edgeId) else 0 := by
  rw [pairCapacity, filter_append, map_append, sum_append, pairCapacity,
    filter_singleton]
  by_cases h : S.idOf e.src = u ∧ S.idOf e.dst = v <;> simp [h]

lemma pairCapacity_nonneg (es : List DenseEdge) (u v : NodeId) :
    0 ≤ S.pairCapacity cap es u v := by
  apply sum_nonneg
  intro x hx
  obtain ⟨e, -, rfl⟩ := mem_map.mp hx
  exact le_max_left _ _

variable {S cap}

variable (S cap) in
lemma pairCapacity_mono (es rest : List DenseEdge) (u v : NodeId) :
    S.pairCapacity cap es u v ≤ S.pairCapacity cap (es ++ rest) u v := by
  rw [pairCapacity, pairCapacity, filter_append, map_append, sum_append]
  have := S.pairCapacity_nonneg cap rest u v
  rw [pairCapacity] at this
  omega

variable {es : List DenseEdge} {u v : NodeId} {net : FlowNetwork} {capacity : Amount}

lemma linked_comm :
    S.Linked cap es u v ↔ S.Linked cap es v u := by
  simp only [Linked, or_comm]

lemma linked_concat {e : DenseEdge} :
    S.Linked cap (es ++ [e]) u v ↔ S.Linked cap es u v ∨ (0 < cap e.edgeId ∧
      ((S.idOf e.src = u ∧ S.idOf e.dst = v) ∨ (S.idOf e.src = v ∧ S.idOf e.dst = u))) := by
  simp only [Linked, mem_append, mem_singleton, or_and_right, exists_or,
    exists_eq_left]

/-- A network that holds an amount for each direction of the linked pairs. A loop has an entry too,
which no path uses. -/
structure Carries (linked : NodeId → NodeId → Prop) (r : NodeId → NodeId → ℤ)
    (net : FlowNetwork) : Prop where
  some_of_linked : ∀ u v, u ≠ v → linked u v → net.residual.get (u, v) = some (r u v * 2 ^ 1074)
  none_of_not : ∀ u v, u ≠ v → ¬linked u v → net.residual.get (u, v) = none ∧ r u v = 0
  neighbor : ∀ u v, u ≠ v → linked u v → v ∈ net.neighbors u

lemma getD_pushNeighbor (adj : Table NodeId (List NodeId)) (u v w x : NodeId) :
    x ∈ ((FlowNetwork.pushNeighbor adj u v).get w).getD [] ↔
      x ∈ (adj.get w).getD [] ∨ (w = u ∧ x = v) := by
  rw [FlowNetwork.pushNeighbor, Table.get_put]
  split
  next heq =>
    subst heq
    simp
  next hne => simp [hne]

lemma addAmount_of_le {i j : ℤ} (h₀ : 0 ≤ i + j) (h : i + j ≤ 2 ^ 53) :
    addAmount (i * 2 ^ 1074) (j * 2 ^ 1074) = (i + j) * 2 ^ 1074 := by
  rw [addAmount, ← add_mul]
  exact F64.roundScaled_mul_pow (by omega) 1074

lemma get_addEdge {a b : NodeId} (hpos : 0 < capacity) (huv : u ≠ v) :
    (net.addEdge a b capacity).residual.get (u, v) =
      if u = a ∧ v = b then some (addAmount ((net.residual.get (a, b)).getD 0) capacity)
      else if u = b ∧ v = a ∧ net.residual.get (b, a) = none then some 0
      else net.residual.get (u, v) := by
  have hput : ∀ x : NodeId × NodeId, (net.residual.put (a, b)
      (addAmount ((net.residual.get (a, b)).getD 0) capacity)).get x =
        if x = (a, b) then some (addAmount ((net.residual.get (a, b)).getD 0) capacity)
        else net.residual.get x := fun x => Table.get_put ..
  rw [FlowNetwork.addEdge, if_pos hpos]
  dsimp only
  generalize net.residual.put (a, b) _ = forward at hput ⊢
  have hinsert : (if forward.get (b, a) = none then forward.put (b, a) 0 else forward).get (u, v) =
      if (u, v) = (b, a) ∧ forward.get (b, a) = none then some 0 else forward.get (u, v) := by
    by_cases hnone : forward.get (b, a) = none
    · rw [if_pos hnone, Table.get_put]
      simp [hnone]
    · rw [if_neg hnone, if_neg fun h => hnone h.2]
  rw [hinsert]
  by_cases hab : u = a ∧ v = b
  · obtain ⟨rfl, rfl⟩ := hab
    have hrev : (u, v) ≠ (v, u) := fun heq => huv (Prod.mk.inj heq).1
    rw [if_neg (fun h => hrev h.1), hput, if_pos rfl, if_pos (show u = u ∧ v = v from ⟨rfl, rfl⟩)]
  · have hne : (u, v) ≠ (a, b) := fun heq => hab (Prod.mk.inj heq)
    rw [if_neg (c := u = a ∧ v = b) hab]
    by_cases hba : u = b ∧ v = a
    · obtain ⟨rfl, rfl⟩ := hba
      rw [hput, if_neg hne]
      simp
    · have hne' : (u, v) ≠ (b, a) := fun heq => hba (Prod.mk.inj heq)
      rw [if_neg fun h => hne' h.1, hput, if_neg hne, if_neg fun h => hba ⟨h.1, h.2.1⟩]

lemma mem_neighbors_addEdge {a b : NodeId} {w x : NodeId} :
    x ∈ (net.addEdge a b capacity).neighbors w ↔ x ∈ net.neighbors w ∨
      (0 < capacity ∧ ((w = a ∧ x = b) ∨ (w = b ∧ x = a))) := by
  rw [FlowNetwork.addEdge]
  split
  next hpos =>
    rw [FlowNetwork.neighbors, getD_pushNeighbor, getD_pushNeighbor, or_assoc]
    simp [hpos, FlowNetwork.neighbors]
  next hneg => simp [hneg]

lemma Carries.addEdge {e : DenseEdge} (h : Carries (S.Linked cap es) (S.pairCapacity cap es) net)
    (hneg : cap e.edgeId ≤ 0 → capacity ≤ 0)
    (hpos : 0 ≤ cap e.edgeId → cap e.edgeId ≤ 2 ^ 53 → capacity = cap e.edgeId * 2 ^ 1074)
    (hbound : S.idOf e.src ≠ S.idOf e.dst →
        S.pairCapacity cap (es ++ [e]) (S.idOf e.src) (S.idOf e.dst) ≤ 2 ^ 53) :
    Carries (S.Linked cap (es ++ [e])) (S.pairCapacity cap (es ++ [e]))
      (net.addEdge (S.idOf e.src) (S.idOf e.dst) capacity) := by
  -- A pair the edge does not touch is as before.
  have hother : ∀ u v, ¬(0 < cap e.edgeId ∧ ((S.idOf e.src = u ∧ S.idOf e.dst = v) ∨
      (S.idOf e.src = v ∧ S.idOf e.dst = u))) →
      (S.Linked cap (es ++ [e]) u v ↔ S.Linked cap es u v) ∧
        S.pairCapacity cap (es ++ [e]) u v = S.pairCapacity cap es u v := by
    intro u v hnot
    refine ⟨by rw [linked_concat]; exact or_iff_left hnot, ?_⟩
    rw [pairCapacity_concat]
    split
    next heq =>
      have hle : cap e.edgeId ≤ 0 := by
        by_contra hgt
        exact hnot ⟨not_le.mp hgt, Or.inl heq⟩
      rw [max_eq_left hle, add_zero]
    next => rw [add_zero]
  by_cases hadd : S.idOf e.src = S.idOf e.dst ∨ cap e.edgeId ≤ 0
  · have hsame : ∀ u v, u ≠ v →
        (net.addEdge (S.idOf e.src) (S.idOf e.dst) capacity).residual.get (u, v) =
          net.residual.get (u, v) := by
      intro u v huv
      by_cases hc : 0 < capacity
      · have hloop : S.idOf e.src = S.idOf e.dst :=
          hadd.resolve_right fun hle => absurd hc (not_lt.mpr (hneg hle))
        rw [get_addEdge hc huv, if_neg, if_neg]
        · rintro ⟨rfl, rfl, -⟩
          exact huv hloop.symm
        · rintro ⟨rfl, rfl⟩
          exact huv hloop
      · rw [FlowNetwork.addEdge, if_neg hc]
    have hnot : ∀ u v, u ≠ v → ¬(0 < cap e.edgeId ∧ ((S.idOf e.src = u ∧ S.idOf e.dst = v) ∨
        (S.idOf e.src = v ∧ S.idOf e.dst = u))) := by
      rintro u v huv ⟨hc, ⟨rfl, rfl⟩ | ⟨rfl, rfl⟩⟩
      · exact hadd.elim huv fun hle => absurd hc (not_lt.mpr hle)
      · exact hadd.elim (fun heq => huv heq.symm) fun hle => absurd hc (not_lt.mpr hle)
    refine ⟨fun u v huv hl => ?_, fun u v huv hl => ?_, fun u v huv hl => ?_⟩
    · obtain ⟨hlinked, hcap⟩ := hother u v (hnot u v huv)
      rw [hsame u v huv, hcap]
      exact h.some_of_linked u v huv (hlinked.mp hl)
    · obtain ⟨hlinked, hcap⟩ := hother u v (hnot u v huv)
      rw [hsame u v huv, hcap]
      exact h.none_of_not u v huv fun hold => hl (hlinked.mpr hold)
    · obtain ⟨hlinked, -⟩ := hother u v (hnot u v huv)
      exact mem_neighbors_addEdge.mpr (Or.inl (h.neighbor u v huv (hlinked.mp hl)))
  · obtain ⟨hne, hc⟩ := not_or.mp hadd
    have hc := not_le.mp hc
    have hbound := hbound hne
    have hforward : S.pairCapacity cap (es ++ [e]) (S.idOf e.src) (S.idOf e.dst) =
        S.pairCapacity cap es (S.idOf e.src) (S.idOf e.dst) + cap e.edgeId := by
      rw [pairCapacity_concat, if_pos ⟨rfl, rfl⟩, max_eq_right hc.le]
    have hbackward : S.pairCapacity cap (es ++ [e]) (S.idOf e.dst) (S.idOf e.src) =
        S.pairCapacity cap es (S.idOf e.dst) (S.idOf e.src) := by
      rw [pairCapacity_concat, if_neg fun heq => hne heq.1, add_zero]
    have hold := S.pairCapacity_nonneg cap es (S.idOf e.src) (S.idOf e.dst)
    have hcapacity : capacity = cap e.edgeId * 2 ^ 1074 := hpos hc.le (by omega)
    have hcpos : 0 < capacity := by
      rw [hcapacity]
      exact mul_pos hc unit_pos
    -- The amount an entry holds, read with zero as the default, is the capacity so far.
    have hread : ∀ u v, u ≠ v →
        (net.residual.get (u, v)).getD 0 = S.pairCapacity cap es u v * 2 ^ 1074 := by
      intro u v huv
      by_cases hl : S.Linked cap es u v
      · rw [h.some_of_linked u v huv hl, Option.getD_some]
      · obtain ⟨hnone, hzero⟩ := h.none_of_not u v huv hl
        rw [hnone, hzero, zero_mul, Option.getD_none]
    have hget : ∀ u v, u ≠ v → S.Linked cap (es ++ [e]) u v →
        (net.addEdge (S.idOf e.src) (S.idOf e.dst) capacity).residual.get (u, v) =
          some (S.pairCapacity cap (es ++ [e]) u v * 2 ^ 1074) := by
      intro u v huv hl
      rw [get_addEdge hcpos huv]
      split
      next heq =>
        obtain ⟨rfl, rfl⟩ := heq
        rw [hread _ _ huv, hcapacity, addAmount_of_le (by omega) (by omega), hforward]
      next hnotForward =>
        split
        next heq =>
          obtain ⟨rfl, rfl, hnone⟩ := heq
          have hread := hread _ _ huv
          rw [hnone, Option.getD_none] at hread
          rw [hbackward, ← hread]
        next hnotNew =>
          by_cases hback : u = S.idOf e.dst ∧ v = S.idOf e.src
          · obtain ⟨rfl, rfl⟩ := hback
            have hsome : net.residual.get (S.idOf e.dst, S.idOf e.src) ≠ none :=
              fun hnone => hnotNew ⟨rfl, rfl, hnone⟩
            have hlinked : S.Linked cap es (S.idOf e.dst) (S.idOf e.src) := by
              by_contra hl'
              exact hsome (h.none_of_not _ _ huv hl').1
            rw [hbackward]
            exact h.some_of_linked _ _ huv hlinked
          · obtain ⟨hlinked, hcap⟩ := hother u v (by
              rintro ⟨-, ⟨rfl, rfl⟩ | ⟨rfl, rfl⟩⟩
              · exact hnotForward ⟨rfl, rfl⟩
              · exact hback ⟨rfl, rfl⟩)
            rw [hcap]
            exact h.some_of_linked u v huv (hlinked.mp hl)
    refine ⟨hget, fun u v huv hl => ?_, fun u v huv hl => ?_⟩
    · have hnot : ¬(0 < cap e.edgeId ∧ ((S.idOf e.src = u ∧ S.idOf e.dst = v) ∨
          (S.idOf e.src = v ∧ S.idOf e.dst = u))) := fun hnew =>
          hl (linked_concat.mpr (Or.inr hnew))
      obtain ⟨hlinked, hcap⟩ := hother u v hnot
      rw [get_addEdge hcpos huv, if_neg, if_neg, hcap]
      · exact h.none_of_not u v huv fun hold => hl (hlinked.mpr hold)
      · rintro ⟨rfl, rfl, -⟩
        exact hnot ⟨hc, Or.inr ⟨rfl, rfl⟩⟩
      · rintro ⟨rfl, rfl⟩
        exact hnot ⟨hc, Or.inl ⟨rfl, rfl⟩⟩
    · rw [mem_neighbors_addEdge]
      rcases linked_concat.mp hl with hl | ⟨-, ⟨rfl, rfl⟩ | ⟨rfl, rfl⟩⟩
      · exact Or.inl (h.neighbor u v huv hl)
      · exact Or.inr ⟨hcpos, Or.inl ⟨rfl, rfl⟩⟩
      · exact Or.inr ⟨hcpos, Or.inr ⟨rfl, rfl⟩⟩

lemma carries_flowNetwork {s : Tables} {property : String}
    (hcap : ∀ e ∈ S.edges, exactCapacity s property e.edgeId = cap e.edgeId * 2 ^ 1074)
    (hbound : ∀ u v, u ≠ v → S.pairCapacity cap S.edges u v ≤ 2 ^ 53) :
    Carries (S.Linked cap S.edges) (S.pairCapacity cap S.edges) (S.flowNetwork s property) := by
  let add (net : FlowNetwork) (e : DenseEdge) : FlowNetwork :=
    net.addEdge (S.idOf e.src) (S.idOf e.dst) (capacityOf s property e.edgeId)
  have hfold : S.flowNetwork s property = (S.edges.foldl add ⟨.empty, .empty⟩).sortNeighbors := by
    rw [S.edges_eq_flatMap, foldl_flatMap]
    simp only [foldl_map]
    rfl
  -- The network of the edges so far carries their capacities.
  have hrun : ∀ rest es net, S.edges = es ++ rest →
      Carries (S.Linked cap es) (S.pairCapacity cap es) net →
      Carries (S.Linked cap S.edges) (S.pairCapacity cap S.edges) (rest.foldl add net) := by
    intro rest
    induction rest with
    | nil =>
      intro es net hes h
      rw [hes, append_nil]
      exact h
    | cons e rest ih =>
      intro es net hes h
      have hsplit : S.edges = (es ++ [e]) ++ rest := by
        rw [hes, append_assoc, singleton_append]
      have hmem : e ∈ S.edges := by
        rw [hes]
        exact mem_append_right _ mem_cons_self
      obtain ⟨hneg, hpos⟩ := capacityOf_of_integer (hcap e hmem)
      refine ih (es ++ [e]) _ hsplit (h.addEdge hneg hpos fun hne => ?_)
      have hle := S.pairCapacity_mono cap (es ++ [e]) rest (S.idOf e.src) (S.idOf e.dst)
      rw [← hsplit] at hle
      exact hle.trans (hbound _ _ hne)
  have hstart : Carries (S.Linked cap []) (S.pairCapacity cap []) ⟨.empty, .empty⟩ := by
    refine ⟨fun u v _ hl => ?_, fun u v _ _ => ⟨rfl, rfl⟩, fun u v _ hl => ?_⟩
    all_goals
      obtain ⟨e, he, -⟩ := hl
      cases he
  have h := hrun S.edges [] _ rfl hstart
  rw [hfold]
  refine ⟨h.some_of_linked, h.none_of_not, fun u v huv hl => ?_⟩
  have hmem := h.neighbor u v huv hl
  rw [FlowNetwork.neighbors] at hmem ⊢
  rw [FlowNetwork.sortNeighbors, Table.get_map]
  cases hget : (S.edges.foldl add ⟨.empty, .empty⟩).adj.get u with
  | none =>
    rw [hget] at hmem
    cases hmem
  | some neighbors =>
    rw [hget] at hmem
    exact Finset.mem_ascending.mpr (mem_toFinset.mpr hmem)

/-! ## Sending flow -/

lemma get_bump (residual : Table (NodeId × NodeId) Amount) (e x : NodeId × NodeId) (b : Amount) :
    (FlowNetwork.bump residual e b).get x =
      if x = e then (residual.get e).map (addAmount · b) else residual.get x := by
  rw [FlowNetwork.bump]
  by_cases hx : x = e
  · subst hx
    cases hget : residual.get x with
    | none => simp [hget]
    | some cap => simp
  · cases residual.get e with
    | none => simp [hx]
    | some cap => simp [hx]

section Augment

variable {linked : NodeId → NodeId → Prop} {r : NodeId → NodeId → ℤ} {net : FlowNetwork}
variable (hcomm : ∀ u v, linked u v → linked v u)

include hcomm in
/-- Sending over one linked pair changes its two entries as in the residual network. -/
theorem Carries.push (h : Carries linked r net) {e : NodeId × NodeId} (hne : e.1 ≠ e.2)
    (hl : linked e.1 e.2) {b : ℤ} (hb : 0 ≤ b) (hle : b ≤ r e.1 e.2)
    (hbound : r e.1 e.2 + r e.2 e.1 ≤ 2 ^ 53) (hr : 0 ≤ r e.2 e.1) :
    Carries linked (Flow.push r b e) { net with
      residual := FlowNetwork.bump (FlowNetwork.bump net.residual e (-(b * 2 ^ 1074))) e.swap
        (b * 2 ^ 1074) } := by
  obtain ⟨p, q⟩ := e
  dsimp only [Prod.swap_prod_mk] at hne hl hle hbound hr ⊢
  have hsent : addAmount (r p q * 2 ^ 1074) (-(b * 2 ^ 1074)) = (r p q - b) * 2 ^ 1074 := by
    rw [← neg_mul]
    exact addAmount_of_le (by omega) (by omega)
  have hreceived : addAmount (r q p * 2 ^ 1074) (b * 2 ^ 1074) = (r q p + b) * 2 ^ 1074 :=
    addAmount_of_le (by omega) (by omega)
  have hrev : (q, p) ≠ (p, q) := fun heq => hne (Prod.mk.inj heq).2
  have hother : ∀ u v, (u, v) ≠ (p, q) → (u, v) ≠ (q, p) → Flow.push r b (p, q) u v = r u v := by
    intro u v h₁ h₂
    have h₃ : (v, u) ≠ (p, q) :=
      fun heq => h₂ (by rw [← (Prod.mk.inj heq).1, ← (Prod.mk.inj heq).2])
    rw [Flow.push, if_neg h₁, if_neg h₃]
  refine ⟨fun u v huv hl' => ?_, fun u v huv hl' => ?_, h.neighbor⟩
  · dsimp only
    rw [get_bump, get_bump, get_bump]
    by_cases h₁ : (u, v) = (p, q)
    · obtain ⟨rfl, rfl⟩ := Prod.mk.inj h₁
      rw [if_neg hrev.symm, if_pos rfl, h.some_of_linked u v huv hl', Option.map_some, hsent,
        Flow.push, if_pos rfl]
    · by_cases h₂ : (u, v) = (q, p)
      · obtain ⟨rfl, rfl⟩ := Prod.mk.inj h₂
        rw [if_pos rfl, if_neg hrev, h.some_of_linked u v huv hl', Option.map_some, hreceived,
          Flow.push, if_neg hrev, if_pos rfl]
      · rw [if_neg h₂, if_neg h₁, hother u v h₁ h₂]
        exact h.some_of_linked u v huv hl'
  · dsimp only
    have h₁ : (u, v) ≠ (p, q) := by
      intro heq
      obtain ⟨rfl, rfl⟩ := Prod.mk.inj heq
      exact hl' hl
    have h₂ : (u, v) ≠ (q, p) := by
      intro heq
      obtain ⟨rfl, rfl⟩ := Prod.mk.inj heq
      exact hl' (hcomm _ _ hl)
    rw [get_bump, if_neg h₂, get_bump, if_neg h₁, hother u v h₁ h₂]
    exact h.none_of_not u v huv hl'

include hcomm in
/-- Sending along a path. -/
theorem Carries.augment (h : Carries linked r net) {path : List (NodeId × NodeId)}
    (hnodup : path.Nodup) (hpath : ∀ e ∈ path, e.1 ≠ e.2 ∧ linked e.1 e.2) {b : ℤ} (hb : 0 ≤ b)
    (hle : ∀ e ∈ path, b ≤ r e.1 e.2) (hr : ∀ u v, 0 ≤ r u v)
    (hbound : ∀ u v, u ≠ v → r u v + r v u ≤ 2 ^ 53) :
    Carries linked (Flow.pushAll r b path) (net.augment path (b * 2 ^ 1074)) := by
  induction path generalizing r net with
  | nil => exact h
  | cons e path ih =>
    obtain ⟨hnot, hnodup⟩ := nodup_cons.mp hnodup
    obtain ⟨hne, hl⟩ := hpath e mem_cons_self
    have hfirst := hle e mem_cons_self
    refine ih (h.push hcomm hne hl hb hfirst (hbound _ _ hne) (hr _ _)) hnodup
      (fun e' he' => hpath e' (mem_cons_of_mem _ he')) (fun e' he' => ?_)
      (Flow.push_nonneg hb hfirst hr) fun u v huv => ?_
    · have hdiff : e' ≠ e := fun heq => hnot (heq ▸ he')
      exact (hle e' (mem_cons_of_mem _ he')).trans (Flow.le_push hdiff hb)
    · rw [Flow.push_pair hne]
      exact hbound u v huv

/-- The least amount on a path is that of one of its pairs. -/
theorem Carries.bottleneck (h : Carries linked r net) {path : List (NodeId × NodeId)}
    (hne : path ≠ []) (hpath : ∀ e ∈ path, e.1 ≠ e.2 ∧ linked e.1 e.2) :
    ∃ e ∈ path, net.bottleneck path = some (some (r e.1 e.2 * 2 ^ 1074)) ∧
      ∀ e' ∈ path, r e.1 e.2 ≤ r e'.1 e'.2 := by
  have hget : ∀ e ∈ path, net.residual.get e = some (r e.1 e.2 * 2 ^ 1074) :=
    fun e he => h.some_of_linked e.1 e.2 (hpath e he).1 (hpath e he).2
  have hrun : ∀ rest : List (NodeId × NodeId),
      (∀ e ∈ rest, net.residual.get e = some (r e.1 e.2 * 2 ^ 1074)) → ∀ first : NodeId × NodeId,
      ∃ e ∈ first :: rest, rest.foldlM (fun least e => do
          let cap ← net.residual.get e
          some (some (match least with
            | none => cap
            | some least => if cap < least then cap else least)))
          (some (r first.1 first.2 * 2 ^ 1074)) = some (some (r e.1 e.2 * 2 ^ 1074)) ∧
        ∀ e' ∈ first :: rest, r e.1 e.2 ≤ r e'.1 e'.2 := by
    intro rest
    induction rest with
    | nil =>
      intro _ first
      refine ⟨first, mem_cons_self, rfl, fun e' he' => ?_⟩
      rw [mem_singleton.mp he']
    | cons next rest ih =>
      intro hrest first
      have hlt : (r next.1 next.2 * 2 ^ 1074 < r first.1 first.2 * 2 ^ 1074) ↔
          r next.1 next.2 < r first.1 first.2 := mul_lt_mul_iff_left₀ unit_pos
      rw [foldlM_cons, hrest next mem_cons_self]
      have hih := ih fun e he => hrest e (mem_cons_of_mem _ he)
      by_cases hless : r next.1 next.2 < r first.1 first.2
      · obtain ⟨e, he, hfold, hall⟩ := hih next
        refine ⟨e, mem_cons_of_mem _ he, ?_, fun e' he' => ?_⟩
        · rw [← hfold]
          change rest.foldlM _ (some (if _ then _ else _)) = _
          rw [if_pos (hlt.mpr hless)]
        · rcases mem_cons.mp he' with rfl | he'
          · exact (hall next mem_cons_self).trans hless.le
          · exact hall e' he'
      · obtain ⟨e, he, hfold, hall⟩ := hih first
        refine ⟨e, ?_, ?_, fun e' he' => ?_⟩
        · rcases mem_cons.mp he with rfl | he
          · exact mem_cons_self
          · exact mem_cons_of_mem _ (mem_cons_of_mem _ he)
        · rw [← hfold]
          change rest.foldlM _ (some (if _ then _ else _)) = _
          rw [if_neg (mt hlt.mp hless)]
        · have hfirst := hall first mem_cons_self
          rcases mem_cons.mp he' with rfl | he'
          · exact hfirst
          · rcases mem_cons.mp he' with rfl | he'
            · exact hfirst.trans (not_lt.mp hless)
            · exact hall e' (mem_cons_of_mem _ he')
  cases path with
  | nil => exact absurd rfl hne
  | cons first rest =>
    obtain ⟨e, he, hfold, hall⟩ := hrun rest (fun e he => hget e (mem_cons_of_mem _ he)) first
    refine ⟨e, he, ?_, hall⟩
    rw [FlowNetwork.bottleneck, foldlM_cons, hget first mem_cons_self]
    exact hfold

end Augment

/-! ## The loop -/

/-- An amount of whole units is above the tolerance just when it is positive. -/
theorem tolerance_lt_iff (i : ℤ) : flowTolerance.scaled < i * 2 ^ 1074 ↔ 0 < i := by
  have hpos : 0 < flowTolerance.scaled := by decide +kernel
  have hlt : flowTolerance.scaled < 2 ^ 1074 := by decide +kernel
  constructor
  · intro h
    by_contra hle
    have := mul_nonpos_of_nonpos_of_nonneg (not_lt.mp hle) unit_pos.le
    exact absurd (hpos.trans h) (not_lt.mpr this)
  · intro h
    have : 1 * 2 ^ 1074 ≤ i * 2 ^ 1074 := mul_le_mul_of_nonneg_right h unit_pos.le
    rw [one_mul] at this
    exact hlt.trans_le this

/-- What the loop works on: nodes, the pairs that entries link, the capacities and a bounded cut. -/
structure FlowProblem where
  source : NodeId
  sink : NodeId
  nodes : Finset NodeId
  linked : NodeId → NodeId → Prop
  c : NodeId → NodeId → ℤ
  ne : source ≠ sink
  source_mem : source ∈ nodes
  linked_comm : ∀ u v, linked u v → linked v u
  linked_mem : ∀ u v, linked u v → v ∈ nodes
  bound : ∀ u v, u ≠ v → c u v + c v u ≤ 2 ^ 53
  /-- A cut that fits bounds the value. -/
  limit : Finset NodeId
  limit_subset : limit ⊆ nodes
  source_limit : source ∈ limit
  sink_limit : sink ∉ limit
  cut_limit : Flow.cut nodes c limit ≤ 2 ^ 53

namespace FlowProblem

variable (P : FlowProblem)

variable {P} {net : FlowNetwork} {r : NodeId → NodeId → ℤ} {value : ℤ}

/-- A pair of different nodes is usable just when it is linked and has something left. -/
theorem usable_iff (hnet : Carries P.linked r net) {u v : NodeId} (huv : u ≠ v) :
    net.usable u v = true ↔ P.linked u v ∧ 0 < r u v := by
  by_cases hl : P.linked u v
  · rw [FlowNetwork.usable, hnet.some_of_linked u v huv hl, Option.any_some, decide_eq_true_iff,
      tolerance_lt_iff]
    simp [hl]
  · rw [FlowNetwork.usable, (hnet.none_of_not u v huv hl).1]
    simp [hl]

lemma usable_mem (hnet : Carries P.linked r net) {u v : NodeId} (hu : u ∈ P.nodes)
    (h : net.usable u v = true) : v ∈ P.nodes := by
  by_cases huv : u = v
  · exact huv ▸ hu
  · exact P.linked_mem u v ((usable_iff hnet huv).mp h).1

/-- With enough fuel the loop ends with the value of a cut. -/
theorem augmentAll {fuel : ℕ} (hnet : Carries P.linked r net)
    (hr : Flow.IsResidual P.nodes P.c P.source P.sink r value)
    (hfuel : P.nodes.card + 1 + (Flow.cut P.nodes P.c P.limit - value).toNat < fuel)
    (hvalue : 0 ≤ value) :
    ∃ r' value' T, FlowNetwork.augmentAll P.source P.sink fuel net (value * 2 ^ 1074) =
        some (value' * 2 ^ 1074) ∧ Flow.IsResidual P.nodes P.c P.source P.sink r' value' ∧
      T ⊆ P.nodes ∧ P.source ∈ T ∧ P.sink ∉ T ∧ value' = Flow.cut P.nodes P.c T := by
  induction fuel generalizing net r value with
  | zero => omega
  | succ fuel ih =>
    obtain ⟨result, hsearch, hresult⟩ := searchFor_spec net.neighbors net.usable P.sink P.source_mem
      (fun u hu v _ husable => usable_mem hnet hu husable) (show P.nodes.card < fuel by omega)
    cases result with
    | none =>
      obtain ⟨T, hT, hs, ht, hclosed⟩ := hresult
      refine ⟨r, value, T, ?_, hr, hT, hs, ht, hr.value_eq_cut hT hs ht fun u hu v hv => ?_⟩
      · simp only [FlowNetwork.augmentAll, hsearch, bind, Option.bind]
      · obtain ⟨-, hvT⟩ := Finset.mem_sdiff.mp hv
        have huv : u ≠ v := fun heq => hvT (heq ▸ hu)
        by_cases hl : P.linked u v
        · -- A pair with something left would have been followed.
          have hnonneg := hr.nonneg u v
          by_contra hne
          have husable := (usable_iff hnet huv).mpr ⟨hl, by omega⟩
          exact hvT (hclosed u hu v (hnet.neighbor u v huv hl) husable)
        · exact (hnet.none_of_not u v huv hl).2
    | some parent =>
      obtain ⟨path, hwalk, hback, hnodup, hpath⟩ := hresult fuel (by omega)
      have hne : path ≠ [] := by
        rintro rfl
        exact P.ne hback.eq_of_nil.symm
      have husable : ∀ e ∈ path, e.1 ≠ e.2 ∧ P.linked e.1 e.2 ∧ 0 < r e.1 e.2 := by
        intro e he
        obtain ⟨-, -, hdiff, -, husable⟩ := hpath e he
        exact ⟨hdiff, (usable_iff hnet hdiff).mp husable⟩
      have hlinked : ∀ e ∈ path, e.1 ≠ e.2 ∧ P.linked e.1 e.2 :=
        fun e he => ⟨(husable e he).1, (husable e he).2.1⟩
      obtain ⟨e, he, hbottleneck, hleast⟩ := hnet.bottleneck hne hlinked
      have hb : 0 < r e.1 e.2 := (husable e he).2.2
      have hr' := hr.pushAll P.ne hback hnodup
        (fun e he => ⟨(hpath e he).2.2.1, (hpath e he).1, (hpath e he).2.1⟩) hb.le hleast
      have hnet' :=
        hnet.augment P.linked_comm hnodup hlinked hb.le hleast hr.nonneg fun u v huv => by
        rw [hr.pair]
        exact P.bound u v huv
      have hlimit := hr'.value_le_cut P.limit_subset P.source_limit P.sink_limit
      have hcut := P.cut_limit
      obtain ⟨r'', value'', T, hrun, hrest⟩ := ih hnet' hr' (by omega) (by omega)
      refine ⟨r'', value'', T, ?_, hrest⟩
      rw [← hrun, ← addAmount_of_le (by omega) (by omega)]
      simp only [FlowNetwork.augmentAll, hsearch, hwalk, hbottleneck, bind, Option.bind]

end FlowProblem

/-! ## Cuts -/

/-- The capacities between different nodes. -/
def capacities (S : Snapshot) (cap : EdgeId → ℤ) (es : List DenseEdge) (u v : NodeId) : ℤ :=
  if u = v then 0 else S.pairCapacity cap es u v

/-- The nodes of a snapshot and two more. -/
def flowNodes (S : Snapshot) (source sink : NodeId) : Finset NodeId :=
  insert source (insert sink S.denseToId.toFinset)

lemma idOf_mem_flowNodes {d : ℕ} (hd : d < S.n) (source sink : NodeId) :
    S.idOf d ∈ S.flowNodes source sink :=
  Finset.mem_insert_of_mem (Finset.mem_insert_of_mem (mem_toFinset.mpr (S.idOf_mem hd)))

/-- A cut of the network counts the edges that leave the set. -/
theorem cut_capacities (N T : Finset NodeId) (hes : ∀ e ∈ es, S.idOf e.src ∈ N ∧ S.idOf e.dst ∈ N) :
    Flow.cut N (S.capacities cap es) (T ∩ N) =
      ((es.filter fun e => S.idOf e.src ∈ T ∧ S.idOf e.dst ∉ T).map
        fun e => max 0 (cap e.edgeId)).sum := by
  have hne : ∀ u ∈ T ∩ N, ∀ v ∈ N \ (T ∩ N), u ≠ v := by
    rintro u hu v hv rfl
    exact (Finset.mem_sdiff.mp hv).2 hu
  have hcut : Flow.cut N (S.capacities cap es) (T ∩ N) =
      ∑ u ∈ T ∩ N, ∑ v ∈ N \ (T ∩ N), S.pairCapacity cap es u v := by
    apply Finset.sum_congr rfl
    intro u hu
    apply Finset.sum_congr rfl
    intro v hv
    exact if_neg (hne u hu v hv)
  rw [hcut]
  clear hcut hne
  induction es using List.reverseRecOn with
  | nil => simp [pairCapacity]
  | append_singleton es e ih =>
    obtain ⟨hsrc, hdst⟩ := hes e (mem_append_right _ mem_cons_self)
    have hnew : ∑ u ∈ T ∩ N, ∑ v ∈ N \ (T ∩ N),
        (if S.idOf e.src = u ∧ S.idOf e.dst = v then max 0 (cap e.edgeId) else 0) =
          if S.idOf e.src ∈ T ∧ S.idOf e.dst ∉ T then max 0 (cap e.edgeId) else 0 := by
      simp only [ite_and, Finset.sum_ite_irrel, Finset.sum_ite_eq, Finset.sum_const_zero]
      simp only [Finset.mem_inter, Finset.mem_sdiff, hsrc, hdst, and_true, true_and]
    simp only [pairCapacity_concat, Finset.sum_add_distrib, hnew,
      ih fun e' he' => hes e' (mem_append_left _ he')]
    rw [filter_append, map_append, sum_append, filter_singleton]
    by_cases h : S.idOf e.src ∈ T ∧ S.idOf e.dst ∉ T <;> simp [h]

lemma cutCapacity_eq_cut (S : Snapshot) (cap : EdgeId → ℤ) (source sink : NodeId)
    (T : Finset NodeId) : S.cutCapacity cap T = Flow.cut (S.flowNodes source sink)
      (S.capacities cap S.edges) (T ∩ S.flowNodes source sink) :=
  (cut_capacities _ T fun _ he => ⟨idOf_mem_flowNodes (S.src_lt he) source sink,
    idOf_mem_flowNodes (S.dst_lt he) source sink⟩).symm

lemma cutCapacity_nonneg (S : Snapshot) (cap : EdgeId → ℤ) (T : Finset NodeId) :
    0 ≤ S.cutCapacity cap T := by
  apply sum_nonneg
  intro x hx
  obtain ⟨e, -, rfl⟩ := mem_map.mp hx
  exact le_max_left _ _

lemma cutCapacity_eq_zero {T : Finset NodeId} (h : ∀ e ∈ S.edges, S.idOf e.src ∈ T →
    S.idOf e.dst ∉ T → ¬0 < cap e.edgeId) : S.cutCapacity cap T = 0 := by
  apply sum_eq_zero
  intro x hx
  obtain ⟨e, he, rfl⟩ := mem_map.mp hx
  obtain ⟨he, hends⟩ := mem_filter.mp he
  obtain ⟨hsrc, hdst⟩ := of_decide_eq_true hends
  exact max_eq_left (not_lt.mp (h e he hsrc hdst))

end Snapshot

open Snapshot in
/-- While the capacities between any two nodes, and those across some cut, fit 53 bits, the
augmenting loop ends and its result is the capacity of a minimum cut. -/
theorem Snapshot.maximumFlow_eq_minimumCut (S : Snapshot) {s : Tables} {property : String}
    {cap : EdgeId → ℤ}
    (hcap : ∀ e ∈ S.edges, exactCapacity s property e.edgeId = cap e.edgeId * 2 ^ 1074)
    {source sink : NodeId} (hne : source ≠ sink)
    (hpair : ∀ u v, u ≠ v →
      S.pairCapacity cap S.edges u v + S.pairCapacity cap S.edges v u ≤ 2 ^ 53)
    (hcut : ∃ T : Finset NodeId, source ∈ T ∧ sink ∉ T ∧ S.cutCapacity cap T ≤ 2 ^ 53) :
    ∃ m, IsLeast {x | ∃ T : Finset NodeId, source ∈ T ∧ sink ∉ T ∧ S.cutCapacity cap T = x} m ∧
      ∃ bound, ∀ fuel, bound ≤ fuel →
        S.maximumFlow s source sink property fuel = some (m * 2 ^ 1074) := by
  have hbuilt := carries_flowNetwork hcap fun u v huv => by
    have := hpair u v huv
    have := S.pairCapacity_nonneg cap S.edges v u
    omega
  have hneighbor : ∀ u v, u ≠ v → S.Linked cap S.edges u v →
      (S.flowNetwork s property).adj.get u ≠ none := by
    intro u v huv hl hnone
    have hmem := hbuilt.neighbor u v huv hl
    rw [FlowNetwork.neighbors, hnone] at hmem
    cases hmem
  by_cases hisolated : (S.flowNetwork s property).adj.get source = none ∨
      (S.flowNetwork s property).adj.get sink = none
  · -- Nothing leaves the source, or nothing enters the sink.
    refine ⟨0, ⟨?_, ?_⟩, 0, fun fuel _ => ?_⟩
    · rcases hisolated with hnone | hnone
      · refine ⟨{source}, Finset.mem_singleton_self _, by simpa using hne.symm, ?_⟩
        refine cutCapacity_eq_zero fun e he hsrc hdst hpos => ?_
        rw [Finset.mem_singleton] at hsrc hdst
        exact hneighbor source (S.idOf e.dst) (Ne.symm hdst) ⟨e, he, hpos, Or.inl ⟨hsrc, rfl⟩⟩ hnone
      · refine ⟨(S.flowNodes source sink).erase sink, Finset.mem_erase.mpr
          ⟨hne, Finset.mem_insert_self _ _⟩, Finset.notMem_erase _ _, ?_⟩
        refine cutCapacity_eq_zero fun e he hsrc hdst hpos => ?_
        have hsink : S.idOf e.dst = sink := by
          by_contra hother
          exact hdst (Finset.mem_erase.mpr ⟨hother, idOf_mem_flowNodes (S.dst_lt he) _ _⟩)
        exact hneighbor sink (S.idOf e.src) (Ne.symm (Finset.mem_erase.mp hsrc).1)
          ⟨e, he, hpos, Or.inr ⟨rfl, hsink⟩⟩ hnone
    · rintro x ⟨T, -, -, rfl⟩
      exact S.cutCapacity_nonneg cap T
    · rw [CsrArrays.maximumFlow, if_neg hne, zero_mul]
      exact if_pos hisolated
  · obtain ⟨limit, hsource, hsink, hlimit⟩ := hcut
    let P : FlowProblem :=
      { source, sink
        nodes := S.flowNodes source sink
        linked := S.Linked cap S.edges
        c := S.capacities cap S.edges
        ne := hne
        source_mem := Finset.mem_insert_self _ _
        linked_comm := fun u v h => linked_comm.mp h
        linked_mem := by
          rintro u v ⟨e, he, -, ⟨-, rfl⟩ | ⟨rfl, -⟩⟩
          · exact idOf_mem_flowNodes (S.dst_lt he) _ _
          · exact idOf_mem_flowNodes (S.src_lt he) _ _
        bound := fun u v huv => by
          rw [capacities, if_neg huv, capacities, if_neg huv.symm]
          exact hpair u v huv
        limit := limit ∩ S.flowNodes source sink
        limit_subset := Finset.inter_subset_right
        source_limit := Finset.mem_inter.mpr ⟨hsource, Finset.mem_insert_self _ _⟩
        sink_limit := fun h => hsink (Finset.mem_inter.mp h).1
        cut_limit := by rwa [← S.cutCapacity_eq_cut] }
    have hstart : Flow.IsResidual P.nodes P.c P.source P.sink P.c 0 :=
      .start (fun u v => by
        change 0 ≤ S.capacities cap S.edges u v
        rw [capacities]
        split
        · exact le_rfl
        · exact S.pairCapacity_nonneg cap S.edges u v) _ _
    have hnet : Carries P.linked P.c (S.flowNetwork s property) := by
      refine ⟨fun u v huv hl => ?_, fun u v huv hl => ?_, hbuilt.neighbor⟩
      · change _ = some (S.capacities cap S.edges u v * 2 ^ 1074)
        rw [capacities, if_neg huv]
        exact hbuilt.some_of_linked u v huv hl
      · change _ ∧ S.capacities cap S.edges u v = 0
        rw [capacities, if_neg huv]
        exact hbuilt.none_of_not u v huv hl
    obtain ⟨bound, hrun⟩ : ∃ bound, ∀ fuel, bound ≤ fuel →
        ∃ m, IsLeast {x | ∃ T : Finset NodeId, source ∈ T ∧ sink ∉ T ∧ S.cutCapacity cap T = x} m ∧
          S.maximumFlow s source sink property fuel = some (m * 2 ^ 1074) := by
      refine ⟨P.nodes.card + 1 + (Flow.cut P.nodes P.c P.limit - 0).toNat + 1, fun fuel hfuel => ?_⟩
      obtain ⟨r, m, T, hresult, hr, hT, hs, ht, hm⟩ := FlowProblem.augmentAll hnet hstart
        hfuel le_rfl
      refine ⟨m, ⟨⟨T, hs, ht, ?_⟩, ?_⟩, ?_⟩
      · rw [S.cutCapacity_eq_cut cap source sink, Finset.inter_eq_left.mpr hT]
        exact hm.symm
      · rintro x ⟨T', hs', ht', rfl⟩
        rw [S.cutCapacity_eq_cut cap source sink]
        exact hr.value_le_cut Finset.inter_subset_right
          (Finset.mem_inter.mpr ⟨hs', Finset.mem_insert_self _ _⟩)
          fun h => ht' (Finset.mem_inter.mp h).1
      · rw [zero_mul] at hresult
        rw [CsrArrays.maximumFlow, if_neg hne]
        exact (if_neg hisolated).trans hresult
    obtain ⟨m, hm, -⟩ := hrun bound le_rfl
    refine ⟨m, hm, bound, fun fuel hfuel => ?_⟩
    obtain ⟨m', hm', hresult⟩ := hrun fuel hfuel
    rw [hresult, hm'.unique hm]

/-! ## Two parallel edges -/

/-- Two edges from node `1` to node `2`. -/
def parallelEdges : Snapshot := .ofRows [1, 2] [[⟨1, 0, 1⟩, ⟨1, 0, 2⟩], []] none (by decide)

/-- An edge from node `1` to node `2` with a capacity. -/
def capacityRecord (k : ℕ) (hk : k < 2 ^ 64) : EdgeRecord :=
  ⟨1, 2, 0, ⟨.object [("capacity", .number (.posInt k hk))], by simp [Json.wellFormed,
    Json.wellFormedFields]⟩⟩

/-- Capacities `k` and `1` on the two edges. -/
def parallelTables (k : ℕ) (hk : k < 2 ^ 64) : Tables :=
  { Storage.empty.tables with
    edges := (Table.empty.put 1 (capacityRecord k hk)).put 2 (capacityRecord 1 F64.one_fits) }

def parallelCapacity (k : ℕ) (id : EdgeId) : ℤ := if id = 1 then k else 1

namespace Snapshot

lemma parallelEdges_edges : parallelEdges.edges = [⟨0, 1, 0, 1⟩, ⟨0, 1, 0, 2⟩] := by decide

lemma parallelEdges_idOf : parallelEdges.idOf 0 = 1 ∧ parallelEdges.idOf 1 = 2 := by decide

lemma exactCapacity_parallel (k : ℕ) (hk : k < 2 ^ 64) : ∀ e ∈ parallelEdges.edges,
    exactCapacity (parallelTables k hk) "capacity" e.edgeId =
      parallelCapacity k e.edgeId * 2 ^ 1074 := by
  rw [parallelEdges_edges]
  intro e he
  rcases mem_cons.mp he with rfl | he
  · rfl
  · obtain rfl := mem_singleton.mp he
    rfl

lemma parallel_cutCapacity (k : ℕ) {T : Finset NodeId} (h₁ : 1 ∈ T) (h₂ : 2 ∉ T) :
    parallelEdges.cutCapacity (parallelCapacity k) T = k + 1 := by
  obtain ⟨hid₀, hid₁⟩ := parallelEdges_idOf
  simp [cutCapacity, parallelEdges_edges, hid₀, hid₁, h₁, h₂, parallelCapacity]

lemma parallel_isLeast (k : ℕ) : IsLeast {x | ∃ T : Finset NodeId, 1 ∈ T ∧ 2 ∉ T ∧
    parallelEdges.cutCapacity (parallelCapacity k) T = x} (k + 1) := by
  constructor
  · exact ⟨{1}, by simp, by simp, parallel_cutCapacity k (by simp) (by simp)⟩
  · rintro x ⟨T, h₁, h₂, rfl⟩
    exact (parallel_cutCapacity k h₁ h₂).ge

end Snapshot

/-- Capacities `2 ^ 53` and `1` are added to `2 ^ 53`: the result is one below the minimum cut. -/
theorem Snapshot.maximumFlow_rounds :
    parallelEdges.maximumFlow (parallelTables (2 ^ 53) (by decide)) 1 2 "capacity" 10 =
        some (2 ^ 53 * 2 ^ 1074) ∧
      IsLeast {x | ∃ T : Finset NodeId, 1 ∈ T ∧ 2 ∉ T ∧
        parallelEdges.cutCapacity (parallelCapacity (2 ^ 53)) T = x} (2 ^ 53 + 1) := by
  refine ⟨by decide +kernel, ?_⟩
  exact_mod_cast parallel_isLeast (2 ^ 53)

theorem Snapshot.maximumFlow_parallel :
    ∃ m, IsLeast {x | ∃ T : Finset NodeId, 1 ∈ T ∧ 2 ∉ T ∧
        parallelEdges.cutCapacity (parallelCapacity 3) T = x} m ∧
      ∃ bound, ∀ fuel, bound ≤ fuel →
        parallelEdges.maximumFlow (parallelTables 3 (by decide)) 1 2 "capacity" fuel =
          some (m * 2 ^ 1074) := by
  obtain ⟨hid₀, hid₁⟩ := parallelEdges_idOf
  apply parallelEdges.maximumFlow_eq_minimumCut (exactCapacity_parallel 3 (by decide)) (by decide)
  · intro u v huv
    have hpair :
        ∀ u v, parallelEdges.pairCapacity (parallelCapacity 3) parallelEdges.edges u v ≤ 4 := by
      intro u v
      rw [parallelEdges_edges]
      by_cases h : 1 = u ∧ 2 = v
      · obtain ⟨rfl, rfl⟩ := h
        simp [pairCapacity, hid₀, hid₁, parallelCapacity]
      · simp [pairCapacity, hid₀, hid₁, h]
    have := hpair u v
    have := hpair v u
    omega
  · exact ⟨{1}, by simp, by simp, by rw [parallel_cutCapacity 3 (by simp) (by simp)]; decide⟩

end IssunDB
