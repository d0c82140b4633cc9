import IssunDB.Csr.Masks
import IssunDB.Lib.Walks
import IssunDB.Lib.Words

/-!
# Counting linear paths

`countLinearPaths` counts the matches of a directed path of one or two hops without listing them.
Two hops factor through the middle node: the qualifying edges into it times the qualifying edges
out of it, less the matches in which one self-loop fills both hops. The middle nodes are split into
chunks, one for each worker.

`countLinearPaths_eq_pathMatches` states that the result is the number of matches, for every number
of workers; `shared_le` that the correction is never larger than the running total it is taken
from.
-/

namespace IssunDB

open List Option

/-- An open directed path of one or two hops: a relationship type for each hop, and a label and an
allow-set for each node variable, where the pattern has one. -/
structure PathCountSpec where
  relTypes : List (Option String)
  labels : List (Option String)
  vertexAllow : List (Option (List NodeId))
  hops : relTypes.length = 1 ∨ relTypes.length = 2
  length_labels : labels.length = relTypes.length + 1
  length_vertexAllow : vertexAllow.length ≤ relTypes.length + 1

/-- The ids of the named types; nothing if one is not registered. -/
def Tables.resolveTypes (s : Tables) : List (Option String) → Option (List (Option TypeId))
  | [] => some []
  | none :: names => (s.resolveTypes names).map (none :: ·)
  | some name :: names =>
    (s.getType name).bind fun t => (s.resolveTypes names).map (some t :: ·)

/-- What the two-hop count tests: the types of the hops and the masks of the variables. -/
structure TwoHopFilter where
  t1 : Option TypeId
  t2 : Option TypeId
  mask0 : Option (List Bool)
  mask1 : Option (List Bool)
  mask2 : Option (List Bool)

namespace CsrArrays

variable (S : CsrArrays)

def countOneHop (t : Option TypeId) (mask0 mask1 : Option (List Bool)) : ℕ :=
  (List.range S.denseToId.length).foldl (fun total v0 =>
    if maskOk mask0 v0 then
      total + (S.outRow v0).countP fun e => typeOk t e.edgeType && maskOk mask1 e.col
    else total) 0

/-- The qualifying edges into a middle node. -/
def indeg (f : TwoHopFilter) (b : ℕ) : ℕ :=
  (S.inRow b).countP fun e => typeOk f.t1 e.edgeType && maskOk f.mask0 e.col

/-- The qualifying edges out of a middle node. -/
def outdeg (f : TwoHopFilter) (b : ℕ) : ℕ :=
  (S.outRow b).countP fun e => typeOk f.t2 e.edgeType && maskOk f.mask2 e.col

/-- The self-loops of a middle node that fill both hops. -/
def shared (f : TwoHopFilter) (b : ℕ) : ℕ :=
  (S.outRow b).countP fun e => e.col = b && typeOk f.t1 e.edgeType && typeOk f.t2 e.edgeType

/-- Add the matches through one middle node. -/
def countMiddle (f : TwoHopFilter) (total b : ℕ) : ℕ :=
  if maskOk f.mask1 b = false then total
  else if S.indeg f b = 0 then total
  else
    let total := u64Add total (u64Mul (S.indeg f b) (S.outdeg f b))
    if maskOk f.mask0 b && maskOk f.mask2 b then total - S.shared f b else total

/-- The matches through the middle nodes from `lo` up to `hi`. -/
def countMiddles (f : TwoHopFilter) (lo hi : ℕ) : ℕ :=
  (List.range' lo (hi - lo)).foldl (S.countMiddle f) 0

/-- The two-hop count, by `threads` workers on disjoint ranges of middle nodes. -/
def countTwoHops (f : TwoHopFilter) (threads : ℕ) : ℕ :=
  let n := S.denseToId.length
  if threads ≤ 1 then S.countMiddles f 0 n
  else
    let chunk := (n + threads - 1) / threads
    (List.range threads).foldl (fun total t =>
      let lo := min (t * chunk) n
      u64SaturatingAdd total (S.countMiddles f lo (min (lo + chunk) n))) 0

def countLinearPaths (s : Tables) (spec : PathCountSpec) (threads : ℕ) : ℕ :=
  match s.resolveTypes spec.relTypes with
  | none => 0
  | some types =>
    if S.denseToId.length = 0 then 0
    else
      let masks := S.allowMasks (S.labelMasks s spec.labels []) spec.vertexAllow
      if spec.relTypes.length = 1 then
        S.countOneHop (types.getD 0 none) (masks.getD 0 none) (masks.getD 1 none)
      else
        S.countTwoHops ⟨types.getD 0 none, types.getD 1 none, masks.getD 0 none, masks.getD 1 none,
          masks.getD 2 none⟩ threads

end CsrArrays

/-! ## What is counted -/

/-- An edge has the type hop `i` of the path asks for. -/
def PathCountSpec.relOk (spec : PathCountSpec) (s : Tables) (i : ℕ) (e : DenseEdge) : Bool :=
  (spec.relTypes.getD i none).all fun name => s.getType name = some e.edgeType

namespace Snapshot

variable (S : Snapshot)

/-- A node satisfies what variable `i` of the path asks for. -/
def nodeOk (s : Tables) (spec : PathCountSpec) (i d : ℕ) : Bool :=
  satisfies s (spec.labels.getD i none) (spec.vertexAllow.getD i none) (S.idOf d)

/-- The matches `(v0, r, v1)` of a one-hop path. -/
def oneHopMatches (s : Tables) (spec : PathCountSpec) : Finset (ℕ × DenseEdge × ℕ) :=
  (Finset.range S.n ×ˢ S.edgeSet ×ˢ Finset.range S.n).filter fun (v0, r, v1) =>
    r.src = v0 ∧ r.dst = v1 ∧ spec.relOk s 0 r ∧ S.nodeOk s spec 0 v0 ∧ S.nodeOk s spec 1 v1

/-- The matches `(v0, r1, v1, r2, v2)` of a two-hop path: the two relationships are distinct. -/
def twoHopMatches (s : Tables) (spec : PathCountSpec) :
    Finset (ℕ × DenseEdge × ℕ × DenseEdge × ℕ) :=
  (Finset.range S.n ×ˢ S.edgeSet ×ˢ Finset.range S.n ×ˢ S.edgeSet ×ˢ Finset.range S.n).filter
    fun (v0, r1, v1, r2, v2) =>
      r1.src = v0 ∧ r1.dst = v1 ∧ r2.src = v1 ∧ r2.dst = v2 ∧ r1 ≠ r2 ∧
        spec.relOk s 0 r1 ∧ spec.relOk s 1 r2 ∧
        S.nodeOk s spec 0 v0 ∧ S.nodeOk s spec 1 v1 ∧ S.nodeOk s spec 2 v2

def pathMatches (s : Tables) (spec : PathCountSpec) : ℕ :=
  if spec.relTypes.length = 1 then (S.oneHopMatches s spec).card else (S.twoHopMatches s spec).card

end Snapshot

/-! ## The types of the hops -/

lemma Tables.resolveTypes_eq_none {s : Tables} {names : List (Option String)}
    (h : s.resolveTypes names = none) :
    ∃ i < names.length, ∃ name, names.getD i none = some name ∧ s.getType name = none := by
  induction names with
  | nil => cases h
  | cons name? names ih =>
    have hrest : s.resolveTypes names = none → ∃ i < (name? :: names).length,
        ∃ name, (name? :: names).getD i none = some name ∧ s.getType name = none := by
      intro hnone
      obtain ⟨i, hi, name, hname, hget⟩ := ih hnone
      exact ⟨i + 1, Nat.succ_lt_succ hi, name, hname, hget⟩
    cases name? with
    | none => exact hrest (map_eq_none_iff.mp h)
    | some name =>
      rw [resolveTypes, bind_eq_none_iff] at h
      cases hget : s.getType name with
      | none => exact ⟨0, Nat.zero_lt_succ _, name, rfl, hget⟩
      | some t => exact hrest (map_eq_none_iff.mp (h t hget))

lemma Tables.typeOk_resolveTypes {s : Tables} {names : List (Option String)}
    {types : List (Option TypeId)} (h : s.resolveTypes names = some types) (i : ℕ) (t : TypeId) :
    typeOk (types.getD i none) t =
      (names.getD i none).all fun name => s.getType name = some t := by
  induction names generalizing types i with
  | nil =>
    obtain rfl := some.inj h
    rfl
  | cons name? names ih =>
    cases name? with
    | none =>
      obtain ⟨rest, hrest, rfl⟩ := map_eq_some_iff.mp h
      cases i with
      | zero => rfl
      | succ i => exact ih hrest i
    | some name =>
      obtain ⟨t', hget, h⟩ := bind_eq_some_iff.mp h
      obtain ⟨rest, hrest, rfl⟩ := map_eq_some_iff.mp h
      cases i with
      | zero => simp [typeOk, hget, eq_comm]
      | succ i => exact ih hrest i

namespace Snapshot

variable (S : Snapshot)

/-! ## One hop -/

lemma countOneHop_eq (t : Option TypeId) (mask0 mask1 : Option (List Bool)) :
    S.countOneHop t mask0 mask1 =
      (S.edgeSet.filter fun e =>
        typeOk t e.edgeType ∧ maskOk mask0 e.src ∧ maskOk mask1 e.dst).card := by
  let row (v0 : ℕ) : ℕ :=
    (S.edgeSet.filter fun e => e.src = v0 ∧ (typeOk t e.edgeType && maskOk mask1 e.dst)).card
  have hrun : ∀ (l : List ℕ) (total : ℕ), l.foldl (fun total v0 =>
      if maskOk mask0 v0 then
        total + (S.outRow v0).countP fun e => typeOk t e.edgeType && maskOk mask1 e.col
      else total) total = total + (l.map fun v0 => if maskOk mask0 v0 then row v0 else 0).sum := by
    intro l
    induction l with
    | nil => simp
    | cons v0 l ih =>
      intro total
      rw [foldl_cons, ih, map_cons, sum_cons,
        S.countP_outRow v0 fun t' d => typeOk t t' && maskOk mask1 d]
      split
      · rw [Nat.add_assoc]
      · rw [Nat.zero_add]
  have hmaps : ∀ e ∈ S.edgeSet.filter fun e =>
      typeOk t e.edgeType ∧ maskOk mask0 e.src ∧ maskOk mask1 e.dst, e.src ∈ Finset.range S.n := by
    intro e he
    exact Finset.mem_range.mpr (S.src_lt (S.mem_edgeSet.mp (Finset.mem_filter.mp he).1))
  rw [CsrArrays.countOneHop, hrun, Nat.zero_add, ← sum_toFinset _ nodup_range,
    toFinset_range, Finset.card_eq_sum_card_fiberwise hmaps]
  apply Finset.sum_congr rfl
  intro v0 _
  rw [Finset.filter_filter]
  by_cases hv0 : maskOk mask0 v0
  · rw [if_pos hv0]
    apply congrArg Finset.card
    apply Finset.filter_congr
    intro e _
    grind
  · rw [if_neg hv0, eq_comm, Finset.card_eq_zero, Finset.filter_eq_empty_iff]
    rintro e - ⟨⟨-, hsrc, -⟩, rfl⟩
    exact hv0 hsrc

/-! ## Two hops -/

def firstHops (f : TwoHopFilter) : Finset DenseEdge :=
  S.edgeSet.filter fun e =>
    typeOk f.t1 e.edgeType ∧ maskOk f.mask0 e.src ∧ maskOk f.mask1 e.dst

def secondHops (f : TwoHopFilter) : Finset DenseEdge :=
  S.edgeSet.filter fun e => typeOk f.t2 e.edgeType ∧ maskOk f.mask2 e.dst

variable (f : TwoHopFilter)

lemma indeg_eq {b : ℕ} (hb : maskOk f.mask1 b) :
    S.indeg f b = ((S.firstHops f).filter (·.dst = b)).card := by
  rw [CsrArrays.indeg, S.countP_inRow b fun t d => typeOk f.t1 t && maskOk f.mask0 d, firstHops,
    Finset.filter_filter]
  congr 1
  apply Finset.filter_congr
  intro e _
  grind

lemma outdeg_eq (b : ℕ) : S.outdeg f b = ((S.secondHops f).filter (·.src = b)).card := by
  rw [CsrArrays.outdeg, S.countP_outRow b fun t d => typeOk f.t2 t && maskOk f.mask2 d,
    secondHops, Finset.filter_filter]
  congr 1
  apply Finset.filter_congr
  intro e _
  grind

/-- The self-loops that fill both hops, where the node passes the outer masks. -/
theorem card_between_self {b : ℕ} (hb : maskOk f.mask1 b) :
    (between DenseEdge.src DenseEdge.dst (S.firstHops f ∩ S.secondHops f) b b).card =
      if maskOk f.mask0 b && maskOk f.mask2 b then S.shared f b else 0 := by
  split
  next hmasks =>
    rw [CsrArrays.shared]
    have hrow := S.countP_outRow b fun t d => d = b && typeOk f.t1 t && typeOk f.t2 t
    refine Eq.trans ?_ hrow.symm
    congr 1
    ext e
    simp only [between, firstHops, secondHops, Finset.mem_filter, Finset.mem_inter]
    grind
  next hmasks =>
    rw [Finset.card_eq_zero, Finset.eq_empty_iff_forall_notMem]
    intro e he
    simp only [between, firstHops, secondHops, Finset.mem_filter, Finset.mem_inter] at he
    grind

/-- The matches through one middle node. -/
def through (b : ℕ) : ℕ :=
  if maskOk f.mask1 b then
    S.indeg f b * S.outdeg f b -
      (between DenseEdge.src DenseEdge.dst (S.firstHops f ∩ S.secondHops f) b b).card
  else 0

lemma through_le (b : ℕ) : S.through f b ≤ S.indeg f b * S.outdeg f b := by
  unfold through
  split
  · exact Nat.sub_le _ _
  · exact Nat.zero_le _

/-- The correction at a middle node is not larger than the product it is taken from. -/
theorem shared_le_mul {b : ℕ} (hb : maskOk f.mask1 b)
    (hmasks : (maskOk f.mask0 b && maskOk f.mask2 b) = true) :
    S.shared f b ≤ S.indeg f b * S.outdeg f b := by
  have h : (between DenseEdge.src DenseEdge.dst (S.firstHops f ∩ S.secondHops f) b b).card ≤ _ :=
    card_between_self_le (S.firstHops f) (S.secondHops f) b
  rwa [S.card_between_self f hb, if_pos hmasks, ← S.indeg_eq f hb, ← S.outdeg_eq] at h

/-- The products over the middle nodes fit the counter: there are fewer than `2 ^ 32` edges. -/
theorem sum_indeg_mul_outdeg_lt :
    ∑ b ∈ Finset.range S.n, S.indeg f b * S.outdeg f b < 2 ^ 64 := by
  have hle : ∀ b ∈ Finset.range S.n, S.indeg f b * S.outdeg f b ≤
      (S.edgeSet.filter (·.dst = b)).card * (S.edgeSet.filter (·.src = b)).card := by
    intro b _
    apply Nat.mul_le_mul
    · rw [CsrArrays.indeg, S.countP_inRow b fun t d => typeOk f.t1 t && maskOk f.mask0 d]
      exact Finset.card_le_card (Finset.monotone_filter_right _ fun _ _ h => h.1)
    · rw [CsrArrays.outdeg, S.countP_outRow b fun t d => typeOk f.t2 t && maskOk f.mask2 d]
      exact Finset.card_le_card (Finset.monotone_filter_right _ fun _ _ h => h.1)
  calc ∑ b ∈ Finset.range S.n, S.indeg f b * S.outdeg f b
      ≤ ∑ b ∈ Finset.range S.n,
          (S.edgeSet.filter (·.dst = b)).card * (S.edgeSet.filter (·.src = b)).card :=
        Finset.sum_le_sum hle
    _ ≤ S.edgeSet.card * S.edgeSet.card := sum_mul_card_le _ _ _
    _ ≤ maxSnapshotEdges * maxSnapshotEdges :=
        Nat.mul_le_mul S.card_edgeSet_le S.card_edgeSet_le
    _ < 2 ^ 64 := by decide

/-- One middle node adds its matches, as long as the counter has room for its product. -/
theorem countMiddle_eq {total b : ℕ} (h : total + S.indeg f b * S.outdeg f b < 2 ^ 64) :
    S.countMiddle f total b = total + S.through f b := by
  have hmul : u64Mul (S.indeg f b) (S.outdeg f b) = S.indeg f b * S.outdeg f b :=
    Nat.mod_eq_of_lt (by omega)
  have hadd : u64Add total (S.indeg f b * S.outdeg f b) = total + S.indeg f b * S.outdeg f b :=
    Nat.mod_eq_of_lt h
  unfold CsrArrays.countMiddle through
  by_cases hb : maskOk f.mask1 b = true
  · rw [if_neg (by simp [hb]), if_pos hb, S.card_between_self f hb]
    by_cases hin : S.indeg f b = 0
    · simp [hin]
    · rw [if_neg hin]
      dsimp only
      rw [hmul, hadd]
      split
      next hmasks =>
        have := S.shared_le_mul f hb hmasks
        omega
      · rfl
  · rw [if_pos (by simpa using hb), if_neg hb, Nat.add_zero]

/-- A range of middle nodes adds up their matches. -/
theorem countMiddles_eq {lo hi : ℕ} (hhi : hi ≤ S.n) :
    S.countMiddles f lo hi = ∑ b ∈ Finset.Ico lo hi, S.through f b := by
  have hrun : ∀ (l : List ℕ) (total : ℕ),
      total + (l.map fun b => S.indeg f b * S.outdeg f b).sum < 2 ^ 64 →
      l.foldl (S.countMiddle f) total = total + (l.map (S.through f)).sum := by
    intro l
    induction l with
    | nil => simp
    | cons b l ih =>
      intro total h
      rw [map_cons, sum_cons] at h
      have := S.through_le f b
      rw [foldl_cons, S.countMiddle_eq f (by omega), ih _ (by omega), map_cons,
        sum_cons, Nat.add_assoc]
  have hset : (List.range' lo (hi - lo)).toFinset = Finset.Ico lo hi := by
    ext b
    simp only [List.mem_toFinset, mem_range'_1, Finset.mem_Ico]
    omega
  have hsum : ∀ g : ℕ → ℕ,
      ((List.range' lo (hi - lo)).map g).sum = ∑ b ∈ Finset.Ico lo hi, g b := by
    intro g
    rw [← sum_toFinset _ nodup_range', hset]
  rw [CsrArrays.countMiddles, hrun, hsum, Nat.zero_add]
  rw [hsum, Nat.zero_add]
  refine lt_of_le_of_lt (Finset.sum_le_sum_of_subset ?_) (S.sum_indeg_mul_outdeg_lt f)
  intro b hb
  exact Finset.mem_range.mpr (lt_of_lt_of_le (Finset.mem_Ico.mp hb).2 hhi)

/-- The correction is never larger than the running total it is taken from. -/
theorem shared_le {lo b : ℕ} (hlo : lo ≤ b) (hbn : b < S.n) (hb : maskOk f.mask1 b)
    (hmasks : (maskOk f.mask0 b && maskOk f.mask2 b) = true) :
    S.shared f b ≤ u64Add (S.countMiddles f lo b) (u64Mul (S.indeg f b) (S.outdeg f b)) := by
  have hroom : S.countMiddles f lo b + S.indeg f b * S.outdeg f b < 2 ^ 64 := by
    rw [S.countMiddles_eq f hbn.le]
    refine lt_of_le_of_lt ?_ (S.sum_indeg_mul_outdeg_lt f)
    calc ∑ b' ∈ Finset.Ico lo b, S.through f b' + S.indeg f b * S.outdeg f b
        ≤ ∑ b' ∈ Finset.Ico lo b, S.indeg f b' * S.outdeg f b' + S.indeg f b * S.outdeg f b :=
          Nat.add_le_add_right (Finset.sum_le_sum fun b' _ => S.through_le f b') _
      _ = ∑ b' ∈ Finset.Ico lo (b + 1), S.indeg f b' * S.outdeg f b' :=
          (Finset.sum_Ico_succ_top hlo _).symm
      _ ≤ ∑ b' ∈ Finset.range S.n, S.indeg f b' * S.outdeg f b' := by
          apply Finset.sum_le_sum_of_subset
          intro b' hb'
          have := (Finset.mem_Ico.mp hb').2
          exact Finset.mem_range.mpr (by omega)
  rw [u64Mul, Nat.mod_eq_of_lt (by omega), u64Add, Nat.mod_eq_of_lt hroom]
  exact (S.shared_le_mul f hb hmasks).trans (Nat.le_add_left _ _)

/-- The chunks of the workers cover the middle nodes once. -/
theorem countTwoHops_eq (threads : ℕ) :
    S.countTwoHops f threads = ∑ b ∈ Finset.range S.n, S.through f b := by
  unfold CsrArrays.countTwoHops
  change (if threads ≤ 1 then S.countMiddles f 0 S.n else _) = _
  split
  · rw [S.countMiddles_eq f le_rfl, Finset.range_eq_Ico]
  next hthreads =>
    change (List.range threads).foldl (fun total t =>
      u64SaturatingAdd total (S.countMiddles f (min (t * ((S.n + threads - 1) / threads)) S.n)
        (min (min (t * ((S.n + threads - 1) / threads)) S.n + (S.n + threads - 1) / threads)
          S.n))) 0 = _
    generalize hchunk : (S.n + threads - 1) / threads = chunk
    -- After `t` workers the sum is over the middle nodes below their last bound.
    have hrun : ∀ t, (List.range t).foldl (fun total t =>
        u64SaturatingAdd total (S.countMiddles f (min (t * chunk) S.n)
          (min (min (t * chunk) S.n + chunk) S.n))) 0 =
        ∑ b ∈ Finset.range (min (t * chunk) S.n), S.through f b := by
      intro t
      induction t with
      | zero => simp
      | succ t ih =>
        have hhi : min (min (t * chunk) S.n + chunk) S.n = min ((t + 1) * chunk) S.n := by
          rw [Nat.succ_mul]
          omega
        rw [range_succ, foldl_append, ih, foldl_cons, foldl_nil,
          S.countMiddles_eq f (Nat.min_le_right _ _), hhi, Finset.range_eq_Ico, u64SaturatingAdd,
          Finset.sum_Ico_consecutive _ (Nat.zero_le _)
            (min_le_min_right _ (Nat.mul_le_mul_right _ t.le_succ)), ← Finset.range_eq_Ico]
        apply Nat.min_eq_left
        apply Nat.le_sub_one_of_lt
        refine lt_of_le_of_lt ?_ (S.sum_indeg_mul_outdeg_lt f)
        refine (Finset.sum_le_sum_of_subset ?_).trans
          (Finset.sum_le_sum fun b _ => S.through_le f b)
        exact Finset.range_subset_range.mpr (Nat.min_le_right _ _)
    have hcover : S.n ≤ threads * chunk := by
      have h :=
        Nat.lt_mul_div_succ (S.n + threads - 1) (Nat.pos_of_ne_zero (by omega : threads ≠ 0))
      rw [hchunk, Nat.mul_succ] at h
      omega
    rw [hrun, min_eq_right hcover]

/-- The matches through all middle nodes are the walks of two edges. -/
theorem sum_through :
    ∑ b ∈ Finset.range S.n, S.through f b =
      (wedges DenseEdge.src DenseEdge.dst (S.firstHops f) (S.secondHops f)).card := by
  have hdst : ∀ e ∈ S.firstHops f, e.dst ∈ Finset.range S.n := by
    intro e he
    exact Finset.mem_range.mpr (S.dst_lt (S.mem_edgeSet.mp (Finset.mem_filter.mp he).1))
  rw [card_wedges hdst]
  apply Finset.sum_congr rfl
  intro b _
  unfold through
  split
  next hb => rw [S.indeg_eq f hb, S.outdeg_eq]
  next hb =>
    have hnone : (S.firstHops f).filter (·.dst = b) = ∅ := by
      rw [Finset.filter_eq_empty_iff]
      rintro e he rfl
      exact hb (Finset.mem_filter.mp he).2.2.2
    rw [hnone, Finset.card_empty, Nat.zero_mul, Nat.zero_sub]

/-! ## The matches -/

lemma card_oneHopMatches (s : Tables) (spec : PathCountSpec) :
    (S.oneHopMatches s spec).card = (S.edgeSet.filter fun e =>
      spec.relOk s 0 e ∧ S.nodeOk s spec 0 e.src ∧ S.nodeOk s spec 1 e.dst).card := by
  symm
  apply Finset.card_bij fun e _ => (e.src, e, e.dst)
  · intro e he
    obtain ⟨hmem, hrel, hsrc, hdst⟩ := Finset.mem_filter.mp he
    have hedge := S.mem_edgeSet.mp hmem
    exact Finset.mem_filter.mpr ⟨Finset.mem_product.mpr ⟨Finset.mem_range.mpr (S.src_lt hedge),
      Finset.mem_product.mpr ⟨hmem, Finset.mem_range.mpr (S.dst_lt hedge)⟩⟩,
      rfl, rfl, hrel, hsrc, hdst⟩
  · intro e _ e' _ h
    exact congrArg (·.2.1) h
  · rintro ⟨v0, r, v1⟩ h
    obtain ⟨hmem, rfl, rfl, hrel, hsrc, hdst⟩ := Finset.mem_filter.mp h
    have hr := (Finset.mem_product.mp (Finset.mem_product.mp hmem).2).1
    exact ⟨r, Finset.mem_filter.mpr ⟨hr, hrel, hsrc, hdst⟩, rfl⟩

lemma card_twoHopMatches (s : Tables) (spec : PathCountSpec) :
    (S.twoHopMatches s spec).card = (wedges DenseEdge.src DenseEdge.dst
      (S.edgeSet.filter fun e =>
        spec.relOk s 0 e ∧ S.nodeOk s spec 0 e.src ∧ S.nodeOk s spec 1 e.dst)
      (S.edgeSet.filter fun e => spec.relOk s 1 e ∧ S.nodeOk s spec 2 e.dst)).card := by
  symm
  apply Finset.card_bij fun p _ => (p.1.src, p.1, p.1.dst, p.2, p.2.dst)
  · rintro ⟨r1, r2⟩ h
    obtain ⟨hpair, hjoin, hne⟩ := Finset.mem_filter.mp h
    obtain ⟨h1, h2⟩ := Finset.mem_product.mp hpair
    obtain ⟨hmem1, hrel1, hv0, hv1⟩ := Finset.mem_filter.mp h1
    obtain ⟨hmem2, hrel2, hv2⟩ := Finset.mem_filter.mp h2
    have hedge1 := S.mem_edgeSet.mp hmem1
    have hedge2 := S.mem_edgeSet.mp hmem2
    simp only [twoHopMatches, Finset.mem_filter, Finset.mem_product, Finset.mem_range]
    exact ⟨⟨S.src_lt hedge1, hmem1, S.dst_lt hedge1, hmem2, S.dst_lt hedge2⟩,
      trivial, trivial, hjoin.symm, trivial, hne, hrel1, hrel2, hv0, hv1, hv2⟩
  · rintro ⟨r1, r2⟩ _ ⟨r1', r2'⟩ _ h
    exact Prod.ext (congrArg (·.2.1) h) (congrArg (·.2.2.2.1) h)
  · rintro ⟨v0, r1, v1, r2, v2⟩ h
    simp only [twoHopMatches, Finset.mem_filter, Finset.mem_product] at h
    obtain ⟨⟨-, hmem1, -, hmem2, -⟩, rfl, rfl, hjoin, rfl, hne, hrel1, hrel2, hv0, hv1, hv2⟩ := h
    exact ⟨(r1, r2), Finset.mem_filter.mpr ⟨Finset.mem_product.mpr
      ⟨Finset.mem_filter.mpr ⟨hmem1, hrel1, hv0, hv1⟩, Finset.mem_filter.mpr ⟨hmem2, hrel2, hv2⟩⟩,
      hjoin.symm, hne⟩, rfl⟩

lemma pathMatches_of_unregistered {s : Tables} {spec : PathCountSpec}
    (h : s.resolveTypes spec.relTypes = none) : S.pathMatches s spec = 0 := by
  obtain ⟨i, hi, name, hname, hget⟩ := Tables.resolveTypes_eq_none h
  have hrel : ∀ e, spec.relOk s i e = false := by
    intro e
    rw [PathCountSpec.relOk, hname, all_some, hget]
    rfl
  unfold pathMatches
  split
  next hone =>
    obtain rfl : i = 0 := by omega
    rw [Finset.card_eq_zero, oneHopMatches, Finset.filter_eq_empty_iff]
    rintro ⟨v0, r, v1⟩ -
    simp [hrel]
  next hone =>
    have hlt : i < 2 := by
      rcases spec.hops with hops | hops <;> omega
    rw [Finset.card_eq_zero, twoHopMatches, Finset.filter_eq_empty_iff]
    rintro ⟨v0, r1, v1, r2, v2⟩ -
    interval_cases i <;> simp [hrel]

lemma maskOk_allowMasks (s : Tables) (spec : PathCountSpec) {i d : ℕ}
    (hi : i < spec.labels.length) (hd : d < S.n) :
    maskOk ((S.allowMasks (S.labelMasks s spec.labels []) spec.vertexAllow).getD i none) d =
      S.nodeOk s spec i d := by
  rw [S.getD_allowMasks s _ hi, S.maskOk_variableMask s _ _ hd, nodeOk]

theorem countLinearPaths_eq_pathMatches (s : Tables) (spec : PathCountSpec) (threads : ℕ) :
    S.countLinearPaths s spec threads = S.pathMatches s spec := by
  unfold CsrArrays.countLinearPaths
  split
  next hnone => exact (S.pathMatches_of_unregistered hnone).symm
  next types htypes =>
    have htype : ∀ i t, typeOk (types.getD i none) t = _ := Tables.typeOk_resolveTypes htypes
    have hlabels := spec.length_labels
    split
    next hn =>
      have hempty : Finset.range S.n = ∅ := by
        rw [Finset.range_eq_empty_iff]
        exact hn
      simp [pathMatches, oneHopMatches, twoHopMatches, hempty]
    · dsimp only
      unfold pathMatches
      split
      next hone =>
        rw [countOneHop_eq, card_oneHopMatches]
        congr 1
        apply Finset.filter_congr
        intro e he
        have hedge := S.mem_edgeSet.mp he
        rw [S.maskOk_allowMasks s spec (by omega) (S.src_lt hedge),
          S.maskOk_allowMasks s spec (by omega) (S.dst_lt hedge), htype]
        rfl
      next hone =>
        have htwo : spec.relTypes.length = 2 := spec.hops.resolve_left hone
        rw [countTwoHops_eq, sum_through, card_twoHopMatches, firstHops, secondHops]
        congr 2
        · apply Finset.filter_congr
          intro e he
          have hedge := S.mem_edgeSet.mp he
          rw [S.maskOk_allowMasks s spec (by omega) (S.src_lt hedge),
            S.maskOk_allowMasks s spec (by omega) (S.dst_lt hedge), htype]
          rfl
        · apply Finset.filter_congr
          intro e he
          have hedge := S.mem_edgeSet.mp he
          rw [S.maskOk_allowMasks s spec (by omega) (S.dst_lt hedge), htype]
          rfl

/-- The path count is the number of matches for every number of workers, so the chunked sum is the
serial one; and in every range of middle nodes the correction is covered by the running total it
is taken from, so the subtraction never saturates. -/
theorem countLinearPaths_spec (s : Tables) (spec : PathCountSpec) (threads : ℕ) (f : TwoHopFilter) :
    S.countLinearPaths s spec threads = S.pathMatches s spec ∧
      S.countTwoHops f threads = S.countMiddles f 0 S.n ∧
      ∀ lo b, lo ≤ b → b < S.n → maskOk f.mask1 b → maskOk f.mask0 b && maskOk f.mask2 b →
        S.shared f b ≤ u64Add (S.countMiddles f lo b) (u64Mul (S.indeg f b) (S.outdeg f b)) := by
  refine ⟨S.countLinearPaths_eq_pathMatches s spec threads, ?_, ?_⟩
  · rw [countTwoHops_eq, S.countMiddles_eq f le_rfl, Finset.range_eq_Ico]
  · intro lo b hlo hbn hb hmasks
    exact S.shared_le f hlo hbn hb hmasks

end Snapshot

end IssunDB
