import IssunDB.Lib.Paths
import Mathlib.Data.Set.Card
import Mathlib.Order.Basic

/-!
# Listing the cheapest paths by their deviations

The cheapest members of a set of lists are listed one after another from a pool. A member that is
not yet listed leaves the listed ones at some node: it deviates from them at the prefix it shares.
If the pool has a cheapest deviation for every prefix of a listed member, its cheapest candidate is
a cheapest one of all that are left, and listing it spoils the prefixes of that candidate only.

`Ranked` is what holds of the listed members and the pool, and `Covers` what holds of one prefix.
-/

variable {V K : Type} {paths : Set (List V)} {weight : List V → K}

/-- A list leaves the listed ones right after a prefix. -/
def Deviates (listed : List (List V)) (root p : List V) : Prop :=
  ∃ v, root ++ [v] <+: p ∧ ∀ q ∈ listed, ¬root ++ [v] <+: q

variable {listed : List (List V)}

lemma Deviates.prefix {root p : List V} (h : Deviates listed root p) :
    root <+: p := by
  obtain ⟨v, hv, -⟩ := h
  exact (List.prefix_append root [v]).trans hv

lemma Deviates.not_mem {root p : List V} (h : Deviates listed root p) :
    p ∉ listed := by
  obtain ⟨v, hv, hall⟩ := h
  exact fun hmem => hall p hmem hv

/-- A member that does not have the prefix does not matter for it. -/
theorem deviates_concat {root p q : List V} (h : ¬root <+: q) :
    Deviates (listed ++ [q]) root p ↔ Deviates listed root p := by
  have hq : ∀ v, ¬root ++ [v] <+: q := fun v hv => h ((List.prefix_append root [v]).trans hv)
  simp only [Deviates, List.mem_append, List.mem_singleton, or_imp, forall_and, forall_eq, hq,
    not_false_iff, and_true]

/-- A list that is not listed, and shares its first node with a listed one, leaves the listed ones
after some prefix of one of them. -/
theorem exists_deviates {p : List V} {a : V} (hpre : ∀ q ∈ listed, p <+: q → p = q)
    (hp : p.head? = some a) (hshare : ∃ q ∈ listed, q.head? = some a) (hmem : p ∉ listed) :
    ∃ root, root ≠ [] ∧ (∃ q ∈ listed, root <+: q) ∧ Deviates listed root p := by
  classical
  obtain ⟨l, rfl⟩ : ∃ l, p = a :: l := by
    cases p with
    | nil => cases hp
    | cons b l => exact ⟨l, congrArg (· :: l) (Option.some.inj hp)⟩
  -- The longest prefix that a listed list has too.
  let Shared : ℕ → Prop := fun n => ∃ q ∈ listed, (a :: l).take n <+: q
  obtain ⟨q₀, hq₀, hhead⟩ := hshare
  have hone : Shared 1 := by
    refine ⟨q₀, hq₀, ?_⟩
    cases q₀ with
    | nil => cases hhead
    | cons b l' =>
      obtain rfl := Option.some.inj hhead
      exact ⟨l', rfl⟩
  set n := Nat.findGreatest Shared (a :: l).length with hn
  have hlen : 1 ≤ (a :: l).length := by
    rw [List.length_cons]
    omega
  have hpos : 1 ≤ n := Nat.le_findGreatest hlen hone
  obtain ⟨q, hq, hroot⟩ : Shared n := Nat.findGreatest_spec hlen hone
  have hlt : n < (a :: l).length := by
    refine lt_of_le_of_ne (Nat.findGreatest_le _) fun heq => hmem ?_
    rw [heq, List.take_length] at hroot
    exact hpre q hq hroot ▸ hq
  refine ⟨(a :: l).take n, ?_, ⟨q, hq, hroot⟩, (a :: l)[n], ?_, fun q' hq' hpre => ?_⟩
  · intro hnil
    have := congrArg List.length hnil
    rw [List.length_take, List.length_nil] at this
    omega
  · rw [← List.take_succ_eq_append_getElem hlt]
    exact List.take_prefix _ _
  · rw [← List.take_succ_eq_append_getElem hlt] at hpre
    exact absurd ⟨q', hq',
      hpre⟩ (Nat.findGreatest_is_greatest (P := Shared) (Nat.lt_succ_self n) hlt)

section

variable [LinearOrder K]

/-- The listed members and the pool: the members listed are no more expensive than the others, in
ascending order, and the pool has further members, each once. -/
structure Ranked (paths : Set (List V)) (weight : List V → K) (listed pool : List (List V)) :
    Prop where
  listed_mem : ∀ p ∈ listed, p ∈ paths
  pool_mem : ∀ p ∈ pool, p ∈ paths
  listed_nodup : listed.Nodup
  pool_nodup : pool.Nodup
  disjoint : ∀ p ∈ pool, p ∉ listed
  ascending : listed.Pairwise fun p q => weight p ≤ weight q
  least : ∀ p ∈ listed, ∀ q ∈ paths, q ∉ listed → weight p ≤ weight q

/-- The pool has a cheapest deviation at a prefix, if there is any deviation. -/
def Covers (paths : Set (List V)) (weight : List V → K) (listed pool : List (List V))
    (root : List V) : Prop :=
  ∀ q ∈ paths, Deviates listed root q →
    ∃ p ∈ pool, Deviates listed root p ∧ weight p ≤ weight q

variable {listed pool pool' : List (List V)}

lemma Covers.mono {root : List V} (h : Covers paths weight listed pool root)
    (hpool : pool ⊆ pool') : Covers paths weight listed pool' root := by
  intro q hq hdev
  obtain ⟨p, hp, hrest⟩ := h q hq hdev
  exact ⟨p, hpool hp, hrest⟩

variable {p : List V}

/-- One cheapest member is listed and the pool is empty. -/
theorem Ranked.singleton (hp : p ∈ paths) (hleast : ∀ q ∈ paths, weight p ≤ weight q) :
    Ranked paths weight [p] [] where
  listed_mem _ hq := List.mem_singleton.mp hq ▸ hp
  pool_mem _ hq := absurd hq List.not_mem_nil
  listed_nodup := List.nodup_singleton p
  pool_nodup := List.nodup_nil
  disjoint _ hq := absurd hq List.not_mem_nil
  ascending := List.pairwise_singleton _ p
  least _ hq r hr _ := List.mem_singleton.mp hq ▸ hleast r hr

/-- A further candidate joins the pool. -/
theorem Ranked.add (h : Ranked paths weight listed pool) (hp : p ∈ paths) (hlisted : p ∉ listed)
    (hpool : p ∉ pool) : Ranked paths weight listed (pool ++ [p]) := by
  refine { h with pool_mem := ?_, pool_nodup := ?_, disjoint := ?_ }
  · intro q hq
    rcases List.mem_append.mp hq with hq | hq
    · exact h.pool_mem q hq
    · exact List.mem_singleton.mp hq ▸ hp
  · refine List.nodup_append.mpr ⟨h.pool_nodup, List.nodup_singleton p, ?_⟩
    rintro q hq r hr rfl
    exact hpool (List.mem_singleton.mp hr ▸ hq)
  · intro q hq
    rcases List.mem_append.mp hq with hq | hq
    · exact h.disjoint q hq
    · exact List.mem_singleton.mp hq ▸ hlisted

/-- The order of the pool does not matter. -/
theorem Ranked.perm (h : Ranked paths weight listed pool) (hperm : pool.Perm pool') :
    Ranked paths weight listed pool' :=
  { h with
    pool_mem := fun p hp => h.pool_mem p (hperm.mem_iff.mpr hp)
    pool_nodup := hperm.nodup_iff.mp h.pool_nodup
    disjoint := fun p hp => h.disjoint p (hperm.mem_iff.mpr hp) }

/-- No member is a proper prefix of another, and all start at one node. -/
structure PrefixFree (paths : Set (List V)) (a : V) : Prop where
  head : ∀ p ∈ paths, p.head? = some a
  eq_of_prefix : ∀ p ∈ paths, ∀ q ∈ paths, p <+: q → p = q

variable {a : V}

/-- A pool that covers the prefixes of the listed members bounds what is left. -/
theorem Ranked.exists_le (h : Ranked paths weight listed pool) (hfree : PrefixFree paths a)
    (hne : listed ≠ []) (hcovers : ∀ root ≠ [], (∃ p ∈ listed, root <+: p) →
      Covers paths weight listed pool root) {q : List V} (hq : q ∈ paths) (hmem : q ∉ listed) :
    ∃ p ∈ pool, weight p ≤ weight q := by
  obtain ⟨p₀, hp₀⟩ := List.exists_mem_of_ne_nil listed hne
  obtain ⟨root, hroot, hlisted, hdev⟩ := exists_deviates
    (fun p hp => hfree.eq_of_prefix q hq p (h.listed_mem p hp)) (hfree.head q hq)
    ⟨p₀, hp₀, hfree.head p₀ (h.listed_mem p₀ hp₀)⟩ hmem
  obtain ⟨p, hp, -, hle⟩ := hcovers root hroot hlisted q hq hdev
  exact ⟨p, hp, hle⟩

/-- The cheapest candidate of the pool is listed next. -/
theorem Ranked.list (h : Ranked paths weight listed pool) (hfree : PrefixFree paths a)
    (hne : listed ≠ [])
    (hcovers : ∀ root ≠ [], (∃ p ∈ listed, root <+: p) → Covers paths weight listed pool root)
    {rest : List (List V)} (hperm : pool.Perm (p :: rest))
    (hleast : ∀ q ∈ pool, weight p ≤ weight q) :
    Ranked paths weight (listed ++ [p]) rest ∧ ∀ root ≠ [], (∃ q ∈ listed ++ [p], root <+: q) →
      ¬root <+: p → Covers paths weight (listed ++ [p]) rest root := by
  have hranked := h.perm hperm
  have hp : p ∈ pool := hperm.mem_iff.mpr List.mem_cons_self
  have hnew : p ∉ listed := h.disjoint p hp
  have hnodup := List.nodup_cons.mp hranked.pool_nodup
  have hbound : ∀ q ∈ paths, q ∉ listed → weight p ≤ weight q := by
    intro q hq hmem
    obtain ⟨r, hr, hle⟩ := h.exists_le hfree hne hcovers hq hmem
    exact (hleast r hr).trans hle
  refine ⟨⟨?_, ?_, ?_, hnodup.2, ?_, ?_, ?_⟩, ?_⟩
  · intro q hq
    rcases List.mem_append.mp hq with hq | hq
    · exact h.listed_mem q hq
    · exact List.mem_singleton.mp hq ▸ h.pool_mem p hp
  · exact fun q hq => hranked.pool_mem q (List.mem_cons_of_mem _ hq)
  · refine List.nodup_append.mpr ⟨h.listed_nodup, List.nodup_singleton p, ?_⟩
    rintro q hq r hr rfl
    exact hnew (List.mem_singleton.mp hr ▸ hq)
  · intro q hq hmem
    rcases List.mem_append.mp hmem with hmem | hmem
    · exact hranked.disjoint q (List.mem_cons_of_mem _ hq) hmem
    · exact hnodup.1 (List.mem_singleton.mp hmem ▸ hq)
  · refine List.pairwise_append.mpr ⟨h.ascending, List.pairwise_singleton _ p, ?_⟩
    intro q hq r hr
    obtain rfl := List.mem_singleton.mp hr
    exact h.least q hq r (h.pool_mem r hp) hnew
  · intro q hq r hr hmem
    have hold : r ∉ listed := fun h' => hmem (List.mem_append_left _ h')
    rcases List.mem_append.mp hq with hq | hq
    · exact h.least q hq r hr hold
    · exact List.mem_singleton.mp hq ▸ hbound r hr hold
  · rintro root hroot ⟨q, hq, hpre⟩ hnot r hr hdev
    have hlisted : q ∈ listed := (List.mem_append.mp hq).resolve_right fun hmem =>
      hnot (List.mem_singleton.mp hmem ▸ hpre)
    rw [deviates_concat hnot] at hdev
    obtain ⟨s, hs, hsdev, hle⟩ := hcovers root hroot ⟨q, hlisted, hpre⟩ r hr hdev
    refine ⟨s, ?_, (deviates_concat hnot).mpr hsdev, hle⟩
    exact (List.mem_cons.mp (hperm.mem_iff.mp hs)).resolve_left fun heq =>
      hnot (heq ▸ hsdev.prefix)

/-- An empty pool that covers the prefixes of the listed members leaves nothing out. -/
theorem Ranked.complete (h : Ranked paths weight listed []) (hfree : PrefixFree paths a)
    (hne : listed ≠ []) (hcovers : ∀ root ≠ [], (∃ p ∈ listed, root <+: p) →
      Covers paths weight listed [] root) {q : List V} (hq : q ∈ paths) : q ∈ listed := by
  by_contra hmem
  obtain ⟨p, hp, -⟩ := h.exists_le hfree hne hcovers hq hmem
  exact List.not_mem_nil hp

/-- A list of distinct members that has all of them, or as many as were asked for. -/
theorem length_eq_min {k : ℕ} (hmem : ∀ p ∈ listed, p ∈ paths) (hnodup : listed.Nodup)
    (hall : listed.length = k ∨ (listed.length ≤ k ∧ ∀ q ∈ paths, q ∈ listed)) :
    (listed.length : ℕ∞) = min (k : ℕ∞) paths.encard := by
  classical
  have hcard : (listed.toFinset : Set (List V)).encard = listed.length := by
    rw [Set.encard_coe_eq_coe_finsetCard, List.toFinset_card_of_nodup hnodup]
  have hsub : (listed.toFinset : Set (List V)) ⊆ paths := by
    intro p hp
    exact hmem p (List.mem_toFinset.mp (Finset.mem_coe.mp hp))
  rcases hall with rfl | ⟨hle, hall⟩
  · rw [min_eq_left]
    rw [← hcard]
    exact Set.encard_le_encard hsub
  · have heq : paths = (listed.toFinset : Set (List V)) := by
      refine Set.Subset.antisymm (fun q hq => ?_) hsub
      exact Finset.mem_coe.mpr (List.mem_toFinset.mpr (hall q hq))
    rw [heq, hcard, min_eq_right (Nat.cast_le.mpr hle)]

end

/-! ## Spurs -/

section Spur

variable {step : V → V → Prop} {a b c : V} {p q root : List V}

lemma IsWalk.append (h : IsWalk step a b p) (hq : IsWalk step b c q) :
    IsWalk step a c (p ++ q.tail) := by
  obtain ⟨l, rfl⟩ : ∃ l, q = b :: l := by
    cases q with
    | nil => exact absurd rfl hq.ne_nil
    | cons x l => exact ⟨l, congrArg (· :: l) (Option.some.inj hq.head)⟩
  refine ⟨?_, ?_, h.chain.append hq.chain.tail ?_⟩
  · rw [List.head?_append_of_ne_nil _ h.ne_nil]
    exact h.head
  · have hlast := hq.last
    rw [List.tail_cons, List.getLast?_append]
    cases l with
    | nil =>
      rw [List.getLast?_nil, Option.none_or, h.last]
      exact hlast
    | cons y l =>
      rw [List.getLast?_cons_cons] at hlast
      rw [hlast, Option.some_or]
  · intro x hx y hy
    obtain rfl := Option.some.inj (h.last.symm.trans hx)
    exact hq.chain.rel_head? hy

lemma prefixFree_simplePaths : PrefixFree (simplePaths step a b) a where
  head p hp := hp.1.head
  eq_of_prefix p hp q hq := by
    rintro ⟨r, rfl⟩
    obtain rfl | hr := eq_or_ne r []
    · exact (List.append_nil p).symm
    · have hlast := hq.1.last
      rw [List.getLast?_append_of_ne_nil _ hr] at hlast
      have hdisjoint := List.disjoint_of_nodup_append hq.2
      exact absurd (List.mem_of_getLast? hlast) (hdisjoint hp.1.mem_last)

/-- The steps of a path that leaves the listed ones after a root, from the last point of the root:
back into the root there are none, nor along what the listed ones do next. -/
def SpurStep (step : V → V → Prop) (listed : List (List V)) (root : List V) (spur u v : V) : Prop :=
  step u v ∧ (v ∈ root → v = spur) ∧ (u = spur → ∀ q ∈ listed, ¬root ++ [v] <+: q)

/-- The simple paths that leave the listed ones after a root are those that go on from its last
point along the steps that are left. -/
theorem mem_simplePaths_and_deviates {listed : List (List V)} {spur : V}
    (hroot : root ∈ simplePaths step a spur) (hne : spur ≠ b) :
    p ∈ simplePaths step a b ∧ Deviates listed root p ↔
      ∃ q ∈ simplePaths (SpurStep step listed root spur) spur b, p = root ++ q.tail := by
  obtain ⟨hwalk, hnodup⟩ := hroot
  constructor
  · rintro ⟨⟨hp, hpnodup⟩, v, ⟨l, rfl⟩, hlisted⟩
    rw [List.append_assoc] at hp hpnodup
    have hdisjoint := List.disjoint_of_nodup_append hpnodup
    have hspur : spur ∈ root := hwalk.mem_last
    have hrest : ([v] ++ l).Nodup := (List.nodup_append.mp hpnodup).2.1
    obtain ⟨-, hchain, hjoin⟩ := List.isChain_append.mp hp.chain
    refine ⟨spur :: ([v] ++ l), ⟨⟨rfl, ?_, ?_⟩, ?_⟩, ?_⟩
    · have hlast := hp.last
      rw [List.getLast?_append_of_ne_nil root (show [v] ++ l ≠ [] from List.cons_ne_nil v l)]
        at hlast
      exact hlast
    · refine .cons_cons ⟨hjoin spur hwalk.last v rfl, fun hv => absurd List.mem_cons_self
        (hdisjoint hv), fun _ => hlisted⟩ ?_
      refine List.IsChain.imp_of_mem_imp (fun x y hx hy hxy => ⟨hxy, fun hmem => ?_, ?_⟩) hchain
      · exact absurd hy (hdisjoint hmem)
      · rintro rfl
        exact absurd hx (hdisjoint hspur)
    · exact List.nodup_cons.mpr ⟨fun hmem => hdisjoint hspur hmem, hrest⟩
    · rw [List.tail_cons, List.append_assoc]
  · rintro ⟨q, ⟨hq, hqnodup⟩, rfl⟩
    obtain ⟨l, rfl⟩ : ∃ l, q = spur :: l := by
      cases q with
      | nil => exact absurd rfl hq.ne_nil
      | cons x l => exact ⟨l, congrArg (· :: l) (Option.some.inj hq.head)⟩
    cases l with
    | nil => exact absurd (Option.some.inj hq.last) hne
    | cons v l =>
      obtain ⟨hfirst, -⟩ := List.isChain_cons_cons.mp hq.chain
      obtain ⟨hmiss, hrest⟩ := List.nodup_cons.mp hqnodup
      -- A step into the root would be one back to its last point.
      have hinto : ∀ x ∈ v :: l, ∃ y, SpurStep step listed root spur y x := by
        intro x hx
        obtain ⟨l₁, l₂, hsplit⟩ := List.append_of_mem hx
        have hchain := hq.chain
        rw [hsplit, ← List.cons_append] at hchain
        have hlast : (spur :: l₁).getLast? = some ((spur :: l₁).getLast (List.cons_ne_nil _ _)) :=
          List.getLast?_eq_getLast_of_ne_nil _
        exact ⟨_, (List.isChain_append.mp hchain).2.2 _ hlast x rfl⟩
      have hstep : IsWalk step spur b (spur :: v :: l) :=
        ⟨hq.head, hq.last, hq.chain.imp fun _ _ h => h.1⟩
      refine ⟨⟨hwalk.append hstep, ?_⟩, v, ⟨l, ?_⟩, hfirst.2.2 rfl⟩
      · refine List.nodup_append.mpr ⟨hnodup, hrest, ?_⟩
        rintro x hx y hy rfl
        obtain ⟨y, hy'⟩ := hinto x hy
        exact hmiss (hy'.2.1 hx ▸ hy)
      · rw [List.append_assoc]
        rfl

lemma take_mem_simplePaths {j : ℕ} (hp : p ∈ simplePaths step a b) (hj : p[j]? = some c) :
    p.take (j + 1) ∈ simplePaths step a c := by
  obtain ⟨hwalk, hnodup⟩ := hp
  obtain ⟨hlt, hget⟩ := List.getElem?_eq_some_iff.mp hj
  have hsplit : p.take (j + 1) = p.take j ++ [c] := by
    rw [List.take_succ_eq_append_getElem hlt, hget]
  refine ⟨⟨?_, ?_, hwalk.chain.take _⟩, hnodup.sublist (List.take_sublist _ _)⟩
  · rw [List.head?_take, if_neg (Nat.succ_ne_zero j)]
    exact hwalk.head
  · rw [hsplit]
    exact List.getLast?_concat

end Spur
