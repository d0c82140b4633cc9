import IssunDB.Lib.Reach

/-!
# Walks, shortest walks and levels

A walk of a relation `step` is the list of the points it visits. `AtDist step a k b` says that the
shortest walks from `a` to `b` take `k` steps.

* `atDist_succ`: a level is what one step from the level before reaches and no earlier level holds;
* `ncard_shortestWalks`: the shortest walks to a point are counted by those to its predecessors on
  the level before;
* `mem_shortestWalks_iff_simple`: the shortest walks are the shortest of the simple paths;
* `stepChoices` counts the ways to walk a path when a step can be taken along several edges.
-/

variable {α : Type*} {step : α → α → Prop} {a b c : α} {p q : List α}

/-- The list is a walk from `a` to `b`. -/
structure IsWalk (step : α → α → Prop) (a b : α) (p : List α) : Prop where
  head : p.head? = some a
  last : p.getLast? = some b
  chain : p.IsChain step

lemma isWalk_singleton : IsWalk step a b [c] ↔ c = a ∧ c = b := by
  constructor
  · intro h
    exact ⟨Option.some.inj h.head, Option.some.inj h.last⟩
  · rintro ⟨rfl, rfl⟩
    exact ⟨rfl, rfl, .singleton c⟩

namespace IsWalk

open List Option

lemma refl (a : α) : IsWalk step a a [a] := isWalk_singleton.mpr ⟨rfl, rfl⟩

lemma ne_nil (h : IsWalk step a b p) : p ≠ [] := by
  rintro rfl
  simpa using h.head

lemma length_pos (h : IsWalk step a b p) : 0 < p.length := length_pos_of_ne_nil h.ne_nil

lemma concat (h : IsWalk step a b p) (hbc : step b c) : IsWalk step a c (p ++ [c]) where
  head := by
    rw [head?_append_of_ne_nil _ h.ne_nil]
    exact h.head
  last := getLast?_concat
  chain := by
    rw [isChain_append]
    refine ⟨h.chain, .singleton c, ?_⟩
    intro x hx y hy
    obtain rfl := some.inj (h.last.symm.trans hx)
    obtain rfl := some.inj hy
    exact hbc

lemma mem_last (h : IsWalk step a b p) : b ∈ p := mem_of_getLast? h.last

end IsWalk

lemma isWalk_concat (hp : p ≠ []) :
    IsWalk step a c (p ++ [b]) ↔ b = c ∧ ∃ x, IsWalk step a x p ∧ step x c := by
  constructor
  · intro h
    obtain rfl : b = c := Option.some.inj (List.getLast?_concat.symm.trans h.last)
    obtain ⟨hchain, -, hjoin⟩ := List.isChain_append.mp h.chain
    have hlast : p.getLast? = some (p.getLast hp) := List.getLast?_eq_getLast_of_ne_nil hp
    refine ⟨rfl, p.getLast hp, ⟨?_, hlast, hchain⟩, hjoin _ hlast _ rfl⟩
    rw [← h.head, List.head?_append_of_ne_nil _ hp]
  · rintro ⟨rfl, x, hwalk, hstep⟩
    exact hwalk.concat hstep

lemma IsWalk.exists_concat (h : IsWalk step a c p) (hlen : 2 ≤ p.length) :
    ∃ q x, p = q ++ [c] ∧ IsWalk step a x q ∧ step x c := by
  have hsplit := List.dropLast_append_getLast h.ne_nil
  have hne : p.dropLast ≠ [] := by
    intro hnil
    have := congrArg List.length hnil
    rw [List.length_dropLast, List.length_nil] at this
    omega
  rw [← hsplit] at h
  obtain ⟨heq, x, hwalk, hstep⟩ := (isWalk_concat hne).mp h
  exact ⟨p.dropLast, x, by rw [← heq, hsplit], hwalk, hstep⟩

/-! ## Levels -/

/-- The shortest walks from `a` to `b` take `k` steps. -/
def AtDist (step : α → α → Prop) (a : α) (k : ℕ) (b : α) : Prop :=
  (∃ p, IsWalk step a b p ∧ p.length = k + 1) ∧ ∀ p, IsWalk step a b p → k + 1 ≤ p.length

/-- The walks from `a` to `b` with the fewest steps. -/
def shortestWalks (step : α → α → Prop) (a b : α) : Set (List α) :=
  {p | IsWalk step a b p ∧ ∀ q, IsWalk step a b q → p.length ≤ q.length}

lemma AtDist.unique {k m : ℕ} (hk : AtDist step a k b) (hm : AtDist step a m b) : k = m := by
  obtain ⟨⟨p, hp, hplen⟩, hkmin⟩ := hk
  obtain ⟨⟨q, hq, hqlen⟩, hmmin⟩ := hm
  have := hkmin q hq
  have := hmmin p hp
  omega

lemma atDist_zero : AtDist step a 0 b ↔ b = a := by
  constructor
  · rintro ⟨⟨p, hp, hlen⟩, -⟩
    obtain ⟨c, rfl⟩ := List.length_eq_one_iff.mp hlen
    obtain ⟨rfl, rfl⟩ := isWalk_singleton.mp hp
    rfl
  · rintro rfl
    exact ⟨⟨[b], .refl b, rfl⟩, fun p hp => hp.length_pos⟩

/-- Every point that a walk reaches is on some level. -/
theorem IsWalk.exists_atDist (h : IsWalk step a b p) : ∃ k < p.length, AtDist step a k b := by
  have hex : ∃ k, ∃ q, IsWalk step a b q ∧ q.length = k + 1 :=
    ⟨p.length - 1, p, h, by have := h.length_pos; omega⟩
  classical
  refine ⟨Nat.find hex, ?_, Nat.find_spec hex, ?_⟩
  · have hle : Nat.find hex ≤ p.length - 1 :=
      Nat.find_min' hex ⟨p, h, by have := h.length_pos; omega⟩
    have := h.length_pos
    omega
  · intro q hq
    have hle : Nat.find hex ≤ q.length - 1 :=
      Nat.find_min' hex ⟨q, hq, by have := hq.length_pos; omega⟩
    have := hq.length_pos
    omega

variable {k : ℕ}

/-- A level is what one step from the level before reaches and no earlier level holds. -/
theorem atDist_succ :
    AtDist step a (k + 1) c ↔ (∃ b, AtDist step a k b ∧ step b c) ∧
    ∀ j ≤ k, ¬AtDist step a j c := by
  constructor
  · intro h
    obtain ⟨p, hp, hlen⟩ := h.1
    obtain ⟨q, x, rfl, hq, hstep⟩ := hp.exists_concat (by omega)
    rw [List.length_append, List.length_singleton] at hlen
    refine ⟨⟨x, ⟨⟨q, hq, by omega⟩, fun q' hq' => ?_⟩, hstep⟩, fun j hj hdist => ?_⟩
    · have := h.2 _ (hq'.concat hstep)
      rw [List.length_append, List.length_singleton] at this
      omega
    · have := hdist.unique h
      omega
  · rintro ⟨⟨x, ⟨⟨q, hq, hlen⟩, -⟩, hstep⟩, hnone⟩
    refine ⟨⟨q ++ [c], hq.concat hstep, by rw [List.length_append, hlen, List.length_singleton]⟩,
      fun p hp => ?_⟩
    obtain ⟨j, hj, hdist⟩ := hp.exists_atDist
    by_contra hlt
    exact hnone j (by omega) hdist

lemma mem_shortestWalks (h : AtDist step a k b) :
    p ∈ shortestWalks step a b ↔ IsWalk step a b p ∧ p.length = k + 1 := by
  obtain ⟨⟨q, hq, hlen⟩, hmin⟩ := h
  constructor
  · rintro ⟨hp, hpmin⟩
    have := hmin p hp
    have := hpmin q hq
    exact ⟨hp, by omega⟩
  · rintro ⟨hp, hplen⟩
    exact ⟨hp, fun q hq => hplen ▸ hmin q hq⟩

lemma shortestWalks_self (a : α) : shortestWalks step a a = {[a]} := by
  ext p
  rw [mem_shortestWalks (atDist_zero.mpr rfl), Set.mem_singleton_iff]
  constructor
  · rintro ⟨hp, hlen⟩
    obtain ⟨c, rfl⟩ := List.length_eq_one_iff.mp hlen
    rw [(isWalk_singleton.mp hp).1]
  · rintro rfl
    exact ⟨.refl a, rfl⟩

lemma shortestWalks_eq_empty (h : ∀ k, ¬AtDist step a k b) : shortestWalks step a b = ∅ := by
  apply Set.eq_empty_of_forall_notMem
  rintro p ⟨hp, -⟩
  obtain ⟨k, -, hdist⟩ := hp.exists_atDist
  exact h k hdist

lemma mem_shortestWalks_succ (h : AtDist step a (k + 1) c) :
    p ∈ shortestWalks step a c ↔
      ∃ b, (AtDist step a k b ∧ step b c) ∧ ∃ q ∈ shortestWalks step a b, q ++ [c] = p := by
  rw [mem_shortestWalks h]
  constructor
  · rintro ⟨hp, hlen⟩
    obtain ⟨q, x, rfl, hq, hstep⟩ := hp.exists_concat (by omega)
    rw [List.length_append, List.length_singleton] at hlen
    have hdist : AtDist step a k x := by
      refine ⟨⟨q, hq, by omega⟩, fun q' hq' => ?_⟩
      have := h.2 _ (hq'.concat hstep)
      rw [List.length_append, List.length_singleton] at this
      omega
    exact ⟨x, ⟨hdist, hstep⟩, q, (mem_shortestWalks hdist).mpr ⟨hq, by omega⟩, rfl⟩
  · rintro ⟨b, ⟨hdist, hstep⟩, q, hq, rfl⟩
    obtain ⟨hq, hlen⟩ := (mem_shortestWalks hdist).mp hq
    exact ⟨hq.concat hstep, by rw [List.length_append, hlen, List.length_singleton]⟩

lemma exists_mem_shortestWalks_succ (h : AtDist step a (k + 1) c) :
    (∃ q, q ++ [b, c] ∈ shortestWalks step a c) ↔ AtDist step a k b ∧ step b c := by
  constructor
  · rintro ⟨q, hq⟩
    obtain ⟨x, ⟨hdist, hstep⟩, q', hq', heq⟩ := (mem_shortestWalks_succ h).mp hq
    have hsplit : q' ++ [c] = (q ++ [b]) ++ [c] := by simpa using heq
    obtain rfl := List.append_cancel_right hsplit
    obtain rfl : b = x := Option.some.inj (List.getLast?_concat.symm.trans hq'.1.last)
    exact ⟨hdist, hstep⟩
  · rintro ⟨hdist, hstep⟩
    obtain ⟨q, hq, hlen⟩ := hdist.1
    have hmem := (mem_shortestWalks hdist).mpr ⟨hq, hlen⟩
    refine ⟨q.dropLast, (mem_shortestWalks_succ h).mpr ⟨b, ⟨hdist, hstep⟩, q, hmem, ?_⟩⟩
    have hlast : q.dropLast ++ [b] = q := by
      have heq : q.getLast hq.ne_nil = b :=
        Option.some.inj ((List.getLast?_eq_getLast_of_ne_nil hq.ne_nil).symm.trans hq.last)
      rw [← heq, List.dropLast_append_getLast]
    conv_lhs => rw [← hlast]
    simp

/-- The walks that go on from the points of a list are counted point by point. -/
theorem ncard_extend {walks : α → Set (List α)} {vs : List α} (hvs : vs.Nodup)
    (hends : ∀ v ∈ vs, ∀ q ∈ walks v, q.getLast? = some v) (hfin : ∀ v ∈ vs, (walks v).Finite)
    (c : α) :
    {p | ∃ v ∈ vs, ∃ q ∈ walks v, q ++ [c] = p}.Finite ∧
      {p | ∃ v ∈ vs, ∃ q ∈ walks v, q ++ [c] = p}.ncard =
      (vs.map fun v => (walks v).ncard).sum := by
  induction vs with
  | nil => simp
  | cons v vs ih =>
    obtain ⟨hv, hvs⟩ := List.nodup_cons.mp hvs
    obtain ⟨hrestFin, hrest⟩ := ih hvs (fun w hw => hends w (List.mem_cons_of_mem _ hw))
      fun w hw => hfin w (List.mem_cons_of_mem _ hw)
    have hinj : Function.Injective fun q : List α => q ++ [c] := fun _ _ h =>
      List.append_cancel_right h
    have hfirst := (hfin v List.mem_cons_self).image fun q => q ++ [c]
    have hsplit : {p | ∃ w ∈ v :: vs, ∃ q ∈ walks w, q ++ [c] = p} =
        (fun q => q ++ [c]) '' walks v ∪ {p | ∃ w ∈ vs, ∃ q ∈ walks w, q ++ [c] = p} := by
      ext p
      simp
    have hdisj : Disjoint ((fun q => q ++ [c]) '' walks v)
        {p | ∃ w ∈ vs, ∃ q ∈ walks w, q ++ [c] = p} := by
      rw [Set.disjoint_left]
      rintro p ⟨q, hq, rfl⟩ ⟨w, hw, q', hq', heq⟩
      obtain rfl := hinj heq
      have hlast := hends v List.mem_cons_self _ hq
      rw [hends w (List.mem_cons_of_mem _ hw) _ hq', Option.some.injEq] at hlast
      exact hv (hlast ▸ hw)
    rw [hsplit]
    refine ⟨hfirst.union hrestFin, ?_⟩
    rw [Set.ncard_union_eq hdisj hfirst hrestFin, Set.ncard_image_of_injective _ hinj, hrest,
      List.map_cons, List.sum_cons]

theorem ncard_shortestWalks (h : AtDist step a (k + 1) c) {preds : List α} (hnodup : preds.Nodup)
    (hpreds : ∀ b, b ∈ preds ↔ AtDist step a k b ∧ step b c)
    (hfin : ∀ b ∈ preds, (shortestWalks step a b).Finite) :
    (shortestWalks step a c).Finite ∧ (shortestWalks step a c).ncard =
      (preds.map fun b => (shortestWalks step a b).ncard).sum := by
  have heq : shortestWalks step a c =
      {p | ∃ v ∈ preds, ∃ q ∈ shortestWalks step a v, q ++ [c] = p} := by
    ext p
    rw [mem_shortestWalks_succ h]
    simp only [hpreds, Set.mem_ofPred_eq]
  rw [heq]
  exact ncard_extend hnodup (fun v _ q hq => hq.1.last) hfin c

/-! ## Simple paths -/

/-- The walks from `a` to `b` that visit no point twice. -/
def simplePaths (step : α → α → Prop) (a b : α) : Set (List α) := {p | IsWalk step a b p ∧ p.Nodup}

lemma IsWalk.prefix_of_append {r : List α} (h : IsWalk step a b (q ++ c :: r)) :
    IsWalk step a c (q ++ [c]) where
  head := by
    have hhead := h.head
    cases q with
    | nil => exact hhead
    | cons x q => exact hhead
  last := List.getLast?_concat
  chain := by
    have hchain := h.chain
    rw [← List.singleton_append, ← List.append_assoc] at hchain
    exact (List.isChain_append.mp hchain).1

lemma IsWalk.exists_simple (h : IsWalk step a b p) :
    ∃ q ∈ simplePaths step a b, q.Sublist p := by
  induction p using List.reverseRecOn generalizing b with
  | nil => exact absurd rfl h.ne_nil
  | append_singleton p c ih =>
    by_cases hp : p = []
    · subst hp
      exact ⟨[c], ⟨h, List.nodup_singleton c⟩, List.Sublist.refl _⟩
    obtain ⟨rfl, x, hwalk, hstep⟩ := (isWalk_concat hp).mp h
    obtain ⟨q, ⟨hq, hnodup⟩, hsub⟩ := ih hwalk
    by_cases hc : c ∈ q
    · obtain ⟨l, r, rfl⟩ := List.append_of_mem hc
      have hpre : (l ++ [c]).Sublist (l ++ c :: r) :=
        (List.Sublist.refl l).append (List.singleton_sublist.mpr List.mem_cons_self)
      exact ⟨l ++ [c], ⟨hq.prefix_of_append, hpre.nodup hnodup⟩,
        (hpre.trans hsub).trans (List.sublist_append_left ..)⟩
    · refine ⟨q ++ [c], ⟨hq.concat hstep, ?_⟩, hsub.append (List.Sublist.refl _)⟩
      rw [List.nodup_append]
      refine ⟨hnodup, List.nodup_singleton c, ?_⟩
      intro y hy z hz hyz
      rw [List.mem_singleton] at hz
      exact hc (hz ▸ hyz ▸ hy)

lemma nodup_of_mem_shortestWalks (h : p ∈ shortestWalks step a b) : p.Nodup := by
  obtain ⟨q, ⟨hq, hnodup⟩, hsub⟩ := h.1.exists_simple
  have heq := hsub.eq_of_length_le (h.2 q hq)
  exact heq ▸ hnodup

theorem mem_shortestWalks_iff_simple : p ∈ shortestWalks step a b ↔
    p ∈ simplePaths step a b ∧ ∀ q ∈ simplePaths step a b, p.length ≤ q.length := by
  constructor
  · intro h
    exact ⟨⟨h.1, nodup_of_mem_shortestWalks h⟩, fun q hq => h.2 q hq.1⟩
  · rintro ⟨hp, hmin⟩
    refine ⟨hp.1, fun q hq => ?_⟩
    obtain ⟨q', hq', hsub⟩ := hq.exists_simple
    exact (hmin q' hq').trans hsub.length_le

/-! ## Walks under other names -/

section Names

variable {β : Type*} {step' : β → β → Prop} {f : α → β}

lemma IsWalk.map (hf : ∀ x y, step x y → step' (f x) (f y)) (h : IsWalk step a b p) :
    IsWalk step' (f a) (f b) (p.map f) where
  head := by rw [List.head?_map, h.head, Option.map_some]
  last := by rw [List.getLast?_map, h.last, Option.map_some]
  chain := List.isChain_map_of_isChain f hf h.chain

/-- If every step from a name is a step from the point it names, then every walk from a name is a
walk of the points. -/
theorem IsWalk.exists_map (good : α → Prop) (ha : good a)
    (hlift : ∀ x y', good x → step' (f x) y' → ∃ y, f y = y' ∧ step x y ∧ good y) {b' : β}
    {p' : List β} (h : IsWalk step' (f a) b' p') :
    ∃ b p, f b = b' ∧ good b ∧ IsWalk step a b p ∧ p.map f = p' := by
  induction p' using List.reverseRecOn generalizing b' with
  | nil => exact absurd rfl h.ne_nil
  | append_singleton p' c' ih =>
    by_cases hp : p' = []
    · subst hp
      obtain ⟨rfl, rfl⟩ := isWalk_singleton.mp h
      exact ⟨a, [a], rfl, ha, .refl a, rfl⟩
    obtain ⟨rfl, x', hwalk, hstep⟩ := (isWalk_concat hp).mp h
    obtain ⟨x, p, rfl, hx, hwalk₀, rfl⟩ := ih hwalk
    obtain ⟨y, rfl, hxy, hy⟩ := hlift x c' hx hstep
    exact ⟨y, p ++ [y], rfl, hy, hwalk₀.concat hxy, by rw [List.map_append, List.map_singleton]⟩

end Names

/-! ## Parallel edges -/

section Choices

variable (count : α → α → ℕ)

/-- The ways to walk a path, where `count` says along how many edges a step can be taken. -/
def stepChoices : List α → ℕ
  | a :: b :: p => count a b * stepChoices (b :: p)
  | _ => 1

variable {count}

lemma stepChoices_pos_iff (hcount : ∀ x y, 0 < count x y ↔ step x y) {p : List α} :
    0 < stepChoices count p ↔ p.IsChain step := by
  induction p with
  | nil => simp [stepChoices]
  | cons a p ih =>
    cases p with
    | nil => simp [stepChoices]
    | cons b p =>
      rw [stepChoices, CanonicallyOrderedAdd.mul_pos, hcount, ih, List.isChain_cons_cons]

lemma stepChoices_eq_one_iff {p : List α} :
    stepChoices count p = 1 ↔ ∀ a b, [a, b] <:+: p → count a b = 1 := by
  induction p with
  | nil => simp [stepChoices]
  | cons a p ih =>
    cases p with
    | nil =>
      refine iff_of_true rfl fun x y hinfix => ?_
      simpa using hinfix.length_le
    | cons b p =>
      rw [stepChoices, mul_eq_one, ih]
      constructor
      · rintro ⟨hfirst, hrest⟩ x y hinfix
        rcases List.infix_cons_iff.mp hinfix with hpre | hinfix
        · rw [List.cons_prefix_cons, List.cons_prefix_cons] at hpre
          rw [hpre.1, hpre.2.1, hfirst]
        · exact hrest x y hinfix
      · intro hall
        refine ⟨hall a b ⟨[], p, rfl⟩, fun x y hinfix => hall x y ?_⟩
        exact List.infix_cons hinfix

end Choices
