import Mathlib.Data.Finset.Union
import Mathlib.Data.List.Basic
import Mathlib.Tactic.Common

/-!
# Searches of trees

A tree type given by the branches of a node, each with a label. A search that enters the branches of
some labels only sees what is below branches of these labels.

* `Branching.anyBelow_iff` — what a search for a node finds;
* `Branching.mem_gather` — what is collected from all nodes;
* `Branching.checkBelow_eq_ok_iff` — when a check of the nodes succeeds;
* `Branching.mem_free_iff` — which names are free where labels bind names.
-/

/-- The branches of the nodes of a type of finite trees. -/
structure Branching (α σ : Type) where
  branches : α → List (σ × α)
  wf : WellFounded fun b a => ∃ s, (s, b) ∈ branches a

namespace Branching

open List

/-- Trees whose branches are smaller in some measure. -/
theorem wf_of_lt {α σ : Type} {branches : α → List (σ × α)} (size : α → ℕ)
    (h : ∀ {a : α} {c : σ × α}, c ∈ branches a → size c.2 < size a) :
    WellFounded fun b a => ∃ s, (s, b) ∈ branches a :=
  Subrelation.wf (fun ⟨_, hs⟩ => h hs) (InvImage.wf size Nat.lt_wfRel.wf)

variable {α σ β ε : Type} (T : Branching α σ)

/-- There is a path of labels from a node to one below it. -/
inductive Reaches : α → List σ → α → Prop
  | here (a : α) : Reaches a [] a
  | branch {a b : α} {c : σ × α} {path : List σ} (hc : c ∈ T.branches a) (h : Reaches c.2 path b) :
    Reaches a (c.1 :: path) b

/-- Some node passes a test, entering the branches of some labels only. -/
def anyBelow (test : α → Bool) (enters : σ → Bool) (a : α) : Bool :=
  test a || (T.branches a).attach.any fun c => enters c.1.1 && anyBelow test enters c.1.2
termination_by T.wf.wrap a
decreasing_by exact ⟨c.1.1, c.2⟩

/-- What is collected from the nodes, a node before what is below it. -/
def gather (own : α → List β) (enters : σ → Bool) (a : α) : List β :=
  own a ++ (T.branches a).attach.flatMap fun c =>
    if enters c.1.1 then gather own enters c.1.2 else []
termination_by T.wf.wrap a
decreasing_by exact ⟨c.1.1, c.2⟩

/-- All nodes pass a check, entering the branches of some labels only. -/
def checkBelow (check : α → Except ε Unit) (enters : σ → Bool) (a : α) : Except ε Unit := do
  check a
  (T.branches a).attach.forM fun c => if enters c.1.1 then checkBelow check enters c.1.2 else .ok ()
termination_by T.wf.wrap a
decreasing_by exact ⟨c.1.1, c.2⟩

variable {T} {a b : α} {test : α → Bool} {enters : σ → Bool}

lemma Reaches.trans {path path' : List σ} {b' : α} (h : T.Reaches a path b)
    (h' : T.Reaches b path' b') :
    T.Reaches a (path ++ path') b' := by
  induction h with
  | here => exact h'
  | branch hc _ ih => exact .branch hc (ih h')

lemma reaches_cons_iff {s : σ} {path : List σ} : T.Reaches a (s :: path) b ↔
    ∃ c, (s, c) ∈ T.branches a ∧ T.Reaches c path b := by
  refine ⟨fun h => ?_, fun ⟨_, hc, h⟩ => .branch hc h⟩
  cases h with
  | branch hc hbelow => exact ⟨_, hc, hbelow⟩

/-- A path leads through a node wherever it is cut. -/
theorem reaches_append_iff {path path' : List σ} : T.Reaches a (path ++ path') b ↔
    ∃ b', T.Reaches a path b' ∧ T.Reaches b' path' b := by
  refine ⟨fun h => ?_, fun ⟨_, h, h'⟩ => h.trans h'⟩
  induction path generalizing a with
  | nil => exact ⟨a, .here a, h⟩
  | cons s path ih =>
    obtain ⟨c, hc, hbelow⟩ := reaches_cons_iff.mp h
    obtain ⟨b', hfront, hback⟩ := ih hbelow
    exact ⟨b', .branch hc hfront, hback⟩

lemma induction_branches {motive : α → Prop}
    (step : ∀ a, (∀ c ∈ T.branches a, motive c.2) → motive a) (a : α) : motive a :=
  step a fun c _hc => induction_branches step c.2
termination_by T.wf.wrap a
decreasing_by exact ⟨c.1, _hc⟩

lemma anyBelow_eq : T.anyBelow test enters a =
    (test a || (T.branches a).any fun c => enters c.1 && T.anyBelow test enters c.2) := by
  rw [anyBelow]
  conv_rhs => rw [← attach_map_subtype_val (T.branches a), any_map]
  rfl

/-- **What a search finds.** -/
theorem anyBelow_iff : T.anyBelow test enters a = true ↔
    ∃ path b, T.Reaches a path b ∧ test b = true ∧ ∀ s ∈ path, enters s = true := by
  induction a using T.induction_branches with
  | step a ih =>
    rw [anyBelow_eq, Bool.or_eq_true, any_eq_true]
    constructor
    · rintro (htest | ⟨c, hc, hbelow⟩)
      · exact ⟨[], a, .here a, htest, fun _ hs => nomatch hs⟩
      · obtain ⟨henters, hfound⟩ := Bool.and_eq_true_iff.mp hbelow
        obtain ⟨path, b, hpath, htest, hall⟩ := (ih c hc).mp hfound
        exact ⟨c.1 :: path, b, .branch hc hpath, htest, forall_mem_cons.mpr ⟨henters, hall⟩⟩
    · rintro ⟨path, b, hpath, htest, hall⟩
      cases hpath with
      | here => exact .inl htest
      | branch hc hbelow =>
        obtain ⟨henters, hrest⟩ := forall_mem_cons.mp hall
        exact .inr ⟨_, hc, Bool.and_eq_true_iff.mpr
          ⟨henters, (ih _ hc).mpr ⟨_, b, hbelow, htest, hrest⟩⟩⟩

/-- A search that enters more finds more. -/
theorem anyBelow_mono {enters' : σ → Bool} (h : ∀ s, enters s = true → enters' s = true)
    (hfound : T.anyBelow test enters a = true) : T.anyBelow test enters' a = true := by
  obtain ⟨path, b, hpath, htest, hall⟩ := anyBelow_iff.mp hfound
  exact anyBelow_iff.mpr ⟨path, b, hpath, htest, fun s hs => h s (hall s hs)⟩

/-- **What is collected** is from the nodes that are entered. -/
theorem mem_gather {own : α → List β} {x : β} : x ∈ T.gather own enters a ↔
    ∃ path b, T.Reaches a path b ∧ (∀ s ∈ path, enters s = true) ∧ x ∈ own b := by
  induction a using T.induction_branches with
  | step a ih =>
    rw [gather, mem_append, mem_flatMap]
    constructor
    · rintro (hown | ⟨⟨c, hc⟩, -, hbelow⟩)
      · exact ⟨[], a, .here a, (fun _ hs => nomatch hs), hown⟩
      · split at hbelow
        next henters =>
          obtain ⟨path, b, hpath, hall, hown⟩ := (ih c hc).mp hbelow
          exact ⟨c.1 :: path, b, .branch hc hpath, forall_mem_cons.mpr ⟨henters, hall⟩, hown⟩
        next => exact absurd hbelow not_mem_nil
    · rintro ⟨path, b, hpath, hall, hown⟩
      cases hpath with
      | here => exact .inl hown
      | branch hc hbelow =>
        obtain ⟨henters, hrest⟩ := forall_mem_cons.mp hall
        refine .inr ⟨⟨_, hc⟩, mem_attach _ _, ?_⟩
        rw [if_pos henters]
        exact (ih _ hc).mpr ⟨_, b, hbelow, hrest, hown⟩

/-- Two checks in a row. -/
theorem bind_eq_ok_iff {x y : Except ε Unit} :
    (x >>= fun _ => y) = .ok () ↔ x = .ok () ∧ y = .ok () := by
  rcases x with e | u
  · exact iff_of_false (fun h => nomatch h) fun h => nomatch h.1
  · exact (and_iff_right rfl).symm

lemma checkBelow_leaf {check : α → Except ε Unit} (h : T.branches a = []) :
    T.checkBelow check enters a = check a := by
  rw [checkBelow, h]
  rcases check a <;> rfl

lemma gather_leaf {own : α → List β} (h : T.branches a = []) : T.gather own enters a = own a := by
  rw [gather, h]
  exact append_nil _

lemma forM_eq_ok_iff {l : List β} {f : β → Except ε Unit} :
    l.forM f = .ok () ↔ ∀ x ∈ l, f x = .ok () := by
  induction l with
  | nil => exact iff_of_true rfl fun _ hx => nomatch hx
  | cons x l ih =>
    rw [forall_mem_cons, ← ih]
    exact bind_eq_ok_iff

/-- **When a check of the nodes succeeds.** -/
theorem checkBelow_eq_ok_iff {check : α → Except ε Unit} : T.checkBelow check enters a = .ok () ↔
    ∀ path b, T.Reaches a path b → (∀ s ∈ path, enters s = true) → check b = .ok () := by
  induction a using T.induction_branches with
  | step a ih =>
    have hsplit : T.checkBelow check enters a = .ok () ↔ check a = .ok () ∧
        ∀ c ∈ T.branches a, enters c.1 = true → T.checkBelow check enters c.2 = .ok () := by
      rw [checkBelow]
      refine bind_eq_ok_iff.trans (and_congr_right fun _ => forM_eq_ok_iff.trans ?_)
      refine ⟨fun h c hc henters => ?_, fun h c _ => ?_⟩
      · have hbranch := h ⟨c, hc⟩ (mem_attach _ _)
        rwa [if_pos henters] at hbranch
      · split
        next henters => exact h c.1 c.2 henters
        next => rfl
    rw [hsplit]
    constructor
    · rintro ⟨hcheck, hbranches⟩ path b hpath hall
      cases hpath with
      | here => exact hcheck
      | branch hc hbelow =>
        obtain ⟨henters, hrest⟩ := forall_mem_cons.mp hall
        exact (ih _ hc).mp (hbranches _ hc henters) _ b hbelow hrest
    · intro h
      refine ⟨h [] a (.here a) (fun _ hs => nomatch hs), fun c hc henters => (ih c hc).mpr ?_⟩
      intro path b hpath hall
      exact h (c.1 :: path) b (.branch hc hpath) (forall_mem_cons.mpr ⟨henters, hall⟩)

/-! ## Labels that bind names -/

section Free

variable {ν : Type} [DecidableEq ν] {S : Branching α (Finset ν)} {own : α → Finset ν} {x : ν}

/-- The names of a node, and those free in a branch that its label does not bind. -/
def free (S : Branching α (Finset ν)) (own : α → Finset ν) (a : α) : Finset ν :=
  own a ∪ ((S.branches a).attach.map fun c => free S own c.1.2 \ c.1.1).toFinset.biUnion id
termination_by S.wf.wrap a
decreasing_by exact ⟨c.1.1, c.2⟩

lemma mem_free_iff : x ∈ S.free own a ↔
    x ∈ own a ∨ ∃ c ∈ S.branches a, x ∈ S.free own c.2 ∧ x ∉ c.1 := by
  rw [free, Finset.mem_union, Finset.mem_biUnion]
  refine or_congr_right ⟨?_, ?_⟩
  · rintro ⟨vars, hvars, hx⟩
    obtain ⟨⟨c, hc⟩, -, rfl⟩ := mem_map.mp (mem_toFinset.mp hvars)
    exact ⟨c, hc, Finset.mem_sdiff.mp hx⟩
  · rintro ⟨c, hc, hx⟩
    exact ⟨_, mem_toFinset.mpr (mem_map.mpr ⟨⟨c, hc⟩, mem_attach _ _, rfl⟩),
      Finset.mem_sdiff.mpr hx⟩

end Free

end Branching
