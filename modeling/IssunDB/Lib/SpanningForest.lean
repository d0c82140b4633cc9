import Mathlib.Algebra.BigOperators.Group.Finset.Basic
import Mathlib.Algebra.Order.Group.Defs
import Mathlib.Algebra.Order.Monoid.Unbundled.Basic
import Mathlib.Data.Finset.Sort
import Mathlib.Logic.Relation
import Mathlib.Tactic.Common

/-!
# Spanning forests of a multigraph

Edges have two ends; parallel edges and self-loops are allowed. A spanning forest of a set of edges
is a subset without a cycle that joins the same vertices. Going through the edges in ascending order
of their weights and taking each edge whose ends are not joined yet gives one of least weight.

* `joined_insert`: what one more edge joins;
* `acyclic_iff`: there is no cycle just when every edge is a bridge;
* `sum_greedy_le`: the exchange argument, by induction over the edges that are left.
-/

namespace SpanningForest

open List

variable {V E : Type*} (src dst : E → V)

/-- A step along an edge of the set, in either direction. -/
def Step (F : Finset E) (e : E) (a b : V) : Prop :=
  e ∈ F ∧ (src e = a ∧ dst e = b ∨ src e = b ∧ dst e = a)

/-- Edges of the set join two vertices. -/
def Joined (F : Finset E) : V → V → Prop := Relation.EqvGen fun a b => ∃ e, Step src dst F e a b

/-- The edges of a list lead from one vertex to another. -/
inductive Walk (F : Finset E) : V → List E → V → Prop
  | nil (v : V) : Walk F v [] v
  | cons {a b c : V} {e : E} {l : List E} (hstep : Step src dst F e a b) (hwalk : Walk F b l c) :
      Walk F a (e :: l) c

/-- No walk without a repeated edge leads back to where it starts. -/
def Acyclic (F : Finset E) : Prop := ∀ v l, Walk src dst F v l v → l.Nodup → l = []

/-- A subset without a cycle that joins the same vertices. -/
structure IsSpanningForest (S F : Finset E) : Prop where
  subset : F ⊆ S
  acyclic : Acyclic src dst F
  joined_iff : ∀ a b, Joined src dst F a b ↔ Joined src dst S a b

variable {src dst} {F G : Finset E} {a b c : V} {e : E} {l : List E}

lemma Joined.refl (a : V) : Joined src dst F a a := Relation.EqvGen.refl a

lemma Joined.symm (h : Joined src dst F a b) : Joined src dst F b a := Relation.EqvGen.symm _ _ h

lemma Joined.trans (h : Joined src dst F a b) (h' : Joined src dst F b c) :
    Joined src dst F a c := Relation.EqvGen.trans _ _ _ h h'

lemma joined_ends (h : e ∈ F) : Joined src dst F (src e) (dst e) :=
  .rel _ _ ⟨e, h, .inl ⟨rfl, rfl⟩⟩

lemma Joined.mono (hsub : F ⊆ G) (h : Joined src dst F a b) : Joined src dst G a b := by
  induction h with
  | rel a b h =>
    obtain ⟨e, he, hends⟩ := h
    exact .rel _ _ ⟨e, hsub he, hends⟩
  | refl a => exact .refl a
  | symm a b _ ih => exact ih.symm
  | trans a b c _ _ ih₁ ih₂ => exact ih₁.trans ih₂

lemma joined_empty : Joined src dst ∅ a b ↔ a = b := by
  constructor
  · intro h
    induction h with
    | rel a b h =>
      obtain ⟨e, he, -⟩ := h
      exact absurd he (Finset.notMem_empty e)
    | refl a => rfl
    | symm a b _ ih => exact ih.symm
    | trans a b c _ _ ih₁ ih₂ => exact ih₁.trans ih₂
  · rintro rfl
    exact .refl a

variable [DecidableEq E]

theorem joined_insert :
    Joined src dst (insert e F) a b ↔ Joined src dst F a b ∨
      (Joined src dst F a (src e) ∧ Joined src dst F (dst e) b) ∨
      (Joined src dst F a (dst e) ∧ Joined src dst F (src e) b) := by
  have hsub := Finset.subset_insert e F
  have hself : Joined src dst (insert e F) (src e) (dst e) :=
    joined_ends (Finset.mem_insert_self e F)
  constructor
  · intro h
    induction h with
    | rel a b h =>
      obtain ⟨f, hf, hends⟩ := h
      rcases Finset.mem_insert.mp hf with rfl | hf
      · rcases hends with ⟨rfl, rfl⟩ | ⟨rfl, rfl⟩
        · exact .inr (.inl ⟨.refl _, .refl _⟩)
        · exact .inr (.inr ⟨.refl _, .refl _⟩)
      · exact .inl (.rel _ _ ⟨f, hf, hends⟩)
    | refl a => exact .inl (.refl a)
    | symm a b _ ih =>
      rcases ih with h | ⟨h, h'⟩ | ⟨h, h'⟩
      · exact .inl h.symm
      · exact .inr (.inr ⟨h'.symm, h.symm⟩)
      · exact .inr (.inl ⟨h'.symm, h.symm⟩)
    | trans a b c _ _ ih₁ ih₂ =>
      rcases ih₁ with h | ⟨h, h'⟩ | ⟨h, h'⟩
      · rcases ih₂ with k | ⟨k, k'⟩ | ⟨k, k'⟩
        · exact .inl (h.trans k)
        · exact .inr (.inl ⟨h.trans k, k'⟩)
        · exact .inr (.inr ⟨h.trans k, k'⟩)
      · rcases ih₂ with k | ⟨-, k'⟩ | ⟨-, k'⟩
        · exact .inr (.inl ⟨h, h'.trans k⟩)
        · exact .inr (.inl ⟨h, k'⟩)
        · exact .inl (h.trans k')
      · rcases ih₂ with k | ⟨-, k'⟩ | ⟨-, k'⟩
        · exact .inr (.inr ⟨h, h'.trans k⟩)
        · exact .inl (h.trans k')
        · exact .inr (.inr ⟨h, k'⟩)
  · rintro (h | ⟨h, h'⟩ | ⟨h, h'⟩)
    · exact h.mono hsub
    · exact ((h.mono hsub).trans hself).trans (h'.mono hsub)
    · exact ((h.mono hsub).trans hself.symm).trans (h'.mono hsub)

lemma joined_insert_of_joined (he : Joined src dst F (src e) (dst e)) :
    Joined src dst (insert e F) a b ↔ Joined src dst F a b := by
  rw [joined_insert]
  constructor
  · rintro (h | ⟨h, h'⟩ | ⟨h, h'⟩)
    · exact h
    · exact (h.trans he).trans h'
    · exact (h.trans he.symm).trans h'
  · exact .inl

lemma joined_of_erase (h : Joined src dst F a b) (hnot : ¬ Joined src dst (F.erase e) a b)
    (he : e ∈ F) :
    (Joined src dst (F.erase e) a (src e) ∧ Joined src dst (F.erase e) (dst e) b) ∨
      (Joined src dst (F.erase e) a (dst e) ∧ Joined src dst (F.erase e) (src e) b) := by
  rw [← Finset.insert_erase he, joined_insert] at h
  exact h.resolve_left hnot

/-! ## Walks and cycles -/

omit [DecidableEq E] in
lemma Walk.joined (h : Walk src dst F a l b) : Joined src dst F a b := by
  induction h with
  | nil v => exact .refl v
  | cons hstep _ ih => exact Joined.trans (.rel _ _ ⟨_, hstep⟩) ih

omit [DecidableEq E] in
lemma Walk.mono (hsub : ∀ e ∈ l, e ∈ F → e ∈ G) (h : Walk src dst F a l b) :
    Walk src dst G a l b := by
  induction h with
  | nil v => exact .nil v
  | cons hstep _ ih =>
    exact .cons ⟨hsub _ mem_cons_self hstep.1, hstep.2⟩
      (ih fun e he => hsub e (mem_cons_of_mem _ he))

omit [DecidableEq E] in
lemma Walk.append {l' : List E} (h : Walk src dst F a l b) (h' : Walk src dst F b l' c) :
    Walk src dst F a (l ++ l') c := by
  induction h with
  | nil v => exact h'
  | cons hstep _ ih => exact .cons hstep (ih h')

omit [DecidableEq E] in
lemma Walk.mem (h : Walk src dst F a l b) : ∀ e ∈ l, e ∈ F := by
  induction h with
  | nil v => exact fun e he => absurd he not_mem_nil
  | cons hstep _ ih =>
    intro e he
    rcases mem_cons.mp he with rfl | he
    · exact hstep.1
    · exact ih e he

omit [DecidableEq E] in
lemma Walk.joined_of_mem (h : Walk src dst F a l b) (he : e ∈ l) :
    Joined src dst F a (src e) := by
  induction h with
  | nil v => cases he
  | cons hstep hwalk ih =>
    have hfirst : Joined src dst F _ _ := .rel _ _ ⟨_, hstep⟩
    rcases mem_cons.mp he with rfl | he
    · rcases hstep.2 with ⟨rfl, -⟩ | ⟨rfl, -⟩
      · exact .refl _
      · exact hfirst
    · exact hfirst.trans (ih he)

/-- Two vertices that are joined are joined by a walk without a repeated edge. -/
theorem exists_trail (h : Joined src dst F a b) : ∃ l, Walk src dst F a l b ∧ l.Nodup := by
  -- With one more edge, a trail goes through it only between vertices that are not joined without.
  induction F using Finset.induction_on generalizing a b with
  | empty =>
    obtain rfl := joined_empty.mp h
    exact ⟨[], .nil a, nodup_nil⟩
  | insert e F he ih =>
    have hsub : ∀ {l : List E}, ∀ f ∈ l, f ∈ F → f ∈ insert e F :=
      fun f _ hf => Finset.mem_insert_of_mem hf
    by_cases hold : Joined src dst F a b
    · obtain ⟨l, hl, hnodup⟩ := ih hold
      exact ⟨l, hl.mono hsub, hnodup⟩
    · have hthrough : ∀ {x y : V}, Step src dst (insert e F) e x y → Joined src dst F a x →
          Joined src dst F y b → ∃ l, Walk src dst (insert e F) a l b ∧ l.Nodup := by
        intro x y hstep hx hy
        obtain ⟨l, hl, hnodup⟩ := ih hx
        obtain ⟨l', hl', hnodup'⟩ := ih hy
        have hnotin : ∀ f ∈ l, f ∉ l' := fun f hf hf' => hold
          ((hl.joined_of_mem hf).trans ((hl'.joined_of_mem hf').symm.trans hl'.joined))
        refine ⟨l ++ e :: l', (hl.mono hsub).append (.cons hstep (hl'.mono hsub)), ?_⟩
        refine nodup_append.mpr ⟨hnodup,
          nodup_cons.mpr ⟨fun hin => he (hl'.mem e hin), hnodup'⟩, ?_⟩
        rintro f hf g hg rfl
        rcases mem_cons.mp hg with rfl | hg
        · exact he (hl.mem _ hf)
        · exact hnotin f hf hg
      have hself := Finset.mem_insert_self e F
      rcases (joined_insert.mp h).resolve_left hold with ⟨hx, hy⟩ | ⟨hx, hy⟩
      · exact hthrough ⟨hself, .inl ⟨rfl, rfl⟩⟩ hx hy
      · exact hthrough ⟨hself, .inr ⟨rfl, rfl⟩⟩ hx hy

/-- There is no cycle just when no edge joins what the others join. -/
theorem acyclic_iff :
    Acyclic src dst F ↔ ∀ e ∈ F, ¬ Joined src dst (F.erase e) (src e) (dst e) := by
  constructor
  · intro h e he hjoined
    -- A trail between the ends that avoids the edge is closed by it.
    obtain ⟨l, hl, hnodup⟩ := exists_trail hjoined.symm
    have hnotin : e ∉ l := fun hin => Finset.notMem_erase e F (hl.mem e hin)
    have hwalk : Walk src dst F (src e) (e :: l) (src e) :=
      .cons ⟨he, .inl ⟨rfl, rfl⟩⟩ (hl.mono fun _ _ hf => Finset.mem_of_mem_erase hf)
    exact absurd (h _ _ hwalk (nodup_cons.mpr ⟨hnotin, hnodup⟩)) (cons_ne_nil e l)
  · intro h v l hwalk hnodup
    cases hwalk with
    | nil => rfl
    | @cons _ b _ e l hstep hwalk =>
      -- The rest of the closed walk joins the ends of its first edge.
      have hnotin := (nodup_cons.mp hnodup).1
      have hrest : Joined src dst (F.erase e) b v :=
        (hwalk.mono fun f hf hmem =>
          Finset.mem_erase.mpr ⟨ne_of_mem_of_not_mem hf hnotin, hmem⟩).joined
      refine absurd ?_ (h e hstep.1)
      rcases hstep.2 with ⟨rfl, rfl⟩ | ⟨rfl, rfl⟩
      · exact hrest.symm
      · exact hrest

omit [DecidableEq E] in
lemma acyclic_empty : Acyclic src dst ∅ := by
  intro v l hwalk _
  cases hwalk with
  | nil => rfl
  | cons hstep _ => exact absurd hstep.1 (Finset.notMem_empty _)

omit [DecidableEq E] in
lemma Acyclic.mono (h : Acyclic src dst G) (hsub : F ⊆ G) : Acyclic src dst F :=
  fun v l hwalk hnodup => h v l (hwalk.mono fun _ _ he => hsub he) hnodup

/-- An edge whose ends are not joined closes no cycle. -/
theorem Acyclic.insert (h : Acyclic src dst F) (he : ¬ Joined src dst F (src e) (dst e)) :
    Acyclic src dst (insert e F) := by
  have hnotin : e ∉ F := fun hin => he (joined_ends hin)
  rw [acyclic_iff]
  intro f hf hjoined
  by_cases heq : f = e
  · subst heq
    rw [Finset.erase_insert hnotin] at hjoined
    exact he hjoined
  · have hfF := Finset.mem_of_mem_insert_of_ne hf heq
    have hbridge := acyclic_iff.mp h f hfF
    rw [Finset.erase_insert_of_ne (Ne.symm heq), joined_insert] at hjoined
    have hends : Joined src dst F (src f) (dst f) := joined_ends hfF
    have hsub := Finset.erase_subset f F
    -- What would join the ends of the old edge joins those of the new one without it.
    rcases hjoined.resolve_left hbridge with ⟨hx, hy⟩ | ⟨hx, hy⟩
    · exact he (((hx.mono hsub).symm.trans hends).trans (hy.mono hsub).symm)
    · exact he (((hy.mono hsub).trans hends.symm).trans (hx.mono hsub))

/-! ## Exchange -/

/-- Where an edge would close a cycle, some other edge of the cycle outside of an old part can be
given up for it. -/
theorem exists_exchange {B A : Finset E} (hacyclic : Acyclic src dst (B ∪ A))
    (hjoined : Joined src dst (B ∪ A) (src e) (dst e))
    (hnot : ¬ Joined src dst B (src e) (dst e)) :
    ∃ f ∈ A, f ∉ B ∧ ¬ Joined src dst ((B ∪ A).erase f) (src e) (dst e) := by
  induction A using Finset.induction_on with
  | empty => exact absurd (by rwa [Finset.union_empty] at hjoined) hnot
  | insert f A hf ih =>
    have hsub : B ∪ A ⊆ B ∪ insert f A :=
      Finset.union_subset_union_right (Finset.subset_insert f A)
    by_cases hA : Joined src dst (B ∪ A) (src e) (dst e)
    · obtain ⟨g, hg, hgB, hsep⟩ := ih (hacyclic.mono hsub) hA
      refine ⟨g, Finset.mem_insert_of_mem hg, hgB, fun hstill => ?_⟩
      -- Then the ends of `g` would be joined through those of `e`.
      have hmem : g ∈ B ∪ A := Finset.mem_union_right _ hg
      have herase := Finset.erase_subset_erase g hsub
      refine acyclic_iff.mp hacyclic g (hsub hmem) ?_
      rcases joined_of_erase hA hsep hmem with ⟨hx, hy⟩ | ⟨hx, hy⟩
      · exact ((hx.mono herase).symm.trans hstill).trans (hy.mono herase).symm
      · exact ((hy.mono herase).trans hstill.symm).trans (hx.mono herase)
    · have hfB : f ∉ B := by
        intro hin
        rw [Finset.union_insert, Finset.insert_eq_of_mem (Finset.mem_union_left A hin)] at hjoined
        exact hA hjoined
      refine ⟨f, Finset.mem_insert_self f A, hfB, ?_⟩
      rwa [Finset.union_insert, Finset.erase_insert]
      exact Finset.notMem_union.mpr ⟨hfB, hf⟩

/-- Giving up an edge for one that closes a cycle through it keeps what is joined. -/
theorem joined_exchange {f : E} (hf : f ∈ F) (hjoined : Joined src dst F (src e) (dst e))
    (hsep : ¬ Joined src dst (F.erase f) (src e) (dst e)) :
    Joined src dst (insert e (F.erase f)) a b ↔ Joined src dst F a b := by
  have hsub : F.erase f ⊆ insert e (F.erase f) := Finset.subset_insert _ _
  have hself : Joined src dst (insert e (F.erase f)) (src e) (dst e) :=
    joined_ends (Finset.mem_insert_self _ _)
  have hends : Joined src dst (insert e (F.erase f)) (src f) (dst f) := by
    rcases joined_of_erase hjoined hsep hf with ⟨hx, hy⟩ | ⟨hx, hy⟩
    · exact ((hx.mono hsub).symm.trans hself).trans (hy.mono hsub).symm
    · exact ((hy.mono hsub).trans hself.symm).trans (hx.mono hsub)
  rw [← joined_insert_of_joined hends, Finset.insert_comm, Finset.insert_erase hf]
  exact joined_insert_of_joined hjoined

/-! ## The greedy forest -/

open Classical in
/-- The edges of a list whose ends are not joined by those taken before, and by the edges of a
set. -/
noncomputable def greedy (src dst : E → V) (B : Finset E) : List E → List E
  | [] => []
  | e :: l =>
    if Joined src dst B (src e) (dst e) then greedy src dst B l
    else e :: greedy src dst (insert e B) l

variable {B : Finset E}

lemma greedy_of_joined (h : Joined src dst B (src e) (dst e)) :
    greedy src dst B (e :: l) = greedy src dst B l := if_pos h

lemma greedy_of_not_joined (h : ¬ Joined src dst B (src e) (dst e)) :
    greedy src dst B (e :: l) = e :: greedy src dst (insert e B) l := if_neg h

/-- Whether the last edge is taken depends on what was taken before. -/
theorem greedy_concat : greedy src dst B (l ++ [e]) =
    greedy src dst B l ++ greedy src dst (B ∪ (greedy src dst B l).toFinset) [e] := by
  induction l generalizing B with
  | nil => exact congrArg (greedy src dst · [e]) (Finset.union_empty B).symm
  | cons f l ih =>
    rw [cons_append]
    by_cases hf : Joined src dst B (src f) (dst f)
    · rw [greedy_of_joined hf, greedy_of_joined hf, ih]
    · rw [greedy_of_not_joined hf, greedy_of_not_joined hf, ih, toFinset_cons, Finset.union_insert,
        ← Finset.insert_union, cons_append]

lemma greedy_concat_of_joined
    (h : Joined src dst (B ∪ (greedy src dst B l).toFinset) (src e) (dst e)) :
    greedy src dst B (l ++ [e]) = greedy src dst B l := by
  rw [greedy_concat, greedy_of_joined h]
  exact append_nil _

lemma greedy_concat_of_not_joined
    (h : ¬ Joined src dst (B ∪ (greedy src dst B l).toFinset) (src e) (dst e)) :
    greedy src dst B (l ++ [e]) = greedy src dst B l ++ [e] := by
  rw [greedy_concat, greedy_of_not_joined h]
  rfl

lemma greedy_sublist (B : Finset E) (l : List E) : (greedy src dst B l).Sublist l := by
  induction l generalizing B with
  | nil => exact .slnil
  | cons e l ih =>
    by_cases h : Joined src dst B (src e) (dst e)
    · rw [greedy_of_joined h]
      exact (ih B).cons e
    · rw [greedy_of_not_joined h]
      exact (ih _).cons_cons e

lemma acyclic_greedy (hB : Acyclic src dst B) (l : List E) :
    Acyclic src dst (B ∪ (greedy src dst B l).toFinset) := by
  induction l generalizing B with
  | nil => simpa [greedy] using hB
  | cons e l ih =>
    by_cases h : Joined src dst B (src e) (dst e)
    · rw [greedy_of_joined h]
      exact ih hB
    · have hrest := ih (hB.insert h)
      rw [greedy_of_not_joined h, toFinset_cons, Finset.union_insert]
      rwa [Finset.insert_union] at hrest

lemma joined_greedy (B : Finset E) (l : List E) :
    Joined src dst (B ∪ (greedy src dst B l).toFinset) a b ↔
      Joined src dst (B ∪ l.toFinset) a b := by
  induction l generalizing B with
  | nil => rfl
  | cons e l ih =>
    rw [toFinset_cons, Finset.union_insert]
    by_cases h : Joined src dst B (src e) (dst e)
    · rw [greedy_of_joined h, ih, joined_insert_of_joined (h.mono Finset.subset_union_left)]
    · have hrest := ih (insert e B)
      rw [Finset.insert_union, Finset.insert_union] at hrest
      rw [greedy_of_not_joined h, toFinset_cons, Finset.union_insert, hrest]

lemma isSpanningForest_greedy (l : List E) :
    IsSpanningForest src dst l.toFinset (greedy src dst ∅ l).toFinset where
  subset e he := by
    rw [mem_toFinset] at he ⊢
    exact (greedy_sublist ∅ l).mem he
  acyclic := by
    have h : Acyclic src dst (∅ ∪ (greedy src dst ∅ l).toFinset) := acyclic_greedy acyclic_empty l
    rwa [Finset.empty_union] at h
  joined_iff a b := by
    have h : Joined src dst (∅ ∪ (greedy src dst ∅ l).toFinset) a b ↔ _ := joined_greedy ∅ l
    rwa [Finset.empty_union, Finset.empty_union] at h

variable {M : Type*} [AddCommMonoid M] [LinearOrder M] [IsOrderedAddMonoid M] {w : E → M}

/-- With an acyclic set fixed, the greedy edges weigh no more than any edges of the list that
complete the set to a forest with the same joins. -/
theorem sum_greedy_le {B A : Finset E} (hdisjoint : Disjoint B A)
    (hacyclic : Acyclic src dst (B ∪ A)) (hsub : A ⊆ l.toFinset)
    (hjoined : ∀ a b, Joined src dst (B ∪ A) a b ↔ Joined src dst (B ∪ l.toFinset) a b)
    (hsorted : l.Pairwise fun e f => w e ≤ w f) :
    ((greedy src dst B l).map w).sum ≤ ∑ e ∈ A, w e := by
  induction l generalizing B A with
  | nil =>
    obtain rfl : A = ∅ := Finset.subset_empty.mp hsub
    rfl
  | cons e l ih =>
    obtain ⟨hle, hsorted⟩ := pairwise_cons.mp hsorted
    rw [toFinset_cons] at hsub hjoined
    have hall : ∀ a b, Joined src dst (insert e B ∪ l.toFinset) a b ↔
        Joined src dst (B ∪ insert e l.toFinset) a b := by
      intro a b
      rw [Finset.insert_union, Finset.union_insert]
    by_cases h : Joined src dst B (src e) (dst e)
    · -- The edge would close a cycle, so the other forest does not have it either.
      have heA : e ∉ A := by
        intro hin
        have hB : B ⊆ (B ∪ A).erase e := fun f hf => Finset.mem_erase.mpr
          ⟨ne_of_mem_of_not_mem hf (Finset.disjoint_right.mp hdisjoint hin),
            Finset.mem_union_left A hf⟩
        exact acyclic_iff.mp hacyclic e (Finset.mem_union_right B hin) (h.mono hB)
      rw [greedy_of_joined h]
      apply ih hdisjoint hacyclic ((Finset.subset_insert_iff_of_notMem heA).mp hsub) _ hsorted
      intro a b
      rw [hjoined, Finset.union_insert, joined_insert_of_joined (h.mono Finset.subset_union_left)]
    · rw [greedy_of_not_joined h, map_cons, sum_cons]
      have hnotB : e ∉ B := fun hin => h (joined_ends hin)
      by_cases heA : e ∈ A
      · -- Both take the edge.
        have hunion : insert e B ∪ A.erase e = B ∪ A := by
          rw [Finset.insert_union, ← Finset.union_insert, Finset.insert_erase heA]
        rw [← Finset.add_sum_erase A w heA]
        refine add_le_add le_rfl (ih ?_ (hunion ▸ hacyclic) ?_ ?_ hsorted)
        · rw [Finset.disjoint_insert_left]
          exact ⟨Finset.notMem_erase e A, hdisjoint.mono_right (Finset.erase_subset e A)⟩
        · exact Finset.subset_insert_iff.mp hsub
        · intro a b
          rw [hunion, hjoined, hall]
      · -- The other forest gives up an edge that closes a cycle with this one, and is no lighter.
        have hends : Joined src dst (B ∪ A) (src e) (dst e) :=
          (hjoined _ _).mpr (joined_ends (Finset.mem_union_right B (Finset.mem_insert_self e _)))
        obtain ⟨f, hf, hfB, hsep⟩ := exists_exchange hacyclic hends h
        have hAl : A ⊆ l.toFinset := (Finset.subset_insert_iff_of_notMem heA).mp hsub
        have hunion : insert e B ∪ A.erase f = insert e ((B ∪ A).erase f) := by
          rw [Finset.insert_union, Finset.erase_union_distrib, Finset.erase_eq_of_notMem hfB]
        have hlight : w e ≤ w f := hle f (mem_toFinset.mp (hAl hf))
        rw [← Finset.add_sum_erase A w hf]
        refine add_le_add hlight (ih ?_ ?_ ?_ ?_ hsorted)
        · rw [Finset.disjoint_insert_left]
          exact ⟨fun hin => heA (Finset.mem_of_mem_erase hin),
            hdisjoint.mono_right (Finset.erase_subset f A)⟩
        · rw [hunion]
          exact (hacyclic.mono (Finset.erase_subset f _)).insert hsep
        · exact (Finset.erase_subset f A).trans hAl
        · intro a b
          rw [hunion, joined_exchange (Finset.mem_union_right B hf) hends hsep, hjoined, hall]

lemma sum_greedy_le_of_isSpanningForest {A : Finset E}
    (hA : IsSpanningForest src dst l.toFinset A) (hsorted : l.Pairwise fun e f => w e ≤ w f) :
    ((greedy src dst ∅ l).map w).sum ≤ ∑ e ∈ A, w e := by
  refine sum_greedy_le (Finset.disjoint_empty_left A) ?_ hA.subset ?_ hsorted
  · rw [Finset.empty_union]
    exact hA.acyclic
  · intro a b
    rw [Finset.empty_union, Finset.empty_union]
    exact hA.joined_iff a b

end SpanningForest
