import Mathlib.Data.List.Perm.Basic
import Mathlib.Data.List.Perm.Lattice
import Mathlib.Tactic.Common

/-!
# Lists walked by steps that can fail

Keeping the elements of a list that pass a test, and expanding each element into several, when the
test and the expansion may fail. The walk fails with the first error it meets.

* `filterE_eq_ok`, `flatMapE_eq_ok` — a walk succeeds iff every step does, with the result of the
  walk that cannot fail.
* `filterE_filterE` — two tests one after the other are one test.
* `nodup_eraseDups` — keeping first occurrences leaves no duplicates.
* `SameRows` — two outcomes have the same elements up to order, or both failed; the walks respect
  it.
* `sameRows_filterE_flatMap` — a test put after an expansion agrees with the test before it, iff the
  expansion does not drop all the elements that fail.
-/

namespace List

open Option

variable {ε α β : Type}

/-- Keep the elements that pass a test that can fail. -/
def filterE (p : α → Except ε Bool) : List α → Except ε (List α)
  | [] => .ok []
  | a :: l => do
    let keep ← p a
    let rest ← filterE p l
    return if keep then a :: rest else rest

/-- Expand each element, by a step that can fail. -/
def flatMapE (f : α → Except ε (List β)) : List α → Except ε (List β)
  | [] => .ok []
  | a :: l => do
    let first ← f a
    let rest ← flatMapE f l
    return first ++ rest

/-- A walk over lists of a list is a walk over the list they expand to. -/
theorem foldlM_flatMap {m : Type → Type} [Monad m] [LawfulMonad m] {σ : Type} (step : σ → β → m σ)
    (f : α → List β) (l : List α) (s : σ) :
    (l.flatMap f).foldlM step s = l.foldlM (fun s a => (f a).foldlM step s) s := by
  induction l generalizing s with
  | nil => rfl
  | cons a l ih =>
    rw [flatMap_cons, foldlM_append, foldlM_cons]
    simp only [ih]

/-- A map by a step that can have no result has one iff every step has. -/
theorem mapM_eq_some_iff {f : α → Option β} {l : List α} {r : List β} :
    l.mapM f = some r ↔ Forall₂ (fun a b => f a = some b) l r := by
  induction l generalizing r with
  | nil =>
    rw [mapM_nil, forall₂_nil_left_iff]
    exact some_inj.trans eq_comm
  | cons a l ih =>
    rw [mapM_cons, forall₂_cons_left_iff]
    simp only [bind_eq_bind, bind_eq_some_iff, ih]
    constructor
    · rintro ⟨b, hb, bs, hbs, hr⟩
      exact ⟨b, bs, hb, hbs, (some.inj hr).symm⟩
    · rintro ⟨b, bs, hb, hbs, rfl⟩
      exact ⟨b, hb, bs, hbs, rfl⟩

variable {l : List α}

theorem flatMapE_eq_ok {f : α → Except ε (List β)} {out : List β} :
    flatMapE f l = .ok out ↔
      (∀ a ∈ l, ∃ b, f a = .ok b) ∧ out = l.flatMap fun a => (f a).toOption.getD [] := by
  induction l generalizing out with
  | nil => simp [flatMapE, eq_comm]
  | cons a l ih =>
    rw [flatMapE]
    rcases hf : f a with e | first
    · simp [bind, Except.bind, hf]
    rcases hl : flatMapE f l with e | rest
    · have hfail : ¬∀ a ∈ l, ∃ b, f a = .ok b := by
        intro h
        have := ih.mpr ⟨h, rfl⟩
        rw [hl] at this
        cases this
      simp only [bind, Except.bind, mem_cons, forall_eq_or_imp, reduceCtorEq, false_iff]
      exact fun h => hfail h.1.2
    · obtain ⟨hall, hrest⟩ := ih.mp hl
      simp only [bind, Except.bind, pure, Except.pure, Except.ok.injEq, mem_cons,
        forall_eq_or_imp, hf, exists_eq', true_and, flatMap_cons, hrest, Except.toOption,
        getD_some]
      exact ⟨fun h => ⟨hall, h.symm⟩, fun h => h.2.symm⟩

/-- A test is an expansion into the element or nothing. -/
theorem filterE_eq_flatMapE (p : α → Except ε Bool) (l : List α) :
    filterE p l = flatMapE (fun a => (p a).map fun keep => if keep then [a] else []) l := by
  induction l with
  | nil => rfl
  | cons a l ih =>
    rw [filterE, flatMapE, ih]
    rcases p a with e | _ | _ <;> rfl

theorem filterE_eq_ok [DecidableEq ε] {p : α → Except ε Bool} {out : List α} :
    filterE p l = .ok out ↔
      (∀ a ∈ l, ∃ b, p a = .ok b) ∧ out = l.filter fun a => p a = .ok true := by
  rw [filterE_eq_flatMapE, flatMapE_eq_ok]
  have hok : ∀ a, (∃ b, ((p a).map fun keep => if keep then [a] else []) = .ok b) ↔
      ∃ b, p a = .ok b := by
    intro a
    rcases p a with e | keep <;> simp [Except.map]
  have hkept : (l.flatMap fun a =>
      ((p a).map fun keep => if keep then [a] else []).toOption.getD []) =
      l.filter fun a => p a = .ok true := by
    clear hok
    induction l with
    | nil => rfl
    | cons a l ih =>
      rw [flatMap_cons, filter_cons, ih]
      rcases p a with e | _ | _ <;> rfl
  simp only [hok, hkept]

/-- Two tests one after the other are one test. -/
theorem filterE_filterE {p q : α → Except ε Bool} {out : List α} :
    (filterE p l >>= filterE q) = .ok out ↔
      filterE (fun a => do if ← p a then q a else .ok false) l = .ok out := by
  classical
  have hok : ∀ a, (∃ b, (do if ← p a then q a else .ok false) = Except.ok b) ↔
      (∃ b, p a = .ok b) ∧ (p a = .ok true → ∃ b, q a = .ok b) := by
    intro a
    rcases p a with e | _ | _ <;> simp [bind, Except.bind]
  have htrue : ∀ a, (do if ← p a then q a else .ok false) = Except.ok true ↔
      q a = .ok true ∧ p a = .ok true := by
    intro a
    rcases p a with e | _ | _ <;> simp [bind, Except.bind]
  rw [filterE_eq_ok]
  simp only [hok, htrue]
  constructor
  · intro h
    rcases hl : filterE p l with e | kept
    · rw [hl] at h
      cases h
    rw [hl] at h
    obtain ⟨hp, rfl⟩ := filterE_eq_ok.mp hl
    obtain ⟨hq, rfl⟩ := filterE_eq_ok.mp h
    refine ⟨fun a ha => ⟨hp a ha, fun hkeep => hq a ?_⟩, ?_⟩
    · exact mem_filter.mpr ⟨ha, decide_eq_true hkeep⟩
    · rw [filter_filter]
      simp only [Bool.decide_and]
  · rintro ⟨hall, rfl⟩
    rw [filterE_eq_ok.mpr ⟨fun a ha => (hall a ha).1, rfl⟩]
    refine filterE_eq_ok.mpr ⟨fun a ha => ?_, ?_⟩
    · obtain ⟨ha, hkeep⟩ := mem_filter.mp ha
      exact (hall a ha).2 (of_decide_eq_true hkeep)
    · rw [filter_filter]
      simp only [Bool.decide_and]

/-- Steps that cannot fail expand as `flatMap` does. -/
theorem flatMapE_ok (f : α → List β) (l : List α) :
    flatMapE (ε := ε) (fun a => .ok (f a)) l = .ok (l.flatMap f) :=
  Iff.mpr flatMapE_eq_ok ⟨fun a _ => ⟨f a, rfl⟩, rfl⟩

/-- Lists that can be told apart by their elements put together. -/
theorem nodup_flatMap_of_key {f : α → List β} (key : β → α) (hl : l.Nodup)
    (hf : ∀ a ∈ l, (f a).Nodup) (hkey : ∀ a ∈ l, ∀ b ∈ f a, key b = a) : (l.flatMap f).Nodup := by
  refine nodup_flatMap.mpr ⟨hf, ?_⟩
  refine hl.imp_of_mem fun {a a'} ha ha' hne => ?_
  intro b hb hb'
  apply hne
  rw [← hkey a ha b hb, hkey a' ha' b hb']

/-! ## First occurrences -/

variable [BEq α] [LawfulBEq α]

theorem nodup_eraseDups (l : List α) : l.eraseDups.Nodup := by
  induction hn : l.length using Nat.strongRecOn generalizing l with
  | ind n ih =>
    cases l with
    | nil => simp
    | cons a l =>
      rw [eraseDups_cons, nodup_cons]
      refine ⟨by simp [mem_eraseDups], ih _ ?_ _ rfl⟩
      have := length_filter_le (fun b => !b == a) l
      simp only [length_cons] at hn
      omega

lemma eraseDups_of_nodup (h : l.Nodup) : l.eraseDups = l := by
  induction l with
  | nil => rfl
  | cons a l ih =>
    obtain ⟨ha, hl⟩ := nodup_cons.mp h
    have hfilter : l.filter (fun b => !b == a) = l := by
      rw [filter_eq_self]
      intro b hb
      have hne : b ≠ a := fun hba => ha (hba ▸ hb)
      simpa using hne
    rw [eraseDups_cons, hfilter, ih hl]

end List

namespace Except

open List

variable {ε α β : Type}

/-- Two walks have the same elements up to order, or both failed. -/
def SameRows : Except ε (List α) → Except ε (List α) → Prop
  | .ok l, .ok l' => l.Perm l'
  | .error _, .error _ => True
  | _, _ => False

lemma SameRows.refl (x : Except ε (List α)) : SameRows x x := by
  cases x with
  | error e => trivial
  | ok l => exact List.Perm.refl l

lemma SameRows.trans {x y z : Except ε (List α)} (h : SameRows x y) (h' : SameRows y z) :
    SameRows x z := by
  rcases x with e | l <;> rcases y with e' | l' <;> rcases z with e'' | l'' <;>
    simp only [SameRows] at h h' ⊢
  exact List.Perm.trans h h'

lemma SameRows.symm {x y : Except ε (List α)} (h : SameRows x y) : SameRows y x := by
  rcases x with e | l <;> rcases y with e' | l' <;> simp only [SameRows] at h ⊢
  exact List.Perm.symm h

lemma sameRows_of_ok_iff {x y : Except ε (List α)} (h : ∀ l, x = .ok l ↔ y = .ok l) :
    SameRows x y := by
  rcases y with e | l
  · rcases x with e' | l'
    · trivial
    · cases (h l').mp rfl
  · rw [(h l).mpr rfl]
    exact SameRows.refl _

/-- Continue two walks in ways that agree on permuted lists. -/
theorem SameRows.bind {x y : Except ε (List α)} {f g : List α → Except ε (List β)}
    (h : SameRows x y) (hfg : ∀ l l', x = .ok l → y = .ok l' → l.Perm l' → SameRows (f l) (g l')) :
    SameRows (x >>= f) (y >>= g) := by
  rcases x with e | l <;> rcases y with e' | l' <;> simp only [SameRows] at h
  · trivial
  · exact hfg l l' rfl rfl h

lemma flatMapE_sameRows (f : α → Except ε (List β)) {l l' : List α} (h : l.Perm l') :
    SameRows (l.flatMapE f) (l'.flatMapE f) := by
  have hall : (∀ a ∈ l, ∃ b, f a = .ok b) ↔ ∀ a ∈ l', ∃ b, f a = .ok b := by
    simp only [h.mem_iff]
  rcases hl : l.flatMapE f with e | out
  · rcases hl' : l'.flatMapE f with e' | out'
    · trivial
    · have hok := (Iff.mp List.flatMapE_eq_ok hl').1
      have := Iff.mpr List.flatMapE_eq_ok ⟨hall.mpr hok, rfl⟩
      rw [hl] at this
      cases this
  · obtain ⟨hok, rfl⟩ := Iff.mp List.flatMapE_eq_ok hl
    rw [Iff.mpr List.flatMapE_eq_ok ⟨hall.mp hok, rfl⟩]
    exact h.flatMap_right _

lemma filterE_sameRows (p : α → Except ε Bool) {l l' : List α} (h : l.Perm l') :
    SameRows (l.filterE p) (l'.filterE p) := by
  rw [List.filterE_eq_flatMapE, List.filterE_eq_flatMapE]
  exact flatMapE_sameRows _ h

/-- A test put after an expansion agrees with the test before it, iff the expansion does not drop
all the elements that fail. -/
theorem sameRows_filterE_flatMap {p : α → Except ε Bool} {q : β → Except ε Bool} {f : α → List β}
    {l : List α} (h : ∀ a, ∀ b ∈ f a, q b = p a) :
    SameRows ((l.flatMap f).filterE q) (do return (← l.filterE p).flatMap f) ↔
      ¬((∃ a ∈ l, ∃ e, p a = .error e) ∧ ∀ a ∈ l, (∃ e, p a = .error e) → f a = []) := by
  classical
  rcases hl : l.filterE p with e | kept
  · -- Some element fails; the walk after the expansion fails iff one of these is expanded.
    have hraise : ∃ a ∈ l, ∃ e, p a = .error e := by
      by_contra hno
      push Not at hno
      have hok : ∀ a ∈ l, ∃ b, p a = .ok b := by
        intro a ha
        rcases hpa : p a with e | b
        · exact absurd hpa (hno a ha e)
        · exact ⟨b, rfl⟩
      rw [Iff.mpr List.filterE_eq_ok ⟨hok, rfl⟩] at hl
      cases hl
    rw [not_and, forall_prop_of_true hraise]
    rcases hq : (l.flatMap f).filterE q with e' | out
    · refine iff_of_true trivial fun hdrop => ?_
      have hok : ∀ b ∈ l.flatMap f, ∃ keep, q b = .ok keep := by
        intro b hb
        obtain ⟨a, ha, hb⟩ := mem_flatMap.mp hb
        rw [h a b hb]
        rcases hpa : p a with e | keep
        · rw [hdrop a ha ⟨e, hpa⟩] at hb
          cases hb
        · exact ⟨keep, rfl⟩
      rw [Iff.mpr List.filterE_eq_ok ⟨hok, rfl⟩] at hq
      cases hq
    · refine iff_of_false id fun hdrop => hdrop ?_
      rintro a ha ⟨e', he'⟩
      apply eq_nil_iff_forall_not_mem.mpr
      intro b hb
      obtain ⟨keep, hkeep⟩ := (Iff.mp List.filterE_eq_ok hq).1 b (mem_flatMap.mpr ⟨a, ha, hb⟩)
      rw [h a b hb, he'] at hkeep
      cases hkeep
  · obtain ⟨hok, rfl⟩ := Iff.mp List.filterE_eq_ok hl
    have hfilter : (l.flatMap f).filterE q =
        .ok ((l.filter fun a => p a = .ok true).flatMap f) := by
      refine Iff.mpr List.filterE_eq_ok ⟨fun b hb => ?_, ?_⟩
      · obtain ⟨a, ha, hb⟩ := mem_flatMap.mp hb
        rw [h a b hb]
        exact hok a ha
      · clear hl hok
        induction l with
        | nil => rfl
        | cons a l ih =>
          rw [flatMap_cons, filter_append, ← ih, filter_cons]
          by_cases ha : p a = .ok true
          · rw [if_pos (decide_eq_true ha), flatMap_cons]
            congr 1
            refine (filter_eq_self.mpr fun b hb => ?_).symm
            rw [h a b hb]
            exact decide_eq_true ha
          · rw [if_neg (by simpa using ha)]
            refine (append_left_eq_self.mpr (filter_eq_nil_iff.mpr fun b hb => ?_)).symm
            rw [h a b hb]
            simpa using ha
    rw [hfilter]
    refine iff_of_true (List.Perm.refl _) ?_
    rintro ⟨⟨a, ha, e, he⟩, -⟩
    obtain ⟨b, hb⟩ := hok a ha
    rw [he] at hb
    cases hb

end Except
