import IssunDB.Lib.Table
import Mathlib.Data.List.Forall2

/-!
# Tables written by steps that can fail

A walk over a list writes what each element gives, if it gives anything, under the key of the
element. What an element gives does not depend on what was written before.

* `exists_error_foldlM_write_iff` — a walk fails iff an element does;
* `foldlM_write_eq_ok` — else each key has what the last element of the key gives that gives
  anything;
* `mapM_eq_ok_iff`, `exists_error_mapM_iff` — the outcomes of a step on each element of a list.
-/

namespace List

variable {ε α β : Type} {f : α → Except ε β} {l : List α}

theorem mapM_eq_ok_iff {bs : List β} :
    l.mapM f = .ok bs ↔ Forall₂ (fun a b => f a = .ok b) l bs := by
  induction l generalizing bs with
  | nil =>
    rw [mapM_nil, forall₂_nil_left_iff]
    exact ⟨fun h => (Except.ok.inj h).symm, fun h => congrArg Except.ok h.symm⟩
  | cons a l ih =>
    rw [mapM_cons, forall₂_cons_left_iff]
    rcases hf : f a with e | b
    · exact iff_of_false (fun h => nomatch h) fun ⟨_, _, h, _⟩ => nomatch h
    rcases hl : l.mapM f with e | bs'
    · refine iff_of_false (fun h => nomatch h) fun ⟨_, _, _, h, _⟩ => ?_
      cases hl.symm.trans (ih.mpr h)
    · constructor
      · intro h
        exact ⟨b, bs', rfl, ih.mp hl, (Except.ok.inj h).symm⟩
      · rintro ⟨b', bs'', hb, h, rfl⟩
        obtain rfl := Except.ok.inj hb
        obtain rfl := Except.ok.inj (hl.symm.trans (ih.mpr h))
        rfl

theorem exists_error_mapM_iff : (∃ e, l.mapM f = .error e) ↔ ∃ a ∈ l, ∃ e, f a = .error e := by
  induction l with
  | nil => exact iff_of_false (fun ⟨_, h⟩ => nomatch h) fun ⟨_, h, _⟩ => nomatch h
  | cons a l ih =>
    rw [mapM_cons, exists_mem_cons_iff, ← ih]
    rcases f a with e | b
    · exact iff_of_true ⟨e, rfl⟩ (.inl ⟨e, rfl⟩)
    rcases l.mapM f with e | bs
    · exact iff_of_true ⟨e, rfl⟩ (.inr ⟨e, rfl⟩)
    · exact iff_of_false (fun ⟨_, h⟩ => nomatch h) fun h => h.elim (fun ⟨_, h⟩ => nomatch h)
        fun ⟨_, h⟩ => nomatch h

/-- A relation that, between related elements, is about the first of them only. -/
theorem forall₂_iff_forall_mem {R S : α → β → Prop} {p : α → Prop} {bs : List β}
    (h : Forall₂ R l bs)
    (hp : ∀ a ∈ l, ∀ b, R a b → (S a b ↔ p a)) : Forall₂ S l bs ↔ ∀ a ∈ l, p a := by
  induction h with
  | nil => exact iff_of_true .nil fun _ ha => nomatch ha
  | cons hab _ ih =>
    obtain ⟨hhead, htail⟩ := forall_mem_cons.mp hp
    rw [forall₂_cons, forall_mem_cons, hhead _ hab, ih htail]

end List

namespace Table

open List

variable {ε K V X : Type} [DecidableEq K] (give : X → Except ε (Option V)) (key : X → K)

def write (t : Table K V) (x : X) : Except ε (Table K V) :=
  match give x with
  | .ok (some v) => .ok (t.put (key x) v)
  | .ok none => .ok t
  | .error e => .error e

/-- What an element gives, if it does not fail. -/
def given (x : X) : Option V := (give x).toOption.join

def lastGiving (l : List X) (k : K) : Option X :=
  l.reverse.find? fun x => key x = k ∧ (given give x).isSome

variable {give key}

variable {l : List X}

theorem exists_error_foldlM_write_iff {t : Table K V} :
    (∃ e, l.foldlM (write give key) t = .error e) ↔ ∃ x ∈ l, ∃ e, give x = .error e := by
  induction l generalizing t with
  | nil => exact iff_of_false (fun ⟨_, h⟩ => nomatch h) fun ⟨_, h, _⟩ => nomatch h
  | cons x l ih =>
    rw [foldlM_cons, exists_mem_cons_iff]
    unfold write
    rcases give x with e | _ | v
    · exact iff_of_true ⟨e, rfl⟩ (.inl ⟨e, rfl⟩)
    -- What was written so far does not matter for the rest.
    all_goals exact ih.trans (or_iff_right fun ⟨_, h⟩ => nomatch h).symm

lemma lastGiving_cons (x : X) (l : List X) (k : K) : lastGiving give key (x :: l) k =
    (lastGiving give key l k).or (if key x = k ∧ (given give x).isSome then some x else none) := by
  unfold lastGiving
  rw [reverse_cons, find?_append, find?_singleton]
  simp only [decide_eq_true_eq]

lemma lastGiving_eq_some {k : K} {x : X} (h : lastGiving give key l k = some x) :
    x ∈ l ∧ key x = k ∧ (given give x).isSome := by
  unfold lastGiving at h
  have htest := find?_some h
  rw [decide_eq_true_eq] at htest
  exact ⟨mem_reverse.mp (mem_of_find?_eq_some h), htest⟩

theorem foldlM_write_eq_ok {t u : Table K V} (h : l.foldlM (write give key) t = .ok u) (k : K) :
    u.get k = ((lastGiving give key l k).bind (given give)).or (t.get k) := by
  induction l generalizing t with
  | nil =>
    obtain rfl : t = u := Except.ok.inj h
    rfl
  | cons x l ih =>
    rw [foldlM_cons] at h
    obtain ⟨t', ht', hrest⟩ : ∃ t', write give key t x = .ok t' ∧ l.foldlM (write give key) t' =
        .ok u := by
      rcases hx : write give key t x with e | t'
      · rw [hx] at h
        cases h
      · exact ⟨t', rfl, by rwa [hx] at h⟩
    have hget : t'.get k = ((if key x = k ∧ (given give x).isSome then some x else none).bind
        (given give)).or (t.get k) := by
      unfold write at ht'
      rcases hgive : give x with e | _ | v
      · rw [hgive] at ht'
        cases ht'
      · rw [hgive] at ht'
        obtain rfl : t = t' := Except.ok.inj ht'
        have hnone : given give x = none := by rw [given, hgive]; rfl
        rw [hnone, if_neg fun hx => nomatch hx.2]
        rfl
      · rw [hgive] at ht'
        obtain rfl : t.put (key x) v = t' := Except.ok.inj ht'
        have hsome : given give x = some v := by rw [given, hgive]; rfl
        rw [hsome, get_put]
        by_cases hk : key x = k
        · simp [hk, hsome]
        · simp [hk, Ne.symm hk]
    rw [ih hrest, hget, lastGiving_cons]
    rcases hlast : lastGiving give key l k with _ | y
    · rfl
    · -- What is written later hides what was there.
      obtain ⟨-, -, hy⟩ := lastGiving_eq_some hlast
      obtain ⟨v, hv⟩ := Option.isSome_iff_exists.mp hy
      simp [hv]

end Table
