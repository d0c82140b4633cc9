import Mathlib.Data.Int.Notation
import Mathlib.Data.List.Basic
import Mathlib.Data.Nat.Notation
import Mathlib.Logic.Function.Basic
import Mathlib.Tactic.Common

/-!
# Texts that can be read back

What a text stands for can often be told from any longer text that begins with it, as long as the
rest does not go on where a number would. `Readable` says so of a family of texts, and makes lists
of them, with a separator before or between them, unambiguous.
-/

/-- The rest does not begin with a character of a word. -/
def Breaks (word : Char → Bool) (rest : List Char) : Prop := ∀ c ∈ rest.head?, word c = false

/-- What a text stands for, and where it ends, can be read off. -/
def Readable {α : Type*} (word : Char → Bool) (text : α → List Char) : Prop :=
  ∀ a b r s, Breaks word r → Breaks word s → text a ++ r = text b ++ s → a = b ∧ r = s

section Texts

variable {α β : Type*} {word : Char → Bool} {text : α → List Char}

@[simp]
lemma breaks_nil : Breaks word [] := fun c hc => by cases hc

@[simp]
lemma breaks_cons {c : Char} {rest : List Char} : Breaks word (c :: rest) ↔ word c = false :=
  ⟨fun h => h c rfl, fun h d hd => by rwa [← Option.some.inj hd]⟩

lemma append_inj_of_words {l m r s : List Char} (hl : ∀ c ∈ l, word c = true)
    (hm : ∀ c ∈ m, word c = true) (hr : Breaks word r) (hs : Breaks word s)
    (h : l ++ r = m ++ s) : l = m ∧ r = s := by
  have htake : ∀ {l r : List Char}, (∀ c ∈ l, word c = true) → Breaks word r →
      (l ++ r).takeWhile word = l := by
    intro l r hl hr
    rw [List.takeWhile_append_of_pos hl]
    cases r with
    | nil => exact List.append_nil l
    | cons c r =>
      rw [List.takeWhile_cons_of_neg (by simp [breaks_cons.mp hr])]
      exact List.append_nil l
  have hlm : l = m := by rw [← htake hl hr, h, htake hm hs]
  subst hlm
  exact ⟨rfl, List.append_cancel_left h⟩

namespace Readable

open List

lemma injective (h : Readable word text) : Function.Injective text := fun a b hab =>
  (h a b [] [] breaks_nil breaks_nil (by rw [hab])).1

lemma of_words (hword : ∀ a, ∀ c ∈ text a, word c = true) (hinj : Function.Injective text) :
    Readable word text := fun a b _ _ hr hs h =>
  (append_inj_of_words (hword a) (hword b) hr hs h).imp_left fun hab => hinj hab

lemma mark (h : Readable word text) (l : List Char) : Readable word fun a => l ++ text a := by
  intro a b r s hr hs hab
  rw [append_assoc, append_assoc] at hab
  exact h a b r s hr hs (append_cancel_left hab)

/-- **Marked lists.** A list of texts, each after the separator, can be told from any other. -/
theorem flatMap_inj (h : Readable word text) {sep : Char} (hsep : word sep = false) {l m : List α}
    (heq : (l.flatMap fun a => sep :: text a) = m.flatMap fun a => sep :: text a) : l = m := by
  have hbreaks : ∀ l : List α, Breaks word (l.flatMap fun a => sep :: text a) := by
    intro l
    cases l with
    | nil => exact breaks_nil
    | cons a l => exact breaks_cons.mpr hsep
  induction l generalizing m with
  | nil =>
    cases m with
    | nil => rfl
    | cons b m => cases heq
  | cons a l ih =>
    cases m with
    | nil => cases heq
    | cons b m =>
      rw [flatMap_cons, flatMap_cons, cons_append, cons_append] at heq
      obtain ⟨rfl, hrest⟩ := h a b _ _ (hbreaks l) (hbreaks m) (List.cons.inj heq).2
      rw [ih hrest]

/-- **Joined lists.** A list of texts with the separator between them can be told from any other of
its length. -/
theorem intercalate_inj (h : Readable word text) {sep : Char} (hsep : word sep = false)
    {l m : List α} (hlen : l.length = m.length)
    (heq : List.intercalate [sep] (l.map text) = List.intercalate [sep] (m.map text)) : l = m := by
  induction l generalizing m with
  | nil => exact (length_eq_zero_iff.mp hlen.symm).symm
  | cons a l ih =>
    cases m with
    | nil => cases hlen
    | cons b m =>
      have hlen' : l.length = m.length := Nat.succ.inj hlen
      cases l with
      | nil =>
        obtain rfl := length_eq_zero_iff.mp hlen'.symm
        obtain rfl : a = b := h.injective (by simpa using heq)
        rfl
      | cons a' l =>
        cases m with
        | nil => cases hlen'
        | cons b' m =>
          simp only [map_cons, intercalate_cons_cons, append_assoc,
            singleton_append] at heq
          obtain ⟨rfl, hrest⟩ := h a b _ _ (breaks_cons.mpr hsep) (breaks_cons.mpr hsep) heq
          rw [ih hlen' (List.cons.inj hrest).2]

end Readable

/-! ## Integers -/

/-- The decimal digits of a natural number. -/
def natText (n : ℕ) : List Char := Nat.toDigits 10 n

lemma isDigit_of_mem_natText {n : ℕ} {c : Char} (h : c ∈ natText n) : c.isDigit = true :=
  Nat.isDigit_of_mem_toDigits (by decide) (by decide) h

lemma natText_injective : Function.Injective natText := by
  intro m n h
  have hm := Nat.ofDigitChars_ten_toDigits (n := m)
  have hn := Nat.ofDigitChars_ten_toDigits (n := n)
  unfold natText at h
  rw [← hm, ← hn, h]

lemma natText_ne_nil (n : ℕ) : natText n ≠ [] := Nat.toDigits_ne_nil

/-- An integer in decimal, with a minus sign when negative. -/
def intText (i : ℤ) : List Char := if i < 0 then '-' :: natText i.natAbs else natText i.natAbs

lemma intText_injective : Function.Injective intText := by
  have hsign : ∀ m n : ℕ, '-' :: natText m ≠ natText n := by
    intro m n h
    have hdigit := isDigit_of_mem_natText (h ▸ List.mem_cons_self : '-' ∈ natText n)
    exact absurd hdigit (by decide)
  intro i j h
  unfold intText at h
  split at h <;> split at h
  · have := natText_injective (List.cons.inj h).2
    omega
  · exact absurd h (hsign _ _)
  · exact absurd h.symm (hsign _ _)
  · have := natText_injective h
    omega

lemma mem_intText {i : ℤ} {c : Char} (h : c ∈ intText i) : c.isDigit = true ∨ c = '-' := by
  unfold intText at h
  split at h
  · rcases List.mem_cons.mp h with rfl | h
    · exact .inr rfl
    · exact .inl (isDigit_of_mem_natText h)
  · exact .inl (isDigit_of_mem_natText h)

lemma intText_ne_nil (i : ℤ) : intText i ≠ [] := by
  unfold intText
  split
  · exact List.cons_ne_nil _ _
  · exact natText_ne_nil _

end Texts
