import Mathlib.Algebra.GroupWithZero.Nat
import Mathlib.Data.List.Basic
import Mathlib.Data.List.DropRight
import IssunDB.Lib.Texts

/-!
# Byte slices and numbers of texts

A text is a list of characters, of one to four bytes each. A byte index is good for a slice when it
falls between two characters (`cut_isSome_iff`). Numbers are parsed with an optional sign, and only
in the range of their type.
-/

namespace IssunDB.Texts

open List

def byteLen (s : List Char) : ℕ := (s.map Char.utf8Size).sum

@[simp] lemma byteLen_nil : byteLen [] = 0 := rfl

/-- Cut a text at a byte index; nothing off a character boundary and past the end. -/
def cut (n : ℕ) : List Char → Option (List Char × List Char)
  | [] => if n = 0 then some ([], []) else none
  | c :: s =>
    if n = 0 then some ([], c :: s)
    else if c.utf8Size ≤ n then (cut (n - c.utf8Size) s).map fun p => (c :: p.1, p.2)
    else none

/-! ## Splitting at a character -/

def splitOnce (p : Char → Bool) : List Char → Option (List Char × List Char)
  | [] => none
  | c :: s => if p c then some ([], s) else (splitOnce p s).map fun q => (c :: q.1, q.2)

/-- Split at the last occurrence. -/
def rsplitOnce (p : Char → Bool) (s : List Char) : Option (List Char × List Char) :=
  (splitOnce p s.reverse).map fun q => (q.2.reverse, q.1.reverse)

/-- Split at the first occurrences, into at most `n` parts. -/
def splitN : ℕ → (Char → Bool) → List Char → List (List Char)
  | 0, _, _ => []
  | 1, _, s => [s]
  | n + 2, p, s =>
    match splitOnce p s with
    | none => [s]
    | some (a, b) => a :: splitN (n + 1) p b

/-! ## Numbers -/

def digitsValue (s : List Char) : Option ℕ :=
  if s ≠ [] ∧ s.all Char.isDigit then some (Nat.ofDigitChars 10 s 0) else none

/-- Parse an integer in a range; a minus sign is for signed types. -/
def parseInt (low high : ℤ) (s : List Char) : Option ℤ :=
  let value := match s with
    | '+' :: s => (digitsValue s).map Int.ofNat
    | '-' :: s => if low < 0 then (digitsValue s).map fun n => -(n : ℤ) else none
    | s => (digitsValue s).map Int.ofNat
  value.filter fun i => low ≤ i ∧ i ≤ high

lemma digitsValue_natText (n : ℕ) : digitsValue (natText n) = some n := by
  rw [digitsValue, if_pos ⟨natText_ne_nil n, all_eq_true.mpr fun _ => isDigit_of_mem_natText⟩]
  exact congrArg some Nat.ofDigitChars_ten_toDigits

lemma parseInt_natText (low high : ℤ) (n : ℕ) :
    parseInt low high (natText n) = if low ≤ n ∧ (n : ℤ) ≤ high then some (n : ℤ) else none := by
  have hvalue := digitsValue_natText n
  unfold parseInt
  split
  next s hs =>
    exact absurd (isDigit_of_mem_natText (hs ▸ mem_cons_self : '+' ∈ natText n)) (by decide)
  next s hs =>
    exact absurd (isDigit_of_mem_natText (hs ▸ mem_cons_self : '-' ∈ natText n)) (by decide)
  next =>
    rw [hvalue]
    simp [Option.filter]

lemma parseInt_negText {low high : ℤ} (n : ℕ) (hlow : low ≤ -n) (hn : low < 0) (hhigh : -n ≤ high) :
    parseInt low high ('-' :: natText n) = some (-n : ℤ) := by
  unfold parseInt
  simp [digitsValue_natText, hn, hlow, hhigh, Option.filter]

variable {s : List Char}

/-- A text that is an integer has digits and a sign only. -/
theorem mem_of_parseInt {low high i : ℤ} (h : parseInt low high s = some i) {c : Char}
    (hc : c ∈ s) :
    c.isDigit = true ∨ c = '+' ∨ c = '-' := by
  have hdigits : ∀ {s : List Char}, digitsValue s ≠ none → ∀ c ∈ s, c.isDigit = true := by
    intro s h c hc
    unfold digitsValue at h
    split at h
    next hs => exact all_eq_true.mp hs.2 c hc
    next => exact absurd rfl h
  have hvalue := (Option.filter_eq_some_iff.mp h).1
  split at hvalue
  next s =>
    rcases mem_cons.mp hc with rfl | hc
    · exact .inr (.inl rfl)
    · refine .inl (hdigits (fun hnone => ?_) c hc)
      rw [hnone] at hvalue
      cases hvalue
  next s =>
    rcases mem_cons.mp hc with rfl | hc
    · exact .inr (.inr rfl)
    · refine .inl (hdigits (fun hnone => ?_) c hc)
      rw [hnone] at hvalue
      split at hvalue <;> cases hvalue
  next =>
    refine .inl (hdigits (fun hnone => ?_) c hc)
    rw [hnone] at hvalue
    cases hvalue
def isWhiteSpace (c : Char) : Bool :=
  let n := c.toNat
  (9 ≤ n && n ≤ 13) || n = 0x20 || n = 0x85 || n = 0xA0 || n = 0x1680 ||
    (0x2000 ≤ n && n ≤ 0x200A) || n = 0x2028 || n = 0x2029 || n = 0x202F || n = 0x205F || n = 0x3000

/-- Remove white space at both ends. -/
def trim (s : List Char) : List Char :=
  ((s.dropWhile isWhiteSpace).reverse.dropWhile isWhiteSpace).reverse

lemma trim_eq (s : List Char) : trim s = (s.dropWhile isWhiteSpace).rdropWhile isWhiteSpace := rfl

lemma trim_sublist (s : List Char) : (trim s).Sublist s :=
  (List.rdropWhile_prefix _ _).sublist.trans (dropWhile_sublist _)

/-- White space alone is trimmed away. -/
theorem trim_eq_nil_iff : trim s = [] ↔ ∀ c ∈ s, isWhiteSpace c = true := by
  rw [trim_eq, rdropWhile_eq_nil_iff]
  constructor
  · intro h
    have hdrop : s.dropWhile isWhiteSpace = [] := by
      by_contra hne
      have hhead := head_dropWhile_not isWhiteSpace hne
      rw [h _ (head_mem hne)] at hhead
      cases hhead
    exact dropWhile_eq_nil_iff.mp hdrop
  · intro h c hc
    exact h c ((dropWhile_sublist _).subset hc)

/-- A text is trimmed if it neither begins nor ends with white space. -/
theorem trim_eq_self_iff : trim s = s ↔
    (∀ c ∈ s.head?, isWhiteSpace c = false) ∧ ∀ c ∈ s.getLast?, isWhiteSpace c = false := by
  have hfront : s.dropWhile isWhiteSpace = s ↔ ∀ c ∈ s.head?, isWhiteSpace c = false := by
    cases s with
    | nil => simp
    | cons c s =>
      rw [dropWhile_eq_self_iff]
      simp
  have hback : s.rdropWhile isWhiteSpace = s ↔ ∀ c ∈ s.getLast?, isWhiteSpace c = false := by
    rw [rdropWhile_eq_self_iff]
    constructor
    · intro h c hc
      obtain ⟨hne, rfl⟩ := mem_getLast?_eq_getLast hc
      exact Bool.eq_false_iff.mpr (h hne)
    · intro h hne
      exact Bool.eq_false_iff.mp (h _ (getLast?_eq_getLast_of_ne_nil hne))
  rw [← hfront, ← hback, trim_eq]
  constructor
  · intro h
    have hdrop : s.dropWhile isWhiteSpace = s := by
      apply (dropWhile_sublist _).eq_of_length_le
      have hlen := (List.rdropWhile_prefix isWhiteSpace (s.dropWhile isWhiteSpace)).length_le
      rw [h] at hlen
      exact hlen
    rw [hdrop] at h
    exact ⟨hdrop, h⟩
  · rintro ⟨hdrop, hrdrop⟩
    rw [hdrop, hrdrop]

lemma trim_trim (s : List Char) : trim (trim s) = trim s := by
  rw [trim_eq_self_iff]
  constructor
  · intro c hc
    obtain ⟨rest, hrest⟩ := rdropWhile_prefix isWhiteSpace (s.dropWhile isWhiteSpace)
    rw [← trim_eq] at hrest
    obtain ⟨l, hl⟩ := head?_eq_some_iff.mp hc
    rw [hl, cons_append] at hrest
    have hne : s.dropWhile isWhiteSpace ≠ [] := by
      rw [← hrest]
      exact cons_ne_nil _ _
    have hhead := head_dropWhile_not isWhiteSpace hne
    simp only [← hrest, head_cons] at hhead
    exact hhead
  · intro c hc
    obtain ⟨hne, rfl⟩ := mem_getLast?_eq_getLast hc
    exact Bool.eq_false_iff.mpr (rdropWhile_last_not isWhiteSpace _ hne)
end IssunDB.Texts
