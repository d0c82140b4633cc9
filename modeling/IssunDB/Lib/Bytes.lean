import Mathlib

/-!
# Fixed-width byte encodings of integers

`toLeBytes w n` and `toBeBytes w n` are the `w` low bytes of `n`, least and most significant
first. Both are injective on integers that fit.
-/

/-- The `w` low bytes of `n`, least significant first. -/
def toLeBytes : (w n : ℕ) → List UInt8
  | 0, _ => []
  | w + 1, n => UInt8.ofNat n :: toLeBytes w (n / 256)

/-- The `w` low bytes of `n`, most significant first. -/
def toBeBytes (w n : ℕ) : List UInt8 := (toLeBytes w n).reverse

@[simp]
lemma length_toLeBytes (w n : ℕ) : (toLeBytes w n).length = w := by
  induction w generalizing n with
  | zero => rfl
  | succ w ih => simp [toLeBytes, ih]

@[simp]
lemma length_toBeBytes (w n : ℕ) : (toBeBytes w n).length = w := by
  simp [toBeBytes]

variable {w n m : ℕ}

/-- Integers that fit in `w` bytes are determined by them. -/
theorem toLeBytes_inj (hn : n < 256 ^ w) (hm : m < 256 ^ w) :
    toLeBytes w n = toLeBytes w m ↔ n = m := by
  refine ⟨fun h => ?_, fun h => h ▸ rfl⟩
  induction w generalizing n m with
  | zero => omega
  | succ w ih =>
    obtain ⟨hlow, hhigh⟩ := List.cons_eq_cons.mp h
    have hdiv : n / 256 = m / 256 := by
      refine ih ?_ ?_ hhigh
      · exact Nat.div_lt_of_lt_mul (by rwa [pow_succ'] at hn)
      · exact Nat.div_lt_of_lt_mul (by rwa [pow_succ'] at hm)
    have hmod : n % 256 = m % 256 := by
      simpa using congrArg UInt8.toNat hlow
    omega

lemma toBeBytes_inj (hn : n < 256 ^ w) (hm : m < 256 ^ w) :
    toBeBytes w n = toBeBytes w m ↔ n = m := by
  rw [toBeBytes, toBeBytes, List.reverse_inj, toLeBytes_inj hn hm]

/-- Byte strings with heads of one length are compared by the heads first. -/
theorem append_lt_append_iff {l m r s : List UInt8} (h : l.length = m.length) :
    l ++ r < m ++ s ↔ l < m ∨ l = m ∧ r < s := by
  induction l generalizing m with
  | nil =>
    obtain rfl := List.length_eq_zero_iff.mp h.symm
    simp
  | cons a l ih =>
    cases m with
    | nil => simp at h
    | cons b m =>
      rw [List.cons_append, List.cons_append, List.cons_lt_cons_iff, List.cons_lt_cons_iff,
        ih (by simpa using h), List.cons.injEq]
      tauto

/-- Integers that fit are ordered as their bytes, most significant first. -/
theorem toBeBytes_lt (hn : n < 256 ^ w) (hm : m < 256 ^ w) :
    toBeBytes w n < toBeBytes w m ↔ n < m := by
  induction w generalizing n m with
  | zero =>
    have h : n = m := by omega
    simp [h]
  | succ w ih =>
    have hn' : n / 256 < 256 ^ w := Nat.div_lt_of_lt_mul (by rwa [pow_succ'] at hn)
    have hm' : m / 256 < 256 ^ w := Nat.div_lt_of_lt_mul (by rwa [pow_succ'] at hm)
    have hsplit : ∀ n, toBeBytes (w + 1) n = toBeBytes w (n / 256) ++ [UInt8.ofNat n] := by
      intro n
      rw [toBeBytes, toLeBytes, List.reverse_cons, ← toBeBytes]
    have hlast : [UInt8.ofNat n] < [UInt8.ofNat m] ↔ n % 256 < m % 256 := by
      rw [List.cons_lt_cons_iff, UInt8.lt_iff_toNat_lt]
      simp
    rw [hsplit, hsplit, append_lt_append_iff (by simp), ih hn' hm', toBeBytes_inj hn' hm', hlast]
    omega
