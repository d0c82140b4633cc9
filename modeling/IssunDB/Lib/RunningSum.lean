import IssunDB.Lib.F64
import Mathlib.Order.BoundedOrder.Basic
import Mathlib.Order.Lattice
import Mathlib.Order.Monotone.Defs

/-!
# Running sums of doubles

A running sum starts at zero and takes up one finite double after another. Each sum is rounded, a
sum beyond the largest double becomes an infinity, and an infinity stays what it is.

* `RunningSum.add_mono`: rounding keeps the order of two sums that take up the same double;
* `RunningSum.le_add`: taking up a double that is not negative does not make a sum smaller;
* `RunningSum.val_add`: integers are added exactly up to `2 ^ 53`.
-/

namespace F64

lemma roundedNat_roundedNat (n : ℕ) : roundedNat (roundedNat n) = roundedNat n := by
  by_cases hlog : n.log2 ≤ 52
  · simp only [roundedNat, if_pos hlog]
  · have hn : n ≠ 0 := by
      rintro rfl
      exact hlog (by decide)
    have heq : roundedNat n = roundedSignificand n * 2 ^ (n.log2 - 52) := if_neg hlog
    rw [heq]
    exact roundedNat_mul_pow (roundedSignificand_bounds hn).2 _

lemma roundScaled_of_nonneg {i : ℤ} (h : 0 ≤ i) : roundScaled i = roundedNat i.natAbs :=
  if_neg (not_lt.mpr h)

lemma roundScaled_neg (i : ℤ) : roundScaled (-i) = -roundScaled i := by
  rcases lt_trichotomy i 0 with hlt | rfl | hgt
  · rw [roundScaled_of_nonneg (by omega), roundScaled, if_pos hlt, Int.natAbs_neg, neg_neg]
  · decide
  · rw [roundScaled_of_nonneg hgt.le, roundScaled, if_pos (by omega), Int.natAbs_neg]

lemma roundScaled_nonneg {i : ℤ} (h : 0 ≤ i) : 0 ≤ roundScaled i := by
  rw [roundScaled_of_nonneg h]
  exact Nat.cast_nonneg _

lemma roundScaled_mono : Monotone roundScaled := by
  intro i j hij
  rcases lt_or_ge i 0 with hi | hi
  · rcases lt_or_ge j 0 with hj | hj
    · have h := roundedNat_mono (show j.natAbs ≤ i.natAbs by omega)
      rw [roundScaled, if_pos hi, roundScaled, if_pos hj]
      omega
    · have h := roundScaled_nonneg (show 0 ≤ -i by omega)
      rw [roundScaled_neg] at h
      exact le_trans (by omega) (roundScaled_nonneg hj)
  · rw [roundScaled_of_nonneg hi, roundScaled_of_nonneg (hi.trans hij)]
    have h := roundedNat_mono (show i.natAbs ≤ j.natAbs by omega)
    omega

lemma roundScaled_roundScaled (i : ℤ) : roundScaled (roundScaled i) = roundScaled i := by
  have hnonneg : ∀ {i : ℤ}, 0 ≤ i → roundScaled (roundScaled i) = roundScaled i := by
    intro i h
    rw [roundScaled_of_nonneg h, roundScaled_of_nonneg (Nat.cast_nonneg _), Int.natAbs_natCast,
      roundedNat_roundedNat]
  rcases lt_or_ge i 0 with hi | hi
  · obtain ⟨j, rfl⟩ : ∃ j, i = -j := ⟨-i, (neg_neg i).symm⟩
    rw [roundScaled_neg, roundScaled_neg, hnonneg (by omega)]
  · exact hnonneg hi

/-- The first power of two beyond the doubles, in units of `2 ^ (-1074)`. -/
def infinity : ℤ := 2 ^ 2098

lemma infinity_pos : 0 < infinity := by
  rw [infinity]
  positivity

lemma roundScaled_infinity : roundScaled infinity = infinity := by
  have h := roundScaled_mul_pow (i := 1) (by decide) 2098
  rwa [one_mul] at h

end F64

/-- A double that is a number or an infinity, by its value; infinity stands for itself. -/
structure RunningSum where
  val : ℤ
  rounded : F64.roundScaled val = val
  lower : -F64.infinity ≤ val
  upper : val ≤ F64.infinity

namespace RunningSum

lemma val_injective : Function.Injective val := by
  rintro ⟨a, _, _, _⟩ ⟨b, _, _, _⟩ rfl
  rfl

instance : DecidableEq RunningSum :=
  fun a b => decidable_of_iff (a.val = b.val) val_injective.eq_iff

instance : LinearOrder RunningSum := LinearOrder.lift' val val_injective

def zero : RunningSum where
  val := 0
  rounded := by decide
  lower := neg_nonpos.mpr F64.infinity_pos.le
  upper := F64.infinity_pos.le

/-- The sum of a value that is rounded, or an infinity beyond the largest double. -/
def round (i : ℤ) : RunningSum where
  val := max (-F64.infinity) (min F64.infinity (F64.roundScaled i))
  rounded := by
    rcases max_choice (-F64.infinity) (min F64.infinity (F64.roundScaled i)) with h | h <;> rw [h]
    · rw [F64.roundScaled_neg, F64.roundScaled_infinity]
    · rcases min_choice F64.infinity (F64.roundScaled i) with h | h <;> rw [h]
      · exact F64.roundScaled_infinity
      · exact F64.roundScaled_roundScaled i
  lower := le_max_left _ _
  upper := max_le (neg_le_self F64.infinity_pos.le) (min_le_left _ _)

instance : OrderTop RunningSum where
  top := ⟨F64.infinity, F64.roundScaled_infinity, neg_le_self F64.infinity_pos.le, le_rfl⟩
  le_top a := a.upper

/-- An infinity of either sign. -/
def infinite (c : RunningSum) : Bool := c.val = -F64.infinity ∨ c.val = F64.infinity

/-- Take up a finite double. -/
def add (c : RunningSum) (w : ℤ) : RunningSum := if c.infinite then c else round (c.val + w)

/-- The sum of two sums; there is none of infinities of opposite signs. -/
def plus (c d : RunningSum) : Option RunningSum :=
  if d.infinite then if c.infinite ∧ c ≠ d then none else some d
  else some (c.add d.val)

lemma le_def {c d : RunningSum} : c ≤ d ↔ c.val ≤ d.val := Iff.rfl

lemma val_top : (⊤ : RunningSum).val = F64.infinity := rfl

lemma round_mono : Monotone round := by
  intro i j hij
  exact max_le_max le_rfl (min_le_min le_rfl (F64.roundScaled_mono hij))

lemma round_val (c : RunningSum) : round c.val = c := by
  apply val_injective
  show max (-F64.infinity) (min F64.infinity (F64.roundScaled c.val)) = c.val
  rw [c.rounded, min_eq_right c.upper, max_eq_right c.lower]

/-- Rounding keeps the order of two sums that take up the same double. -/
theorem add_mono {c d : RunningSum} (w : ℤ) (h : c ≤ d) : c.add w ≤ d.add w := by
  have hval : c.val ≤ d.val := h
  have := c.lower
  have := d.upper
  rw [add, add]
  split
  next hc =>
    rcases of_decide_eq_true hc with hc | hc
    · split
      next => exact h
      next => exact le_def.mpr (hc ▸ (round _).lower)
    · have hd : d.val = F64.infinity := by omega
      rw [if_pos (show d.infinite from decide_eq_true (Or.inr hd))]
      exact h
  next hc =>
    split
    next hd =>
      rcases of_decide_eq_true hd with hd | hd
      · have hc' : c.val = -F64.infinity := by omega
        exact absurd (decide_eq_true (Or.inl hc')) hc
      · exact le_def.mpr (hd ▸ (round _).upper)
    next => exact round_mono (by omega)

/-- Taking up a double that is not negative does not make a sum smaller. -/
theorem le_add (c : RunningSum) {w : ℤ} (hw : 0 ≤ w) : c ≤ c.add w := by
  rw [add]
  split
  next => exact le_rfl
  next =>
    calc c = round c.val := c.round_val.symm
      _ ≤ round (c.val + w) := round_mono (by omega)

/-- Integers are added exactly up to `2 ^ 53`. -/
theorem val_add {c : RunningSum} {i j : ℕ} (hc : c.val = i * 2 ^ 1074) (h : i + j ≤ 2 ^ 53) :
    (c.add (j * 2 ^ 1074)).val = ((i + j : ℕ) : ℤ) * 2 ^ 1074 := by
  have hunit : (0 : ℤ) < 2 ^ 1074 := by positivity
  have hlarge : ∀ {m : ℕ}, m ≤ 2 ^ 53 → (m : ℤ) * 2 ^ 1074 < F64.infinity := by
    intro m hm
    calc (m : ℤ) * 2 ^ 1074 ≤ 2 ^ 53 * 2 ^ 1074 := mul_le_mul_of_nonneg_right (by omega) hunit.le
      _ = 2 ^ 1127 := by rw [← pow_add]
      _ < F64.infinity := by
        rw [F64.infinity]
        exact pow_lt_pow_right₀ (by decide) (by decide)
  have hfinite : c.infinite = false := by
    have hi := hlarge (show i ≤ 2 ^ 53 by omega)
    have hpos : (0 : ℤ) ≤ i * 2 ^ 1074 := mul_nonneg (Nat.cast_nonneg i) hunit.le
    rw [← hc] at hi hpos
    have := F64.infinity_pos
    exact decide_eq_false (by omega)
  have hsum : c.val + j * 2 ^ 1074 = ((i + j : ℕ) : ℤ) * 2 ^ 1074 := by
    rw [hc, ← add_mul, Nat.cast_add]
  have hround : F64.roundScaled (c.val + j * 2 ^ 1074) = ((i + j : ℕ) : ℤ) * 2 ^ 1074 := by
    rw [hsum]
    exact F64.roundScaled_mul_pow (by omega) 1074
  have hlt := hlarge h
  have hpos : (0 : ℤ) ≤ ((i + j : ℕ) : ℤ) * 2 ^ 1074 := mul_nonneg (Nat.cast_nonneg _) hunit.le
  have := F64.infinity_pos
  rw [add, if_neg (by rw [hfinite]; exact Bool.false_ne_true)]
  show max (-F64.infinity) (min F64.infinity _) = _
  rw [hround, min_eq_right hlt.le, max_eq_right (by omega)]

def rank (c : RunningSum) : ℕ := (c.val + F64.infinity).toNat

lemma rank_strictMono : StrictMono rank := by
  intro c d h
  have hval : c.val < d.val := h
  have := c.lower
  rw [rank, rank]
  omega

end RunningSum

/-! ## Sums as doubles -/

namespace F64

/-- The magnitude bits of the double whose value is `n` times `2 ^ (-1074)`. -/
def scaledMagnitude (n : ℕ) : ℕ :=
  if n < 2 ^ 53 then n else (n.log2 - 52) * 2 ^ 52 + n / 2 ^ (n.log2 - 52)

lemma scaledMagnitude_lt {n : ℕ} (hn : n < 2 ^ 2098) : scaledMagnitude n < 2047 * 2 ^ 52 := by
  unfold scaledMagnitude
  split
  next h => omega
  next h =>
    have h0 : n ≠ 0 := by omega
    have hlog : ∀ k, n < 2 ^ k → n.log2 < k := fun _ => (Nat.log2_lt h0).mpr
    replace hlog := hlog 2098 hn
    have hlog' : 53 ≤ n.log2 := (Nat.le_log2 h0).mpr (not_lt.mp h)
    have hhi : n < 2 ^ 53 * 2 ^ (n.log2 - 52) := by
      rw [← pow_add, show 53 + (n.log2 - 52) = n.log2 + 1 by omega]
      exact Nat.lt_log2_self
    have hq : n / 2 ^ (n.log2 - 52) < 2 ^ 53 := (Nat.div_lt_iff_lt_mul (by positivity)).mpr hhi
    omega

/-- The double whose value is `i` times `2 ^ (-1074)`, where there is one. -/
def ofScaled (i : ℤ) (hi : i.natAbs < 2 ^ 2098) : F64 :=
  if i < 0 then (ofMagnitude (scaledMagnitude i.natAbs) (scaledMagnitude_lt hi)).neg
  else ofMagnitude (scaledMagnitude i.natAbs) (scaledMagnitude_lt hi)

end F64
