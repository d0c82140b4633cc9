import Mathlib

/-!
# Binary64 numbers

A finite double is its sign, exponent field and fraction field. `F64.scaled` is its exact value
as a multiple of the least positive double `2 ^ (-1074)`, so two doubles are numerically equal
iff their scaled integers are. `F64.ofNat` is the conversion of an unsigned machine integer,
rounded to nearest with ties to even.

The main facts are that the scaled value determines a nonzero double
(`F64.eq_of_scaled_eq`), and that a machine integer which some double equals is converted to
that double (`F64.scaled_ofNat_of_representable`). A `Double` is a finite one, one of the two
infinities, or the one NaN that stands for all of its bit patterns.
-/

/-- A finite binary64 number: not an infinity and not a NaN. -/
structure F64 where
  /-- The sign bit. -/
  negative : Bool
  /-- The eleven-bit exponent field; `2047` is reserved for infinities and NaNs. -/
  biased : ℕ
  /-- The fifty-two-bit fraction field. -/
  fraction : ℕ
  biased_lt : biased < 2047
  fraction_lt : fraction < 2 ^ 52
  deriving DecidableEq

namespace F64

/-- The bit pattern below the sign bit. -/
def magnitude (f : F64) : ℕ := f.biased * 2 ^ 52 + f.fraction

/-- The bit pattern, `f64::to_bits`. -/
def toBits (f : F64) : ℕ := (if f.negative then 2 ^ 63 else 0) + f.magnitude

/-- The significand with its hidden bit, absent on a subnormal. -/
def significand (f : F64) : ℕ := if f.biased = 0 then f.fraction else 2 ^ 52 + f.fraction

/-- The absolute value in units of `2 ^ (-1074)`. -/
def scaledAbs (f : F64) : ℕ := f.significand * 2 ^ (f.biased - 1)

/-- The exact value in units of `2 ^ (-1074)`. -/
def scaled (f : F64) : ℤ := if f.negative then -(f.scaledAbs : ℤ) else f.scaledAbs

/-- The value is an integer, `f.fract() == 0.0`. -/
def isIntegral (f : F64) : Bool := f.scaled % 2 ^ 1074 = 0

/-- The value truncated to an integer, exact on integral values. -/
def truncate (f : F64) : ℤ := f.scaled.tdiv (2 ^ 1074)

lemma significand_lt (f : F64) : f.significand < 2 ^ 53 := by
  have := f.fraction_lt
  unfold significand
  split <;> omega

/-- A larger exponent field means a larger absolute value. -/
theorem scaledAbs_lt_of_biased_lt {f g : F64} (h : f.biased < g.biased) :
    f.scaledAbs < g.scaledAbs := by
  have hg : 2 ^ 52 ≤ g.significand := by
    unfold significand
    split <;> omega
  have hupper : g.biased - 1 = f.biased + (g.biased - 1 - f.biased) := by omega
  have hpow : 2 ^ f.biased ≤ 2 ^ (g.biased - 1) := Nat.pow_le_pow_right (by omega) (by omega)
  rcases Nat.eq_zero_or_pos f.biased with h0 | hpos
  · calc f.scaledAbs = f.fraction := by simp [scaledAbs, significand, h0]
      _ < 2 ^ 52 * 1 := by simpa using f.fraction_lt
      _ ≤ g.significand * 2 ^ (g.biased - 1) := Nat.mul_le_mul hg Nat.one_le_two_pow
  · calc f.scaledAbs < 2 ^ 53 * 2 ^ (f.biased - 1) :=
          (Nat.mul_lt_mul_right (by positivity)).mpr f.significand_lt
      _ = 2 ^ 52 * 2 ^ f.biased := by
          rw [← pow_add, ← pow_add]
          congr 1
          omega
      _ ≤ g.significand * 2 ^ (g.biased - 1) := Nat.mul_le_mul hg hpow

/-- The absolute value determines the exponent and fraction fields. -/
theorem magnitude_eq_of_scaledAbs_eq {f g : F64} (h : f.scaledAbs = g.scaledAbs) :
    f.biased = g.biased ∧ f.fraction = g.fraction := by
  have hb : f.biased = g.biased := by
    rcases Nat.lt_trichotomy f.biased g.biased with hlt | heq | hgt
    · exact absurd h (scaledAbs_lt_of_biased_lt hlt).ne
    · exact heq
    · exact absurd h (scaledAbs_lt_of_biased_lt hgt).ne'
  refine ⟨hb, ?_⟩
  have hs : f.significand = g.significand := by
    rw [scaledAbs, scaledAbs, hb] at h
    exact Nat.eq_of_mul_eq_mul_right (by positivity) h
  unfold significand at hs
  rw [hb] at hs
  split at hs <;> omega

/-- Absolute values are ordered as the bit patterns below the sign. -/
theorem scaledAbs_lt_iff {f g : F64} : f.scaledAbs < g.scaledAbs ↔ f.magnitude < g.magnitude := by
  have hforward : ∀ {f g : F64}, f.magnitude < g.magnitude → f.scaledAbs < g.scaledAbs := by
    intro f g h
    have hf := f.fraction_lt
    have hg := g.fraction_lt
    unfold magnitude at h
    rcases Nat.lt_trichotomy f.biased g.biased with hlt | heq | hgt
    · exact scaledAbs_lt_of_biased_lt hlt
    · -- With one exponent field the fractions decide.
      have hs : f.significand < g.significand := by
        unfold significand
        rw [heq] at h ⊢
        split <;> omega
      rw [scaledAbs, scaledAbs, heq]
      exact Nat.mul_lt_mul_of_pos_right hs (by positivity)
    · omega
  refine ⟨fun h => ?_, hforward⟩
  by_contra hge
  rcases (not_lt.mp hge).lt_or_eq with hlt | heq
  · exact absurd h (hforward hlt).not_gt
  · have hbits : f.biased = g.biased ∧ f.fraction = g.fraction := by
      have hf := f.fraction_lt
      have hg := g.fraction_lt
      unfold magnitude at heq
      omega
    have hsame : f.scaledAbs = g.scaledAbs := by
      rw [scaledAbs, scaledAbs, significand, significand, hbits.1, hbits.2]
    omega

variable {f : F64} {n : ℕ}

lemma scaled_of_nonneg (h : 0 ≤ f.scaled) : f.scaled = f.scaledAbs := by
  unfold scaled at h ⊢
  split at h
  · rw [if_pos ‹_›]
    omega
  · rw [if_neg ‹_›]

lemma scaled_of_nonpos (h : f.scaled ≤ 0) : f.scaled = -f.scaledAbs := by
  unfold scaled at h ⊢
  split at h
  · rw [if_pos ‹_›]
  · rw [if_neg ‹_›]
    omega

lemma scaledAbs_eq_zero_iff (f : F64) : f.scaledAbs = 0 ↔ f.biased = 0 ∧ f.fraction = 0 := by
  unfold scaledAbs significand
  split <;> simp_all

lemma natAbs_scaled (f : F64) : f.scaled.natAbs = f.scaledAbs := by
  unfold scaled
  split <;> simp

lemma scaled_eq_zero_iff (f : F64) : f.scaled = 0 ↔ f.biased = 0 ∧ f.fraction = 0 := by
  rw [← scaledAbs_eq_zero_iff, ← natAbs_scaled, Int.natAbs_eq_zero]

/-- Equal values have equal bits, the two zeros apart. -/
theorem eq_of_scaled_eq {f g : F64} (h : f.scaled = g.scaled) (h0 : f.scaled ≠ 0) : f = g := by
  have habs : f.scaledAbs = g.scaledAbs := by
    rw [← natAbs_scaled, ← natAbs_scaled, h]
  obtain ⟨hb, hf⟩ := magnitude_eq_of_scaledAbs_eq habs
  have hsign : f.negative = g.negative := by
    have hpos : 0 < f.scaledAbs := by
      rw [← natAbs_scaled]
      exact Int.natAbs_pos.mpr h0
    cases hfn : f.negative <;> cases hgn : g.negative <;> simp only [scaled, hfn, hgn] at h <;>
      simp_all
  cases f
  cases g
  simp_all

lemma toBits_injective : Function.Injective toBits := by
  rintro ⟨s, b, m, hb, hm⟩ ⟨s', b', m', hb', hm'⟩ h
  simp only [toBits, magnitude] at h
  obtain rfl : s = s' := by
    cases s <;> cases s' <;> simp at h ⊢ <;> omega
  simp only [mk.injEq, true_and]
  omega

lemma toBits_lt (f : F64) : f.toBits < 2 ^ 64 := by
  obtain ⟨s, b, m, hb, hm⟩ := f
  simp only [toBits, magnitude]
  split <;> omega

/-! ## Machine integers as doubles -/

/-- The nonnegative double with the given magnitude bits. -/
def ofMagnitude (m : ℕ) (h : m < 2047 * 2 ^ 52) : F64 where
  negative := false
  biased := m / 2 ^ 52
  fraction := m % 2 ^ 52
  biased_lt := by omega
  fraction_lt := Nat.mod_lt _ (by positivity)

/-- The double of the opposite sign, `-f`. -/
def neg (f : F64) : F64 := { f with negative := !f.negative }

@[simp]
lemma scaled_neg (f : F64) : f.neg.scaled = -f.scaled := by
  cases h : f.negative <;> simp [neg, scaled, h, scaledAbs, significand]

/-- The fifty-three-bit significand of `n`, rounded to nearest with ties to even; `2 ^ 53` when
the rounding carries into the next binade. -/
def roundedSignificand (n : ℕ) : ℕ :=
  if n.log2 ≤ 52 then n * 2 ^ (52 - n.log2)
  else
    let unit := 2 ^ (n.log2 - 52)
    let q := n / unit
    let r := n % unit
    if unit < 2 * r ∨ (2 * r = unit ∧ q % 2 = 1) then q + 1 else q

lemma roundedSignificand_bounds (hn : n ≠ 0) :
    2 ^ 52 ≤ roundedSignificand n ∧ roundedSignificand n ≤ 2 ^ 53 := by
  have hlo : 2 ^ n.log2 ≤ n := Nat.log2_self_le hn
  have hhi : n < 2 ^ (n.log2 + 1) := Nat.lt_log2_self
  unfold roundedSignificand
  split
  next hk =>
    have e1 : 2 ^ n.log2 * 2 ^ (52 - n.log2) = 2 ^ 52 := by
      rw [← pow_add]
      congr 1
      omega
    have e2 : 2 ^ (n.log2 + 1) * 2 ^ (52 - n.log2) = 2 ^ 53 := by
      rw [← pow_add]
      congr 1
      omega
    exact ⟨e1 ▸ Nat.mul_le_mul_right _ hlo, e2 ▸ Nat.mul_le_mul_right _ hhi.le⟩
  next hk =>
    have e1 : 2 ^ n.log2 = 2 ^ 52 * 2 ^ (n.log2 - 52) := by
      rw [← pow_add]
      congr 1
      omega
    have e2 : 2 ^ (n.log2 + 1) = 2 ^ 53 * 2 ^ (n.log2 - 52) := by
      rw [← pow_add]
      congr 1
      omega
    have hq1 : 2 ^ 52 ≤ n / 2 ^ (n.log2 - 52) :=
      (Nat.le_div_iff_mul_le (by positivity)).mpr (e1 ▸ hlo)
    have hq2 : n / 2 ^ (n.log2 - 52) < 2 ^ 53 :=
      (Nat.div_lt_iff_lt_mul (by positivity)).mpr (e2 ▸ hhi)
    dsimp only
    split <;> omega

/-- The magnitude bits of the double nearest to `n`. The rounded significand carries into the
exponent field by itself. -/
def roundedMagnitude (n : ℕ) : ℕ :=
  if n = 0 then 0 else (1022 + n.log2) * 2 ^ 52 + roundedSignificand n

lemma roundedMagnitude_lt (hn : n < 2 ^ 64) : roundedMagnitude n < 2047 * 2 ^ 52 := by
  unfold roundedMagnitude
  split
  · omega
  next h0 =>
    have hlog : n.log2 < 64 := (Nat.log2_lt h0).mpr hn
    have := (roundedSignificand_bounds h0).2
    omega

lemma zero_fits : 0 < 2 ^ 64 := by decide

lemma one_fits : 1 < 2 ^ 64 := by decide

/-- The largest integer up to which all are doubles. -/
lemma limit_fits : 2 ^ 53 < 2 ^ 64 := by decide

/-- The least integer that is no double. -/
lemma above_fits : 2 ^ 53 + 1 < 2 ^ 64 := by decide

/-- The double nearest to a 64-bit unsigned integer, `n as f64`. -/
def ofNat (n : ℕ) (hn : n < 2 ^ 64) : F64 :=
  ofMagnitude (roundedMagnitude n) (roundedMagnitude_lt hn)

/-- The double nearest to a signed integer of at most 64 magnitude bits, `i as f64`. -/
def ofInt (i : ℤ) (hi : i.natAbs < 2 ^ 64) : F64 :=
  if i < 0 then (ofNat i.natAbs hi).neg else ofNat i.natAbs hi

def roundedNat (n : ℕ) : ℕ :=
  if n.log2 ≤ 52 then n else roundedSignificand n * 2 ^ (n.log2 - 52)

lemma scaled_ofNat (n : ℕ) (hn : n < 2 ^ 64) :
    (ofNat n hn).scaled = roundedNat n * 2 ^ 1074 := by
  rcases Nat.eq_zero_or_pos n with rfl | hpos
  · simp [-Nat.reducePow, -Int.reducePow, ofNat, ofMagnitude, roundedMagnitude, scaled, scaledAbs,
      significand, roundedNat]
  have h0 : n ≠ 0 := by omega
  obtain ⟨hlo, hhi⟩ := roundedSignificand_bounds h0
  have habs : (ofNat n hn).scaledAbs = roundedSignificand n * 2 ^ (1022 + n.log2) := by
    simp only [scaledAbs, significand, ofNat, ofMagnitude, roundedMagnitude, h0, if_false]
    rcases hhi.eq_or_lt with heq | hlt
    · -- The carry case: the significand is `2 ^ 53` and the exponent field grows by one.
      have hb : ((1022 + n.log2) * 2 ^ 52 + roundedSignificand n) / 2 ^ 52 = 1024 + n.log2 := by
        omega
      have hf : ((1022 + n.log2) * 2 ^ 52 + roundedSignificand n) % 2 ^ 52 = 0 := by omega
      rw [hb, hf, if_neg (by omega), heq, show 1024 + n.log2 - 1 = 1 + (1022 + n.log2) by omega,
        pow_add 2 1, add_zero, ← mul_assoc]
      rfl
    · have hb : ((1022 + n.log2) * 2 ^ 52 + roundedSignificand n) / 2 ^ 52 = 1023 + n.log2 := by
        omega
      have hf : ((1022 + n.log2) * 2 ^ 52 + roundedSignificand n) % 2 ^ 52 =
          roundedSignificand n - 2 ^ 52 := by omega
      rw [hb, hf, if_neg (by omega), show 1023 + n.log2 - 1 = 1022 + n.log2 by omega,
        Nat.add_sub_cancel' hlo]
  have hval : roundedSignificand n * 2 ^ (1022 + n.log2) = roundedNat n * 2 ^ 1074 := by
    unfold roundedNat
    split
    next hk =>
      rw [roundedSignificand, if_pos hk, mul_assoc, ← pow_add]
      congr 2
      omega
    next hk =>
      rw [mul_assoc, ← pow_add]
      congr 2
      omega
  have hneg : (ofNat n hn).negative = false := rfl
  rw [scaled, hneg, habs, hval, if_neg Bool.false_ne_true, Int.natCast_mul, Int.natCast_pow]
  rfl

/-- An integer that some double equals is converted exactly. -/
theorem scaled_ofNat_of_representable (hn : n < 2 ^ 64) (hf : f.scaledAbs = n * 2 ^ 1074) :
    (ofNat n hn).scaled = n * 2 ^ 1074 := by
  rw [scaled_ofNat, roundedNat]
  split
  · rfl
  next hk =>
    have h0 : n ≠ 0 := by
      rintro rfl
      simp at hk
    have hlo : 2 ^ n.log2 ≤ n := Nat.log2_self_le h0
    -- The significand of `f` has 53 bits, so its exponent reaches the rounding unit of `n`.
    have hexp : n.log2 - 52 + 1074 ≤ f.biased - 1 := by
      by_contra hlt
      have hupper : f.scaledAbs < 2 ^ 53 * 2 ^ (f.biased - 1) :=
        (Nat.mul_lt_mul_right (by positivity)).mpr f.significand_lt
      have hle : 2 ^ 53 * 2 ^ (f.biased - 1) ≤ 2 ^ n.log2 * 2 ^ 1074 := by
        rw [← pow_add, ← pow_add]
        exact Nat.pow_le_pow_right (by omega) (by omega)
      have := Nat.mul_le_mul_right (2 ^ 1074) hlo
      omega
    have hdvd : 2 ^ (n.log2 - 52) ∣ n := by
      have h1 : 2 ^ (n.log2 - 52) * 2 ^ 1074 ∣ n * 2 ^ 1074 := by
        rw [← hf, ← pow_add]
        exact (pow_dvd_pow 2 hexp).mul_left _
      exact Nat.dvd_of_mul_dvd_mul_right (by positivity) h1
    have hr : n % 2 ^ (n.log2 - 52) = 0 := Nat.mod_eq_zero_of_dvd hdvd
    have hunit : 0 < 2 ^ (n.log2 - 52) := by positivity
    rw [roundedSignificand, if_neg hk]
    dsimp only
    rw [hr, if_neg (by omega), Nat.div_mul_cancel hdvd]

/-- Rounding keeps an integer below a power of two at most that power. -/
theorem roundedNat_le {n k : ℕ} (h : n ≤ 2 ^ k) : roundedNat n ≤ 2 ^ k := by
  unfold roundedNat
  split
  · exact h
  next hk =>
    have h0 : n ≠ 0 := by
      rintro rfl
      simp at hk
    rcases h.eq_or_lt with rfl | hlt
    · have hlog : (2 ^ k).log2 = k := Nat.log2_two_pow
      rw [hlog] at hk ⊢
      have hdiv : 2 ^ k / 2 ^ (k - 52) = 2 ^ 52 := by
        rw [Nat.pow_div (by omega) (by omega)]
        congr 1
        omega
      have hmod : 2 ^ k % 2 ^ (k - 52) = 0 :=
        Nat.mod_eq_zero_of_dvd (pow_dvd_pow 2 (by omega))
      have hunit : 0 < 2 ^ (k - 52) := by positivity
      rw [roundedSignificand, hlog, if_neg hk]
      dsimp only
      rw [hdiv, hmod, if_neg (by omega), ← pow_add]
      exact Nat.pow_le_pow_right (by omega) (by omega)
    · have hlog : n.log2 < k := (Nat.log2_lt h0).mpr hlt
      calc roundedSignificand n * 2 ^ (n.log2 - 52) ≤ 2 ^ 53 * 2 ^ (n.log2 - 52) :=
            Nat.mul_le_mul_right _ (roundedSignificand_bounds h0).2
        _ = 2 ^ (n.log2 + 1) := by
            rw [← pow_add]
            congr 1
            omega
        _ ≤ 2 ^ k := Nat.pow_le_pow_right (by omega) (by omega)

lemma two_pow_log2_le_roundedNat (h0 : n ≠ 0) : 2 ^ n.log2 ≤ roundedNat n := by
  unfold roundedNat
  split
  · exact Nat.log2_self_le h0
  · calc 2 ^ n.log2 = 2 ^ 52 * 2 ^ (n.log2 - 52) := by
          rw [← pow_add]
          congr 1
          omega
      _ ≤ roundedSignificand n * 2 ^ (n.log2 - 52) :=
          Nat.mul_le_mul_right _ (roundedSignificand_bounds h0).1

lemma roundedNat_mono {m n : ℕ} (h : m ≤ n) : roundedNat m ≤ roundedNat n := by
  rcases Nat.eq_zero_or_pos m with rfl | hm
  · simp [roundedNat]
  have hm0 : m ≠ 0 := by omega
  have hn0 : n ≠ 0 := by omega
  have hlog : m.log2 ≤ n.log2 := (Nat.le_log2 hn0).mpr ((Nat.log2_self_le hm0).trans h)
  rcases hlog.lt_or_eq with hlt | heq
  · -- A power of two lies between them.
    have hpow : m ≤ 2 ^ n.log2 :=
      (Nat.lt_log2_self.le).trans (Nat.pow_le_pow_right (by omega) hlt)
    exact (roundedNat_le hpow).trans (two_pow_log2_le_roundedNat hn0)
  · unfold roundedNat
    rw [heq]
    split
    · exact h
    next hk =>
      apply Nat.mul_le_mul_right
      unfold roundedSignificand
      rw [heq, if_neg hk, if_neg hk]
      dsimp only
      generalize hunit : 2 ^ (n.log2 - 52) = unit
      have hpos : 0 < unit := by
        rw [← hunit]
        positivity
      have hq : m / unit ≤ n / unit := Nat.div_le_div_right h
      have hmod : m / unit = n / unit → m % unit ≤ n % unit := by
        intro hdiv
        have h₁ := Nat.div_add_mod m unit
        have h₂ := Nat.div_add_mod n unit
        rw [hdiv] at h₁
        omega
      rcases hq.lt_or_eq with hq | hq
      · split <;> split <;> omega
      · have hr := hmod hq
        rw [hq]
        split <;> split <;> omega

/-! ## Rounding against doubles -/

/-- A double is a multiple of one unit as soon as it is at least `2 ^ 53`. -/
theorem dvd_scaledAbs (h : 2 ^ 53 * 2 ^ 1074 ≤ f.scaledAbs) : 2 ^ 1074 ∣ f.scaledAbs := by
  have hb : 1074 ≤ f.biased - 1 := by
    by_contra hlt
    have hpow : 2 ^ (f.biased - 1) ≤ 2 ^ 1074 := pow_le_pow_right₀ one_le_two (by omega)
    have : f.scaledAbs < 2 ^ 53 * 2 ^ 1074 :=
      Nat.mul_lt_mul_of_lt_of_le f.significand_lt hpow (by positivity)
    omega
  exact Dvd.dvd.mul_left (pow_dvd_pow 2 hb) _

lemma roundedNat_of_representable (hn : n < 2 ^ 64) (hf : f.scaledAbs = n * 2 ^ 1074) :
    roundedNat n = n := by
  have h := scaled_ofNat_of_representable hn hf
  rw [scaled_ofNat] at h
  exact_mod_cast mul_right_cancel₀ (by positivity) h

lemma roundedNat_of_lt (h : n < 2 ^ 53) : roundedNat n = n := by
  have hlog : n.log2 ≤ 52 := by
    rcases Nat.eq_zero_or_pos n with rfl | hpos
    · simp
    · have := (Nat.log2_lt hpos.ne').mpr h
      omega
  rw [roundedNat, if_pos hlog]

/-- Rounding an integer does not pass a double above it. -/
theorem roundedNat_le_of_le (hn : n < 2 ^ 64) (h : n * 2 ^ 1074 ≤ f.scaledAbs) :
    roundedNat n * 2 ^ 1074 ≤ f.scaledAbs := by
  by_cases hsmall : n < 2 ^ 53
  · simpa only [roundedNat_of_lt hsmall] using h
  · have hn53 : 2 ^ 53 ≤ n := not_lt.mp hsmall
    have hscale : 2 ^ 53 * 2 ^ 1074 ≤ n * 2 ^ 1074 := Nat.mul_le_mul_right _ hn53
    have hbig : 2 ^ 53 * 2 ^ 1074 ≤ f.scaledAbs := le_trans hscale h
    obtain ⟨k, hk⟩ := dvd_scaledAbs hbig
    rw [mul_comm] at hk
    rw [hk] at h ⊢
    have hnk : n ≤ k := Nat.le_of_mul_le_mul_right h (by positivity)
    apply Nat.mul_le_mul_right
    by_cases hlarge : k < 2 ^ 64
    · calc roundedNat n ≤ roundedNat k := roundedNat_mono hnk
        _ = k := roundedNat_of_representable hlarge hk
    · calc roundedNat n ≤ 2 ^ 64 := roundedNat_le hn.le
        _ ≤ k := not_lt.mp hlarge

/-- Rounding an integer does not pass a double below it. -/
theorem le_roundedNat_of_le (hn : n < 2 ^ 64) (h : f.scaledAbs ≤ n * 2 ^ 1074) :
    f.scaledAbs ≤ roundedNat n * 2 ^ 1074 := by
  by_cases hsmall : n < 2 ^ 53
  · simpa only [roundedNat_of_lt hsmall] using h
  · by_cases hbig : 2 ^ 53 * 2 ^ 1074 ≤ f.scaledAbs
    · obtain ⟨k, hk⟩ := dvd_scaledAbs hbig
      rw [mul_comm] at hk
      rw [hk] at h ⊢
      have hkn : k ≤ n := Nat.le_of_mul_le_mul_right h (by positivity)
      apply Nat.mul_le_mul_right
      calc k = roundedNat k := (roundedNat_of_representable (hkn.trans_lt hn) hk).symm
        _ ≤ roundedNat n := roundedNat_mono hkn
    · have h53 : 2 ^ 53 ≤ roundedNat n := by
        calc 2 ^ 53 = roundedNat (2 ^ 53) := by decide
          _ ≤ roundedNat n := roundedNat_mono (not_lt.mp hsmall)
      exact (not_le.mp hbig).le.trans (Nat.mul_le_mul_right (2 ^ 1074) h53)

/-! ## Rounded sums -/

/-- The exact value of the double nearest to an exact value, both in units of `2 ^ (-1074)`. Ties go
to even. A value beyond the largest double is not treated. -/
def roundScaled (i : ℤ) : ℤ :=
  if i < 0 then -(roundedNat i.natAbs : ℤ) else roundedNat i.natAbs

/-- A number of at most fifty-three significant bits is not rounded. -/
theorem roundedNat_mul_pow {m : ℕ} (hm : m ≤ 2 ^ 53) (k : ℕ) :
    roundedNat (m * 2 ^ k) = m * 2 ^ k := by
  rw [roundedNat]
  split
  next => rfl
  next hk =>
    have h0 : m ≠ 0 := by
      rintro rfl
      simp at hk
    have hlog : (m * 2 ^ k).log2 = m.log2 + k := by
      have hpos : m * 2 ^ k ≠ 0 := Nat.mul_ne_zero h0 (by positivity)
      apply le_antisymm
      · have hlt : m * 2 ^ k < 2 ^ (m.log2 + 1 + k) := by
          rw [pow_add]
          exact Nat.mul_lt_mul_of_pos_right Nat.lt_log2_self (by positivity)
        have := (Nat.log2_lt hpos).mpr hlt
        omega
      · rw [Nat.le_log2 hpos, pow_add]
        exact Nat.mul_le_mul_right _ (Nat.log2_self_le h0)
    rw [hlog] at hk ⊢
    -- The rounding unit divides the number.
    have hdvd : 2 ^ (m.log2 + k - 52) ∣ m * 2 ^ k := by
      rcases hm.lt_or_eq with hlt | heq
      · have := (Nat.log2_lt h0).mpr hlt
        exact Dvd.dvd.mul_left (pow_dvd_pow 2 (by omega)) m
      · have h53 : m.log2 = 53 := by
          rw [heq]
          exact Nat.log2_two_pow
        rw [h53, heq, ← pow_add]
        exact pow_dvd_pow 2 (by omega)
    have hr : m * 2 ^ k % 2 ^ (m.log2 + k - 52) = 0 := Nat.mod_eq_zero_of_dvd hdvd
    have hunit : 0 < 2 ^ (m.log2 + k - 52) := by positivity
    rw [roundedSignificand, hlog, if_neg hk]
    dsimp only
    rw [hr, if_neg (by omega), Nat.div_mul_cancel hdvd]

/-- Integers up to `2 ^ 53` are added exactly. -/
theorem roundScaled_mul_pow {i : ℤ} (hi : i.natAbs ≤ 2 ^ 53) (k : ℕ) :
    roundScaled (i * 2 ^ k) = i * 2 ^ k := by
  have habs : (i * 2 ^ k).natAbs = i.natAbs * 2 ^ k := by
    rw [Int.natAbs_mul, Int.natAbs_pow]
    rfl
  have hpow : (0 : ℤ) < 2 ^ k := by positivity
  rw [roundScaled, habs, roundedNat_mul_pow hi]
  push_cast
  split
  next hneg =>
    have : i < 0 := by
      by_contra hge
      exact absurd hneg (not_lt.mpr (mul_nonneg (not_lt.mp hge) hpow.le))
    rw [abs_of_neg this, neg_mul, neg_neg]
  next hge =>
    have : 0 ≤ i := by
      by_contra hlt
      exact hge (mul_neg_of_neg_of_pos (not_le.mp hlt) hpow)
    rw [abs_of_nonneg this]

end F64

/-! ## All doubles -/

/-- A binary64 number, not a number included. -/
inductive Double where
  | finite (f : F64)
  | infinite (negative : Bool)
  | nan
  deriving DecidableEq

namespace Double

/-- `==` of doubles. The two zeros are equal, and NaN equals nothing. -/
def eq : Double → Double → Bool
  | finite f, finite g => f.scaled = g.scaled
  | infinite m, infinite n => m = n
  | _, _ => false

/-- The negated double, `-f`. -/
def neg : Double → Double
  | finite f => finite f.neg
  | infinite negative => infinite !negative
  | nan => nan

end Double
