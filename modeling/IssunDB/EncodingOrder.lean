import IssunDB.Encoding

/-!
# Order of encoded property values

A property index compares encodings byte by byte, so the encoding of numbers has to be numeric
order. On a number it is the pair of the nearest double and the integer disambiguator, compared
in that order. Rounding keeps the order of numbers weakly, and the disambiguator settles the ties
as long as it is the integer itself.

From `2 ^ 63 - 1` on it is not: every number that rounds to `2 ^ 63` has the disambiguator of
`2 ^ 63 - 1`, and a larger one has none. `encodingContract_iff` states that two values violate the
contract of the encoding iff they are different numbers from there on that round to one double.
-/

namespace IssunDB

namespace Number

/-- The exact value of `2 ^ 63 - 1`, the greatest signed integer. -/
def maxSigned : ℤ := (2 ^ 63 - 1) * 2 ^ 1074

private lemma mul_unit_nonneg (n : ℕ) : (0 : ℤ) ≤ n * 2 ^ 1074 :=
  mul_nonneg (Int.natCast_nonneg n) (by positivity)

private lemma scaled_asF64_posInt {n : ℕ} (hn : n < 2 ^ 64) :
    (posInt n hn).asF64.scaled = F64.roundedNat n * 2 ^ 1074 := F64.scaled_ofNat n hn

private lemma scaled_asF64_negInt {i : ℤ} (hi : -2 ^ 63 ≤ i ∧ i < 0) :
    (negInt i hi).asF64.scaled = -(F64.roundedNat i.natAbs * 2 ^ 1074) := by
  rw [asF64, F64.ofInt, if_pos hi.2, F64.scaled_neg, F64.scaled_ofNat]

/-- Rounding an unsigned integer does not pass a double on either side. -/
private theorem posInt_against_float {n : ℕ} (hn : n < 2 ^ 64) (f : F64) :
    ((posInt n hn).scaled ≤ f.scaled → (posInt n hn).asF64.scaled ≤ f.scaled) ∧
      (f.scaled ≤ (posInt n hn).scaled → f.scaled ≤ (posInt n hn).asF64.scaled) := by
  rw [scaled_asF64_posInt, scaled]
  constructor
  · intro h
    have hnonneg : 0 ≤ f.scaled := le_trans (mul_unit_nonneg n) h
    rw [F64.scaled_of_nonneg hnonneg] at h ⊢
    exact_mod_cast F64.roundedNat_le_of_le hn (by exact_mod_cast h)
  · intro h
    rcases le_total f.scaled 0 with hneg | hnonneg
    · exact le_trans hneg (mul_unit_nonneg _)
    · rw [F64.scaled_of_nonneg hnonneg] at h ⊢
      exact_mod_cast F64.le_roundedNat_of_le hn (by exact_mod_cast h)

/-- Rounding a negative integer does not pass a double on either side. -/
private theorem negInt_against_float {i : ℤ} (hi : -2 ^ 63 ≤ i ∧ i < 0) (f : F64) :
    ((negInt i hi).scaled ≤ f.scaled → (negInt i hi).asF64.scaled ≤ f.scaled) ∧
      (f.scaled ≤ (negInt i hi).scaled → f.scaled ≤ (negInt i hi).asF64.scaled) := by
  have hlt : i.natAbs < 2 ^ 64 := by omega
  have habs : (negInt i hi).scaled = -(i.natAbs * 2 ^ 1074 : ℤ) := by
    rw [scaled, ← neg_mul]
    congr 1
    omega
  rw [scaled_asF64_negInt, habs]
  constructor
  · intro h
    rcases le_total f.scaled 0 with hneg | hnonneg
    · rw [F64.scaled_of_nonpos hneg] at h ⊢
      apply neg_le_neg
      exact_mod_cast F64.le_roundedNat_of_le hlt (by exact_mod_cast neg_le_neg_iff.mp h)
    · exact le_trans (neg_nonpos.mpr (mul_unit_nonneg _)) hnonneg
  · intro h
    have hneg : f.scaled ≤ 0 := le_trans h (neg_nonpos.mpr (mul_unit_nonneg _))
    rw [F64.scaled_of_nonpos hneg] at h ⊢
    apply neg_le_neg
    exact_mod_cast F64.roundedNat_le_of_le hlt (by exact_mod_cast neg_le_neg_iff.mp h)

/-- Converting numbers to doubles keeps their order. -/
theorem scaled_asF64_le {x y : Number} (h : x.scaled ≤ y.scaled) :
    x.asF64.scaled ≤ y.asF64.scaled := by
  have hpos : (0 : ℤ) < 2 ^ 1074 := by positivity
  cases x with
  | posInt m hm =>
    cases y with
    | posInt n hn =>
      have hmn : (m : ℤ) ≤ n := le_of_mul_le_mul_right h hpos
      rw [scaled_asF64_posInt, scaled_asF64_posInt]
      apply mul_le_mul_of_nonneg_right _ hpos.le
      exact_mod_cast F64.roundedNat_mono (by omega)
    | negInt j hj =>
      have hmj : (m : ℤ) ≤ j := le_of_mul_le_mul_right h hpos
      omega
    | float g => exact (posInt_against_float hm g).1 h
  | negInt i hi =>
    cases y with
    | posInt n hn =>
      rw [scaled_asF64_negInt, scaled_asF64_posInt]
      exact le_trans (neg_nonpos.mpr (mul_unit_nonneg _)) (mul_unit_nonneg _)
    | negInt j hj =>
      have hij : i ≤ j := le_of_mul_le_mul_right h hpos
      rw [scaled_asF64_negInt, scaled_asF64_negInt]
      apply neg_le_neg
      apply mul_le_mul_of_nonneg_right _ hpos.le
      exact_mod_cast F64.roundedNat_mono (by omega)
    | float g => exact (negInt_against_float hi g).1 h
  | float f =>
    cases y with
    | posInt n hn => exact (posInt_against_float hn f).2 h
    | negInt j hj => exact (negInt_against_float hj f).2 h
    | float g => exact h

/-- Numbers of one value are converted to doubles of one value. -/
theorem scaled_asF64_congr {x y : Number} (h : x.scaled = y.scaled) :
    x.asF64.scaled = y.asF64.scaled :=
  le_antisymm (scaled_asF64_le h.le) (scaled_asF64_le h.ge)

end Number

/-! ## Bytes of a number -/

/-- Reordered bit patterns sort as the doubles do, when no zero is negative. -/
theorem sortKey_lt_iff {f g : F64} (hf : f.scaled = 0 → f.negative = false)
    (hg : g.scaled = 0 → g.negative = false) : sortKey f < sortKey g ↔ f.scaled < g.scaled := by
  have hmag : ∀ f : F64, f.magnitude < 2 ^ 63 := by
    intro f
    have := f.biased_lt
    have := f.fraction_lt
    unfold F64.magnitude
    omega
  have hkey : ∀ f : F64, sortKey f =
      if f.negative then 2 ^ 63 - 1 - f.magnitude else 2 ^ 63 + f.magnitude := by
    intro f
    have := hmag f
    unfold sortKey F64.toBits
    cases f.negative <;> simp only [if_true, if_false, Bool.false_eq_true] <;> split <;> omega
  -- A negative double is below zero.
  have hneg : ∀ {f : F64}, (f.scaled = 0 → f.negative = false) → f.negative = true →
      0 < f.scaledAbs := by
    intro f h0 hn
    have hne : f.scaled ≠ 0 := by
      intro h
      rw [h0 h] at hn
      cases hn
    rw [← F64.natAbs_scaled]
    omega
  have hmf := hmag f
  have hmg := hmag g
  have hlt := F64.scaledAbs_lt_iff (f := f) (g := g)
  have hgt := F64.scaledAbs_lt_iff (f := g) (g := f)
  rw [hkey, hkey]
  unfold F64.scaled
  cases hfn : f.negative <;> cases hgn :
    g.negative <;> simp only [if_true, if_false, Bool.false_eq_true]
  · omega
  · have := hneg hg hgn
    omega
  · have := hneg hf hfn
    omega
  · omega

variable {x y : Number}

/-- Encodings of numbers are compared by the doubles and then by the disambiguators. -/
theorem encodeNumber_lt_iff :
    encodeNumber x < encodeNumber y ↔ sortKey x.asF64 < sortKey y.asF64 ∨
      sortKey x.asF64 = sortKey y.asF64 ∧ intDisambig x < intDisambig y := by
  have hlen : (toBeBytes 8 (sortKey x.asF64)).length = (toBeBytes 8 (sortKey y.asF64)).length := by
    simp
  rw [encodeNumber, encodeNumber, List.cons_lt_cons_iff, append_lt_append_iff hlen,
    toBeBytes_lt (sortKey_lt _) (sortKey_lt _), toBeBytes_inj (sortKey_lt _) (sortKey_lt _),
    toBeBytes_lt (intDisambig_lt _) (intDisambig_lt _)]
  simp

/-- What a number is compared by: the nearest double, then the disambiguator. -/
def numberKey (x : Number) : ℤ ×ₗ ℕ := toLex (x.asF64.scaled, intDisambig x)

/-- The number with the two zeros identified. -/
private def unsignedZero (x : Number) : Number := if x.scaled = 0 then .posInt 0 (by decide) else x

private lemma scaled_asF64_eq_zero {x : Number} (h : x.asF64.scaled = 0) : x.scaled = 0 := by
  have hpos : (0 : ℤ) < 2 ^ 1074 := by positivity
  have hround : ∀ n : ℕ, (F64.roundedNat n : ℤ) * 2 ^ 1074 = 0 → n = 0 := by
    intro n h0
    by_contra hn
    have hzero : (F64.roundedNat n : ℤ) = 0 := (mul_eq_zero.mp h0).resolve_right hpos.ne'
    have hone : F64.roundedNat 1 = 1 := by decide
    have := F64.roundedNat_mono (Nat.one_le_iff_ne_zero.mpr hn)
    omega
  cases x with
  | posInt n hn =>
    rw [Number.scaled_asF64_posInt] at h
    obtain rfl := hround n h
    exact zero_mul _
  | negInt i hi =>
    rw [Number.scaled_asF64_negInt] at h
    have := hround _ (neg_eq_zero.mp h)
    omega
  | float f => exact h

private lemma scaled_unsignedZero (x : Number) : (unsignedZero x).scaled = x.scaled := by
  unfold unsignedZero
  split
  next h =>
    rw [h]
    exact zero_mul _
  next => rfl

private lemma intDisambig_unsignedZero (x : Number) :
    intDisambig (unsignedZero x) = intDisambig x := by
  unfold unsignedZero
  split
  next h =>
    have hx : x.encodedExactly = true := by
      cases x with
      | posInt n hn =>
        have : (n : ℤ) = 0 := (mul_eq_zero.mp h).resolve_right (by positivity)
        obtain rfl : n = 0 := by omega
        rfl
      | negInt i hi => rfl
      | float f =>
        have hpos : (0 : ℤ) < 2 ^ 63 * 2 ^ 1074 := by positivity
        have hf : f.scaled = 0 := h
        exact decide_eq_true (ne_of_eq_of_ne hf hpos.ne)
    have hzero : (Number.posInt 0 (by decide)).encodedExactly = true := by decide
    have hscaled : (Number.posInt 0 (by decide)).scaled = x.scaled := (zero_mul _).trans h.symm
    calc intDisambig (.posInt 0 (by decide)) = disambigOf _ := intDisambig_eq hzero
      _ = disambigOf x.scaled := congrArg disambigOf hscaled
      _ = intDisambig x := (intDisambig_eq hx).symm
  next => rfl

private lemma negative_unsignedZero (x : Number) (h : (unsignedZero x).asF64.scaled = 0) :
    (unsignedZero x).asF64.negative = false := by
  have h0 : x.scaled = 0 := by
    rw [← scaled_unsignedZero]
    exact scaled_asF64_eq_zero h
  rw [unsignedZero, if_pos h0]
  decide

private lemma normalized_encodeNumber (x : Number) :
    normalizedPropertyEncoding (encodeNumber x) = encodeNumber (unsignedZero x) := by
  by_cases h : x.scaled = 0
  · rw [normalized_encodeNumber_zero h, unsignedZero, if_pos h, positiveZeroEncoding_eq]
  · rw [normalizedPropertyEncoding, unsignedZero, if_neg h, if_neg]
    intro heq
    rw [negativeZeroEncoding_eq] at heq
    apply h
    apply scaled_asF64_eq_zero
    rw [(encodeNumber_inj.mp heq).1]
    exact (F64.scaled_eq_zero_iff _).mpr ⟨rfl, rfl⟩

lemma normalized_encodeNumber_eq_iff :
    normalizedPropertyEncoding (encodeNumber x) = normalizedPropertyEncoding (encodeNumber y) ↔
      numberKey x = numberKey y := by
  have hx := Number.scaled_asF64_congr (scaled_unsignedZero x)
  have hy := Number.scaled_asF64_congr (scaled_unsignedZero y)
  rw [normalized_encodeNumber, normalized_encodeNumber, encodeNumber_inj,
    intDisambig_unsignedZero, intDisambig_unsignedZero, numberKey, numberKey, toLex_inj,
    Prod.mk.injEq, ← hx, ← hy]
  refine and_congr_left fun _ => ⟨fun h => h ▸ rfl, fun h => ?_⟩
  rcases eq_or_ne (unsignedZero x).asF64.scaled 0 with h0 | h0
  · -- Both are the one zero.
    have hx0 : x.scaled = 0 := by
      rw [← scaled_unsignedZero]
      exact scaled_asF64_eq_zero h0
    have hy0 : y.scaled = 0 := by
      rw [← scaled_unsignedZero]
      exact scaled_asF64_eq_zero (h ▸ h0)
    rw [unsignedZero, unsignedZero, if_pos hx0, if_pos hy0]
  · exact F64.eq_of_scaled_eq h h0

lemma normalized_encodeNumber_lt_iff :
    normalizedPropertyEncoding (encodeNumber x) < normalizedPropertyEncoding (encodeNumber y) ↔
      numberKey x < numberKey y := by
  have hx := Number.scaled_asF64_congr (scaled_unsignedZero x)
  have hy := Number.scaled_asF64_congr (scaled_unsignedZero y)
  have hlt := sortKey_lt_iff (negative_unsignedZero x) (negative_unsignedZero y)
  have hgt := sortKey_lt_iff (negative_unsignedZero y) (negative_unsignedZero x)
  rw [normalized_encodeNumber, normalized_encodeNumber, encodeNumber_lt_iff,
    intDisambig_unsignedZero, intDisambig_unsignedZero, numberKey, numberKey, Prod.Lex.lt_iff]
  rw [hx, hy] at hlt hgt
  simp only [ofLex_toLex]
  omega

/-! ## Keys from `2 ^ 63 - 1` on -/

private lemma scaled_eq_maxSigned {h : 2 ^ 63 - 1 < 2 ^ 64} :
    (Number.posInt (2 ^ 63 - 1) h).scaled = Number.maxSigned := by
  have hcast : ((2 ^ 63 - 1 : ℕ) : ℤ) = 2 ^ 63 - 1 := by norm_num
  exact congrArg (fun k : ℤ => k * 2 ^ 1074) hcast

private lemma scaled_asF64_maxSigned {h : 2 ^ 63 - 1 < 2 ^ 64} :
    (Number.posInt (2 ^ 63 - 1) h).asF64.scaled = 2 ^ 63 * 2 ^ 1074 := by
  have hround : (F64.roundedNat (2 ^ 63 - 1) : ℤ) = 2 ^ 63 := by decide
  rw [Number.scaled_asF64_posInt]
  exact congrArg (fun k : ℤ => k * 2 ^ 1074) hround

/-- A number from `2 ^ 63 - 1` on rounds to at least `2 ^ 63`. -/
private theorem le_scaled_asF64 {x : Number} (h : Number.maxSigned ≤ x.scaled) :
    2 ^ 63 * 2 ^ 1074 ≤ x.asF64.scaled := by
  rw [← scaled_asF64_maxSigned (h := by decide)]
  exact Number.scaled_asF64_le (scaled_eq_maxSigned.trans_le h)

/-- A smaller number rounds to at most `2 ^ 63`. -/
private theorem scaled_asF64_le_of_lt {x : Number} (h : x.scaled < Number.maxSigned) :
    x.asF64.scaled ≤ 2 ^ 63 * 2 ^ 1074 := by
  rw [← scaled_asF64_maxSigned (h := by decide)]
  exact Number.scaled_asF64_le (h.le.trans scaled_eq_maxSigned.ge)

/-- The sentinel of a double from `2 ^ 63` on: `2 ^ 63` itself passes for a signed integer. -/
private theorem sentinel_of_large {f : F64} (h : 2 ^ 63 * 2 ^ 1074 ≤ f.scaled) :
    (if inI64Range f then signFlip (saturatingI64 f) else 0) =
      if f.scaled = 2 ^ 63 * 2 ^ 1074 then 2 ^ 64 - 1 else 0 := by
  have hpos : (0 : ℤ) < 2 ^ 1074 := by positivity
  have hlow : -2 ^ 63 * 2 ^ 1074 ≤ f.scaled := by
    apply le_trans _ h
    exact mul_le_mul_of_nonneg_right (by norm_num) hpos.le
  by_cases heq : f.scaled = 2 ^ 63 * 2 ^ 1074
  · have hint : f.scaled % 2 ^ 1074 = 0 := by
      rw [heq]
      exact Int.mul_emod_left _ _
    have htrunc : f.truncate = 2 ^ 63 := by
      rw [F64.truncate, heq]
      exact Int.mul_tdiv_cancel _ hpos.ne'
    have hrange : inI64Range f = true := by
      rw [inI64Range, F64.isIntegral, decide_eq_true hint, decide_eq_true hlow,
        decide_eq_true heq.le]
      rfl
    rw [if_pos hrange, if_pos heq, saturatingI64, htrunc]
    decide
  · have hrange : inI64Range f = false := by
      have hgt : ¬ f.scaled ≤ 2 ^ 63 * 2 ^ 1074 := fun hle => heq (le_antisymm hle h)
      rw [inI64Range, decide_eq_false hgt, Bool.and_false]
    rw [if_neg heq, hrange]
    rfl

/-- From `2 ^ 63 - 1` on the disambiguator depends on the double only. -/
theorem intDisambig_of_large {x : Number} (h : Number.maxSigned ≤ x.scaled) :
    intDisambig x = if x.asF64.scaled = 2 ^ 63 * 2 ^ 1074 then 2 ^ 64 - 1 else 0 := by
  have hpos : (0 : ℤ) < 2 ^ 1074 := by positivity
  have hlarge := le_scaled_asF64 h
  cases x with
  | posInt n hn =>
    have hle : (2 ^ 63 - 1 : ℤ) ≤ n := le_of_mul_le_mul_right h hpos
    by_cases hlt : n < 2 ^ 63
    · obtain rfl : n = 2 ^ 63 - 1 := by omega
      have hsigned : (Number.posInt (2 ^ 63 - 1) hn).asI64 = some (2 ^ 63 - 1) := by
        rw [Number.asI64, if_pos hlt]
        norm_num
      rw [scaled_asF64_maxSigned, if_pos rfl, intDisambig, hsigned]
      show signFlip (2 ^ 63 - 1) = 2 ^ 64 - 1
      decide
    · rw [intDisambig, show (Number.posInt n hn).asI64 = none from if_neg hlt]
      exact sentinel_of_large hlarge
  | negInt i hi =>
    have hle : (2 ^ 63 - 1 : ℤ) ≤ i := le_of_mul_le_mul_right h hpos
    omega
  | float f => exact sentinel_of_large hlarge

/-- The value a key stands for: the number itself below `2 ^ 63 - 1`, and the double it rounds to
from there on. -/
def keyValue (x : Number) : ℤ := if x.scaled < Number.maxSigned then x.scaled else x.asF64.scaled

/-- A number below `2 ^ 63 - 1` is encoded exactly. -/
private theorem encodedExactly_of_lt {x : Number} (h : x.scaled < Number.maxSigned) :
    x.encodedExactly = true := by
  have hpos : (0 : ℤ) < 2 ^ 1074 := by positivity
  cases x with
  | posInt n hn =>
    have hlt : (n : ℤ) < 2 ^ 63 - 1 := lt_of_mul_lt_mul_right h hpos.le
    have hlt' : n < 2 ^ 63 := by omega
    exact (encodedExactly_posInt_iff hn).mpr (Or.inl hlt')
  | negInt i hi => rfl
  | float f =>
    have hlt : f.scaled < 2 ^ 63 * 2 ^ 1074 := by
      apply lt_of_lt_of_le h
      exact mul_le_mul_of_nonneg_right (by norm_num) hpos.le
    exact decide_eq_true hlt.ne

private lemma exists_int_of_rounded {x : Number} (h : x.scaled < Number.maxSigned)
    (hne : x.scaled ≠ x.asF64.scaled) :
    ∃ i r : ℤ, x.scaled = i * 2 ^ 1074 ∧ x.asF64.scaled = r * 2 ^ 1074 ∧ -2 ^ 63 ≤ i ∧
      -2 ^ 63 ≤ r := by
  have hpos : (0 : ℤ) < 2 ^ 1074 := by positivity
  cases x with
  | posInt n hn =>
    exact ⟨n, F64.roundedNat n, rfl, Number.scaled_asF64_posInt hn, by omega, by omega⟩
  | negInt i hi =>
    have hbound : F64.roundedNat i.natAbs ≤ 2 ^ 63 := F64.roundedNat_le (by omega)
    refine ⟨i, -F64.roundedNat i.natAbs, rfl, ?_, hi.1, by omega⟩
    rw [Number.scaled_asF64_negInt, neg_mul]
  | float f => exact absurd rfl hne

/-- Of two numbers below `2 ^ 63 - 1` that round to one double, the smaller has the smaller
disambiguator. -/
private theorem intDisambig_lt_of_lt (hx : x.scaled < Number.maxSigned)
    (hy : y.scaled < Number.maxSigned) (hf : x.asF64.scaled = y.asF64.scaled)
    (h : x.scaled < y.scaled) : intDisambig x < intDisambig y := by
  have hpos : (0 : ℤ) < 2 ^ 1074 := by positivity
  -- One of the two is not that double, so the double is an integer, and both numbers are.
  obtain ⟨r, hr, hlow⟩ : ∃ r : ℤ, x.asF64.scaled = r * 2 ^ 1074 ∧ -2 ^ 63 ≤ r := by
    by_cases hxf : x.scaled = x.asF64.scaled
    · have hyf : y.scaled ≠ y.asF64.scaled := by
        rw [← hf, ← hxf]
        exact h.ne'
      obtain ⟨-, r, -, hr, -, hlow⟩ := exists_int_of_rounded hy hyf
      exact ⟨r, hf.trans hr, hlow⟩
    · obtain ⟨-, r, -, hr, -, hlow⟩ := exists_int_of_rounded hx hxf
      exact ⟨r, hr, hlow⟩
  have hint : ∀ {z : Number}, z.scaled < Number.maxSigned → z.asF64.scaled = r * 2 ^ 1074 →
      ∃ i : ℤ, z.scaled = i * 2 ^ 1074 ∧ -2 ^ 63 ≤ i := by
    intro z hz hzr
    by_cases hzf : z.scaled = z.asF64.scaled
    · exact ⟨r, hzf.trans hzr, hlow⟩
    · obtain ⟨i, -, hi, -, hilow, -⟩ := exists_int_of_rounded hz hzf
      exact ⟨i, hi, hilow⟩
  have hdisambig : ∀ {z : Number} {i : ℤ}, z.scaled < Number.maxSigned →
      z.scaled = i * 2 ^ 1074 → -2 ^ 63 ≤ i → intDisambig z = signFlip i := by
    intro z i hz hi hilow
    have hhigh : i < 2 ^ 63 - 1 := lt_of_mul_lt_mul_right (hi ▸ hz) hpos.le
    rw [intDisambig_eq (encodedExactly_of_lt hz), hi, disambigOf_int i hilow (by omega)]
  obtain ⟨i, hi, hilow⟩ := hint hx hr
  obtain ⟨j, hj, hjlow⟩ := hint hy (hf.symm.trans hr)
  have hij : i < j := by
    rw [hi, hj] at h
    exact lt_of_mul_lt_mul_right h hpos.le
  rw [hdisambig hx hi hilow, hdisambig hy hj hjlow, signFlip, signFlip]
  omega

/-- A number below `2 ^ 63 - 1` that rounds to `2 ^ 63` has a smaller disambiguator than the
numbers above. -/
private theorem intDisambig_lt_of_large (hx : x.scaled < Number.maxSigned)
    (hy : Number.maxSigned ≤ y.scaled) (hf : x.asF64.scaled = y.asF64.scaled) :
    intDisambig x < intDisambig y := by
  have hpos : (0 : ℤ) < 2 ^ 1074 := by positivity
  have htop : x.asF64.scaled = 2 ^ 63 * 2 ^ 1074 :=
    le_antisymm (scaled_asF64_le_of_lt hx) (hf ▸ le_scaled_asF64 hy)
  have hxf : x.scaled ≠ x.asF64.scaled := by
    rw [htop]
    apply ne_of_lt
    apply lt_of_lt_of_le hx
    exact mul_le_mul_of_nonneg_right (by norm_num) hpos.le
  obtain ⟨i, -, hi, -, hilow, -⟩ := exists_int_of_rounded hx hxf
  have hhigh : i < 2 ^ 63 - 1 := lt_of_mul_lt_mul_right (hi ▸ hx) hpos.le
  rw [intDisambig_of_large hy, ← hf, if_pos htop, intDisambig_eq (encodedExactly_of_lt hx), hi,
    disambigOf_int i hilow (by omega), signFlip]
  omega

private lemma maxSigned_le : Number.maxSigned ≤ 2 ^ 63 * 2 ^ 1074 :=
  mul_le_mul_of_nonneg_right (by norm_num) (by positivity)

lemma numberKey_lt_of_keyValue_lt (h : keyValue x < keyValue y) :
    numberKey x < numberKey y := by
  rw [numberKey, numberKey, Prod.Lex.lt_iff]
  simp only [ofLex_toLex]
  by_contra hkey
  have hle : y.asF64.scaled ≤ x.asF64.scaled := not_lt.mp fun hlt => hkey (Or.inl hlt)
  have hdis : x.asF64.scaled = y.asF64.scaled → ¬ intDisambig x < intDisambig y :=
    fun heq hlt => hkey (Or.inr ⟨heq, hlt⟩)
  unfold keyValue at h
  by_cases hx : x.scaled < Number.maxSigned <;> by_cases hy : y.scaled < Number.maxSigned
  · rw [if_pos hx, if_pos hy] at h
    have heq := le_antisymm (Number.scaled_asF64_le h.le) hle
    exact hdis heq (intDisambig_lt_of_lt hx hy heq h)
  · have hlarge := not_lt.mp hy
    have heq := le_antisymm (Number.scaled_asF64_le (hx.le.trans hlarge)) hle
    exact hdis heq (intDisambig_lt_of_large hx hlarge heq)
  · rw [if_neg hx, if_pos hy] at h
    have hyx := (hy.le.trans maxSigned_le).trans (le_scaled_asF64 (not_lt.mp hx))
    exact absurd h hyx.not_gt
  · rw [if_neg hx, if_neg hy] at h
    exact absurd h hle.not_gt

lemma numberKey_eq_of_keyValue_eq (h : keyValue x = keyValue y) :
    numberKey x = numberKey y := by
  rw [numberKey, numberKey, toLex_inj, Prod.mk.injEq]
  unfold keyValue at h
  by_cases hx : x.scaled < Number.maxSigned <;> by_cases hy : y.scaled < Number.maxSigned
  · rw [if_pos hx, if_pos hy] at h
    refine ⟨Number.scaled_asF64_congr h, ?_⟩
    rw [intDisambig_eq (encodedExactly_of_lt hx), intDisambig_eq (encodedExactly_of_lt hy), h]
  · rw [if_pos hx, if_neg hy] at h
    exact absurd h (hx.trans_le (maxSigned_le.trans (le_scaled_asF64 (not_lt.mp hy)))).ne
  · rw [if_neg hx, if_pos hy] at h
    exact absurd h (hy.trans_le (maxSigned_le.trans (le_scaled_asF64 (not_lt.mp hx)))).ne'
  · rw [if_neg hx, if_neg hy] at h
    refine ⟨h, ?_⟩
    rw [intDisambig_of_large (not_lt.mp hx), intDisambig_of_large (not_lt.mp hy), h]

lemma numberKey_lt_iff : numberKey x < numberKey y ↔ keyValue x < keyValue y := by
  refine ⟨fun h => ?_, numberKey_lt_of_keyValue_lt⟩
  rcases lt_trichotomy (keyValue x) (keyValue y) with hlt | heq | hgt
  · exact hlt
  · exact absurd h (numberKey_eq_of_keyValue_eq heq).not_lt
  · exact absurd h (numberKey_lt_of_keyValue_lt hgt).not_gt

lemma numberKey_eq_iff : numberKey x = numberKey y ↔ keyValue x = keyValue y := by
  refine ⟨fun h => ?_, numberKey_eq_of_keyValue_eq⟩
  rcases lt_trichotomy (keyValue x) (keyValue y) with hlt | heq | hgt
  · exact absurd h (numberKey_lt_of_keyValue_lt hlt).ne
  · exact heq
  · exact absurd h (numberKey_lt_of_keyValue_lt hgt).ne'

/-! ## The contract of the encoding -/

/-- The two numbers are different, from `2 ^ 63 - 1` on, and round to one double. -/
def Number.RoundTogether (x y : Number) : Prop :=
  Number.maxSigned ≤ x.scaled ∧ Number.maxSigned ≤ y.scaled ∧ x.scaled ≠ y.scaled ∧
    x.asF64 = y.asF64

lemma Number.RoundTogether.symm (h : x.RoundTogether y) : y.RoundTogether x :=
  ⟨h.2.1, h.1, h.2.2.1.symm, h.2.2.2.symm⟩

lemma keyValue_lt (h : x.scaled < y.scaled) (hnot : ¬ x.RoundTogether y) :
    keyValue x < keyValue y := by
  unfold keyValue
  by_cases hx : x.scaled < Number.maxSigned <;> by_cases hy : y.scaled < Number.maxSigned
  · rwa [if_pos hx, if_pos hy]
  · rw [if_pos hx, if_neg hy]
    exact hx.trans_le (maxSigned_le.trans (le_scaled_asF64 (not_lt.mp hy)))
  · exact absurd (h.trans hy) hx
  · rw [if_neg hx, if_neg hy]
    apply lt_of_le_of_ne (Number.scaled_asF64_le h.le)
    intro heq
    apply hnot
    refine ⟨not_lt.mp hx, not_lt.mp hy, h.ne, F64.eq_of_scaled_eq heq ?_⟩
    have hpos : (0 : ℤ) < 2 ^ 63 * 2 ^ 1074 := by positivity
    exact (hpos.trans_le (le_scaled_asF64 (not_lt.mp hx))).ne'

lemma keyValue_congr (h : x.scaled = y.scaled) : keyValue x = keyValue y := by
  rw [keyValue, keyValue, h, Number.scaled_asF64_congr h]

lemma keyValue_iff :
    ((keyValue x = keyValue y ↔ x.scaled = y.scaled) ∧
      (keyValue x < keyValue y ↔ x.scaled < y.scaled)) ↔ ¬ x.RoundTogether y := by
  constructor
  · rintro ⟨heq, -⟩ ⟨hx, hy, hne, hround⟩
    apply hne
    apply heq.mp
    rw [keyValue, keyValue, if_neg hx.not_gt, if_neg hy.not_gt, hround]
  · intro hnot
    have hnot' : ¬ y.RoundTogether x := fun h => hnot h.symm
    rcases lt_trichotomy x.scaled y.scaled with hlt | heq | hgt
    · have hkey := keyValue_lt hlt hnot
      exact ⟨iff_of_false hkey.ne hlt.ne, iff_of_true hkey hlt⟩
    · have hkey := keyValue_congr heq
      exact ⟨iff_of_true hkey heq, iff_of_false hkey.not_lt heq.not_lt⟩
    · have hkey := keyValue_lt hgt hnot'
      exact ⟨iff_of_false hkey.ne' hgt.ne', iff_of_false hkey.not_gt hgt.not_gt⟩

lemma Number.value_lt_iff : x.value < y.value ↔ x.scaled < y.scaled := by
  rw [Number.value, Number.value, div_lt_div_iff_of_pos_right (by positivity)]
  exact Int.cast_lt

/-- What a property index relies on for two values: their normalized encodings are equal iff the
values are, and on numbers they are ordered as the values. -/
def EncodingContract (v w : Json) : Prop :=
  ∀ e e', encodePropertyValue v = some e → encodePropertyValue w = some e' →
    (normalizedPropertyEncoding e = normalizedPropertyEncoding e' ↔ v.sameValue w) ∧
      ∀ x y, v = .number x → w = .number y →
        (normalizedPropertyEncoding e < normalizedPropertyEncoding e' ↔ x.value < y.value)

def Json.RoundTogether (v w : Json) : Prop :=
  ∃ x y, v = .number x ∧ w = .number y ∧ x.RoundTogether y

lemma encodingContract_number :
    EncodingContract (.number x) (.number y) ↔ ¬ x.RoundTogether y := by
  rw [← keyValue_iff, ← numberKey_eq_iff, ← numberKey_lt_iff, ← normalized_encodeNumber_eq_iff,
    ← normalized_encodeNumber_lt_iff, ← Number.value_eq_iff, ← Number.value_lt_iff]
  constructor
  · intro h
    obtain ⟨heq, hlt⟩ := h _ _ rfl rfl
    exact ⟨heq, hlt x y rfl rfl⟩
  · rintro ⟨heq, hlt⟩ e e' he he'
    obtain rfl := Option.some.inj he
    obtain rfl := Option.some.inj he'
    refine ⟨heq, ?_⟩
    rintro x' y' hx hy
    obtain rfl := Json.number.inj hx
    obtain rfl := Json.number.inj hy
    exact hlt

private lemma exists_number_of_tag {v : Json} (h : tag v = 0x03) : ∃ x, v = .number x := by
  cases v with
  | number x => exact ⟨x, rfl⟩
  | bool b => cases b <;> exact absurd h (by decide)
  | _ => exact absurd h (by simp [tag])

private lemma encodedExactly_of_tag {v : Json} (h : tag v ≠ 0x03) : v.encodedExactly = true := by
  cases v with
  | number x => exact absurd rfl h
  | _ => rfl

lemma normalized_eq_iff_of_not_numbers {v w : Json} {e e' : Encoded}
    (hv : encodePropertyValue v = some e) (hw : encodePropertyValue w = some e')
    (h : ∀ x y, v = .number x → w ≠ .number y) :
    normalizedPropertyEncoding e = normalizedPropertyEncoding e' ↔ v.sameValue w := by
  by_cases htag : tag v = tag w
  · -- With one tag neither is a number, and all other values are encoded exactly.
    have hnot : tag v ≠ 0x03 := by
      intro h3
      obtain ⟨x, hx⟩ := exists_number_of_tag h3
      obtain ⟨y, hy⟩ := exists_number_of_tag (htag ▸ h3)
      exact h x y hx hy
    have hexact := And.intro (encodedExactly_of_tag hnot) (encodedExactly_of_tag (htag ▸ hnot))
    rw [← mem_propertyLookupEncodings_iff hv hw hexact.1 hexact.2, mem_propertyLookupEncodings,
      eq_comm]
  · refine iff_of_false (fun heq => htag ?_) (fun hsame => htag (tag_eq_of_sameValue hsame))
    exact Option.some.inj ((head?_normalized hv).symm.trans (heq ▸ head?_normalized hw))

/-- Two values meet the contract of the encoding iff they do not round together. -/
theorem encodingContract_iff (v w : Json) : EncodingContract v w ↔ ¬ v.RoundTogether w := by
  by_cases h : ∃ x y, v = .number x ∧ w = .number y
  · obtain ⟨x, y, rfl, rfl⟩ := h
    rw [encodingContract_number, not_iff_not]
    constructor
    · exact fun hround => ⟨x, y, rfl, rfl, hround⟩
    · rintro ⟨x', y', hx, hy, hround⟩
      obtain rfl := Json.number.inj hx
      obtain rfl := Json.number.inj hy
      exact hround
  · refine iff_of_true (fun e e' hv hw => ?_) ?_
    · refine ⟨normalized_eq_iff_of_not_numbers hv hw fun x y hx hy => h ⟨x, y, hx, hy⟩, ?_⟩
      exact fun x y hx hy => absurd ⟨x, y, hx, hy⟩ h
    · rintro ⟨x, y, hx, hy, -⟩
      exact h ⟨x, y, hx, hy⟩

/-- The integers `2 ^ 63` and `2 ^ 63 + 1` share an encoding. -/
theorem encodingContract_two_pow_63 :
    ¬ EncodingContract (.number (.posInt (2 ^ 63) (by decide)))
      (.number (.posInt (2 ^ 63 + 1) (by decide))) := by
  intro h
  have hshared : encodeNumber (.posInt (2 ^ 63) (by decide)) =
      encodeNumber (.posInt (2 ^ 63 + 1) (by decide)) := by decide +kernel
  obtain ⟨heq, -⟩ := h _ _ rfl rfl
  have hvalue := Number.value_eq_iff.mp (heq.mp (congrArg _ hshared))
  have hpos : (2 : ℤ) ^ 1074 ≠ 0 := by positivity
  have := mul_right_cancel₀ hpos hvalue
  omega

end IssunDB
