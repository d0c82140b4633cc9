import IssunDB.Json
import IssunDB.Lib.Bytes

/-!
# Sortable encoding of property values

`encodePropertyValue` is the byte string a property value contributes to a property-index key.
A number is a tag, the order-preserving bit pattern of the nearest double and an integer
disambiguator. A value that cannot be part of a key (an array, an object or a long string) has
no encoding.

The main result is `mem_propertyLookupEncodings_iff`: the encodings a unique check probes for a
value are the encodings of exactly the values equal to it, as long as both are encoded exactly.
The exception are integers from `2 ^ 63` on that no double equals, which share the key of the
double they round to, and the number `2 ^ 63` itself, which shares the key of `2 ^ 63 - 1`.
-/

namespace IssunDB

open List Option

abbrev Encoded := List UInt8

def encodedNull : UInt8 := 0x00

def maxIndexedStringLen : ℕ := 480

/-- The bit pattern of a double, reordered so that it sorts as the number does: `!bits` on a
negative number and `bits ^ SORT_SIGN_BIT` on the others. -/
def sortKey (f : F64) : ℕ :=
  if 2 ^ 63 ≤ f.toBits then 2 ^ 64 - 1 - f.toBits else f.toBits + 2 ^ 63

/-- A signed integer reordered to sort as unsigned, `(i as u64) ^ SORT_SIGN_BIT`. -/
def signFlip (i : ℤ) : ℕ := (i + 2 ^ 63).toNat

/-- The cast `f as i64`, which truncates and saturates. -/
def saturatingI64 (f : F64) : ℤ := max (-2 ^ 63) (min f.truncate (2 ^ 63 - 1))

/-- The value is an integer between `i64::MIN as f64` and `i64::MAX as f64`. The upper bound
rounds up to `2 ^ 63`. -/
def inI64Range (f : F64) : Bool :=
  f.isIntegral && decide (-2 ^ 63 * 2 ^ 1074 ≤ f.scaled) && decide (f.scaled ≤ 2 ^ 63 * 2 ^ 1074)

/-- The integer disambiguator of an encoded number. -/
def intDisambig (x : Number) : ℕ :=
  match x.asI64 with
  | some i => signFlip i
  | none => if inI64Range x.asF64 then signFlip (saturatingI64 x.asF64) else 0

def encodeNumber (x : Number) : Encoded :=
  0x03 :: (toBeBytes 8 (sortKey x.asF64) ++ toBeBytes 8 (intDisambig x))

def stringBytes (s : String) : List UInt8 := s.toByteArray.data.toList

/-- The sortable byte representation of a value, if it has one. -/
def encodePropertyValue : Json → Option Encoded
  | .null => some [encodedNull]
  | .bool false => some [0x01]
  | .bool true => some [0x02]
  | .number x => some (encodeNumber x)
  | .string s =>
    if maxIndexedStringLen < (stringBytes s).length then none
    else some (0x04 :: (stringBytes s ++ [0x00]))
  | .array _ => none
  | .object _ => none

/-- The encoding of `0` and `0.0`. -/
def positiveZeroEncoding : Encoded :=
  [3, 128, 0, 0, 0, 0, 0, 0, 0, 128, 0, 0, 0, 0, 0, 0, 0]

/-- The encoding of `-0.0`. -/
def negativeZeroEncoding : Encoded :=
  [3, 127, 255, 255, 255, 255, 255, 255, 255, 128, 0, 0, 0, 0, 0, 0, 0]

def normalizedPropertyEncoding (e : Encoded) : Encoded :=
  if e = negativeZeroEncoding then positiveZeroEncoding else e

/-- The stored encodings that count as equal to `e`. -/
def propertyLookupEncodings (e : Encoded) : List Encoded :=
  if normalizedPropertyEncoding e = positiveZeroEncoding then
    [e, if e = positiveZeroEncoding then negativeZeroEncoding else positiveZeroEncoding]
  else [e]

/-- A stored encoding is probed for a value iff the two agree with the zeros identified. -/
theorem mem_propertyLookupEncodings {e e' : Encoded} :
    e' ∈ propertyLookupEncodings e ↔
      normalizedPropertyEncoding e' = normalizedPropertyEncoding e := by
  have hne : negativeZeroEncoding ≠ positiveZeroEncoding := by decide
  unfold propertyLookupEncodings normalizedPropertyEncoding
  by_cases h1 : e = negativeZeroEncoding
  · subst h1
    by_cases h2 : e' = negativeZeroEncoding <;> simp [h2, hne]
  · by_cases h3 : e = positiveZeroEncoding
    · subst h3
      by_cases h2 : e' = negativeZeroEncoding <;> simp [h2, h1]
    · by_cases h2 : e' = negativeZeroEncoding
      · simp [h1, h3, h2, Ne.symm h1, Ne.symm h3]
      · simp [h1, h3, h2]

/-! ## Numbers -/

lemma sortKey_lt (f : F64) : sortKey f < 256 ^ 8 := by
  have := f.toBits_lt
  unfold sortKey
  split <;> omega

lemma sortKey_inj {f g : F64} : sortKey f = sortKey g ↔ f = g := by
  refine ⟨fun h => F64.toBits_injective ?_, fun h => h ▸ rfl⟩
  have hf := f.toBits_lt
  have hg := g.toBits_lt
  unfold sortKey at h
  split at h <;> split at h <;> omega

lemma signFlip_lt {i : ℤ} (h : i < 2 ^ 63) : signFlip i < 256 ^ 8 := by
  unfold signFlip
  omega

lemma signFlip_inj {i j : ℤ} (hi : -2 ^ 63 ≤ i) (hj : -2 ^ 63 ≤ j) :
    signFlip i = signFlip j ↔ i = j := by
  unfold signFlip
  omega

lemma saturatingI64_bounds (f : F64) : -2 ^ 63 ≤ saturatingI64 f ∧ saturatingI64 f < 2 ^ 63 := by
  unfold saturatingI64
  omega

variable {x : Number} {e : Encoded}

lemma Number.asI64_bounds {i : ℤ} (h : x.asI64 = some i) :
    -2 ^ 63 ≤ i ∧ i < 2 ^ 63 := by
  cases x with
  | posInt n hn =>
    simp only [asI64] at h
    split at h
    · obtain rfl := some.inj h
      omega
    · cases h
  | negInt j hj =>
    obtain rfl := some.inj h
    omega
  | float f => cases h

lemma intDisambig_lt (x : Number) : intDisambig x < 256 ^ 8 := by
  unfold intDisambig
  split
  next i h => exact signFlip_lt (Number.asI64_bounds h).2
  next =>
    split
    · exact signFlip_lt (saturatingI64_bounds _).2
    · omega

/-- Two numbers share an encoding iff they round to one double and share a disambiguator. -/
theorem encodeNumber_inj {x y : Number} :
    encodeNumber x = encodeNumber y ↔ x.asF64 = y.asF64 ∧ intDisambig x = intDisambig y := by
  constructor
  · intro h
    obtain ⟨hkey, hdis⟩ := append_inj (cons_inj_right _ |>.mp h) (by simp)
    exact ⟨sortKey_inj.mp ((toBeBytes_inj (sortKey_lt _) (sortKey_lt _)).mp hkey),
      (toBeBytes_inj (intDisambig_lt _) (intDisambig_lt _)).mp hdis⟩
  · rintro ⟨hf, hd⟩
    rw [encodeNumber, encodeNumber, hf, hd]

/-- The number shares its encoding with no other value: it is not an integer from `2 ^ 63` on
that no double equals, and not `2 ^ 63`. -/
def Number.encodedExactly : Number → Bool
  | posInt n _ => n < 2 ^ 63 || (2 ^ 63 < n && F64.roundedNat n = n)
  | negInt _ _ => true
  | float f => f.scaled ≠ 2 ^ 63 * 2 ^ 1074

/-- The disambiguator as a function of the exact value. -/
def disambigOf (s : ℤ) : ℕ :=
  if s % 2 ^ 1074 = 0 ∧ -2 ^ 63 ≤ s / 2 ^ 1074 ∧ s / 2 ^ 1074 < 2 ^ 63 then
    signFlip (s / 2 ^ 1074)
  else 0

lemma disambigOf_int (i : ℤ) (hlo : -2 ^ 63 ≤ i) (hhi : i < 2 ^ 63) :
    disambigOf (i * 2 ^ 1074) = signFlip i := by
  have hmod : i * 2 ^ 1074 % 2 ^ 1074 = 0 := Int.mul_emod_left _ _
  have hdiv : i * 2 ^ 1074 / 2 ^ 1074 = i := Int.mul_ediv_cancel _ (by positivity)
  rw [disambigOf, hmod, hdiv, if_pos ⟨rfl, hlo, hhi⟩]

private lemma disambigOf_float {f : F64} (h : f.scaled ≠ 2 ^ 63 * 2 ^ 1074) :
    (if inI64Range f then signFlip (saturatingI64 f) else 0) = disambigOf f.scaled := by
  have hpos : (0 : ℤ) < 2 ^ 1074 := by positivity
  by_cases hint : f.scaled % 2 ^ 1074 = 0
  · obtain ⟨k, hk⟩ := Int.dvd_of_emod_eq_zero hint
    rw [mul_comm] at hk
    have hdiv : k * 2 ^ 1074 / 2 ^ 1074 = k := Int.mul_ediv_cancel _ hpos.ne'
    have htr : f.truncate = k := by
      rw [F64.truncate, hk, Int.mul_tdiv_cancel _ hpos.ne']
    have hlow : -2 ^ 63 * 2 ^ 1074 ≤ f.scaled ↔ -2 ^ 63 ≤ k := by
      rw [hk, mul_le_mul_iff_left₀ hpos]
    have hhigh : f.scaled ≤ 2 ^ 63 * 2 ^ 1074 ↔ k ≤ 2 ^ 63 := by
      rw [hk, mul_le_mul_iff_left₀ hpos]
    have hne : k ≠ 2 ^ 63 := by
      rintro rfl
      exact h hk
    have hrange : inI64Range f = true ↔ -2 ^ 63 ≤ k ∧ k < 2 ^ 63 := by
      simp only [inI64Range, F64.isIntegral, hint, hlow, hhigh, decide_true, Bool.true_and,
        Bool.and_eq_true, decide_eq_true_eq]
      omega
    by_cases hin : -2 ^ 63 ≤ k ∧ k < 2 ^ 63
    · have hsat : saturatingI64 f = k := by
        rw [saturatingI64, htr]
        omega
      rw [if_pos (hrange.mpr hin), hsat, hk, disambigOf_int k hin.1 hin.2]
    · rw [if_neg (mt hrange.mp hin), disambigOf, hk, hdiv, if_neg (fun hc => hin hc.2)]
  · have hrange : inI64Range f = false := by
      rw [inI64Range, F64.isIntegral, decide_eq_false hint, Bool.false_and, Bool.false_and]
    rw [if_neg (by simp [hrange]), disambigOf, if_neg (fun hc => hint hc.1)]

private lemma asI64_posInt_of_ge {n : ℕ} (hn : n < 2 ^ 64) (h : ¬ n < 2 ^ 63) :
    (Number.posInt n hn).asI64 = none := if_neg h

lemma encodedExactly_posInt_iff {n : ℕ} (hn : n < 2 ^ 64) :
    (Number.posInt n hn).encodedExactly = true ↔
      n < 2 ^ 63 ∨ 2 ^ 63 < n ∧ F64.roundedNat n = n := by
  simp only [Number.encodedExactly, Bool.or_eq_true, Bool.and_eq_true, decide_eq_true_eq]

private lemma scaled_asF64_of_rounded {n : ℕ} (hn : n < 2 ^ 64) (h : F64.roundedNat n = n) :
    (Number.posInt n hn).asF64.scaled = (Number.posInt n hn).scaled := by
  rw [Number.asF64, F64.scaled_ofNat, h]
  rfl

/-- An exactly encoded number has the disambiguator of its value. -/
theorem intDisambig_eq (hx : x.encodedExactly = true) :
    intDisambig x = disambigOf x.scaled := by
  cases x with
  | posInt n hn =>
    by_cases hlt : n < 2 ^ 63
    · have hi : (Number.posInt n hn).asI64 = some (n : ℤ) := if_pos hlt
      rw [intDisambig, hi, Number.scaled, disambigOf_int n (by omega) (by omega)]
    · obtain ⟨hgt, hround⟩ := ((encodedExactly_posInt_iff hn).mp hx).resolve_left hlt
      have hexact := scaled_asF64_of_rounded hn hround
      have hne : (Number.posInt n hn).asF64.scaled ≠ 2 ^ 63 * 2 ^ 1074 := by
        rw [hexact, Number.scaled]
        intro heq
        have := mul_right_cancel₀ (by positivity) heq
        omega
      rw [intDisambig, asI64_posInt_of_ge hn hlt]
      dsimp only
      rw [disambigOf_float hne, hexact]
  | negInt i hi =>
    rw [intDisambig, show (Number.negInt i hi).asI64 = some i from rfl, Number.scaled,
      disambigOf_int i hi.1 (by omega)]
  | float f =>
    have hne : f.scaled ≠ 2 ^ 63 * 2 ^ 1074 := by
      simpa only [Number.encodedExactly, decide_eq_true_eq] using hx
    exact disambigOf_float hne

/-- A number some double equals is converted to that double. -/
private theorem scaled_asF64_of_float {f : F64} (h : x.scaled = f.scaled) :
    x.asF64.scaled = x.scaled := by
  have habs : f.scaledAbs = x.scaled.natAbs := by rw [h, F64.natAbs_scaled]
  cases x with
  | posInt n hn =>
    have hrep : f.scaledAbs = n * 2 ^ 1074 := by
      rw [habs, Number.scaled, ← Nat.cast_ofNat, ← Nat.cast_pow, ← Nat.cast_mul,
        Int.natAbs_natCast]
    exact F64.scaled_ofNat_of_representable hn hrep
  | negInt i hi =>
    have hrep : f.scaledAbs = i.natAbs * 2 ^ 1074 := by
      rw [habs, Number.scaled, Int.natAbs_mul, ← Nat.cast_ofNat, ← Nat.cast_pow,
        Int.natAbs_natCast]
    have hneg : i = -(i.natAbs : ℤ) := by omega
    rw [Number.asF64, F64.ofInt, if_pos hi.2, F64.scaled_neg,
      F64.scaled_ofNat_of_representable _ hrep, Number.scaled]
    conv_rhs => rw [hneg, neg_mul]
  | float g => rfl

/-- Numbers of one nonzero value round to one double. -/
theorem asF64_eq_of_scaled_eq {x y : Number} (h : x.scaled = y.scaled)
    (h0 : x.scaled ≠ 0) : x.asF64 = y.asF64 := by
  have hpow : (2 : ℤ) ^ 1074 ≠ 0 := by positivity
  -- Against a double both sides are exact; two integers of one value are the same number.
  have hfloat : ∀ {u v : Number} {f : F64}, v = .float f → u.scaled = v.scaled →
      u.scaled ≠ 0 → u.asF64 = v.asF64 := by
    rintro u _ f rfl huv hu
    have hexact := scaled_asF64_of_float huv
    exact F64.eq_of_scaled_eq (hexact.trans huv) (hexact ▸ hu)
  cases y with
  | float f => exact hfloat rfl h h0
  | posInt n hn =>
    cases x with
    | posInt m hm =>
      have hnm : (m : ℤ) = n := mul_right_cancel₀ hpow h
      obtain rfl : m = n := by omega
      rfl
    | negInt i hi =>
      have : i = (n : ℤ) := mul_right_cancel₀ hpow h
      omega
    | float f => exact (hfloat rfl h.symm (h ▸ h0)).symm
  | negInt j hj =>
    cases x with
    | posInt m hm =>
      have : (m : ℤ) = j := mul_right_cancel₀ hpow h
      omega
    | negInt i hi =>
      obtain rfl : i = j := mul_right_cancel₀ hpow h
      rfl
    | float f => exact (hfloat rfl h.symm (h ▸ h0)).symm

/-- An exactly encoded number without a disambiguator is a double. -/
private theorem scaled_asF64_of_disambigOf_eq_zero (hx : x.encodedExactly = true)
    (h : disambigOf x.scaled = 0) : x.asF64.scaled = x.scaled := by
  cases x with
  | posInt n hn =>
    by_cases hlt : n < 2 ^ 63
    · rw [Number.scaled, disambigOf_int n (by omega) (by omega), signFlip] at h
      omega
    · exact scaled_asF64_of_rounded hn (((encodedExactly_posInt_iff hn).mp hx).resolve_left hlt).2
  | negInt i hi =>
    rw [Number.scaled, disambigOf_int i hi.1 (by omega), signFlip] at h
    obtain rfl : i = -2 ^ 63 := by omega
    -- The least integer is a power of two, hence a double.
    have hround : F64.roundedNat (-2 ^ 63 : ℤ).natAbs = 2 ^ 63 := by decide
    rw [Number.asF64, F64.ofInt, if_pos hi.2, F64.scaled_neg, F64.scaled_ofNat, hround,
      Number.scaled]
    norm_num
  | float f => rfl

lemma scaled_eq_of_encodeNumber_eq {x y : Number} (hx : x.encodedExactly = true)
    (hy : y.encodedExactly = true) (h : encodeNumber x = encodeNumber y) :
    x.scaled = y.scaled := by
  obtain ⟨hf, hd⟩ := encodeNumber_inj.mp h
  rw [intDisambig_eq hx, intDisambig_eq hy] at hd
  by_cases h0 : disambigOf x.scaled = 0
  · calc x.scaled = x.asF64.scaled := (scaled_asF64_of_disambigOf_eq_zero hx h0).symm
      _ = y.asF64.scaled := by rw [hf]
      _ = y.scaled := scaled_asF64_of_disambigOf_eq_zero hy (hd ▸ h0)
  · -- Both are integers in range, and the disambiguator determines the integer.
    have hexact : ∀ {s : ℤ}, disambigOf s ≠ 0 →
        s = s / 2 ^ 1074 * 2 ^ 1074 ∧ -2 ^ 63 ≤ s / 2 ^ 1074 ∧
          disambigOf s = signFlip (s / 2 ^ 1074) := by
      intro s hs
      unfold disambigOf at hs ⊢
      split at hs
      next hc =>
        rw [if_pos hc]
        exact ⟨(Int.ediv_mul_cancel (Int.dvd_of_emod_eq_zero hc.1)).symm, hc.2.1, rfl⟩
      next => exact absurd rfl hs
    obtain ⟨hxs, hxlo, hxd⟩ := hexact h0
    obtain ⟨hys, hylo, hyd⟩ := hexact (hd ▸ h0)
    have hdiv : x.scaled / 2 ^ 1074 = y.scaled / 2 ^ 1074 :=
      (signFlip_inj hxlo hylo).mp (by rw [← hxd, ← hyd, hd])
    rw [hxs, hys, hdiv]

lemma encodeNumber_eq_of_scaled_eq {x y : Number} (hx : x.encodedExactly = true)
    (hy : y.encodedExactly = true) (h : x.scaled = y.scaled) (h0 : x.scaled ≠ 0) :
    encodeNumber x = encodeNumber y :=
  encodeNumber_inj.mpr ⟨asF64_eq_of_scaled_eq h h0, by
    rw [intDisambig_eq hx, intDisambig_eq hy, h]⟩

lemma positiveZeroEncoding_eq :
    positiveZeroEncoding = encodeNumber (.posInt 0 (by decide)) := by decide

private lemma encodeNumber_float_zero {f : F64} (h : f.scaled = 0) :
    encodeNumber (.float f) = 0x03 :: (toBeBytes 8 (sortKey f) ++ toBeBytes 8 (2 ^ 63)) := by
  have hexact : (Number.float f).encodedExactly = true := by
    simp [-Int.reducePow, Number.encodedExactly, h]
  have hdisambig : disambigOf 0 = 2 ^ 63 := by
    have hint := disambigOf_int 0 (by decide) (by decide)
    rwa [zero_mul] at hint
  rw [encodeNumber, intDisambig_eq hexact]
  show 0x03 :: (toBeBytes 8 (sortKey f) ++ toBeBytes 8 (disambigOf f.scaled)) = _
  rw [h, hdisambig]

private lemma positiveZeroEncoding_eq_float :
    positiveZeroEncoding = encodeNumber (.float ⟨false, 0, 0, by decide, by decide⟩) := by
  rw [encodeNumber_float_zero ((F64.scaled_eq_zero_iff _).mpr ⟨rfl, rfl⟩)]
  decide

lemma negativeZeroEncoding_eq :
    negativeZeroEncoding = encodeNumber (.float ⟨true, 0, 0, by decide, by decide⟩) := by
  rw [encodeNumber_float_zero ((F64.scaled_eq_zero_iff _).mpr ⟨rfl, rfl⟩)]
  decide

lemma normalized_encodeNumber_zero (h : x.scaled = 0) :
    normalizedPropertyEncoding (encodeNumber x) = positiveZeroEncoding := by
  have hpow : (2 : ℤ) ^ 1074 ≠ 0 := by positivity
  cases x with
  | posInt n hn =>
    obtain rfl : n = 0 := by
      have := (mul_eq_zero.mp h).resolve_right hpow
      omega
    rw [← positiveZeroEncoding_eq]
    decide
  | negInt i hi =>
    have := (mul_eq_zero.mp h).resolve_right hpow
    omega
  | float f =>
    obtain ⟨s, b, m, hb, hm⟩ := f
    obtain ⟨rfl, rfl⟩ := (F64.scaled_eq_zero_iff _).mp h
    cases s
    · rw [← positiveZeroEncoding_eq_float]
      decide
    · rw [← negativeZeroEncoding_eq]
      decide

private lemma normalized_encodeNumber_of_ne (hx : x.encodedExactly = true) (h : x.scaled ≠ 0) :
    normalizedPropertyEncoding (encodeNumber x) = encodeNumber x := by
  rw [normalizedPropertyEncoding, if_neg]
  intro heq
  have hzero : F64.scaled ⟨true, 0, 0, by decide, by decide⟩ = 0 :=
    (F64.scaled_eq_zero_iff _).mpr ⟨rfl, rfl⟩
  rw [negativeZeroEncoding_eq] at heq
  exact h
    ((scaled_eq_of_encodeNumber_eq hx (by simp [-Int.reducePow, Number.encodedExactly, hzero]) heq).trans
      hzero)

lemma normalized_encodeNumber_inj {x y : Number} (hx : x.encodedExactly = true)
    (hy : y.encodedExactly = true) :
    normalizedPropertyEncoding (encodeNumber x) = normalizedPropertyEncoding (encodeNumber y) ↔
      x.scaled = y.scaled := by
  -- The encoding of zero belongs to the value zero only.
  have hzero : ∀ {u : Number}, u.encodedExactly = true → u.scaled ≠ 0 →
      encodeNumber u ≠ positiveZeroEncoding := by
    intro u hu h0 heq
    rw [positiveZeroEncoding_eq] at heq
    exact h0 ((scaled_eq_of_encodeNumber_eq hu (by decide) heq).trans (zero_mul _))
  by_cases hx0 : x.scaled = 0 <;> by_cases hy0 : y.scaled = 0
  · simp [normalized_encodeNumber_zero hx0, normalized_encodeNumber_zero hy0, hx0, hy0]
  · rw [normalized_encodeNumber_zero hx0, normalized_encodeNumber_of_ne hy hy0, hx0]
    simp [Ne.symm hy0, (hzero hy hy0).symm]
  · rw [normalized_encodeNumber_zero hy0, normalized_encodeNumber_of_ne hx hx0, hy0]
    simp [hx0, hzero hx hx0]
  · rw [normalized_encodeNumber_of_ne hx hx0, normalized_encodeNumber_of_ne hy hy0]
    exact ⟨scaled_eq_of_encodeNumber_eq hx hy,
      fun h => encodeNumber_eq_of_scaled_eq hx hy h hx0⟩

/-! ## Values -/

/-- The value is not a number that shares its encoding with another value. -/
def Json.encodedExactly : Json → Bool
  | .number x => x.encodedExactly
  | _ => true

lemma stringBytes_inj {s t : String} : stringBytes s = stringBytes t ↔ s = t := by
  refine ⟨fun h => String.toByteArray_inj.mp (ByteArray.ext ?_), fun h => h ▸ rfl⟩
  exact Array.toList_inj.mp h

def tag : Json → UInt8
  | .null => 0x00
  | .bool false => 0x01
  | .bool true => 0x02
  | .number _ => 0x03
  | .string _ => 0x04
  | .array _ => 0x05
  | .object _ => 0x06

lemma normalized_of_head {b : UInt8} (hb : b ≠ 0x03) :
    normalizedPropertyEncoding (b :: e) = b :: e := by
  rw [normalizedPropertyEncoding, if_neg]
  intro h
  exact hb (cons_eq_cons.mp h).1

lemma encodePropertyValue_string {s : String} (h : encodePropertyValue (.string s) = some e) :
    (stringBytes s).length ≤ maxIndexedStringLen ∧ e = 0x04 :: (stringBytes s ++ [0x00]) := by
  simp only [encodePropertyValue] at h
  split at h
  · cases h
  next hlen => exact ⟨by omega, (some.inj h).symm⟩

lemma head?_normalized {v : Json} (h : encodePropertyValue v = some e) :
    (normalizedPropertyEncoding e).head? = some (tag v) := by
  cases v with
  | null =>
    obtain rfl := some.inj h
    rfl
  | bool b =>
    cases b <;> obtain rfl := some.inj h <;> rfl
  | number x =>
    obtain rfl := some.inj h
    unfold normalizedPropertyEncoding
    split <;> rfl
  | string s =>
    obtain ⟨-, rfl⟩ := encodePropertyValue_string h
    rw [normalized_of_head (by decide)]
    rfl
  | array _ => cases h
  | object _ => cases h

lemma tag_eq_of_sameValue {v w : Json} (h : v.sameValue w) : tag v = tag w := by
  cases v with
  | bool b => cases w with
    | bool c => simp_all [Json.sameValue, Json.eqv]
    | _ => simp [Json.sameValue, Json.eqv] at h
  | _ => cases w <;> simp_all [Json.sameValue, Json.eqv, tag]

theorem mem_propertyLookupEncodings_iff {v w : Json} {e e' : Encoded}
    (hv : encodePropertyValue v = some e) (hw : encodePropertyValue w = some e')
    (hxv : v.encodedExactly = true) (hxw : w.encodedExactly = true) :
    e' ∈ propertyLookupEncodings e ↔ v.sameValue w := by
  rw [mem_propertyLookupEncodings, eq_comm]
  by_cases htag : tag v = tag w
  · cases v with
    | array _ => cases hv
    | object _ => cases hv
    | null =>
      cases w with
      | null => simp [some.inj (hv.symm.trans hw), Json.sameValue, Json.eqv]
      | bool c => cases c <;> exact absurd htag (by decide)
      | _ => exact absurd htag (by simp [tag])
    | bool b =>
      cases w with
      | bool c =>
        obtain rfl : b = c := by cases b <;> cases c <;> simp_all [tag]
        simp [some.inj (hv.symm.trans hw), Json.sameValue, Json.eqv]
      | _ => cases b <;> exact absurd htag (by simp [tag])
    | number x =>
      cases w with
      | number y =>
        obtain rfl := some.inj hv
        obtain rfl := some.inj hw
        rw [normalized_encodeNumber_inj hxv hxw, Json.sameValue, Number.value_eq_iff]
      | bool c => cases c <;> exact absurd htag (by simp [tag])
      | _ => exact absurd htag (by simp [tag])
    | string s =>
      cases w with
      | string t =>
        obtain ⟨-, rfl⟩ := encodePropertyValue_string hv
        obtain ⟨-, rfl⟩ := encodePropertyValue_string hw
        rw [normalized_of_head (by decide), normalized_of_head (by decide)]
        simp [Json.sameValue, Json.eqv, stringBytes_inj]
      | bool c => cases c <;> exact absurd htag (by simp [tag])
      | _ => exact absurd htag (by simp [tag])
  · refine iff_of_false (fun h => htag ?_) (fun h => htag (tag_eq_of_sameValue h))
    exact some.inj ((head?_normalized hv).symm.trans (h ▸ head?_normalized hw))

lemma encodePropertyValue_eq_null {v : Json} :
    encodePropertyValue v = some [encodedNull] ↔ v = .null := by
  constructor
  · intro h
    have htag : tag v = 0x00 := (some.inj (head?_normalized h)).symm
    cases v with
    | null => rfl
    | bool b => cases b <;> exact absurd htag (by decide)
    | _ => exact absurd htag (by simp [tag])
  · rintro rfl
    rfl

end IssunDB
