import IssunDB.CacheFile

/-!
# What the checksum of a cache file tells apart

Mixing in a word is injective in the state for each word, and in the word for each state, so that a
difference in one word stays a difference up to the end.

* `finish_foldl_update` — the checksum does not depend on how the bytes are cut into chunks;
* `checksumOf_ne` — it tells byte strings apart that differ in one aligned word;
* `sum64_chunks_and_words` — both.
-/

namespace IssunDB

open List

/-- The value of bytes is below the bound of their number. -/
theorem ofLeBytes_lt (bytes : List UInt8) : ofLeBytes bytes < 256 ^ bytes.length := by
  induction bytes with
  | nil => exact Nat.one_pos
  | cons b bytes ih =>
    have hb := b.toNat_lt
    rw [ofLeBytes, length_cons, pow_succ']
    omega

/-- As many bytes with the same value are the same. -/
theorem ofLeBytes_inj {bytes bytes' : List UInt8} (hlen : bytes.length = bytes'.length)
    (h : ofLeBytes bytes = ofLeBytes bytes') : bytes = bytes' := by
  induction bytes generalizing bytes' with
  | nil => exact (length_eq_zero_iff.mp hlen.symm).symm
  | cons b bytes ih =>
    obtain ⟨b', bytes', rfl⟩ := exists_cons_of_length_eq_add_one hlen.symm
    have hb := b.toNat_lt
    have hb' := b'.toNat_lt
    rw [ofLeBytes, ofLeBytes] at h
    have hhead : b = b' := UInt8.toNat_inj.mp (by omega)
    have htail : bytes = bytes' := ih (by simpa using hlen) (by omega)
    rw [hhead, htail]

namespace Sum64

/-! ## The mixing step -/

private lemma xorShift_injective : Function.Injective fun h : UInt64 => h ^^^ (h >>> 32) := by
  -- Shifting twice leaves nothing, so shifting the result once more undoes the step.
  have hinv : ∀ h : UInt64, (h ^^^ (h >>> 32)) ^^^ ((h ^^^ (h >>> 32)) >>> 32) = h := by
    intro h
    have hzero : h >>> 32 >>> 32 = 0 := by
      apply UInt64.toNat_inj.mp
      have hlt := h.toNat_lt
      simp only [UInt64.toNat_shiftRight, Nat.shiftRight_eq_div_pow, UInt64.reduceToNat,
        Nat.reduceMod, Nat.reducePow]
      omega
    rw [UInt64.shiftRight_xor, hzero, UInt64.xor_zero, UInt64.xor_assoc, UInt64.xor_self,
      UInt64.xor_zero]
  intro h h' heq
  change h ^^^ (h >>> 32) = h' ^^^ (h' >>> 32) at heq
  rw [← hinv h, heq, hinv h']

private lemma mul_injective : Function.Injective fun h : UInt64 => h * 0xFF51AFD7ED558CCD := by
  -- The factor is odd, so it has an inverse modulo `2 ^ 64`.
  have hinv : (0xFF51AFD7ED558CCD : UInt64) * 0x4F74430C22A54005 = 1 := by decide
  intro h h' heq
  have hmul := congrArg (· * (0x4F74430C22A54005 : UInt64)) heq
  simpa only [UInt64.mul_assoc, hinv, UInt64.mul_one] using hmul

lemma mix_word_injective (h : UInt64) : Function.Injective (mix h) := by
  intro w w' heq
  have hxor : h ^^^ w = h ^^^ w' := mul_injective (xorShift_injective heq)
  exact UInt64.xor_right_inj h |>.mp hxor

lemma mix_state_injective (w : UInt64) : Function.Injective fun h => mix h w := by
  intro h h' heq
  have hxor : h ^^^ w = h' ^^^ w := mul_injective (xorShift_injective heq)
  exact UInt64.xor_left_inj w |>.mp hxor

lemma word_inj {w w' : List UInt8} (hw : w.length ≤ 8) (hlen : w.length = w'.length)
    (h : word w = word w') : w = w' := by
  have hbound : ∀ v : List UInt8, v.length ≤ 8 → ofLeBytes v < 2 ^ 64 := by
    intro v hv
    have hle : 256 ^ v.length ≤ 256 ^ 8 := Nat.pow_le_pow_right (by decide) hv
    exact (ofLeBytes_lt v).trans_le (hle.trans_eq (by decide))
  apply ofLeBytes_inj hlen
  have hnat := congrArg UInt64.toNat h
  rwa [word, word, UInt64.toNat_ofNat', UInt64.toNat_ofNat', Nat.mod_eq_of_lt (hbound w hw),
    Nat.mod_eq_of_lt (hbound w' (hlen ▸ hw))] at hnat

/-! ## Whole words -/

lemma length_words (h : UInt64) (bytes : List UInt8) :
    (words h bytes).2.length = bytes.length % 8 := by
  fun_induction words h bytes with
  | case1 h b₀ b₁ b₂ b₃ b₄ b₅ b₆ b₇ bytes ih =>
    simp only [ih, length_cons]
    omega
  | case2 h bytes hshort =>
    have hlt := length_words_lt h bytes
    rw [words.eq_2 h bytes hshort] at hlt
    exact (Nat.mod_eq_of_lt hlt).symm

lemma words_state_injective (bytes : List UInt8) {h h' : UInt64}
    (heq : (words h bytes).1 = (words h' bytes).1) : h = h' := by
  fun_induction words h bytes generalizing h' with
  | case1 h b₀ b₁ b₂ b₃ b₄ b₅ b₆ b₇ bytes ih => exact mix_state_injective _ (ih heq)
  | case2 h bytes hshort =>
    rw [words.eq_2 h' bytes hshort] at heq
    exact heq

lemma words_rest (bytes : List UInt8) (h h' : UInt64) :
    (words h bytes).2 = (words h' bytes).2 := by
  fun_induction words h bytes generalizing h' with
  | case1 h b₀ b₁ b₂ b₃ b₄ b₅ b₆ b₇ bytes ih => exact ih _
  | case2 h bytes hshort => rw [words.eq_2 h' bytes hshort]

/-- A whole number of words leaves nothing behind. -/
theorem words_append_of_aligned (h : UInt64) {pre : List UInt8} (hpre : pre.length % 8 = 0)
    (bytes : List UInt8) : words h (pre ++ bytes) = words (words h pre).1 bytes := by
  have hnil : (words h pre).2 = [] := length_eq_zero_iff.mp ((length_words h pre).trans hpre)
  rw [words_append, hnil, nil_append]

/-! ## The checksum -/

/-- The end of the checksum: the bytes held back and the number of all bytes. -/
theorem checksumOf_eq (bytes : List UInt8) :
    checksumOf bytes =
      mix (if 0 < (words new.h bytes).2.length then
          mix (words new.h bytes).1 (word ((words new.h bytes).2 ++
            .replicate (8 - (words new.h bytes).2.length) 0))
        else (words new.h bytes).1) (UInt64.ofNat bytes.length) := by
  rw [checksumOf, update_eq, finish]
  show mix _ (0 + UInt64.ofNat bytes.length) = _
  rw [UInt64.zero_add]
  rfl

/-- Chunks that come one after the other are as good as the whole. -/
theorem foldl_update (s : Sum64) (chunks : List (List UInt8)) (bytes : List UInt8) :
    chunks.foldl update (s.update bytes) = s.update (bytes ++ chunks.flatten) := by
  induction chunks generalizing bytes with
  | nil => rw [flatten_nil, append_nil, foldl_nil]
  | cons chunk chunks ih =>
    rw [foldl_cons, update_append, ih, flatten_cons, append_assoc]

lemma update_nil : new.update [] = new := rfl

/-- **The streaming checksum is the one of the whole, however it is cut into chunks.** -/
theorem finish_foldl_update (chunks : List (List UInt8)) :
    (chunks.foldl update new).finish = checksumOf chunks.flatten := by
  have h := foldl_update new chunks []
  rw [update_nil, nil_append] at h
  rw [h, checksumOf]

end Sum64

/-- The byte strings are of one length and differ in the word at `8 * i` and nowhere else. The last
word may be cut off by the end of the string. -/
structure DifferInWord (i : ℕ) (bytes bytes' : List UInt8) : Prop where
  length : bytes.length = bytes'.length
  before : bytes.take (8 * i) = bytes'.take (8 * i)
  after : bytes.drop (8 * i + 8) = bytes'.drop (8 * i + 8)
  ne : bytes ≠ bytes'

namespace DifferInWord

open Sum64

variable {i : ℕ} {bytes bytes' : List UInt8}

/-- The common part, the two words and the common rest. -/
theorem exists_parts (h : DifferInWord i bytes bytes') :
    ∃ pre w w' rest, bytes = pre ++ (w ++ rest) ∧ bytes' = pre ++ (w' ++ rest) ∧
      pre.length % 8 = 0 ∧ w.length = w'.length ∧ w ≠ w' ∧
      (w.length = 8 ∨ w.length < 8 ∧ rest = []) := by
  have hsplit : ∀ l : List UInt8,
      l = l.take (8 * i) ++ ((l.drop (8 * i)).take 8 ++ l.drop (8 * i + 8)) := by
    intro l
    rw [← drop_drop, take_append_drop, take_append_drop]
  have hlong : 8 * i < bytes.length := by
    -- Otherwise everything lies in front of the word.
    by_contra hshort
    have hbefore := h.before
    rw [take_of_length_le (by omega),
      take_of_length_le (by have := h.length; omega)] at hbefore
    exact h.ne hbefore
  refine ⟨bytes.take (8 * i), (bytes.drop (8 * i)).take 8, (bytes'.drop (8 * i)).take 8,
    bytes.drop (8 * i + 8), hsplit bytes, ?_, ?_, ?_, ?_, ?_⟩
  · rw [h.before, h.after]
    exact hsplit bytes'
  · rw [length_take]
    omega
  · rw [length_take, length_take, length_drop, length_drop, h.length]
  · intro hw
    apply h.ne
    rw [hsplit bytes, hsplit bytes', h.before, hw, h.after]
  · rw [length_take, length_drop]
    rcases Nat.lt_or_ge (bytes.length - 8 * i) 8 with hlt | hge
    · refine .inr ⟨by omega, drop_eq_nil_of_le (by omega)⟩
    · exact .inl (by omega)

/-- **A difference in one word shows in the checksum.** -/
theorem checksumOf_ne (h : DifferInWord i bytes bytes') :
    checksumOf bytes ≠ checksumOf bytes' := by
  obtain ⟨pre, w, w', rest, rfl, rfl, hpre, hlen, hne, hword⟩ := h.exists_parts
  intro heq
  rw [checksumOf_eq, checksumOf_eq, words_append_of_aligned _ hpre,
    words_append_of_aligned _ hpre, ← h.length] at heq
  have hmixed := mix_state_injective _ heq
  set state := (words new.h pre).1
  rcases hword with hfull | ⟨hshort, rfl⟩
  · -- The states differ after the word, and the rest keeps them apart.
    rw [words_word _ hfull, words_word _ (hlen ▸ hfull),
      words_rest rest (mix state (word w')) (mix state (word w))] at hmixed
    have hstates : mix state (word w) = mix state (word w') := by
      split at hmixed
      next => exact words_state_injective rest (mix_state_injective _ hmixed)
      next => exact words_state_injective rest hmixed
    exact hne (word_inj hfull.le hlen (mix_word_injective _ hstates))
  · -- The word is held back and filled up with zeros.
    have hpos : 0 < w.length := by
      refine length_pos_iff.mpr fun hnil => hne ?_
      rw [hnil] at hlen ⊢
      exact (length_eq_zero_iff.mp hlen.symm).symm
    simp only [append_nil] at hmixed
    rw [words_of_length_lt _ hshort, words_of_length_lt _ (hlen ▸ hshort), if_pos hpos,
      if_pos (hlen ▸ hpos)] at hmixed
    have hfilled := word_inj (by simp; omega) (by simp [hlen]) (mix_word_injective _ hmixed)
    exact hne (append_inj_left hfilled hlen)

end DifferInWord

/-- **The checksum is the same however the bytes are cut into chunks, and it detects a change of any
one aligned word.** -/
theorem sum64_chunks_and_words :
    (∀ chunks : List (List UInt8),
      (chunks.foldl Sum64.update .new).finish = checksumOf chunks.flatten) ∧
    ∀ (i : ℕ) (bytes bytes' : List UInt8), DifferInWord i bytes bytes' →
      checksumOf bytes ≠ checksumOf bytes' :=
  ⟨Sum64.finish_foldl_update, fun _ _ _ h => h.checksumOf_ne⟩

/-- Nineteen bytes in three chunks, and the same bytes with a change in the second word. -/
theorem sum64_chunks_and_words_second :
    ([.replicate 5 1, .replicate 12 2, [3, 4]].foldl Sum64.update .new).finish =
      checksumOf (.replicate 5 1 ++ .replicate 12 2 ++ [3, 4]) ∧
    checksumOf (.replicate 5 1 ++ .replicate 12 2 ++ [3, 4]) ≠
      checksumOf (.replicate 5 1 ++ .replicate 4 2 ++ [9] ++ .replicate 7 2 ++ [3, 4]) :=
  ⟨sum64_chunks_and_words.1 [.replicate 5 1, .replicate 12 2, [3, 4]],
    sum64_chunks_and_words.2 1 _ _ ⟨rfl, rfl, rfl, by decide⟩⟩

end IssunDB
