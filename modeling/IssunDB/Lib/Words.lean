import IssunDB.Lib.Bytes
import Mathlib.Data.Nat.ModEq

/-!
# Arrays of machine words in a byte string

A `Word` is a value of a fixed number of bytes, stored least significant byte first. An array of
words is stored as its words one after the other, and read back from a slice.

* `ofBytes_toBytes` — an array is read back from its bytes;
* `slice_append` — a part of a byte string is read back at its offset;
* `align8`, `padded` — parts that start at multiples of eight.
-/

/-- The value of bytes, least significant first. -/
def ofLeBytes : List UInt8 → ℕ
  | [] => 0
  | b :: bytes => b.toNat + 256 * ofLeBytes bytes

lemma ofLeBytes_toLeBytes {w n : ℕ} (hn : n < 256 ^ w) : ofLeBytes (toLeBytes w n) = n := by
  induction w generalizing n with
  | zero =>
    simp only [pow_zero, Nat.lt_one_iff] at hn
    simp [toLeBytes, ofLeBytes, hn]
  | succ w ih =>
    have hdiv : n / 256 < 256 ^ w := Nat.div_lt_of_lt_mul (by rwa [pow_succ'] at hn)
    simp only [toLeBytes, ofLeBytes, ih hdiv, UInt8.toNat_ofNat']
    omega

/-- A type of machine words of `width` bytes. -/
class Word (α : Type) where
  width : ℕ
  toNat : α → ℕ
  ofNat : ℕ → α
  toNat_lt : ∀ a, toNat a < 256 ^ width
  ofNat_toNat : ∀ a, ofNat (toNat a) = a

namespace Word

instance : Word UInt8 where
  width := 1
  toNat := UInt8.toNat
  ofNat := UInt8.ofNat
  toNat_lt a := a.toNat_lt
  ofNat_toNat _ := UInt8.ofNat_toNat

instance : Word UInt32 where
  width := 4
  toNat := UInt32.toNat
  ofNat := UInt32.ofNat
  toNat_lt a := a.toNat_lt
  ofNat_toNat _ := UInt32.ofNat_toNat

instance : Word UInt64 where
  width := 8
  toNat := UInt64.toNat
  ofNat := UInt64.ofNat
  toNat_lt a := a.toNat_lt
  ofNat_toNat _ := UInt64.ofNat_toNat

/-- A signed word is stored as its two's complement. -/
instance : Word Int64 where
  width := 8
  toNat i := i.toUInt64.toNat
  ofNat n := (UInt64.ofNat n).toInt64
  toNat_lt i := i.toUInt64.toNat_lt
  ofNat_toNat i := by rw [UInt64.ofNat_toNat, Int64.toInt64_toUInt64]

variable {α : Type} [Word α]

/-- The bytes of a word, `to_le_bytes`. -/
def bytes (a : α) : List UInt8 := toLeBytes (width α) (toNat a)

@[simp] lemma length_bytes (a : α) : (bytes a).length = width α := length_toLeBytes _ _

def toBytes (as : List α) : List UInt8 := as.flatMap bytes

/-- The array of `n` words that some bytes hold. -/
def ofBytes : ℕ → List UInt8 → List α
  | 0, _ => []
  | n + 1, bs => ofNat (ofLeBytes (bs.take (width α))) :: ofBytes n (bs.drop (width α))

@[simp] lemma toBytes_nil : toBytes ([] : List α) = [] := rfl

@[simp] lemma toBytes_cons (a : α) (as : List α) : toBytes (a :: as) = bytes a ++ toBytes as := rfl

@[simp] lemma length_toBytes (as : List α) : (toBytes as).length = as.length * width α := by
  induction as with
  | nil => simp
  | cons a as ih => rw [toBytes_cons, List.length_append, ih, length_bytes, List.length_cons,
      Nat.succ_mul, Nat.add_comm]

@[simp] lemma length_ofBytes (n : ℕ) (bs : List UInt8) : (ofBytes n bs : List α).length = n := by
  induction n generalizing bs with
  | zero => rfl
  | succ n ih => simp [ofBytes, ih]

lemma ofLeBytes_bytes (a : α) : ofNat (ofLeBytes (bytes a)) = a := by
  rw [bytes, ofLeBytes_toLeBytes (toNat_lt a), ofNat_toNat]

theorem ofBytes_toBytes (as : List α) : ofBytes as.length (toBytes as) = as := by
  induction as with
  | nil => rfl
  | cons a as ih =>
    have htake : (bytes a ++ toBytes as).take (width α) = bytes a := by
      rw [← length_bytes a, List.take_left]
    have hdrop : (bytes a ++ toBytes as).drop (width α) = toBytes as := by
      rw [← length_bytes a, List.drop_left]
    rw [toBytes_cons, List.length_cons, ofBytes, htake, hdrop, ofLeBytes_bytes, ih]

end Word

/-! ## Slices -/

/-- The bytes from `start` to `stop`, if there are that many. -/
def slice (bytes : List UInt8) (start stop : ℕ) : Option (List UInt8) :=
  if start ≤ stop ∧ stop ≤ bytes.length then some ((bytes.drop start).take (stop - start)) else none

/-- A part of a byte string is read back at its offset. -/
theorem slice_append {bytes before s after : List UInt8} {start stop : ℕ}
    (hbytes : bytes = before ++ (s ++ after)) (hstart : start = before.length)
    (hstop : stop = before.length + s.length) : slice bytes start stop = some s := by
  subst hbytes hstart hstop
  have hle : before.length ≤ before.length + s.length ∧
      before.length + s.length ≤ (before ++ (s ++ after)).length := by
    simp only [List.length_append]
    omega
  rw [slice, if_pos hle, List.drop_left, Nat.add_sub_cancel_left, List.take_left]

/-! ## Alignment -/

/-- The next multiple of eight. -/
def align8 (n : ℕ) : ℕ := (n + 7) / 8 * 8

lemma le_align8 (n : ℕ) : n ≤ align8 n := by
  unfold align8
  omega

lemma align8_mod (n : ℕ) : align8 n % 8 = 0 := by
  unfold align8
  omega

lemma align8_add {n : ℕ} (hn : n % 8 = 0) (k : ℕ) : align8 (n + k) = n + align8 k := by
  unfold align8
  omega

/-- The zero bytes from `n` to the next multiple of eight. -/
def padding (n : ℕ) : List UInt8 := .replicate (align8 n - n) 0

@[simp] lemma length_padding (n : ℕ) : (padding n).length = align8 n - n := List.length_replicate

/-! ## Checked arithmetic on 64-bit words -/

/-- `checked_add` on 64-bit words. -/
def checkedAdd (a b : ℕ) : Option ℕ := if a + b < 2 ^ 64 then some (a + b) else none

/-- `checked_mul` on 64-bit words. -/
def checkedMul (a b : ℕ) : Option ℕ := if a * b < 2 ^ 64 then some (a * b) else none

lemma checkedAdd_eq_some {a b c : ℕ} : checkedAdd a b = some c ↔ a + b < 2 ^ 64 ∧ c = a + b := by
  unfold checkedAdd
  split
  next h => exact ⟨fun heq => ⟨h, (Option.some.inj heq).symm⟩, fun heq => heq.2 ▸ rfl⟩
  next h => exact ⟨fun heq => (Option.some_ne_none _ heq.symm).elim, fun heq => (h heq.1).elim⟩

lemma checkedMul_eq_some {a b c : ℕ} : checkedMul a b = some c ↔ a * b < 2 ^ 64 ∧ c = a * b := by
  unfold checkedMul
  split
  next h => exact ⟨fun heq => ⟨h, (Option.some.inj heq).symm⟩, fun heq => heq.2 ▸ rfl⟩
  next h => exact ⟨fun heq => (Option.some_ne_none _ heq.symm).elim, fun heq => (h heq.1).elim⟩

/-! ## Wrapping and saturating operations -/

/-- `u64` addition. -/
def u64Add (a b : ℕ) : ℕ := (a + b) % 2 ^ 64

/-- `u64` multiplication. -/
def u64Mul (a b : ℕ) : ℕ := a * b % 2 ^ 64

/-- `u64` addition that saturates. -/
def u64SaturatingAdd (a b : ℕ) : ℕ := min (a + b) (2 ^ 64 - 1)

lemma u64Add_lt (a b : ℕ) : u64Add a b < 2 ^ 64 := Nat.mod_lt _ (by decide)

lemma u64Add_modEq {a b m n : ℕ} (ha : a ≡ m [MOD 2 ^ 64]) (hb : b ≡ n [MOD 2 ^ 64]) :
    u64Add a b ≡ m + n [MOD 2 ^ 64] := (Nat.mod_modEq _ _).trans (ha.add hb)

/-- A loop whose steps add a value modulo `m` adds the sum of the values. -/
theorem foldl_modEq {α : Type*} {m : ℕ} {l : List α} {f : ℕ → α → ℕ} {g : α → ℕ}
    (h : ∀ total, ∀ x ∈ l, f total x ≡ total + g x [MOD m]) (total : ℕ) :
    l.foldl f total ≡ total + (l.map g).sum [MOD m] := by
  induction l generalizing total with
  | nil => exact Nat.ModEq.refl _
  | cons x l ih =>
    have hrest := ih (fun total y hy => h total y (List.mem_cons_of_mem _ hy)) (f total x)
    have hstep := (h total x List.mem_cons_self).add_right (l.map g).sum
    rw [List.foldl_cons, List.map_cons, List.sum_cons, ← Nat.add_assoc]
    exact hrest.trans hstep
