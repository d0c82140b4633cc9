import IssunDB.Lib.Exec
import IssunDB.Lib.Words

/-!
# Views of a mapped file

A `Mapping` reads a file and may refuse it. It keeps a list of the regions that it has mapped, also
those of a reading that is refused in the end.

`Meets P Q m` says that `m` maps only regions with `P` and that what it returns has `Q`;
`Returns a m` that `m` accepts and returns `a`. Both are proved one bind at a time.
-/

/-- A region of a file: an offset and a number of bytes. -/
structure Region where
  offset : ℕ
  size : ℕ
  deriving DecidableEq

abbrev Mapping (α : Type) : Type := Exec Unit (List Region) α

namespace Mapping

variable {α β : Type}

/-- Go on with a value, or refuse the file. -/
def ofOption : Option α → Mapping α
  | some a => pure a
  | none => Exec.throw ()

/-- Refuse the file unless a check passes. -/
def ensure (p : Bool) : Mapping Unit := ofOption (if p then some () else none)

/-- Map a region. -/
def view (r : Region) : Mapping Unit := Exec.modify (· ++ [r])

/-- Map an array of words. The region has to lie in the file and its offset to be aligned. -/
def mapped (α : Type) [Word α] (file : List UInt8) (offset len : ℕ) : Mapping (List α) := do
  let size ← ofOption (checkedMul len (Word.width α))
  let stop ← ofOption (checkedAdd offset size)
  let bytes ← ofOption (slice file offset stop)
  ensure (offset % Word.width α = 0)
  view ⟨offset, size⟩
  pure (Word.ofBytes len bytes)

/-! ## What every reading keeps to -/

/-- `m` maps only regions with `P`, and what it returns has `Q`. -/
def Meets (P : Region → Prop) (Q : α → Prop) (m : Mapping α) : Prop :=
  ∀ rs, (∀ r ∈ rs, P r) → (∀ r ∈ (m rs).2, P r) ∧ ∀ a, (m rs).1 = .ok a → Q a

variable {P : Region → Prop} {Q : α → Prop} {R : β → Prop}

namespace Meets

lemma pure {a : α} (ha : Q a) : Meets P Q (pure a) := by
  refine fun rs hrs => ⟨hrs, fun a' heq => ?_⟩
  exact Except.ok.inj heq ▸ ha

lemma bind {m : Mapping α} {f : α → Mapping β} (hm : Meets P Q m)
    (hf : ∀ a, Q a → Meets P R (f a)) : Meets P R (m >>= f) := by
  intro rs hrs
  obtain ⟨hmapped, hresult⟩ := hm rs hrs
  rw [Exec.bind_apply]
  rcases h : m rs with ⟨_ | a, rs'⟩
  · rw [h] at hmapped
    exact ⟨hmapped, fun b heq => by cases heq⟩
  · rw [h] at hmapped hresult
    exact hf a (hresult a rfl) rs' hmapped

lemma ofOption {o : Option α} (ho : ∀ a, o = some a → Q a) : Meets P Q (ofOption o) := by
  cases o with
  | none => exact fun rs hrs => ⟨hrs, fun a heq => by cases heq⟩
  | some a => exact pure (ho a rfl)

lemma ensure (p : Bool) : Meets P (fun _ => p = true) (ensure p) := by
  refine ofOption fun _ heq => ?_
  split at heq
  next hp => exact hp
  next => cases heq

lemma view {r : Region} (hr : P r) : Meets P (fun _ => True) (view r) := by
  refine fun rs hrs => ⟨fun r' hr' => ?_, fun _ _ => trivial⟩
  rcases List.mem_append.mp hr' with hmem | hmem
  · exact hrs r' hmem
  · exact List.mem_singleton.mp hmem ▸ hr

/-- An array is mapped where it was asked for, and has as many words. -/
theorem mapped [Word α] {file : List UInt8} {offset len : ℕ}
    (h : P ⟨offset, len * Word.width α⟩) :
    Meets P (fun as => as.length = len) (mapped α file offset len) := by
  refine bind (Q := fun size => size = len * Word.width α) ?_ fun size hsize => ?_
  · exact ofOption fun size heq => (checkedMul_eq_some.mp heq).2
  refine bind (ofOption fun stop heq => trivial) fun stop _ => ?_
  refine bind (ofOption fun bytes heq => trivial) fun bytes _ => ?_
  refine bind (ensure _) fun _ _ => ?_
  refine bind (view (hsize ▸ h)) fun _ _ => ?_
  exact pure (Word.length_ofBytes len bytes)

end Meets

/-! ## What a reading returns -/

/-- `m` accepts and returns `a`. -/
def Returns (a : α) (m : Mapping α) : Prop := ∀ rs, (m rs).1 = .ok a

namespace Returns

lemma pure (a : α) : Returns a (pure a) := fun _ => rfl

lemma bind {m : Mapping α} {f : α → Mapping β} {a : α} {b : β} (hm : Returns a m)
    (hf : Returns b (f a)) : Returns b (m >>= f) := by
  intro rs
  have hresult := hm rs
  rw [Exec.bind_apply]
  rcases h : m rs with ⟨_ | a', rs'⟩
  · rw [h] at hresult
    cases hresult
  · rw [h] at hresult
    obtain rfl := Except.ok.inj hresult
    exact hf rs'

lemma ofOption {o : Option α} {a : α} (ho : o = some a) : Returns a (ofOption o) := by
  subst ho
  exact pure a

lemma ensure {p : Bool} (hp : p = true) : Returns () (ensure p) := ofOption (by rw [if_pos hp])

lemma view (r : Region) : Returns () (view r) := fun _ => rfl

/-- An array is read back where it was written. -/
theorem mapped [Word α] {file before after : List UInt8} {as : List α} {offset len : ℕ}
    (hfile : file = before ++ (Word.toBytes as ++ after)) (hlt : file.length < 2 ^ 64)
    (hoffset : offset = before.length) (hlen : len = as.length)
    (haligned : offset % Word.width α = 0) : Returns as (mapped α file offset len) := by
  have hsize : len * Word.width α = (Word.toBytes as).length := by rw [Word.length_toBytes, hlen]
  have hfits : offset + len * Word.width α ≤ file.length := by
    rw [hfile, hoffset, hsize]
    simp only [List.length_append]
    omega
  refine bind (ofOption (checkedMul_eq_some.mpr ⟨by omega, rfl⟩)) ?_
  refine bind (ofOption (checkedAdd_eq_some.mpr ⟨by omega, rfl⟩)) ?_
  refine bind (ofOption (slice_append hfile hoffset (by rw [hoffset, hsize]))) ?_
  refine bind (ensure (by simpa using haligned)) ?_
  refine bind (view _) ?_
  rw [hlen, Word.ofBytes_toBytes]
  exact pure as

end Returns

end Mapping
