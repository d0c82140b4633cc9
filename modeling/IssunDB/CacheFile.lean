import IssunDB.Columns
import IssunDB.Lib.Mapping

/-!
# The cache file of the adjacency snapshot

The arrays of a snapshot are written one after the other behind a header and are followed by a
checksum. A later process maps the file and points the arrays of its snapshot into it, so the
lengths of the header decide where every array lies.

* `Sum64` — the checksum, `Sum64.update_append`;
* `SumWriter` — a writer that keeps the checksum of what it wrote;
* `saveCsr`, `loadCsr` — writing and mapping a snapshot;
* `returns_loadCsr` — a saved snapshot is read back;
* `meets_loadCsr` — an array of a file that is accepted or not lies in front of the checksum.
-/

namespace IssunDB

open List Option

/-! ## The checksum -/

/-- The checksum of the bytes so far. Less than a word of them is held back. -/
structure Sum64 where
  h : UInt64
  buf : List UInt8
  total : UInt64
  buf_lt : buf.length < 8

namespace Sum64

/-- The checksum of no bytes. -/
def new : Sum64 := ⟨0x9E3779B97F4A7C15, [], 0, by decide⟩

def mix (h word : UInt64) : UInt64 :=
  let h := (h ^^^ word) * 0xFF51AFD7ED558CCD
  h ^^^ (h >>> 32)

/-- The word of some bytes, `from_le_bytes`. -/
def word (bytes : List UInt8) : UInt64 := UInt64.ofNat (ofLeBytes bytes)

/-- Mix in the whole words of some bytes. What remains is returned. -/
def words (h : UInt64) : List UInt8 → UInt64 × List UInt8
  | b₀ :: b₁ :: b₂ :: b₃ :: b₄ :: b₅ :: b₆ :: b₇ :: bytes =>
    words (mix h (word [b₀, b₁, b₂, b₃, b₄, b₅, b₆, b₇])) bytes
  | bytes => (h, bytes)

lemma words_of_length_lt (h : UInt64) {bytes : List UInt8} (hlt : bytes.length < 8) :
    words h bytes = (h, bytes) := by
  unfold words
  split
  next =>
    simp only [length_cons] at hlt
    omega
  next => rfl

lemma words_word (h : UInt64) {w : List UInt8} (hw : w.length = 8) (bytes : List UInt8) :
    words h (w ++ bytes) = words (mix h (word w)) bytes := by
  match w, hw with
  | [b₀, b₁, b₂, b₃, b₄, b₅, b₆, b₇], _ => rfl

lemma length_words_lt (h : UInt64) (bytes : List UInt8) : (words h bytes).2.length < 8 := by
  fun_induction words h bytes with
  | case1 h b₀ b₁ b₂ b₃ b₄ b₅ b₆ b₇ bytes ih => exact ih
  | case2 h bytes hshort =>
    -- eight bytes or more would be a whole word
    by_contra hge
    match bytes, hshort, hge with
    | b₀ :: b₁ :: b₂ :: b₃ :: b₄ :: b₅ :: b₆ :: b₇ :: bytes, hshort, _ =>
      exact hshort b₀ b₁ b₂ b₃ b₄ b₅ b₆ b₇ bytes rfl
    | [], _, hge | [_], _, hge | [_, _], _, hge | [_, _, _], _, hge | [_, _, _, _], _, hge
    | [_, _, _, _, _], _, hge | [_, _, _, _, _, _], _, hge | [_, _, _, _, _, _, _], _, hge =>
      simp at hge

/-- Words are mixed in the same way whether the bytes come at once or in two parts. -/
theorem words_append (h : UInt64) (bytes more : List UInt8) :
    words h (bytes ++ more) = words (words h bytes).1 ((words h bytes).2 ++ more) := by
  fun_induction words h bytes with
  | case1 h b₀ b₁ b₂ b₃ b₄ b₅ b₆ b₇ bytes ih => exact ih
  | case2 h bytes hshort => rfl

/-- Mix in some bytes. -/
def update (s : Sum64) (bytes : List UInt8) : Sum64 :=
  let total := s.total + UInt64.ofNat bytes.length
  if 0 < s.buf.length then
    -- fill up the word that was held back first
    let take := min (8 - s.buf.length) bytes.length
    let buf := s.buf ++ bytes.take take
    let bytes := bytes.drop take
    if hlt : buf.length < 8 then ⟨s.h, buf, total, hlt⟩
    else
      let h := mix s.h (word buf)
      ⟨(words h bytes).1, (words h bytes).2, total, length_words_lt h bytes⟩
  else ⟨(words s.h bytes).1, (words s.h bytes).2, total, length_words_lt s.h bytes⟩

/-- The checksum. The bytes held back are mixed in with zeros after them. -/
def finish (s : Sum64) : UInt64 :=
  let h := if 0 < s.buf.length then
      mix s.h (word (s.buf ++ .replicate (8 - s.buf.length) 0))
    else s.h
  mix h s.total

/-- However the words are cut, the bytes held back come in front of the new ones. -/
theorem update_eq (s : Sum64) (bytes : List UInt8) :
    s.update bytes = ⟨(words s.h (s.buf ++ bytes)).1, (words s.h (s.buf ++ bytes)).2,
      s.total + UInt64.ofNat bytes.length, length_words_lt _ _⟩ := by
  have hbuf := s.buf_lt
  unfold update
  dsimp only
  split
  next hpos =>
    split
    next hlt =>
      -- all of the new bytes are held back
      have hall : bytes.take (min (8 - s.buf.length) bytes.length) = bytes := by
        apply take_of_length_le
        simp only [length_append, length_take] at hlt
        omega
      rw [hall] at hlt
      simp only [hall, words_of_length_lt _ hlt]
    next hge =>
      have htake : min (8 - s.buf.length) bytes.length = 8 - s.buf.length := by
        simp only [length_append, length_take] at hge
        omega
      have hword : (s.buf ++ bytes.take (8 - s.buf.length)).length = 8 := by
        simp only [length_append, length_take]
        omega
      have hwords : words s.h (s.buf ++ bytes) =
          words (mix s.h (word (s.buf ++ bytes.take (8 - s.buf.length))))
            (bytes.drop (8 - s.buf.length)) := by
        rw [← words_word s.h hword, append_assoc, take_append_drop]
      simp only [htake, hwords]
  next hpos =>
    have hnil : s.buf = [] := length_eq_zero_iff.mp (by omega)
    simp only [hnil, nil_append]

/-- The checksum does not depend on how the bytes are cut into writes. -/
theorem update_append (s : Sum64) (bytes more : List UInt8) :
    (s.update bytes).update more = s.update (bytes ++ more) := by
  simp only [update_eq, ← append_assoc, words_append s.h (s.buf ++ bytes) more,
    length_append, UInt64.ofNat_add, UInt64.add_assoc]

end Sum64

/-- The checksum of some bytes in one pass. -/
def checksumOf (bytes : List UInt8) : UInt64 := (Sum64.new.update bytes).finish

/-! ## The writer -/

/-- A writer that keeps the checksum of what it wrote. -/
structure SumWriter where
  inner : List UInt8
  sum : Sum64
  sum_eq : sum = Sum64.new.update inner

namespace SumWriter

def new : SumWriter := ⟨[], Sum64.new.update [], rfl⟩

/-- Write some bytes. -/
def put (w : SumWriter) (bytes : List UInt8) : SumWriter :=
  ⟨w.inner ++ bytes, w.sum.update bytes, by rw [w.sum_eq, Sum64.update_append]⟩

/-- Write an array of words, one at a time. -/
def putAll {α : Type} [Word α] (w : SumWriter) (as : List α) : SumWriter :=
  as.foldl (fun w a => w.put (Word.bytes a)) w

/-- Write zeros up to the next multiple of eight after `written` bytes. -/
def padTo8 (w : SumWriter) (written : ℕ) : SumWriter := w.put (padding written)

/-- Write the checksum of everything so far. -/
def finish (w : SumWriter) : List UInt8 := w.inner ++ Word.bytes w.sum.finish

@[simp] lemma inner_new : new.inner = [] := rfl

@[simp] lemma inner_put (w : SumWriter) (bytes : List UInt8) :
    (w.put bytes).inner = w.inner ++ bytes := rfl

@[simp] lemma inner_putAll {α : Type} [Word α] (w : SumWriter) (as : List α) :
    (w.putAll as).inner = w.inner ++ Word.toBytes as := by
  induction as generalizing w with
  | nil => simp [putAll]
  | cons a as ih =>
    change ((w.put (Word.bytes a)).putAll as).inner = _
    rw [ih, inner_put, Word.toBytes_cons, append_assoc]

@[simp] lemma inner_padTo8 (w : SumWriter) (written : ℕ) :
    (w.padTo8 written).inner = w.inner ++ padding written := rfl

lemma finish_eq (w : SumWriter) : w.finish = w.inner ++ Word.bytes (checksumOf w.inner) := by
  rw [finish, w.sum_eq, checksumOf]

end SumWriter

/-- A file. Its length is a signed 64-bit offset. -/
structure CacheFile where
  bytes : List UInt8
  length_lt : bytes.length < 2 ^ 63

/-- Write a file. A write past the longest file fails. -/
def CacheFile.create (bytes : List UInt8) : Option CacheFile :=
  if h : bytes.length < 2 ^ 63 then some ⟨bytes, h⟩ else none

lemma CacheFile.bytes_of_create {bytes : List UInt8} {file : CacheFile}
    (h : create bytes = some file) : file.bytes = bytes := by
  unfold create at h
  split at h
  next => exact some.inj h ▸ rfl
  next => cases h

lemma CacheFile.create_of_lt {bytes : List UInt8} (h : bytes.length < 2 ^ 63) :
    create bytes = some ⟨bytes, h⟩ := dif_pos h

/-- The 128-bit identity of a database. -/
abbrev DbId := { bytes : List UInt8 // bytes.length = 16 }

/-- The word at an offset, or nothing past the end. -/
def u64At (bytes : List UInt8) (offset : ℕ) : Option UInt64 := do
  let stop ← checkedAdd offset 8
  let s ← slice bytes offset stop
  pure (Sum64.word s)

variable {bytes before after : List UInt8} {s : CsrSnapshot}

lemma u64At_append {v : UInt64} {offset : ℕ} (hbytes : bytes = before ++ (Word.bytes v ++ after))
    (hlt : bytes.length < 2 ^ 64) (hoffset : offset = before.length) :
    u64At bytes offset = some v := by
  have hword : (Word.bytes v).length = 8 := Word.length_bytes v
  have hstop : offset + 8 < 2 ^ 64 := by
    rw [hbytes] at hlt
    simp only [length_append, hword] at hlt
    omega
  have hslice : slice bytes offset (offset + 8) = some (Word.bytes v) :=
    slice_append hbytes hoffset (by rw [hoffset, hword])
  have hv : Sum64.word (Word.bytes v) = v := Word.ofLeBytes_bytes v
  rw [u64At, checkedAdd_eq_some.mpr ⟨hstop, rfl⟩]
  simp only [bind_eq_bind, bind_some, hslice, hv, Option.pure_def]

/-! ## Snapshots -/

/-- The index of an array of ids. The source compares with a sum that wraps around. -/
def DenseIndex.fromSorted (denseToId : List UInt64) : DenseIndex :=
  let n := denseToId.length
  let first := denseToId.head?.getD 0
  if n ≤ 2 ^ 32 - 1 ∧ ∀ e ∈ denseToId.zipIdx, e.1 = first + UInt64.ofNat e.2 then
    contiguous first.toNat n
  else map (tableOf (denseToId.map UInt64.toNat))

/-- The arrays of a snapshot of the adjacency. A weight is the bit pattern of a double. -/
structure CsrSnapshot where
  rowPtr : List UInt64
  colIdx : List UInt32
  edgeType : List UInt32
  edgeId : List UInt64
  edgeWeight : Option (List UInt64)
  hasNegativeWeight : Bool
  inRowPtr : List UInt64
  inColIdx : List UInt32
  inEdgeType : List UInt32
  inPos : List UInt32
  denseToId : List UInt64
  idToDense : DenseIndex

namespace CsrSnapshot

def nodes (s : CsrSnapshot) : ℕ := s.denseToId.length

def edges (s : CsrSnapshot) : ℕ := s.colIdx.length

/-- What the builders of a snapshot leave: the arrays are parallel, and the ids are distinct and
indexed. No id is the last 64-bit number, as the counter of ids is past it. -/
structure Built (s : CsrSnapshot) : Prop where
  rowPtr : s.rowPtr.length = s.nodes + 1
  edgeType : s.edgeType.length = s.edges
  edgeId : s.edgeId.length = s.edges
  edgeWeight : ∀ weights, s.edgeWeight = some weights → weights.length = s.edges
  inRowPtr : s.inRowPtr.length = s.nodes + 1
  inColIdx : s.inColIdx.length = s.edges
  inEdgeType : s.inEdgeType.length = s.edges
  inPos : s.inPos.length = s.edges
  edges_le : s.edges ≤ maxSnapshotEdges
  indexes : s.idToDense.Indexes (s.denseToId.map UInt64.toNat)
  id_lt : ∀ id ∈ s.denseToId, id.toNat < 2 ^ 64 - 1

end CsrSnapshot

/-- The tag of a snapshot file, `ISSNCSR1`. -/
def csrMagic : List UInt8 := [73, 83, 83, 78, 67, 83, 82, 49]

/-- Bytes of the header: the tag, the identity, the generation, the flags and the two lengths. -/
def csrHeaderLen : ℕ := 8 + 16 + 8 + 8 + 8 + 8

def flagWeighted : UInt64 := 1

def flagNegativeWeight : UInt64 := 2

/-- Bytes between the last array of four-byte words and the weights. -/
def weightPadding (e : ℕ) : ℕ := if e % 2 = 1 then 4 else 0

/-- The bytes of a file with `n` nodes and `e` edges, or nothing if that overflows. -/
def csrFileLen (n e : ℕ) (weighted : Bool) : Option ℕ := do
  let total := csrHeaderLen + 8
  let rows ← checkedMul (← checkedAdd n 1) 2
  let words ← checkedAdd (← checkedAdd n rows) e
  let total ← checkedAdd total (← checkedMul words 8)
  let total ← checkedAdd total (← checkedMul (← checkedMul e 4) 5)
  if weighted then
    let total ← checkedAdd total (weightPadding e)
    checkedAdd total (← checkedMul e 8)
  else pure total

def csrFlags (s : CsrSnapshot) : UInt64 :=
  (if s.edgeWeight.isSome then flagWeighted else 0) |||
    (if s.hasNegativeWeight then flagNegativeWeight else 0)

/-- What is written for a snapshot. -/
def csrWriter (s : CsrSnapshot) (dbId : DbId) (commitGen : UInt64) : SumWriter :=
  let w := SumWriter.new
    |>.put csrMagic
    |>.put dbId.1
    |>.put (Word.bytes commitGen)
    |>.put (Word.bytes (csrFlags s))
    |>.put (Word.bytes (UInt64.ofNat s.denseToId.length))
    |>.put (Word.bytes (UInt64.ofNat s.colIdx.length))
    |>.putAll s.denseToId
    |>.putAll s.rowPtr
    |>.putAll s.colIdx
    |>.putAll s.edgeType
    |>.putAll s.edgeId
    |>.putAll s.inRowPtr
    |>.putAll s.inColIdx
    |>.putAll s.inEdgeType
    |>.putAll s.inPos
  match s.edgeWeight with
  | some weights => (w.put (.replicate (weightPadding s.colIdx.length) 0)).putAll weights
  | none => w

def saveCsr (s : CsrSnapshot) (dbId : DbId) (commitGen : UInt64) : Option CacheFile :=
  CacheFile.create (csrWriter s dbId commitGen).finish

/-- Map the array at an offset, of words of `width` bytes. The offset after it is returned too. -/
def mapNext (α : Type) [Word α] (bytes : List UInt8) (offset len width : ℕ) :
    Mapping (List α × ℕ) := do
  let size ← Mapping.ofOption (checkedMul len width)
  let next ← Mapping.ofOption (checkedAdd offset size)
  let as ← Mapping.mapped α bytes offset len
  pure (as, next)

def mapWeights (bytes : List UInt8) (offset e : ℕ) (weighted : Bool) :
    Mapping (Option (List UInt64) × ℕ) :=
  if weighted then do
    -- realign behind five arrays of four-byte words
    let offset ← Mapping.ofOption (checkedAdd offset (weightPadding e))
    let (weights, offset) ← mapNext UInt64 bytes offset e 8
    pure (some weights, offset)
  else pure (none, offset)

/-- Map the arrays of a snapshot file with `n` nodes and `e` edges, from an offset on. The offset
behind them is returned too. -/
def mapArrays (bytes : List UInt8) (offset n e : ℕ) (weighted negative : Bool) :
    Mapping (CsrSnapshot × ℕ) := do
  let (denseToId, offset) ← mapNext UInt64 bytes offset n 8
  let (rowPtr, offset) ← mapNext UInt64 bytes offset (n + 1) 8
  let (colIdx, offset) ← mapNext UInt32 bytes offset e 4
  let (edgeType, offset) ← mapNext UInt32 bytes offset e 4
  let (edgeId, offset) ← mapNext UInt64 bytes offset e 8
  let (inRowPtr, offset) ← mapNext UInt64 bytes offset (n + 1) 8
  let (inColIdx, offset) ← mapNext UInt32 bytes offset e 4
  let (inEdgeType, offset) ← mapNext UInt32 bytes offset e 4
  let (inPos, offset) ← mapNext UInt32 bytes offset e 4
  let (edgeWeight, offset) ← mapWeights bytes offset e weighted
  pure ({ rowPtr, colIdx, edgeType, edgeId, edgeWeight
          hasNegativeWeight := negative
          inRowPtr, inColIdx, inEdgeType, inPos, denseToId
          idToDense := .fromSorted denseToId }, offset)

open Mapping in
/-- Map the cache file of a snapshot, unless it is foreign, stale, torn or without the weights that
are asked for. The offset behind the arrays is returned too; the source asserts it. -/
def loadCsr (file : CacheFile) (dbId : DbId) (expectedGen : UInt64) (wantWeights : Bool) :
    Mapping (CsrSnapshot × ℕ) := do
  let bytes := file.bytes
  ensure (csrHeaderLen + 8 ≤ bytes.length)
  ensure (bytes.take 8 = csrMagic ∧ (bytes.drop 8).take 16 = dbId.1)
  let gen ← ofOption (u64At bytes 24)
  ensure (gen = expectedGen)
  let flags ← ofOption (u64At bytes 32)
  let weighted : Bool := flags &&& flagWeighted ≠ 0
  ensure (!wantWeights || weighted)
  let n ← ofOption (u64At bytes 40)
  let e ← ofOption (u64At bytes 48)
  let len ← ofOption (csrFileLen n.toNat e.toNat weighted)
  ensure (len = bytes.length)
  let bodyLen := bytes.length - 8
  let sum ← ofOption (u64At bytes bodyLen)
  ensure (checksumOf (bytes.take bodyLen) = sum)
  ensure (e.toNat ≤ maxSnapshotEdges)
  mapArrays bytes csrHeaderLen n.toNat e.toNat weighted (flags &&& flagNegativeWeight ≠ 0)

/-! ## What a loader maps -/

/-- The bytes of a file with `n` nodes and `e` edges. -/
def csrLen (n e : ℕ) (weighted : Bool) : ℕ :=
  csrHeaderLen + 8 * (n + 2 * (n + 1) + e) + 20 * e +
    (if weighted then weightPadding e + 8 * e else 0) + 8

lemma csrFileLen_eq_some {n e len : ℕ} {weighted : Bool} :
    csrFileLen n e weighted = some len ↔ len = csrLen n e weighted ∧ len < 2 ^ 64 := by
  unfold csrFileLen csrLen
  cases weighted with
  | false =>
    simp only [bind_eq_bind, bind_eq_some_iff, checkedAdd_eq_some, checkedMul_eq_some,
      Bool.false_eq_true, if_false, Option.pure_def, some.injEq]
    constructor
    · rintro ⟨_, ⟨_, rfl⟩, _, ⟨_, rfl⟩, _, ⟨_, rfl⟩, _, ⟨_, rfl⟩, _, ⟨_, rfl⟩, _, ⟨_, rfl⟩, _,
        ⟨_, rfl⟩, _, ⟨_, rfl⟩, _, ⟨_, rfl⟩, rfl⟩
      omega
    · rintro ⟨rfl, hlt⟩
      refine ⟨_, ⟨by omega, rfl⟩, _, ⟨by omega, rfl⟩, _, ⟨by omega, rfl⟩, _, ⟨by omega, rfl⟩, _,
        ⟨by omega, rfl⟩, _, ⟨by omega, rfl⟩, _, ⟨by omega, rfl⟩, _, ⟨by omega, rfl⟩, _,
        ⟨by omega, rfl⟩, by omega⟩
  | true =>
    simp only [bind_eq_bind, bind_eq_some_iff, checkedAdd_eq_some, checkedMul_eq_some,
      if_true]
    constructor
    · rintro ⟨_, ⟨_, rfl⟩, _, ⟨_, rfl⟩, _, ⟨_, rfl⟩, _, ⟨_, rfl⟩, _, ⟨_, rfl⟩, _, ⟨_, rfl⟩, _,
        ⟨_, rfl⟩, _, ⟨_, rfl⟩, _, ⟨_, rfl⟩, _, ⟨_, rfl⟩, _, ⟨_, rfl⟩, _, rfl⟩
      omega
    · rintro ⟨rfl, hlt⟩
      refine ⟨_, ⟨by omega, rfl⟩, _, ⟨by omega, rfl⟩, _, ⟨by omega, rfl⟩, _, ⟨by omega, rfl⟩, _,
        ⟨by omega, rfl⟩, _, ⟨by omega, rfl⟩, _, ⟨by omega, rfl⟩, _, ⟨by omega, rfl⟩, _,
        ⟨by omega, rfl⟩, _, ⟨by omega, rfl⟩, _, ⟨by omega, rfl⟩, by omega, by omega⟩

/-- A region lies in front of the checksum of a file. -/
def InBody (file : CacheFile) (r : Region) : Prop := r.offset + r.size ≤ file.bytes.length - 8

section Maps

variable {P : Region → Prop} {α : Type} [Word α] {bytes : List UInt8}

lemma meets_mapNext {offset len width : ℕ} (h : P ⟨offset, len * Word.width α⟩) :
    Mapping.Meets P (fun r => r.1.length = len ∧ r.2 = offset + len * width)
      (mapNext α bytes offset len width) := by
  refine .bind (Q := fun size => size = len * width) ?_ fun size hsize => ?_
  · exact .ofOption fun size heq => (checkedMul_eq_some.mp heq).2
  refine .bind (Q := fun next => next = offset + size) ?_ fun next hnext => ?_
  · exact .ofOption fun next heq => (checkedAdd_eq_some.mp heq).2
  refine .bind (.mapped h) fun as has => ?_
  exact .pure ⟨has, by rw [hnext, hsize]⟩

lemma meets_mapWeights {offset e : ℕ} {weighted : Bool}
    (h : weighted = true → P ⟨offset + weightPadding e, e * 8⟩) :
    Mapping.Meets P (fun r => r.2 = offset + if weighted then weightPadding e + 8 * e else 0)
      (mapWeights bytes offset e weighted) := by
  unfold mapWeights
  cases weighted with
  | false => exact .pure rfl
  | true =>
    refine .bind (Q := fun next => next = offset + weightPadding e) ?_ fun next hnext => ?_
    · exact .ofOption fun next heq => (checkedAdd_eq_some.mp heq).2
    subst hnext
    refine .bind (meets_mapNext (h rfl)) fun r hr => ?_
    refine .pure ?_
    rw [if_pos rfl, hr.2]
    omega

/-- The arrays fill the space between the header and the checksum. -/
theorem meets_mapArrays {file : CacheFile} {n e : ℕ} {weighted negative : Bool}
    (hlen : csrLen n e weighted = file.bytes.length) :
    Mapping.Meets (InBody file) (fun r => r.2 = file.bytes.length - 8)
      (mapArrays file.bytes csrHeaderLen n e weighted negative) := by
  have hwidth : Word.width UInt64 = 8 ∧ Word.width UInt32 = 4 := ⟨rfl, rfl⟩
  unfold csrLen csrHeaderLen at hlen
  have hweights : weighted = true → (if weighted then weightPadding e + 8 * e else 0) =
      weightPadding e + 8 * e := fun h => if_pos h
  unfold mapArrays csrHeaderLen
  refine .bind (meets_mapNext ?_) fun r hr => ?_
  · simp only [InBody, hwidth]
    omega
  refine .bind (meets_mapNext ?_) fun r₁ hr₁ => ?_
  · simp only [InBody, hwidth]
    omega
  refine .bind (meets_mapNext ?_) fun r₂ hr₂ => ?_
  · simp only [InBody, hwidth]
    omega
  refine .bind (meets_mapNext ?_) fun r₃ hr₃ => ?_
  · simp only [InBody, hwidth]
    omega
  refine .bind (meets_mapNext ?_) fun r₄ hr₄ => ?_
  · simp only [InBody, hwidth]
    omega
  refine .bind (meets_mapNext ?_) fun r₅ hr₅ => ?_
  · simp only [InBody, hwidth]
    omega
  refine .bind (meets_mapNext ?_) fun r₆ hr₆ => ?_
  · simp only [InBody, hwidth]
    omega
  refine .bind (meets_mapNext ?_) fun r₇ hr₇ => ?_
  · simp only [InBody, hwidth]
    omega
  refine .bind (meets_mapNext ?_) fun r₈ hr₈ => ?_
  · simp only [InBody, hwidth]
    omega
  have hoffset : r₈.2 = 56 + 8 * (n + 2 * (n + 1) + e) + 20 * e := by omega
  refine .bind (meets_mapWeights ?_) fun r₉ hr₉ => ?_
  · intro h
    have := hweights h
    simp only [InBody]
    omega
  refine .pure ?_
  simp only [hr₉]
  omega

end Maps

/-- Whatever the bytes of a file, its arrays are mapped in front of the checksum and fill the
space. -/
theorem meets_loadCsr (file : CacheFile) (dbId : DbId) (expectedGen : UInt64) (wantWeights : Bool) :
    Mapping.Meets (InBody file) (fun r => r.2 = file.bytes.length - 8)
      (loadCsr file dbId expectedGen wantWeights) := by
  unfold loadCsr
  refine .bind (.ensure _) fun _ _ => ?_
  refine .bind (.ensure _) fun _ _ => ?_
  refine .bind (.ofOption fun _ _ => trivial) fun _ _ => ?_
  refine .bind (.ensure _) fun _ _ => ?_
  refine .bind (.ofOption fun _ _ => trivial) fun flags _ => ?_
  refine .bind (.ensure _) fun _ _ => ?_
  refine .bind (.ofOption fun _ _ => trivial) fun n _ => ?_
  refine .bind (.ofOption fun _ _ => trivial) fun e _ => ?_
  refine .bind (.ofOption fun len hlen => Iff.mp csrFileLen_eq_some hlen) fun len hlen => ?_
  refine .bind (.ensure _) fun _ heq => ?_
  refine .bind (.ofOption fun _ _ => trivial) fun _ _ => ?_
  refine .bind (.ensure _) fun _ _ => ?_
  refine .bind (.ensure _) fun _ _ => ?_
  apply meets_mapArrays
  rw [← hlen.1]
  exact of_decide_eq_true heq

/-! ## The round trip -/

lemma append_shift {bytes before s after : List UInt8} (h : bytes = before ++ (s ++ after)) :
    bytes = (before ++ s) ++ after := by rw [h, append_assoc]

lemma returns_mapNext {α : Type} [Word α] {as : List α} {offset len : ℕ}
    (hbytes : bytes = before ++ (Word.toBytes as ++ after)) (hlt : bytes.length < 2 ^ 64)
    (hoffset : offset = before.length) (hlen : len = as.length)
    (haligned : offset % Word.width α = 0) :
    Mapping.Returns (as, offset + len * Word.width α)
      (mapNext α bytes offset len (Word.width α)) := by
  have hfits : offset + len * Word.width α ≤ bytes.length := by
    rw [hbytes, hoffset, hlen]
    simp only [length_append, Word.length_toBytes]
    omega
  refine .bind (.ofOption (checkedMul_eq_some.mpr ⟨by omega, rfl⟩)) ?_
  refine .bind (.ofOption (checkedAdd_eq_some.mpr ⟨by omega, rfl⟩)) ?_
  refine .bind (.mapped hbytes hlt hoffset hlen haligned) ?_
  exact .pure _

def weightBytes (s : CsrSnapshot) : List UInt8 :=
  match s.edgeWeight with
  | some weights => .replicate (weightPadding s.edges) 0 ++ Word.toBytes weights
  | none => []

lemma returns_mapWeights (hs : s.Built) {offset : ℕ}
    (hbytes : bytes = before ++ (weightBytes s ++ after)) (hlt : bytes.length < 2 ^ 64)
    (hoffset : offset = before.length) (haligned : (offset + weightPadding s.edges) % 8 = 0) :
    Mapping.Returns (s.edgeWeight,
        offset + if s.edgeWeight.isSome then weightPadding s.edges + 8 * s.edges else 0)
      (mapWeights bytes offset s.edges s.edgeWeight.isSome) := by
  unfold mapWeights
  unfold weightBytes at hbytes
  rcases hweights : s.edgeWeight with _ | weights
  · exact .pure _
  · rw [hweights] at hbytes
    dsimp only at hbytes
    rw [append_assoc] at hbytes
    have hlen : s.edges = weights.length := (hs.edgeWeight weights hweights).symm
    have hpad : offset + weightPadding s.edges =
        (before ++ List.replicate (weightPadding s.edges) 0).length := by
      simp [hoffset]
    have hle : offset + weightPadding s.edges ≤ bytes.length := by
      have hlength := congrArg List.length hbytes
      simp only [length_append, length_replicate] at hlength
      omega
    refine .bind (.ofOption (checkedAdd_eq_some.mpr ⟨by omega, rfl⟩)) ?_
    refine .bind (returns_mapNext (append_shift hbytes) hlt hpad hlen haligned) ?_
    have hnext : offset + weightPadding s.edges + s.edges * Word.width UInt64 =
        offset + (weightPadding s.edges + 8 * s.edges) := by
      change _ + s.edges * 8 = _
      omega
    dsimp only
    rw [isSome_some, if_pos rfl, hnext]
    exact .pure _

/-- The arrays are read back in the order in which they were written. -/
theorem returns_mapArrays (hs : s.Built) {bytes header after : List UInt8}
    (hheader : header.length = csrHeaderLen) (hlt : bytes.length < 2 ^ 64)
    (hbytes : bytes =
      header ++ (Word.toBytes s.denseToId ++ (Word.toBytes s.rowPtr ++ (Word.toBytes s.colIdx ++
        (Word.toBytes s.edgeType ++ (Word.toBytes s.edgeId ++ (Word.toBytes s.inRowPtr ++
          (Word.toBytes s.inColIdx ++ (Word.toBytes s.inEdgeType ++ (Word.toBytes s.inPos ++
            (weightBytes s ++ after))))))))))) :
    Mapping.Returns ({ s with idToDense := .fromSorted s.denseToId },
        csrLen s.nodes s.edges s.edgeWeight.isSome - 8)
      (mapArrays bytes csrHeaderLen s.nodes s.edges s.edgeWeight.isSome s.hasNegativeWeight) := by
  have hwidth : Word.width UInt64 = 8 ∧ Word.width UInt32 = 4 := ⟨rfl, rfl⟩
  have hnodes : s.denseToId.length = s.nodes := rfl
  have hedges : s.colIdx.length = s.edges := rfl
  have hpad : (20 * s.edges + weightPadding s.edges) % 8 = 0 := by
    unfold weightPadding
    split <;> omega
  have ⟨hrow, htype, hid, _, hinrow, hincol, hintype, hinpos, _, _, _⟩ := hs
  unfold mapArrays csrHeaderLen
  unfold csrHeaderLen at hheader
  refine .bind (returns_mapNext hbytes hlt hheader.symm rfl rfl) ?_
  have h₁ := append_shift hbytes
  refine .bind (returns_mapNext h₁ hlt ?_ hrow.symm ?_) ?_
  · simp only [length_append, Word.length_toBytes, hwidth]
    omega
  · simp only [hwidth]
    omega
  have h₂ := append_shift h₁
  refine .bind (returns_mapNext h₂ hlt ?_ rfl ?_) ?_
  · simp only [length_append, Word.length_toBytes, hwidth]
    omega
  · simp only [hwidth]
    omega
  have h₃ := append_shift h₂
  refine .bind (returns_mapNext h₃ hlt ?_ htype.symm ?_) ?_
  · simp only [length_append, Word.length_toBytes, hwidth]
    omega
  · simp only [hwidth]
    omega
  have h₄ := append_shift h₃
  refine .bind (returns_mapNext h₄ hlt ?_ hid.symm ?_) ?_
  · simp only [length_append, Word.length_toBytes, hwidth]
    omega
  · simp only [hwidth]
    omega
  have h₅ := append_shift h₄
  refine .bind (returns_mapNext h₅ hlt ?_ hinrow.symm ?_) ?_
  · simp only [length_append, Word.length_toBytes, hwidth]
    omega
  · simp only [hwidth]
    omega
  have h₆ := append_shift h₅
  refine .bind (returns_mapNext h₆ hlt ?_ hincol.symm ?_) ?_
  · simp only [length_append, Word.length_toBytes, hwidth]
    omega
  · simp only [hwidth]
    omega
  have h₇ := append_shift h₆
  refine .bind (returns_mapNext h₇ hlt ?_ hintype.symm ?_) ?_
  · simp only [length_append, Word.length_toBytes, hwidth]
    omega
  · simp only [hwidth]
    omega
  have h₈ := append_shift h₇
  refine .bind (returns_mapNext h₈ hlt ?_ hinpos.symm ?_) ?_
  · simp only [length_append, Word.length_toBytes, hwidth]
    omega
  · simp only [hwidth]
    omega
  have h₉ := append_shift h₈
  refine .bind (returns_mapWeights hs h₉ hlt ?_ ?_) ?_
  · simp only [length_append, Word.length_toBytes, hwidth]
    omega
  · simp only [hwidth]
    omega
  have hend : 8 + 16 + 8 + 8 + 8 + 8 + s.nodes * 8 + (s.nodes + 1) * 8 + s.edges * 4 + s.edges * 4 +
      s.edges * 8 + (s.nodes + 1) * 8 + s.edges * 4 + s.edges * 4 + s.edges * 4 +
      (if s.edgeWeight.isSome then weightPadding s.edges + 8 * s.edges else 0) =
      csrLen s.nodes s.edges s.edgeWeight.isSome - 8 := by
    unfold csrLen csrHeaderLen
    omega
  simp only [hwidth, hend]
  exact .pure _

/-- The sums of a contiguous index do not wrap around below the last number. -/
theorem toNat_of_contiguous {ids : List UInt64} (hlt : ∀ id ∈ ids, id.toNat < 2 ^ 64 - 1)
    {first : UInt64} (hfirst : first = ids.head?.getD 0)
    (h : ∀ (d : ℕ) id, ids[d]? = some id → id = first + UInt64.ofNat d) {d : ℕ} {id : UInt64}
    (hid : ids[d]? = some id) : id.toNat = first.toNat + d := by
  induction d generalizing id with
  | zero =>
    rw [hfirst, head?_eq_getElem?, hid]
    rfl
  | succ d ih =>
    -- the id before is not the last number, so its successor is a number
    have hd : d < ids.length := by
      have := (List.getElem?_eq_some_iff.mp hid).1
      omega
    have hprev := ih (getElem?_eq_getElem hd)
    have hbound := hlt _ (getElem_mem hd)
    rw [h (d + 1) id hid, UInt64.toNat_add, UInt64.toNat_ofNat']
    omega

lemma DenseIndex.fromSorted_eq {ids : List UInt64} (hlt : ∀ id ∈ ids, id.toNat < 2 ^ 64 - 1) :
    fromSorted ids = fromIds (ids.map UInt64.toNat) := by
  have hhead : (ids.map UInt64.toNat).head?.getD 0 = (ids.head?.getD 0).toNat := by
    cases ids <;> rfl
  have hiff : (∀ e ∈ ids.zipIdx, e.1 = ids.head?.getD 0 + UInt64.ofNat e.2) ↔
      ids.map UInt64.toNat = (List.range ids.length).map ((ids.head?.getD 0).toNat + ·) := by
    constructor
    · intro h
      have hids : ∀ (d : ℕ) id, ids[d]? = some id → id = ids.head?.getD 0 + UInt64.ofNat d :=
        fun d id hid => h (id, d) (mem_zipIdx_iff_getElem?.mpr hid)
      refine ext_getElem (by simp) fun d hd _ => ?_
      have hd' : d < ids.length := by simpa using hd
      simpa using toNat_of_contiguous hlt rfl hids (getElem?_eq_getElem hd')
    · intro h e he
      have hid := mem_zipIdx_iff_getElem?.mp he
      have hd : e.2 < ids.length := (List.getElem?_eq_some_iff.mp hid).1
      have heq : e.1.toNat = (ids.head?.getD 0).toNat + e.2 := by
        have := congrArg (fun l : List ℕ => l[e.2]?) h
        simp only [getElem?_map, hid, getElem?_range hd, map_some] at this
        exact some.inj this
      refine UInt64.toNat_inj.mp ?_
      rw [UInt64.toNat_add, UInt64.toNat_ofNat']
      have := e.1.toNat_lt
      omega
  unfold fromSorted fromIds
  simp only [hiff, hhead, length_map]
  congr 1
  simp only [eq_iff_iff, and_congr_left_iff]
  omega

lemma csrWriter_inner (s : CsrSnapshot) (dbId : DbId) (commitGen : UInt64) :
    (csrWriter s dbId commitGen).inner = csrMagic ++ (dbId.1 ++ (Word.bytes commitGen ++
      (Word.bytes (csrFlags s) ++ (Word.bytes (UInt64.ofNat s.nodes) ++
      (Word.bytes (UInt64.ofNat s.edges) ++ (Word.toBytes s.denseToId ++ (Word.toBytes s.rowPtr ++
      (Word.toBytes s.colIdx ++ (Word.toBytes s.edgeType ++ (Word.toBytes s.edgeId ++
      (Word.toBytes s.inRowPtr ++ (Word.toBytes s.inColIdx ++ (Word.toBytes s.inEdgeType ++
      (Word.toBytes s.inPos ++ weightBytes s)))))))))))))) := by
  unfold csrWriter weightBytes
  rcases s.edgeWeight with _ | weights
  · simp [CsrSnapshot.nodes, CsrSnapshot.edges]
  · simp [CsrSnapshot.nodes, CsrSnapshot.edges]

lemma length_weightBytes (hs : s.Built) : (weightBytes s).length =
    if s.edgeWeight.isSome then weightPadding s.edges + 8 * s.edges else 0 := by
  unfold weightBytes
  rcases h : s.edgeWeight with _ | weights
  · rfl
  · have hwidth : Word.width UInt64 = 8 := rfl
    simp only [length_append, length_replicate, Word.length_toBytes, hwidth,
      hs.edgeWeight weights h, isSome_some, if_true]
    omega

/-- As many bytes are written as the reader expects. -/
theorem length_csrWriter (hs : s.Built) (dbId : DbId) (commitGen : UInt64) :
    (csrWriter s dbId commitGen).finish.length = csrLen s.nodes s.edges s.edgeWeight.isSome := by
  have hwidth : Word.width UInt64 = 8 ∧ Word.width UInt32 = 4 := ⟨rfl, rfl⟩
  have hnodes : s.denseToId.length = s.nodes := rfl
  have hedges : s.colIdx.length = s.edges := rfl
  have hmagic : csrMagic.length = 8 := rfl
  simp only [SumWriter.finish_eq, csrWriter_inner, length_append, Word.length_toBytes,
    Word.length_bytes, length_weightBytes hs, hs.rowPtr, hs.edgeType, hs.edgeId, hs.inRowPtr,
    hs.inColIdx, hs.inEdgeType, hs.inPos, hnodes, hedges, hwidth, hmagic, dbId.2]
  unfold csrLen csrHeaderLen
  omega

lemma flagWeighted_csrFlags (s : CsrSnapshot) :
    decide (csrFlags s &&& flagWeighted ≠ 0) = s.edgeWeight.isSome := by
  unfold csrFlags
  cases s.edgeWeight.isSome <;> cases s.hasNegativeWeight <;> decide

lemma flagNegativeWeight_csrFlags (s : CsrSnapshot) :
    decide (csrFlags s &&& flagNegativeWeight ≠ 0) = s.hasNegativeWeight := by
  unfold csrFlags
  cases s.edgeWeight.isSome <;> cases s.hasNegativeWeight <;> decide

/-- A saved snapshot is read back, if it has the weights that are asked for. -/
theorem returns_loadCsr (hs : s.Built) {dbId : DbId} {commitGen : UInt64} {file : CacheFile}
    (hsave : saveCsr s dbId commitGen = some file) {wantWeights : Bool}
    (hwant : wantWeights = true → s.edgeWeight.isSome = true) :
    Mapping.Returns ({ s with idToDense := .fromSorted s.denseToId }, file.bytes.length - 8)
      (loadCsr file dbId commitGen wantWeights) := by
  obtain ⟨sum, hsum, hbytes⟩ : ∃ sum, sum = checksumOf (csrWriter s dbId commitGen).inner ∧
      file.bytes = (csrWriter s dbId commitGen).inner ++ Word.bytes sum := by
    exact ⟨_, rfl, by rw [CacheFile.bytes_of_create hsave, SumWriter.finish_eq]⟩
  have hlen : file.bytes.length = csrLen s.nodes s.edges s.edgeWeight.isSome := by
    rw [CacheFile.bytes_of_create hsave, length_csrWriter hs]
  have hlt : file.bytes.length < 2 ^ 64 := by
    have := file.length_lt
    omega
  have hwords : (UInt64.ofNat s.nodes).toNat = s.nodes ∧ (UInt64.ofNat s.edges).toNat =
      s.edges := by
    unfold csrLen at hlen
    rw [UInt64.toNat_ofNat', UInt64.toNat_ofNat']
    omega
  have hword : ∀ v : UInt64, (Word.bytes v).length = 8 := Word.length_bytes
  have hmagic : csrMagic.length = 8 := rfl
  -- the parts of the header
  obtain ⟨arrays, harrays, h₀⟩ : ∃ arrays, arrays = Word.toBytes s.denseToId ++
      (Word.toBytes s.rowPtr ++ (Word.toBytes s.colIdx ++ (Word.toBytes s.edgeType ++
      (Word.toBytes s.edgeId ++ (Word.toBytes s.inRowPtr ++ (Word.toBytes s.inColIdx ++
      (Word.toBytes s.inEdgeType ++ (Word.toBytes s.inPos ++ (weightBytes s ++
      Word.bytes sum))))))))) ∧
      file.bytes = csrMagic ++ (dbId.1 ++ (Word.bytes commitGen ++ (Word.bytes (csrFlags s) ++
      (Word.bytes (UInt64.ofNat s.nodes) ++ (Word.bytes (UInt64.ofNat s.edges) ++ arrays))))) := by
    refine ⟨_, rfl, hbytes.trans ?_⟩
    rw [csrWriter_inner]
    simp only [append_assoc]
  have h₁ := append_shift h₀
  have h₂ := append_shift h₁
  have h₃ := append_shift h₂
  have h₄ := append_shift h₃
  have h₅ := append_shift h₄
  unfold loadCsr
  refine .bind (.ensure ?_) ?_
  · rw [decide_eq_true_eq, hlen, csrLen]
    omega
  refine .bind (.ensure ?_) ?_
  · rw [decide_eq_true_eq, h₀, take_left' hmagic, drop_left' hmagic,
      take_left' dbId.2]
    exact ⟨rfl, rfl⟩
  refine .bind (.ofOption (u64At_append h₁ hlt ?_)) ?_
  · simp only [length_append, hmagic, dbId.2]
  refine .bind (.ensure (decide_eq_true rfl)) ?_
  refine .bind (.ofOption (u64At_append h₂ hlt ?_)) ?_
  · simp only [length_append, hmagic, dbId.2, hword]
  rw [flagWeighted_csrFlags, flagNegativeWeight_csrFlags]
  refine .bind (.ensure ?_) ?_
  · cases wantWeights with
    | false => rfl
    | true => simpa using hwant rfl
  refine .bind (.ofOption (u64At_append h₃ hlt ?_)) ?_
  · simp only [length_append, hmagic, dbId.2, hword]
  refine .bind (.ofOption (u64At_append h₄ hlt ?_)) ?_
  · simp only [length_append, hmagic, dbId.2, hword]
  rw [hwords.1, hwords.2]
  refine .bind (.ofOption (Iff.mpr csrFileLen_eq_some ⟨rfl, by omega⟩)) ?_
  refine .bind (.ensure (decide_eq_true hlen.symm)) ?_
  have hbody : file.bytes.length - 8 = (csrWriter s dbId commitGen).inner.length := by
    rw [hbytes, length_append, hword]
    omega
  have hend : file.bytes = (csrWriter s dbId commitGen).inner ++ (Word.bytes sum ++ []) := by
    rw [append_nil, hbytes]
  refine .bind (.ofOption (u64At_append hend hlt hbody)) ?_
  refine .bind (.ensure ?_) ?_
  · rw [decide_eq_true_eq, hbody, hbytes, take_left, hsum]
  refine .bind (.ensure (decide_eq_true hs.edges_le)) ?_
  rw [hlen]
  refine returns_mapArrays hs ?_ hlt (harrays ▸ h₅)
  simp only [length_append, hmagic, dbId.2, hword, csrHeaderLen]

end IssunDB
