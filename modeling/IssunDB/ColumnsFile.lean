import IssunDB.CacheFile

/-!
# The cache file of the property columns

Each column is written as its plain arrays, at multiples of eight, behind a directory that says
where they lie. The reader checks every part of the directory against the file before it maps it.

* `StoredColumn`, `ColumnSet` — the arrays of the columns;
* `saveColumns`, `loadColumns` — writing and mapping them;
* `returns_loadColumns` — saved columns are read back;
* `meets_loadColumns` — what is mapped lies in front of the checksum, and the codes of an accepted
  string column are codes of its dictionary;
* `cacheFiles_round_trip` — this and the same of the snapshot file.
-/

namespace IssunDB

open List Option

/-! ## Columns as arrays -/

/-- A bit per slot, in 64-bit words. -/
structure Bitmap where
  words : List UInt64
  len : ℕ

namespace Bitmap

/-- The number of words for a number of bits. -/
def wordsFor (len : ℕ) : ℕ := (len + 63) / 64

/-- Words that cover `len` bits. -/
def fromWords (words : List UInt64) (len : ℕ) : Option Bitmap :=
  if words.length = wordsFor len then some ⟨words, len⟩ else none

/-- A bit. -/
def get (b : Bitmap) (i : ℕ) : Bool :=
  (b.words[i / 64]?.getD 0 >>> UInt64.ofNat (i % 64)) &&& 1 = 1

end Bitmap

/-- An array of plain values with a presence bit for each. -/
structure NullableArray (α : Type) where
  present : Bitmap
  values : List α

namespace NullableArray

variable {α : Type}

/-- Pair the parts, if their lengths agree. -/
def fromParts (present : Bitmap) (values : List α) : Option (NullableArray α) :=
  if present.len = values.length then some ⟨present, values⟩ else none

/-- The value of a slot. -/
def get (c : NullableArray α) (i : ℕ) : Option α :=
  if c.present.get i then c.values[i]? else none

/-- The presence bits cover the values. -/
def Built (c : NullableArray α) : Prop :=
  c.present.len = c.values.length ∧ c.present.words.length = Bitmap.wordsFor c.present.len

end NullableArray

/-- The strings of a column: `offsets[i]` to `offsets[i + 1]` bounds string `i` in `bytes`. -/
structure StrDict where
  offsets : List UInt64
  bytes : List UInt8

namespace StrDict

/-- The text of some bytes, `from_utf8`. -/
def fromUtf8 (bytes : List UInt8) : Option String := String.fromUTF8? ⟨bytes.toArray⟩

def isText (bytes : List UInt8) (a b : ℕ) : Bool := ((slice bytes a b).bind fromUtf8).isSome

/-- The offsets start at zero, do not decrease, end at the last byte and bound texts. -/
def wellFormed (offsets : List UInt64) (bytes : List UInt8) : Bool :=
  offsets.head? = some 0 && offsets.getLast? = some (UInt64.ofNat bytes.length) &&
    (offsets.zip offsets.tail).all fun w => isText bytes w.1.toNat w.2.toNat

/-- Pair the parts, if they are well formed. -/
def fromParts (offsets : List UInt64) (bytes : List UInt8) : Option StrDict :=
  if wellFormed offsets bytes then some ⟨offsets, bytes⟩ else none

/-- The number of strings. -/
def len (d : StrDict) : ℕ := d.offsets.length - 1

/-- A string of the dictionary. -/
def get (d : StrDict) (i : ℕ) : String :=
  ((slice d.bytes (d.offsets[i]?.getD 0).toNat (d.offsets[i + 1]?.getD 0).toNat).bind
    fromUtf8).getD ""

end StrDict

/-- The code of a null in a string column, `STR_NULL`. -/
def strNull : UInt32 := 0xFFFFFFFF

/-- The double of a bit pattern, if it is finite. -/
def F64.ofBits (bits : UInt64) : Option F64 :=
  if h : bits.toNat / 2 ^ 52 % 2048 < 2047 then
    some ⟨bits.toNat / 2 ^ 63 = 1, bits.toNat / 2 ^ 52 % 2048, bits.toNat % 2 ^ 52, h,
      Nat.mod_lt _ (by decide)⟩
  else none

/-- `Value::from` on a double: null unless it is finite. -/
def Json.ofBits (bits : UInt64) : Json :=
  match F64.ofBits bits with
  | some f => .number (.float f)
  | none => .null

/-- The arrays of one column. A double is its bit pattern. -/
inductive StoredColumn where
  | int (col : NullableArray Int64)
  | float (col : NullableArray UInt64)
  /-- One for true and zero for false. -/
  | bool (col : NullableArray UInt8)
  /-- `idx` points into `dict`; `strNull` marks a null. -/
  | str (dict : StrDict) (idx : List UInt32)
  | json (slots : List (Option Json))

namespace StoredColumn

/-- The number of slots. -/
def length : StoredColumn → ℕ
  | int col => col.values.length
  | float col => col.values.length
  | bool col => col.values.length
  | str _ idx => idx.length
  | json slots => slots.length

/-- The value of a slot; nothing for null. -/
def getJsonOpt (c : StoredColumn) (dense : ℕ) : Option Json :=
  match c with
  | int col => (col.get dense).map fun i => .ofI64 ⟨i.toInt, i.le_toInt, i.toInt_lt⟩
  | float col => (col.get dense).map .ofBits
  | bool col => (col.get dense).map fun b => .bool (b ≠ 0)
  | str dict idx =>
    match idx[dense]? with
    | some i => if i = strNull then none else some (.string (dict.get i.toNat))
    | none => none
  | json slots => slots[dense]?.join

def Built : StoredColumn → Prop
  | int col => col.Built
  | float col => col.Built
  | bool col => col.Built ∧ ∀ b ∈ col.values, b ≤ 1
  | str dict idx => StrDict.wellFormed dict.offsets dict.bytes ∧
      ∀ i ∈ idx, i = strNull ∨ i.toNat < dict.len
  | json slots => some .null ∉ slots

end StoredColumn

/-- The columns of all entities. -/
structure ColumnSet where
  idToDense : DenseIndex
  denseToId : List UInt64
  cols : Table String StoredColumn

namespace ColumnSet

def value (c : ColumnSet) (id : ℕ) (prop : String) : Option Json := do
  let dense ← c.idToDense.get id
  let col ← c.cols.get prop
  col.getJsonOpt dense

/-- What the builders of a column set leave. The number of columns is a machine word. -/
structure Built (c : ColumnSet) : Prop where
  indexes : c.idToDense.Indexes (c.denseToId.map UInt64.toNat)
  id_lt : ∀ id ∈ c.denseToId, id.toNat < 2 ^ 64 - 1
  cols : ∀ prop col, c.cols.get prop = some col → col.Built ∧ col.length = c.denseToId.length
  cols_lt : c.cols.toList.length < 2 ^ 64

/-- Assemble columns that were read, if every one covers the entities. -/
def fromCacheFile (denseToId : List UInt64) (cols : List (String × StoredColumn)) :
    Option ColumnSet :=
  if cols.all fun e => e.2.length = denseToId.length then
    some { idToDense := .fromSorted denseToId
           denseToId
           cols := cols.foldl (fun t e => t.put e.1 e.2) .empty }
  else none

end ColumnSet

/-! ## The directory -/

/-- A column in the directory: its name, its kind and its arrays, each an offset and a number of
elements. -/
structure ColumnEntry where
  name : String
  kind : UInt8
  parts : List (UInt64 × UInt64)

/-- The msgpack library, on the two types that are written with it. -/
structure Msgpack where
  encodeDirectory : List ColumnEntry → List UInt8
  decodeDirectory : List UInt8 → Option (List ColumnEntry)
  encodeSlots : List (Option Json) → List UInt8
  decodeSlots : List UInt8 → Option (List (Option Json))

def kindInt : UInt8 := 0

def kindFloat : UInt8 := 1

def kindBool : UInt8 := 2

def kindStr : UInt8 := 3

def kindJson : UInt8 := 4

/-- Place an array in the data region: its offset, and the next free one. -/
def place (next byteLen : ℕ) : UInt64 × ℕ := (UInt64.ofNat next, align8 (next + byteLen))

/-- The entry of two arrays in the directory, presence words and values of `width` bytes. -/
def placeNullable {α : Type} (next width : ℕ) (v : NullableArray α) :
    List (UInt64 × UInt64) × ℕ :=
  let (words, next) := place next (v.present.words.length * 8)
  let (values, next) := place next (v.values.length * width)
  ([(words, UInt64.ofNat v.present.words.length), (values, UInt64.ofNat v.values.length)], next)

/-- The kind and the arrays of a column in the directory. -/
def placeColumn (m : Msgpack) (next : ℕ) : StoredColumn → (UInt8 × List (UInt64 × UInt64)) × ℕ
  | .int v => let (parts, next) := placeNullable next 8 v; ((kindInt, parts), next)
  | .float v => let (parts, next) := placeNullable next 8 v; ((kindFloat, parts), next)
  | .bool v => let (parts, next) := placeNullable next 1 v; ((kindBool, parts), next)
  | .str dict idx =>
    let (codes, next) := place next (idx.length * 4)
    let (offsets, next) := place next (dict.offsets.length * 8)
    let (bytes, next) := place next dict.bytes.length
    ((kindStr, [(codes, UInt64.ofNat idx.length), (offsets, UInt64.ofNat dict.offsets.length),
      (bytes, UInt64.ofNat dict.bytes.length)]), next)
  | .json slots =>
    let blob := m.encodeSlots slots
    let (off, next) := place next blob.length
    ((kindJson, [(off, UInt64.ofNat blob.length)]), next)

/-- What is written of a `json` column is read back. -/
def Msgpack.FaithfulOnColumn (m : Msgpack) : StoredColumn → Prop
  | .json slots => m.decodeSlots (m.encodeSlots slots) = some slots
  | _ => True

def placeColumns (m : Msgpack) : ℕ → List (String × StoredColumn) → List ColumnEntry × ℕ
  | next, [] => ([], next)
  | next, (name, col) :: cols =>
    let ((kind, parts), next) := placeColumn m next col
    let (entries, next) := placeColumns m next cols
    (⟨name, kind, parts⟩ :: entries, next)

def directoryOf (m : Msgpack) (c : ColumnSet) : List ColumnEntry :=
  (placeColumns m (place 0 (c.denseToId.length * 8)).2 c.cols.toList).1

/-- What is written of a column set is read back. -/
structure Msgpack.FaithfulOn (m : Msgpack) (c : ColumnSet) : Prop where
  directory : m.decodeDirectory (m.encodeDirectory (directoryOf m c)) = some (directoryOf m c)
  cols : ∀ prop col, c.cols.get prop = some col → m.FaithfulOnColumn col

/-! ## Writing -/

/-- Write an array and zeros up to the next multiple of eight. `written` counts the bytes of the
data region. -/
def writeArray {α : Type} [Word α] (w : SumWriter × ℕ) (as : List α) (byteLen : ℕ) :
    SumWriter × ℕ :=
  let written := w.2 + byteLen
  ((w.1.putAll as).padTo8 written, align8 written)

def writeColumn (m : Msgpack) (w : SumWriter × ℕ) : StoredColumn → SumWriter × ℕ
  | .int v =>
    writeArray (writeArray w v.present.words (v.present.words.length * 8)) v.values
      (v.values.length * 8)
  | .float v =>
    writeArray (writeArray w v.present.words (v.present.words.length * 8)) v.values
      (v.values.length * 8)
  | .bool v =>
    writeArray (writeArray w v.present.words (v.present.words.length * 8)) v.values v.values.length
  | .str dict idx =>
    writeArray (writeArray (writeArray w idx (idx.length * 4)) dict.offsets
      (dict.offsets.length * 8)) dict.bytes dict.bytes.length
  | .json slots =>
    let blob := m.encodeSlots slots
    writeArray w blob blob.length

/-- The tag of a columns file, `ISSNCOL1`. -/
def colMagic : List UInt8 := [73, 83, 83, 78, 67, 79, 76, 49]

/-- Bytes of the header: the tag, the identity, the generation, the number of entities, the number
of columns and the length of the directory. -/
def colHeaderLen : ℕ := 8 + 16 + 8 + 8 + 8 + 8

def columnsWriter (m : Msgpack) (c : ColumnSet) (dbId : DbId) (commitGen : UInt64) : SumWriter :=
  let cols := c.cols.toList
  let directory := m.encodeDirectory (directoryOf m c)
  let w := SumWriter.new
    |>.put colMagic
    |>.put dbId.1
    |>.put (Word.bytes commitGen)
    |>.put (Word.bytes (UInt64.ofNat c.denseToId.length))
    |>.put (Word.bytes (UInt64.ofNat cols.length))
    |>.put (Word.bytes (UInt64.ofNat directory.length))
    |>.put directory
    |>.padTo8 (colHeaderLen + directory.length)
  (cols.foldl (fun w e => writeColumn m w e.2)
    (writeArray (w, 0) c.denseToId (c.denseToId.length * 8))).1

def cacheFileGen (file : CacheFile) (dbId : DbId) : Option UInt64 := do
  let header ← slice file.bytes 0 32
  if header.take 8 = colMagic ∧ (header.drop 8).take 16 = dbId.1 then
    pure (Sum64.word (header.drop 24))
  else none

/-- Write the cache file of a column set, unless the file that exists already claims the
generation. -/
def saveColumns (m : Msgpack) (existing : Option CacheFile) (c : ColumnSet) (dbId : DbId)
    (commitGen : UInt64) : Option CacheFile :=
  if (existing.bind fun file => cacheFileGen file dbId) = some commitGen then existing
  else CacheFile.create (columnsWriter m c dbId commitGen).finish

/-! ## Reading -/

section Reading

open Mapping

/-- The data region of a file: where it starts, and how long it is. -/
structure DataRegion where
  start : ℕ
  length : ℕ

/-- Where a part of the directory lies in the file, and its length. A part past the data region is
refused. -/
def part (data : DataRegion) (p : UInt64 × UInt64) (width : ℕ) : Option (ℕ × ℕ) := do
  let stop ← checkedAdd p.1.toNat (← checkedMul p.2.toNat width)
  if stop ≤ data.length then pure (data.start + p.1.toNat, p.2.toNat) else none

def mapNullable (α : Type) [Word α] (bytes : List UInt8) (data : DataRegion)
    (words values : UInt64 × UInt64) (width : ℕ) : Mapping (NullableArray α) := do
  let (wo, wl) ← ofOption (part data words 8)
  let (vo, vl) ← ofOption (part data values width)
  let words ← mapped UInt64 bytes wo wl
  let present ← ofOption (Bitmap.fromWords words vl)
  let values ← mapped α bytes vo vl
  ofOption (NullableArray.fromParts present values)

def mapColumn (m : Msgpack) (bytes : List UInt8) (data : DataRegion) (entry : ColumnEntry) :
    Mapping StoredColumn :=
  match entry.parts with
  | [words, values] =>
    if entry.kind = kindInt then do
      let col ← mapNullable Int64 bytes data words values 8
      pure (.int col)
    else if entry.kind = kindFloat then do
      let col ← mapNullable UInt64 bytes data words values 8
      pure (.float col)
    else if entry.kind = kindBool then do
      let (wo, wl) ← ofOption (part data words 8)
      let (vo, vl) ← ofOption (part data values 1)
      let words ← mapped UInt64 bytes wo wl
      let present ← ofOption (Bitmap.fromWords words vl)
      let values ← mapped UInt8 bytes vo vl
      ensure (values.all (· ≤ 1))
      let col ← ofOption (NullableArray.fromParts present values)
      pure (.bool col)
    else Exec.throw ()
  | [codes, offsets, dictBytes] =>
    if entry.kind = kindStr then do
      let (io, il) ← ofOption (part data codes 4)
      let (oo, ol) ← ofOption (part data offsets 8)
      let (bo, bl) ← ofOption (part data dictBytes 1)
      let idx ← mapped UInt32 bytes io il
      let offsets ← mapped UInt64 bytes oo ol
      let dictBytes ← mapped UInt8 bytes bo bl
      let dict ← ofOption (StrDict.fromParts offsets dictBytes)
      ensure (idx.all fun i => i = strNull ∨ i.toNat < dict.len)
      pure (.str dict idx)
    else Exec.throw ()
  | [blob] =>
    if entry.kind = kindJson then do
      let (bo, bl) ← ofOption (part data blob 1)
      let blob ← ofOption (slice bytes bo (bo + bl))
      let slots ← ofOption (m.decodeSlots blob)
      pure (.json slots)
    else Exec.throw ()
  | _ => Exec.throw ()

def mapColumns (m : Msgpack) (bytes : List UInt8) (data : DataRegion) :
    List ColumnEntry → Mapping (List (String × StoredColumn))
  | [] => pure []
  | entry :: entries => do
    let col ← mapColumn m bytes data entry
    let cols ← mapColumns m bytes data entries
    pure ((entry.name, col) :: cols)

/-- Map the cache file of the columns, unless it is foreign, stale, torn or inconsistent. -/
def loadColumns (m : Msgpack) (file : CacheFile) (dbId : DbId) (expectedGen : UInt64) :
    Mapping ColumnSet := do
  let bytes := file.bytes
  ensure (colHeaderLen + 8 ≤ bytes.length)
  ensure (bytes.take 8 = colMagic ∧ (bytes.drop 8).take 16 = dbId.1)
  let gen ← ofOption (u64At bytes 24)
  ensure (gen = expectedGen)
  let bodyLen := bytes.length - 8
  let sum ← ofOption (u64At bytes bodyLen)
  ensure (checksumOf (bytes.take bodyLen) = sum)
  let n ← ofOption (u64At bytes 32)
  let ncols ← ofOption (u64At bytes 40)
  let dirLen ← ofOption (u64At bytes 48)
  let dirEnd ← ofOption (checkedAdd colHeaderLen dirLen.toNat)
  let directory ← ofOption (slice bytes colHeaderLen dirEnd)
  let entries ← ofOption (m.decodeDirectory directory)
  ensure (entries.length = ncols.toNat)
  let dataStart := align8 dirEnd
  ensure (dataStart ≤ bodyLen)
  let data : DataRegion := ⟨dataStart, bodyLen - dataStart⟩
  let (denseOff, _) ← ofOption (part data (0, n) 8)
  let denseToId ← mapped UInt64 bytes denseOff n.toNat
  let cols ← mapColumns m bytes data entries
  ofOption (ColumnSet.fromCacheFile denseToId cols)

end Reading

/-! ## What a loader maps -/

def StoredColumn.CodesInDict : StoredColumn → Prop
  | str dict idx => ∀ i ∈ idx, i = strNull ∨ i.toNat < dict.len
  | _ => True

variable {data : DataRegion} {col : StoredColumn} {w : SumWriter × ℕ} {bytes : List UInt8}
  {next : ℕ} {m : Msgpack} {file : CacheFile} {c : ColumnSet} {dbId : DbId}

lemma part_eq_some {p : UInt64 × UInt64} {width o l : ℕ} (h : part data p width = some (o, l)) :
    o = data.start + p.1.toNat ∧ l = p.2.toNat ∧ o + l * width ≤ data.start + data.length := by
  unfold part at h
  simp only [bind_eq_bind, bind_eq_some_iff, checkedMul_eq_some,
    checkedAdd_eq_some] at h
  obtain ⟨_, ⟨_, rfl⟩, _, ⟨_, rfl⟩, h⟩ := h
  split at h
  next hle =>
    obtain ⟨rfl, rfl⟩ := Prod.mk.inj (some.inj h)
    refine ⟨rfl, rfl, ?_⟩
    omega
  next => cases h

section Maps

variable {file : CacheFile} {data : DataRegion}

variable {α : Type}

/-- An array of a part of the directory lies in front of the checksum. -/
theorem meets_mapped_part (hdata : data.start + data.length ≤ file.bytes.length - 8) [Word α]
    {o l : ℕ} (h : o + l * Word.width α ≤ data.start + data.length) :
    Mapping.Meets (InBody file) (fun as => as.length = l) (Mapping.mapped α file.bytes o l) := by
  refine .mapped ?_
  unfold InBody
  dsimp only
  omega

lemma meets_part (p : UInt64 × UInt64) (width : ℕ) :
    Mapping.Meets (InBody file) (fun r => r.1 + r.2 * width ≤ data.start + data.length)
      (Mapping.ofOption (part data p width)) :=
  .ofOption fun _ h => (part_eq_some h).2.2

lemma meets_mapNullable (hdata : data.start + data.length ≤ file.bytes.length - 8) [Word α]
    (words values : UInt64 × UInt64) :
    Mapping.Meets (InBody file) (fun _ => True)
      (mapNullable α file.bytes data words values (Word.width α)) := by
  refine .bind (meets_part words 8) fun w hw => ?_
  refine .bind (meets_part values (Word.width α)) fun v hv => ?_
  refine .bind (meets_mapped_part hdata hw) fun _ _ => ?_
  refine .bind (.ofOption fun _ _ => trivial) fun _ _ => ?_
  refine .bind (meets_mapped_part hdata hv) fun _ _ => ?_
  exact .ofOption fun _ _ => trivial

lemma meets_throw {P : Region → Prop} {Q : α → Prop} :
    Mapping.Meets P Q (Exec.throw ()) := fun rs hrs => ⟨hrs, fun a heq => by cases heq⟩

lemma meets_mapColumn (hdata : data.start + data.length ≤ file.bytes.length - 8) (m : Msgpack)
    (entry : ColumnEntry) :
    Mapping.Meets (InBody file) StoredColumn.CodesInDict
      (mapColumn m file.bytes data entry) := by
  unfold mapColumn
  split
  next words values _ =>
    split
    next => exact .bind (meets_mapNullable hdata words values) fun _ _ => .pure trivial
    next =>
      split
      next => exact .bind (meets_mapNullable hdata words values) fun _ _ => .pure trivial
      next =>
        split
        next =>
          refine .bind (meets_part words 8) fun w hw => ?_
          refine .bind (meets_part values 1) fun v hv => ?_
          refine .bind (meets_mapped_part hdata hw) fun _ _ => ?_
          refine .bind (.ofOption fun _ _ => trivial) fun _ _ => ?_
          refine .bind (meets_mapped_part hdata hv) fun _ _ => ?_
          refine .bind (.ensure _) fun _ _ => ?_
          exact .bind (.ofOption fun _ _ => trivial) fun _ _ => .pure trivial
        next => exact meets_throw
  next codes offsets dictBytes _ =>
    split
    next =>
      refine .bind (meets_part codes 4) fun i hi => ?_
      refine .bind (meets_part offsets 8) fun o ho => ?_
      refine .bind (meets_part dictBytes 1) fun b hb => ?_
      refine .bind (meets_mapped_part hdata hi) fun idx _ => ?_
      refine .bind (meets_mapped_part hdata ho) fun _ _ => ?_
      refine .bind (meets_mapped_part hdata hb) fun _ _ => ?_
      refine .bind (.ofOption fun _ _ => trivial) fun dict _ => ?_
      refine .bind (.ensure _) fun _ hcodes => .pure ?_
      intro i hi
      have := List.all_eq_true.mp hcodes i hi
      simpa using this
    next => exact meets_throw
  next blob _ =>
    split
    next =>
      refine .bind (meets_part blob 1) fun b hb => ?_
      refine .bind (.ofOption fun _ _ => trivial) fun _ _ => ?_
      exact .bind (.ofOption fun _ _ => trivial) fun _ _ => .pure trivial
    next => exact meets_throw
  next => exact meets_throw

lemma meets_mapColumns (hdata : data.start + data.length ≤ file.bytes.length - 8) (m : Msgpack)
    (entries : List ColumnEntry) :
    Mapping.Meets (InBody file) (fun cols => ∀ e ∈ cols, e.2.CodesInDict)
      (mapColumns m file.bytes data entries) := by
  induction entries with
  | nil => exact .pure fun e he => by cases he
  | cons entry entries ih =>
    refine .bind (meets_mapColumn hdata m entry) fun col hcol => ?_
    refine .bind ih fun cols hcols => .pure ?_
    intro e he
    rcases mem_cons.mp he with rfl | he
    · exact hcol
    · exact hcols e he

end Maps

lemma get_foldl_put_eq_some {cols : List (String × StoredColumn)} {t : Table String StoredColumn}
    {prop : String} (h : (cols.foldl (fun t e => t.put e.1 e.2) t).get prop = some col) :
    t.get prop = some col ∨ (prop, col) ∈ cols := by
  induction cols generalizing t with
  | nil => exact .inl h
  | cons e cols ih =>
    rcases ih h with hget | hmem
    · rw [Table.get_put] at hget
      split at hget
      next heq =>
        obtain rfl := some.inj hget
        exact .inr (heq ▸ mem_cons_self)
      next => exact .inl hget
    · exact .inr (mem_cons_of_mem _ hmem)

/-- Whatever the bytes of a file, what is mapped lies in front of the checksum, and the codes of an
accepted string column are codes of its dictionary. -/
theorem meets_loadColumns (m : Msgpack) (file : CacheFile) (dbId : DbId) (expectedGen : UInt64) :
    Mapping.Meets (InBody file)
      (fun c => ∀ prop col, c.cols.get prop = some col → col.CodesInDict)
      (loadColumns m file dbId expectedGen) := by
  unfold loadColumns
  refine .bind (.ensure _) fun _ _ => ?_
  refine .bind (.ensure _) fun _ _ => ?_
  refine .bind (.ofOption fun _ _ => trivial) fun _ _ => ?_
  refine .bind (.ensure _) fun _ _ => ?_
  refine .bind (.ofOption fun _ _ => trivial) fun _ _ => ?_
  refine .bind (.ensure _) fun _ _ => ?_
  refine .bind (.ofOption fun _ _ => trivial) fun n _ => ?_
  refine .bind (.ofOption fun _ _ => trivial) fun ncols _ => ?_
  refine .bind (.ofOption fun _ _ => trivial) fun dirLen _ => ?_
  refine .bind (.ofOption fun _ _ => trivial) fun dirEnd _ => ?_
  refine .bind (.ofOption fun _ _ => trivial) fun directory _ => ?_
  refine .bind (.ofOption fun _ _ => trivial) fun entries _ => ?_
  refine .bind (.ensure _) fun _ _ => ?_
  refine .bind (.ensure _) fun _ hstart => ?_
  have hdata : align8 dirEnd + (file.bytes.length - 8 - align8 dirEnd) ≤ file.bytes.length - 8 := by
    have := of_decide_eq_true hstart
    omega
  have hdense : ∀ r, part ⟨align8 dirEnd, file.bytes.length - 8 - align8 dirEnd⟩ (0, n) 8 = some r →
      r.1 + n.toNat * 8 ≤ align8 dirEnd + (file.bytes.length - 8 - align8 dirEnd) := by
    intro r hr
    obtain ⟨-, hlen, hle⟩ := part_eq_some hr
    rwa [hlen] at hle
  refine .bind (.ofOption hdense) fun r hr => ?_
  refine .bind (.mapped ?_) fun denseToId _ => ?_
  · exact hr.trans hdata
  refine .bind (meets_mapColumns hdata m entries) fun cols hcols => ?_
  refine .ofOption fun c hc prop col hcol => ?_
  unfold ColumnSet.fromCacheFile at hc
  split at hc
  next =>
    obtain rfl := some.inj hc
    rcases get_foldl_put_eq_some hcol with hget | hmem
    · cases hget
    · exact hcols _ hmem
  next => cases hc

/-! ## The round trip -/

lemma toBytes_uint8 (bytes : List UInt8) : Word.toBytes bytes = bytes := by
  induction bytes with
  | nil => rfl
  | cons b bytes ih =>
    have hbytes : Word.bytes b = [b] := by
      change [UInt8.ofNat b.toNat] = [b]
      rw [UInt8.ofNat_toNat]
    rw [Word.toBytes_cons, ih, hbytes, singleton_append]

/-- An array with the zeros behind it. -/
def padded (bytes : List UInt8) : List UInt8 := bytes ++ padding bytes.length

@[simp] lemma length_padded (bytes : List UInt8) : (padded bytes).length = align8 bytes.length := by
  have := le_align8 bytes.length
  simp only [padded, length_append, length_padding]
  omega

/-- The arrays of a column in the data region. -/
def columnBytes (m : Msgpack) : StoredColumn → List UInt8
  | .int v => padded (Word.toBytes v.present.words) ++ padded (Word.toBytes v.values)
  | .float v => padded (Word.toBytes v.present.words) ++ padded (Word.toBytes v.values)
  | .bool v => padded (Word.toBytes v.present.words) ++ padded (Word.toBytes v.values)
  | .str dict idx => padded (Word.toBytes idx) ++ (padded (Word.toBytes dict.offsets) ++
      padded (Word.toBytes dict.bytes))
  | .json slots => padded (Word.toBytes (m.encodeSlots slots))

/-- A writer wrote some more bytes to the data region, and is at a multiple of eight. -/
def Wrote (w w' : SumWriter × ℕ) (bytes : List UInt8) : Prop :=
  w'.1.inner = w.1.inner ++ bytes ∧ w'.2 = w.2 + bytes.length ∧ w'.2 % 8 = 0

lemma Wrote.trans {w w' w'' : SumWriter × ℕ} {bytes more : List UInt8} (h : Wrote w w' bytes)
    (h' : Wrote w' w'' more) : Wrote w w'' (bytes ++ more) := by
  obtain ⟨hinner, hwritten, -⟩ := h
  obtain ⟨hinner', hwritten', haligned⟩ := h'
  refine ⟨by rw [hinner', hinner, append_assoc], ?_, haligned⟩
  rw [hwritten', hwritten, length_append, Nat.add_assoc]

lemma wrote_writeArray {α : Type} [Word α] (hw : w.2 % 8 = 0) (as : List α) {byteLen : ℕ}
    (hlen : byteLen = as.length * Word.width α) :
    Wrote w (writeArray w as byteLen) (padded (Word.toBytes as)) := by
  have hbytes : byteLen = (Word.toBytes as).length := by rw [hlen, Word.length_toBytes]
  have halign := align8_add hw byteLen
  have hle := le_align8 byteLen
  refine ⟨?_, ?_, align8_mod _⟩
  · have hpad : padding (w.2 + byteLen) = padding (Word.toBytes as).length := by
      unfold padding
      rw [halign, ← hbytes]
      congr 1
      omega
    simp only [writeArray, SumWriter.inner_padTo8, SumWriter.inner_putAll, hpad, padded,
      append_assoc]
  · simp only [writeArray, length_padded, halign, ← hbytes]

lemma wrote_writeColumn (m : Msgpack) (hw : w.2 % 8 = 0) (col : StoredColumn) :
    Wrote w (writeColumn m w col) (columnBytes m col) := by
  cases col with
  | int v =>
    have hwords := wrote_writeArray hw v.present.words rfl
    exact hwords.trans (wrote_writeArray hwords.2.2 v.values rfl)
  | float v =>
    have hwords := wrote_writeArray hw v.present.words rfl
    exact hwords.trans (wrote_writeArray hwords.2.2 v.values rfl)
  | bool v =>
    have hwords := wrote_writeArray hw v.present.words rfl
    exact hwords.trans (wrote_writeArray hwords.2.2 v.values (Nat.mul_one _).symm)
  | str dict idx =>
    have hidx := wrote_writeArray hw idx rfl
    have hoffsets := wrote_writeArray hidx.2.2 dict.offsets rfl
    exact hidx.trans (hoffsets.trans
      (wrote_writeArray hoffsets.2.2 dict.bytes (Nat.mul_one _).symm))
  | json slots => exact wrote_writeArray hw (m.encodeSlots slots) (Nat.mul_one _).symm

lemma wrote_foldl_writeColumn (m : Msgpack) (cols : List (String × StoredColumn))
    (hw : w.2 % 8 = 0) :
    Wrote w (cols.foldl (fun w e => writeColumn m w e.2) w)
      (cols.flatMap fun e => columnBytes m e.2) := by
  induction cols generalizing w with
  | nil => exact ⟨(append_nil _).symm, rfl, hw⟩
  | cons e cols ih =>
    have hcol := wrote_writeColumn m hw e.2
    exact hcol.trans (ih hcol.2.2)

/-- Some bytes lie at offset `next` of the data region. -/
structure LiesAt (bytes : List UInt8) (data : DataRegion) (next : ℕ) (s : List UInt8) : Prop where
  split : ∃ before after, bytes = before ++ (s ++ after) ∧ before.length = data.start + next
  length_lt : bytes.length < 2 ^ 64
  start_mod : data.start % 8 = 0
  next_mod : next % 8 = 0
  stop_le : next + s.length ≤ data.length
  data_lt : data.length < 2 ^ 64

namespace LiesAt

variable {bytes : List UInt8} {data : DataRegion} {next : ℕ}

lemma left {s t : List UInt8} (h : LiesAt bytes data next (s ++ t)) :
    LiesAt bytes data next s := by
  obtain ⟨before, after, hbytes, hbefore⟩ := h.split
  refine { h with split := ⟨before, t ++ after, ?_, hbefore⟩, stop_le := ?_ }
  · rw [hbytes, append_assoc]
  · have := h.stop_le
    rw [length_append] at this
    omega

lemma right {s t : List UInt8} (h : LiesAt bytes data next (s ++ t)) (hs : s.length % 8 = 0) :
    LiesAt bytes data (next + s.length) t := by
  obtain ⟨before, after, hbytes, hbefore⟩ := h.split
  refine { h with split := ⟨before ++ s, after, ?_, ?_⟩, next_mod := ?_, stop_le := ?_ }
  · rw [hbytes]
    simp only [append_assoc]
  · rw [length_append, hbefore, Nat.add_assoc]
  · have := h.next_mod
    omega
  · have := h.stop_le
    rw [length_append] at this
    omega

variable {α : Type} [Word α] {as : List α}

/-- The directory entry of an array is accepted. -/
theorem part_eq (h : LiesAt bytes data next (padded (Word.toBytes as))) {width : ℕ}
    (hwidth : width = Word.width α) (hpos : 0 < width) :
    part data (UInt64.ofNat next, UInt64.ofNat as.length) width =
      some (data.start + next, as.length) := by
  have hstop : next + as.length * width ≤ data.length := by
    have := h.stop_le
    have hle := le_align8 (as.length * Word.width α)
    rw [length_padded, Word.length_toBytes] at this
    rw [hwidth]
    omega
  have hlen : as.length ≤ as.length * width := Nat.le_mul_of_pos_right _ hpos
  have hdata := h.data_lt
  have hnext : (UInt64.ofNat next).toNat = next := by
    rw [UInt64.toNat_ofNat']
    omega
  have hcount : (UInt64.ofNat as.length).toNat = as.length := by
    rw [UInt64.toNat_ofNat']
    omega
  have hmul : checkedMul as.length width = some (as.length * width) :=
    checkedMul_eq_some.mpr ⟨by omega, rfl⟩
  have hadd : checkedAdd next (as.length * width) = some (next + as.length * width) :=
    checkedAdd_eq_some.mpr ⟨by omega, rfl⟩
  simp only [part, hnext, hcount, hmul, hadd, bind_eq_bind, bind_some, hstop, if_pos,
    Option.pure_def]

lemma returns_mapped (h : LiesAt bytes data next (padded (Word.toBytes as)))
    (hwidth : Word.width α ∣ 8) :
    Mapping.Returns as (Mapping.mapped α bytes (data.start + next) as.length) := by
  obtain ⟨before, after, hbytes, hbefore⟩ := h.split
  rw [padded, append_assoc] at hbytes
  refine .mapped hbytes h.length_lt hbefore.symm rfl ?_
  have hmod : 8 ∣ data.start + next := by
    have := h.start_mod
    have := h.next_mod
    omega
  exact Nat.mod_eq_zero_of_dvd (hwidth.trans hmod)

end LiesAt

lemma returns_mapNullable {α : Type} [Word α] {v : NullableArray α} (hv : v.Built)
    (h : LiesAt bytes data next (padded (Word.toBytes v.present.words) ++
      padded (Word.toBytes v.values)))
    {width : ℕ} (hwidth : width = Word.width α) (hpos : 0 < width) (hdvd : width ∣ 8) :
    Mapping.Returns v (mapNullable α bytes data
      (UInt64.ofNat next, UInt64.ofNat v.present.words.length)
      (UInt64.ofNat (align8 (next + v.present.words.length * 8)), UInt64.ofNat v.values.length)
      width) := by
  have hwords := h.left
  have hlen : (padded (Word.toBytes v.present.words)).length =
      align8 (v.present.words.length * 8) := by
    rw [length_padded, Word.length_toBytes]
    rfl
  have hvalues := h.right (by rw [length_padded, align8_mod])
  rw [hlen, ← align8_add h.next_mod] at hvalues
  refine .bind (.ofOption (hwords.part_eq rfl (by decide))) ?_
  refine .bind (.ofOption (hvalues.part_eq hwidth hpos)) ?_
  refine .bind (hwords.returns_mapped (by decide)) ?_
  refine .bind (.ofOption (a := v.present) ?_) ?_
  · rw [Bitmap.fromWords, ← hv.1, if_pos hv.2]
  refine .bind (hvalues.returns_mapped (hwidth ▸ hdvd)) ?_
  refine .ofOption ?_
  rw [NullableArray.fromParts, if_pos hv.1]

lemma placeColumn_next (m : Msgpack) (hnext : next % 8 = 0) (col : StoredColumn) :
    (placeColumn m next col).2 = next + (columnBytes m col).length ∧
      (placeColumn m next col).2 % 8 = 0 := by
  have hwidth : Word.width UInt64 = 8 ∧ Word.width UInt32 = 4 ∧ Word.width UInt8 = 1 ∧
      Word.width Int64 = 8 := ⟨rfl, rfl, rfl, rfl⟩
  cases col <;>
    simp only [placeColumn, placeNullable, place, columnBytes, length_append, length_padded,
      Word.length_toBytes, hwidth] <;>
    unfold align8 <;> omega

lemma returns_mapColumn (hm : m.FaithfulOnColumn col) (hcol : col.Built)
    (h : LiesAt bytes data next (columnBytes m col)) (name : String) :
    Mapping.Returns col (mapColumn m bytes data
      ⟨name, (placeColumn m next col).1.1, (placeColumn m next col).1.2⟩) := by
  cases col with
  | int v => exact .bind (returns_mapNullable hcol h rfl (by decide) (by decide)) (.pure _)
  | float v => exact .bind (returns_mapNullable hcol h rfl (by decide) (by decide)) (.pure _)
  | bool v =>
    have hwords := h.left
    have hlen : (padded (Word.toBytes v.present.words)).length =
        align8 (v.present.words.length * 8) := by
      rw [length_padded, Word.length_toBytes]
      rfl
    have hvalues := h.right (by rw [length_padded, align8_mod])
    rw [hlen, ← align8_add h.next_mod] at hvalues
    refine .bind (.ofOption (hwords.part_eq rfl (by decide))) ?_
    refine .bind (.ofOption (hvalues.part_eq rfl (by decide))) ?_
    refine .bind (hwords.returns_mapped (by decide)) ?_
    refine .bind (.ofOption (a := v.present) ?_) ?_
    · rw [Bitmap.fromWords, ← hcol.1.1, if_pos hcol.1.2]
    refine .bind (hvalues.returns_mapped (by decide)) ?_
    refine .bind (.ensure ?_) ?_
    · exact List.all_eq_true.mpr fun b hb => decide_eq_true (hcol.2 b hb)
    refine .bind (.ofOption (a := v) ?_) (.pure _)
    rw [NullableArray.fromParts, if_pos hcol.1.1]
  | str dict idx =>
    have hidx := h.left
    have hrest := h.right (by rw [length_padded, align8_mod])
    rw [length_padded, Word.length_toBytes, ← align8_add h.next_mod] at hrest
    have hoffsets := hrest.left
    have hbytes := hrest.right (by rw [length_padded, align8_mod])
    rw [length_padded, Word.length_toBytes, ← align8_add hrest.next_mod] at hbytes
    refine .bind (.ofOption (hidx.part_eq rfl (by decide))) ?_
    refine .bind (.ofOption (hoffsets.part_eq rfl (by decide))) ?_
    refine .bind (.ofOption (hbytes.part_eq rfl (by decide))) ?_
    refine .bind (hidx.returns_mapped (by decide)) ?_
    refine .bind (hoffsets.returns_mapped (by decide)) ?_
    refine .bind (hbytes.returns_mapped (by decide)) ?_
    refine .bind (.ofOption (a := dict) ?_) ?_
    · rw [StrDict.fromParts, if_pos hcol.1]
    refine .bind (.ensure ?_) (.pure _)
    exact List.all_eq_true.mpr fun i hi => decide_eq_true (hcol.2 i hi)
  | json slots =>
    refine .bind (.ofOption (h.part_eq rfl (by decide))) ?_
    obtain ⟨before, after, hbytes, hbefore⟩ := h.split
    rw [columnBytes, padded, toBytes_uint8, append_assoc] at hbytes
    refine .bind (.ofOption (slice_append hbytes hbefore.symm (by rw [hbefore]))) ?_
    exact .bind (.ofOption hm) (.pure _)

lemma returns_mapColumns {cols : List (String × StoredColumn)}
    (hm : ∀ e ∈ cols, m.FaithfulOnColumn e.2) (hcols : ∀ e ∈ cols, e.2.Built)
    (h : LiesAt bytes data next (cols.flatMap fun e => columnBytes m e.2)) :
    Mapping.Returns cols (mapColumns m bytes data (placeColumns m next cols).1) := by
  induction cols generalizing next with
  | nil => exact .pure []
  | cons e cols ih =>
    obtain ⟨name, col⟩ := e
    have hplace := placeColumn_next m h.next_mod col
    have hmod : (columnBytes m col).length % 8 = 0 := by
      have := h.next_mod
      omega
    rw [flatMap_cons] at h
    have hrest := h.right hmod
    rw [← hplace.1] at hrest
    have hhead := returns_mapColumn (hm _ mem_cons_self) (hcols _ mem_cons_self) h.left name
    refine .bind hhead ?_
    refine .bind (ih (fun e he => hm e (mem_cons_of_mem _ he))
      (fun e he => hcols e (mem_cons_of_mem _ he)) hrest) ?_
    exact .pure _

lemma length_placeColumns (m : Msgpack) (next : ℕ) (cols : List (String × StoredColumn)) :
    (placeColumns m next cols).1.length = cols.length := by
  induction cols generalizing next with
  | nil => rfl
  | cons e cols ih => simp [placeColumns, ih]

def dataBytes (m : Msgpack) (c : ColumnSet) : List UInt8 :=
  padded (Word.toBytes c.denseToId) ++ c.cols.toList.flatMap fun e => columnBytes m e.2

lemma columnsWriter_inner (m : Msgpack) (c : ColumnSet) (dbId : DbId) (commitGen : UInt64) :
    (columnsWriter m c dbId commitGen).inner = colMagic ++ (dbId.1 ++ (Word.bytes commitGen ++
      (Word.bytes (UInt64.ofNat c.denseToId.length) ++
      (Word.bytes (UInt64.ofNat c.cols.toList.length) ++
      (Word.bytes (UInt64.ofNat (m.encodeDirectory (directoryOf m c)).length) ++
      (m.encodeDirectory (directoryOf m c) ++
      (padding (colHeaderLen + (m.encodeDirectory (directoryOf m c)).length) ++
      dataBytes m c))))))) := by
  unfold columnsWriter
  dsimp only
  have hdense := wrote_writeArray (w := (SumWriter.new
    |>.put colMagic
    |>.put dbId.1
    |>.put (Word.bytes commitGen)
    |>.put (Word.bytes (UInt64.ofNat c.denseToId.length))
    |>.put (Word.bytes (UInt64.ofNat c.cols.toList.length))
    |>.put (Word.bytes (UInt64.ofNat (m.encodeDirectory (directoryOf m c)).length))
    |>.put (m.encodeDirectory (directoryOf m c))
    |>.padTo8 (colHeaderLen + (m.encodeDirectory (directoryOf m c)).length), 0)) rfl c.denseToId rfl
  have hcols := wrote_foldl_writeColumn m c.cols.toList hdense.2.2
  refine (hdense.trans hcols).1.trans ?_
  simp only [SumWriter.inner_padTo8, SumWriter.inner_put, SumWriter.inner_new, nil_append,
    append_assoc, dataBytes]

lemma foldl_put_toList (t : Table String StoredColumn) :
    t.toList.foldl (fun t e => t.put e.1 e.2) .empty = t := by
  have hnodup : (t.toList.map Prod.fst).Nodup := by
    rw [Table.map_fst_toList]
    exact Finset.ascending_nodup _
  ext1 prop
  have hget := Table.get_foldl_put (fun col _ => col) hnodup Table.empty prop
  rcases h : t.get prop with _ | col
  · have hnot : prop ∉ t.toList.map Prod.fst := by
      simp [Table.map_fst_toList, h]
    rw [hget.2 hnot, Table.get_empty]
  · rw [hget.1 col (Table.mem_toList.mpr h)]

theorem returns_loadColumns (hm : m.FaithfulOn c) (hc : c.Built) {commitGen : UInt64}
    (hsave : CacheFile.create (columnsWriter m c dbId commitGen).finish = some file) :
    Mapping.Returns { c with idToDense := .fromSorted c.denseToId }
      (loadColumns m file dbId commitGen) := by
  obtain ⟨sum, hsum, hbytes⟩ : ∃ sum, sum = checksumOf (columnsWriter m c dbId commitGen).inner ∧
      file.bytes = (columnsWriter m c dbId commitGen).inner ++ Word.bytes sum :=
    ⟨_, rfl, by rw [CacheFile.bytes_of_create hsave, SumWriter.finish_eq]⟩
  have hlt : file.bytes.length < 2 ^ 64 := by
    have := file.length_lt
    omega
  have hword : ∀ v : UInt64, (Word.bytes v).length = 8 := Word.length_bytes
  have hmagic : colMagic.length = 8 := rfl
  have hdb := dbId.2
  -- the parts of the file
  have h₀ : file.bytes = colMagic ++ (dbId.1 ++ (Word.bytes commitGen ++
      (Word.bytes (UInt64.ofNat c.denseToId.length) ++
      (Word.bytes (UInt64.ofNat c.cols.toList.length) ++
      (Word.bytes (UInt64.ofNat (m.encodeDirectory (directoryOf m c)).length) ++
      (m.encodeDirectory (directoryOf m c) ++
      (padding (colHeaderLen + (m.encodeDirectory (directoryOf m c)).length) ++
      (dataBytes m c ++ Word.bytes sum)))))))) := by
    rw [hbytes, columnsWriter_inner]
    simp only [append_assoc]
  have h₁ := append_shift h₀
  have h₂ := append_shift h₁
  have h₃ := append_shift h₂
  have h₄ := append_shift h₃
  have h₅ := append_shift h₄
  have h₆ := append_shift h₅
  have h₇ := append_shift h₆
  have hlen := congrArg List.length h₀
  simp only [length_append, hmagic, hdb, hword, length_padding] at hlen
  have hdense : (padded (Word.toBytes c.denseToId)).length = align8 (c.denseToId.length * 8) := by
    rw [length_padded, Word.length_toBytes]
    rfl
  have hdata : (dataBytes m c).length = align8 (c.denseToId.length * 8) +
      (c.cols.toList.flatMap fun e => columnBytes m e.2).length := by
    rw [dataBytes, length_append, hdense]
  have hn : (UInt64.ofNat c.denseToId.length).toNat = c.denseToId.length := by
    have := le_align8 (c.denseToId.length * 8)
    rw [UInt64.toNat_ofNat']
    omega
  have hncols : (UInt64.ofNat c.cols.toList.length).toNat = c.cols.toList.length := by
    have := hc.cols_lt
    rw [UInt64.toNat_ofNat']
    omega
  have hdir : (UInt64.ofNat (m.encodeDirectory (directoryOf m c)).length).toNat =
      (m.encodeDirectory (directoryOf m c)).length := by
    rw [UInt64.toNat_ofNat']
    omega
  have hbody : file.bytes.length - 8 = (columnsWriter m c dbId commitGen).inner.length := by
    rw [hbytes, length_append, hword]
    omega
  have hend : file.bytes = (columnsWriter m c dbId commitGen).inner ++ (Word.bytes sum ++ []) := by
    rw [append_nil, hbytes]
  have hheader : colHeaderLen = 56 := rfl
  have hpad := le_align8 (colHeaderLen + (m.encodeDirectory (directoryOf m c)).length)
  unfold loadColumns
  refine .bind (.ensure ?_) ?_
  · rw [decide_eq_true_eq]
    omega
  refine .bind (.ensure ?_) ?_
  · rw [decide_eq_true_eq, h₀, take_left' hmagic, drop_left' hmagic, take_left' hdb]
    exact ⟨rfl, rfl⟩
  refine .bind (.ofOption (u64At_append h₁ hlt ?_)) ?_
  · simp only [length_append, hmagic, hdb]
  refine .bind (.ensure (decide_eq_true rfl)) ?_
  refine .bind (.ofOption (u64At_append hend hlt hbody)) ?_
  refine .bind (.ensure ?_) ?_
  · rw [decide_eq_true_eq, hbody, hbytes, take_left, hsum]
  refine .bind (.ofOption (u64At_append h₂ hlt ?_)) ?_
  · simp only [length_append, hmagic, hdb, hword]
  refine .bind (.ofOption (u64At_append h₃ hlt ?_)) ?_
  · simp only [length_append, hmagic, hdb, hword]
  refine .bind (.ofOption (u64At_append h₄ hlt ?_)) ?_
  · simp only [length_append, hmagic, hdb, hword]
  rw [hdir, hn, hncols]
  refine .bind (.ofOption (checkedAdd_eq_some.mpr ⟨by omega, rfl⟩)) ?_
  refine .bind (.ofOption (slice_append h₅ ?_ ?_)) ?_
  · simp only [length_append, hmagic, hdb, hword, colHeaderLen]
  · simp only [length_append, hmagic, hdb, hword, colHeaderLen]
  refine .bind (.ofOption hm.directory) ?_
  have hentries : (directoryOf m c).length = c.cols.toList.length := length_placeColumns m _ _
  refine .bind (.ensure (decide_eq_true hentries)) ?_
  refine .bind (.ensure ?_) ?_
  · rw [decide_eq_true_eq]
    omega
  -- the data region holds the ids and then the columns
  have hlies :
      LiesAt file.bytes ⟨align8 (colHeaderLen + (m.encodeDirectory (directoryOf m c)).length),
      file.bytes.length - 8 -
      align8 (colHeaderLen + (m.encodeDirectory (directoryOf m c)).length)⟩ 0
      (dataBytes m c) := by
    refine ⟨⟨_, _, h₇, ?_⟩, hlt, align8_mod _, rfl, ?_, ?_⟩
    · simp only [length_append, hmagic, hdb, hword, length_padding]
      omega
    · dsimp only
      omega
    · dsimp only
      omega
  have hids := hlies.left
  have hcols := hlies.right (by rw [length_padded, align8_mod])
  rw [hdense, Nat.zero_add] at hcols
  have hpart := hids.part_eq rfl (by decide)
  have hzero : UInt64.ofNat 0 = 0 := rfl
  rw [hzero] at hpart
  refine .bind (.ofOption hpart) ?_
  refine .bind (hids.returns_mapped (by decide)) ?_
  have hnext : (place 0 (c.denseToId.length * 8)).2 = align8 (c.denseToId.length * 8) := by
    rw [place, Nat.zero_add]
  rw [← hnext] at hcols
  refine .bind (returns_mapColumns ?_ ?_ hcols) ?_
  · exact fun e he => hm.cols e.1 e.2 (Table.mem_toList.mp he)
  · exact fun e he => (hc.cols e.1 e.2 (Table.mem_toList.mp he)).1
  refine .ofOption ?_
  have hcover : (c.cols.toList.all fun e => e.2.length = c.denseToId.length) = true :=
    List.all_eq_true.mpr fun e he =>
      decide_eq_true (hc.cols e.1 e.2 (Table.mem_toList.mp he)).2
  rw [ColumnSet.fromCacheFile, if_pos hcover, foldl_put_toList]

lemma cacheFileGen_of_create {commitGen : UInt64}
    (hsave : CacheFile.create (columnsWriter m c dbId commitGen).finish = some file) :
    cacheFileGen file dbId = some commitGen := by
  have hmagic : colMagic.length = 8 := rfl
  have hgen : (Word.bytes commitGen).length = 8 := Word.length_bytes commitGen
  obtain ⟨rest, hbytes⟩ : ∃ rest, file.bytes =
      [] ++ ((colMagic ++ (dbId.1 ++ Word.bytes commitGen)) ++ rest) := by
    obtain ⟨inner, hinner⟩ : ∃ inner, (columnsWriter m c dbId commitGen).inner = inner := ⟨_, rfl⟩
    obtain ⟨rest, hrest⟩ : ∃ rest, inner =
        colMagic ++ (dbId.1 ++ (Word.bytes commitGen ++ rest)) :=
      ⟨_, hinner.symm.trans (columnsWriter_inner m c dbId commitGen)⟩
    refine ⟨rest ++ Word.bytes (checksumOf inner), ?_⟩
    rw [CacheFile.bytes_of_create hsave, SumWriter.finish_eq, hinner]
    generalize checksumOf inner = sum
    simp only [hrest, append_assoc, nil_append]
  have hslice : slice file.bytes 0 32 = some (colMagic ++ (dbId.1 ++ Word.bytes commitGen)) :=
    slice_append hbytes rfl (by simp [hmagic, dbId.2, hgen])
  have hdrop : (colMagic ++ (dbId.1 ++ Word.bytes commitGen)).drop 24 = Word.bytes commitGen := by
    rw [← append_assoc]
    exact drop_left' (by simp [hmagic, dbId.2])
  have hword : Sum64.word (Word.bytes commitGen) = commitGen := Word.ofLeBytes_bytes commitGen
  unfold cacheFileGen
  rw [hslice]
  simp only [bind_eq_bind, bind_some, take_left' hmagic, drop_left' hmagic,
    take_left' dbId.2, and_self, if_true, hdrop, hword, Option.pure_def]

/-- The columns file that exists holds what the entities had at the generation that it claims.
`values` are the values by generation. -/
def SavedFrom (m : Msgpack) (dbId : DbId) (values : UInt64 → ℕ → String → Option Json)
    (existing : Option CacheFile) : Prop :=
  ∀ file gen, existing = some file → cacheFileGen file dbId = some gen →
    ∃ c : ColumnSet, c.Built ∧ m.FaithfulOn c ∧
      CacheFile.create (columnsWriter m c dbId gen).finish = some file ∧
      c.value = values gen

/-- Columns that were built have the same values when they are read back. -/
theorem value_fromSorted (hc : c.Built) :
    { c with idToDense := .fromSorted c.denseToId : ColumnSet }.value = c.value := by
  funext id prop
  have hindex := DenseIndex.indexes_fromIds hc.indexes.1
  have hget : (DenseIndex.fromSorted c.denseToId).get id = c.idToDense.get id := by
    rw [DenseIndex.fromSorted_eq hc.id_lt]
    exact Option.ext fun dense => (hindex.2 id dense).trans (hc.indexes.2 id dense).symm
  simp only [ColumnSet.value, hget]

/-- After a save, written or skipped, the columns are read back with the same values. -/
theorem loadColumns_saveColumns {values : UInt64 → ℕ → String → Option Json}
    {existing : Option CacheFile} (hexisting : SavedFrom m dbId values existing)
    (hm : m.FaithfulOn c) (hc : c.Built) {gen : UInt64} (hvalues : c.value = values gen)
    (hsave : saveColumns m existing c dbId gen = some file) :
    SavedFrom m dbId values (some file) ∧
      ∃ loaded, (loadColumns m file dbId gen []).1 = .ok loaded ∧ loaded.value = c.value := by
  unfold saveColumns at hsave
  split at hsave
  next hskip =>
    subst hsave
    obtain ⟨c', hc', hm', hcreate, hvalues'⟩ := hexisting file gen rfl hskip
    refine ⟨hexisting, _, returns_loadColumns hm' hc' hcreate [], ?_⟩
    rw [value_fromSorted hc', hvalues', hvalues]
  next =>
    refine ⟨?_, _, returns_loadColumns hm hc hsave [], value_fromSorted hc⟩
    rintro file' gen' heq hgen
    obtain rfl := some.inj heq
    obtain rfl : gen = gen' := some.inj ((cacheFileGen_of_create hsave).symm.trans hgen)
    exact ⟨c, hc, hm, hsave, hvalues⟩

/-! ## Both files -/

/-- Two snapshots agree on every array, and on the slot of every id. -/
def CsrSnapshot.Same (s t : CsrSnapshot) : Prop :=
  { s with idToDense := t.idToDense } = t ∧ ∀ id, s.idToDense.get id = t.idToDense.get id

/-- A saved snapshot has the length that the reader computes, and is read back. -/
theorem loadCsr_saveCsr {s : CsrSnapshot} (hs : s.Built) {gen : UInt64}
    (hsave : saveCsr s dbId gen = some file) :
    csrFileLen s.nodes s.edges s.edgeWeight.isSome = some file.bytes.length ∧
      ∀ wantWeights, (wantWeights = true → s.edgeWeight.isSome = true) →
        ∃ loaded : CsrSnapshot, (loadCsr file dbId gen wantWeights []).1 =
          .ok (loaded, file.bytes.length - 8) ∧ loaded.Same s := by
  have hlen : file.bytes.length = csrLen s.nodes s.edges s.edgeWeight.isSome := by
    rw [CacheFile.bytes_of_create hsave, length_csrWriter hs]
  have hlt := file.length_lt
  refine ⟨csrFileLen_eq_some.mpr ⟨hlen, by omega⟩, fun wantWeights hwant => ?_⟩
  refine ⟨_, returns_loadCsr hs hsave hwant [], rfl, fun id => ?_⟩
  have hindex := DenseIndex.indexes_fromIds hs.indexes.1
  dsimp only
  rw [DenseIndex.fromSorted_eq hs.id_lt]
  exact Option.ext fun dense => (hindex.2 id dense).trans (hs.indexes.2 id dense).symm

/-- The cache files round-trip. A saved snapshot has the length that the reader computes and is read
back, unless weights are asked for that it does not have; the reader ends at the checksum. Saved
columns are read back with the same values. And whatever the bytes of a file, the arrays that are
mapped lie in front of its checksum, and the codes of an accepted string column are codes of its
dictionary. -/
theorem cacheFiles_round_trip (m : Msgpack) (dbId : DbId) :
    (∀ s : CsrSnapshot, s.Built → ∀ gen file, saveCsr s dbId gen = some file →
      csrFileLen s.nodes s.edges s.edgeWeight.isSome = some file.bytes.length ∧
      ∀ wantWeights, (wantWeights = true → s.edgeWeight.isSome = true) →
        ∃ loaded : CsrSnapshot, (loadCsr file dbId gen wantWeights []).1 =
          .ok (loaded, file.bytes.length - 8) ∧ loaded.Same s) ∧
    (∀ values existing, SavedFrom m dbId values existing →
      ∀ c : ColumnSet, c.Built → m.FaithfulOn c → ∀ gen, c.value = values gen →
      ∀ file, saveColumns m existing c dbId gen = some file →
        SavedFrom m dbId values (some file) ∧
        ∃ loaded, (loadColumns m file dbId gen []).1 = .ok loaded ∧
          ∀ id prop, loaded.value id prop = c.value id prop) ∧
    ∀ file gen wantWeights,
      (∀ r ∈ (loadCsr file dbId gen wantWeights []).2, InBody file r) ∧
      (∀ r ∈ (loadColumns m file dbId gen []).2, InBody file r) ∧
      ∀ c, (loadColumns m file dbId gen []).1 = .ok c → ∀ prop dict idx,
        c.cols.get prop = some (.str dict idx) → ∀ i ∈ idx, i = strNull ∨ i.toNat < dict.len := by
  have hnil : ∀ file, ∀ r ∈ ([] : List Region), InBody file r := fun file r hr => by cases hr
  refine ⟨fun s hs gen file hsave => loadCsr_saveCsr hs hsave, ?_, ?_⟩
  · intro values existing hexisting c hc hm gen hvalues file hsave
    obtain ⟨hfile, loaded, hload, hsame⟩ := loadColumns_saveColumns hexisting hm hc hvalues hsave
    exact ⟨hfile, loaded, hload, fun id prop => by rw [hsame]⟩
  · intro file gen wantWeights
    have hcsr := meets_loadCsr file dbId gen wantWeights [] (hnil file)
    have hcolumns := meets_loadColumns m file dbId gen [] (hnil file)
    refine ⟨hcsr.1, hcolumns.1, fun c hc prop dict idx hget => ?_⟩
    exact hcolumns.2 c hc prop _ hget

/-- Two nodes with one edge of a weight between them. -/
def oneEdgeSnapshot : CsrSnapshot where
  rowPtr := [0, 1, 1]
  colIdx := [1]
  edgeType := [0]
  edgeId := [1]
  edgeWeight := some [4607182418800017408]
  hasNegativeWeight := false
  inRowPtr := [0, 0, 1]
  inColIdx := [0]
  inEdgeType := [0]
  inPos := [0]
  denseToId := [1, 2]
  idToDense := .contiguous 1 2

/-- One entity with one integer. -/
def oneIntColumn : ColumnSet where
  idToDense := .contiguous 1 1
  denseToId := [1]
  cols := Table.empty.put "a" (.int ⟨⟨[1], 1⟩, [7]⟩)

/-- The msgpack library on the directory of `oneIntColumn`. -/
def oneIntMsgpack : Msgpack where
  encodeDirectory _ := [0x91, 0x93, 0xa1, 0x61, 0x00, 0x92, 0x92, 0x08, 0x01, 0x92, 0x10, 0x01]
  decodeDirectory bytes :=
    if bytes = [0x91, 0x93, 0xa1, 0x61, 0x00, 0x92, 0x92, 0x08, 0x01, 0x92, 0x10, 0x01] then
      some [⟨"a", kindInt, [(8, 1), (16, 1)]⟩]
    else none
  encodeSlots _ := []
  decodeSlots _ := none

lemma built_oneEdgeSnapshot : oneEdgeSnapshot.Built where
  rowPtr := rfl
  edgeType := rfl
  edgeId := rfl
  edgeWeight weights h := by
    obtain rfl := some.inj h
    rfl
  inRowPtr := rfl
  inColIdx := rfl
  inEdgeType := rfl
  inPos := rfl
  edges_le := by decide
  indexes := by
    have hindex := DenseIndex.indexes_fromIds (show [1, 2].Nodup by decide)
    rw [DenseIndex.fromIds, if_pos (by decide)] at hindex
    exact hindex
  id_lt := by simp [oneEdgeSnapshot]

lemma toList_oneIntColumn :
    oneIntColumn.cols.toList = [("a", .int ⟨⟨[1], 1⟩, [7]⟩)] := rfl

lemma get_oneIntColumn {prop : String} (h : oneIntColumn.cols.get prop = some col) :
    col = .int ⟨⟨[1], 1⟩, [7]⟩ := by
  have hmem := Table.mem_toList.mpr h
  rw [toList_oneIntColumn, mem_singleton] at hmem
  exact congrArg Prod.snd hmem

lemma built_oneIntColumn : oneIntColumn.Built where
  indexes := by
    have hindex := DenseIndex.indexes_fromIds (show [1].Nodup by decide)
    rw [DenseIndex.fromIds, if_pos (by decide)] at hindex
    exact hindex
  id_lt := by simp [oneIntColumn]
  cols prop col h := by
    obtain rfl := get_oneIntColumn h
    exact ⟨⟨rfl, rfl⟩, rfl⟩
  cols_lt := by
    rw [toList_oneIntColumn]
    decide

lemma directoryOf_oneIntColumn : directoryOf oneIntMsgpack oneIntColumn =
    [⟨"a", kindInt, [(8, 1), (16, 1)]⟩] := rfl

lemma faithfulOn_oneIntColumn : oneIntMsgpack.FaithfulOn oneIntColumn where
  directory := by
    rw [directoryOf_oneIntColumn]
    rfl
  cols prop col h := by
    obtain rfl := get_oneIntColumn h
    trivial

/-- An identity. -/
def someDbId : DbId := ⟨.replicate 16 7, rfl⟩

theorem cacheFiles_round_trip_one : ∃ csr columns : CacheFile,
    saveCsr oneEdgeSnapshot someDbId 1 = some csr ∧
    (∃ loaded : CsrSnapshot, (loadCsr csr someDbId 1 true []).1 =
      .ok (loaded, csr.bytes.length - 8) ∧ loaded.Same oneEdgeSnapshot) ∧
    saveColumns oneIntMsgpack none oneIntColumn someDbId 1 = some columns ∧
    (∃ loaded, (loadColumns oneIntMsgpack columns someDbId 1 []).1 = .ok loaded ∧
      loaded.value 1 "a" = oneIntColumn.value 1 "a") := by
  have hcsr : (csrWriter oneEdgeSnapshot someDbId 1).finish.length < 2 ^ 63 := by
    rw [length_csrWriter built_oneEdgeSnapshot]
    decide
  have hcolumns : (columnsWriter oneIntMsgpack oneIntColumn someDbId 1).finish.length < 2 ^ 63 := by
    rw [SumWriter.finish_eq, columnsWriter_inner, dataBytes, toList_oneIntColumn]
    simp only [length_append, someDbId.2, Word.length_bytes, length_padding]
    decide
  have hsaved : SavedFrom oneIntMsgpack someDbId (fun _ => oneIntColumn.value) none :=
    fun file gen h => by cases h
  have hskip : saveColumns oneIntMsgpack none oneIntColumn someDbId 1 = some ⟨_, hcolumns⟩ := by
    rw [saveColumns, if_neg (by simp)]
    exact CacheFile.create_of_lt hcolumns
  obtain ⟨hsnapshots, hcols, -⟩ := cacheFiles_round_trip oneIntMsgpack someDbId
  refine ⟨⟨_, hcsr⟩, ⟨_, hcolumns⟩, CacheFile.create_of_lt hcsr, ?_, hskip, ?_⟩
  · exact (hsnapshots oneEdgeSnapshot built_oneEdgeSnapshot 1 _ (CacheFile.create_of_lt hcsr)).2
      true fun _ => rfl
  · obtain ⟨-, loaded, hload, hvalue⟩ := hcols _ none hsaved oneIntColumn built_oneIntColumn
      faithfulOn_oneIntColumn 1 rfl _ hskip
    exact ⟨loaded, hload, hvalue 1 "a"⟩

end IssunDB
