import IssunDB.Cypher.Aggregates
import IssunDB.Cypher.CsvRows

/-!
# Record batches of a Parquet file

How rows of values are put into typed columns and read back. The type of a column is inferred from
all its values: one primitive kind keeps a native type, and anything else is stored as JSON text,
with a mark in the field's metadata. A builder of a native type has a value for what it cannot hold.
Arrow and Parquet are taken as they are documented: a column is the list of its cells.

* `columnType_json_iff` — the columns that are stored as JSON text.
* `restoresRows_iff` — the rows that a batch gives back.
-/

namespace IssunDB.Cypher.Parquet

open List IssunDB.Texts

/-! ## Types of columns -/

/-- The types of Arrow that are chosen. -/
inductive DataType where
  | boolean
  | int64
  | float64
  | utf8
  | list
  deriving DecidableEq

/-- The type of a column, and whether it stores JSON text. -/
structure ColumnType where
  dtype : DataType
  json : Bool

/-- The kinds of values that a column has. -/
structure KindFlags where
  hasBool : Bool
  hasInt : Bool
  hasFloat : Bool
  hasString : Bool
  hasComplex : Bool

def KindFlags.mark (flags : KindFlags) : Json → KindFlags
  | .null => flags
  | .bool _ => { flags with hasBool := true }
  | .number (.float _) => { flags with hasFloat := true }
  | .number _ => { flags with hasInt := true }
  | .string _ => { flags with hasString := true }
  | .array _ => { flags with hasComplex := true }
  | .object _ => { flags with hasComplex := true }

def columnKinds (entries : List (Table String Json)) (k : String) : KindFlags :=
  entries.foldl (fun flags obj => match obj.get k with
    | some val => flags.mark val
    | none => flags) ⟨false, false, false, false, false⟩

def KindFlags.columnType (flags : KindFlags) : ColumnType :=
  let kinds := [flags.hasBool, flags.hasInt, flags.hasFloat, flags.hasString].count true
  if flags.hasComplex = true ∨ kinds > 1 then ⟨.utf8, true⟩
  else if flags.hasFloat then ⟨.float64, false⟩
  else if flags.hasInt then ⟨.int64, false⟩
  else if flags.hasBool then ⟨.boolean, false⟩
  else ⟨.utf8, false⟩

/-- `determine_column_types`. -/
def determineColumnTypes (entries : List (Table String Json)) (keys : List String) :
    Table String ColumnType :=
  keys.foldl (fun types k => types.put k (columnKinds entries k).columnType) .empty

/-! ## Batches -/

/-- A cell of an array. Integers of each width are widened, and a double that is not finite has no
value of its own. -/
inductive ArrowValue where
  | null
  | boolean (b : Bool)
  | int (i : I64)
  | uint (n : ℕ) (h : n < 2 ^ 64)
  | float (f : Option F64)
  | text (s : String)
  | list (items : List ArrowValue)
  | other

/-- A field of a schema, with the mark of JSON text. -/
structure Field where
  name : String
  dtype : DataType
  nullable : Bool
  json : Bool

/-- A field with its array. -/
structure Column where
  field : Field
  values : List ArrowValue

/-- A batch of rows. -/
structure RecordBatch where
  numRows : ℕ
  columns : List Column

def ArrowValue.isNull : ArrowValue → Bool
  | .null => true
  | _ => false

/-- `RecordBatch::try_new`: the arrays are of one length, and nulls are where they may be. -/
def RecordBatch.tryNew : List Column → Except String RecordBatch
  | [] => .error "failed to build record batch: "
  | c :: columns =>
    if ∀ c' ∈ c :: columns, c'.values.length = c.values.length ∧
        (c'.field.nullable = true ∨ ∀ v ∈ c'.values, v.isNull = false)
    then .ok ⟨c.values.length, c :: columns⟩
    else .error "failed to build record batch: "

section Writer

variable (ft : FloatTexts)

def columnOf (entries : List (Table String Json)) (field : Field)
    (cell : Table String Json → ArrowValue) : Column :=
  ⟨field, entries.map cell⟩

def idCell (id : Option Json) : ArrowValue := .int (.wrap ((id.bind asU64).getD 0))

def labelsCell (obj : Table String Json) : ArrowValue :=
  match (obj.get "_labels").or (obj.get "labels") with
  | some (.array items) => .list (items.map fun item => .text ((asStr item).getD ""))
  | some (.string s) => .list ((Csv.splitLabels s.toList).map .text)
  | _ => .null

def propCell (k : String) (cell : Json → ArrowValue) (obj : Table String Json) : ArrowValue :=
  match obj.get k with
  | none => .null
  | some .null => .null
  | some val => cell val

def valueText (val : Json) : String := .ofList (jsonText ft val)

/-- How a column of a type stores a value that is not null. -/
def builderCell (col : ColumnType) (k : String) : Except String (Json → ArrowValue) :=
  if col.json then .ok fun val => .text (valueText ft val)
  else
    match col.dtype with
    | .boolean => .ok fun val => .boolean (asBool val)
    | .int64 => .ok fun val => .int (val.asI64.getD (.wrap 0))
    | .float64 => .ok fun val => .float (some ((asF64 val).getD (.ofNat 0 F64.zero_fits)))
    | .utf8 => .ok fun val => .text ((asStr val).getD (valueText ft val))
    | .list => .error ("unsupported data type for column " ++ k)

/-- The columns of the ends and the type of a relationship, or of the id and the labels of a
node. -/
def metadataFields (isRelationship : Bool) : List (Field × (Table String Json → ArrowValue)) :=
  if isRelationship then
    [(⟨"_from", .int64, false, false⟩, fun obj => idCell (obj.get "_from")),
      (⟨"_to", .int64, false, false⟩, fun obj => idCell (obj.get "_to")),
      (⟨"_type", .utf8, false, false⟩, fun obj =>
        .text (((obj.get "_type").bind asStr).getD ""))]
  else
    [(⟨"_id", .int64, false, false⟩, fun obj => idCell ((obj.get "_id").or (obj.get "id"))),
      (⟨"_labels", .list, true, false⟩, labelsCell)]

/-- The columns of the properties. -/
def propFields (colTypes : Table String ColumnType) :
    List String → Except String (List (Field × (Table String Json → ArrowValue)))
  | [] => .ok []
  | k :: keys =>
    match colTypes.get k with
    | none => .error ("missing type for column " ++ k)
    | some col => do
      let cell ← builderCell ft col k
      let fields ← propFields colTypes keys
      .ok ((⟨k, col.dtype, true, col.json⟩, propCell k cell) :: fields)

/-- `build_record_batch`. -/
def buildRecordBatch (entries : List (Table String Json)) (propKeys : List String)
    (colTypes : Table String ColumnType) (isRelationship : Bool) : Except String RecordBatch := do
  let fields ← propFields ft colTypes propKeys
  RecordBatch.tryNew ((metadataFields isRelationship ++ fields).map fun f =>
    columnOf entries f.1 f.2)

end Writer

/-! ## Rows of a batch -/

mutual

/-- `arrow_to_json_value`. -/
def arrowToJsonValue : ArrowValue → Json
  | .null => .null
  | .boolean b => .bool b
  | .int i => .ofI64 i
  | .uint n h => .number (.posInt n h)
  | .float (some f) => .number (.float f)
  | .float none => .null
  | .text s => .string s
  | .list items => .array (arrowItems items)
  | .other => .null

/-- The values of a list. -/
def arrowItems : List ArrowValue → List Json
  | [] => []
  | v :: items => arrowToJsonValue v :: arrowItems items

end

section Reader

variable (parseJson : List Char → Option Json)

/-- The value of a cell. A marked column that is no text panics. -/
def decodeCell (json : Bool) (cell : ArrowValue) : Option Json :=
  if json then
    match cell with
    | .null => some .null
    | .text s => some ((parseJson s.toList).getD (.string s))
    | _ => none
  else some (arrowToJsonValue cell)

/-- The values of a row are inserted into an object. -/
def decodeRow (row : ℕ) : List Column → Table String Json → Option (Table String Json)
  | [], obj => some obj
  | c :: columns, obj => do
    let cell ← c.values[row]?
    let val ← decodeCell parseJson c.field.json cell
    decodeRow row columns (obj.put c.field.name val)

/-- `parquet_batch_rows`. -/
def parquetBatchRows (batch : RecordBatch) : Option (List (Table String Json)) :=
  (List.range batch.numRows).mapM fun row => decodeRow parseJson row batch.columns .empty

end Reader

def metadataKeys (isRelationship : Bool) : List String :=
  (metadataFields isRelationship).map fun f => f.1.name

/-- Every row gives back what its entry has under every key; a missing key counts as null. -/
def RestoresRows (ft : FloatTexts) (parseJson : List Char → Option Json)
    (entries : List (Table String Json)) (keys : List String) (isRelationship : Bool) : Prop :=
  ∃ batch rows,
    buildRecordBatch ft entries keys (determineColumnTypes entries keys) isRelationship =
    .ok batch ∧
    parquetBatchRows parseJson batch = some rows ∧
    List.Forall₂ (fun obj row => ∀ k ∈ metadataKeys isRelationship ++ keys,
      row.get k = some ((obj.get k).getD .null)) entries rows

/-! ## The type of a column -/

/-- The kinds of values. -/
inductive ValueKind where
  | bool
  | int
  | float
  | string
  | complex
  deriving DecidableEq

lemma ValueKind.mem_all (kind : ValueKind) :
    kind ∈ ({.bool, .int, .float, .string, .complex} : Finset ValueKind) := by
  cases kind <;> decide

instance : Fintype ValueKind where
  elems := {.bool, .int, .float, .string, .complex}
  complete := ValueKind.mem_all

def kindOf : Json → Option ValueKind
  | .null => none
  | .bool _ => some .bool
  | .number (.float _) => some .float
  | .number _ => some .int
  | .string _ => some .string
  | .array _ => some .complex
  | .object _ => some .complex

def HasKind (entries : List (Table String Json)) (k : String) (kind : ValueKind) : Prop :=
  ∃ obj ∈ entries, ∃ val, obj.get k = some val ∧ kindOf val = some kind

/-- The column has a list or a map, or values of two kinds. -/
def Mixed (entries : List (Table String Json)) (k : String) : Prop :=
  HasKind entries k .complex ∨ ∃ kind kind', kind ≠ kind' ∧ HasKind entries k kind ∧
    HasKind entries k kind'

def KindFlags.has (flags : KindFlags) : ValueKind → Bool
  | .bool => flags.hasBool
  | .int => flags.hasInt
  | .float => flags.hasFloat
  | .string => flags.hasString
  | .complex => flags.hasComplex

/-- The type that stores a primitive kind. -/
def ValueKind.dtype : ValueKind → DataType
  | .bool => .boolean
  | .int => .int64
  | .float => .float64
  | .string => .utf8
  | .complex => .utf8

lemma KindFlags.has_mark (flags : KindFlags) (val : Json) (kind : ValueKind) :
    (flags.mark val).has kind = true ↔ flags.has kind = true ∨ kindOf val = some kind := by
  cases val with
  | null => simp [KindFlags.mark, kindOf]
  | number n => cases n <;> cases kind <;> simp [KindFlags.mark, KindFlags.has, kindOf]
  | _ => cases kind <;> simp [KindFlags.mark, KindFlags.has, kindOf]

lemma has_columnKinds (entries : List (Table String Json)) (k : String) (kind : ValueKind) :
    (columnKinds entries k).has kind = true ↔ HasKind entries k kind := by
  have hrun : ∀ (l : List (Table String Json)) (flags : KindFlags),
      (l.foldl (fun flags obj => match obj.get k with
        | some val => flags.mark val
        | none => flags) flags).has kind = true ↔ flags.has kind = true ∨ HasKind l k kind := by
    intro l
    induction l with
    | nil => simp [HasKind]
    | cons obj l ih =>
      intro flags
      rw [foldl_cons, ih]
      have hcons : HasKind (obj :: l) k kind ↔
          (∃ val, obj.get k = some val ∧ kindOf val = some kind) ∨ HasKind l k kind := by
        simp only [HasKind, mem_cons, exists_eq_or_imp]
      rw [hcons, ← or_assoc]
      refine or_congr_left ?_
      rcases hget : obj.get k with _ | val
      · simp
      · rw [KindFlags.has_mark]
        simp
  rw [columnKinds, hrun]
  have hnone : (⟨false, false, false, false, false⟩ : KindFlags).has kind = false := by
    cases kind <;> rfl
  simp [hnone]

lemma KindFlags.columnType_spec : ∀ flags : KindFlags,
    (flags.columnType.json = true ↔ flags.has .complex = true ∨
      ∃ kind kind', kind ≠ kind' ∧ flags.has kind = true ∧ flags.has kind' = true) ∧
    ∀ kind, flags.has kind = true → flags.columnType.json = false →
      kind ≠ .complex ∧ flags.columnType.dtype = kind.dtype := by
  rintro ⟨b₁, b₂, b₃, b₄, b₅⟩
  revert b₁ b₂ b₃ b₄ b₅
  decide

/-- **The columns that are stored as JSON text.** -/
theorem columnType_json_iff (entries : List (Table String Json)) (k : String) :
    (columnKinds entries k).columnType.json = true ↔ Mixed entries k := by
  rw [(KindFlags.columnType_spec _).1]
  simp only [has_columnKinds]
  rfl

lemma columnType_dtype {entries : List (Table String Json)} {k : String}
    (h : ¬ Mixed entries k) {kind : ValueKind} (hkind : HasKind entries k kind) :
    kind ≠ .complex ∧ (columnKinds entries k).columnType = ⟨kind.dtype, false⟩ := by
  have hjson : (columnKinds entries k).columnType.json = false := by
    rw [← Bool.not_eq_true, columnType_json_iff]
    exact h
  obtain ⟨hne, hdtype⟩ := (KindFlags.columnType_spec _).2 kind
    ((has_columnKinds entries k kind).mpr hkind) hjson
  refine ⟨hne, ?_⟩
  rw [← hdtype, ← hjson]

/-! ## Cells -/

section Cells

variable {ft : FloatTexts} {parseJson : List Char → Option Json}

/-- What a column gives back of a value: a column of JSON text what the parser gives back, and a
column of integers those of the signed range. -/
def Keeps (ft : FloatTexts) (parseJson : List Char → Option Json)
    (entries : List (Table String Json)) (k : String) (val : Json) : Prop :=
  (Mixed entries k → val ≠ .null → parseJson (jsonText ft val) = some val) ∧
    (¬ Mixed entries k → ∀ n h, val = .number (.posInt n h) → n < 2 ^ 63)

lemma escapeChar_ne_nil (c : Char) : escapeChar c ≠ [] := by
  unfold escapeChar
  repeat' split
  all_goals exact cons_ne_nil _ _

lemma string_ne_valueText (s : String) : Json.string (valueText ft (.string s)) ≠ .string s := by
  intro h
  have hlen := congrArg (fun t : String => t.toList.length) (Json.string.inj h)
  have hle := length_le_sum_of_one_le (s.toList.map fun c => (escapeChar c).length) (by
    intro n hn
    obtain ⟨c, -, rfl⟩ := mem_map.mp hn
    exact length_pos_iff.mpr (escapeChar_ne_nil c))
  rw [length_map, ← length_flatMap] at hle
  rw [valueText, String.toList_ofList, jsonText, stringText, length_cons, stringRest,
    length_append] at hlen
  omega

/-- The columns of the chosen types can be built. -/
theorem exists_builderCell (flags : KindFlags) (k : String) :
    ∃ cell, builderCell ft flags.columnType k = .ok cell := by
  have hlist : ∀ flags : KindFlags, flags.columnType.dtype ≠ .list := by
    rintro ⟨b₁, b₂, b₃, b₄, b₅⟩
    revert b₁ b₂ b₃ b₄ b₅
    decide
  unfold builderCell
  split
  · exact ⟨_, rfl⟩
  · cases hdtype : flags.columnType.dtype with
    | list => exact absurd hdtype (hlist flags)
    | _ => exact ⟨_, rfl⟩

lemma propCell_of_none {k : String} {obj : Table String Json} (h : obj.get k = none)
    (cell : Json → ArrowValue) : propCell k cell obj = .null := by
  rw [propCell, h]

variable {val : Json}

lemma propCell_of_some {k : String} {obj : Table String Json} (h : obj.get k = some val)
    (hval : val ≠ .null) (cell : Json → ArrowValue) :
    propCell k cell obj = cell val := by
  rw [propCell, h]
  cases val with
  | null => exact absurd rfl hval
  | _ => rfl

lemma kindOf_eq_none (h : kindOf val = none) : val = .null := by
  cases val with
  | null => rfl
  | number n => cases n <;> cases h
  | _ => cases h

/-- What a native column gives back of a value of its kind. -/
theorem decode_native_iff {kind : ValueKind} (hkind : kind ≠ .complex) {k : String}
    {cell : Json → ArrowValue} (hcell : builderCell ft ⟨kind.dtype, false⟩ k = .ok cell)
    (hval : kindOf val = some kind) :
    arrowToJsonValue (cell val) = val ↔ ∀ n h, val = .number (.posInt n h) → n < 2 ^ 63 := by
  cases kind with
  | bool =>
    obtain rfl := Except.ok.inj hcell
    cases val with
    | bool b => exact iff_of_true rfl (by simp)
    | number n => cases n <;> cases hval
    | _ => cases hval
  | int =>
    obtain rfl := Except.ok.inj hcell
    show Json.ofI64 (val.asI64.getD (.wrap 0)) = val ↔ _
    cases val with
    | number n =>
      cases n with
      | posInt n hn =>
        by_cases h : n < 2 ^ 63
        · have hint : (Json.number (.posInt n hn)).asI64 = some ⟨n, by omega⟩ := dif_pos h
          refine iff_of_true ?_ fun _ _ heq => ?_
          · rw [hint]
            exact (Json.asI64_eq_some.mp hint).symm
          · cases heq
            exact h
        · -- an integer past the signed range is stored as zero
          have hint : (Json.number (.posInt n hn)).asI64 = none := dif_neg h
          refine iff_of_false ?_ fun hall => h (hall n hn rfl)
          rw [hint]
          intro heq
          have hzero : (0 : ℕ) = n := (Number.posInt.inj (Json.number.inj heq))
          omega
      | negInt i hi =>
        exact iff_of_true (Json.asI64_eq_some.mp rfl).symm (by simp)
      | float f => cases hval
    | _ => cases hval
  | float =>
    obtain rfl := Except.ok.inj hcell
    cases val with
    | number n =>
      cases n with
      | float f => exact iff_of_true rfl (by simp)
      | _ => cases hval
    | _ => cases hval
  | string =>
    obtain rfl := Except.ok.inj hcell
    cases val with
    | string s => exact iff_of_true rfl (by simp)
    | number n => cases n <;> cases hval
    | _ => cases hval
  | complex => exact absurd rfl hkind

/-- **What a cell of a property gives back.** -/
theorem decodeCell_propCell {entries : List (Table String Json)} {k : String}
    {cell : Json → ArrowValue}
    (hcell : builderCell ft (columnKinds entries k).columnType k = .ok cell)
    {obj : Table String Json} (hobj : obj ∈ entries) :
    ∃ v, decodeCell parseJson (columnKinds entries k).columnType.json (propCell k cell obj) =
      some v ∧ (v = (obj.get k).getD .null ↔
        ∀ val, obj.get k = some val → Keeps ft parseJson entries k val) := by
  have hnull : ∀ json, decodeCell parseJson json .null = some .null := by
    intro json
    cases json <;> rfl
  rcases hget : obj.get k with _ | val
  · rw [propCell_of_none hget]
    exact ⟨.null, hnull _, by simp⟩
  rw [Option.getD_some]
  have hall : (∀ val', some val = some val' → Keeps ft parseJson entries k val') ↔
      Keeps ft parseJson entries k val := by
    simp
  rw [hall]
  rcases hkind : kindOf val with _ | kind
  · obtain rfl := kindOf_eq_none hkind
    rw [propCell, hget]
    exact ⟨.null, hnull _, by simp [Keeps]⟩
  have hval : val ≠ .null := by
    rintro rfl
    cases hkind
  rw [propCell_of_some hget hval]
  by_cases hmixed : Mixed entries k
  · have hjson := (columnType_json_iff entries k).mpr hmixed
    rw [builderCell, if_pos hjson] at hcell
    obtain rfl := Except.ok.inj hcell
    rw [hjson]
    refine ⟨(parseJson (jsonText ft val)).getD (.string (valueText ft val)), ?_, ?_⟩
    · rw [decodeCell, if_pos rfl, valueText, String.toList_ofList]
    · have hkeeps : Keeps ft parseJson entries k val ↔
          parseJson (jsonText ft val) = some val := by
        simp [Keeps, hmixed, hval]
      rw [hkeeps]
      rcases parseJson (jsonText ft val) with _ | w
      · refine iff_of_false (fun heq => ?_) (by simp)
        obtain ⟨s, rfl⟩ : ∃ s, val = .string s := ⟨_, heq.symm⟩
        exact string_ne_valueText s heq
      · simp
  · obtain ⟨hne, htype⟩ := columnType_dtype hmixed ⟨obj, hobj, val, hget, hkind⟩
    rw [htype] at hcell ⊢
    refine ⟨arrowToJsonValue (cell val), rfl, ?_⟩
    rw [decode_native_iff hne hcell hkind]
    simp [Keeps, hmixed]

end Cells

/-! ## Metadata -/

section Metadata

/-- The id is a number of the signed range. -/
def KeepsId (id : Option Json) : Prop := ∃ n h, id = some (.number (.posInt n h)) ∧ n < 2 ^ 63

/-- The labels are a list of strings. Where the value is missing, no other key stands in for it. -/
def KeepsLabels (obj : Table String Json) : Prop :=
  match obj.get "_labels" with
  | some (.array items) => ∀ item ∈ items, ∃ s, item = .string s
  | some val => val = .null
  | none => ∀ val, obj.get "labels" = some val →
      (∀ items, val ≠ .array items) ∧ ∀ s, val ≠ .string s

def KeepsMetadata (obj : Table String Json) (name : String) : Prop :=
  if name = "_labels" then KeepsLabels obj
  else if name = "_type" then ∃ s, obj.get "_type" = some (.string s)
  else KeepsId (obj.get name)

lemma wrap_val (i : I64) : I64.wrap i.1 = i :=
  Subtype.ext (Int.bmod_eq_of_le (by have := i.2; omega) (by have := i.2; omega))

lemma ofI64_wrap {n : ℕ} (hn : n < 2 ^ 64) :
    Json.ofI64 (.wrap n) = .number (.posInt n hn) ↔ n < 2 ^ 63 := by
  constructor
  · intro h
    by_contra hge
    have hnone : (Json.number (.posInt n hn)).asI64 = none := dif_neg hge
    rw [Json.asI64_eq_some.mpr h.symm] at hnone
    cases hnone
  · intro hlt
    have hint : (Json.number (.posInt n hn)).asI64 = some ⟨n, by omega⟩ := dif_pos hlt
    have hwrap := wrap_val ⟨(n : ℤ), by omega⟩
    rw [hwrap]
    exact (Json.asI64_eq_some.mp hint).symm

lemma idCell_iff {id id' : Option Json} (h : ∀ val, id = some val → id' = some val) :
    arrowToJsonValue (idCell id') = id.getD .null ↔ KeepsId id := by
  show Json.ofI64 (.wrap ((id'.bind asU64).getD 0)) = _ ↔ _
  rcases id with _ | val
  · refine iff_of_false ?_ (by simp [KeepsId])
    unfold Json.ofI64
    split <;> simp
  rw [h val rfl, Option.bind_some, Option.getD_some]
  by_cases hu64 : ∃ n h, val = .number (.posInt n h)
  · obtain ⟨n, hn, rfl⟩ := hu64
    refine (ofI64_wrap hn).trans ⟨fun hlt => ⟨n, hn, rfl, hlt⟩, ?_⟩
    rintro ⟨m, hm, heq, hlt⟩
    cases heq
    exact hlt
  · have hnone : asU64 val = none := by
      cases val with
      | number n =>
        cases n with
        | posInt n hn => exact absurd ⟨n, hn, rfl⟩ hu64
        | _ => rfl
      | _ => rfl
    rw [hnone]
    refine iff_of_false (fun heq => hu64 ⟨0, F64.zero_fits, heq.symm⟩) ?_
    rintro ⟨n, hn, heq, -⟩
    exact hu64 ⟨n, hn, Option.some.inj heq⟩

lemma arrowItems_eq_map (items : List ArrowValue) :
    arrowItems items = items.map arrowToJsonValue := by
  induction items with
  | nil => rfl
  | cons v items ih => rw [arrowItems, ih, map_cons]

lemma labelsCell_iff (obj : Table String Json) :
    arrowToJsonValue (labelsCell obj) = (obj.get "_labels").getD .null ↔ KeepsLabels obj := by
  unfold labelsCell KeepsLabels
  rcases hget : obj.get "_labels" with _ | val
  · rw [Option.none_or, Option.getD_none]
    rcases obj.get "labels" with _ | val
    · simp [arrowToJsonValue]
    · cases val <;> simp [arrowToJsonValue]
  · rw [Option.some_or, Option.getD_some]
    cases val with
    | array items =>
      dsimp only
      rw [arrowToJsonValue, arrowItems_eq_map, map_map, Json.array.injEq]
      have hmap : ∀ f : Json → Json, items.map f = items ↔ ∀ item ∈ items, f item = item := by
        intro f
        have hid := @map_inj_left _ _ items f id
        rw [map_id] at hid
        exact hid
      refine (hmap _).trans (forall₂_congr fun item _ => ?_)
      cases item with
      | string s => exact iff_of_true rfl ⟨s, rfl⟩
      | _ => simp [arrowToJsonValue]
    | _ => simp [arrowToJsonValue]

/-- **What a field of the metadata gives back.** -/
theorem metadata_iff {isRelationship : Bool} {f : Field × (Table String Json → ArrowValue)}
    (hf : f ∈ metadataFields isRelationship) (obj : Table String Json) :
    f.1.json = false ∧ (arrowToJsonValue (f.2 obj) = (obj.get f.1.name).getD .null ↔
      KeepsMetadata obj f.1.name) := by
  have hid : ∀ name, name ≠ "_labels" → name ≠ "_type" →
      (KeepsMetadata obj name ↔ KeepsId (obj.get name)) := by
    intro name hlabels htype
    rw [KeepsMetadata, if_neg hlabels, if_neg htype]
  unfold metadataFields at hf
  split at hf
  · simp only [mem_cons, not_mem_nil, or_false] at hf
    rcases hf with rfl | rfl | rfl
    · exact ⟨rfl, (idCell_iff fun _ h => h).trans (hid "_from" (by decide) (by decide)).symm⟩
    · exact ⟨rfl, (idCell_iff fun _ h => h).trans (hid "_to" (by decide) (by decide)).symm⟩
    · refine ⟨rfl, ?_⟩
      show Json.string _ = _ ↔ ∃ s, obj.get "_type" = some (.string s)
      rcases obj.get "_type" with _ | val
      · simp
      · cases val <;> simp [asStr]
  · simp only [mem_cons, not_mem_nil, or_false] at hf
    rcases hf with rfl | rfl
    · refine ⟨rfl, (idCell_iff fun val h => ?_).trans (hid "_id" (by decide) (by decide)).symm⟩
      rw [h, Option.some_or]
    · exact ⟨rfl, labelsCell_iff obj⟩

end Metadata

/-! ## Rows -/

section Rows

variable {ft : FloatTexts} {parseJson : List Char → Option Json}

def decodeEntry (parseJson : List Char → Option Json) (obj : Table String Json) :
    List (Field × (Table String Json → ArrowValue)) → Table String Json → Option (Table String Json)
  | [], row => some row
  | f :: fields, row => (decodeCell parseJson f.1.json (f.2 obj)).bind fun val =>
      decodeEntry parseJson obj fields (row.put f.1.name val)

variable {entries : List (Table String Json)}

lemma decodeRow_columns {i : ℕ} {obj : Table String Json} (h : entries[i]? = some obj)
    (fields : List (Field × (Table String Json → ArrowValue))) (row : Table String Json) :
    decodeRow parseJson i (fields.map fun f => columnOf entries f.1 f.2) row =
      decodeEntry parseJson obj fields row := by
  induction fields generalizing row with
  | nil => rfl
  | cons f fields ih =>
    have hcell : (columnOf entries f.1 f.2).values[i]? = some (f.2 obj) := by
      rw [columnOf, getElem?_map, h]
      rfl
    rw [map_cons, decodeRow, hcell, decodeEntry]
    show (decodeCell parseJson f.1.json (f.2 obj)).bind (fun val =>
      decodeRow parseJson i (fields.map fun f => columnOf entries f.1 f.2)
        (row.put f.1.name val)) = _
    exact congrArg _ (funext fun val => ih _)

lemma decodeEntry_append (obj : Table String Json)
    (fields fields' : List (Field × (Table String Json → ArrowValue))) (row : Table String Json) :
    decodeEntry parseJson obj (fields ++ fields') row =
      (decodeEntry parseJson obj fields row).bind (decodeEntry parseJson obj fields') := by
  induction fields generalizing row with
  | nil => rfl
  | cons f fields ih =>
    rw [cons_append, decodeEntry, decodeEntry, Option.bind_assoc]
    exact congrArg _ (funext fun val => ih _)

/-- Every key has the value of the cells under its name, where these agree. -/
theorem decodeEntry_spec (obj : Table String Json)
    {fields : List (Field × (Table String Json → ArrowValue))} {value : String → Json}
    (h : ∀ f ∈ fields, decodeCell parseJson f.1.json (f.2 obj) = some (value f.1.name))
    (row : Table String Json) : ∃ row', decodeEntry parseJson obj fields row = some row' ∧
      ∀ k, row'.get k = if k ∈ fields.map (·.1.name) then some (value k) else row.get k := by
  induction fields generalizing row with
  | nil => exact ⟨row, rfl, fun k => by simp⟩
  | cons f fields ih =>
    obtain ⟨row', hrow', hget⟩ := ih (fun g hg => h g (mem_cons_of_mem _ hg))
      (row.put f.1.name (value f.1.name))
    refine ⟨row', ?_, fun k => ?_⟩
    · rw [decodeEntry, h f mem_cons_self]
      exact hrow'
    · rw [hget, map_cons]
      by_cases hmem : k ∈ fields.map (·.1.name)
      · rw [if_pos hmem, if_pos (mem_cons_of_mem _ hmem)]
      rw [if_neg hmem]
      by_cases hk : k = f.1.name
      · subst hk
        rw [if_pos mem_cons_self, Table.get_put_self]
      · rw [if_neg fun h => (mem_cons.mp h).elim hk hmem, Table.get_put_of_ne _ _ hk]

/-- Fields of distinct names agree. -/
theorem exists_value (obj : Table String Json)
    {fields : List (Field × (Table String Json → ArrowValue))}
      (hnodup : (fields.map (·.1.name)).Nodup)
    (h : ∀ f ∈ fields, f.1.json = false) : ∃ value : String → Json, ∀ f ∈ fields,
      arrowToJsonValue (f.2 obj) = value f.1.name ∧
        decodeCell parseJson f.1.json (f.2 obj) = some (value f.1.name) := by
  induction fields with
  | nil => exact ⟨fun _ => .null, fun f hf => by cases hf⟩
  | cons f fields ih =>
    rw [map_cons, nodup_cons] at hnodup
    obtain ⟨value, hvalue⟩ := ih hnodup.2 fun g hg => h g (mem_cons_of_mem _ hg)
    refine ⟨Function.update value f.1.name (arrowToJsonValue (f.2 obj)), fun g hg => ?_⟩
    rcases mem_cons.mp hg with rfl | hg
    · rw [Function.update_self, h g mem_cons_self]
      exact ⟨rfl, rfl⟩
    · have hne : g.1.name ≠ f.1.name := fun heq => hnodup.1 (heq ▸ mem_map_of_mem hg)
      rw [Function.update_of_ne hne]
      exact hvalue g hg

lemma mapM_eq_some_map {α β : Type} {f : α → Option β} {g : α → β} {l : List α}
    (h : ∀ a ∈ l, f a = some (g a)) : l.mapM f = some (l.map g) := by
  induction l with
  | nil => rfl
  | cons a l ih =>
    rw [mapM_cons, h a mem_cons_self, ih fun b hb => h b (mem_cons_of_mem _ hb)]
    rfl

/-- **A batch gives back the rows of its entries.** -/
theorem parquetBatchRows_columns {fields : List (Field × (Table String Json → ArrowValue))}
    {rowOf : Table String Json → Table String Json}
    (h : ∀ obj ∈ entries, decodeEntry parseJson obj fields .empty = some (rowOf obj)) :
    parquetBatchRows parseJson ⟨entries.length, fields.map fun f => columnOf entries f.1 f.2⟩ =
      some (entries.map rowOf) := by
  have hrows : ∀ i ∈ List.range entries.length,
      decodeRow parseJson i (fields.map fun f => columnOf entries f.1 f.2) .empty =
        some (((entries[i]?).map rowOf).getD .empty) := by
    intro i hi
    have hget := getElem?_eq_getElem (mem_range.mp hi)
    rw [decodeRow_columns hget, hget, h _ (getElem_mem _)]
    rfl
  refine (mapM_eq_some_map hrows).trans (congrArg some (ext_getElem (by simp) ?_))
  intro i hi _
  simp only [length_map, length_range] at hi
  simp [getElem?_eq_getElem hi]

/-! ## What is given back -/

lemma get_determineColumnTypes (entries : List (Table String Json)) {keys : List String}
    {k : String}
    (h : k ∈ keys) :
    (determineColumnTypes entries keys).get k = some (columnKinds entries k).columnType := by
  have hrun : ∀ (keys : List String) (types : Table String ColumnType),
      (k ∈ keys ∨ types.get k = some (columnKinds entries k).columnType) →
      (keys.foldl (fun types k => types.put k (columnKinds entries k).columnType) types).get k =
        some (columnKinds entries k).columnType := by
    intro keys
    induction keys with
    | nil => exact fun types h => h.resolve_left not_mem_nil
    | cons k' keys ih =>
      intro types h
      apply ih
      by_cases hk : k = k'
      · exact .inr (hk ▸ Table.get_put_self ..)
      · rw [mem_cons, or_iff_right hk] at h
        exact h.imp_right fun h => (Table.get_put_of_ne _ _ hk).trans h
  exact hrun keys _ (.inl h)

/-- A field of a property stores its values by the type of the column. -/
def IsPropField (ft : FloatTexts) (entries : List (Table String Json)) (k : String)
    (f : Field × (Table String Json → ArrowValue)) : Prop :=
  ∃ cell, builderCell ft (columnKinds entries k).columnType k = .ok cell ∧ f.1.name = k ∧
    f.1.nullable = true ∧ f.1.json = (columnKinds entries k).columnType.json ∧
    f.2 = propCell k cell

lemma propFields_spec (entries : List (Table String Json)) {keys : List String}
    {colTypes : Table String ColumnType}
    (h : ∀ k ∈ keys, colTypes.get k = some (columnKinds entries k).columnType) :
    ∃ fields, propFields ft colTypes keys = .ok fields ∧
      List.Forall₂ (IsPropField ft entries) keys fields := by
  induction keys with
  | nil => exact ⟨[], rfl, .nil⟩
  | cons k keys ih =>
    obtain ⟨fields, hfields, hall⟩ := ih fun k' hk' => h k' (mem_cons_of_mem _ hk')
    obtain ⟨cell, hcell⟩ := @exists_builderCell ft (columnKinds entries k) k
    let col := (columnKinds entries k).columnType
    refine ⟨(⟨k, col.dtype, true, col.json⟩, propCell k cell) :: fields, ?_, .cons ?_ hall⟩
    · rw [propFields, h k mem_cons_self]
      dsimp only
      rw [hcell, hfields]
      rfl
    · exact ⟨cell, hcell, rfl, rfl, rfl, rfl⟩

lemma map_name_eq {keys : List String} {fields : List (Field × (Table String Json → ArrowValue))}
    (h : List.Forall₂ (IsPropField ft entries) keys fields) : fields.map (·.1.name) = keys := by
  induction h with
  | nil => rfl
  | cons hfield _ ih =>
    obtain ⟨cell, -, hname, -⟩ := hfield
    rw [map_cons, ih, hname]

lemma isPropField_of_mem {keys : List String}
    {fields : List (Field × (Table String Json → ArrowValue))}
    (h : List.Forall₂ (IsPropField ft entries) keys fields)
    {f : Field × (Table String Json → ArrowValue)} (hf : f ∈ fields) :
    IsPropField ft entries f.1.name f := by
  induction h with
  | nil => cases hf
  | cons hfield _ ih =>
    rcases mem_cons.mp hf with rfl | hf
    · have hname := hfield
      obtain ⟨cell, -, rfl, -⟩ := hname
      exact hfield
    · exact ih hf

/-- No cell of a field that has none is null. -/
theorem nullable_metadata {isRelationship : Bool} {f : Field × (Table String Json → ArrowValue)}
    (hf : f ∈ metadataFields isRelationship) (entries : List (Table String Json)) :
    f.1.nullable = true ∨ ∀ v ∈ entries.map f.2, v.isNull = false := by
  have hcells : ∀ f : Table String Json → ArrowValue, (∀ obj, (f obj).isNull = false) →
      ∀ v ∈ entries.map f, v.isNull = false := by
    intro f h v hv
    obtain ⟨obj, -, rfl⟩ := mem_map.mp hv
    exact h obj
  unfold metadataFields at hf
  split at hf
  · simp only [mem_cons, not_mem_nil, or_false] at hf
    rcases hf with rfl | rfl | rfl <;> exact .inr (hcells _ fun _ => rfl)
  · simp only [mem_cons, not_mem_nil, or_false] at hf
    rcases hf with rfl | rfl
    · exact .inr (hcells _ fun _ => rfl)
    · exact .inl rfl

lemma tryNew_columns (entries : List (Table String Json)) {isRelationship : Bool}
    {fields : List (Field × (Table String Json → ArrowValue))}
    (h : ∀ f ∈ fields, f.1.nullable = true) :
    RecordBatch.tryNew ((metadataFields isRelationship ++ fields).map fun f =>
      columnOf entries f.1 f.2) = .ok ⟨entries.length, (metadataFields isRelationship ++ fields).map
        fun f => columnOf entries f.1 f.2⟩ := by
  have hcolumn : ∀ c ∈ (metadataFields isRelationship ++ fields).map fun f =>
      columnOf entries f.1 f.2, c.values.length = entries.length ∧
        (c.field.nullable = true ∨ ∀ v ∈ c.values, v.isNull = false) := by
    intro c hc
    obtain ⟨f, hf, rfl⟩ := mem_map.mp hc
    refine ⟨length_map _, ?_⟩
    rcases mem_append.mp hf with hf | hf
    · exact nullable_metadata hf entries
    · exact .inl (h f hf)
  rcases hcolumns : (metadataFields isRelationship ++ fields).map
    fun f => columnOf entries f.1 f.2 with _ | ⟨c, columns⟩
  · cases isRelationship <;> cases hcolumns
  · rw [hcolumns] at hcolumn ⊢
    have hlen := (hcolumn c mem_cons_self).1
    have hfit : ∀ c' ∈ c :: columns, c'.values.length = c.values.length ∧
        (c'.field.nullable = true ∨ ∀ v ∈ c'.values, v.isNull = false) :=
      fun c' hc' => ⟨(hcolumn c' hc').1.trans hlen.symm, (hcolumn c' hc').2⟩
    rw [← hlen]
    exact if_pos hfit

/-- What the entries must be to be given back. -/
structure RestorableRows (ft : FloatTexts) (parseJson : List Char → Option Json)
    (entries : List (Table String Json)) (keys : List String) (isRelationship : Bool) : Prop where
  values : ∀ k ∈ keys, ∀ obj ∈ entries, ∀ val, obj.get k = some val →
    Keeps ft parseJson entries k val
  metadata : ∀ name ∈ metadataKeys isRelationship, name ∉ keys → ∀ obj ∈ entries,
    KeepsMetadata obj name

lemma nodup_metadataKeys (isRelationship : Bool) : (metadataKeys isRelationship).Nodup := by
  cases isRelationship <;> decide

/-- **The row of an entry.** Under each key it has what the column of that key gives back. -/
theorem exists_row (entries : List (Table String Json)) {keys : List String} {isRelationship : Bool}
    {fields : List (Field × (Table String Json → ArrowValue))}
    (hfields : List.Forall₂ (IsPropField ft entries) keys fields) {obj : Table String Json}
    (hobj : obj ∈ entries) :
    ∃ row, decodeEntry parseJson obj (metadataFields isRelationship ++ fields) .empty = some row ∧
      ((∀ k ∈ metadataKeys isRelationship ++ keys, row.get k = some ((obj.get k).getD .null)) ↔
        (∀ k ∈ keys, ∀ val, obj.get k = some val → Keeps ft parseJson entries k val) ∧
        ∀ name ∈ metadataKeys isRelationship, name ∉ keys → KeepsMetadata obj name) := by
  obtain ⟨own, hown⟩ := @exists_value parseJson obj (metadataFields isRelationship)
    (nodup_metadataKeys isRelationship) fun f hf => (metadata_iff hf obj).1
  obtain ⟨row, hrow, hget⟩ := decodeEntry_spec obj (fun f hf => (hown f hf).2) .empty
  -- the cells of one name in the columns of properties are the same
  have hprops : ∀ k, ∃ v, ∀ cell, builderCell ft (columnKinds entries k).columnType k = .ok cell →
      decodeCell parseJson (columnKinds entries k).columnType.json (propCell k cell obj) = some v ∧
        (v = (obj.get k).getD .null ↔
          ∀ val, obj.get k = some val → Keeps ft parseJson entries k val) := by
    intro k
    obtain ⟨cell, hcell⟩ := @exists_builderCell ft (columnKinds entries k) k
    obtain ⟨v, hv⟩ := @decodeCell_propCell ft parseJson entries k cell hcell obj hobj
    refine ⟨v, fun cell' hcell' => ?_⟩
    obtain rfl := Except.ok.inj (hcell.symm.trans hcell')
    exact hv
  choose props hprops using hprops
  have hnames := map_name_eq hfields
  have hcells : ∀ f ∈ fields, decodeCell parseJson f.1.json (f.2 obj) = some (props f.1.name) := by
    intro f hf
    obtain ⟨cell, hcell, -, -, hjson, hf⟩ := isPropField_of_mem hfields hf
    rw [hjson, hf]
    exact (hprops f.1.name cell hcell).1
  obtain ⟨row', hrow', hget'⟩ := decodeEntry_spec obj hcells row
  refine ⟨row', ?_, ?_⟩
  · rw [decodeEntry_append, hrow]
    exact hrow'
  rw [hnames] at hget'
  have hkey : ∀ k ∈ keys, (row'.get k = some ((obj.get k).getD .null) ↔
      ∀ val, obj.get k = some val → Keeps ft parseJson entries k val) := by
    intro k hk
    obtain ⟨cell, hcell⟩ := @exists_builderCell ft (columnKinds entries k) k
    rw [hget', if_pos hk, Option.some_inj]
    exact (hprops k cell hcell).2
  have hname : ∀ name ∈ metadataKeys isRelationship, name ∉ keys →
      (row'.get name = some ((obj.get name).getD .null) ↔ KeepsMetadata obj name) := by
    intro name hmem hnot
    obtain ⟨f, hf, rfl⟩ := mem_map.mp hmem
    rw [hget', if_neg hnot, hget, if_pos (mem_map_of_mem hf), Option.some_inj,
      ← (hown f hf).1]
    exact (metadata_iff hf obj).2
  constructor
  · intro h
    exact ⟨fun k hk => (hkey k hk).mp (h k (mem_append_right _ hk)),
      fun name hmem hnot => (hname name hmem hnot).mp (h name (mem_append_left _ hmem))⟩
  · rintro ⟨hvalues, hmetadata⟩ k hk
    by_cases hkeys : k ∈ keys
    · exact (hkey k hkeys).mpr (hvalues k hkeys)
    · have hmem := (mem_append.mp hk).resolve_right hkeys
      exact (hname k hmem hkeys).mpr (hmetadata k hmem hkeys)

lemma restoresRows_iff_rows (entries : List (Table String Json)) (keys : List String)
    (isRelationship : Bool) : RestoresRows ft parseJson entries keys isRelationship ↔
      ∀ obj ∈ entries,
        (∀ k ∈ keys, ∀ val, obj.get k = some val → Keeps ft parseJson entries k val) ∧
        ∀ name ∈ metadataKeys isRelationship, name ∉ keys → KeepsMetadata obj name := by
  obtain ⟨fields, hfields, hall⟩ := @propFields_spec ft entries keys _
    fun k hk => get_determineColumnTypes entries hk
  have hnullable : ∀ f ∈ fields, f.1.nullable = true := by
    intro f hf
    obtain ⟨cell, -, -, hnullable, -⟩ := isPropField_of_mem hall hf
    exact hnullable
  have hbatch :
      buildRecordBatch ft entries keys (determineColumnTypes entries keys) isRelationship =
      .ok ⟨entries.length, (metadataFields isRelationship ++ fields).map fun f =>
        columnOf entries f.1 f.2⟩ := by
    rw [buildRecordBatch, hfields]
    exact tryNew_columns entries hnullable
  have hrow : ∀ obj : Table String Json, ∃ row, obj ∈ entries →
      decodeEntry parseJson obj (metadataFields isRelationship ++ fields) .empty = some row ∧
      ((∀ k ∈ metadataKeys isRelationship ++ keys, row.get k = some ((obj.get k).getD .null)) ↔
        (∀ k ∈ keys, ∀ val, obj.get k = some val → Keeps ft parseJson entries k val) ∧
        ∀ name ∈ metadataKeys isRelationship, name ∉ keys → KeepsMetadata obj name) := by
    intro obj
    by_cases hobj : obj ∈ entries
    · obtain ⟨row, hrow⟩ :=
        @exists_row ft parseJson entries keys isRelationship fields hall obj hobj
      exact ⟨row, fun _ => hrow⟩
    · exact ⟨.empty, fun h => absurd h hobj⟩
  choose rowOf hrow using hrow
  have hrows := parquetBatchRows_columns fun obj hobj => (hrow obj hobj).1
  have hiff : RestoresRows ft parseJson entries keys isRelationship ↔ ∀ obj ∈ entries,
      ∀ k ∈ metadataKeys isRelationship ++ keys, (rowOf obj).get k =
      some ((obj.get k).getD .null) := by
    have hmap : List.Forall₂ (fun obj row => ∀ k ∈ metadataKeys isRelationship ++ keys,
        row.get k = some ((obj.get k).getD .null)) entries (entries.map rowOf) ↔ ∀ obj ∈ entries,
        ∀ k ∈ metadataKeys isRelationship ++ keys,
          (rowOf obj).get k = some ((obj.get k).getD .null) := by
      rw [List.forall₂_map_right_iff, List.forall₂_same]
    rw [← hmap]
    constructor
    · rintro ⟨batch, rows, hbuild, hread, hgives⟩
      obtain rfl := Except.ok.inj (hbatch.symm.trans hbuild)
      obtain rfl := Option.some.inj (hrows.symm.trans hread)
      exact hgives
    · intro h
      exact ⟨_, _, hbatch, hrows, h⟩
  rw [hiff]
  exact forall₂_congr fun obj hobj => (hrow obj hobj).2

/-- **The rows of a batch are given back** iff the values of each column and the metadata of each
row are. -/
theorem restoresRows_iff (ft : FloatTexts) (parseJson : List Char → Option Json)
    (entries : List (Table String Json)) (keys : List String) (isRelationship : Bool) :
    RestoresRows ft parseJson entries keys isRelationship ↔
      RestorableRows ft parseJson entries keys isRelationship := by
  rw [restoresRows_iff_rows]
  constructor
  · intro h
    exact ⟨fun k hk obj hobj => (h obj hobj).1 k hk,
      fun name hmem hnot obj hobj => (h obj hobj).2 name hmem hnot⟩
  · intro h obj hobj
    exact ⟨fun k hk => h.values k hk obj hobj,
      fun name hmem hnot => h.metadata name hmem hnot obj hobj⟩

/-- A node with an integer past the signed range. -/
def largeInteger : Table String Json :=
  ((Table.empty.put "_id" (.number (.posInt 1 F64.one_fits))).put "_labels"
    (.array [.string "A"])).put "n" (.number (.posInt (2 ^ 63) (by decide)))

/-- In a column of integers, one past the signed range is not given back. -/
theorem not_restoresRows_largeInteger :
    ¬ ∀ (ft : FloatTexts) (parseJson : List Char → Option Json) (entries : List (Table String Json))
      (keys : List String) (isRelationship : Bool),
      RestoresRows ft parseJson entries keys isRelationship := by
  intro h
  have hget : largeInteger.get "n" = some (.number (.posInt (2 ^ 63) (by decide))) :=
    Table.get_put_self ..
  have hkeeps := (((restoresRows_iff_rows [largeInteger] ["n"] false).mp
    (h bitsTexts (fun _ => none) [largeInteger] ["n"] false)) largeInteger
      mem_cons_self).1 "n" mem_cons_self _ hget
  have hkind : ∀ kind, HasKind [largeInteger] "n" kind → kind = .int := by
    rintro kind ⟨obj, hobj, val, hval, hkind⟩
    obtain rfl := mem_singleton.mp hobj
    obtain rfl := Option.some.inj (hget.symm.trans hval)
    exact (Option.some.inj hkind).symm
  have hnot : ¬ Mixed [largeInteger] "n" := by
    rintro (hcomplex | ⟨kind, kind', hne, hkind₁, hkind₂⟩)
    · cases hkind _ hcomplex
    · exact hne ((hkind _ hkind₁).trans (hkind _ hkind₂).symm)
  exact absurd (hkeeps.2 hnot (2 ^ 63) (by decide) rfl) (by decide)

end Rows

end IssunDB.Cypher.Parquet
