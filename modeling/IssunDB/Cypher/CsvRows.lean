import IssunDB.Columns
import IssunDB.Cypher.CsvLines

/-!
# Rows of a CSV file

What an exported node row gives back when it is imported. A cell is written from a value: null is
empty, a boolean and a number stand as they are, a string is quoted, a list or a map is quoted JSON
text. The reader goes by the quotation marks: a quoted cell is a string, unless it looks like JSON
and parses, and any other cell is null or a scalar to infer.

The parsers of JSON texts and of doubles are parameters (`CsvReaders`).

* `csvCellValue_cellOf_iff` — the values that a cell gives back.
* `labelsOfValue_csvCellValue_iff` — the labels that a cell gives back.
-/

namespace IssunDB.Cypher.Csv

open List IssunDB.Texts

/-! ## Cells of values -/

/-- The parsers that the reader uses. -/
structure CsvReaders where
  /-- `str::parse::<f64>`: nothing on an error, and no double where it is not finite. -/
  parseF64 : List Char → Option (Option F64)
  /-- `serde_json::from_str`. -/
  parseJson : List Char → Option Json

/-- `str::parse::<i64>`. -/
def parseI64 (s : List Char) : Option I64 :=
  (parseInt (-2 ^ 63) (2 ^ 63 - 1) s).bind fun i =>
    if h : -2 ^ 63 ≤ i ∧ i < 2 ^ 63 then some ⟨i, h⟩ else none

def looksLikeJson (s : List Char) : Bool :=
  (s.head? = some '[' ∧ s.getLast? = some ']') ∨ (s.head? = some '{' ∧ s.getLast? = some '}')

/-- `csv_cell_value`. -/
def csvCellValue (R : CsvReaders) (s : List Char) (quoted : Bool) : Json :=
  if quoted then
    if looksLikeJson s then (R.parseJson s).getD (.string (.ofList s)) else .string (.ofList s)
  else if s = [] then .null
  else
    match parseI64 s with
    | some i => .ofI64 i
    | none =>
      match R.parseF64 s with
      | some (some f) => .number (.float f)
      | some none => .null
      | none =>
        if s.map Char.toLower = ['t', 'r', 'u', 'e'] then .bool true
        else if s.map Char.toLower = ['f', 'a', 'l', 's', 'e'] then .bool false
        else if looksLikeJson s then (R.parseJson s).getD (.string (.ofList s))
        else .string (.ofList s)

section Writer

variable (ft : FloatTexts)

/-- `format_csv_cell`. -/
def formatCsvCell : Json → List Char
  | .null => []
  | .bool b => if b then ['t', 'r', 'u', 'e'] else ['f', 'a', 'l', 's', 'e']
  | .number n => numberText ft n
  | .string s => escapeCsvString s.toList
  | v => escapeCsvString (jsonText ft v)

/-- The labels in one cell, `join(":")`. -/
def joinLabels (labels : List String) : List Char := joined ':' (labels.map String.toList)

def nodesFile (id : NodeId) (labels : List String) (props : List (String × Json))
    (rest : List Char) : List Char :=
  joined ',' (("_id" :: "_labels" :: props.map Prod.fst).map String.toList) ++ '\n' ::
    (joined ',' (natText id :: escapeCsvString (joinLabels labels) ::
      props.map fun kv => formatCsvCell ft kv.2) ++ '\n' :: rest)

end Writer

/-! ## Rows -/

/-- The CSV form of `RowSource`. -/
structure CsvSource where
  lines : List (List Char)
  headers : List String
  delimiter : Char

/-- `RowSource::open`. -/
def CsvSource.open (text : List Char) (hasHeader : Bool) (delimiter : Char) :
    Except String CsvSource :=
  if hasHeader then
    match fileLines text with
    | line :: lines => .ok ⟨lines, (parseCsvLine line delimiter).map .ofList, delimiter⟩
    | [] => .error "CSV file is empty"
  else .ok ⟨fileLines text, [], delimiter⟩

section Reader

variable (R : CsvReaders)

/-- The value of the cell at a place: a missing cell is an empty one. -/
def valueAt (cols : List Cell) (i : ℕ) : Json :=
  let cell := cols.getD i ([], false)
  csvCellValue R cell.1 cell.2

def rowOf (headers : List String) (cols : List Cell) : Table String Json :=
  headers.zipIdx.foldl (fun row h => row.put h.1 (valueAt R cols h.2)) .empty

/-- `RowSource::next_row`: the next line that is not blank. -/
def nextRow (headers : List String) (delimiter : Char) :
    List (List Char) → Option (Table String Json × CsvSource)
  | [] => none
  | line :: lines =>
    if trim line = [] then nextRow headers delimiter lines
    else
      let cols := parseCsvLineQuoted line delimiter
      let headers :=
        if headers = [] then (List.range cols.length).map fun i => "col" ++ .ofList (natText i)
        else headers
      some (rowOf R headers cols, ⟨lines, headers, delimiter⟩)

end Reader

def splitLabels (s : List Char) : List String :=
  ((s.splitOnP fun c => c = ':' ∨ c = ';').filter (· ≠ [])).map .ofList

def labelsOfValue : Json → List String
  | .array items => items.filterMap asStr
  | .string s => splitLabels s.toList
  | _ => []

def importLabels (target : String) (row : Table String Json) : List String :=
  match (row.get "_labels").or (row.get "_label") with
  | some v => labelsOfValue v
  | none => [target]

/-- The row that is written for a node is read with its headers, its values and its labels. -/
def Restores (R : CsvReaders) (ft : FloatTexts) (id : NodeId) (labels : List String)
    (props : List (String × Json)) (rest : List Char) : Prop :=
  ∃ source row source', CsvSource.open (nodesFile ft id labels props rest) true ',' = .ok source ∧
    source.headers = "_id" :: "_labels" :: props.map Prod.fst ∧
    nextRow R source.headers source.delimiter source.lines = some (row, source') ∧
    (∀ kv ∈ props, row.get kv.1 = some kv.2) ∧ ∀ target, importLabels target row = labels

/-! ## What a cell gives back -/

/-- What the parsers of the reader do. -/
structure CsvReaders.Lawful (R : CsvReaders) (ft : FloatTexts) : Prop where
  /-- A double is read back from the text it is written as. -/
  parseF64_json : ∀ f, R.parseF64 (ft.json f) = some (some f)
  /-- The booleans are no numbers. -/
  parseF64_true : R.parseF64 ['t', 'r', 'u', 'e'] = none
  parseF64_false : R.parseF64 ['f', 'a', 'l', 's', 'e'] = none
  /-- A bracket begins a list, whose strings stand in it with their quotation marks. -/
  parseJson_list : ∀ s v, R.parseJson ('[' :: s) = some v → ∃ items, v = .array items ∧
    ((items.filterMap asStr).map (·.length + 2)).sum ≤ s.length
  /-- A brace begins a map. -/
  parseJson_map : ∀ s v, R.parseJson ('{' :: s) = some v → ∃ fields, v = .object fields

def cellOf (ft : FloatTexts) : Json → Cell
  | .string s => (s.toList, true)
  | .array items => (jsonText ft (.array items), true)
  | .object fields => (jsonText ft (.object fields), true)
  | v => (formatCsvCell ft v, false)

lemma isWhiteSpace_of_isWordChar {c : Char} (h : isWordChar c = true) :
    isWhiteSpace c = false := by
  unfold isWordChar at h
  rw [Bool.or_eq_true, decide_eq_true_iff] at h
  rcases h with h | h
  · have hdigit : 48 ≤ c.toNat ∧ c.toNat ≤ 57 := Char.isDigit_iff_toNat.mp h
    simp [isWhiteSpace]
    omega
  · simp only [mem_cons, not_mem_nil, or_false] at h
    rcases h with rfl | rfl | rfl | rfl | rfl <;> decide

/-- A text of digits and the like is written as it stands. -/
theorem writes_of_words {s : List Char} (h : ∀ c ∈ s, isWordChar c = true) :
    Writes ',' s (s, false) := by
  refine .plain (fun hmem => ?_) (fun hmem => ?_)
    (trim_eq_self_iff.mpr ⟨fun c hc => ?_, fun c hc => ?_⟩)
  · exact absurd (h _ hmem) (by decide)
  · exact absurd (h _ hmem) (by decide)
  · exact isWhiteSpace_of_isWordChar (h c (mem_of_mem_head? hc))
  · exact isWhiteSpace_of_isWordChar (h c (mem_of_getLast? hc))

section Cells

variable {ft : FloatTexts} {R : CsvReaders}

lemma isWordChar_numberText (n : Number) : ∀ c ∈ numberText ft n, isWordChar c = true := by
  cases n with
  | posInt n _ => exact isWordChar_natText n
  | negInt i _ => exact isWordChar_intText i
  | float f => exact ft.json_chars f

lemma writes_cellOf (v : Json) : Writes ',' (formatCsvCell ft v) (cellOf ft v) := by
  cases v with
  | null => exact writes_of_words fun c hc => by cases hc
  | bool b =>
    have htrue : Writes ',' ['t', 'r', 'u', 'e'] (['t', 'r', 'u', 'e'], false) :=
      .plain (by decide) (by decide) (by decide)
    have hfalse : Writes ',' ['f', 'a', 'l', 's', 'e'] (['f', 'a', 'l', 's', 'e'], false) :=
      .plain (by decide) (by decide) (by decide)
    cases b with
    | true => exact htrue
    | false => exact hfalse
  | number n => exact writes_of_words (isWordChar_numberText n)
  | string s => exact .quoted s.toList
  | array items => exact .quoted _
  | object fields => exact .quoted _

lemma parseI64_natText (n : ℕ) : parseI64 (natText n) =
    if h : n < 2 ^ 63 then some ⟨n, by omega⟩ else none := by
  unfold parseI64
  rw [parseInt_natText]
  by_cases h : n < 2 ^ 63
  · rw [if_pos (by omega), dif_pos h, Option.bind_some, dif_pos (by omega)]
  · rw [if_neg (by omega), dif_neg h, Option.bind_none]

lemma negative_fits {i : ℤ} (h : -2 ^ 63 ≤ i ∧ i < 0) : -2 ^ 63 ≤ i ∧ i < 2 ^ 63 := by
  omega

lemma parseI64_intText {i : ℤ} (h : -2 ^ 63 ≤ i ∧ i < 0) :
    parseI64 (intText i) = some ⟨i, negative_fits h⟩ := by
  unfold parseI64 intText
  rw [if_pos h.2, parseInt_negText _ (by omega) (by omega) (by omega)]
  have hneg : -((i.natAbs : ℕ) : ℤ) = i := by omega
  rw [hneg, Option.bind_some, dif_pos (by omega)]

variable {s : List Char}

/-- A text with a point or an exponent is no integer. -/
theorem parseI64_of_mark {c : Char} (hc : c ∈ s) (hmark : c = '.' ∨ c = 'e') :
    parseI64 s = none := by
  unfold parseI64
  rcases hparse : parseInt (-2 ^ 63) (2 ^ 63 - 1) s with _ | i
  · rfl
  · have hsign := mem_of_parseInt hparse hc
    rcases hmark with rfl | rfl <;> exact absurd hsign (by decide)

/-- The value is given back by its cell. -/
def Restorable (R : CsvReaders) (ft : FloatTexts) : Json → Prop
  | .number (.posInt n _) => n < 2 ^ 63
  | .string s => looksLikeJson s.toList = true → R.parseJson s.toList = none
  | .array items => R.parseJson (jsonText ft (.array items)) = some (.array items)
  | .object fields => R.parseJson (jsonText ft (.object fields)) = some (.object fields)
  | _ => True

/-- What a cell gives back that was not quoted. -/
theorem csvCellValue_unquoted (hne : s ≠ []) :
    (∀ i, parseI64 s = some i → csvCellValue R s false = .ofI64 i) ∧
    (parseI64 s = none → ∀ f, R.parseF64 s = some (some f) →
      csvCellValue R s false = .number (.float f)) ∧
    (parseI64 s = none → ∀ n h, (looksLikeJson s = true → R.parseJson s = none) →
      csvCellValue R s false ≠ .number (.posInt n h)) := by
  unfold csvCellValue
  rw [if_neg Bool.false_ne_true, if_neg hne]
  refine ⟨fun i hi => by rw [hi], fun hnone f hf => by rw [hnone, hf], fun hnone n h hjson => ?_⟩
  rw [hnone]
  dsimp only
  split
  · simp
  · simp
  · split
    · simp
    split
    · simp
    split
    next hlooks =>
      rw [hjson hlooks]
      simp
    next => simp

lemma csvCellValue_quoted (s : List Char) : csvCellValue R s true =
    if looksLikeJson s then (R.parseJson s).getD (.string (.ofList s)) else .string (.ofList s) :=
  rfl

lemma looksLikeJson_iff : looksLikeJson s = true ↔
    (s.head? = some '[' ∧ s.getLast? = some ']') ∨ (s.head? = some '{' ∧ s.getLast? = some '}') :=
  decide_eq_true_iff

lemma getLast?_restItemsText (items : List Json) :
    (restItemsText ft items).getLast? = some ']' := by
  induction items with
  | nil => rfl
  | cons v items ih =>
    rw [restItemsText, ← cons_append, getLast?_append, ih]
    rfl

lemma getLast?_restFieldsText (fields : List (String × Json)) :
    (restFieldsText ft fields).getLast? = some '}' := by
  induction fields with
  | nil => rfl
  | cons kv fields ih =>
    rw [restFieldsText, ← cons_append, ← cons_append, ← append_assoc,
      getLast?_append, ih]
    rfl

/-- Lists and maps are written between brackets. -/
theorem looksLikeJson_jsonText :
    (∀ items, looksLikeJson (jsonText ft (.array items)) = true) ∧
      ∀ fields, looksLikeJson (jsonText ft (.object fields)) = true := by
  constructor
  · intro items
    refine looksLikeJson_iff.mpr (.inl ⟨rfl, ?_⟩)
    have hitems : (itemsText ft items).getLast? = some ']' := by
      cases items with
      | nil => rfl
      | cons v items =>
        rw [itemsText, getLast?_append, getLast?_restItemsText]
        rfl
    rw [jsonText, getLast?_cons, hitems]
    rfl
  · intro fields
    refine looksLikeJson_iff.mpr (.inr ⟨rfl, ?_⟩)
    have hfields : (fieldsText ft fields).getLast? = some '}' := by
      cases fields with
      | nil => rfl
      | cons kv fields =>
        rw [fieldsText, ← cons_append, ← append_assoc, getLast?_append,
          getLast?_restFieldsText]
        rfl
    rw [jsonText, getLast?_cons, hfields]
    rfl

/-- What looks like JSON is no JSON string. -/
theorem CsvReaders.Lawful.ne_string (hR : R.Lawful ft) (h : looksLikeJson s = true) {v : Json}
    (hv : R.parseJson s = some v) (t : String) : v ≠ .string t := by
  rcases looksLikeJson_iff.mp h with ⟨hhead, -⟩ | ⟨hhead, -⟩
  · obtain ⟨s', rfl⟩ := head?_eq_some_iff.mp hhead
    obtain ⟨items, rfl, -⟩ := hR.parseJson_list s' v hv
    simp
  · obtain ⟨s', rfl⟩ := head?_eq_some_iff.mp hhead
    obtain ⟨fields, rfl⟩ := hR.parseJson_map s' v hv
    simp

lemma looksLikeJson_natText (n : ℕ) : looksLikeJson (natText n) = false := by
  rw [Bool.eq_false_iff]
  intro h
  rcases looksLikeJson_iff.mp h with ⟨hhead, -⟩ | ⟨hhead, -⟩ <;>
    exact absurd (isDigit_of_mem_natText (mem_of_mem_head? hhead)) (by decide)

/-- **What a cell gives back.** -/
theorem csvCellValue_cellOf_iff (hR : R.Lawful ft) (v : Json) :
    csvCellValue R (cellOf ft v).1 (cellOf ft v).2 = v ↔ Restorable R ft v := by
  have hjson : ∀ v : Json, looksLikeJson (jsonText ft v) = true → (∀ t, v ≠ .string t) →
      (csvCellValue R (jsonText ft v) true = v ↔ R.parseJson (jsonText ft v) = some v) := by
    intro v hlooks hstring
    rw [csvCellValue_quoted, if_pos hlooks]
    rcases R.parseJson (jsonText ft v) with _ | w
    · simp [(hstring _).symm]
    · simp
  cases v with
  | null => exact iff_of_true rfl trivial
  | bool b =>
    refine iff_of_true ?_ trivial
    cases b with
    | true =>
      have hint : parseI64 ['t', 'r', 'u', 'e'] = none := by decide
      show csvCellValue R ['t', 'r', 'u', 'e'] false = _
      unfold csvCellValue
      rw [hint, hR.parseF64_true]
      rfl
    | false =>
      have hint : parseI64 ['f', 'a', 'l', 's', 'e'] = none := by decide
      show csvCellValue R ['f', 'a', 'l', 's', 'e'] false = _
      unfold csvCellValue
      rw [hint, hR.parseF64_false]
      rfl
  | number n =>
    cases n with
    | posInt n hn =>
      have hread := @csvCellValue_unquoted R (natText n) (natText_ne_nil n)
      have hparse := parseI64_natText n
      show csvCellValue R (natText n) false = _ ↔ n < 2 ^ 63
      by_cases h : n < 2 ^ 63
      · rw [dif_pos h] at hparse
        refine iff_of_true ((hread.1 _ hparse).trans ?_) h
        have hvalue : (Json.number (.posInt n hn)).asI64 = some ⟨n, by omega⟩ := dif_pos h
        exact (Json.asI64_eq_some.mp hvalue).symm
      · -- an integer past the range is read as a double
        rw [dif_neg h] at hparse
        refine iff_of_false (hread.2.2 hparse n hn fun hlooks => ?_) h
        rw [looksLikeJson_natText] at hlooks
        cases hlooks
    | negInt i hi =>
      refine iff_of_true ?_ trivial
      have hread := @csvCellValue_unquoted R (intText i) (intText_ne_nil i)
      exact (hread.1 _ (parseI64_intText hi)).trans (Json.asI64_eq_some.mp rfl).symm
    | float f =>
      refine iff_of_true ?_ trivial
      obtain ⟨c, hc, hmark⟩ := ft.json_mark f
      have hread := @csvCellValue_unquoted R (ft.json f) (ne_nil_of_mem hc)
      exact hread.2.1 (parseI64_of_mark hc hmark) f (hR.parseF64_json f)
  | string s =>
    show csvCellValue R s.toList true = _ ↔ _
    rw [csvCellValue_quoted, String.ofList_toList]
    by_cases hlooks : looksLikeJson s.toList = true
    · rw [if_pos hlooks]
      rcases hparse : R.parseJson s.toList with _ | v
      · exact iff_of_true rfl fun _ => hparse
      · refine iff_of_false (hR.ne_string hlooks hparse s) fun h => ?_
        rw [h hlooks] at hparse
        cases hparse
    · rw [if_neg hlooks]
      exact iff_of_true rfl fun h => absurd h hlooks
  | array items => exact hjson _ (looksLikeJson_jsonText.1 items) (by simp)
  | object fields => exact hjson _ (looksLikeJson_jsonText.2 fields) (by simp)

/-! ## Line breaks -/

lemma linebreak_notMem_escapeChar (c : Char) : '\n' ∉ escapeChar c := by
  have hdigit : ∀ d < 16, '\n' ≠ hexDigit d := by decide
  have hstays : ∀ d : Char, '\n' ∈ ['\\', d] → d = '\n' := by
    intro d h
    rw [mem_cons, mem_singleton] at h
    exact (h.resolve_left (by decide)).symm
  have hword : ∀ d : Char, d ≠ '\n' → '\n' ∉ ['\\', d] := fun d hd h => hd (hstays d h)
  unfold escapeChar
  split
  next hc => exact fun h => absurd (hstays c h ▸ hc) (by decide)
  split
  next hc => exact fun h => absurd (hstays c h ▸ hc) (by decide)
  split
  · exact hword _ (by decide)
  split
  · exact hword _ (by decide)
  split
  · exact hword _ (by decide)
  split
  · exact hword _ (by decide)
  split
  · exact hword _ (by decide)
  split
  next hc =>
    intro h
    rcases mem_append.mp (show '\n' ∈ ['\\', 'u', '0', '0'] ++
      [hexDigit (c.toNat / 16), hexDigit (c.toNat % 16)] from h) with h | h
    · exact absurd h (by decide)
    · rw [mem_cons, mem_singleton] at h
      exact h.elim (hdigit _ (by omega)) (hdigit _ (by omega))
  next hbreak _ _ _ =>
    intro h
    exact hbreak (mem_singleton.mp h ▸ rfl)

lemma linebreak_notMem_stringText (s : String) : '\n' ∉ stringText s := by
  intro h
  rcases mem_cons.mp h with h | h
  · exact absurd h (by decide)
  rcases mem_append.mp h with h | h
  · obtain ⟨c, -, hc⟩ := mem_flatMap.mp h
    exact linebreak_notMem_escapeChar c hc
  · exact absurd (mem_singleton.mp h) (by decide)

lemma linebreak_of_words (h : ∀ c ∈ s, isWordChar c = true) : '\n' ∉ s :=
  fun hmem => absurd (h _ hmem) (by decide)

mutual

theorem linebreak_notMem_jsonText : ∀ v : Json, '\n' ∉ jsonText ft v
  | .null => by simp [jsonText]
  | .bool true => by simp [jsonText]
  | .bool false => by simp [jsonText]
  | .number n => linebreak_of_words (isWordChar_numberText n)
  | .string s => linebreak_notMem_stringText s
  | .array items => by
    rw [jsonText, mem_cons, not_or]
    exact ⟨by decide, linebreak_notMem_itemsText items⟩
  | .object fields => by
    rw [jsonText, mem_cons, not_or]
    exact ⟨by decide, linebreak_notMem_fieldsText fields⟩

theorem linebreak_notMem_itemsText : ∀ items : List Json, '\n' ∉ itemsText ft items
  | [] => by simp [itemsText]
  | v :: items => by
    rw [itemsText, mem_append, not_or]
    exact ⟨linebreak_notMem_jsonText v, linebreak_notMem_restItemsText items⟩

theorem linebreak_notMem_restItemsText : ∀ items : List Json, '\n' ∉ restItemsText ft items
  | [] => by simp [restItemsText]
  | v :: items => by
    rw [restItemsText, mem_cons, mem_append, not_or, not_or]
    exact ⟨by decide, linebreak_notMem_jsonText v, linebreak_notMem_restItemsText items⟩

theorem linebreak_notMem_fieldsText : ∀ fields : List (String × Json), '\n' ∉ fieldsText ft fields
  | [] => by simp [fieldsText]
  | (k, v) :: fields => by
    rw [fieldsText, mem_append, mem_cons, mem_append, not_or, not_or, not_or]
    exact ⟨linebreak_notMem_stringText k, by decide, linebreak_notMem_jsonText v,
      linebreak_notMem_restFieldsText fields⟩

theorem linebreak_notMem_restFieldsText :
    ∀ fields : List (String × Json), '\n' ∉ restFieldsText ft fields
  | [] => by simp [restFieldsText]
  | (k, v) :: fields => by
    rw [restFieldsText, mem_cons, mem_append, mem_cons, mem_append, not_or,
      not_or, not_or, not_or]
    exact ⟨by decide, linebreak_notMem_stringText k, by decide, linebreak_notMem_jsonText v,
      linebreak_notMem_restFieldsText fields⟩

end

lemma linebreak_notMem_doubled (h : '\n' ∉ s) : '\n' ∉ doubled s := by
  intro hmem
  obtain ⟨c, hc, hbreak⟩ := mem_flatMap.mp hmem
  split at hbreak
  · simp only [mem_cons, not_mem_nil, or_false, or_self] at hbreak
    exact absurd hbreak (by decide)
  · rw [mem_singleton] at hbreak
    exact h (hbreak ▸ hc)

lemma linebreak_notMem_escapeCsvString (h : '\n' ∉ s) :
    '\n' ∉ escapeCsvString s := by
  unfold escapeCsvString
  rw [mem_cons, mem_append, mem_singleton, not_or, not_or]
  exact ⟨by decide, linebreak_notMem_doubled h, by decide⟩

lemma linebreak_mem_escapeCsvString (h : '\n' ∈ s) : '\n' ∈ escapeCsvString s := by
  refine mem_cons_of_mem _ (mem_append_left _ (mem_flatMap.mpr ⟨'\n', h, ?_⟩))
  rw [if_neg (by decide)]
  exact mem_singleton_self _

/-- Only the cell of a string can have a line break. -/
theorem linebreak_notMem_formatCsvCell {v : Json} (h : ∀ s, v = .string s → '\n' ∉ s.toList) :
    '\n' ∉ formatCsvCell ft v := by
  cases v with
  | null => exact not_mem_nil
  | bool b => cases b <;> simp [formatCsvCell]
  | number n => exact linebreak_of_words (isWordChar_numberText n)
  | string s => exact linebreak_notMem_escapeCsvString (h s rfl)
  | array items => exact linebreak_notMem_escapeCsvString (linebreak_notMem_jsonText _)
  | object fields => exact linebreak_notMem_escapeCsvString (linebreak_notMem_jsonText _)

end Cells

/-! ## Labels -/

/-- A label that stays one where labels are joined and split. -/
structure PlainLabel (label : String) : Prop where
  nonempty : label ≠ ""
  colon : ':' ∉ label.toList
  semicolon : ';' ∉ label.toList

lemma mem_of_mem_splitOnP {α : Type} {p : α → Bool} {l piece : List α}
    (h : piece ∈ l.splitOnP p) : ∀ a ∈ piece, p a = false ∧ a ∈ l := by
  induction l generalizing piece with
  | nil =>
    rw [splitOnP_nil, mem_singleton] at h
    subst h
    exact fun a ha => by cases ha
  | cons b l ih =>
    rw [splitOnP_cons_eq_if_modifyHead] at h
    split at h
    · rcases mem_cons.mp h with rfl | h
      · exact fun a ha => by cases ha
      · exact fun a ha => ⟨(ih h a ha).1, mem_cons_of_mem _ (ih h a ha).2⟩
    next hb =>
      rcases hpieces : l.splitOnP p with _ | ⟨first, pieces⟩
      · exact absurd hpieces (splitOnP_ne_nil p l)
      rw [hpieces] at h ih
      rcases mem_cons.mp h with rfl | h
      · intro a ha
        rcases mem_cons.mp ha with rfl | ha
        · exact ⟨Bool.eq_false_iff.mpr hb, mem_cons_self⟩
        · have := ih mem_cons_self a ha
          exact ⟨this.1, mem_cons_of_mem _ this.2⟩
      · intro a ha
        have := ih (mem_cons_of_mem _ h) a ha
        exact ⟨this.1, mem_cons_of_mem _ this.2⟩

lemma splitLabels_joinLabels_iff (labels : List String) :
    splitLabels (joinLabels labels) = labels ↔ ∀ label ∈ labels, PlainLabel label := by
  constructor
  · intro h label hlabel
    rw [← h] at hlabel
    obtain ⟨piece, hpiece, rfl⟩ := mem_map.mp hlabel
    obtain ⟨hpiece, hne⟩ := mem_filter.mp hpiece
    have hchars := mem_of_mem_splitOnP hpiece
    refine ⟨?_, fun hc => ?_, fun hc => ?_⟩
    · simpa using hne
    · rw [String.toList_ofList] at hc
      simpa using (hchars _ hc).1
    · rw [String.toList_ofList] at hc
      simpa using (hchars _ hc).1
  · intro h
    have hpiece : ∀ label : String, PlainLabel label →
        (∀ c ∈ label.toList, decide (c = ':' ∨ c = ';') = false) ∧ label.toList ≠ [] := by
      intro label hlabel
      refine ⟨fun c hc => ?_, fun hnil => hlabel.nonempty (by simpa using hnil)⟩
      rw [decide_eq_false_iff_not]
      rintro (rfl | rfl)
      · exact hlabel.colon hc
      · exact hlabel.semicolon hc
    unfold splitLabels joinLabels
    induction labels with
    | nil => rfl
    | cons label labels ih =>
      obtain ⟨hchars, hne⟩ := hpiece label (h label mem_cons_self)
      cases labels with
      | nil =>
        rw [map_cons, map_nil, joined_singleton, splitOnP_eq_singleton hchars]
        simp [hne]
      | cons label' labels =>
        rw [map_cons, map_cons, joined_cons_cons,
          splitOnP_append_cons_of_forall_mem hchars ':' (by simp), filter_cons,
          if_pos (decide_eq_true hne), map_cons, String.ofList_toList]
        exact congrArg (label :: ·) (ih fun l hl => h l (mem_cons_of_mem _ hl))

/-- A text of some labels is at least as long as they are together. -/
theorem length_joinLabels {labels : List String} (hne : labels ≠ []) :
    (joinLabels labels).length + 1 = (labels.map (·.length + 1)).sum := by
  unfold joinLabels
  rw [length_joined (by simpa using hne), map_map]
  simp only [Function.comp_def, String.length_toList]

section ReadLabels

variable {ft : FloatTexts} {R : CsvReaders}

/-- **What labels a quoted text stands for**, where it is no longer than the text of these labels. A
JSON list of the labels would be longer. -/
theorem labelsOfValue_csvCellValue_iff (hR : R.Lawful ft) {labels : List String} {s : List Char}
    (hlen : s.length ≤ (joinLabels labels).length) :
    labelsOfValue (csvCellValue R s true) = labels ↔
      splitLabels s = labels ∧ (looksLikeJson s = true → R.parseJson s = none) := by
  rw [csvCellValue_quoted]
  by_cases hlooks : looksLikeJson s = true
  · rw [if_pos hlooks]
    rcases hparse : R.parseJson s with _ | v
    · simp [labelsOfValue]
    refine iff_of_false (fun hlabels => ?_) (by simp [hlooks])
    rw [Option.getD_some] at hlabels
    have hne : labels ≠ [] := by
      rintro rfl
      have hs : s = [] := eq_nil_of_length_eq_zero (Nat.le_zero.mp hlen)
      rw [hs] at hlooks
      exact absurd hlooks (by decide)
    have hsize := length_joinLabels hne
    rcases looksLikeJson_iff.mp hlooks with ⟨hhead, -⟩ | ⟨hhead, -⟩
    · obtain ⟨s', rfl⟩ := head?_eq_some_iff.mp hhead
      obtain ⟨items, rfl, hitems⟩ := hR.parseJson_list s' v hparse
      rw [labelsOfValue] at hlabels
      rw [hlabels] at hitems
      have hle : (labels.map (·.length + 1)).sum ≤ (labels.map (·.length + 2)).sum :=
        sum_le_sum fun l _ => by omega
      rw [length_cons] at hlen
      omega
    · obtain ⟨s', rfl⟩ := head?_eq_some_iff.mp hhead
      obtain ⟨fields, rfl⟩ := hR.parseJson_map s' v hparse
      exact hne hlabels.symm
  · rw [if_neg hlooks]
    simp [labelsOfValue, hlooks]

end ReadLabels

end IssunDB.Cypher.Csv
