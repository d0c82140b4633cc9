import IssunDB.Cypher.CsvRows
import IssunDB.Cypher.Equivalence

/-!
# Exported node rows

A node row that is exported gives back its values and labels when it is imported, where its names,
values and labels are those that their cells give back and no text has a line break. The file is
split into lines first, so that a text with a line break ends the row within its quotation marks:
what is left of the text is the last cell, and the other values are null.

* `fileLines_broken` — the line that is read where a text has a line break.
* `restores_iff` — the rows that are given back.
-/

namespace IssunDB.Cypher.Csv

open List Option IssunDB.Texts

/-! ## Broken lines -/

lemma doubled_append (s t : List Char) : doubled (s ++ t) = doubled s ++ doubled t :=
  flatMap_append

lemma stripReturn_concat (s : List Char) (c : Char) :
    stripReturn (s ++ [c]) = if c = '\r' then s else s ++ [c] := by
  unfold stripReturn
  rw [getLast?_concat, dropLast_concat]
  by_cases hc : c = '\r' <;> simp [hc]

/-- The carriage return at the end of an open quotation is one of the text. -/
theorem stripReturn_doubled (before s : List Char) :
    stripReturn (before ++ quote :: doubled s) = before ++ quote :: doubled (stripReturn s) := by
  rcases s.eq_nil_or_concat with rfl | ⟨s, c, rfl⟩
  · exact (stripReturn_concat before quote).trans (if_neg (by decide))
  rw [concat_eq_append, doubled_append, stripReturn_concat]
  have hreturn : quote ≠ '\r' := by decide
  by_cases hquote : c = quote
  · -- a doubled quotation mark ends the line
    have hline : before ++ quote :: (doubled s ++ doubled [c]) =
        (before ++ quote :: (doubled s ++ [quote])) ++ [quote] := by
      simp [doubled, hquote]
    rw [hline, stripReturn_concat, if_neg hreturn, ← hline, if_neg (hquote ▸ hreturn),
      doubled_append]
  · have hline : before ++ quote :: (doubled s ++ doubled [c]) =
        (before ++ quote :: doubled s) ++ [c] := by
      simp [doubled, hquote]
    rw [hline, stripReturn_concat]
    by_cases hc : c = '\r'
    · rw [if_pos hc, if_pos hc]
    · rw [if_neg hc, if_neg hc, ← hline, doubled_append]

lemma stripReturn_sublist (s : List Char) : (stripReturn s).Sublist s := by
  unfold stripReturn
  split
  · exact dropLast_sublist s
  · exact List.Sublist.refl s

lemma joined_append_cons (texts : List (List Char)) (text : List Char)
    (texts' : List (List Char)) : ∃ after, joined ',' (texts ++ text :: texts') =
      texts.flatMap (· ++ [',']) ++ (text ++ after) := by
  induction texts with
  | nil =>
    cases texts' with
    | nil => exact ⟨[], by simp [joined_singleton]⟩
    | cons text' texts' => exact ⟨_, joined_cons_cons text text' texts'⟩
  | cons first texts ih =>
    obtain ⟨after, hafter⟩ := ih
    refine ⟨after, ?_⟩
    obtain ⟨second, others, hcons⟩ : ∃ second others, texts ++ text :: texts' = second :: others :=
      exists_cons_of_ne_nil (by simp)
    rw [cons_append, hcons, joined_cons_cons, ← hcons, hafter, flatMap_cons]
    simp

/-- **A line break ends a row within its quotation marks.** What is read of the text is shorter than
the text and has no line break. -/
theorem fileLines_broken {texts texts' : List (List Char)} {s : List Char}
    (htexts : ∀ text ∈ texts, '\n' ∉ text) (hs : '\n' ∈ s) (rest : List Char) :
    ∃ s' lines, '\n' ∉ s' ∧ s'.length < s.length ∧
      fileLines (joined ',' (texts ++ escapeCsvString s :: texts') ++ '\n' :: rest) =
        joined ',' (texts ++ [quote :: doubled s']) :: lines := by
  obtain ⟨s₁, s₂, rfl, hs₁⟩ := eq_append_cons_of_mem hs
  obtain ⟨after, hafter⟩ := joined_append_cons texts (escapeCsvString (s₁ ++ '\n' :: s₂)) texts'
  obtain ⟨lines, hlines⟩ :=
    fileLines_head (joined ',' (texts ++ escapeCsvString (s₁ ++ '\n' :: s₂) :: texts')) rest
  refine ⟨stripReturn s₁, lines, fun h => hs₁ ((stripReturn_sublist s₁).subset h), ?_, ?_⟩
  · have := (stripReturn_sublist s₁).length_le
    rw [length_append, length_cons]
    omega
  -- all before the line break has none
  have hbefore : ∀ c ∈ texts.flatMap (· ++ [',']) ++ quote :: doubled s₁,
      decide (c ≠ '\n') = true := by
    intro c hc
    rw [decide_eq_true_iff]
    rintro rfl
    rcases mem_append.mp hc with hc | hc
    · obtain ⟨text, htext, hc⟩ := mem_flatMap.mp hc
      rcases mem_append.mp hc with hc | hc
      · exact htexts text htext hc
      · exact absurd hc (by decide)
    · rcases mem_cons.mp hc with hc | hc
      · exact absurd hc (by decide)
      · exact linebreak_notMem_doubled hs₁ hc
  have hsplit : joined ',' (texts ++ escapeCsvString (s₁ ++ '\n' :: s₂) :: texts') =
      (texts.flatMap (· ++ [',']) ++ quote :: doubled s₁) ++
        '\n' :: (doubled s₂ ++ (quote :: after)) := by
    rw [hafter, escapeCsvString, doubled_append]
    simp [doubled, quote]
  rw [hlines, joined_concat, ← stripReturn_doubled, hsplit, firstLine,
    takeWhile_append_of_pos hbefore, takeWhile_cons_of_neg (by simp), append_nil]

/-! ## Rows and headers -/

section Export

variable {R : CsvReaders} {ft : FloatTexts}

lemma rowOf_concat (headers : List String) (header : String) (cols : List Cell) :
    rowOf R (headers ++ [header]) cols =
      (rowOf R headers cols).put header (valueAt R cols headers.length) := by
  simp [rowOf, zipIdx_append]

/-- A name has the value at its last place. -/
theorem get_rowOf (before : List String) {name : String} {after : List String} (h : name ∉ after)
    (cols : List Cell) : (rowOf R (before ++ name :: after) cols).get name =
      some (valueAt R cols before.length) := by
  induction after using List.reverseRecOn with
  | nil =>
    rw [rowOf_concat]
    exact Table.get_put_self ..
  | append_singleton after header ih =>
    rw [mem_append, mem_singleton, not_or] at h
    rw [← cons_append, ← append_assoc, rowOf_concat, Table.get_put_of_ne _ _ h.2]
    exact ih h.1

variable {headers : List String} {props : List (String × Json)} {labels : List String}
  {s' : List Char}

lemma nextRow_cons (hne : headers ≠ []) {line : List Char} {c : Char} (hc : c ∈ line)
    (hblank : isWhiteSpace c = false) (lines : List (List Char)) :
    nextRow R headers ',' (line :: lines) =
      some (rowOf R headers (parseCsvLineQuoted line ','), ⟨lines, headers, ','⟩) := by
  have hline : trim line ≠ [] := by
    intro htrim
    rw [trim_eq_nil_iff.mp htrim c hc] at hblank
    cases hblank
  rw [nextRow, if_neg hline]
  dsimp only
  rw [if_neg hne]

def rowTexts (ft : FloatTexts) (id : NodeId) (labels : List String) (props : List (String × Json)) :
    List (List Char) :=
  natText id :: escapeCsvString (joinLabels labels) :: props.map fun kv => formatCsvCell ft kv.2

def rowCells (ft : FloatTexts) (id : NodeId) (labels : List String) (props : List (String × Json)) :
    List Cell :=
  (natText id, false) :: (joinLabels labels, true) :: props.map fun kv => cellOf ft kv.2

lemma writes_rowCells (id : NodeId) (labels : List String) (props : List (String × Json)) :
    List.Forall₂ (Writes ',') (rowTexts ft id labels props) (rowCells ft id labels props) := by
  refine .cons (writes_of_words (isWordChar_natText id)) (.cons (.quoted _) ?_)
  rw [List.forall₂_map_left_iff, List.forall₂_map_right_iff, List.forall₂_same]
  exact fun kv _ => writes_cellOf kv.2

/-- A row is not blank: it begins with the digits of an id. -/
theorem exists_mem_joined {id : NodeId} {texts : List (List Char)} (h : natText id ∈ texts) :
    ∃ c ∈ joined ',' texts, isWhiteSpace c = false := by
  obtain ⟨c, hc⟩ := exists_mem_of_ne_nil _ (natText_ne_nil id)
  exact ⟨c, mem_joined_of_mem h hc, isWhiteSpace_of_isWordChar (isWordChar_natText id c hc)⟩

/-- **A row without line breaks** is read as its cells. -/
theorem nextRow_whole (hne : headers ≠ []) {id : NodeId} (hlabels : '\n' ∉ joinLabels labels)
    (hprops : ∀ kv ∈ props, '\n' ∉ formatCsvCell ft kv.2) (rest : List Char) :
    nextRow R headers ',' (fileLines (joined ',' (rowTexts ft id labels props) ++ '\n' :: rest)) =
      some (rowOf R headers (rowCells ft id labels props), ⟨fileLines rest, headers, ','⟩) := by
  have hwrites := @writes_rowCells ft id labels props
  have hline : '\n' ∉ joined ',' (rowTexts ft id labels props) := by
    intro hmem
    rcases mem_joined hmem with hc | ⟨text, htext, hc⟩
    · exact absurd hc (by decide)
    rcases mem_cons.mp htext with rfl | htext
    · exact linebreak_of_words (isWordChar_natText id) hc
    rcases mem_cons.mp htext with rfl | htext
    · exact linebreak_notMem_escapeCsvString hlabels hc
    · obtain ⟨kv, hkv, rfl⟩ := List.mem_map.mp htext
      exact hprops kv hkv hc
  obtain ⟨c, hc, hblank⟩ :=
    @exists_mem_joined id (rowTexts ft id labels props) mem_cons_self
  rw [fileLines_cons hline (getLast?_joined (by decide) hwrites), nextRow_cons hne hc hblank,
    parse_joined (by decide) hwrites (cons_ne_nil _ _)]

/-- **A row with a line break** is read as the cells before it and a part of the text. -/
theorem nextRow_broken (hne : headers ≠ []) {id : NodeId} {texts texts' : List (List Char)}
    {cells : List Cell} {s : List Char}
    (hwrites : List.Forall₂ (Writes ',') (natText id :: texts) cells)
    (htexts : ∀ text ∈ texts, '\n' ∉ text) (hs : '\n' ∈ s) (rest : List Char) :
    ∃ s' source, '\n' ∉ s' ∧ s'.length < s.length ∧ nextRow R headers ','
      (fileLines (joined ',' (natText id :: texts ++ escapeCsvString s :: texts') ++
        '\n' :: rest)) =
        some (rowOf R headers (cells ++ [(s', true)]), source) := by
  have hall : ∀ text ∈ natText id :: texts, '\n' ∉ text := by
    intro text htext
    rcases mem_cons.mp htext with rfl | htext
    · exact linebreak_of_words (isWordChar_natText id)
    · exact htexts text htext
  obtain ⟨s', lines, hs', hlen, hlines⟩ := @fileLines_broken _ texts' s hall hs rest
  obtain ⟨c, hc, hblank⟩ :=
    @exists_mem_joined id (natText id :: texts ++ [quote :: doubled s']) mem_cons_self
  refine ⟨s', ⟨lines, headers, ','⟩, hs', hlen, ?_⟩
  rw [hlines, nextRow_cons hne hc hblank, parse_joined_open (by decide) hwrites]

/-! ## What is given back -/

/-- A text that is read is no longer text, but a part of it without line breaks. -/
theorem csvCellValue_ne_of_linebreak (hR : R.Lawful ft) (hs' : '\n' ∉ s') {s : String}
    (hs : '\n' ∈ s.toList) : csvCellValue R s' true ≠ .string s := by
  rw [csvCellValue_quoted]
  have htext : Json.string (.ofList s') ≠ .string s := by
    intro h
    rw [← Json.string.inj h, String.toList_ofList] at hs
    exact hs' hs
  split
  next hlooks =>
    rcases hparse : R.parseJson s' with _ | v
    · exact htext
    · exact hR.ne_string hlooks hparse s
  next => exact htext

lemma mem_joinLabels {c : Char} (h : c ∈ joinLabels labels) :
    c = ':' ∨ ∃ label ∈ labels, c ∈ label.toList := by
  refine (mem_joined h).imp id fun ⟨text, htext, hc⟩ => ?_
  obtain ⟨label, hlabel, rfl⟩ := List.mem_map.mp htext
  exact ⟨label, hlabel, hc⟩

lemma labelsOfValue_ne_of_linebreak (hR : R.Lawful ft) (hs' : '\n' ∉ s')
    (hlen : s'.length ≤ (joinLabels labels).length) (hlabels : '\n' ∈ joinLabels labels) :
    labelsOfValue (csvCellValue R s' true) ≠ labels := by
  intro h
  obtain ⟨hsplit, -⟩ := (labelsOfValue_csvCellValue_iff hR hlen).mp h
  rcases mem_joinLabels hlabels with hc | ⟨label, hlabel, hc⟩
  · exact absurd hc (by decide)
  rw [← hsplit] at hlabel
  obtain ⟨piece, hpiece, rfl⟩ := List.mem_map.mp hlabel
  rw [String.toList_ofList] at hc
  exact hs' (mem_of_mem_splitOnP (mem_filter.mp hpiece).1 _ hc).2

/-- The row gives its values and its labels back. -/
def Gives (row : Table String Json) (labels : List String) (props : List (String × Json)) : Prop :=
  (∀ kv ∈ props, row.get kv.1 = some kv.2) ∧ ∀ target, importLabels target row = labels

/-- What a node row gives back: names that the header keeps, values that their cells keep, and
labels that are either split again or those that a property of that name stands for. -/
structure RestorableRow (R : CsvReaders) (ft : FloatTexts) (labels : List String)
    (props : List (String × Json)) : Prop where
  names : ∀ kv ∈ props, PlainName ',' kv.1.toList
  values : ∀ kv ∈ props, Restorable R ft kv.2
  lineBreaks : ∀ kv ∈ props, ∀ s, kv.2 = .string s → '\n' ∉ s.toList
  labelBreaks : '\n' ∉ joinLabels labels
  ownLabels : "_labels" ∉ props.map Prod.fst → (∀ label ∈ labels, PlainLabel label) ∧
    (looksLikeJson (joinLabels labels) = true → R.parseJson (joinLabels labels) = none)
  labelsProperty : ∀ v, ("_labels", v) ∈ props → labelsOfValue v = labels

lemma importLabels_of_get {row : Table String Json} {v : Json} (h : row.get "_labels" = some v)
    (target : String) : importLabels target row = labelsOfValue v := by
  rw [importLabels, h, some_or]

def rowHeaders (props : List (String × Json)) : List String :=
  "_id" :: "_labels" :: props.map Prod.fst

lemma get_property {before : List (String × Json)} {kv : String × Json}
    {after : List (String × Json)} (hkeys : ((before ++ kv :: after).map Prod.fst).Nodup)
    (cols : List Cell) : (rowOf R (rowHeaders (before ++ kv :: after)) cols).get kv.1 =
      some (valueAt R cols (before.length + 2)) := by
  have hnot : kv.1 ∉ after.map Prod.fst := by
    rw [map_append, map_cons] at hkeys
    exact (nodup_cons.mp hkeys.of_append_right).1
  have hheaders : rowHeaders (before ++ kv :: after) =
      ("_id" :: "_labels" :: before.map Prod.fst) ++ kv.1 :: after.map Prod.fst := by
    rw [rowHeaders, map_append, map_cons]
    rfl
  rw [hheaders, get_rowOf _ hnot]
  simp

/-- The labels are in the cell after the id, but for a property of that name. -/
theorem get_labels (h : "_labels" ∉ props.map Prod.fst) (cols : List Cell) :
    (rowOf R (rowHeaders props) cols).get "_labels" =
      some (valueAt R cols 1) :=
  get_rowOf ["_id"] h cols

/-- **The rows of whole lines** that are given back. -/
theorem gives_whole_iff (hR : R.Lawful ft) {id : NodeId} (hkeys : (props.map Prod.fst).Nodup) :
    Gives (rowOf R (rowHeaders props) (rowCells ft id labels props)) labels props ↔
      (∀ kv ∈ props, Restorable R ft kv.2) ∧
      ("_labels" ∉ props.map Prod.fst → (∀ label ∈ labels, PlainLabel label) ∧
        (looksLikeJson (joinLabels labels) = true → R.parseJson (joinLabels labels) = none)) ∧
      ∀ v, ("_labels", v) ∈ props → labelsOfValue v = labels := by
  have hvalues : (∀ kv ∈ props, (rowOf R (rowHeaders props)
      (rowCells ft id labels props)).get kv.1 = some kv.2) ↔
        ∀ kv ∈ props, Restorable R ft kv.2 := by
    refine forall₂_congr fun kv hkv => ?_
    obtain ⟨before, after, rfl⟩ := append_of_mem hkv
    rw [get_property hkeys, some_inj, ← csvCellValue_cellOf_iff hR]
    have hcell :
        (rowCells ft id labels (before ++ kv :: after)).getD (before.length + 2) ([], false) =
        cellOf ft kv.2 := by
      simp [rowCells]
    rw [valueAt, hcell]
  rw [Gives, hvalues]
  refine and_congr_right fun hrestorable => ?_
  by_cases hmem : "_labels" ∈ props.map Prod.fst
  · -- a property is read instead of the labels
    obtain ⟨⟨name, v⟩, hkv, rfl⟩ := List.mem_map.mp hmem
    have hget := hvalues.mpr hrestorable _ hkv
    constructor
    · intro h
      refine ⟨fun hnot => absurd hmem hnot, fun v' hv' => ?_⟩
      exact (importLabels_of_get (hvalues.mpr hrestorable _ hv') "").symm.trans (h "")
    · intro h target
      exact (importLabels_of_get hget target).trans (h.2 v hkv)
  · have hget := @get_labels R props hmem (rowCells ft id labels props)
    have himport := importLabels_of_get hget
    have hiff := @labelsOfValue_csvCellValue_iff ft R hR labels (joinLabels labels) le_rfl
    rw [splitLabels_joinLabels_iff] at hiff
    constructor
    · intro h
      refine ⟨fun _ => hiff.mp ((himport "").symm.trans (h "")), fun v hv => ?_⟩
      exact absurd (List.mem_map_of_mem hv) hmem
    · intro h target
      exact (himport target).trans (hiff.mpr (h.1 hmem))

/-- A value is not given back where a text breaks the line before or in its cell. -/
theorem not_gives_broken_value (hR : R.Lawful ft) {before : List (String × Json)} {name s : String}
    {after : List (String × Json)}
    (hkeys : ((before ++ (name, Json.string s) :: after).map Prod.fst).Nodup) {cells : List Cell}
    (hcells : cells.length = before.length + 2) (hs : '\n' ∈ s.toList) (hs' : '\n' ∉ s') :
    ¬ Gives (rowOf R (rowHeaders (before ++ (name, .string s) :: after)) (cells ++ [(s', true)]))
      labels (before ++ (name, .string s) :: after) := by
  rintro ⟨hvalues, -⟩
  have hget := hvalues (name, .string s) (by simp)
  rw [get_property hkeys, valueAt, ← hcells] at hget
  simp only [getD_eq_getElem?_getD, getElem?_concat_length, getD_some] at hget
  exact csvCellValue_ne_of_linebreak hR hs' hs (some.inj hget)

/-- Labels are not given back where one of them breaks the line. -/
theorem not_gives_broken_labels (hR : R.Lawful ft) (hkeys : (props.map Prod.fst).Nodup)
    {cell : Cell} (hlabels : '\n' ∈ joinLabels labels) (hs' : '\n' ∉ s')
    (hlen : s'.length < (joinLabels labels).length) :
    ¬ Gives (rowOf R (rowHeaders props) [cell, (s', true)]) labels props := by
  rintro ⟨-, himport⟩
  by_cases hmem : "_labels" ∈ props.map Prod.fst
  · -- the property is past the end of the line
    obtain ⟨⟨name, v⟩, hkv, rfl⟩ := List.mem_map.mp hmem
    obtain ⟨before, after, rfl⟩ := append_of_mem hkv
    have hget := @get_property R _ _ _ hkeys [cell, (s', true)]
    have hnil : labels = [] := (himport "").symm.trans (importLabels_of_get hget "")
    subst hnil
    exact absurd hlabels not_mem_nil
  · have hget := @get_labels R _ hmem [cell, (s', true)]
    exact labelsOfValue_ne_of_linebreak hR hs' hlen.le hlabels
      ((importLabels_of_get hget "").symm.trans (himport ""))

lemma plainNames_rowHeaders (props : List (String × Json)) :
    (∀ name ∈ (rowHeaders props).map String.toList, PlainName ',' name) ↔
      ∀ kv ∈ props, PlainName ',' kv.1.toList := by
  have hid : PlainName ',' "_id".toList := ⟨by decide, by decide, by decide, by decide⟩
  have hlabels : PlainName ',' "_labels".toList := ⟨by decide, by decide, by decide, by decide⟩
  constructor
  · intro h kv hkv
    refine h _ (List.mem_map_of_mem (mem_cons_of_mem _ (mem_cons_of_mem _ ?_)))
    exact List.mem_map_of_mem hkv
  · intro h name hname
    obtain ⟨header, hheader, rfl⟩ := List.mem_map.mp hname
    rcases mem_cons.mp hheader with rfl | hheader
    · exact hid
    rcases mem_cons.mp hheader with rfl | hheader
    · exact hlabels
    · obtain ⟨kv, hkv, rfl⟩ := List.mem_map.mp hheader
      exact h kv hkv

lemma map_ofList_eq_iff {names : List (List Char)} :
    names.map String.ofList = headers ↔ names = headers.map String.toList := by
  constructor
  · rintro rfl
    simp [Function.comp_def]
  · rintro rfl
    simp [Function.comp_def]

lemma nodesFile_eq (id : NodeId) (labels : List String) (props : List (String × Json))
    (rest : List Char) : nodesFile ft id labels props rest =
      joined ',' ((rowHeaders props).map String.toList) ++ '\n' ::
        (joined ',' (rowTexts ft id labels props) ++ '\n' :: rest) :=
  rfl

lemma rowHeaders_ne_nil (props : List (String × Json)) :
    (rowHeaders props).map String.toList ≠ [] :=
  cons_ne_nil _ _

/-- A header line of plain names is followed by the line of the row. -/
theorem open_of_plain (h : ∀ kv ∈ props, PlainName ',' kv.1.toList) (id : NodeId)
    (labels : List String) (rest : List Char) :
    CsvSource.open (nodesFile ft id labels props rest) true ',' =
      .ok ⟨fileLines (joined ',' (rowTexts ft id labels props) ++ '\n' :: rest),
        rowHeaders props, ','⟩ := by
  have hplain := (plainNames_rowHeaders props).mpr h
  rw [CsvSource.open, if_pos rfl, nodesFile_eq,
    fileLines_cons (linebreak_notMem_names (by decide) hplain)
      (getLast?_joined (by decide) (writes_names hplain))]
  dsimp only
  rw [parse_names (by decide) (rowHeaders_ne_nil props) hplain, map_ofList_eq_iff.mpr rfl]

/-- Names that are read back from the header line are plain. -/
theorem plain_of_open {id : NodeId} {rest : List Char} {source : CsvSource}
    (hopen : CsvSource.open (nodesFile ft id labels props rest) true ',' = .ok source)
    (hheaders : source.headers = rowHeaders props) : ∀ kv ∈ props, PlainName ',' kv.1.toList := by
  obtain ⟨lines, hlines⟩ := fileLines_head (joined ',' ((rowHeaders props).map String.toList))
    (joined ',' (rowTexts ft id labels props) ++ '\n' :: rest)
  rw [CsvSource.open, if_pos rfl, nodesFile_eq, hlines] at hopen
  obtain rfl := Except.ok.inj hopen
  exact (plainNames_rowHeaders props).mp ((parse_names_iff (by decide) (by decide) (by decide)
    (rowHeaders_ne_nil props)).mp (map_ofList_eq_iff.mp hheaders))

/-- A file of nodes is read by its header line and the line of its row. -/
theorem restores_iff_gives (id : NodeId) (labels : List String) (props : List (String × Json))
    (rest : List Char) : Restores R ft id labels props rest ↔
      (∀ kv ∈ props, PlainName ',' kv.1.toList) ∧
      ∃ row source', nextRow R (rowHeaders props) ','
        (fileLines (joined ',' (rowTexts ft id labels props) ++ '\n' :: rest)) =
          some (row, source') ∧ Gives row labels props := by
  constructor
  · rintro ⟨source, row, source', hopen, hheaders, hnext, hgives⟩
    have hplain := plain_of_open hopen hheaders
    rw [open_of_plain hplain] at hopen
    obtain rfl := Except.ok.inj hopen
    exact ⟨hplain, row, source', hnext, hgives⟩
  · rintro ⟨hplain, row, source', hnext, hgives⟩
    exact ⟨_, row, source', open_of_plain hplain id labels rest, rfl, hnext, hgives⟩

/-- **A row is given back** only where no text of it has a line break. -/
theorem lineBreaks_of_gives (hR : R.Lawful ft) {id : NodeId} (hkeys : (props.map Prod.fst).Nodup)
    {rest : List Char} {row : Table String Json} {source' : CsvSource}
    (hnext : nextRow R (rowHeaders props) ','
        (fileLines (joined ',' (rowTexts ft id labels props) ++ '\n' :: rest)) =
          some (row, source'))
    (hgives : Gives row labels props) :
    '\n' ∉ joinLabels labels ∧ ∀ kv ∈ props, ∀ s, kv.2 = .string s → '\n' ∉ s.toList := by
  have hne : rowHeaders props ≠ [] := cons_ne_nil _ _
  have hid := writes_of_words (isWordChar_natText id)
  by_cases hlabels : '\n' ∈ joinLabels labels
  · obtain ⟨s', source, hs', hlen, hread⟩ := @nextRow_broken R _ hne id []
      (props.map fun kv => formatCsvCell ft kv.2) _ _ (.cons hid .nil) (by simp) hlabels rest
    obtain ⟨rfl, -⟩ := Prod.mk.inj (some.inj (hread.symm.trans hnext))
    exact absurd hgives (not_gives_broken_labels hR hkeys hlabels hs' hlen)
  refine ⟨hlabels, ?_⟩
  by_contra hbroken
  -- the first of the values with a line break
  obtain ⟨kv, hfind⟩ : ∃ kv, (props.find? fun kv => '\n' ∈ formatCsvCell ft kv.2) = some kv := by
    rw [← isSome_iff_exists, find?_isSome]
    push Not at hbroken
    obtain ⟨kv, hkv, s, hs, hbreak⟩ := hbroken
    refine ⟨kv, hkv, decide_eq_true ?_⟩
    rw [hs]
    exact linebreak_mem_escapeCsvString hbreak
  obtain ⟨hcell, before, after, rfl, hbefore⟩ := find?_eq_some_iff_append.mp hfind
  have hstring : ∃ s, kv.2 = .string s ∧ '\n' ∈ s.toList := by
    by_contra hnone
    push Not at hnone
    exact linebreak_notMem_formatCsvCell hnone (of_decide_eq_true hcell)
  obtain ⟨name, v⟩ := kv
  obtain ⟨s, rfl, hs⟩ := hstring
  have hwrites : List.Forall₂ (Writes ',') (rowTexts ft id labels before)
      (rowCells ft id labels before) := writes_rowCells id labels before
  have hbreaks : ∀ text ∈ escapeCsvString (joinLabels labels) ::
      before.map fun kv => formatCsvCell ft kv.2, '\n' ∉ text := by
    intro text htext
    rcases mem_cons.mp htext with rfl | htext
    · exact linebreak_notMem_escapeCsvString hlabels
    · obtain ⟨kv, hkv, rfl⟩ := List.mem_map.mp htext
      have hnot := hbefore kv hkv
      rw [Bool.not_eq_true', decide_eq_false_iff_not] at hnot
      exact hnot
  obtain ⟨s', source, hs', -, hread⟩ := @nextRow_broken R _ hne id _
    (after.map fun kv => formatCsvCell ft kv.2) _ _ hwrites hbreaks hs rest
  have htexts : natText id :: (escapeCsvString (joinLabels labels) ::
      before.map fun kv => formatCsvCell ft kv.2) ++ escapeCsvString s.toList ::
        (after.map fun kv => formatCsvCell ft kv.2) =
      rowTexts ft id labels (before ++ (name, .string s) :: after) := by
    simp [rowTexts, formatCsvCell]
  rw [htexts] at hread
  obtain ⟨rfl, -⟩ := Prod.mk.inj (some.inj (hread.symm.trans hnext))
  exact not_gives_broken_value hR hkeys (by simp [rowCells]) hs hs' hgives

/-- **A node row is given back** iff its names, values and labels are, and no text breaks a line. -/
theorem restores_iff (hR : R.Lawful ft) (id : NodeId) (labels : List String)
    {props : List (String × Json)} (hkeys : (props.map Prod.fst).Nodup) (rest : List Char) :
    Restores R ft id labels props rest ↔ RestorableRow R ft labels props := by
  rw [restores_iff_gives]
  constructor
  · rintro ⟨hplain, row, source', hnext, hgives⟩
    obtain ⟨hlabels, hprops⟩ := lineBreaks_of_gives hR hkeys hnext hgives
    have hne : rowHeaders props ≠ [] := cons_ne_nil _ _
    rw [nextRow_whole hne hlabels fun kv hkv =>
      linebreak_notMem_formatCsvCell (hprops kv hkv)] at hnext
    obtain ⟨rfl, -⟩ := Prod.mk.inj (some.inj hnext)
    obtain ⟨hvalues, hown, hproperty⟩ := (gives_whole_iff hR hkeys).mp hgives
    exact ⟨hplain, hvalues, hprops, hlabels, hown, hproperty⟩
  · intro h
    refine ⟨h.names, _, _, nextRow_whole (cons_ne_nil _ _) h.labelBreaks (fun kv hkv =>
      linebreak_notMem_formatCsvCell (h.lineBreaks kv hkv)) rest, ?_⟩
    exact (gives_whole_iff hR hkeys).mpr ⟨h.values, h.ownLabels, h.labelsProperty⟩

end Export

section Written

/-- The double of a sign and the digits of its two fields. -/
def bitsOfDigits (negative : Bool) (s : List Char) : Option F64 :=
  match splitOnce (· = '.') s with
  | none => none
  | some (b, m) =>
    match digitsValue b, digitsValue m with
    | some biased, some fraction =>
      if hb : biased < 2047 then
        if hm : fraction < 2 ^ 52 then some ⟨negative, biased, fraction, hb, hm⟩ else none
      else none
    | _, _ => none

/-- The double that a text stands for, where doubles are written by the fields of their bits. -/
def bitsOfText (s : List Char) : Option F64 :=
  if s.head? = some '-' then bitsOfDigits true s.tail else bitsOfDigits false s

/-- Readers of such doubles. No text is JSON. -/
def bitsReaders : CsvReaders where
  parseF64 s := (bitsOfText s).map some
  parseJson _ := none

lemma splitOnce_append_cons {p : Char → Bool} {s : List Char} (h : ∀ c ∈ s, p c = false) {c : Char}
    (hc : p c = true) (rest : List Char) : splitOnce p (s ++ c :: rest) = some (s, rest) := by
  induction s with
  | nil => exact if_pos hc
  | cons d s ih =>
    rw [cons_append, splitOnce, h d mem_cons_self,
      ih fun c hc => h c (mem_cons_of_mem _ hc)]
    rfl

lemma bitsOfText_bitsText (f : F64) : bitsOfText (bitsText f) = some f := by
  obtain ⟨negative, biased, fraction, hb, hm⟩ := f
  have hdigits : ∀ c ∈ natText biased, decide (c = '.') = false := by
    intro c hc
    rw [decide_eq_false_iff_not]
    rintro rfl
    exact absurd (isDigit_of_mem_natText hc) (by decide)
  have hfields : ∀ negative, bitsOfDigits negative (natText biased ++ '.' :: natText fraction) =
      some ⟨negative, biased, fraction, hb, hm⟩ := by
    intro negative
    rw [bitsOfDigits, splitOnce_append_cons hdigits (decide_eq_true rfl)]
    dsimp only
    rw [digitsValue_natText, digitsValue_natText]
    dsimp only
    rw [dif_pos hb, dif_pos hm]
  have hhead : (natText biased ++ '.' :: natText fraction).head? ≠ some '-' := by
    rcases hn : natText biased with _ | ⟨c, s⟩
    · exact absurd hn (natText_ne_nil biased)
    rw [cons_append, head?_cons, ne_eq, some_inj]
    rintro rfl
    exact absurd (isDigit_of_mem_natText (hn ▸ mem_cons_self : '-' ∈ natText biased)) (by decide)
  unfold bitsOfText bitsText
  cases negative with
  | true => exact hfields true
  | false => exact (if_neg hhead).trans (hfields false)

lemma bitsReaders_lawful : bitsReaders.Lawful bitsTexts where
  parseF64_json f := by
    show (bitsOfText (bitsText f)).map some = _
    rw [bitsOfText_bitsText]
    rfl
  parseF64_true := by decide
  parseF64_false := by decide
  parseJson_list _ _ h := by cases h
  parseJson_map _ _ h := by cases h

/-- A number, and a text with quotation marks and a delimiter. -/
def plainProps : List (String × Json) :=
  [("age", .number (.posInt 3 (by decide))), ("name", .string "\"Ann\", A."), ("nick", .null)]

/-- A text with quotation marks and delimiters is given back, as are two labels. -/
theorem restores_plain :
    Restores bitsReaders bitsTexts 7 ["Person", "Admin"] plainProps [] := by
  have hplain : ∀ kv ∈ plainProps, PlainName ',' kv.1.toList := by
    intro kv hkv
    simp only [plainProps, mem_cons, not_mem_nil, or_false] at hkv
    rcases hkv with rfl | rfl | rfl <;> exact ⟨by decide, by decide, by decide, by decide⟩
  refine (restores_iff bitsReaders_lawful 7 ["Person", "Admin"] (by decide) []).mpr
    ⟨hplain, ?_, ?_, by decide, fun _ => ⟨?_, fun _ => rfl⟩, ?_⟩
  · intro kv hkv
    simp only [plainProps, mem_cons, not_mem_nil, or_false] at hkv
    rcases hkv with rfl | rfl | rfl
    · exact (by decide : 3 < 2 ^ 63)
    · exact fun _ => rfl
    · trivial
  · intro kv hkv s hs
    simp only [plainProps, mem_cons, not_mem_nil, or_false] at hkv
    rcases hkv with rfl | rfl | rfl
    · cases hs
    · obtain rfl := Json.string.inj hs
      decide
    · cases hs
  · intro label hlabel
    simp only [mem_cons, not_mem_nil, or_false] at hlabel
    rcases hlabel with rfl | rfl <;> exact ⟨by decide, by decide, by decide⟩
  · intro v hv
    simp [plainProps] at hv

/-- A text with a line break is not given back. -/
theorem not_restores_linebreak : ¬ ∀ (R : CsvReaders) (ft : FloatTexts), R.Lawful ft →
    ∀ (id : NodeId) (labels : List String) (props : List (String × Json)),
      (props.map Prod.fst).Nodup → Restores R ft id labels props [] := by
  intro h
  obtain ⟨-, row, source', hnext, hgives⟩ := (restores_iff_gives 7 ["Person"]
    [("name", .string "a\nb")] []).mp (h bitsReaders bitsTexts bitsReaders_lawful 7 ["Person"]
      [("name", .string "a\nb")] (by decide))
  have hbreaks := (lineBreaks_of_gives bitsReaders_lawful (by decide) hnext hgives).2
  exact hbreaks ("name", .string "a\nb") mem_cons_self "a\nb" rfl (by decide)

end Written

end IssunDB.Cypher.Csv
