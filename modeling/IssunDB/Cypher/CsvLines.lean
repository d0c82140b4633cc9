import IssunDB.Cypher.Keys
import IssunDB.Lib.Slices

/-!
# Lines of a CSV file

How a line is split into cells and how cells are written. The reader scans a line once: a quotation
mark opens or closes a quoted stretch, a doubled one inside a stretch is one mark of the cell, and a
delimiter outside ends the cell. A cell no part of which was quoted is trimmed. The writer quotes a
text by doubling its quotation marks. A file is split into lines before any line is split into
cells.

* `scanCells_intercalate` — cells that were written are read back from a line.
* `parse_names_iff` — the names that a header line gives back.
* `fileLines_head`, `fileLines_cons` — the first line of a file.
-/

namespace IssunDB.Cypher.Csv

open List Option IssunDB.Texts

/-! ## Lines -/

def stripReturn (line : List Char) : List Char :=
  if line.getLast? = some '\r' then line.dropLast else line

/-- The lines of a file, with what is read of the first one so far. -/
def linesFrom (current : List Char) : List Char → List (List Char)
  | [] => if current = [] then [] else [current]
  | c :: s =>
    if c = '\n' then stripReturn current :: linesFrom [] s else linesFrom (current ++ [c]) s

/-- `BufRead::lines`. -/
def fileLines (text : List Char) : List (List Char) := linesFrom [] text

/-- What is read of a text whose end is a line's end, up to its first line break. -/
def firstLine (text : List Char) : List Char := stripReturn (text.takeWhile (· ≠ '\n'))

theorem fileLines_head (text rest : List Char) :
    ∃ lines, fileLines (text ++ '\n' :: rest) = firstLine text :: lines := by
  have hrun : ∀ current, ∃ lines, linesFrom current (text ++ '\n' :: rest) =
      stripReturn (current ++ text.takeWhile (· ≠ '\n')) :: lines := by
    induction text with
    | nil =>
      intro current
      refine ⟨linesFrom [] rest, ?_⟩
      rw [takeWhile_nil, append_nil]
      exact if_pos rfl
    | cons c text ih =>
      intro current
      rw [cons_append, linesFrom]
      by_cases hc : c = '\n'
      · refine ⟨linesFrom [] (text ++ '\n' :: rest), ?_⟩
        rw [if_pos hc, takeWhile_cons_of_neg (by simp [hc]), append_nil]
      · obtain ⟨lines, hlines⟩ := ih (current ++ [c])
        refine ⟨lines, ?_⟩
        rw [if_neg hc, hlines, takeWhile_cons_of_pos (by simp [hc]), append_assoc]
        rfl
  exact hrun []

variable {text : List Char}

theorem fileLines_cons (hbreak : '\n' ∉ text) (hreturn : text.getLast? ≠ some '\r')
    (rest : List Char) : fileLines (text ++ '\n' :: rest) = text :: fileLines rest := by
  have hrun : ∀ current, linesFrom current (text ++ '\n' :: rest) =
      stripReturn (current ++ text) :: fileLines rest := by
    clear hreturn
    induction text with
    | nil =>
      intro current
      rw [append_nil]
      exact if_pos rfl
    | cons c text ih =>
      intro current
      rw [mem_cons, not_or] at hbreak
      rw [cons_append, linesFrom, if_neg (Ne.symm hbreak.1), ih hbreak.2, append_assoc]
      rfl
  rw [fileLines, hrun, nil_append, stripReturn, if_neg hreturn]

lemma length_stripReturn_le (line : List Char) : (stripReturn line).length ≤ line.length := by
  unfold stripReturn
  split
  · rw [length_dropLast]
    omega
  · exact le_rfl

lemma eq_of_length_firstLine (h : text.length ≤ (firstLine text).length) :
    '\n' ∉ text ∧ text.getLast? ≠ some '\r' := by
  have hstrip := length_stripReturn_le (text.takeWhile (· ≠ '\n'))
  have htake : text.takeWhile (· ≠ '\n') = text := by
    apply (List.takeWhile_prefix _).eq_of_length_le
    unfold firstLine at h
    omega
  constructor
  · intro hmem
    have := mem_takeWhile_imp (htake ▸ hmem)
    simp at this
  · intro hlast
    unfold firstLine stripReturn at h
    rw [htake, if_pos hlast, length_dropLast] at h
    have hpos : text ≠ [] := by
      rintro rfl
      cases hlast
    have := length_pos_iff.mpr hpos
    omega

lemma firstLine_eq (hbreak : '\n' ∉ text) (hreturn : text.getLast? ≠ some '\r') :
    firstLine text = text := by
  have htake : text.takeWhile (· ≠ '\n') = text :=
    takeWhile_eq_self_iff.mpr fun c hc => by
      simp only [ne_eq, decide_not, Bool.not_eq_eq_eq_not, Bool.not_true, decide_eq_false_iff_not]
      rintro rfl
      exact hbreak hc
  rw [firstLine, htake, stripReturn, if_neg hreturn]

/-! ## Cells -/

/-- A cell of a line: its text, and whether a part of it was quoted. -/
abbrev Cell := List Char × Bool

def endCell (current : List Char) (quoted : Bool) : Cell :=
  (if quoted then current else trim current, quoted)

/-- The scan of a line: the cell read so far, whether the scan is within quotation marks, and
whether a part of the cell was. -/
def scanCells (delimiter : Char) : List Char → List Char → Bool → Bool → List Cell
  | [], current, _, quoted => [endCell current quoted]
  | c :: s, current, inside, quoted =>
    if c = quote then
      match s with
      | [] => [endCell current true]
      | c' :: s' =>
        -- a doubled quotation mark within a quoted stretch
        if inside = true ∧ c' = quote then scanCells delimiter s' (current ++ [quote]) inside quoted
        else scanCells delimiter (c' :: s') current (!inside) true
    else if c = delimiter ∧ inside = false then
      endCell current quoted :: scanCells delimiter s [] inside false
    else scanCells delimiter s (current ++ [c]) inside quoted

/-- `parse_csv_line_quoted`. -/
def parseCsvLineQuoted (s : List Char) (delimiter : Char) : List Cell :=
  scanCells delimiter s [] false false

/-- `parse_csv_line`. -/
def parseCsvLine (s : List Char) (delimiter : Char) : List (List Char) :=
  (parseCsvLineQuoted s delimiter).map Prod.fst

/-- A text with its quotation marks doubled. -/
def doubled (s : List Char) : List Char :=
  s.flatMap fun c => if c = quote then [quote, quote] else [c]

/-- `escape_csv_string`. -/
def escapeCsvString (s : List Char) : List Char := quote :: (doubled s ++ [quote])

section Scan

variable {delimiter : Char}

lemma scanCells_cons (c : Char) (s current : List Char) (inside quoted : Bool) :
    scanCells delimiter (c :: s) current inside quoted =
      if c = quote then
        match s with
        | [] => [endCell current true]
        | c' :: s' =>
          if inside = true ∧ c' = quote then
            scanCells delimiter s' (current ++ [quote]) inside quoted
          else scanCells delimiter (c' :: s') current (!inside) true
      else if c = delimiter ∧ inside = false then
        endCell current quoted :: scanCells delimiter s [] inside false
      else scanCells delimiter s (current ++ [c]) inside quoted := by
  rw [scanCells.eq_def]

lemma scanCells_char {c : Char} (hquote : c ≠ quote) {inside : Bool}
    (hdelimiter : c = delimiter → inside = true) (s current : List Char) (quoted : Bool) :
    scanCells delimiter (c :: s) current inside quoted =
      scanCells delimiter s (current ++ [c]) inside quoted := by
  rw [scanCells_cons, if_neg hquote, if_neg]
  rintro ⟨hc, hinside⟩
  rw [hdelimiter hc] at hinside
  cases hinside

lemma scanCells_delimiter (hdelimiter : delimiter ≠ quote) (s current : List Char)
    (quoted : Bool) : scanCells delimiter (delimiter :: s) current false quoted =
      endCell current quoted :: scanCells delimiter s [] false false := by
  rw [scanCells_cons, if_neg hdelimiter, if_pos ⟨rfl, rfl⟩]

lemma scanCells_mark {s : List Char} {inside : Bool}
    (h : inside = true → s.head? ≠ some quote) (current : List Char) (quoted : Bool) :
    scanCells delimiter (quote :: s) current inside quoted =
      scanCells delimiter s current (!inside) true := by
  rw [scanCells_cons, if_pos rfl]
  cases s with
  | nil => rfl
  | cons c s =>
    dsimp only
    rw [if_neg]
    rintro ⟨hinside, rfl⟩
    exact h hinside rfl

lemma scanCells_doubled (s rest current : List Char) (quoted : Bool) :
    scanCells delimiter (doubled s ++ rest) current true quoted =
      scanCells delimiter rest (current ++ s) true quoted := by
  induction s generalizing current with
  | nil => rw [append_nil]; rfl
  | cons c s ih =>
    rw [doubled, flatMap_cons, ← doubled]
    by_cases hc : c = quote
    · subst hc
      rw [if_pos rfl]
      show scanCells delimiter (quote :: quote :: (doubled s ++ rest)) current true quoted = _
      rw [scanCells_cons, if_pos rfl]
      dsimp only
      rw [if_pos ⟨rfl, rfl⟩, ih, append_assoc]
      rfl
    · rw [if_neg hc]
      show scanCells delimiter (c :: (doubled s ++ rest)) current true quoted = _
      rw [scanCells_char hc (fun _ => rfl), ih, append_assoc]
      rfl

/-- A quoted text is read back, up to the next delimiter. -/
theorem scanCells_escape (s : List Char) {rest : List Char} (h : rest.head? ≠ some quote) :
    scanCells delimiter (escapeCsvString s ++ rest) [] false false =
      scanCells delimiter rest s false true := by
  show scanCells delimiter (quote :: ((doubled s ++ [quote]) ++ rest)) [] false false = _
  rw [scanCells_mark (fun h => by cases h), append_assoc, Bool.not_false, scanCells_doubled]
  exact scanCells_mark (fun _ => h) _ _

/-- A text without marks is read as it stands. -/
theorem scanCells_plain {s : List Char} (hquote : quote ∉ s) (hdelimiter : delimiter ∉ s)
    (rest current : List Char) (quoted : Bool) :
    scanCells delimiter (s ++ rest) current false quoted =
      scanCells delimiter rest (current ++ s) false quoted := by
  induction s generalizing current with
  | nil => rw [append_nil]; rfl
  | cons c s ih =>
    rw [mem_cons, not_or] at hquote hdelimiter
    rw [cons_append, scanCells_char (Ne.symm hquote.1) (fun h => absurd h.symm hdelimiter.1),
      ih hquote.2 hdelimiter.2, append_assoc]
    rfl

/-- How a cell is written: quoted, or as it stands where nothing of it is read in another way. -/
inductive Writes (delimiter : Char) : List Char → Cell → Prop
  | quoted (s : List Char) : Writes delimiter (escapeCsvString s) (s, true)
  | plain {s : List Char} (hquote : quote ∉ s) (hdelimiter : delimiter ∉ s) (htrim : trim s = s) :
    Writes delimiter s (s, false)

/-- A cell that was written is read back, up to the next delimiter. -/
theorem Writes.scanCells {text : List Char} {cell : Cell} (h : Writes delimiter text cell)
    {rest : List Char} (hrest : rest.head? ≠ some quote) :
    ∃ current, endCell current cell.2 = cell ∧ scanCells delimiter (text ++ rest) [] false false =
      Csv.scanCells delimiter rest current false cell.2 := by
  cases h with
  | quoted s => exact ⟨s, rfl, scanCells_escape s hrest⟩
  | plain hquote hdelimiter htrim =>
    exact ⟨text, congrArg (·, false) htrim, scanCells_plain hquote hdelimiter rest [] false⟩

variable {texts : List (List Char)} {cells : List Cell} {names : List (List Char)}

/-- **Cells that were written are read back**, together with what follows them. -/
theorem scanCells_intercalate (hdelimiter : delimiter ≠ quote)
    (h : List.Forall₂ (Writes delimiter) texts cells) (last : List Char) :
    scanCells delimiter (texts.flatMap (· ++ [delimiter]) ++ last) [] false false =
      cells ++ scanCells delimiter last [] false false := by
  induction h with
  | nil => rfl
  | @cons text cell texts cells hcell _ ih =>
    have hrest : ∀ s, (delimiter :: s).head? ≠ some quote :=
      fun s h => hdelimiter (some.inj h)
    obtain ⟨current, hend, hscan⟩ :=
      hcell.scanCells (hrest (texts.flatMap (· ++ [delimiter]) ++ last))
    rw [flatMap_cons, append_assoc, append_assoc, singleton_append, hscan,
      scanCells_delimiter hdelimiter, hend, ih]
    rfl

/-! ## Whole lines -/

/-- The cells of a line, `join`. -/
def joined (delimiter : Char) (texts : List (List Char)) : List Char :=
  List.intercalate [delimiter] texts

lemma joined_singleton (text : List Char) : joined delimiter [text] = text := by
  simp [joined]

lemma joined_cons_cons (text text' : List Char) (texts : List (List Char)) :
    joined delimiter (text :: text' :: texts) =
      text ++ delimiter :: joined delimiter (text' :: texts) := by
  simp [joined, List.intercalate]

lemma joined_concat (texts : List (List Char)) (last : List Char) :
    joined delimiter (texts ++ [last]) = texts.flatMap (· ++ [delimiter]) ++ last := by
  induction texts with
  | nil => simp [joined]
  | cons text texts ih =>
    rw [flatMap_cons, append_assoc, ← ih]
    cases texts <;> simp [joined, List.intercalate]

/-- **A line of written cells** is read back. -/
theorem parse_joined (hdelimiter : delimiter ≠ quote)
    (h : List.Forall₂ (Writes delimiter) texts cells) (hne : texts ≠ []) :
    parseCsvLineQuoted (joined delimiter texts) delimiter = cells := by
  induction h with
  | nil => exact absurd rfl hne
  | @cons text cell texts cells hcell htexts ih =>
    rw [parseCsvLineQuoted]
    cases htexts with
    | nil =>
      obtain ⟨current, hend, hscan⟩ := @Writes.scanCells delimiter text cell hcell [] (by simp)
      rw [append_nil] at hscan
      rw [joined_singleton, hscan, scanCells, hend]
    | cons =>
      have hrest : ∀ s, (delimiter :: s).head? ≠ some quote :=
        fun s h => hdelimiter (some.inj h)
      obtain ⟨current, hend, hscan⟩ := hcell.scanCells (hrest (joined delimiter _))
      rw [joined_cons_cons, hscan, scanCells_delimiter hdelimiter, hend]
      exact congrArg (cell :: ·) (ih (cons_ne_nil _ _))

/-- A line that ends within a quoted text gives the text as far as it goes. -/
theorem parse_joined_open (hdelimiter : delimiter ≠ quote)
    (h : List.Forall₂ (Writes delimiter) texts cells) (s : List Char) :
    parseCsvLineQuoted (joined delimiter (texts ++ [quote :: doubled s])) delimiter =
      cells ++ [(s, true)] := by
  rw [parseCsvLineQuoted, joined_concat, scanCells_intercalate hdelimiter h]
  congr 1
  rw [scanCells_mark (fun h => by cases h), Bool.not_false, ← append_nil (doubled s),
    scanCells_doubled]
  rfl

/-! ## Names -/

/-- The length of a line with these cells, with a delimiter after each. -/
def lineSize (cells : List Cell) : ℕ := (cells.map (·.1.length + 1)).sum

lemma length_endCell_le (current : List Char) (quoted : Bool) :
    (endCell current quoted).1.length ≤ current.length := by
  unfold endCell
  dsimp only
  split
  · exact le_rfl
  · exact (trim_sublist current).length_le

lemma lineSize_scanCells_le (s current : List Char) (inside quoted : Bool) :
    2 * lineSize (scanCells delimiter s current inside quoted) + s.count quote ≤
      2 * (current.length + s.length + 1) := by
  have hend := length_endCell_le
  fun_induction scanCells delimiter s current inside quoted with
  | case1 current _ quoted =>
    have := hend current quoted
    simp only [lineSize, map_cons, map_nil, sum_singleton, count_nil,
      length_nil]
    omega
  | case2 current =>
    have := hend current true
    simp only [lineSize, map_cons, map_nil, sum_singleton, count_cons_self,
      count_nil, length_cons, length_nil]
    omega
  | case3 current inside quoted c s h ih =>
    obtain ⟨-, rfl⟩ := h
    simp only [length_append, length_cons, length_nil, count_cons_self] at ih ⊢
    omega
  | case4 current inside quoted c s h ih =>
    simp only [length_cons, count_cons_self] at ih ⊢
    omega
  | case5 c s current inside quoted hquote h ih =>
    have := hend current quoted
    simp only [lineSize, map_cons, sum_cons, length_cons, length_nil] at ih ⊢
    rw [count_cons_of_ne hquote]
    omega
  | case6 c s current inside quoted hquote h ih =>
    simp only [length_append, length_cons, length_nil] at ih ⊢
    rw [count_cons_of_ne hquote]
    omega

lemma plain_of_mem_scanCells {s current : List Char} (hs : quote ∉ s)
    (hcurrent : delimiter ∉ current) {cell : Cell}
    (h : cell ∈ scanCells delimiter s current false false) :
    delimiter ∉ cell.1 ∧ trim cell.1 = cell.1 := by
  have hend : ∀ {current : List Char}, delimiter ∉ current →
      delimiter ∉ (endCell current false).1 ∧
        trim (endCell current false).1 = (endCell current false).1 := fun h =>
    ⟨fun hmem => h ((trim_sublist _).subset hmem), trim_trim _⟩
  induction s generalizing current with
  | nil =>
    obtain rfl := mem_singleton.mp h
    exact hend hcurrent
  | cons c s ih =>
    rw [mem_cons, not_or] at hs
    rw [scanCells_cons, if_neg (Ne.symm hs.1)] at h
    split at h
    · rcases mem_cons.mp h with rfl | h
      · exact hend hcurrent
      · exact ih hs.2 not_mem_nil h
    next hc =>
      refine ih hs.2 ?_ h
      rw [mem_append, not_or]
      exact ⟨hcurrent, fun hmem => hc ⟨(mem_singleton.mp hmem).symm, rfl⟩⟩

lemma length_joined (hne : texts ≠ []) :
    (joined delimiter texts).length + 1 = (texts.map (·.length + 1)).sum := by
  induction texts with
  | nil => exact absurd rfl hne
  | cons text texts ih =>
    cases texts with
    | nil => simp [joined_singleton]
    | cons text' texts =>
      rw [joined_cons_cons, map_cons, sum_cons, ← ih (cons_ne_nil _ _),
        length_append, length_cons]
      omega

/-- **A line that is no longer than the names it gives back** is these names, and they are plain. -/
theorem plain_of_parse_eq (hne : names ≠ []) {line : List Char}
    (hlen : line.length ≤ (joined delimiter names).length)
      (h : parseCsvLine line delimiter = names) :
    line.length = (joined delimiter names).length ∧ quote ∉ line ∧
      ∀ name ∈ names, delimiter ∉ name ∧ trim name = name := by
  have hsize := @lineSize_scanCells_le delimiter line [] false false
  have hcells : lineSize (scanCells delimiter line [] false false) =
      (joined delimiter names).length + 1 := by
    rw [length_joined hne, ← h]
    simp [lineSize, parseCsvLine, parseCsvLineQuoted, Function.comp_def]
  rw [hcells, length_nil] at hsize
  have hquote : quote ∉ line := count_eq_zero.mp (by omega)
  refine ⟨by omega, hquote, fun name hname => ?_⟩
  rw [← h] at hname
  obtain ⟨cell, hcell, rfl⟩ := List.mem_map.mp hname
  exact plain_of_mem_scanCells hquote not_mem_nil hcell

/-- A written line does not end with a carriage return. -/
theorem getLast?_joined (hdelimiter : delimiter ≠ '\r')
    (h : List.Forall₂ (Writes delimiter) texts cells) :
    (joined delimiter texts).getLast? ≠ some '\r' := by
  have hreturn : isWhiteSpace '\r' = true := by decide
  have htext : ∀ {text cell}, Writes delimiter text cell → text.getLast? ≠ some '\r' := by
    intro text cell hcell hlast
    cases hcell with
    | quoted s =>
      rw [escapeCsvString, ← cons_append, getLast?_concat] at hlast
      exact absurd (some.inj hlast) (by decide)
    | plain hquote hmark htrim =>
      have hwhite := (trim_eq_self_iff.mp htrim).2 '\r' hlast
      rw [hreturn] at hwhite
      cases hwhite
  induction h with
  | nil => simp [joined]
  | @cons text cell texts cells hcell htexts ih =>
    cases texts with
    | nil =>
      rw [joined_singleton]
      exact htext hcell
    | cons text' texts =>
      rw [joined_cons_cons, getLast?_append, getLast?_cons]
      intro hlast
      have hend := some.inj hlast
      rcases hrest : (joined delimiter (text' :: texts)).getLast? with _ | c <;>
        rw [hrest] at hend
      · exact hdelimiter hend
      · exact ih (hend ▸ hrest)

/-- A name that a header line keeps. -/
structure PlainName (delimiter : Char) (name : List Char) : Prop where
  quote : quote ∉ name
  delimiter : delimiter ∉ name
  lineBreak : '\n' ∉ name
  trimmed : trim name = name

lemma mem_joined {c : Char} (h : c ∈ joined delimiter texts) :
    c = delimiter ∨ ∃ text ∈ texts, c ∈ text := by
  induction texts with
  | nil => simp [joined] at h
  | cons text texts ih =>
    cases texts with
    | nil =>
      rw [joined_singleton] at h
      exact .inr ⟨text, mem_cons_self, h⟩
    | cons text' texts =>
      rw [joined_cons_cons, mem_append, mem_cons] at h
      rcases h with h | h | h
      · exact .inr ⟨text, mem_cons_self, h⟩
      · exact .inl h
      · exact (ih h).imp id fun ⟨text'', hmem, hc⟩ => ⟨text'', mem_cons_of_mem _ hmem, hc⟩

lemma mem_joined_of_mem {text : List Char} (h : text ∈ texts) {c : Char} (hc : c ∈ text) :
    c ∈ joined delimiter texts := by
  induction texts with
  | nil => cases h
  | cons text' texts ih =>
    cases texts with
    | nil =>
      obtain rfl := mem_singleton.mp h
      rw [joined_singleton]
      exact hc
    | cons text'' texts =>
      rw [joined_cons_cons, mem_append, mem_cons]
      rcases mem_cons.mp h with rfl | h
      · exact .inl hc
      · exact .inr (.inr (ih h))

lemma writes_names (h : ∀ name ∈ names, PlainName delimiter name) :
    List.Forall₂ (Writes delimiter) names (names.map (·, false)) := by
  rw [List.forall₂_map_right_iff, List.forall₂_same]
  exact fun name hname =>
    .plain (h name hname).quote (h name hname).delimiter (h name hname).trimmed

lemma linebreak_notMem_names (hbreak : delimiter ≠ '\n')
    (h : ∀ name ∈ names, PlainName delimiter name) : '\n' ∉ joined delimiter names := by
  intro hmem
  rcases mem_joined hmem with heq | ⟨name, hname, hc⟩
  · exact hbreak heq.symm
  · exact (h name hname).lineBreak hc

lemma parse_names (hdelimiter : delimiter ≠ Cypher.quote) (hne : names ≠ [])
    (h : ∀ name ∈ names, PlainName delimiter name) :
    parseCsvLine (joined delimiter names) delimiter = names := by
  rw [parseCsvLine, parse_joined hdelimiter (writes_names h) hne, List.map_map]
  exact List.map_id _

/-- **A header line gives its names back** iff they are plain. -/
theorem parse_names_iff (hdelimiter : delimiter ≠ Cypher.quote) (hreturn : delimiter ≠ '\r')
    (hbreak : delimiter ≠ '\n') (hne : names ≠ []) :
    parseCsvLine (firstLine (joined delimiter names)) delimiter = names ↔
      ∀ name ∈ names, PlainName delimiter name := by
  have htake : (firstLine (joined delimiter names)).length ≤ (joined delimiter names).length :=
    (length_stripReturn_le _).trans (List.takeWhile_prefix _).length_le
  constructor
  · intro h name hname
    obtain ⟨hlen, hquote, hplain⟩ := plain_of_parse_eq hne htake h
    obtain ⟨hline, hlast⟩ := eq_of_length_firstLine hlen.ge
    rw [firstLine_eq hline hlast] at hquote
    exact ⟨fun h => hquote (mem_joined_of_mem hname h), (hplain name hname).1,
      fun h => hline (mem_joined_of_mem hname h), (hplain name hname).2⟩
  · intro h
    rw [firstLine_eq (linebreak_notMem_names hbreak h) (getLast?_joined hreturn (writes_names h)),
      parse_names hdelimiter hne h]

end Scan

end IssunDB.Cypher.Csv
