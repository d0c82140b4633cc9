import IssunDB.ItemColumns

/-!
# Combined group codes

A grouped count groups its rows by several properties. Each property comes as a column of codes with
one value per code, codes whose values have equal keys are merged, and the columns are folded into
one code per row. Two rows get the same code iff the keys of their values are equal
(`combineGroupCodes_canonicalize`), so the groups are those of the pipeline that writes a key for
every row.

* `Numbers` — a numbering of rows by the first row with each key;
* `canonicalizeColumn_spec`, `refineCodes_spec` — one column;
* `groups_of_groupCodes` — the columns that the property reads return.
-/

namespace IssunDB.Cypher

open List Option

/-! ## Numbering rows -/

/-- Rows `0, …, n - 1` are numbered by key, in the order of the first row with each key. -/
structure Numbers {κ : Type} (key : ℕ → κ) (n : ℕ) (codes firsts : List ℕ) : Prop where
  length : codes.length = n
  rows : ∀ first ∈ firsts, first < n
  increasing : firsts.Pairwise (· < ·)
  nodup : (firsts.map key).Nodup
  code : ∀ i < n, ∃ g first, codes[i]? = some g ∧ firsts[g]? = some first ∧ first ≤ i ∧
    key first = key i

section Numbering

variable {κ κ' : Type} {key : ℕ → κ} {key' : ℕ → κ'} {n : ℕ} {codes firsts : List ℕ}

/-- The first rows are taken in the order of the rows, and none after the row that it stands for. -/
theorem assignCodes_first [DecidableEq κ] (key : ℕ → κ) (ids firsts : List ℕ)
    (h : (firsts ++ ids).Pairwise (· < ·)) :
    (assignCodes key ids firsts).2.Pairwise (· < ·) ∧
      (∃ new, (assignCodes key ids firsts).2 = firsts ++ new) ∧
      ∀ i id : ℕ, ids[i]? = some id → ∃ code first, (assignCodes key ids firsts).1[i]? = some code ∧
        (assignCodes key ids firsts).2[code]? = some first ∧ first ≤ id := by
  induction ids generalizing firsts with
  | nil => exact ⟨by simpa [assignCodes] using h, ⟨[], by simp [assignCodes]⟩,
    fun i id hi => by simp at hi⟩
  | cons id ids ih =>
    unfold assignCodes
    cases hfind : firsts.findIdx? fun first => key first = key id with
    | some code =>
      obtain ⟨hsorted, ⟨new, hnew⟩, hcodes⟩ := ih firsts
        (h.sublist (List.Sublist.append_left (sublist_cons_self id ids) firsts))
      refine ⟨hsorted, ⟨new, hnew⟩, fun i a hi => ?_⟩
      cases i with
      | zero =>
        obtain rfl := some.inj hi
        obtain ⟨hlt, -, -⟩ := findIdx?_eq_some_iff_getElem.mp hfind
        refine ⟨code, firsts[code], rfl, ?_, ?_⟩
        · show (assignCodes key ids firsts).2[code]? = _
          rw [hnew, getElem?_append_left hlt, getElem?_eq_getElem hlt]
        · exact le_of_lt ((pairwise_append.mp h).2.2 _ (getElem_mem hlt) _
            mem_cons_self)
      | succ i => exact hcodes i a hi
    | none =>
      obtain ⟨hsorted, ⟨new, hnew⟩, hcodes⟩ := ih (firsts ++ [id]) (by simpa using h)
      refine ⟨hsorted, ⟨id :: new, by simp [hnew]⟩, fun i a hi => ?_⟩
      cases i with
      | zero =>
        obtain rfl := some.inj hi
        refine ⟨firsts.length, id, rfl, ?_, le_rfl⟩
        show (assignCodes key ids (firsts ++ [id])).2[firsts.length]? = _
        rw [hnew]
        simp
      | succ i => exact hcodes i a hi

/-- **Codes by first occurrence.** -/
theorem numbers_assignCodes [DecidableEq κ] (key : ℕ → κ) (n : ℕ) :
    Numbers key n (assignCodes key (List.range n) []).1 (assignCodes key (List.range n) []).2 := by
  obtain ⟨hnodup, ⟨new, hnew, hrows⟩, hlen, hcode⟩ :=
    assignCodes_spec key (List.range n) [] nodup_nil
  obtain ⟨hsorted, -, hfirst⟩ := assignCodes_first key (List.range n) []
    (by simpa using pairwise_lt_range)
  rw [nil_append] at hnew
  refine ⟨by simpa using hlen, fun first h => ?_, hsorted, hnodup, fun i hi => ?_⟩
  · exact mem_range.mp (hrows first (hnew ▸ h))
  · have hrow : (List.range n)[i]? = some i := by simp [hi]
    obtain ⟨g, first, hg, hget, hkey⟩ := hcode i i hrow
    obtain ⟨g', first', hg', hget', hle⟩ := hfirst i i hrow
    obtain rfl := some.inj (hg.symm.trans hg')
    obtain rfl := some.inj (hget.symm.trans hget')
    exact ⟨g, first, hg, hget, hle, hkey⟩

namespace Numbers

lemma same_iff (h : Numbers key n codes firsts) {i j : ℕ} (hi : i < n) (hj : j < n) :
    codes[i]? = codes[j]? ↔ key i = key j := by
  obtain ⟨g, first, hg, hfirst, -, hkey⟩ := h.code i hi
  obtain ⟨g', first', hg', hfirst', -, hkey'⟩ := h.code j hj
  rw [hg, hg', ← hkey, ← hkey', some.injEq]
  constructor
  · rintro rfl
    rw [some.inj (hfirst.symm.trans hfirst')]
  · intro heq
    have hlt := (List.getElem?_eq_some_iff.mp hfirst).1
    refine (getElem?_inj (by simpa using hlt) h.nodup).mp ?_
    rw [getElem?_map, getElem?_map, hfirst, hfirst']
    exact congrArg some heq

lemma first_iff (h : Numbers key n codes firsts) {g row : ℕ} :
    firsts[g]? = some row ↔ codes[row]? = some g ∧ ∀ j < row, codes[j]? ≠ some g := by
  -- the code of a row among the first ones is the position at which it stands
  have hown : ∀ {g row : ℕ}, firsts[g]? = some row → codes[row]? = some g := by
    intro g row hrow
    obtain ⟨g', first, hg', hfirst, -, hkey⟩ := h.code row (h.rows row (mem_of_getElem? hrow))
    have hlt := (List.getElem?_eq_some_iff.mp hfirst).1
    obtain rfl : g' = g := by
      refine (getElem?_inj (by simpa using hlt) h.nodup).mp ?_
      rw [getElem?_map, getElem?_map, hfirst, hrow]
      exact congrArg some hkey
    exact hg'
  have hbelow : ∀ {g j : ℕ}, codes[j]? = some g → ∃ first, firsts[g]? = some first ∧ first ≤ j := by
    intro g j hj
    have hlt := h.length ▸ (List.getElem?_eq_some_iff.mp hj).1
    obtain ⟨g', first, hg', hfirst, hle, -⟩ := h.code j hlt
    obtain rfl := some.inj (hg'.symm.trans hj)
    exact ⟨first, hfirst, hle⟩
  constructor
  · intro hrow
    refine ⟨hown hrow, fun j hj hcode => ?_⟩
    obtain ⟨first, hfirst, hle⟩ := hbelow hcode
    obtain rfl := some.inj (hfirst.symm.trans hrow)
    exact absurd hj (not_lt.mpr hle)
  · rintro ⟨hcode, hfirst⟩
    obtain ⟨first, hget, hle⟩ := hbelow hcode
    rcases Nat.lt_or_ge first row with hlt | hge
    · exact absurd (hown hget) (hfirst first hlt)
    · rwa [le_antisymm hge hle]

lemma code_lt (h : Numbers key n codes firsts) {g : ℕ} (hg : g ∈ codes) : g < firsts.length := by
  obtain ⟨i, hi⟩ := mem_iff_getElem?.mp hg
  obtain ⟨g', first, hg', hfirst, -⟩ :=
    h.code i (h.length ▸ (List.getElem?_eq_some_iff.mp hi).1)
  obtain rfl := some.inj (hg'.symm.trans hi)
  exact (List.getElem?_eq_some_iff.mp hfirst).1

lemma length_firsts_le (h : Numbers key n codes firsts) : firsts.length ≤ n := by
  have hsub : firsts ⊆ List.range n := fun first hfirst => mem_range.mpr (h.rows first hfirst)
  have hnodup : firsts.Nodup := h.increasing.imp fun hlt => Nat.ne_of_lt hlt
  simpa using (hnodup.subperm hsub).length_le

/-- Only which keys are equal matters. -/
theorem congr (h : Numbers key n codes firsts)
    (hkeys : ∀ i < n, ∀ j < n, key i = key j ↔ key' i = key' j) : Numbers key' n codes firsts := by
  refine ⟨h.length, h.rows, h.increasing, ?_, fun i hi => ?_⟩
  · have hnodup := h.nodup
    rw [List.Nodup, pairwise_map] at hnodup ⊢
    exact hnodup.imp_of_mem fun ha hb hne heq =>
      hne ((hkeys _ (h.rows _ ha) _ (h.rows _ hb)).mpr heq)
  · obtain ⟨g, first, hg, hfirst, hle, hkey⟩ := h.code i hi
    exact ⟨g, first, hg, hfirst, hle,
      (hkeys first (h.rows first (mem_of_getElem? hfirst)) i hi).mp hkey⟩

/-- Numbers that a machine word holds are stored as they are. -/
theorem map_mod (h : Numbers key n codes firsts) {m : ℕ} (hn : n ≤ m) :
    codes.map (· % m) = codes := by
  refine (map_congr_left fun g hg => ?_).trans (List.map_id codes)
  exact Nat.mod_eq_of_lt ((h.code_lt hg).trans_le (h.length_firsts_le.trans hn))

end Numbers

end Numbering

/-! ## Key columns -/

/-- One key of the rows: a code for each row, and the value that each code stands for. -/
structure KeyColumn where
  codes : List ℕ
  reps : List Json
  deriving DecidableEq

def KeyColumn.value (c : KeyColumn) (row : ℕ) : Json :=
  ((c.codes[row]?).bind fun code => c.reps[code]?).getD .null

/-- A column groups `n` rows by their values: each code stands for a value, and different codes for
different values. -/
structure KeyColumn.Groups (c : KeyColumn) (n : ℕ) : Prop where
  length : c.codes.length = n
  code_lt : ∀ code ∈ c.codes, code < c.reps.length
  nodup : c.reps.Nodup
  -- codes are `u32`
  fits : c.reps.length ≤ 2 ^ 32

/-- `Value::is_number`. -/
def isNumeric : Json → Bool
  | .number _ => true
  | _ => false

/-- Whether a value is stored as an `i64`. -/
def isI64 : Json → Bool
  | .number x => x.asI64.isSome
  | _ => false

/-- Two values can have equal keys only if both are numbers, and not both are `i64`. -/
def mergeable (reps : List Json) : Bool :=
  let numbers := reps.filter isNumeric
  (numbers[1]?).isSome && !numbers.all isI64

section Codes

variable (ft : FloatTexts)

/-- One column of `canonicalize_group_codes`. A code without value has no result. -/
def canonicalizeColumn (c : KeyColumn) : Option KeyColumn :=
  if mergeable c.reps then
    let (codes, firsts) := assignCodes (fun k => (c.reps[k]?).map (canonicalCellKey ft))
      (List.range c.reps.length) []
    let oldToNew := codes.map (· % 2 ^ 32)
    let newReps := firsts.map fun k => (c.reps[k]?).getD .null
    if newReps.length = c.reps.length then some c
    else if c.codes.all (· < oldToNew.length) then
      some ⟨c.codes.map fun code => oldToNew.getD code 0, newReps⟩
    else none
  else some c

/-- `canonicalize_group_codes`. -/
def canonicalizeGroupCodes (keyCols : List KeyColumn) : Option (List KeyColumn) :=
  keyCols.mapM (canonicalizeColumn ft)

/-- Fold one more column into the codes of the rows. A column that is too short has no result. -/
def refineCodes (codes : List ℕ) (c : KeyColumn) : Option (List ℕ × List ℕ) :=
  if c.codes.length < codes.length then none
  else
    -- both halves of a key are `u32`
    let keys := List.zipWith (fun running code => running <<< 32 ||| code) codes c.codes
    let (next, firstRow) := assignCodes (keys[·]?) (List.range codes.length) []
    some (next.map (· % 2 ^ 32), firstRow)

/-- `combine_group_codes`: the codes of the rows, the first row of each code, and how many codes
there are. -/
def combineGroupCodes (keyCols : List KeyColumn) (n : ℕ) : Option (List ℕ × List ℕ × ℕ) :=
  let start := (List.replicate n 0, if n = 0 then [] else [0])
  (keyCols.foldlM (fun state c => refineCodes state.1 c) start).map fun state =>
    (state.1, state.2, state.2.length)

end Codes

/-! ## One column -/

section Columns

variable {ft : FloatTexts} {c : KeyColumn} {n : ℕ}

namespace KeyColumn.Groups

lemma value_eq (h : c.Groups n) {i : ℕ} (hi : i < n) : ∃ code, c.codes[i]? = some code ∧
    code < c.reps.length ∧ c.reps[code]? = some (c.value i) := by
  have hlt : i < c.codes.length := by rwa [h.length]
  have hcode := h.code_lt _ (getElem_mem hlt)
  refine ⟨c.codes[i], getElem?_eq_getElem hlt, hcode, ?_⟩
  rw [KeyColumn.value, getElem?_eq_getElem hlt, bind_some,
    getElem?_eq_getElem hcode, getD_some]

lemma same_iff (h : c.Groups n) {i j : ℕ} (hi : i < n) (hj : j < n) :
    c.codes[i]? = c.codes[j]? ↔ c.value i = c.value j := by
  obtain ⟨a, ha, halt, hrep⟩ := h.value_eq hi
  obtain ⟨b, hb, -, hrep'⟩ := h.value_eq hj
  rw [ha, hb, ← some_inj (a := c.value i), ← hrep, ← hrep', getElem?_inj halt h.nodup,
    some_inj]

end KeyColumn.Groups

lemma eq_of_isI64 {x y : Number} (hx : isI64 (.number x) = true) (hy : isI64 (.number y) = true)
    (h : numberForm x = numberForm y) : x = y := by
  cases x with
  | posInt m hm =>
    cases y with
    | posInt k hk =>
      obtain rfl : m = k := Int.ofNat_inj.mp (KeyForm.int.inj h)
      rfl
    | negInt j hj =>
      have := KeyForm.int.inj h
      omega
    | float g => cases hy
  | negInt i hi =>
    cases y with
    | posInt k hk =>
      have := KeyForm.int.inj h
      omega
    | negInt j hj =>
      obtain rfl := KeyForm.int.inj h
      rfl
    | float g => cases hy
  | float f => cases hx

/-- Different values with one key are merged, whatever the shortcut does for the others. -/
theorem mergeable_of_key_eq {reps : List Json} {v w : Json} (hv : v ∈ reps) (hw : w ∈ reps)
    (hkey : canonicalCellKey ft v = canonicalCellKey ft w) (hne : v ≠ w) :
    mergeable reps = true := by
  have hform := canonicalCellKey_eq_iff.mp hkey
  -- only numbers can have one key
  obtain ⟨x, rfl⟩ : ∃ x, v = .number x := by
    cases v with
    | number x => exact ⟨x, rfl⟩
    | _ =>
      cases w with
      | number y => rcases numberForm_cases y with ⟨i, hy⟩ | ⟨f, hy⟩ <;>
        simp [cellForm, hy] at hform
      | _ => exact absurd (KeyForm.value.inj hform) hne
  obtain ⟨y, rfl⟩ : ∃ y, w = .number y := by
    cases w with
    | number y => exact ⟨y, rfl⟩
    | _ => rcases numberForm_cases x with ⟨i, hx⟩ | ⟨f, hx⟩ <;> simp [cellForm, hx] at hform
  have hx : Json.number x ∈ reps.filter isNumeric := mem_filter.mpr ⟨hv, rfl⟩
  have hy : Json.number y ∈ reps.filter isNumeric := mem_filter.mpr ⟨hw, rfl⟩
  have htwo : ((reps.filter isNumeric)[1]?).isSome := by
    rcases hnumbers : reps.filter isNumeric with _ | ⟨a, _ | ⟨b, l⟩⟩
    · simp [hnumbers] at hx
    · rw [hnumbers, mem_singleton] at hx hy
      exact absurd (hx.trans hy.symm) hne
    · rfl
  -- and not two of them that are `i64`
  have hint : (reps.filter isNumeric).all isI64 = false := by
    rw [List.all_eq_false]
    by_contra hall
    push Not at hall
    exact hne (congrArg Json.number (eq_of_isI64 (hall _ hx) (hall _ hy) hform))
  unfold mergeable
  simp only [htwo, hint, Bool.not_false, Bool.and_self]

/-- **One column.** Its codes identify rows whose values have equal keys, and stand for values with
these keys. -/
theorem canonicalizeColumn_spec (h : c.Groups n) : ∃ c', canonicalizeColumn ft c = some c' ∧
    c'.codes.length = n ∧ (∀ code ∈ c'.codes, code < 2 ^ 32) ∧
    (∀ i < n, ∀ j < n, c'.codes[i]? = c'.codes[j]? ↔
      canonicalCellKey ft (c.value i) = canonicalCellKey ft (c.value j)) ∧
    ∀ i < n, canonicalCellKey ft (c'.value i) = canonicalCellKey ft (c.value i) := by
  -- a column stays as it is where its values have different keys
  have hsame : (∀ v ∈ c.reps, ∀ w ∈ c.reps, canonicalCellKey ft v = canonicalCellKey ft w → v = w) →
      ∀ i < n, ∀ j < n, c.codes[i]? = c.codes[j]? ↔
        canonicalCellKey ft (c.value i) = canonicalCellKey ft (c.value j) := by
    intro hinj i hi j hj
    obtain ⟨_, _, _, hrep⟩ := h.value_eq hi
    obtain ⟨_, _, _, hrep'⟩ := h.value_eq hj
    rw [h.same_iff hi hj]
    exact ⟨fun heq => by rw [heq],
      hinj _ (mem_of_getElem? hrep) _ (mem_of_getElem? hrep')⟩
  have hlt : ∀ code ∈ c.codes, code < 2 ^ 32 := fun code hcode =>
    (h.code_lt code hcode).trans_le h.fits
  unfold canonicalizeColumn
  by_cases hmerge : mergeable c.reps = true
  · rw [if_pos hmerge]
    have hnum := numbers_assignCodes (fun k => (c.reps[k]?).map (canonicalCellKey ft)) c.reps.length
    revert hnum
    rcases assignCodes (fun k => (c.reps[k]?).map (canonicalCellKey ft))
      (List.range c.reps.length) [] with ⟨codes, firsts⟩
    intro hnum
    dsimp only at hnum ⊢
    rw [hnum.map_mod h.fits, length_map]
    by_cases hall : firsts.length = c.reps.length
    · rw [if_pos hall]
      refine ⟨c, rfl, h.length, hlt, hsame fun v hv w hw hkey => ?_, fun _ _ => rfl⟩
      -- every position is a first one, so no two keys are equal
      have hperm : firsts.Perm (List.range c.reps.length) := by
        refine (subperm_of_subset ?_ fun k hk => ?_).perm_of_length_le (by simp [hall])
        · exact hnum.increasing.imp fun hlt => Nat.ne_of_lt hlt
        · exact mem_range.mpr (hnum.rows k hk)
      have hnodup := (hperm.map _).nodup_iff.mp hnum.nodup
      obtain ⟨a, ha⟩ := mem_iff_getElem?.mp hv
      obtain ⟨b, hb⟩ := mem_iff_getElem?.mp hw
      have hab : a = b := by
        refine inj_on_of_nodup_map hnodup ?_ ?_ ?_
        · exact mem_range.mpr (List.getElem?_eq_some_iff.mp ha).1
        · exact mem_range.mpr (List.getElem?_eq_some_iff.mp hb).1
        · rw [ha, hb, map_some, map_some, hkey]
      subst hab
      exact some.inj (ha.symm.trans hb)
    · have hrange : c.codes.all (fun code => decide (code < codes.length)) = true := by
        rw [List.all_eq_true]
        intro code hcode
        rw [hnum.length]
        exact decide_eq_true (h.code_lt code hcode)
      rw [if_neg hall, if_pos hrange]
      -- the code of a row is the new code of its old code
      have hnew : ∀ {code : ℕ}, code < c.reps.length →
          codes[code]? = some (codes.getD code 0) := by
        intro code hcode
        rw [getD_eq_getElem?_getD, getElem?_eq_getElem (hnum.length ▸ hcode)]
        rfl
      refine ⟨_, rfl, by rw [length_map, h.length], fun code hcode => ?_, fun i hi j hj => ?_,
        fun i hi => ?_⟩
      · obtain ⟨old, hold, rfl⟩ := List.mem_map.mp hcode
        have hmem := mem_of_getElem? (hnew (h.code_lt old hold))
        exact (hnum.code_lt hmem).trans_le (hnum.length_firsts_le.trans h.fits)
      · obtain ⟨a, ha, halt, hrep⟩ := h.value_eq hi
        obtain ⟨b, hb, hblt, hrep'⟩ := h.value_eq hj
        have hiff := hnum.same_iff halt hblt
        rw [hrep, hrep', map_some, map_some, some_inj] at hiff
        rw [← hiff, getElem?_map, getElem?_map, ha, hb, map_some, map_some,
          hnew halt, hnew hblt]
      · obtain ⟨a, ha, halt, hrep⟩ := h.value_eq hi
        obtain ⟨g, first, hg, hfirst, -, hkey⟩ := hnum.code a halt
        have hfirstlt := hnum.rows first (mem_of_getElem? hfirst)
        rw [hrep, getElem?_eq_getElem hfirstlt, map_some, map_some,
          some_inj] at hkey
        rw [← hkey, KeyColumn.value, getElem?_map, ha, map_some, bind_some,
          ← some.inj (hg.symm.trans (hnew halt)), getElem?_map, hfirst, map_some,
          getElem?_eq_getElem hfirstlt]
        rfl
  · rw [if_neg hmerge]
    refine ⟨c, rfl, h.length, hlt, hsame fun v hv w hw hkey => ?_, fun _ _ => rfl⟩
    by_contra hne
    exact hmerge (mergeable_of_key_eq hv hw hkey hne)

/-- **One more column.** -/
theorem refineCodes_spec {κ : Type} {key : ℕ → κ} {codes firsts : List ℕ}
    (h : Numbers key n codes firsts) (hn : n ≤ 2 ^ 32) (hlen : c.codes.length = n)
    (hlt : ∀ code ∈ c.codes, code < 2 ^ 32) : ∃ codes' firsts',
      refineCodes codes c = some (codes', firsts') ∧
      Numbers (fun i => (key i, c.codes[i]?)) n codes' firsts' := by
  unfold refineCodes
  rw [if_neg (by rw [hlen, h.length]; omega), h.length]
  have hnum := numbers_assignCodes
    (fun i => (List.zipWith (fun running code => running <<< 32 ||| code) codes c.codes)[i]?) n
  refine ⟨_, _, rfl, ?_⟩
  rw [hnum.map_mod hn]
  refine hnum.congr fun i hi j hj => ?_
  obtain ⟨a, ha⟩ : ∃ a, codes[i]? = some a := ⟨_, getElem?_eq_getElem (h.length ▸ hi)⟩
  obtain ⟨b, hb⟩ : ∃ b, codes[j]? = some b := ⟨_, getElem?_eq_getElem (h.length ▸ hj)⟩
  obtain ⟨x, hx⟩ : ∃ x, c.codes[i]? = some x := ⟨_, getElem?_eq_getElem (hlen ▸ hi)⟩
  obtain ⟨y, hy⟩ : ∃ y, c.codes[j]? = some y := ⟨_, getElem?_eq_getElem (hlen ▸ hj)⟩
  have hsame := h.same_iff hi hj
  rw [ha, hb] at hsame
  rw [getElem?_zipWith, getElem?_zipWith, ha, hb, hx, hy, Prod.mk.injEq, ← hsame,
    some_inj, some_inj, some_inj,
    ← Nat.shiftLeft_add_eq_or_of_lt (hlt x (mem_of_getElem? hx)),
    ← Nat.shiftLeft_add_eq_or_of_lt (hlt y (mem_of_getElem? hy)), Nat.shiftLeft_eq,
    Nat.shiftLeft_eq]
  -- a pair of `u32` is read back from its key
  have hxlt := hlt x (mem_of_getElem? hx)
  have hylt := hlt y (mem_of_getElem? hy)
  omega

/-! ## All columns -/

lemma canonicalizeGroupCodes_spec {keyCols : List KeyColumn} (h : ∀ c ∈ keyCols, c.Groups n) :
    ∃ keyCols', canonicalizeGroupCodes ft keyCols = some keyCols' ∧
      (∀ c ∈ keyCols', c.codes.length = n ∧ ∀ code ∈ c.codes, code < 2 ^ 32) ∧
      (∀ i < n, ∀ j < n, keyCols'.map (·.codes[i]?) = keyCols'.map (·.codes[j]?) ↔
        keyCols.map (fun c => canonicalCellKey ft (c.value i)) =
          keyCols.map fun c => canonicalCellKey ft (c.value j)) ∧
      ∀ i < n, keyCols'.map (fun c => canonicalCellKey ft (c.value i)) =
        keyCols.map fun c => canonicalCellKey ft (c.value i) := by
  induction keyCols with
  | nil => exact ⟨[], rfl, by simp, by simp, by simp⟩
  | cons c keyCols ih =>
    obtain ⟨c', hc, hlen, hlt, hsame, hvalue⟩ :=
      @canonicalizeColumn_spec ft c n (h c mem_cons_self)
    obtain ⟨keyCols', hcols, hwords, hsames, hvalues⟩ := ih fun c hc => h c (mem_cons_of_mem _ hc)
    refine ⟨c' :: keyCols', ?_, ?_, fun i hi j hj => ?_, fun i hi => ?_⟩
    · unfold canonicalizeGroupCodes at hcols ⊢
      rw [mapM_cons, hc, hcols]
      rfl
    · intro d hd
      rcases mem_cons.mp hd with rfl | hd
      · exact ⟨hlen, hlt⟩
      · exact hwords d hd
    · rw [map_cons, map_cons, map_cons, map_cons, List.cons.injEq,
        List.cons.injEq, hsame i hi j hj, hsames i hi j hj]
    · rw [map_cons, map_cons, hvalue i hi, hvalues i hi]

/-- Folding columns refines a numbering by what the columns say. -/
theorem foldlM_refineCodes {κ : Type} {key : ℕ → κ} {keyCols : List KeyColumn}
    {codes firsts : List ℕ} (h : Numbers key n codes firsts) (hn : n ≤ 2 ^ 32)
    (hcols : ∀ c ∈ keyCols, c.codes.length = n ∧ ∀ code ∈ c.codes, code < 2 ^ 32) :
    ∃ codes' firsts', keyCols.foldlM (fun state c => refineCodes state.1 c) (codes, firsts) =
        some (codes', firsts') ∧
      Numbers (fun i => (key i, keyCols.map (·.codes[i]?))) n codes' firsts' := by
  induction keyCols generalizing κ codes firsts with
  | nil => exact ⟨codes, firsts, rfl, h.congr fun i _ j _ => by simp⟩
  | cons c keyCols ih =>
    obtain ⟨hlen, hlt⟩ := hcols c mem_cons_self
    obtain ⟨codes₁, firsts₁, hstep, hnum₁⟩ := refineCodes_spec h hn hlen hlt
    obtain ⟨codes₂, firsts₂, hrun, hnum₂⟩ := ih hnum₁ fun d hd => hcols d (mem_cons_of_mem _ hd)
    refine ⟨codes₂, firsts₂, ?_, hnum₂.congr fun i _ j _ => ?_⟩
    · rw [foldlM_cons]
      show (refineCodes codes c).bind _ = _
      rw [hstep]
      exact hrun
    · simp only [Prod.mk.injEq, map_cons, List.cons.injEq, and_assoc]

/-- Rows without a key are one group. -/
theorem numbers_replicate (n : ℕ) :
    Numbers (fun _ => ()) n (List.replicate n 0) (if n = 0 then [] else [0]) := by
  by_cases hn : n = 0
  · subst hn
    exact ⟨rfl, by simp, by simp, by simp, fun i hi => absurd hi (Nat.not_lt_zero i)⟩
  · rw [if_neg hn]
    refine ⟨by simp, by simp; omega, by simp, by simp, fun i hi => ?_⟩
    exact ⟨0, 0, by simp [hi], rfl, Nat.zero_le i, rfl⟩

lemma combineGroupCodes_spec (hn : n < 2 ^ 32) {keyCols : List KeyColumn}
    (h : ∀ c ∈ keyCols, c.Groups n) : ∃ keyCols' codes firstRow,
      canonicalizeGroupCodes ft keyCols = some keyCols' ∧
      combineGroupCodes keyCols' n = some (codes, firstRow, firstRow.length) ∧
      Numbers (fun i => canonicalRowKey ft (keyCols.map (·.value i))) n codes firstRow := by
  obtain ⟨keyCols', hcols, hwords, hsame, -⟩ := @canonicalizeGroupCodes_spec ft n _ h
  obtain ⟨codes, firstRow, hrun, hnum⟩ :=
    foldlM_refineCodes (numbers_replicate n) (le_of_lt hn) hwords
  refine ⟨keyCols', codes, firstRow, hcols, ?_, hnum.congr fun i hi j hj => ?_⟩
  · unfold combineGroupCodes
    dsimp only
    rw [hrun]
    rfl
  · rw [Prod.mk.injEq, hsame i hi j hj, canonicalRowKey_eq_iff, List.map_map, List.map_map]
    exact and_iff_right rfl

/-- **Combined codes.** Two rows have the same code iff the keys of their values are the same text.
Codes are numbered by first occurrence, the row kept for a code is the first one that has it, and
codes fit a `u32`. -/
theorem combineGroupCodes_canonicalize (ft : FloatTexts) (n : ℕ) (hn : n < 2 ^ 32)
    (keyCols : List KeyColumn) (h : ∀ c ∈ keyCols, c.Groups n) :
    ∃ keyCols' codes firstRow,
      canonicalizeGroupCodes ft keyCols = some keyCols' ∧
      combineGroupCodes keyCols' n = some (codes, firstRow, firstRow.length) ∧
      codes.length = n ∧
      (∀ i < n, ∀ j < n, codes[i]? = codes[j]? ↔
        canonicalRowKey ft (keyCols.map (·.value i)) =
          canonicalRowKey ft (keyCols.map (·.value j))) ∧
      firstRow.Pairwise (· < ·) ∧
      (∀ g row : ℕ, firstRow[g]? = some row ↔
        codes[row]? = some g ∧ ∀ j < row, codes[j]? ≠ some g) ∧
      ∀ g ∈ codes, g < firstRow.length ∧ g < 2 ^ 32 := by
  obtain ⟨keyCols', codes, firstRow, hcols, hcombine, hnum⟩ := @combineGroupCodes_spec ft n hn _ h
  refine ⟨keyCols', codes, firstRow, hcols, hcombine, hnum.length,
    fun i hi j hj => hnum.same_iff hi hj,
    hnum.increasing, fun g row => hnum.first_iff, fun g hg => ?_⟩
  have hlt := hnum.code_lt hg
  exact ⟨hlt, (hlt.trans_le hnum.length_firsts_le).trans hn⟩

/-- Two keys of four rows: `1`, `1.0`, a string and `1`, and a null where the last row has a
boolean. -/
def mixedKeys : List KeyColumn :=
  [⟨[0, 1, 2, 0], [.number (.posInt 1 F64.one_fits), .number (.float (F64.ofNat 1 F64.one_fits)),
    .string "a"]⟩, ⟨[0, 0, 0, 1], [.null, .bool true]⟩]

/-- The first two rows are one group. -/
theorem combineGroupCodes_mixedKeys : ∃ keyCols' codes firstRow,
    canonicalizeGroupCodes bitsTexts mixedKeys = some keyCols' ∧
    combineGroupCodes keyCols' 4 = some (codes, firstRow, firstRow.length) ∧
    codes.length = 4 ∧
    (∀ i < 4, ∀ j < 4, codes[i]? = codes[j]? ↔
      canonicalRowKey bitsTexts (mixedKeys.map (·.value i)) =
        canonicalRowKey bitsTexts (mixedKeys.map (·.value j))) ∧
    firstRow.Pairwise (· < ·) ∧
    (∀ g row : ℕ, firstRow[g]? = some row ↔
      codes[row]? = some g ∧ ∀ j < row, codes[j]? ≠ some g) ∧
    ∀ g ∈ codes, g < firstRow.length ∧ g < 2 ^ 32 := by
  refine combineGroupCodes_canonicalize bitsTexts 4 (by decide) mixedKeys fun c hc => ?_
  rcases mem_cons.mp hc with rfl | hc
  · exact ⟨rfl, by decide, by decide, by decide⟩
  · obtain rfl := mem_singleton.mp hc
    exact ⟨rfl, by decide, by decide, by decide⟩

end Columns

/-! ## Columns of properties -/

section Properties

variable {ft : FloatTexts} {p : PropColumns} {notFound : ℕ → Error} {ids : List ℕ}

/-- The value of a property in a row: null where it is missing. -/
def cellOf (props : Props) (prop : String) : Json := (props.get prop).getD .null

lemma getD_view (props : Props) (prop : String) :
    (props.view prop).getD .null = cellOf props prop := by
  rw [Props.view, cellOf]
  rcases props.get prop with _ | v
  · rfl
  · cases v <;> rfl

/-- What a property read returns groups its rows, by the values of the property. -/
theorem groups_of_groupCodes {prop : String} {codes : List ℕ} {reps : List Json}
    (hp : ∀ prop c, p.cols.get prop = some c → c.Valid)
    (hview : ∀ id ∈ ids, ∃ props : Props, p.view id = some props.view) (hids : ids.length ≤ 2 ^ 32)
    (h : p.groupCodes notFound ids prop = .ok (codes, reps)) :
    (KeyColumn.mk codes reps).Groups ids.length ∧
      ∀ (i id : ℕ) (props : Props), ids[i]? = some id → p.view id = some props.view →
        (KeyColumn.mk codes reps).value i = cellOf props prop := by
  obtain ⟨hlen, -, hspec⟩ := PropColumns.groupCodes_spec hp h
  rw [PropColumns.groupCodes_eq_of_cols hp] at h
  split at h
  next => cases h
  next =>
    obtain ⟨rfl, rfl⟩ := Prod.mk.injEq .. ▸ Except.ok.inj h
    obtain ⟨hnodup, ⟨new, hnew, hmem⟩, -, hcodes⟩ :=
      assignCodes_spec (p.value prop) ids [] nodup_nil
    rw [nil_append] at hnew
    -- a value that is held is not null
    have hinj : ∀ a ∈ ids, ∀ b ∈ ids, (p.value prop a).getD .null = (p.value prop b).getD .null →
        p.value prop a = p.value prop b := by
      have hheld : ∀ a ∈ ids, ((p.value prop a).getD .null).nonNull = p.value prop a := by
        intro a ha
        obtain ⟨props, hprops⟩ := hview a ha
        rw [PropColumns.value, hprops, bind_some, Props.view]
        rcases props.get prop with _ | v
        · rfl
        · cases v <;> rfl
      intro a ha b hb heq
      rw [← hheld a ha, heq, hheld b hb]
    refine ⟨⟨hlen, fun code hcode => ?_, ?_, ?_⟩, fun i id props hi hprops => ?_⟩
    · obtain ⟨i, hi⟩ := mem_iff_getElem?.mp hcode
      have hlt := hlen ▸ (List.getElem?_eq_some_iff.mp hi).1
      obtain ⟨code', first, hcode', hfirst, -⟩ := hcodes i _ (getElem?_eq_getElem hlt)
      obtain rfl := some.inj (hcode'.symm.trans hi)
      simpa using (List.getElem?_eq_some_iff.mp hfirst).1
    · rw [hnew] at hnodup ⊢
      rw [List.Nodup, pairwise_map] at hnodup ⊢
      exact hnodup.imp_of_mem fun ha hb hne heq => hne (hinj _ (hmem _ ha) _ (hmem _ hb) heq)
    · rw [length_map, hnew]
      rw [hnew] at hnodup
      exact ((List.Nodup.of_map _ hnodup).subperm hmem).length_le.trans hids
    · obtain ⟨code, hcode, hrep, -⟩ := hspec i id hi
      rw [KeyColumn.value, hcode, bind_some, hrep, getD_some, PropColumns.value, hprops,
        bind_some, getD_view]

/-- **Grouping by properties.** Over columns that hold the asked entities, two rows have the same
combined code iff the keys of their properties are the same text. -/
theorem combinedCodes_iff (hp : ∀ prop c, p.cols.get prop = some c → c.Valid)
    (hview : ∀ id ∈ ids, ∃ props : Props, p.view id = some props.view) (hids : ids.length < 2 ^ 32)
    (keys : List String) {keyCols : List KeyColumn}
    (hkeys : keys.mapM (fun prop => (p.groupCodes notFound ids prop).map fun r =>
      KeyColumn.mk r.1 r.2) = .ok keyCols) :
    ∃ keyCols' codes firstRow, canonicalizeGroupCodes ft keyCols = some keyCols' ∧
      combineGroupCodes keyCols' ids.length = some (codes, firstRow, firstRow.length) ∧
      ∀ (i j id id' : ℕ) (props props' : Props), ids[i]? = some id → ids[j]? = some id' →
        p.view id = some props.view → p.view id' = some props'.view →
        (codes[i]? = codes[j]? ↔ canonicalRowKey ft (keys.map (cellOf props)) =
          canonicalRowKey ft (keys.map (cellOf props'))) := by
  have hcols : (∀ c ∈ keyCols, c.Groups ids.length) ∧
      ∀ (i id : ℕ) (props : Props), ids[i]? = some id → p.view id = some props.view →
        keyCols.map (·.value i) = keys.map (cellOf props) := by
    induction keys generalizing keyCols with
    | nil =>
      obtain rfl := Except.ok.inj hkeys
      exact ⟨by simp, fun _ _ _ _ _ => rfl⟩
    | cons prop keys ih =>
      rw [mapM_cons] at hkeys
      rcases hread : p.groupCodes notFound ids prop with e | ⟨codes, reps⟩
      · rw [hread] at hkeys
        cases hkeys
      rcases hrest : keys.mapM (fun prop => (p.groupCodes notFound ids prop).map fun r =>
        KeyColumn.mk r.1 r.2) with e | cols
      · rw [hread, hrest] at hkeys
        cases hkeys
      rw [hread, hrest] at hkeys
      obtain rfl := Except.ok.inj hkeys
      obtain ⟨hgroups, hvalue⟩ := groups_of_groupCodes hp hview (le_of_lt hids) hread
      obtain ⟨hgroups', hvalues⟩ := ih hrest
      refine ⟨fun c hc => ?_, fun i id props hi hprops => ?_⟩
      · rcases mem_cons.mp hc with rfl | hc
        · exact hgroups
        · exact hgroups' c hc
      · rw [map_cons, map_cons, hvalue i id props hi hprops, hvalues i id props hi hprops]
  obtain ⟨keyCols', codes, firstRow, hcanonical, hcombine, hnum⟩ :=
    @combineGroupCodes_spec ft _ hids _ hcols.1
  refine ⟨keyCols', codes, firstRow, hcanonical, hcombine,
    fun i j id id' props props' hi hj hid hid' => ?_⟩
  rw [hnum.same_iff (List.getElem?_eq_some_iff.mp hi).1 (List.getElem?_eq_some_iff.mp hj).1,
    hcols.2 i id props hi hid, hcols.2 j id' props' hj hid']

/-- Three nodes, two of which have the same value. -/
def pairedNodes : Table ℕ Props :=
  ((Table.empty.put 3 ⟨.object [("g", .bool true)], rfl⟩).put 4
    ⟨.object [("g", .bool false)], rfl⟩).put 5 ⟨.object [("g", .bool true)], rfl⟩

theorem combinedCodes_iff_pairedNodes : ∃ keyCols' codes firstRow,
    canonicalizeGroupCodes bitsTexts [⟨[0, 1, 0], [.bool true, .bool false]⟩] = some keyCols' ∧
      combineGroupCodes keyCols' 3 = some (codes, firstRow, firstRow.length) ∧
      codes[0]? = codes[2]? := by
  obtain ⟨hvalid, hview⟩ := PropColumns.build_spec pairedNodes
  have hstored : ∀ id ∈ [3, 4, 5], ∃ props : Props,
      (PropColumns.build pairedNodes).view id = some props.view := by
    intro id hid
    have hsome : (pairedNodes.get id).isSome = true := by
      fin_cases hid <;> decide +kernel
    obtain ⟨props, hprops⟩ := isSome_iff_exists.mp hsome
    exact ⟨props, by rw [hview, hprops, map_some]⟩
  have hkeys : (["g"].mapM fun prop => ((PropColumns.build pairedNodes).groupCodes .nodeNotFound
      [3, 4, 5] prop).map fun r => KeyColumn.mk r.1 r.2) =
      .ok [⟨[0, 1, 0], [.bool true, .bool false]⟩] := rfl
  obtain ⟨keyCols', codes, firstRow, hcols, hcodes, hiff⟩ := @combinedCodes_iff bitsTexts _ _ _
    hvalid.cols_valid hstored (by decide) ["g"] _ hkeys
  exact ⟨keyCols', codes, firstRow, hcols, hcodes,
    (hiff 0 2 3 5 _ _ rfl rfl (hview 3) (hview 5)).mpr rfl⟩
end Properties

end IssunDB.Cypher
