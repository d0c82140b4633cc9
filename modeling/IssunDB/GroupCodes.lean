import IssunDB.ColumnsCache

/-!
# Cached group codes

The group codes of a property over all nodes are cached under the write generation that a reader
finds when it takes the lock of the cache. A writer commits, then advances the generation, and only
then records the nodes that it touched. In between, the columns do not show the commit, and a reader
that finds the new generation files codes of the old values under it.

* `PropColumns.groupCodesById` — codes indexed by node id;
* `IdGroupCodes.Describes`, `PropColumns.groupCodesById_spec` — codes that describe the nodes;
* `GroupCodes.State.step` — writers, readers of the codes, and other readers of the columns;
* `GroupCodes.Recorded` — no reader gathers in the window of a writer that has advanced;
* `GroupCodes.sound_of_recorded` — the entries after every run of such steps;
* `GroupCodes.unrecorded_gather` — a run that files old codes under the new generation.
-/

namespace IssunDB

open List Option

/-! ## Codes by id -/

/-- Group codes of one property by node id, with one value per code. No code stands for
`ID_GROUP_ABSENT`: a node has fewer codes than dense slots, which are below it. -/
structure IdGroupCodes where
  codes : List (Option ℕ)
  reps : List Json

/-- The code of a node id; past the array there is none. -/
def IdGroupCodes.code (g : IdGroupCodes) (id : ℕ) : Option ℕ := g.codes[id]?.join

/-- Write codes at the ids that they belong to. -/
def placeCodes (slots : List (Option ℕ)) (entries : List (ℕ × ℕ)) : List (Option ℕ) :=
  entries.foldl (fun slots entry => slots.set entry.1 (some entry.2)) slots

def idSpan (ids : List ℕ) : ℕ :=
  match ids.max? with
  | some max => max + 1
  | none => 0

def PropColumns.groupCodesById (prop : String) (p : PropColumns) : Except Error IdGroupCodes :=
  match p.groupCodes .nodeNotFound p.denseToId prop with
  | .error e => .error e
  | .ok (codes, reps) =>
    .ok ⟨placeCodes (.replicate (idSpan p.denseToId) none) (p.denseToId.zip codes), reps⟩

/-- Codes describe nodes: a node has a code iff it exists, nodes share one iff their values of the
property are identical, and its representative is that value. -/
structure IdGroupCodes.Describes (entities : Table ℕ Props) (prop : String) (g : IdGroupCodes) :
    Prop where
  absent : ∀ id, g.code id = none ↔ entities.get id = none
  shared : ∀ id id' props props', entities.get id = some props → entities.get id' = some props' →
    (g.code id = g.code id' ↔ props.view prop = props'.view prop)
  rep : ∀ id props, entities.get id = some props →
    ∃ code, g.code id = some code ∧ g.reps[code]? = some ((props.view prop).getD .null)

lemma getElem?_placeCodes {entries : List (ℕ × ℕ)} (hnodup : (entries.map Prod.fst).Nodup)
    (slots : List (Option ℕ)) :
    (∀ id code, (id, code) ∈ entries → id < slots.length →
      (placeCodes slots entries)[id]? = some (some code)) ∧
    ∀ id, id ∉ entries.map Prod.fst → (placeCodes slots entries)[id]? = slots[id]? := by
  induction entries generalizing slots with
  | nil => exact ⟨fun _ _ hmem => (by cases hmem), fun _ _ => rfl⟩
  | cons entry entries ih =>
    rw [map_cons, nodup_cons] at hnodup
    obtain ⟨hplaced, hkept⟩ := ih hnodup.2 (slots.set entry.1 (some entry.2))
    refine ⟨fun id code hmem hlt => ?_, fun id hid => ?_⟩
    · rcases mem_cons.mp hmem with rfl | hrest
      · refine (hkept id hnodup.1).trans ?_
        simp [hlt]
      · exact hplaced id code hrest (by simpa using hlt)
    · rw [map_cons, mem_cons, not_or] at hid
      refine (hkept id hid.2).trans (getElem?_set_ne fun heq => hid.1 heq.symm)

lemma lt_idSpan {ids : List ℕ} {id : ℕ} (h : id ∈ ids) : id < idSpan ids := by
  unfold idSpan
  cases hmax : ids.max? with
  | none => simp [max?_eq_none_iff.mp hmax] at h
  | some max => exact Nat.lt_succ_of_le ((max?_eq_some_iff.mp hmax).2 id h)

theorem PropColumns.groupCodesById_spec {entities : Table ℕ Props} {p : PropColumns}
    (h : p.Holds entities []) (prop : String) :
    ∃ g, p.groupCodesById prop = .ok g ∧ g.Describes entities prop := by
  have hview : ∀ id, p.view id = (entities.get id).map Props.view :=
    fun id => h.view id not_mem_nil
  have hmem : ∀ id, id ∈ p.denseToId ↔ (entities.get id).isSome := by
    intro id
    have hsome := congrArg Option.isSome (hview id)
    rw [PropColumns.view, isSome_map, isSome_map] at hsome
    rw [← h.valid.indexes.isSome_get, hsome]
  -- no id of the columns is missing from them
  obtain ⟨codes, reps, hcodes⟩ : ∃ codes reps,
      p.groupCodes .nodeNotFound p.denseToId prop = .ok (codes, reps) := by
    rw [h.valid.groupCodes_eq]
    split
    next id hfind =>
      have hnone := find?_some hfind
      have hsome := (hmem id).mp (mem_of_find?_eq_some hfind)
      rw [hview, isNone_map] at hnone
      simp [isNone_iff_eq_none.mp hnone] at hsome
    next => exact ⟨_, _, rfl⟩
  obtain ⟨hlen, -, hspec⟩ := PropColumns.groupCodes_spec h.valid.cols_valid hcodes
  have hvalue : ∀ {id props}, entities.get id = some props → p.value prop id = props.view prop := by
    intro id props hget
    simp [PropColumns.value, hview, hget]
  refine ⟨⟨placeCodes (.replicate (idSpan p.denseToId) none) (p.denseToId.zip codes), reps⟩,
    by simp only [groupCodesById, hcodes], ?_⟩
  have hfst : (p.denseToId.zip codes).map Prod.fst = p.denseToId :=
    map_fst_zip (by omega)
  obtain ⟨hplaced, hkept⟩ := getElem?_placeCodes (hfst ▸ h.valid.indexes.1)
    (List.replicate (idSpan p.denseToId) none)
  -- the code of a node is the one of its slot
  have hcode : ∀ {id props}, entities.get id = some props →
      ∃ i code : ℕ, p.denseToId[i]? = some id ∧
      codes[i]? = some code ∧
      IdGroupCodes.code ⟨placeCodes (.replicate (idSpan p.denseToId) none) (p.denseToId.zip codes),
        reps⟩ id = some code := by
    intro id props hget
    have hid := (hmem id).mpr (by rw [hget]; rfl)
    obtain ⟨i, hi⟩ := mem_iff_getElem?.mp hid
    obtain ⟨code, hcode, -⟩ := hspec i id hi
    refine ⟨i, code, hi, hcode, ?_⟩
    have hzip : (id, code) ∈ p.denseToId.zip codes :=
      mem_iff_getElem?.mpr ⟨i, getElem?_zip_eq_some.mpr ⟨hi, hcode⟩⟩
    simp only [IdGroupCodes.code, hplaced id code hzip (by simpa using lt_idSpan hid),
      join_some]
  refine ⟨fun id => ?_, fun id id' props props' hget hget' => ?_, fun id props hget => ?_⟩
  · cases hget : entities.get id with
    | some props =>
      obtain ⟨i, code, -, -, hcode⟩ := hcode hget
      simp [hcode]
    | none =>
      have hid : id ∉ (p.denseToId.zip codes).map Prod.fst := by
        rw [hfst, hmem, hget]
        simp
      simp only [IdGroupCodes.code, hkept id hid, getElem?_replicate, iff_true]
      split <;> rfl
  · obtain ⟨i, code, hi, hcodei, hcode₁⟩ := hcode hget
    obtain ⟨j, code', hj, hcodej, hcode₂⟩ := hcode hget'
    obtain ⟨code'', hcodei', -, hshare⟩ := hspec i id hi
    obtain rfl := some.inj (hcodei.symm.trans hcodei')
    have hiff := hshare j id' hj
    rw [hvalue hget, hvalue hget', hcodej] at hiff
    rw [hcode₁, hcode₂, eq_comm, hiff, eq_comm]
  · obtain ⟨i, code, hi, hcodei, hcode₁⟩ := hcode hget
    obtain ⟨code', hcodei', hrep, -⟩ := hspec i id hi
    obtain rfl := some.inj (hcodei.symm.trans hcodei')
    rw [hvalue hget] at hrep
    exact ⟨code, hcode₁, hrep⟩

/-! ## The cache -/

/-- Cached codes of one write generation. -/
structure IdGroupCodesCache where
  generation : ℕ
  byProp : Table String IdGroupCodes

namespace IdGroupCodesCache

/-- Discard the entries of another generation. -/
def align (generation : ℕ) (c : IdGroupCodesCache) : IdGroupCodesCache :=
  if c.generation ≠ generation then ⟨generation, .empty⟩ else c

def insert (prop : String) (g : IdGroupCodes) (c : IdGroupCodesCache) : IdGroupCodesCache :=
  { c with byProp := c.byProp.put prop g }

end IdGroupCodesCache

namespace GroupCodes

/-- The reader that holds the lock of the cache: it has read the generation, or it has gathered. -/
inductive Reader where
  | aligned (generation : ℕ) (prop : String)
  | gathered (generation : ℕ) (prop : String) (g : IdGroupCodes)

/-- The columns with their storage, the write generation, the mutations of a writer that has
committed and not advanced it, the cached codes, and the reader that holds their lock. -/
structure State where
  columns : ColumnHistory.State
  writeGen : ℕ
  unadvanced : Option ℕ
  cache : IdGroupCodesCache
  reader : Option Reader

def State.opened (source : ColumnSource) : State := ⟨.opened source, 1, none, ⟨0, .empty⟩, none⟩

/-- The steps of writers and readers. -/
inductive Step where
  /-- A writer commits. -/
  | commit (changes : List EntityChange) (count : ℕ)
  /-- The writer advances the write generation. -/
  | advance
  /-- The writer records the nodes that it touched. -/
  | record
  /-- A reader takes the lock, reads the generation and aligns the cache. -/
  | align (prop : String)
  /-- The reader gathers through `with_fresh`. -/
  | gather (reads : StorageReads)
  /-- The reader files what it gathered and releases the lock. -/
  | file
  /-- Another bulk read of the columns. -/
  | read (reads : StorageReads)
  /-- An advisory read of the columns. -/
  | advise (reads : StorageReads) (prop : String)
  /-- A saver of the cache file captures a generation. -/
  | capture (t : ℕ)
  /-- The saver saves. -/
  | save (t : ℕ) (reads : StorageReads)

def State.step : Step → State → Option State
  | .commit changes count, s =>
    (s.columns.step (.commit changes count)).map fun columns =>
      { s with columns := columns, unadvanced := some count }
  | .advance, s =>
    match s.unadvanced with
    | none => none
    | some count => some { s with writeGen := s.writeGen + count, unadvanced := none }
  | .record, s =>
    match s.unadvanced with
    | some _ => none
    | none => (s.columns.step .record).map fun columns => { s with columns := columns }
  | .align prop, s =>
    match s.reader with
    | some _ => none
    | none =>
      let cache := s.cache.align s.writeGen
      match cache.byProp.get prop with
      | some _ => some { s with cache := cache }
      | none => some { s with cache := cache, reader := some (.aligned s.writeGen prop) }
  | .gather reads, s =>
    match s.reader with
    | some (.aligned generation prop) =>
      let (outcome, columns) := s.columns.cache.withFresh s.columns.source reads
      let s := { s with columns := { s.columns with cache := columns } }
      match outcome.bind (PropColumns.groupCodesById prop) with
      | .ok g => some { s with reader := some (.gathered generation prop g) }
      | .error _ => some { s with reader := none }
    | _ => none
  | .file, s =>
    match s.reader with
    | some (.gathered _ prop g) =>
      some { s with cache := s.cache.insert prop g, reader := none }
    | _ => none
  | .read reads, s =>
    (s.columns.step (.read reads)).map fun columns => { s with columns := columns }
  | .advise reads prop, s =>
    (s.columns.step (.advise reads prop)).map fun columns => { s with columns := columns }
  | .capture t, s =>
    (s.columns.step (.capture t)).map fun columns => { s with columns := columns }
  | .save t reads, s =>
    (s.columns.step (.save t reads)).map fun columns => { s with columns := columns }

/-- While no write is in progress, the codes that are cached under the current generation describe
the nodes. -/
def State.Sound (s : State) : Prop :=
  s.columns.unrecorded = none → s.cache.generation = s.writeGen →
    ∀ prop g, s.cache.byProp.get prop = some g → g.Describes s.columns.source.entities prop

/-- No reader that found the generation of a writer gathers before the writer has recorded its
nodes, unless the columns are absent or await a rebuild. -/
def Recorded : Step → State → Prop
  | .gather _, s => ∀ generation prop, s.reader = some (.aligned generation prop) →
      generation = s.writeGen → s.unadvanced = none → s.columns.unrecorded ≠ none →
      s.columns.cache.columns = none ∨ s.columns.cache.pending.forceFull = true
  | _, _ => True

/-! ## Runs -/

/-- Codes of the current generation describe the nodes, unless a writer has committed mutations and
not advanced the generation. -/
def State.Current (s : State) (generation : ℕ) (prop : String) (g : IdGroupCodes) : Prop :=
  generation = s.writeGen → (∀ count, s.unadvanced = some count → count = 0) →
    g.Describes s.columns.source.entities prop

/-- What holds after every run. -/
structure State.Invariant (s : State) : Prop where
  columns : s.columns.Invariant
  writing : s.columns.unrecorded = none → s.unadvanced = none
  counted : s.unadvanced = some 0 → s.columns.unrecorded.getD [] = []
  generation_le : s.cache.generation ≤ s.writeGen
  entries : ∀ prop g, s.cache.byProp.get prop = some g → s.Current s.cache.generation prop g
  aligned : ∀ generation prop, s.reader = some (.aligned generation prop) →
    generation = s.cache.generation
  gathered : ∀ generation prop g, s.reader = some (.gathered generation prop g) →
    generation = s.cache.generation ∧ s.Current generation prop g

variable {s s' : State}

lemma invariant_opened {source : ColumnSource} (hfile : source.file = none) :
    (State.opened source).Invariant where
  columns := ColumnHistory.invariant_opened fun stamp cols hsome => by
    rw [hfile] at hsome
    cases hsome
  writing _ := rfl
  counted h := by cases h
  generation_le := Nat.zero_le 1
  entries _ _ h := by cases h
  aligned _ _ h := by cases h
  gathered _ _ _ h := by cases h

/-- A step of the columns that leaves the nodes as they are, and records at most. -/
theorem State.Invariant.withColumns (h : s.Invariant) {columns : ColumnHistory.State}
    (hcolumns : columns.Invariant) (hentities : columns.source.entities = s.columns.source.entities)
    (hunrecorded : s.unadvanced ≠ none → columns.unrecorded = s.columns.unrecorded) :
    ({ s with columns := columns } : State).Invariant := by
  have hcurrent : ∀ {generation prop g}, s.Current generation prop g →
      ({ s with columns := columns } : State).Current generation prop g := by
    intro generation prop g hg hgen hcount
    show g.Describes columns.source.entities prop
    rw [hentities]
    exact hg hgen hcount
  refine ⟨hcolumns, fun hidle => ?_, fun hzero => ?_, h.generation_le,
    fun prop g hget => hcurrent (h.entries prop g hget), h.aligned,
    fun generation prop g hreader => ?_⟩
  · by_contra hadv
    exact hadv (h.writing ((hunrecorded hadv).symm.trans hidle))
  · show columns.unrecorded.getD [] = []
    have hzero : s.unadvanced = some 0 := hzero
    rw [hunrecorded (by simp [hzero])]
    exact h.counted hzero
  · obtain ⟨hgen, hg⟩ := h.gathered generation prop g hreader
    exact ⟨hgen, hcurrent hg⟩

/-- **Gather.** What a reader gathers describes the nodes, if it is of the current generation. -/
theorem State.Invariant.gather (h : s.Invariant) {reads : StorageReads}
    (hrec : Recorded (.gather reads) s)
    (hstep : s.step (.gather reads) = some s') : s'.Invariant := by
  rcases hreader : s.reader with _ | ⟨generation, prop⟩ | ⟨generation, prop, g⟩
  · simp [State.step, hreader] at hstep
  · obtain ⟨hserved, -⟩ := h.columns.tracks.withFresh reads h.columns.file
    have hread : ({ s with columns := { s.columns with
        cache := (s.columns.cache.withFresh s.columns.source reads).2 } } : State).Invariant :=
      h.withColumns (h.columns.step (e := .read reads) rfl) rfl fun _ => rfl
    simp only [State.step, hreader] at hstep
    split at hstep
    next g hg =>
      obtain rfl := some.inj hstep
      refine ⟨hread.columns, hread.writing, hread.counted, hread.generation_le, hread.entries,
        fun _ _ h => (by cases h), fun generation' prop' g' hgathered => ?_⟩
      obtain ⟨rfl, rfl, rfl⟩ := Reader.gathered.injEq .. ▸ some.inj hgathered
      refine ⟨h.aligned generation prop hreader, fun hgen hcount => ?_⟩
      rcases hfresh : (s.columns.cache.withFresh s.columns.source reads).1 with e | cols
      · rw [hfresh] at hg
        cases hg
      -- the columns that the codes are gathered from hold everything
      have hholds : cols.Holds s.columns.source.entities [] := by
        cases hunrec : s.columns.unrecorded with
        | none =>
          have hholds := (hserved cols hfresh).1
          rwa [hunrec] at hholds
        | some changes =>
          cases hadv : s.unadvanced with
          | none =>
            exact ColumnsCache.holds_withFresh_of_rebuild h.columns.file
              (hrec generation prop hreader hgen hadv (by simp [hunrec])) hfresh
          | some count =>
            have hnil := h.counted (hadv.trans (congrArg some (hcount count hadv)))
            have hholds := (hserved cols hfresh).1
            rwa [hnil] at hholds
      obtain ⟨g₀, hcodes, hdescribes⟩ := PropColumns.groupCodesById_spec hholds prop
      rw [hfresh, Except.bind, hcodes] at hg
      exact Except.ok.inj hg ▸ hdescribes
    next e he =>
      obtain rfl := some.inj hstep
      exact ⟨hread.columns, hread.writing, hread.counted, hread.generation_le, hread.entries,
        fun _ _ h => (by cases h), fun _ _ _ h => (by cases h)⟩
  · simp [State.step, hreader] at hstep

/-- **Commit.** Codes stay current until the writer advances the generation, and a writer without
mutations leaves the nodes as they are. -/
theorem State.Invariant.commit (h : s.Invariant) {changes : List EntityChange} {count : ℕ}
    (hstep : s.step (.commit changes count) = some s') : s'.Invariant := by
  obtain ⟨columns, hcommit, rfl⟩ := map_eq_some_iff.mp hstep
  have hcolumns := h.columns.step hcommit
  obtain ⟨hidle, hcount, hunrec, hentities⟩ : s.columns.unrecorded = none ∧ changes.length ≤ count ∧
      columns.unrecorded = some changes ∧
      columns.source.entities = changes.foldl EntityChange.apply s.columns.source.entities := by
    simp only [ColumnHistory.State.step] at hcommit
    split at hcommit
    · cases hcommit
    next hidle =>
      split at hcommit
      · cases hcommit
      next hcount =>
        obtain rfl := some.inj hcommit
        exact ⟨hidle, not_lt.mp hcount, rfl, rfl⟩
  have hnil : count = 0 → changes = [] := fun hzero => length_eq_zero_iff.mp (by omega)
  have hcurrent : ∀ {generation prop g}, s.Current generation prop g →
      ({ s with
        columns := columns, unadvanced := some count } : State).Current generation prop g := by
    intro generation prop g hg hgen hzero
    show g.Describes columns.source.entities prop
    rw [hentities, hnil (hzero count rfl)]
    exact hg hgen fun count hsome => by simp [h.writing hidle] at hsome
  refine ⟨hcolumns, fun hnone => ?_, fun hzero => ?_, h.generation_le,
    fun prop g hget => hcurrent (h.entries prop g hget), h.aligned,
    fun generation prop g hreader => ?_⟩
  · rw [hunrec] at hnone
    cases hnone
  · rw [hunrec, hnil (some.inj hzero)]
    rfl
  · obtain ⟨hgen, hg⟩ := h.gathered generation prop g hreader
    exact ⟨hgen, hcurrent hg⟩

/-- **Advance.** Mutations move the generation past that of every codes. -/
theorem State.Invariant.advance (h : s.Invariant) (hstep : s.step .advance = some s') :
    s'.Invariant := by
  cases hadv : s.unadvanced with
  | none => simp [State.step, hadv] at hstep
  | some count =>
    simp only [State.step, hadv, some.injEq] at hstep
    obtain rfl := hstep
    have hcurrent : ∀ {generation prop g}, generation ≤ s.writeGen → s.Current generation prop g →
        ({ s with writeGen := s.writeGen + count, unadvanced := none } : State).Current generation
          prop g := by
      intro generation prop g hle hg hgen _
      have hgen : generation = s.writeGen + count := hgen
      refine hg (by omega) fun count' hsome => ?_
      rw [hadv] at hsome
      obtain rfl := some.inj hsome
      omega
    refine ⟨h.columns, fun _ => rfl, fun hzero => (by cases hzero),
      Nat.le_add_right_of_le h.generation_le,
      fun prop g hget => hcurrent h.generation_le (h.entries prop g hget), h.aligned,
      fun generation prop g hreader => ?_⟩
    obtain ⟨hgen, hg⟩ := h.gathered generation prop g hreader
    exact ⟨hgen, hcurrent (hgen ▸ h.generation_le) hg⟩

lemma State.Invariant.align (h : s.Invariant) {prop : String}
    (hstep : s.step (.align prop) = some s') : s'.Invariant := by
  cases hreader : s.reader with
  | some r => simp [State.step, hreader] at hstep
  | none =>
    have hentries : ∀ prop g, (s.cache.align s.writeGen).byProp.get prop = some g →
        s.Current (s.cache.align s.writeGen).generation prop g := by
      intro prop g hget
      unfold IdGroupCodesCache.align at hget ⊢
      split
      next hne =>
        rw [if_pos hne] at hget
        cases hget
      next heq =>
        rw [if_neg heq] at hget
        exact h.entries prop g hget
    have hgen : (s.cache.align s.writeGen).generation = s.writeGen := by
      unfold IdGroupCodesCache.align
      split
      next => rfl
      next heq => exact not_not.mp heq
    simp only [State.step, hreader] at hstep
    split at hstep
    next =>
      obtain rfl := some.inj hstep
      exact ⟨h.columns, h.writing, h.counted, hgen.le, hentries,
        fun _ _ h => (by cases h), fun _ _ _ h => (by cases h)⟩
    next =>
      obtain rfl := some.inj hstep
      refine ⟨h.columns, h.writing, h.counted, hgen.le, hentries,
        fun generation prop' haligned => ?_,
        fun _ _ _ h => (by cases h)⟩
      obtain ⟨rfl, rfl⟩ := Reader.aligned.injEq .. ▸ some.inj haligned
      exact hgen.symm

/-- **File.** What was gathered is filed under the generation it was gathered for. -/
theorem State.Invariant.file (h : s.Invariant) (hstep : s.step .file = some s') :
    s'.Invariant := by
  rcases hreader : s.reader with _ | ⟨generation, prop⟩ | ⟨generation, prop, g⟩
  · simp [State.step, hreader] at hstep
  · simp [State.step, hreader] at hstep
  · simp only [State.step, hreader, some.injEq] at hstep
    obtain rfl := hstep
    obtain ⟨hgen, hg⟩ := h.gathered generation prop g hreader
    refine ⟨h.columns, h.writing, h.counted, h.generation_le, fun prop' g' hget => ?_,
      fun _ _ h => (by cases h), fun _ _ _ h => (by cases h)⟩
    replace hget : (s.cache.byProp.put prop g).get prop' = some g' := hget
    rw [Table.get_put] at hget
    split at hget
    next heq =>
      obtain rfl := some.inj hget
      rw [heq]
      exact hgen ▸ hg
    next => exact h.entries prop' g' hget

lemma State.Invariant.reader (h : s.Invariant) {e : ColumnHistory.Event} (he : e.ofReader = true)
    (hstep : (s.columns.step e).map (fun columns => { s with columns := columns }) = some s') :
    s'.Invariant := by
  obtain ⟨columns, hcolumns, rfl⟩ := map_eq_some_iff.mp hstep
  obtain ⟨hentities, hunrecorded⟩ := ColumnHistory.step_ofReader he hcolumns
  exact h.withColumns (h.columns.step hcolumns) hentities fun _ => hunrecorded

/-- **Step.** Every step keeps the invariant, if no reader gathers too early. -/
theorem State.Invariant.step (h : s.Invariant) {l : Step} (hrec : Recorded l s)
    (hstep : s.step l = some s') : s'.Invariant := by
  cases l with
  | commit changes count => exact h.commit hstep
  | advance => exact h.advance hstep
  | align prop => exact h.align hstep
  | gather reads => exact h.gather hrec hstep
  | file => exact h.file hstep
  | record =>
    cases hadv : s.unadvanced with
    | some count => simp [State.step, hadv] at hstep
    | none =>
      simp only [State.step, hadv] at hstep
      obtain ⟨columns, hcolumns, rfl⟩ := map_eq_some_iff.mp hstep
      have hinv := h.withColumns (h.columns.step hcolumns) (by
        simp only [ColumnHistory.State.step] at hcolumns
        split at hcolumns
        · cases hcolumns
        · exact some.inj hcolumns ▸ rfl) fun hne => absurd hadv hne
      rwa [hadv] at hinv
  | read reads => exact h.reader (e := .read reads) rfl hstep
  | advise reads prop => exact h.reader (e := .advise reads prop) rfl hstep
  | capture t => exact h.reader (e := .capture t) rfl hstep
  | save t reads => exact h.reader (e := .save t reads) rfl hstep

/-- In every run in which no reader gathers, from columns that exist and await no rebuild, under the
generation of a writer that has not recorded its nodes yet: whenever no write is in progress, the
codes cached under the current generation describe the nodes. -/
theorem sound_of_recorded {source : ColumnSource} (hfile : source.file = none) {steps : List Step}
    {s : State} (hmeets : Interleaving.Meets State.step Recorded steps (.opened source))
    (hrun : Interleaving.run State.step steps (.opened source) = some s) : s.Sound := by
  have hinv : s.Invariant := Interleaving.run_induction (fun hrec h hstep => h.step hrec hstep)
    hmeets (invariant_opened hfile) hrun
  intro hidle hgen prop g hget
  refine hinv.entries prop g hget hgen fun count hsome => ?_
  rw [hinv.writing hidle] at hsome
  cases hsome

/-- Whether a step meets the condition. -/
def recorded : Step → State → Bool
  | .gather _, s =>
    match s.reader with
    | some (.aligned generation _) =>
      generation ≠ s.writeGen || s.unadvanced.isSome || s.columns.unrecorded.isNone ||
        s.columns.cache.columns.isNone || s.columns.cache.pending.forceFull
    | _ => true
  | _, _ => true

lemma recorded_sound {l : Step} {s : State} (h : recorded l s = true) : Recorded l s := by
  cases l with
  | gather reads =>
    intro generation prop hreader hgen hadv hunrec
    cases hrec : s.columns.unrecorded with
    | none => exact absurd hrec hunrec
    | some changes => simpa [recorded, hreader, hgen, hadv, hrec] using h
  | _ => trivial

lemma flag_wellFormed (b : Bool) : (Json.object [("k", .bool b)]).wellFormed = true := by
  cases b <;> decide

/-- A node is written and grouped, and the next writer has recorded before the next reader
gathers. -/
def recordedGather : List Step :=
  [.commit [.put 0 ⟨.object [("k", .bool true)], flag_wellFormed true⟩] 1, .advance, .record,
    .align "k", .gather ⟨fun _ => true, true⟩, .file,
    .commit [.put 0 ⟨.object [("k", .bool false)], flag_wellFormed false⟩] 1, .advance,
    .align "k", .record,
    .gather ⟨fun _ => true, true⟩, .file]

/-- A run that meets the condition, although a writer records while a reader holds the lock. -/
theorem sound_of_recorded_gather :
    Interleaving.Meets State.step Recorded recordedGather (.opened ⟨.empty, 0, none⟩) ∧
      ∃ s, Interleaving.run State.step recordedGather (.opened ⟨.empty, 0, none⟩) = some s ∧
        s.cache.generation = s.writeGen ∧ s.Sound := by
  have hmeets : Interleaving.Meets State.step Recorded recordedGather
      (.opened ⟨.empty, 0, none⟩) := by
    refine Interleaving.meets_of_check (c := recorded) (fun _ _ => recorded_sound) ?_
    decide +kernel
  have hgen : (Interleaving.run State.step recordedGather (.opened ⟨.empty, 0, none⟩)).map
      (fun s => (s.cache.generation, s.writeGen)) = some (3, 3) := by
    decide +kernel
  obtain ⟨s, hrun, hs⟩ := map_eq_some_iff.mp hgen
  obtain ⟨hcache, hwrite⟩ := Prod.mk.injEq .. ▸ hs
  exact ⟨hmeets, s, hrun, hcache.trans hwrite.symm, sound_of_recorded rfl hmeets hrun⟩

/-- The reader gathers before the writer has recorded. -/
def earlyGather : List Step :=
  [.commit [.put 0 ⟨.object [("k", .bool true)], flag_wellFormed true⟩] 1, .advance, .record,
    .align "k", .gather ⟨fun _ => true, true⟩, .file,
    .commit [.put 0 ⟨.object [("k", .bool false)], flag_wellFormed false⟩] 1, .advance, .align "k",
    .gather ⟨fun _ => true, true⟩, .file, .record]

/-- Codes of the old value are cached under the current generation. -/
theorem unrecorded_gather :
    ∃ s, Interleaving.run State.step earlyGather (.opened ⟨.empty, 0, none⟩) = some s ∧
      ¬ s.Sound := by
  have hstale : (Interleaving.run State.step earlyGather (.opened ⟨.empty, 0, none⟩)).map
      (fun s => (s.columns.unrecorded.isNone, decide (s.cache.generation = s.writeGen),
        (s.cache.byProp.get "k").map fun g => (g.code 0, g.reps),
        (s.columns.source.entities.get 0).map fun props => props.view "k")) =
      some (true, true, some (some 0, [.bool true]), some (some (.bool false))) := by
    rfl
  obtain ⟨s, hrun, hs⟩ := map_eq_some_iff.mp hstale
  simp only [Prod.mk.injEq, isNone_iff_eq_none, decide_eq_true_eq,
    map_eq_some_iff] at hs
  obtain ⟨hidle, hgen, ⟨g, hget, hcode, hreps⟩, props, hprops, hview⟩ := hs
  refine ⟨s, hrun, fun hsound => ?_⟩
  -- the representative of the node's code is the value that was overwritten
  obtain ⟨code, hcode', hrep⟩ := (hsound hidle hgen "k" g hget).rep 0 props hprops
  rw [hcode, some.injEq] at hcode'
  rw [← hcode', hreps, hview] at hrep
  simp at hrep

end GroupCodes

end IssunDB
