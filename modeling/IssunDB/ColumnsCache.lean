import IssunDB.ColumnReads
import IssunDB.Publish
import IssunDB.Lib.Interleaving

/-!
# The columns cache

The columns are absent until the first bulk read. Writers append the ids that they touched after
they commit, and a deletion asks for a rebuild. A reader brings the columns up to date before it
serves: it patches the touched entities, or rebuilds, from the cache file where a current one
exists. An absorb that fails leaves a rebuild pending.

* `ColumnsCache.withFresh`, `ColumnsCache.withExistingMut` — bulk reads and advisory reads;
* `ColumnHistory.State.step` — writers, readers and savers of the cache file, with failing reads;
* `ColumnsCache.Tracks` — the columns differ from storage at most where a write is pending or was
  not recorded yet;
* `ColumnHistory.served_eq_built` — what is served in every history is what a build would serve.
-/

namespace IssunDB

open List Option

/-! ## Changes -/

/-- A committed change of one entity. -/
inductive EntityChange where
  | put (id : ℕ) (props : Props)
  | delete (id : ℕ)

namespace EntityChange

/-- The entity that a change is about. -/
def id : EntityChange → ℕ
  | put id _ => id
  | delete id => id

/-- Whether a change removes the entity. -/
def isDelete : EntityChange → Bool
  | put .. => false
  | delete _ => true

/-- The stored entities after a change. -/
def apply (entities : Table ℕ Props) : EntityChange → Table ℕ Props
  | put id props => entities.put id props
  | delete id => entities.erase id

end EntityChange

/-! ## The cache -/

/-- The property columns, absent until a bulk read builds them, and what they have not absorbed. -/
structure ColumnsCache where
  columns : Option PropColumns
  pending : ColumnsDelta

/-- Which reads of storage succeed during one refresh: the transactions of a patch, and the scan of
a build. -/
structure StorageReads where
  chunk : ℕ → Bool
  scan : Bool

abbrev ColumnsFile := Option (ℕ × PropColumns)

/-- What a refresh reads: the entities, the persisted generation and the cache file. -/
structure ColumnSource where
  entities : Table ℕ Props
  commitGen : ℕ
  file : ColumnsFile

namespace ColumnSource

def loadColumns (source : ColumnSource) : Option PropColumns :=
  match source.file with
  | some (stamp, cols) => if stamp = source.commitGen then some cols else none
  | none => none

/-- The columns of a current cache file, else those of a scan. -/
def buildOrLoad (source : ColumnSource) (reads : StorageReads) : Except Error PropColumns :=
  match source.loadColumns with
  | some cols => .ok cols
  | none => if reads.scan then .ok (.build source.entities) else .error .storage

/-- Save columns under a generation, unless the file claims that generation already. The bounds are
not part of the file. -/
def saveColumns (commitGen : ℕ) (cols : PropColumns) (source : ColumnSource) : ColumnSource :=
  if source.file.map Prod.fst = some commitGen then source
  else { source with file := some (commitGen, { cols with bounds := .empty }) }

end ColumnSource

namespace ColumnsCache

/-- The cache of a graph that was just opened. -/
def empty : ColumnsCache := ⟨none, .empty⟩

/-- What a writer records after its commit: a deletion asks for a rebuild. -/
def record (changes : List EntityChange) (c : ColumnsCache) : ColumnsCache :=
  if changes.any EntityChange.isDelete then { c with pending := c.pending.recordForceFull }
  else { c with pending := c.pending.recordTouchedMany (changes.map EntityChange.id) }

/-- A failed absorb leaves a rebuild pending. -/
def recoverIfFailed {α : Type} (outcome : Except Error α) (c : ColumnsCache) :
    Except Error α × ColumnsCache :=
  match outcome with
  | .ok a => (.ok a, c)
  | .error e => (.error e, { c with pending := c.pending.recordForceFull })

/-- Take what is pending, and patch the columns or build them. -/
def absorb (source : ColumnSource) (reads : StorageReads) (c : ColumnsCache) :
    Except Error PropColumns × ColumnsCache :=
  let delta := c.pending
  let build := match source.buildOrLoad reads with
    | .ok cols => recoverIfFailed (.ok cols) { columns := some cols, pending := .empty }
    | .error e => recoverIfFailed (.error e) { c with pending := .empty }
  match c.columns with
  | some cols =>
    if delta.forceFull then build
    else
      let (outcome, cols) := cols.patch source.entities reads.chunk delta.touched
      recoverIfFailed (outcome.map fun _ => cols) { columns := some cols, pending := .empty }
  | none => build

/-- The columns that `with_fresh` serves: those that are there if nothing is pending, else those of
an absorb, after which the second round of its loop finds nothing pending. -/
def withFresh (source : ColumnSource) (reads : StorageReads) (c : ColumnsCache) :
    Except Error PropColumns × ColumnsCache :=
  match c.columns with
  | some cols => if c.pending = .empty then (.ok cols, c) else c.absorb source reads
  | none => c.absorb source reads

/-- Run `f` on columns that are brought up to date. Absent columns are not built, and columns that
need a rebuild are dropped. -/
def withExistingMut {α : Type} (source : ColumnSource) (reads : StorageReads)
    (f : PropColumns → α × PropColumns) (c : ColumnsCache) :
    Except Error (Option α) × ColumnsCache :=
  match c.columns with
  | none => (.ok none, c)
  | some _ =>
    if c.pending.forceFull then (.ok none, { columns := none, pending := .empty })
    else
      match c.withFresh source reads with
      | (.error e, c) => (.error e, c)
      | (.ok cols, c) =>
        let (a, cols) := f cols
        (.ok (some a), { c with columns := some cols })

end ColumnsCache

/-! ## What the columns track -/

namespace EntityChange

lemma get_foldl_apply {changes : List EntityChange} {n : ℕ}
    (h : n ∉ changes.map EntityChange.id) (entities : Table ℕ Props) :
    (changes.foldl apply entities).get n = entities.get n := by
  induction changes generalizing entities with
  | nil => rfl
  | cons change changes ih =>
    rw [map_cons, mem_cons, not_or] at h
    rw [foldl_cons, ih h.2]
    cases change with
    | put id props => exact Table.get_put_of_ne _ _ h.1
    | delete id => exact Table.get_erase_of_ne _ h.1

/-- After changes that do not delete it, an entity that was there or was written is there. -/
theorem isSome_foldl_apply {changes : List EntityChange} {n : ℕ} {entities : Table ℕ Props}
    (h : (entities.get n).isSome ∨ n ∈ changes.map EntityChange.id) :
    ((changes.foldl apply entities).get n).isSome ∨ delete n ∈ changes := by
  induction changes generalizing entities with
  | nil => simpa using h
  | cons change changes ih =>
    rw [foldl_cons]
    by_cases hdelete : change = delete n
    · exact .inr (mem_cons.mpr (.inl hdelete.symm))
    · have hnext : ((apply entities change).get n).isSome ∨ n ∈ changes.map EntityChange.id := by
        rw [map_cons, mem_cons] at h
        cases change with
        | put id props =>
          by_cases heq : n = id
          · exact .inl (by simp [apply, heq])
          · have hrest := h.imp_right fun h => h.resolve_left heq
            exact hrest.imp_left fun hsome => Table.isSome_get_put hsome
        | delete id =>
          have heq : n ≠ id := fun heq => hdelete (heq ▸ rfl)
          have hrest := h.imp_right fun h => h.resolve_left heq
          exact hrest.imp_left fun hsome => by
            rwa [apply, Table.get_erase_of_ne _ heq]
      exact (ih hnext).imp_right fun h => mem_cons_of_mem _ h

end EntityChange

/-- Columns hold what is stored of every entity but some. -/
structure PropColumns.Holds (entities : Table ℕ Props) (except : List ℕ) (cols : PropColumns) :
    Prop where
  valid : cols.Valid
  bounds : cols.BoundsCurrent
  view : ∀ id ∉ except, cols.view id = (entities.get id).map Props.view

namespace PropColumns

variable {entities : Table ℕ Props}

lemma Holds.mono {except except' : List ℕ} {cols : PropColumns} (h : cols.Holds entities except)
    (hsub : except ⊆ except') : cols.Holds entities except' :=
  ⟨h.valid, h.bounds, fun id hid => h.view id fun hmem => hid (hsub hmem)⟩

lemma boundsCurrent_of_empty {cols : PropColumns} (h : cols.bounds = .empty) :
    cols.BoundsCurrent := by
  intro prop bounds hget
  rw [h] at hget
  cases hget

lemma holds_build (entities : Table ℕ Props) : (build entities).Holds entities [] :=
  ⟨(build_spec entities).1, boundsCurrent_of_empty rfl, fun id _ => (build_spec entities).2 id⟩

lemma bounds_patchFrom {reads : ℕ → Bool} {touched : List ℕ} {i : ℕ} {p : PropColumns} :
    (patchFrom entities reads i touched p).2.bounds = p.bounds := by
  induction touched generalizing i p with
  | nil => rfl
  | cons id touched ih =>
    unfold patchFrom
    split
    · rfl
    · refine ih.trans ?_
      split
      next props _ =>
        unfold patchEntity
        cases p.idToDense.get id with
        | none => rfl
        | some dense => rfl
      next => rfl

/-- A patch that succeeds leaves no entity out that was touched and exists. -/
theorem Holds.patch {reads : ℕ → Bool} {touched except : List ℕ} {cols cols' : PropColumns}
    (h : cols.Holds entities (touched ++ except))
    (hexists : ∀ id ∈ touched, id ∉ except → (entities.get id).isSome)
    (hpatch : cols.patch entities reads touched = (.ok (), cols')) :
    cols'.Holds entities except := by
  obtain ⟨hvalid, hview⟩ := h.valid.patch hpatch
  refine ⟨hvalid, ?_, fun id hid => ?_⟩
  · cases touched with
    | nil =>
      obtain rfl := congrArg Prod.snd hpatch
      exact h.bounds
    | cons id touched =>
      have hbounds : (cols.patch entities reads (id :: touched)).2.bounds = .empty :=
        bounds_patchFrom
      rw [hpatch] at hbounds
      exact boundsCurrent_of_empty hbounds
  · rw [hview id]
    by_cases hmem : id ∈ touched
    · rw [if_pos ⟨hmem, hexists id hmem hid⟩]
    · rw [if_neg fun hcond => hmem hcond.1]
      exact h.view id (by simp [hmem, hid])

end PropColumns

namespace ColumnsCache

/-- The columns hold what is stored of every entity that is neither pending nor about to be
recorded. An entity that is pending exists, unless its deletion is about to be recorded. -/
structure Tracks (entities : Table ℕ Props) (unrecorded : List EntityChange) (c : ColumnsCache) :
    Prop where
  holds : ∀ cols, c.columns = some cols → c.pending.forceFull = false →
    cols.Holds entities (c.pending.touched ++ unrecorded.map EntityChange.id)
  exists_pending : ∀ id ∈ c.pending.touched ++ unrecorded.map EntityChange.id,
    (entities.get id).isSome ∨ .delete id ∈ unrecorded

/-- The cache file claims no later generation than storage has, and if it claims that one it holds
everything. -/
def FileCurrent (source : ColumnSource) : Prop :=
  ∀ stamp cols, source.file = some (stamp, cols) →
    stamp ≤ source.commitGen ∧ (stamp = source.commitGen → cols.Holds source.entities [])

variable {source : ColumnSource} {unrecorded changes : List EntityChange} {reads : StorageReads}
  {c c' : ColumnsCache} {cols : PropColumns}

lemma tracks_empty (hexists : ∀ id ∈ unrecorded.map EntityChange.id,
      (source.entities.get id).isSome ∨ .delete id ∈ unrecorded) :
    empty.Tracks source.entities unrecorded :=
  ⟨fun _ h => (by cases h), hexists⟩

variable {entities : Table ℕ Props}

/-- **Commit.** The entities that a transaction changes are about to be recorded. -/
theorem Tracks.commit (h : c.Tracks entities []) (changes : List EntityChange) :
    c.Tracks (changes.foldl EntityChange.apply entities) changes where
  holds cols hcols hforce := by
    have hold := h.holds cols hcols hforce
    refine ⟨hold.valid, hold.bounds, fun id hid => ?_⟩
    rw [mem_append, not_or] at hid
    rw [EntityChange.get_foldl_apply hid.2]
    exact hold.view id (by simpa using hid.1)
  exists_pending id hid := by
    apply EntityChange.isSome_foldl_apply
    rcases mem_append.mp hid with hpending | hchanged
    · exact .inl <| (h.exists_pending id (by simpa using hpending)).resolve_right not_mem_nil
    · exact .inr hchanged

/-- **Record.** What was about to be recorded is pending. -/
theorem Tracks.record (h : c.Tracks entities changes) :
    (c.record changes).Tracks entities [] := by
  unfold ColumnsCache.record
  split
  · exact ⟨fun _ _ hforce => (by cases hforce), fun id hid => (by cases hid)⟩
  next hdelete =>
    -- without a deletion every entity that is pending exists
    have hexists : ∀ id ∈ c.pending.touched ++ changes.map EntityChange.id,
        (entities.get id).isSome ∨ EntityChange.delete id ∈ [] := fun id hid =>
      .inl <| (h.exists_pending id hid).resolve_right fun hmem =>
        hdelete (List.any_eq_true.mpr ⟨_, hmem, rfl⟩)
    cases hforce : c.pending.forceFull with
    | true =>
      refine ⟨fun cols _ hnot => ?_, fun id hid => ?_⟩
      · simp [ColumnsDelta.recordTouchedMany, hforce] at hnot
      · exact hexists id (by
          simp only [ColumnsDelta.recordTouchedMany, hforce, if_true, map_nil,
            append_nil] at hid
          exact mem_append_left _ hid)
    | false =>
      have hpending : c.pending.recordTouchedMany (changes.map EntityChange.id) =
          { c.pending with touched := c.pending.touched ++ changes.map EntityChange.id } := by
        simp [ColumnsDelta.recordTouchedMany, hforce]
      refine ⟨fun cols hcols _ => ?_, fun id hid => hexists id ?_⟩
      · show cols.Holds entities (_ ++ [])
        rw [hpending, append_nil]
        exact h.holds cols hcols hforce
      · rwa [hpending, map_nil, append_nil] at hid

/-- A rebuild is pending, so that the columns that are there do not matter. -/
theorem Tracks.recordForceFull (h : c.Tracks entities unrecorded) (columns : Option PropColumns)
    (delta : ColumnsDelta) :
    Tracks entities unrecorded ⟨columns, delta.recordForceFull⟩ where
  holds _ _ hforce := by cases hforce
  exists_pending id hid := h.exists_pending id (mem_append_right _ hid)

/-- Columns that hold everything recorded, with nothing pending. -/
theorem Tracks.fresh {entities : Table ℕ Props} (h : c.Tracks entities unrecorded)
    (hcols : cols.Holds entities (unrecorded.map EntityChange.id)) :
    Tracks entities unrecorded ⟨some cols, .empty⟩ where
  holds _ hsome _ := some.inj hsome ▸ hcols
  exists_pending id hid := h.exists_pending id (mem_append_right _ hid)

lemma holds_buildOrLoad (hfile : FileCurrent source)
    (h : source.buildOrLoad reads = .ok cols) : cols.Holds source.entities [] := by
  unfold ColumnSource.buildOrLoad ColumnSource.loadColumns at h
  split at h
  next loaded hload =>
    obtain rfl := Except.ok.inj h
    split at hload
    next stamp loaded' hsome =>
      split at hload
      next hstamp =>
        obtain rfl := some.inj hload
        exact (hfile stamp _ hsome).2 hstamp
      next => cases hload
    next => cases hload
  next =>
    split at h
    · exact Except.ok.inj h ▸ PropColumns.holds_build _
    · cases h

/-- **Absorb.** What a refresh serves holds everything that was recorded, and is what it leaves in
the cache. A refresh that fails leaves a rebuild pending. -/
theorem Tracks.absorb (hfile : FileCurrent source) (h : c.Tracks source.entities unrecorded) :
    (∀ cols, (c.absorb source reads).1 = .ok cols →
      cols.Holds source.entities (unrecorded.map EntityChange.id) ∧
        (c.absorb source reads).2 = ⟨some cols, .empty⟩) ∧
    (c.absorb source reads).2.Tracks source.entities unrecorded := by
  have hbuild : ∀ {outcome : Except Error PropColumns × ColumnsCache},
      outcome = (match source.buildOrLoad reads with
        | .ok cols => recoverIfFailed (.ok cols) { columns := some cols, pending := .empty }
        | .error e => recoverIfFailed (.error e) { c with pending := .empty }) →
      (∀ cols, outcome.1 = .ok cols → cols.Holds source.entities (unrecorded.map EntityChange.id) ∧
        outcome.2 = ⟨some cols, .empty⟩) ∧ outcome.2.Tracks source.entities unrecorded := by
    rintro _ rfl
    cases hload : source.buildOrLoad reads with
    | error e => exact ⟨fun cols hok => (by cases hok), h.recordForceFull _ _⟩
    | ok cols =>
      have hholds : cols.Holds source.entities (unrecorded.map EntityChange.id) :=
        (holds_buildOrLoad hfile hload).mono (nil_subset _)
      exact ⟨fun cols' hok => ⟨Except.ok.inj hok ▸ hholds, Except.ok.inj hok ▸ rfl⟩,
        h.fresh hholds⟩
  unfold ColumnsCache.absorb
  cases hcols : c.columns with
  | none => exact hbuild (by rw [hcols])
  | some cols =>
    dsimp only
    split
    · exact hbuild (by rw [hcols])
    next hforce =>
      rcases hpatch : cols.patch source.entities reads.chunk c.pending.touched with ⟨outcome, cols'⟩
      cases outcome with
      | error e => exact ⟨fun cols hok => (by cases hok), h.recordForceFull _ _⟩
      | ok u =>
        have hholds : cols'.Holds source.entities (unrecorded.map EntityChange.id) := by
          refine (h.holds cols hcols (Bool.not_eq_true _ ▸ hforce)).patch ?_ hpatch
          intro id hid hnot
          -- an entity whose deletion is not recorded yet is left out
          refine (h.exists_pending id (mem_append_left _ hid)).resolve_right fun hdelete => ?_
          exact hnot (List.mem_map.mpr ⟨_, hdelete, rfl⟩)
        exact ⟨fun cols'' hok => ⟨Except.ok.inj hok ▸ hholds, Except.ok.inj hok ▸ rfl⟩,
          h.fresh hholds⟩

/-- Columns that are absent or await a rebuild are built from storage, whatever was recorded. -/
theorem holds_withFresh_of_rebuild (hfile : FileCurrent source)
    (hrebuild : c.columns = none ∨ c.pending.forceFull = true)
    (h : (c.withFresh source reads).1 = .ok cols) : cols.Holds source.entities [] := by
  have hbuild : ∀ c' : ColumnsCache, (match source.buildOrLoad reads with
      | .ok cols => recoverIfFailed (.ok cols) { columns := some cols, pending := .empty }
      | .error e => recoverIfFailed (.error e) c').1 = .ok cols →
      cols.Holds source.entities [] := by
    intro c' hok
    cases hload : source.buildOrLoad reads with
    | error e =>
      rw [hload] at hok
      cases hok
    | ok cols' =>
      rw [hload] at hok
      exact Except.ok.inj hok ▸ holds_buildOrLoad hfile hload
  unfold ColumnsCache.withFresh at h
  cases hcols : c.columns with
  | none =>
    simp only [hcols, ColumnsCache.absorb] at h
    exact hbuild _ h
  | some cols' =>
    have hforce := hrebuild.resolve_left (by simp [hcols])
    have hpending : c.pending ≠ .empty := fun heq => by
      rw [heq] at hforce
      cases hforce
    simp only [hcols, hpending, if_false, ColumnsCache.absorb, hforce, if_true] at h
    exact hbuild _ h

variable (reads) in
/-- **Bulk read.** The columns that are served hold everything that was recorded. -/
theorem Tracks.withFresh (hfile : FileCurrent source) (h : c.Tracks source.entities unrecorded) :
    (∀ cols, (c.withFresh source reads).1 = .ok cols →
      cols.Holds source.entities (unrecorded.map EntityChange.id) ∧
        (c.withFresh source reads).2 = ⟨some cols, .empty⟩) ∧
    (c.withFresh source reads).2.Tracks source.entities unrecorded := by
  unfold ColumnsCache.withFresh
  split
  next cols hcols =>
    split
    next hpending =>
      have hholds := h.holds cols hcols (by rw [hpending]; rfl)
      rw [hpending] at hholds
      refine ⟨fun cols' hok => ⟨Except.ok.inj hok ▸ hholds, ?_⟩, h⟩
      rw [← Except.ok.inj hok, ← hcols, ← hpending]
    next => exact h.absorb hfile
  next => exact h.absorb hfile

variable (reads) in
/-- **Advisory read.** The function runs on columns that hold everything that was recorded, and what
it makes of them stays in the cache. -/
theorem Tracks.withExistingMut {α : Type} (hfile : FileCurrent source)
    (h : c.Tracks source.entities unrecorded) (f : PropColumns → α × PropColumns) :
    (∀ a, (c.withExistingMut source reads f).1 = .ok (some a) → ∃ cols, a = (f cols).1 ∧
      cols.Holds source.entities (unrecorded.map EntityChange.id) ∧
        (c.withExistingMut source reads f).2 = ⟨some (f cols).2, .empty⟩) ∧
    ((∀ a, (c.withExistingMut source reads f).1 ≠ .ok (some a)) →
      (c.withExistingMut source reads f).2.Tracks source.entities unrecorded) := by
  unfold ColumnsCache.withExistingMut
  split
  next => exact ⟨fun a hok => (by cases hok), fun _ => h⟩
  next =>
    split
    next =>
      refine ⟨fun a hok => (by cases hok), fun _ => ⟨fun _ hcols => (by cases hcols), ?_⟩⟩
      exact fun id hid => h.exists_pending id (mem_append_right _ hid)
    next =>
      obtain ⟨hserved, htracks⟩ := h.withFresh reads hfile
      rcases hfresh : c.withFresh source reads with ⟨outcome, c'⟩
      rw [hfresh] at hserved htracks
      cases outcome with
      | error e => exact ⟨fun a hok => (by cases hok), fun _ => htracks⟩
      | ok cols =>
        obtain ⟨hholds, hc'⟩ := hserved cols rfl
        obtain rfl : c' = ⟨some cols, .empty⟩ := hc'
        refine ⟨fun a hok => ⟨cols, ?_, hholds, rfl⟩, fun hnot => absurd rfl (hnot (f cols).1)⟩
        exact (some.inj (Except.ok.inj hok)).symm

end ColumnsCache

/-! ## Histories -/

namespace ColumnHistory

/-- Storage with the cache file, the cache of the running process, the changes of a writer that has
committed and not recorded, and the generations that the savers of the cache file captured. -/
structure State where
  source : ColumnSource
  cache : ColumnsCache
  unrecorded : Option (List EntityChange)
  captured : Threads (Option ℕ)

def State.opened (source : ColumnSource) : State := ⟨source, .empty, none, fun _ => none⟩

/-- What happens to the columns of one kind of entity. -/
inductive Event where
  /-- A writer commits `count` mutations, of which `changes` are of this kind of entity; it holds
  the write lock until it has recorded. -/
  | commit (changes : List EntityChange) (count : ℕ)
  /-- The writer records what its transaction touched. -/
  | record
  /-- A bulk read. -/
  | read (reads : StorageReads)
  /-- An advisory read of the bounds of a property. -/
  | advise (reads : StorageReads) (prop : String)
  /-- A saver reads the persisted generation under the write lock. -/
  | capture (t : ℕ)
  /-- The saver brings the columns up to date and saves them under the generation it captured. -/
  | save (t : ℕ) (reads : StorageReads)
  /-- The process ends at any point, and the graph is opened again. -/
  | reopen

/-- One event, if it can happen. -/
def State.step : Event → State → Option State
  | .commit changes count, s =>
    match s.unrecorded with
    | some _ => none
    | none =>
      -- every change is a mutation
      if count < changes.length then none
      else some { s with
        source := { s.source with
          entities := changes.foldl EntityChange.apply s.source.entities
          commitGen := if count = 0 then s.source.commitGen else s.source.commitGen + 1 }
        unrecorded := some changes }
  | .record, s =>
    match s.unrecorded with
    | none => none
    | some changes => some { s with cache := s.cache.record changes, unrecorded := none }
  | .read reads, s => some { s with cache := (s.cache.withFresh s.source reads).2 }
  | .advise reads prop, s =>
    some { s with cache := (s.cache.withExistingMut s.source reads (PropColumns.minMax prop)).2 }
  | .capture t, s =>
    match s.unrecorded with
    | some _ => none
    | none => some { s with captured := s.captured.move t (some s.source.commitGen) }
  | .save t reads, s =>
    match s.captured t with
    | none => none
    | some commitGen =>
      let s := { s with captured := s.captured.move t none }
      match s.cache.withFresh s.source reads with
      | (.error _, cache) => some { s with cache := cache }
      | (.ok cols, cache) =>
        some { s with cache := cache, source := s.source.saveColumns commitGen cols }
  | .reopen, s => some (.opened s.source)

def Event.ofReader : Event → Bool
  | .read _ | .advise .. | .capture _ | .save .. => true
  | .commit .. | .record | .reopen => false

lemma step_ofReader {e : Event} {s s' : State} (he : e.ofReader = true)
    (hstep : s.step e = some s') :
    s'.source.entities = s.source.entities ∧ s'.unrecorded = s.unrecorded := by
  cases e with
  | commit changes count => cases he
  | record => cases he
  | reopen => cases he
  | read reads => exact some.inj hstep ▸ ⟨rfl, rfl⟩
  | advise reads prop => exact some.inj hstep ▸ ⟨rfl, rfl⟩
  | capture t =>
    cases hrec : s.unrecorded with
    | some changes => simp [State.step, hrec] at hstep
    | none =>
      simp only [State.step, hrec] at hstep
      exact some.inj hstep ▸ ⟨rfl, rfl⟩
  | save t reads =>
    simp only [State.step] at hstep
    split at hstep
    · cases hstep
    · split at hstep
      · exact some.inj hstep ▸ ⟨rfl, rfl⟩
      · obtain rfl := some.inj hstep
        unfold ColumnSource.saveColumns
        split <;> exact ⟨rfl, rfl⟩

/-- What holds after every history. -/
structure State.Invariant (s : State) : Prop where
  file : ColumnsCache.FileCurrent s.source
  tracks : s.cache.Tracks s.source.entities (s.unrecorded.getD [])
  captured : ∀ t commitGen, s.captured t = some commitGen → commitGen ≤ s.source.commitGen ∧
    (commitGen = s.source.commitGen → s.unrecorded.getD [] = [])

lemma invariant_opened {source : ColumnSource} (hfile : ColumnsCache.FileCurrent source) :
    (State.opened source).Invariant :=
  ⟨hfile, ColumnsCache.tracks_empty fun _ hid => (by cases hid), fun _ _ h => (by cases h)⟩

variable {s s' : State}

lemma State.Invariant.commit (h : s.Invariant) {changes : List EntityChange} {count : ℕ}
    (hstep : s.step (.commit changes count) = some s') : s'.Invariant := by
  cases hrec : s.unrecorded with
  | some changes' => simp [State.step, hrec] at hstep
  | none =>
    simp only [State.step, hrec] at hstep
    split at hstep
    · cases hstep
    next hcount =>
      obtain rfl := some.inj hstep
      have htracks := h.tracks
      rw [hrec] at htracks
      cases count with
      | zero =>
        -- a transaction without mutations
        obtain rfl : changes = [] := length_eq_zero_iff.mp (by omega)
        exact ⟨h.file, htracks, fun t commitGen hcap =>
          ⟨(h.captured t commitGen hcap).1, fun _ => rfl⟩⟩
      | succ count =>
        refine ⟨fun stamp cols hfile => ?_, htracks.commit _, fun t commitGen hcap => ?_⟩
        · have hle := (h.file stamp cols hfile).1
          exact ⟨Nat.le_succ_of_le hle, fun heq => absurd hle (by simp [heq])⟩
        · have hle := (h.captured t commitGen hcap).1
          exact ⟨Nat.le_succ_of_le hle, fun heq => absurd hle (by simp [heq])⟩

/-- The cache may change as long as it tracks what it tracked. -/
theorem State.Invariant.withCache (h : s.Invariant) {cache : ColumnsCache}
    (hcache : cache.Tracks s.source.entities (s.unrecorded.getD [])) :
    ({ s with cache := cache } : State).Invariant :=
  ⟨h.file, hcache, h.captured⟩

/-- **Save.** Columns that were served under a captured generation hold everything, if storage still
has that generation. -/
theorem State.Invariant.save (h : s.Invariant) {t : ℕ} {reads : StorageReads}
    (hstep : s.step (.save t reads) = some s') : s'.Invariant := by
  cases hcap : s.captured t with
  | none => simp [State.step, hcap] at hstep
  | some commitGen =>
    obtain ⟨hserved, htracks⟩ := h.tracks.withFresh reads h.file
    have hmoved : ∀ t' gen, s.captured.move t none t' = some gen → s.captured t' = some gen := by
      intro t' gen hmove
      by_cases heq : t' = t
      · subst heq
        rw [Threads.move_self] at hmove
        cases hmove
      · rwa [Threads.move_of_ne heq] at hmove
    have hcaptured := fun t' gen hmove => h.captured t' gen (hmoved t' gen hmove)
    rcases hfresh : s.cache.withFresh s.source reads with ⟨outcome, cache⟩
    rw [hfresh] at hserved htracks
    simp only [State.step, hcap, hfresh] at hstep
    cases outcome with
    | error e =>
      obtain rfl := some.inj hstep
      exact ⟨h.file, htracks, hcaptured⟩
    | ok cols =>
      obtain rfl := some.inj hstep
      obtain ⟨hholds, -⟩ := hserved cols rfl
      unfold ColumnSource.saveColumns
      split
      · exact ⟨h.file, htracks, hcaptured⟩
      · refine ⟨fun stamp cols' hfile => ?_, htracks, hcaptured⟩
        obtain ⟨rfl, rfl⟩ := Prod.mk.injEq .. ▸ some.inj hfile
        obtain ⟨hle, hsettled⟩ := h.captured t commitGen hcap
        refine ⟨hle, fun heq => ⟨⟨hholds.valid.indexes, hholds.valid.cols⟩,
          PropColumns.boundsCurrent_of_empty rfl, fun id _ => ?_⟩⟩
        exact hholds.view id (by simp [hsettled heq])

/-- **Step.** Every event keeps the invariant. -/
theorem State.Invariant.step (h : s.Invariant) {e : Event} (hstep : s.step e = some s') :
    s'.Invariant := by
  cases e with
  | commit changes count => exact h.commit hstep
  | save t reads => exact h.save hstep
  | reopen => exact some.inj hstep ▸ invariant_opened h.file
  | read reads =>
    obtain rfl := some.inj hstep
    exact h.withCache (h.tracks.withFresh _ h.file).2
  | advise reads prop =>
    obtain rfl := some.inj hstep
    refine h.withCache ?_
    obtain ⟨hserved, htracks⟩ :=
      h.tracks.withExistingMut reads h.file (PropColumns.minMax prop)
    by_cases hok : ∃ a, (s.cache.withExistingMut s.source reads (PropColumns.minMax prop)).1 =
        .ok (some a)
    · obtain ⟨a, ha⟩ := hok
      obtain ⟨cols, -, hholds, hcache⟩ := hserved a ha
      obtain ⟨-, hbounds, hsame⟩ := PropColumns.minMax_spec hholds.bounds prop
      rw [hcache]
      refine h.tracks.fresh ⟨?_, hbounds, ?_⟩
      · rw [hsame]
        exact ⟨hholds.valid.indexes, hholds.valid.cols⟩
      · rw [hsame]
        exact hholds.view
    · exact htracks (not_exists.mp hok)
  | record =>
    cases hrec : s.unrecorded with
    | none => simp [State.step, hrec] at hstep
    | some changes =>
      simp only [State.step, hrec, some.injEq] at hstep
      obtain rfl := hstep
      have htracks := h.tracks
      rw [hrec] at htracks
      refine ⟨h.file, htracks.record, fun t commitGen hcap => ⟨(h.captured t commitGen hcap).1, ?_⟩⟩
      exact fun _ => rfl
  | capture t =>
    cases hrec : s.unrecorded with
    | some changes => simp [State.step, hrec] at hstep
    | none =>
      simp only [State.step, hrec, some.injEq] at hstep
      obtain rfl := hstep
      refine ⟨h.file, hrec ▸ h.tracks, Threads.forall_move
        (Q := fun _ p => ∀ gen, p = some gen → gen ≤ s.source.commitGen ∧
          (gen = s.source.commitGen → [] = [])) ?_ ?_⟩
      · intro gen hgen
        exact ⟨(some.inj hgen).ge, fun _ => rfl⟩
      · intro t' _ gen hgen
        exact ⟨(h.captured t' gen hgen).1, fun _ => rfl⟩

/-- The bounds that columns give hold every value of others; without bounds there is no value, or
the column is of mixed kinds. -/
def Bounds (cols : PropColumns) (value : String → ℕ → Option Json) : Prop :=
  ∀ prop, (∀ lo hi, (cols.minMax prop).1 = some (lo, hi) →
      ∀ id v, value prop id = some v → lo.le v ∧ v.le hi) ∧
    ((cols.minMax prop).1 = none →
      (∃ slots, cols.cols.get prop = some (.json slots)) ∨ ∀ id, value prop id = none)

variable {cols : PropColumns}

lemma view_of_holds {entities : Table ℕ Props} (h : cols.Holds entities []) :
    cols.view = (PropColumns.build entities).view := by
  funext id
  rw [h.view id not_mem_nil, (PropColumns.build_spec entities).2]

lemma bounds_of_holds {entities : Table ℕ Props} (h : cols.Holds entities []) :
    Bounds cols (PropColumns.build entities).value := by
  have hvalue : (PropColumns.build entities).value = cols.value := by
    unfold PropColumns.value
    rw [view_of_holds h]
  intro prop
  rw [hvalue, (PropColumns.minMax_spec h.bounds prop).1]
  cases hcol : cols.cols.get prop with
  | none =>
    refine ⟨fun _ _ hbounds => (by cases hbounds), fun _ => .inr fun id => ?_⟩
    rcases hdense : cols.idToDense.get id with _ | dense <;>
      simp [PropColumns.value, PropColumns.view, hdense, hcol]
  | some c =>
    obtain ⟨hsome, hnone⟩ := c.columnBounds_spec
    refine ⟨fun lo hi hbounds id v hv => ?_, fun hbounds => ?_⟩
    · obtain ⟨values, hview, hprop⟩ := bind_eq_some_iff.mp hv
      obtain ⟨dense, -, rfl⟩ := map_eq_some_iff.mp hview
      dsimp only at hprop
      rw [hcol] at hprop
      exact hsome lo hi hbounds dense v hprop
    · rcases hnone hbounds with ⟨slots, hslots⟩ | hnull
      · exact .inl ⟨slots, by rw [hslots]⟩
      · refine .inr fun id => ?_
        rcases hdense : cols.idToDense.get id with _ | dense <;>
          simp [PropColumns.value, PropColumns.view, hdense, hcol, hnull]

/-- Columns that are served give what a build over the current storage would give: of every entity
but those that a writer has committed and not recorded, and outside of that window of every read. -/
structure State.Serves (s : State) (cols : PropColumns) : Prop where
  view : ∀ id ∉ (s.unrecorded.getD []).map EntityChange.id,
    cols.view id = (PropColumns.build s.source.entities).view id
  servesAs : s.unrecorded = none → cols.ServesAs (.build s.source.entities)
  bounds : s.unrecorded = none → Bounds cols (PropColumns.build s.source.entities).value

lemma serves_of_holds
    (h : cols.Holds s.source.entities ((s.unrecorded.getD []).map EntityChange.id)) :
    s.Serves cols := by
  have hall : s.unrecorded = none → cols.Holds s.source.entities [] := fun hidle => by
    rwa [hidle] at h
  refine ⟨fun id hid => ?_, fun hidle => ?_, fun hidle => bounds_of_holds (hall hidle)⟩
  · rw [h.view id hid, (PropColumns.build_spec _).2]
  · exact h.valid.servesAs (PropColumns.build_spec _).1 (view_of_holds (hall hidle))

/-- After any history of commits, records, bulk and advisory reads, savings of the cache file and
restarts, with storage reads that fail at any point, what a read serves is what a build over the
current storage would serve. -/
theorem served_eq_built {source : ColumnSource} (hfile : source.file = none) {events : List Event}
    {s : State} (hrun : Interleaving.run State.step events (.opened source) = some s)
    (reads : StorageReads) :
    (∀ cols, (s.cache.withFresh s.source reads).1 = .ok cols → s.Serves cols) ∧
    ∀ (α : Type) (f : PropColumns → α × PropColumns) (a : α),
      (s.cache.withExistingMut s.source reads f).1 = .ok (some a) →
      ∃ cols, a = (f cols).1 ∧ s.Serves cols := by
  have hinv : s.Invariant := by
    refine Interleaving.run_induction (C := fun _ _ => True) (fun _ h hstep => h.step hstep)
      (Interleaving.meets_of_forall (fun _ _ => trivial) _ _) (invariant_opened ?_) hrun
    intro stamp cols hsome
    rw [hfile] at hsome
    cases hsome
  constructor
  · intro cols hok
    exact serves_of_holds ((hinv.tracks.withFresh _ hinv.file).1 cols hok).1
  · intro α f a hok
    obtain ⟨cols, ha, hholds, -⟩ := (hinv.tracks.withExistingMut _ hinv.file f).1 a hok
    exact ⟨cols, ha, serves_of_holds hholds⟩

/-- A node is written, read and written again, and the next read fails. -/
def failedRefresh : List Event :=
  [.commit [.put 3 ⟨.object [("k", .bool true)], by decide⟩] 1, .record,
    .read ⟨fun _ => true, true⟩,
    .commit [.put 3 ⟨.object [("k", .bool false)], by decide⟩] 1, .record,
    .read ⟨fun _ => false, true⟩]

/-- After a read that failed, the next one serves what is stored. -/
theorem served_eq_built_failed :
    ∃ s, Interleaving.run State.step failedRefresh (.opened ⟨.empty, 0, none⟩) = some s ∧
      s.unrecorded = none ∧ s.cache.pending.forceFull = true ∧
      ∀ cols, (s.cache.withFresh s.source ⟨fun _ => true, true⟩).1 = .ok cols → s.Serves cols := by
  have hrun : (Interleaving.run State.step failedRefresh (.opened ⟨.empty, 0, none⟩)).map
      (fun s => (s.unrecorded.isNone, s.cache.pending.forceFull)) = some (true, true) := by
    decide +kernel
  obtain ⟨s, hs, hstate⟩ := map_eq_some_iff.mp hrun
  obtain ⟨hidle, hforce⟩ := Prod.mk.injEq .. ▸ hstate
  exact ⟨s, hs, isNone_iff_eq_none.mp hidle, hforce, (served_eq_built rfl hs _).1⟩

end ColumnHistory

end IssunDB
