import IssunDB.Columns

/-!
# Column sets

The columns of all entities with their dense slots, built by one scan of the entities and patched
by reading some of them again.

* `PropColumns.build`, `PropColumns.patch` — the scan and the patch;
* `PropColumns.view` — what a column set holds of an entity;
* `PropColumns.build_spec`, `PropColumns.Valid.patch` — what build and patch hold.
-/

namespace IssunDB

open List Option

/-! ## Column sets -/

/-- The columns of all entities, with the bounds that were asked for. -/
structure PropColumns where
  idToDense : DenseIndex
  denseToId : List ℕ
  cols : Table String PropColumn
  bounds : Table String (Option (Json × Json))

namespace PropColumn

/-- A builder that has met no value yet. -/
def untyped : PropColumn → Bool
  | json slots => slots.all Option.isNone
  | _ => false

/-- Nulls, in the representation that a kind of value picks. -/
def ofKind (n : ℕ) : Kind → PropColumn
  | .int => int (.withLen n)
  | .float => float (.withLen n)
  | .bool => bool (.withLen n)
  | .str => str [] (.replicate n none)
  | .null | .other => json (.replicate n none)

/-- Record a value in a slot past the ones pushed. The first value that is not null picks the
representation. -/
def push (dense : ℕ) (value : Json) (c : PropColumn) : PropColumn :=
  let c := c.grow (dense + 1)
  if value = .null then c
  else
    let c := if c.untyped then ofKind c.length (kindOf value) else c
    c.set dense value

/-- The finished column over `n` slots. -/
def finish (n : ℕ) (c : PropColumn) : PropColumn :=
  let c := c.grow n
  if c.untyped then int (.withLen n) else c

end PropColumn

/-- One entity is read by a scan: its values go to the builders of their properties. -/
def pushEntity (dense : ℕ) (builders : Table String PropColumn) (props : Props) :
    Table String PropColumn :=
  props.fields.foldl (fun builders field =>
    builders.put field.1 (((builders.get field.1).getD (.json [])).push dense field.2)) builders

namespace PropColumns

def build (entities : Table ℕ Props) : PropColumns :=
  let ids := entities.toList.map Prod.fst
  let builders := entities.toList.zipIdx.foldl
    (fun builders e => pushEntity e.2 builders e.1.2) .empty
  { idToDense := .fromIds ids
    denseToId := ids
    cols := builders.map (.finish ids.length)
    bounds := .empty }

/-- Write the values of one entity that was read again. A new entity takes the next slot, and a new
property a new column. -/
def patchEntity (id : ℕ) (props : Props) (p : PropColumns) : PropColumns :=
  let (dense, p) := match p.idToDense.get id with
    | some dense => (dense, p)
    | none => (p.denseToId.length,
      { p with idToDense := p.idToDense.push id, denseToId := p.denseToId ++ [id] })
  let n := p.denseToId.length
  let cols := p.cols.map fun c => (c.grow n).clear dense
  { p with cols := props.fields.foldl (fun cols field =>
      cols.put field.1 ((((cols.get field.1).getD ((PropColumn.json []).grow n)).grow n).set dense
        field.2)) cols }

/-- Entities read in one transaction of a patch. -/
def patchChunk : ℕ := 4096

/-- Patch the entities from position `i` on. `reads` says which of the transactions succeed. -/
def patchFrom (entities : Table ℕ Props) (reads : ℕ → Bool) : ℕ → List ℕ → PropColumns →
    Except Error Unit × PropColumns
  | _, [], p => (.ok (), p)
  | i, id :: touched, p =>
    if i % patchChunk = 0 ∧ reads (i / patchChunk) = false then (.error .storage, p)
    else
      let p := match entities.get id with
        | some props => p.patchEntity id props
        | none => p
      patchFrom entities reads (i + 1) touched p

/-- Read some entities again and write their values. -/
def patch (entities : Table ℕ Props) (reads : ℕ → Bool) (touched : List ℕ) (p : PropColumns) :
    Except Error Unit × PropColumns :=
  patchFrom entities reads 0 touched (if touched.isEmpty then p else { p with bounds := .empty })

/-! ## What columns hold -/

/-- The values of an entity that are not null; nothing if there is no such entity. -/
def view (p : PropColumns) (id : ℕ) : Option (String → Option Json) :=
  (p.idToDense.get id).map fun dense prop => (p.cols.get prop).bind fun c => c.getJsonOpt dense

/-- The slots are those of the entities, and every column covers them. -/
structure Valid (p : PropColumns) : Prop where
  indexes : p.idToDense.Indexes p.denseToId
  cols : ∀ prop c, p.cols.get prop = some c → c.Valid ∧ c.length = p.denseToId.length

end PropColumns

/-- The values of a record that are not null. -/
def Props.view (props : Props) (prop : String) : Option Json := (props.get prop).bind Json.nonNull

lemma Props.nodup_fields (props : Props) : (props.fields.map Prod.fst).Nodup := by
  refine List.Pairwise.map _ (fun a b h => ?_) (Json.fields_pairwise props.wellFormed)
  exact ne_of_lt h

lemma Props.notMem_fields {props : Props} {prop : String} (h : props.get prop = none) :
    prop ∉ props.fields.map Prod.fst := by
  intro hmem
  obtain ⟨⟨_, v⟩, hfield, rfl⟩ := List.mem_map.mp hmem
  rw [Props.mem_fields.mp hfield] at h
  cases h

namespace PropColumns

lemma get_writeFields {cols : Table String PropColumn} {n dense : ℕ} (hdense : dense < n)
    (hcols : ∀ prop c, cols.get prop = some c → c.Valid ∧ c.length ≤ n) (props : Props) :
    ∃ cols' : Table String PropColumn,
      props.fields.foldl (fun cols field =>
        cols.put field.1 ((((cols.get field.1).getD ((PropColumn.json []).grow n)).grow n).set dense
          field.2)) (cols.map fun c => (c.grow n).clear dense) = cols' ∧
      (∀ prop c, cols'.get prop = some c → c.Valid ∧ c.length = n) ∧
      ∀ prop d, (cols'.get prop).bind (fun c => c.getJsonOpt d) =
        if d = dense then props.view prop else (cols.get prop).bind fun c => c.getJsonOpt d := by
  refine ⟨_, rfl, ?_⟩
  have hfold := Table.get_foldl_put
    (fun (v : Json) c => ((c.getD ((PropColumn.json []).grow n)).grow n).set dense v)
    props.nodup_fields (cols.map fun c => (c.grow n).clear dense)
  set cols₁ := cols.map fun c => (c.grow n).clear dense
  -- the columns as they are after the slot was cleared
  have hcleared : ∀ prop c, cols₁.get prop = some c → c.Valid ∧ c.length = n := by
    intro prop c hget
    obtain ⟨c₀, hget₀, rfl⟩ := map_eq_some_iff.mp hget
    obtain ⟨hvalid, hlen⟩ := hcols prop c₀ hget₀
    exact ⟨PropColumn.valid_clear (PropColumn.valid_grow hvalid n) dense, by simp; omega⟩
  have hread : ∀ prop d, (cols₁.get prop).bind (fun c => c.getJsonOpt d) =
      if d = dense then none else (cols.get prop).bind fun c => c.getJsonOpt d := by
    intro prop d
    rw [Table.get_map]
    cases hget : cols.get prop with
    | none => simp
    | some c =>
      have hlen : dense < (c.grow n).length := by simp; omega
      simp [PropColumn.getJsonOpt_clear hlen]
  -- the column that a field is written to
  have hbase : ∀ prop, ((cols₁.get prop).getD ((PropColumn.json []).grow n)).Valid ∧
      ((cols₁.get prop).getD ((PropColumn.json []).grow n)).length = n ∧
      ∀ d, ((cols₁.get prop).getD ((PropColumn.json []).grow n)).getJsonOpt d =
        (cols₁.get prop).bind fun c => c.getJsonOpt d := by
    intro prop
    cases hget : cols₁.get prop with
    | none =>
      refine ⟨trivial, ?_, fun d => ?_⟩
      · exact (PropColumn.length_grow (.json []) n).trans (Nat.max_eq_right (Nat.zero_le n))
      · exact PropColumn.getJsonOpt_grow (.json []) n d
    | some c => exact ⟨(hcleared prop c hget).1, (hcleared prop c hget).2, fun d => rfl⟩
  refine ⟨fun prop c hget => ?_, fun prop d => ?_⟩
  · rcases hprop : props.get prop with _ | v
    · rw [(hfold prop).2 (Props.notMem_fields hprop)] at hget
      exact hcleared prop c hget
    · rw [(hfold prop).1 v (Props.mem_fields.mpr hprop)] at hget
      obtain ⟨hvalid, hlen, -⟩ := hbase prop
      obtain rfl := some.inj hget
      exact ⟨PropColumn.valid_set (PropColumn.valid_grow hvalid n) dense v, by simp [hlen]⟩
  · rcases hprop : props.get prop with _ | v
    · rw [(hfold prop).2 (Props.notMem_fields hprop), hread]
      simp [Props.view, hprop]
    · rw [(hfold prop).1 v (Props.mem_fields.mpr hprop)]
      obtain ⟨hvalid, hlen, hget⟩ := hbase prop
      rw [bind_some, PropColumn.getJsonOpt_set (PropColumn.valid_grow hvalid n)
        (by simp [hlen, hdense]), PropColumn.getJsonOpt_grow, hget, hread]
      by_cases hd : d = dense <;> simp [Props.view, hprop, hd]

lemma Valid.patchEntity {p : PropColumns} (hp : p.Valid) (id : ℕ) (props : Props) :
    (p.patchEntity id props).Valid ∧
      (p.patchEntity id props).view = Function.update p.view id (some props.view) := by
  unfold PropColumns.patchEntity
  rcases hdense : p.idToDense.get id with _ | dense
  · -- a new entity
    have hnew : id ∉ p.denseToId := by
      rw [← hp.indexes.isSome_get, hdense]
      exact Bool.false_ne_true
    have hindexes := DenseIndex.indexes_push hp.indexes hnew
    have hcols : ∀ prop c, p.cols.get prop = some c →
        c.Valid ∧ c.length ≤ (p.denseToId ++ [id]).length := fun prop c hget => by
      obtain ⟨hvalid, hlen⟩ := hp.cols prop c hget
      exact ⟨hvalid, by rw [hlen]; simp⟩
    obtain ⟨cols', hcols', hvalid, hread⟩ := get_writeFields
      (show p.denseToId.length < (p.denseToId ++ [id]).length by simp) hcols props
    dsimp only
    rw [hcols']
    refine ⟨⟨hindexes, hvalid⟩, funext fun id' => ?_⟩
    rw [Function.update_apply]
    unfold view
    dsimp only
    split
    next heq =>
      subst heq
      rw [(hindexes.2 id' p.denseToId.length).mpr (by simp)]
      exact congrArg some (funext fun prop => (hread prop _).trans (if_pos rfl))
    next hne =>
      have hsame : (p.idToDense.push id).get id' = p.idToDense.get id' := by
        refine Option.ext fun d => ?_
        rw [hindexes.2, DenseIndex.getElem?_concat, ← hp.indexes.2]
        exact or_iff_left fun h => hne h.2
      rw [hsame]
      rcases hget : p.idToDense.get id' with _ | d
      · rfl
      · have hlt : d < p.denseToId.length :=
          (List.getElem?_eq_some_iff.mp ((hp.indexes.2 id' d).mp hget)).1
        exact congrArg some (funext fun prop =>
          (hread prop d).trans (if_neg (Nat.ne_of_lt hlt)))
  · have hlt : dense < p.denseToId.length :=
      (List.getElem?_eq_some_iff.mp ((hp.indexes.2 id dense).mp hdense)).1
    have hcols : ∀ prop c, p.cols.get prop = some c →
        c.Valid ∧ c.length ≤ p.denseToId.length := fun prop c hget =>
      ⟨(hp.cols prop c hget).1, Nat.le_of_eq (hp.cols prop c hget).2⟩
    obtain ⟨cols', hcols', hvalid, hread⟩ := get_writeFields hlt hcols props
    dsimp only
    rw [hcols']
    refine ⟨⟨hp.indexes, hvalid⟩, funext fun id' => ?_⟩
    rw [Function.update_apply]
    unfold view
    dsimp only
    split
    next heq =>
      subst heq
      rw [hdense]
      exact congrArg some (funext fun prop => (hread prop dense).trans (if_pos rfl))
    next hne =>
      rcases hget : p.idToDense.get id' with _ | d
      · rfl
      · have hne' : d ≠ dense := by
          rintro rfl
          have h₁ := (hp.indexes.2 id' d).mp hget
          rw [(hp.indexes.2 id d).mp hdense] at h₁
          exact hne (some.inj h₁).symm
        exact congrArg some (funext fun prop => (hread prop d).trans (if_neg hne'))

/-- What a patch that succeeds leaves of an entity: the stored values if it was touched and still
exists, else what was there. -/
theorem Valid.patchFrom {entities : Table ℕ Props} {reads : ℕ → Bool} {touched : List ℕ} {i : ℕ}
    {p p' : PropColumns} (hp : p.Valid)
    (h : PropColumns.patchFrom entities reads i touched p = (.ok (), p')) :
    p'.Valid ∧ ∀ id, p'.view id = if id ∈ touched ∧ (entities.get id).isSome then
      (entities.get id).map Props.view else p.view id := by
  induction touched generalizing i p with
  | nil =>
    obtain rfl := congrArg Prod.snd h
    exact ⟨hp, fun id => by simp [PropColumns.patchFrom]⟩
  | cons id touched ih =>
    unfold PropColumns.patchFrom at h
    split at h
    · cases congrArg Prod.fst h
    · cases hget : entities.get id with
      | none =>
        rw [hget] at h
        obtain ⟨hvalid, hview⟩ := ih hp h
        refine ⟨hvalid, fun id' => ?_⟩
        rw [hview id']
        by_cases heq : id' = id
        · simp [heq, hget]
        · simp [heq]
      | some props =>
        rw [hget] at h
        obtain ⟨hpatched, hentity⟩ := hp.patchEntity id props
        obtain ⟨hvalid, hview⟩ := ih hpatched h
        refine ⟨hvalid, fun id' => ?_⟩
        rw [hview id', hentity, Function.update_apply]
        by_cases heq : id' = id
        · simp [heq, hget]
        · simp [heq]

lemma Valid.patch {entities : Table ℕ Props} {reads : ℕ → Bool} {touched : List ℕ}
    {p p' : PropColumns} (hp : p.Valid) (h : p.patch entities reads touched = (.ok (), p')) :
    p'.Valid ∧ ∀ id, p'.view id = if id ∈ touched ∧ (entities.get id).isSome then
      (entities.get id).map Props.view else p.view id := by
  unfold PropColumns.patch at h
  split at h
  · exact hp.patchFrom h
  · exact (show Valid { p with bounds := .empty } from ⟨hp.indexes, hp.cols⟩).patchFrom h

/-! ## What a build holds -/

end PropColumns

namespace PropColumn

variable {c : PropColumn}

lemma getJsonOpt_untyped (h : c.untyped = true) (d : ℕ) :
    c.getJsonOpt d = none := by
  cases c with
  | json slots =>
    simp only [untyped, List.all_eq_true] at h
    simp only [getJsonOpt]
    rcases hd : slots[d]? with _ | slot
    · rfl
    · exact isNone_iff_eq_none.mp (h slot (mem_of_getElem? hd))
  | _ => cases h

lemma ofKind_spec (n : ℕ) (k : Kind) :
    (ofKind n k).Valid ∧ (ofKind n k).length = n ∧ ∀ d, (ofKind n k).getJsonOpt d = none := by
  have hnone : ∀ {α : Type} (d : ℕ), ((List.replicate n (none : Option α))[d]?).join = none := by
    intro α d
    exact getElem?_join_grow [] n d
  cases k with
  | int => exact ⟨trivial, Nullable.length_withLen n, fun d => by simp [ofKind, getJsonOpt]⟩
  | float => exact ⟨trivial, Nullable.length_withLen n, fun d => by simp [ofKind, getJsonOpt]⟩
  | bool => exact ⟨trivial, Nullable.length_withLen n, fun d => by simp [ofKind, getJsonOpt]⟩
  | str =>
    refine ⟨⟨nodup_nil, fun i hi => ?_⟩, length_replicate, fun d => ?_⟩
    · cases eq_of_mem_replicate hi
    · simp only [ofKind, getJsonOpt, hnone, bind_none]
  | null => exact ⟨trivial, length_replicate, hnone⟩
  | other => exact ⟨trivial, length_replicate, hnone⟩

lemma push_spec (hc : c.Valid) {dense : ℕ} (hlen : c.length ≤ dense) (v : Json) :
    (c.push dense v).Valid ∧ (c.push dense v).length = dense + 1 ∧
      ∀ d, (c.push dense v).getJsonOpt d = if d = dense then v.nonNull else c.getJsonOpt d := by
  have hgrow : (c.grow (dense + 1)).length = dense + 1 := by
    rw [length_grow]
    omega
  unfold push
  dsimp only
  split
  next hnull =>
    refine ⟨valid_grow hc _, hgrow, fun d => ?_⟩
    rw [getJsonOpt_grow]
    split
    next heq => rw [heq, getJsonOpt_of_le hlen, hnull]; rfl
    next => rfl
  next hnull =>
    -- picking a representation changes no value
    set c' := if (c.grow (dense + 1)).untyped then
      ofKind (c.grow (dense + 1)).length (kindOf v) else c.grow (dense + 1)
    have hc' : c'.Valid ∧ c'.length = dense + 1 ∧ ∀ d, c'.getJsonOpt d = c.getJsonOpt d := by
      by_cases huntyped : (c.grow (dense + 1)).untyped = true
      · obtain ⟨hvalid, hlen', hget⟩ := ofKind_spec (c.grow (dense + 1)).length (kindOf v)
        rw [show c' = _ from if_pos huntyped]
        refine ⟨hvalid, hlen'.trans hgrow, fun d => ?_⟩
        rw [hget, ← getJsonOpt_grow c (dense + 1) d, getJsonOpt_untyped huntyped]
      · rw [show c' = _ from if_neg huntyped]
        exact ⟨valid_grow hc _, hgrow, getJsonOpt_grow c (dense + 1)⟩
    refine ⟨valid_set hc'.1 dense v, (length_set c' dense v).trans hc'.2.1, fun d => ?_⟩
    rw [getJsonOpt_set hc'.1 (by rw [hc'.2.1]; exact Nat.lt_succ_self dense), hc'.2.2]

lemma finish_spec (hc : c.Valid) {n : ℕ} (hlen : c.length ≤ n) :
    (c.finish n).Valid ∧ (c.finish n).length = n ∧ ∀ d, (c.finish n).getJsonOpt d =
    c.getJsonOpt d := by
  unfold finish
  dsimp only
  split
  next huntyped =>
    refine ⟨trivial, Nullable.length_withLen n, fun d => ?_⟩
    rw [← getJsonOpt_grow c n d, getJsonOpt_untyped huntyped]
    simp [getJsonOpt]
  next =>
    refine ⟨valid_grow hc n, ?_, getJsonOpt_grow c n⟩
    rw [length_grow]
    omega

end PropColumn

/-- Builders hold the values of the entities that were read. -/
structure Builds (builders : Table String PropColumn) (records : List Props) : Prop where
  valid : ∀ prop c, builders.get prop = some c → c.Valid ∧ c.length ≤ records.length
  read : ∀ prop d, (builders.get prop).bind (fun c => c.getJsonOpt d) =
    records[d]?.bind fun props => props.view prop

lemma Builds.pushEntity {builders : Table String PropColumn} {records : List Props}
    (h : Builds builders records) (props : Props) :
    Builds (pushEntity records.length builders props) (records ++ [props]) := by
  have hfold := Table.get_foldl_put
    (fun (v : Json) c =>
        (c.getD (PropColumn.json [])).push records.length v) props.nodup_fields builders
  -- the builder that a field is pushed to
  have hbase : ∀ prop, ((builders.get prop).getD (.json [])).Valid ∧
      ((builders.get prop).getD (.json [])).length ≤ records.length ∧
      ∀ d, ((builders.get prop).getD (.json [])).getJsonOpt d =
        (builders.get prop).bind fun c => c.getJsonOpt d := by
    intro prop
    cases hget : builders.get prop with
    | none => exact ⟨trivial, Nat.zero_le _, fun d => rfl⟩
    | some c => exact ⟨(h.valid prop c hget).1, (h.valid prop c hget).2, fun d => rfl⟩
  have hnext : ∀ prop d, (records ++ [props])[d]?.bind (fun props => props.view prop) =
      if d = records.length then props.view prop else records[d]?.bind fun props =>
      props.view prop := by
    intro prop d
    rcases Nat.lt_trichotomy d records.length with hd | rfl | hd
    · rw [getElem?_append_left hd, if_neg (Nat.ne_of_lt hd)]
    · simp
    · rw [getElem?_eq_none (by simp; omega), getElem?_eq_none (by omega),
        if_neg (Nat.ne_of_gt hd)]
  refine ⟨fun prop c hget => ?_, fun prop d => ?_⟩
  · rcases hprop : props.get prop with _ | v
    · rw [IssunDB.pushEntity, (hfold prop).2 (Props.notMem_fields hprop)] at hget
      obtain ⟨hvalid, hlen⟩ := h.valid prop c hget
      exact ⟨hvalid, by simp; omega⟩
    · rw [IssunDB.pushEntity, (hfold prop).1 v (Props.mem_fields.mpr hprop)] at hget
      obtain ⟨hvalid, hlen, -⟩ := hbase prop
      obtain rfl := some.inj hget
      obtain ⟨hvalid', hlen', -⟩ := PropColumn.push_spec hvalid hlen v
      exact ⟨hvalid', by simp [hlen']⟩
  · rw [hnext]
    rcases hprop : props.get prop with _ | v
    · rw [IssunDB.pushEntity, (hfold prop).2 (Props.notMem_fields hprop), h.read]
      split
      next heq =>
        rw [heq, getElem?_eq_none (Nat.le_refl _)]
        simp [Props.view, hprop]
      next => rfl
    · rw [IssunDB.pushEntity, (hfold prop).1 v (Props.mem_fields.mpr hprop)]
      obtain ⟨hvalid, hlen, hget⟩ := hbase prop
      obtain ⟨-, -, hpush⟩ := PropColumn.push_spec hvalid hlen v
      rw [bind_some, hpush, hget, h.read]
      split
      next => simp [Props.view, hprop]
      next => rfl

lemma builds_foldl (entities : List (ℕ × Props)) :
    Builds (entities.zipIdx.foldl (fun builders e => pushEntity e.2 builders e.1.2) .empty)
      (entities.map Prod.snd) := by
  induction entities using List.reverseRecOn with
  | nil =>
    refine ⟨fun prop c hget => ?_, fun prop d => ?_⟩
    · cases hget
    · simp
  | append_singleton entities e ih =>
    simp only [zipIdx_append, foldl_append, map_append, zipIdx_singleton,
      foldl_cons, foldl_nil, map_cons, map_nil, Nat.zero_add]
    have hnext := ih.pushEntity e.2
    rwa [length_map] at hnext

namespace PropColumns

lemma build_spec (entities : Table ℕ Props) :
    (build entities).Valid ∧ ∀ id, (build entities).view id = (entities.get id).map Props.view := by
  have hids : (entities.toList.map Prod.fst).Nodup := by
    rw [Table.map_fst_toList]
    exact Finset.ascending_nodup _
  have hindexes := DenseIndex.indexes_fromIds hids
  have hbuilds := builds_foldl entities.toList
  have hvalid : (build entities).Valid := by
    refine ⟨hindexes, fun prop c hget => ?_⟩
    obtain ⟨c₀, hget₀, rfl⟩ := map_eq_some_iff.mp hget
    obtain ⟨hvalid, hlen⟩ := hbuilds.valid prop c₀ hget₀
    rw [length_map] at hlen
    obtain ⟨hvalid', hlen', -⟩ := PropColumn.finish_spec hvalid
      (show c₀.length ≤ (entities.toList.map Prod.fst).length by rwa [length_map])
    exact ⟨hvalid', hlen'⟩
  refine ⟨hvalid, fun id => ?_⟩
  have hread : ∀ prop d, ((build entities).cols.get prop).bind (fun c => c.getJsonOpt d) =
      (entities.toList[d]?).bind fun e => e.2.view prop := by
    intro prop d
    have hread := hbuilds.read prop d
    rw [getElem?_map, bind_map] at hread
    rw [show (fun e : ℕ × Props => e.2.view prop) =
      (fun props => Props.view props prop) ∘ Prod.snd from rfl,
      ← hread]
    change ((_ : Option PropColumn).map _).bind _ = _
    rw [bind_map]
    cases hget : (entities.toList.zipIdx.foldl
      (fun builders e => pushEntity e.2 builders e.1.2) .empty).get prop with
    | none => rfl
    | some c =>
      obtain ⟨hvalid, hlen⟩ := hbuilds.valid prop c hget
      rw [length_map] at hlen
      obtain ⟨-, -, hfinish⟩ := PropColumn.finish_spec hvalid
        (show c.length ≤ (entities.toList.map Prod.fst).length by rwa [length_map])
      exact hfinish d
  unfold view
  rcases hget : entities.get id with _ | props
  · have hnone : (build entities).idToDense.get id = none := by
      rw [← not_isSome_iff_eq_none]
      intro hsome
      obtain ⟨⟨_, props⟩, hmem, rfl⟩ := List.mem_map.mp ((hindexes.isSome_get id).mp hsome)
      rw [Table.mem_toList.mp hmem] at hget
      cases hget
    rw [hnone]
    rfl
  · obtain ⟨d, hd⟩ := mem_iff_getElem?.mp (Table.mem_toList.mpr hget)
    have hdense : (build entities).idToDense.get id = some d :=
      (hindexes.2 id d).mpr (by rw [getElem?_map, hd]; rfl)
    rw [hdense]
    refine congrArg some (funext fun prop => (hread prop d).trans ?_)
    rw [hd]
    rfl

end PropColumns

end IssunDB
