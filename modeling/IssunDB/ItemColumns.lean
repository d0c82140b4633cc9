import IssunDB.ColumnReads
import IssunDB.Cypher.Equivalence

/-!
# Columns over part of the entities

A small grouped read builds columns over the entities it asks for only, and of these only the
grouped property. Fewer values can pick another representation of a column, which is of no
consequence: the codes and representatives are those that the columns over all entities give, and
they are the groups of the values by how these are written.

* `PropColumns.fromItemsFor` — the columns of a list of entities;
* `PropColumns.groupCodes_fromItemsFor` — the codes and representatives over part of the entities.
-/

namespace IssunDB

open List Option

open Cypher (FloatTexts jsonText)

/-- The values of one entity go to the builders of their properties, or of one property only. -/
def pushEntityFor (only : Option String) (dense : ℕ) (builders : Table String PropColumn)
    (props : Props) : Table String PropColumn :=
  props.fields.foldl (fun builders field =>
    if only.any (· ≠ field.1) then builders
    else builders.put field.1
      (((builders.get field.1).getD (.json [])).push dense field.2)) builders

/-- Build columns over exactly the given entities, of one property if `only` names it. -/
def PropColumns.fromItemsFor (items : List (ℕ × Props)) (only : Option String) : PropColumns :=
  let ids := items.map Prod.fst
  let builders := items.zipIdx.foldl
    (fun builders e => pushEntityFor only e.2 builders e.1.2) .empty
  { idToDense := .fromIds ids
    denseToId := ids
    cols := builders.map (.finish ids.length)
    bounds := .empty }

section Text

variable (ft : FloatTexts)

/-- Codes of entities, those of a `json` column by the text of the value. -/
def PropColumn.groupCodesByText (c : PropColumn) (slot : ℕ → ℕ) (ids : List ℕ) :
    List ℕ × List ℕ :=
  match c with
  | json col => assignCodes (fun id => (col[slot id]?.join).map (jsonText ft)) ids []
  | c => c.groupCodes slot ids

/-- `group_codes`, with the text that identifies a value in a `json` column. -/
def PropColumns.groupCodesByText (notFound : ℕ → Error) (ids : List ℕ) (prop : String)
    (p : PropColumns) : Except Error (List ℕ × List Json) :=
  match ids.find? fun id => (p.idToDense.get id).isNone with
  | some id => .error (notFound id)
  | none =>
    match p.cols.get prop with
    | none => if ids.isEmpty then .ok ([], []) else .ok (.replicate ids.length 0, [.null])
    | some c =>
      let slot id := (p.idToDense.get id).getD 0
      let (codes, firsts) := c.groupCodesByText ft slot ids
      .ok (codes, firsts.map fun id => (c.getJsonOpt (slot id)).getD .null)

/-- The text of a property of an entity. A missing property is written as null. -/
def Props.textOf (props : Props) (prop : String) : List Char :=
  jsonText ft ((props.get prop).getD .null)

end Text

/-! ## Texts -/

section

variable {ft : FloatTexts}

lemma jsonText_injective : Function.Injective (jsonText ft) :=
  Readable.injective Cypher.readable_jsonText

lemma groupCodesByText_eq (c : PropColumn) (slot : ℕ → ℕ) (ids : List ℕ) :
    c.groupCodesByText ft slot ids = c.groupCodes slot ids := by
  cases c with
  | json col =>
    refine assignCodes_congr fun a _ b _ => ?_
    exact (map_injective jsonText_injective).eq_iff
  | _ => rfl

lemma PropColumns.groupCodesByText_eq (p : PropColumns) (notFound : ℕ → Error) (ids : List ℕ)
    (prop : String) : p.groupCodesByText ft notFound ids prop = p.groupCodes notFound ids prop := by
  rw [groupCodesByText, groupCodes]
  cases ids.find? fun id => (p.idToDense.get id).isNone with
  | some id => rfl
  | none =>
    cases p.cols.get prop with
    | none => rfl
    | some c =>
      dsimp only
      rw [IssunDB.groupCodesByText_eq]

lemma nonNull_injective : Function.Injective Json.nonNull := by
  intro v w h
  have hback : ∀ v : Json, v.nonNull.getD .null = v := by
    intro v
    cases v <;> rfl
  rw [← hback v, h, hback]

/-- Properties are written alike iff they have the same value, a missing one like null. -/
theorem textOf_eq_iff {a b : Props} {prop : String} :
    a.textOf ft prop = b.textOf ft prop ↔ a.view prop = b.view prop := by
  have hview : ∀ props : Props, props.view prop = ((props.get prop).getD .null).nonNull := by
    intro props
    rw [Props.view]
    cases props.get prop <;> rfl
  rw [Props.textOf, Props.textOf, jsonText_injective.eq_iff, hview, hview,
    nonNull_injective.eq_iff]

/-- What represents a group is written like its members. -/
theorem jsonText_view (props : Props) (prop : String) :
    jsonText ft ((props.view prop).getD .null) = props.textOf ft prop := by
  rw [Props.textOf, Props.view]
  congr 1
  rcases props.get prop with _ | v
  · rfl
  · cases v <;> rfl

end

/-! ## One property only -/

/-- A builder of one property meets the same values whether the others are built or not. -/
theorem get_pushEntityFor (prop : String) (dense : ℕ) (props : Props)
    {builders builders' : Table String PropColumn} (h : builders.get prop = builders'.get prop) :
    (pushEntityFor (some prop) dense builders props).get prop =
      (pushEntity dense builders' props).get prop := by
  rw [pushEntityFor, pushEntity]
  induction props.fields generalizing builders builders' with
  | nil => exact h
  | cons field fields ih =>
    rw [foldl_cons, foldl_cons]
    apply ih
    by_cases hfield : prop = field.1
    · subst hfield
      simp [h]
    · simp [hfield, h]

lemma pushEntityFor_none : pushEntityFor none = pushEntity := rfl

namespace PropColumns

lemma get_cols_fromItemsFor (items : List (ℕ × Props)) (prop : String) :
    (fromItemsFor items (some prop)).cols.get prop = (fromItemsFor items none).cols.get prop := by
  have hrun : ∀ (l : List ((ℕ × Props) × ℕ)) (builders builders' : Table String PropColumn),
      builders.get prop = builders'.get prop →
      (l.foldl (fun builders e => pushEntityFor (some prop) e.2 builders e.1.2) builders).get prop =
        (l.foldl (fun builders e => pushEntity e.2 builders e.1.2) builders').get prop := by
    intro l
    induction l with
    | nil => exact fun _ _ h => h
    | cons e l ih =>
      intro builders builders' h
      exact ih _ _ (get_pushEntityFor prop e.2 e.1.2 h)
  show (_ : Option PropColumn).map _ = (_ : Option PropColumn).map _
  rw [hrun _ _ _ rfl]
  rfl

/-! ## What the columns of a list hold -/

section

variable {items : List (ℕ × Props)}

lemma cols_fromItemsFor (prop : String) (c : PropColumn)
    (hget : (fromItemsFor items none).cols.get prop = some c) : c.Valid := by
  obtain ⟨c₀, hget₀, rfl⟩ := map_eq_some_iff.mp hget
  obtain ⟨hvalid, hlen⟩ := (builds_foldl items).valid prop c₀ hget₀
  rw [length_map] at hlen
  exact (PropColumn.finish_spec hvalid (by rwa [length_map])).1

lemma read_fromItemsFor (prop : String) (d : ℕ) :
    ((fromItemsFor items none).cols.get prop).bind (fun c => c.getJsonOpt d) =
      (items[d]?).bind fun e => e.2.view prop := by
  have hread := (builds_foldl items).read prop d
  rw [getElem?_map, bind_map] at hread
  refine Eq.trans ?_ hread
  rw [fromItemsFor, pushEntityFor_none]
  change ((_ : Option PropColumn).map _).bind _ = _
  rw [bind_map]
  cases hget : (items.zipIdx.foldl
    (fun builders e => pushEntity e.2 builders e.1.2) .empty).get prop with
  | none => rfl
  | some c =>
    obtain ⟨hvalid, hlen⟩ := (builds_foldl items).valid prop c hget
    rw [length_map] at hlen
    exact (PropColumn.finish_spec hvalid (by rwa [length_map])).2.2 d

/-- Where an entity that is listed more than once has one record, its values are those of the
record. -/
theorem view_fromItemsFor (hitems : ∀ x ∈ items, ∀ y ∈ items, x.1 = y.1 → x = y) {x : ℕ × Props}
    (hx : x ∈ items) : (fromItemsFor items none).view x.1 = some x.2.view := by
  obtain ⟨hget, hsome⟩ := DenseIndex.get_fromIds_of_mem (items.map Prod.fst) x.1
  obtain ⟨d, hd⟩ := isSome_iff_exists.mp (hsome (List.mem_map_of_mem hx))
  obtain ⟨y, hy, hid⟩ : ∃ y, items[d]? = some y ∧ y.1 = x.1 := by
    have hat := hget d hd
    rw [getElem?_map] at hat
    exact map_eq_some_iff.mp hat
  obtain rfl := hitems y (mem_of_getElem? hy) x hx hid
  have hdense : (fromItemsFor items none).idToDense.get y.1 = some d := hd
  rw [view, hdense]
  refine congrArg some (funext fun prop => ?_)
  dsimp only
  rw [read_fromItemsFor, hy]
  rfl

end

lemma groupCodes_congr_on {p q : PropColumns}
    (hp : ∀ prop c, p.cols.get prop = some c → c.Valid)
    (hq : ∀ prop c, q.cols.get prop = some c → c.Valid) {ids : List ℕ}
    (h : ∀ id ∈ ids, p.view id = q.view id) (notFound : ℕ → Error) (prop : String) :
    p.groupCodes notFound ids prop = q.groupCodes notFound ids prop := by
  have hvalue : ∀ id ∈ ids, p.value prop id = q.value prop id := by
    intro id hid
    rw [value, value, h id hid]
  have hfind : (ids.find? fun id => (p.view id).isNone) =
      ids.find? fun id => (q.view id).isNone := by
    apply find?_congr
    intro id hid
    rw [h id hid]
  have hcodes : assignCodes (p.value prop) ids [] = assignCodes (q.value prop) ids [] := by
    apply assignCodes_congr
    intro a ha b hb
    rw [hvalue a ha, hvalue b hb]
  obtain ⟨-, ⟨new, hnew, hmem⟩, -⟩ := assignCodes_spec (q.value prop) ids [] nodup_nil
  rw [groupCodes_eq_of_cols hp, groupCodes_eq_of_cols hq, hfind, hcodes]
  split
  · rfl
  · dsimp only
    congr 2
    apply map_congr_left
    intro id hid
    rw [hnew] at hid
    rw [hvalue id (hmem id hid)]

/-- **Grouping over part of the entities.** Columns over some of the entities, of all properties or
of the grouped one only, give the same codes and representatives as columns over all of them, when
the part has the entities that are asked for. Two entities have the same code iff the property is
written alike on them, and the representative of a code is written like the property of its
members; a missing property is null. -/
theorem groupCodes_fromItemsFor (ft : FloatTexts) (notFound : ℕ → Error)
    (items part : List (ℕ × Props)) (prop : String) (ids : List ℕ)
    (hitems : ∀ x ∈ items, ∀ y ∈ items, x.1 = y.1 → x = y) (hpart : ∀ x ∈ part, x ∈ items)
    (hids : ∀ id ∈ ids, id ∈ part.map Prod.fst) :
    ∃ (codes : List ℕ) (reps : List Json),
      (fromItemsFor items none).groupCodesByText ft notFound ids prop = .ok (codes, reps) ∧
      (∀ only, only = none ∨ only = some prop →
        (fromItemsFor part only).groupCodesByText ft notFound ids prop = .ok (codes, reps)) ∧
      codes.length = ids.length ∧
      (∀ i j : ℕ, ∀ x ∈ items, ∀ y ∈ items, ids[i]? = some x.1 → ids[j]? = some y.1 →
        (codes[i]? = codes[j]? ↔ x.2.textOf ft prop = y.2.textOf ft prop)) ∧
      ∀ i : ℕ, ∀ x ∈ items, ids[i]? = some x.1 → ∃ code rep, codes[i]? = some code ∧
        reps[code]? = some rep ∧ jsonText ft rep = x.2.textOf ft prop := by
  have hview : ∀ x ∈ items, x.1 ∈ ids →
      (fromItemsFor part none).view x.1 = (fromItemsFor items none).view x.1 := by
    intro x hx hid
    obtain ⟨y, hy, hxy⟩ := List.mem_map.mp (hids x.1 hid)
    obtain rfl := hitems y (hpart y hy) x hx hxy
    rw [view_fromItemsFor hitems hx,
      view_fromItemsFor (fun a ha b hb => hitems a (hpart a ha) b (hpart b hb)) hy]
  have hknown : ∀ id ∈ ids, ∃ x ∈ items, x.1 = id := by
    intro id hid
    obtain ⟨x, hx, rfl⟩ := List.mem_map.mp (hids id hid)
    exact ⟨x, hpart x hx, rfl⟩
  have hpartial : ∀ only, only = none ∨ only = some prop →
      (fromItemsFor part only).groupCodes notFound ids prop =
        (fromItemsFor items none).groupCodes notFound ids prop := by
    have hall : (fromItemsFor part none).groupCodes notFound ids prop =
        (fromItemsFor items none).groupCodes notFound ids prop := by
      apply groupCodes_congr_on cols_fromItemsFor cols_fromItemsFor
      intro id hid
      obtain ⟨x, hx, rfl⟩ := hknown id hid
      exact hview x hx hid
    rintro only (rfl | rfl)
    · exact hall
    · rw [← hall, groupCodes, groupCodes, get_cols_fromItemsFor]
      rfl
  have hok : ∃ codes reps,
      (fromItemsFor items none).groupCodes notFound ids prop = .ok (codes, reps) := by
    have hfind : (ids.find? fun id => ((fromItemsFor items none).view id).isNone) = none := by
      rw [find?_eq_none]
      intro id hid
      obtain ⟨x, hx, rfl⟩ := hknown id hid
      rw [view_fromItemsFor hitems hx]
      exact Bool.false_ne_true
    rw [groupCodes_eq_of_cols cols_fromItemsFor, hfind]
    exact ⟨_, _, rfl⟩
  obtain ⟨codes, reps, hcodes⟩ := hok
  obtain ⟨hlen, -, hspec⟩ := groupCodes_spec cols_fromItemsFor hcodes
  have hvalue : ∀ x ∈ items, (fromItemsFor items none).value prop x.1 = x.2.view prop := by
    intro x hx
    rw [value, view_fromItemsFor hitems hx, bind_some]
  refine ⟨codes, reps, ?_, ?_, hlen, ?_, ?_⟩
  · rw [groupCodesByText_eq, hcodes]
  · intro only honly
    rw [groupCodesByText_eq, hpartial only honly, hcodes]
  · intro i j x hx y hy hi hj
    obtain ⟨code, hcode, -, hiff⟩ := hspec i x.1 hi
    rw [hcode, eq_comm, hiff j y.1 hj, hvalue x hx, hvalue y hy, textOf_eq_iff, eq_comm]
  · intro i x hx hi
    obtain ⟨code, hcode, hrep, -⟩ := hspec i x.1 hi
    refine ⟨code, _, hcode, hrep, ?_⟩
    rw [hvalue x hx, jsonText_view]

/-- Three entities, two of them with the same integer and one with a string. -/
def threeItems : List (ℕ × Props) :=
  [(1, ⟨.object [("p", .number (.posInt 7 (by decide)))], rfl⟩),
    (2, ⟨.object [("p", .string "a")], rfl⟩),
    (3, ⟨.object [("p", .number (.posInt 7 (by decide)))], rfl⟩)]

/-- The columns over the first and the last entity hold integers, those over all hold mixed
values. -/
theorem groupCodes_fromItemsFor_threeItems : ∃ (codes : List ℕ) (reps : List Json),
    (fromItemsFor threeItems none).groupCodesByText Cypher.bitsTexts .nodeNotFound [1, 3] "p" =
      .ok (codes, reps) ∧
    (∀ only, only = none ∨ only = some "p" →
      (fromItemsFor (threeItems.eraseIdx 1) only).groupCodesByText Cypher.bitsTexts .nodeNotFound
        [1, 3] "p" = .ok (codes, reps)) ∧
    codes.length = 2 ∧
    (∀ i j : ℕ, ∀ x ∈ threeItems, ∀ y ∈ threeItems, [1, 3][i]? = some x.1 → [1, 3][j]? = some y.1 →
      (codes[i]? = codes[j]? ↔
        x.2.textOf Cypher.bitsTexts "p" = y.2.textOf Cypher.bitsTexts "p")) ∧
    ∀ i : ℕ, ∀ x ∈ threeItems, [1, 3][i]? = some x.1 → ∃ code rep, codes[i]? = some code ∧
      reps[code]? = some rep ∧
      jsonText Cypher.bitsTexts rep = x.2.textOf Cypher.bitsTexts "p" :=
  groupCodes_fromItemsFor Cypher.bitsTexts .nodeNotFound threeItems
    (threeItems.eraseIdx 1) "p" [1, 3]
    (by decide) (by decide) (by decide)

end PropColumns

end IssunDB
