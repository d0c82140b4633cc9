import IssunDB.ColumnSets

/-!
# Reads over column sets

Grouping entities by the value of a property, and the extreme values of a property. Each column
groups by a key of its own representation; the codes depend on which values are equal and not on
the representation.

* `PropColumns.propsTable`, `PropColumns.presenceMask`, `PropColumns.groupCodes` — the reads, and
  `PropColumns.Valid.servesAs`: column sets that hold the same values answer them alike;
* `PropColumns.groupCodes_spec` — entities share a code iff their values are identical;
* `PropColumn.columnBounds`, `PropColumn.columnBounds_spec` — every value is between the bounds.
-/

namespace IssunDB

open List Option

/-! ## Group codes -/

/-- Give each item the position of its key among the keys met so far, which `firsts` lists by the
first item that has each. -/
def assignCodes {κ : Type} [DecidableEq κ] (key : ℕ → κ) : List ℕ → List ℕ → List ℕ × List ℕ
  | [], firsts => ([], firsts)
  | id :: ids, firsts =>
    match firsts.findIdx? fun first => key first = key id with
    | some code =>
      let (codes, firsts) := assignCodes key ids firsts
      (code :: codes, firsts)
    | none =>
      let (codes, firsts') := assignCodes key ids (firsts ++ [id])
      (firsts.length :: codes, firsts')

section Codes

variable {κ κ' : Type} [DecidableEq κ] [DecidableEq κ'] {key : ℕ → κ} {key' : ℕ → κ'}

lemma findIdx?_congr {α : Type} {p q : α → Bool} {l : List α} (h : ∀ a ∈ l, p a = q a) :
    l.findIdx? p = l.findIdx? q := by
  induction l with
  | nil => rfl
  | cons a l ih =>
    rw [findIdx?_cons, findIdx?_cons, h a mem_cons_self,
      ih fun b hb => h b (mem_cons_of_mem _ hb)]

/-- The codes depend only on which keys are equal. -/
theorem assignCodes_congr {ids firsts : List ℕ}
    (h : ∀ a ∈ firsts ++ ids, ∀ b ∈ firsts ++ ids, key a = key b ↔ key' a = key' b) :
    assignCodes key ids firsts = assignCodes key' ids firsts := by
  induction ids generalizing firsts with
  | nil => rfl
  | cons id ids ih =>
    have hfind : (firsts.findIdx? fun first => key first = key id) =
        firsts.findIdx? fun first => key' first = key' id := by
      refine findIdx?_congr fun first hfirst => ?_
      rw [decide_eq_decide]
      exact h first (mem_append_left _ hfirst) id
        (mem_append_right _ mem_cons_self)
    have hsub : ∀ a, a ∈ firsts ++ ids → a ∈ firsts ++ id :: ids := by
      intro a ha
      rcases mem_append.mp ha with ha | ha
      · exact mem_append_left _ ha
      · exact mem_append_right _ (mem_cons_of_mem _ ha)
    unfold assignCodes
    rw [hfind]
    cases firsts.findIdx? fun first => key' first = key' id with
    | some code =>
      dsimp only
      rw [ih fun a ha b hb => h a (hsub a ha) b (hsub b hb)]
    | none =>
      dsimp only
      rw [ih fun a ha b hb => h a (by simpa using ha) b (by simpa using hb)]

variable (key) in
/-- What `assignCodes` returns: the items met first have distinct keys, and each item has the code
of the first item with its key. -/
theorem assignCodes_spec (ids firsts : List ℕ) (hfirsts : (firsts.map key).Nodup) :
    ((assignCodes key ids firsts).2.map key).Nodup ∧
      (∃ new, (assignCodes key ids firsts).2 = firsts ++ new ∧ ∀ id ∈ new, id ∈ ids) ∧
      (assignCodes key ids firsts).1.length = ids.length ∧
      ∀ (i id : ℕ), ids[i]? = some id → ∃ code first, (assignCodes key ids firsts).1[i]? =
      some code ∧
        (assignCodes key ids firsts).2[code]? = some first ∧ key first = key id := by
  induction ids generalizing firsts with
  | nil => exact ⟨hfirsts, ⟨[], by simp [assignCodes], by simp⟩, rfl, fun i id h => by simp at h⟩
  | cons id ids ih =>
    unfold assignCodes
    cases hfind : firsts.findIdx? fun first => key first = key id with
    | some code =>
      obtain ⟨hnodup, ⟨new, hnew, hmem⟩, hlen, hcodes⟩ := ih firsts hfirsts
      refine ⟨hnodup, ⟨new, hnew, fun a ha => mem_cons_of_mem _ (hmem a ha)⟩, by simp [hlen],
        fun i a hi => ?_⟩
      cases i with
      | zero =>
        obtain rfl := some.inj hi
        obtain ⟨hlt, hkey, -⟩ := findIdx?_eq_some_iff_getElem.mp hfind
        refine ⟨code, firsts[code], rfl, ?_, by simpa using hkey⟩
        rw [hnew, getElem?_append_left hlt, getElem?_eq_getElem hlt]
      | succ i => exact hcodes i a hi
    | none =>
      have hnot : ∀ first ∈ firsts, key first ≠ key id := by
        intro first hfirst
        simpa using findIdx?_eq_none_iff.mp hfind first hfirst
      have hfirsts' : ((firsts ++ [id]).map key).Nodup := by
        rw [map_append, map_singleton]
        refine hfirsts.append (nodup_singleton _) ?_
        intro k hk hk'
        obtain ⟨first, hfirst, rfl⟩ := List.mem_map.mp hk
        exact hnot first hfirst (mem_singleton.mp hk')
      obtain ⟨hnodup, ⟨new, hnew, hmem⟩, hlen, hcodes⟩ := ih (firsts ++ [id]) hfirsts'
      refine ⟨hnodup, ⟨id :: new, by simp [hnew], fun a ha => ?_⟩, by simp [hlen], fun i a hi => ?_⟩
      · rcases mem_cons.mp ha with rfl | ha
        · exact mem_cons_self
        · exact mem_cons_of_mem _ (hmem a ha)
      · cases i with
        | zero =>
          obtain rfl := some.inj hi
          refine ⟨firsts.length, id, rfl, ?_, rfl⟩
          dsimp only
          rw [hnew]
          simp
        | succ i => exact hcodes i a hi

end Codes

namespace PropColumn

/-- The codes of entities by the value in their slots, each representation by a key of its own, and
the first entity of each code. -/
def groupCodes (c : PropColumn) (slot : ℕ → ℕ) (ids : List ℕ) : List ℕ × List ℕ :=
  match c with
  | int col => assignCodes (fun id => col.get (slot id)) ids []
  | float col => assignCodes (fun id => (col.get (slot id)).map F64.toBits) ids []
  | bool col => assignCodes (fun id => (col.get (slot id)).map fun b => decide (b ≠ 0)) ids []
  | str _ idx => assignCodes (fun id => idx[slot id]?.join) ids []
  | json col => assignCodes (fun id => col[slot id]?.join) ids []

lemma groupCodes_eq {c : PropColumn} (hc : c.Valid) (slot : ℕ → ℕ) (ids : List ℕ) :
    c.groupCodes slot ids = assignCodes (fun id => c.getJsonOpt (slot id)) ids [] := by
  have hmap : ∀ {α : Type} {f : α → Json}, Function.Injective f → ∀ a b : Option α,
      a = b ↔ a.map f = b.map f := fun hf a b => ⟨fun h => h ▸ rfl, fun h => map_injective hf h⟩
  cases c with
  | int col => exact assignCodes_congr fun a _ b _ => hmap Json.ofI64_injective _ _
  | float col =>
    refine assignCodes_congr fun a _ b _ => Iff.trans ?_ (hmap (fun f g h => ?_) _ _)
    · exact ⟨fun h => map_injective F64.toBits_injective h, fun h => h ▸ rfl⟩
    · exact Number.float.inj (Json.number.inj h)
  | bool col =>
    refine assignCodes_congr fun a _ b _ => ?_
    have hbool : Function.Injective Json.bool := fun _ _ h => Json.bool.inj h
    rw [hmap hbool, Option.map_map, Option.map_map]
    rfl
  | str dict idx =>
    refine assignCodes_congr fun a _ b _ => ⟨fun h => by simp only [getJsonOpt, h], fun h => ?_⟩
    -- distinct codes name distinct strings
    have hstring : ∀ d i : ℕ, idx[d]?.join = some i → ∃ s, dict[i]? = some s := by
      intro d i hi
      have hlt := hc.2 i (mem_of_getElem? (join_eq_some_iff.mp hi))
      exact ⟨dict[i], getElem?_eq_getElem hlt⟩
    simp only [getJsonOpt] at h
    rcases ha : idx[slot a]?.join with _ | i <;> rcases hb : idx[slot b]?.join with _ | j
    · rfl
    · obtain ⟨s, hs⟩ := hstring _ _ hb
      simp [ha, hb, hs] at h
    · obtain ⟨s, hs⟩ := hstring _ _ ha
      simp [ha, hb, hs] at h
    · obtain ⟨s, hs⟩ := hstring _ _ ha
      obtain ⟨s', hs'⟩ := hstring _ _ hb
      simp only [ha, hb, hs, hs', bind_some, map_some, some.injEq,
        Json.string.injEq] at h
      subst h
      obtain ⟨hi, hsi⟩ := List.getElem?_eq_some_iff.mp hs
      obtain ⟨hj, hsj⟩ := List.getElem?_eq_some_iff.mp hs'
      exact congrArg some (hc.1.getElem_inj_iff.mp (hsi.trans hsj.symm))
  | json col => rfl

end PropColumn

namespace PropColumns

/-- Codes of entities by the exact value of a property, with one representative value per code. -/
def groupCodes (notFound : ℕ → Error) (ids : List ℕ) (prop : String) (p : PropColumns) :
    Except Error (List ℕ × List Json) :=
  match ids.find? fun id => (p.idToDense.get id).isNone with
  | some id => .error (notFound id)
  | none =>
    match p.cols.get prop with
    | none =>
      -- no such column: every entity is one null group
      if ids.isEmpty then .ok ([], []) else .ok (.replicate ids.length 0, [.null])
    | some c =>
      let slot id := (p.idToDense.get id).getD 0
      let (codes, firsts) := c.groupCodes slot ids
      .ok (codes, firsts.map fun id => (c.getJsonOpt (slot id)).getD .null)

/-- The values of some properties on entities, one row per entity. A missing property is null, a
missing entity an error. -/
def propsTable (notFound : ℕ → Error) (ids : List ℕ) (props : List String) (p : PropColumns) :
    Except Error (List (List Json)) :=
  ids.mapM fun id =>
    match p.idToDense.get id with
    | none => .error (notFound id)
    | some dense => .ok <| props.map fun prop =>
      ((p.cols.get prop).bind fun c => c.getJsonOpt dense).getD .null

/-- The values of one property on entities. -/
def propColumn (notFound : ℕ → Error) (ids : List ℕ) (prop : String) (p : PropColumns) :
    Except Error (List Json) :=
  ids.mapM fun id =>
    match p.idToDense.get id with
    | none => .error (notFound id)
    | some dense => .ok (((p.cols.get prop).bind fun c => c.getJsonOpt dense).getD .null)

/-- Whether entities hold a value of a property, if `keeps`. -/
def presenceMask (notFound : ℕ → Error) (ids : List ℕ) (prop : String) (keeps : Bool)
    (p : PropColumns) : Except Error (List Bool) :=
  ids.mapM fun id =>
    match p.idToDense.get id with
    | none => .error (notFound id)
    | some dense => .ok (keeps && (p.cols.get prop).any fun c => c.isPresent dense)

/-- The value of a property of an entity; nothing for null, or where there is no such entity. -/
def value (p : PropColumns) (prop : String) (id : ℕ) : Option Json := (p.view id).bind (· prop)

lemma assignCodes_const (ids : List ℕ) (first : ℕ) :
    assignCodes (fun _ => ()) ids [first] = (.replicate ids.length 0, [first]) := by
  induction ids with
  | nil => rfl
  | cons id ids ih => simp [assignCodes, ih, replicate_succ]

variable {p : PropColumns}

/-- The codes of a column set are those of the values that it holds, also where entities were listed
more than once. -/
theorem groupCodes_eq_of_cols (hp : ∀ prop c, p.cols.get prop = some c → c.Valid)
    (notFound : ℕ → Error) (ids : List ℕ) (prop : String) :
    p.groupCodes notFound ids prop = match ids.find? fun id => (p.view id).isNone with
      | some id => .error (notFound id)
      | none =>
        let (codes, firsts) := assignCodes (p.value prop) ids []
        .ok (codes, firsts.map fun id => (p.value prop id).getD .null) := by
  have hview : ∀ id, (p.view id).isNone = (p.idToDense.get id).isNone := fun id => by
    simp [view]
  unfold groupCodes
  simp only [hview]
  split
  next => rfl
  next hnone =>
    have hslot : ∀ id ∈ ids, ∃ d, p.idToDense.get id = some d := by
      intro id hid
      have hsome := find?_eq_none.mp hnone id hid
      simp only [isNone_iff_eq_none] at hsome
      exact ne_none_iff_exists'.mp hsome
    cases hcol : p.cols.get prop with
    | none =>
      -- no column: every value is null
      have hvalue : ∀ id, p.value prop id = none := by
        intro id
        rcases hd : p.idToDense.get id with _ | d <;> simp [value, view, hd, hcol]
      have hcodes : ∀ firsts, assignCodes (p.value prop) ids firsts =
          assignCodes (fun _ => ()) ids firsts :=
        fun firsts => assignCodes_congr fun a _ b _ => by simp [hvalue]
      dsimp only
      rw [hcodes]
      cases ids with
      | nil => rfl
      | cons id ids => simp [assignCodes, assignCodes_const, hvalue, replicate_succ]
    | some c =>
      have hc := hp prop c hcol
      have hvalue : ∀ id ∈ ids, c.getJsonOpt ((p.idToDense.get id).getD 0) = p.value prop id := by
        intro id hid
        obtain ⟨d, hd⟩ := hslot id hid
        simp [value, view, hd, hcol]
      dsimp only
      rw [PropColumn.groupCodes_eq hc]
      have hcodes : assignCodes (fun id => c.getJsonOpt ((p.idToDense.get id).getD 0)) ids [] =
          assignCodes (p.value prop) ids [] :=
        assignCodes_congr fun a ha b hb => by
          rw [hvalue a (by simpa using ha), hvalue b (by simpa using hb)]
      rw [hcodes]
      obtain ⟨-, ⟨new, hnew, hmem⟩, -, -⟩ :=
        assignCodes_spec (p.value prop) ids [] nodup_nil
      refine congrArg (fun reps => Except.ok ((assignCodes (p.value prop) ids []).1, reps)) ?_
      refine map_congr_left fun id hid => ?_
      rw [hvalue id (hmem id (by rwa [hnew, nil_append] at hid))]

lemma Valid.cols_valid (hp : p.Valid) (prop : String) (c : PropColumn)
    (hget : p.cols.get prop = some c) : c.Valid := (hp.cols prop c hget).1

lemma Valid.groupCodes_eq (hp : p.Valid) (notFound : ℕ → Error) (ids : List ℕ) (prop : String) :
    p.groupCodes notFound ids prop = match ids.find? fun id => (p.view id).isNone with
      | some id => .error (notFound id)
      | none =>
        let (codes, firsts) := assignCodes (p.value prop) ids []
        .ok (codes, firsts.map fun id => (p.value prop id).getD .null) :=
  groupCodes_eq_of_cols hp.cols_valid notFound ids prop

/-- Column sets that hold the same values give the same codes and representatives. -/
theorem Valid.groupCodes_congr {p q : PropColumns} (hp : p.Valid) (hq : q.Valid)
    (h : p.view = q.view) (notFound : ℕ → Error) (ids : List ℕ) (prop : String) :
    p.groupCodes notFound ids prop = q.groupCodes notFound ids prop := by
  have hvalue : p.value = q.value := by
    unfold value
    rw [h]
  rw [hp.groupCodes_eq, hq.groupCodes_eq, h, hvalue]

/-- Two column sets answer every read of values, presence bits and group codes alike. -/
structure ServesAs (p q : PropColumns) : Prop where
  propsTable : ∀ notFound ids props, p.propsTable notFound ids props =
    q.propsTable notFound ids props
  propColumn : ∀ notFound ids prop, p.propColumn notFound ids prop = q.propColumn notFound ids prop
  presenceMask : ∀ notFound ids prop keeps,
    p.presenceMask notFound ids prop keeps = q.presenceMask notFound ids prop keeps
  groupCodes : ∀ notFound ids prop, p.groupCodes notFound ids prop = q.groupCodes notFound ids prop

lemma readEntity_eq {α : Type} (p : PropColumns) (notFound : ℕ → Error)
    (read : (String → Option Json) → α) (id : ℕ) :
    (match p.idToDense.get id with
      | none => .error (notFound id)
      | some dense =>
        .ok (read fun prop => (p.cols.get prop).bind fun c => c.getJsonOpt dense)) =
      (match p.view id with
      | none => .error (notFound id)
      | some values => .ok (read values) : Except Error α) := by
  unfold view
  cases p.idToDense.get id with
  | none => rfl
  | some dense => rfl

lemma Valid.presence_eq (hp : p.Valid) (prop : String) (dense : ℕ) :
    ((p.cols.get prop).any fun c => c.isPresent dense) =
      ((p.cols.get prop).bind fun c => c.getJsonOpt dense).isSome := by
  cases hcol : p.cols.get prop with
  | none => rfl
  | some c =>
    show c.isPresent dense = (c.getJsonOpt dense).isSome
    exact PropColumn.isPresent_eq (hp.cols prop c hcol).1 dense

lemma Valid.servesAs {p q : PropColumns} (hp : p.Valid) (hq : q.Valid) (h : p.view = q.view) :
    p.ServesAs q where
  propsTable notFound ids props := by
    unfold PropColumns.propsTable
    have hread : ∀ (p : PropColumns) (id : ℕ), _ = _ := fun p =>
      readEntity_eq p notFound fun values => props.map fun prop => (values prop).getD .null
    simp only [hread, h]
  propColumn notFound ids prop := by
    unfold PropColumns.propColumn
    have hread : ∀ (p : PropColumns) (id : ℕ), _ = _ := fun p =>
      readEntity_eq p notFound fun values => (values prop).getD .null
    simp only [hread, h]
  presenceMask notFound ids prop keeps := by
    unfold PropColumns.presenceMask
    have hread : ∀ (p : PropColumns) (id : ℕ), _ = _ := fun p =>
      readEntity_eq p notFound fun values => keeps && (values prop).isSome
    simp only [hp.presence_eq, hq.presence_eq, hread, h]
  groupCodes notFound ids prop := hp.groupCodes_congr hq h notFound ids prop

/-- Entities share a code iff their values are identical, and the representative of a code is the
value of its entities. -/
theorem groupCodes_spec (hp : ∀ prop c, p.cols.get prop = some c → c.Valid) {notFound : ℕ → Error}
    {ids : List ℕ} {prop : String} {codes : List ℕ} {reps : List Json}
    (h : p.groupCodes notFound ids prop = .ok (codes, reps)) :
    codes.length = ids.length ∧ (∀ id ∈ ids, (p.view id).isSome) ∧
      ∀ (i id : ℕ), ids[i]? = some id → ∃ code, codes[i]? = some code ∧
        reps[code]? = some ((p.value prop id).getD .null) ∧
        ∀ (j id' : ℕ), ids[j]? = some id' →
          (codes[j]? = some code ↔ p.value prop id' = p.value prop id) := by
  rw [groupCodes_eq_of_cols hp] at h
  split at h
  next => cases h
  next hnone =>
    obtain ⟨rfl, rfl⟩ := Prod.mk.injEq .. ▸ Except.ok.inj h
    obtain ⟨hnodup, -, hlen, hcodes⟩ :=
      assignCodes_spec (p.value prop) ids [] nodup_nil
    refine ⟨hlen, fun id hid => ?_, fun i id hi => ?_⟩
    · have hsome := find?_eq_none.mp hnone id hid
      simp only [isNone_iff_eq_none] at hsome
      exact isSome_iff_ne_none.mpr hsome
    · obtain ⟨code, first, hcode, hfirst, hkey⟩ := hcodes i id hi
      refine ⟨code, hcode, by rw [getElem?_map, hfirst, ← hkey]; rfl, fun j id' hj => ?_⟩
      obtain ⟨code', first', hcode', hfirst', hkey'⟩ := hcodes j id' hj
      rw [hcode', ← hkey, ← hkey', some.injEq]
      constructor
      · rintro rfl
        rw [some.inj (hfirst'.symm.trans hfirst)]
      · intro heq
        have hlt := (List.getElem?_eq_some_iff.mp hfirst').1
        refine (getElem?_inj (by simpa using hlt) hnodup).mp ?_
        rw [getElem?_map, getElem?_map, hfirst, hfirst']
        exact congrArg some heq

end PropColumns

/-! ## Bounds -/

/-- The least and the greatest element of a list, by one pass. -/
def foldBounds {α : Type} (lt : α → α → Bool) (l : List α) : Option (α × α) :=
  l.foldl (fun acc x => match acc with
    | none => some (x, x)
    | some (lo, hi) => some (if lt x lo then x else lo, if lt hi x then x else hi)) none

/-- The order of a column's values, within one kind. -/
def Json.le : Json → Json → Prop
  | number a, number b => a.scaled ≤ b.scaled
  | bool a, bool b => a ≤ b
  | string a, string b => a ≤ b
  | _, _ => False

/-- The pass keeps every element between the bounds, in any order that the test decides. -/
theorem foldBounds_spec {α : Type} [DecidableEq α] {β : Type} [LinearOrder β] (f : α → β)
    (l : List α) :
    (foldBounds (fun a b => decide (f a < f b)) l = none ↔ l = []) ∧
      ∀ lo hi, foldBounds (fun a b => decide (f a < f b)) l = some (lo, hi) →
        lo ∈ l ∧ hi ∈ l ∧ ∀ x ∈ l, f lo ≤ f x ∧ f x ≤ f hi := by
  induction l using List.reverseRecOn with
  | nil => simp [foldBounds]
  | append_singleton l x ih =>
    obtain ⟨hnone, hsome⟩ := ih
    have hstep : foldBounds (fun a b => decide (f a < f b)) (l ++ [x]) =
        match foldBounds (fun a b => decide (f a < f b)) l with
        | none => some (x, x)
        | some (lo, hi) => some (if decide (f x < f lo) then x else lo,
            if decide (f hi < f x) then x else hi) := by
      simp [foldBounds]
    rw [hstep]
    rcases hacc : foldBounds (fun a b => decide (f a < f b)) l with _ | ⟨lo, hi⟩
    · obtain rfl := hnone.mp hacc
      refine ⟨by simp, fun lo hi heq => ?_⟩
      obtain ⟨rfl, rfl⟩ := Prod.mk.injEq .. ▸ some.inj heq
      simp
    · obtain ⟨hlo, hhi, hbounds⟩ := hsome lo hi hacc
      refine ⟨by simp, fun lo' hi' heq => ?_⟩
      obtain ⟨rfl, rfl⟩ := Prod.mk.injEq .. ▸ some.inj heq
      have hmin : f (if decide (f x < f lo) then x else lo) = min (f x) (f lo) := by
        by_cases hlt : f x < f lo
        · simp [hlt, le_of_lt hlt]
        · simp [hlt, not_lt.mp hlt]
      have hmax : f (if decide (f hi < f x) then x else hi) = max (f hi) (f x) := by
        by_cases hlt : f hi < f x
        · simp [hlt, le_of_lt hlt]
        · simp [hlt, not_lt.mp hlt]
      refine ⟨?_, ?_, fun y hy => ?_⟩
      · split <;> simp [hlo]
      · split <;> simp [hhi]
      · rw [hmin, hmax]
        rcases mem_append.mp hy with hy | hy
        · obtain ⟨h₁, h₂⟩ := hbounds y hy
          exact ⟨min_le_of_right_le h₁, le_max_of_le_left h₂⟩
        · obtain rfl := mem_singleton.mp hy
          exact ⟨min_le_left .., le_max_right ..⟩

namespace Nullable

/-- The values of the slots that hold one. -/
def toList {α : Type} (c : Nullable α) : List α := (List.range c.length).filterMap c.get

lemma mem_toList {α : Type} {c : Nullable α} {i : ℕ} {a : α} (h : c.get i = some a) :
    a ∈ c.toList := by
  refine mem_filterMap.mpr ⟨i, mem_range.mpr ?_, h⟩
  unfold get at h
  split at h
  · exact (List.getElem?_eq_some_iff.mp h).1
  · cases h

end Nullable

namespace PropColumn

/-- The least and the greatest value of a column. The `json` representation has no order. -/
def columnBounds : PropColumn → Option (Json × Json)
  | int col => (foldBounds (fun a b => decide (a.1 < b.1)) col.toList).map fun b =>
      (.ofI64 b.1, .ofI64 b.2)
  | float col => (foldBounds (fun a b => decide (a.scaled < b.scaled)) col.toList).map fun b =>
      (.number (.float b.1), .number (.float b.2))
  | bool col => (foldBounds (fun a b => decide (a < b)) col.toList).map fun b =>
      (.bool (b.1 ≠ 0), .bool (b.2 ≠ 0))
  | str dict idx =>
    (foldBounds (fun a b => decide (a < b)) (idx.filterMap fun i => i.bind fun i => dict[i]?)).map
      fun b => (.string b.1, .string b.2)
  | json _ => none

lemma ofI64_le {i j : I64} (h : i.1 ≤ j.1) : (Json.ofI64 i).le (.ofI64 j) := by
  have hscaled : ∀ k : I64, ∃ n, Json.ofI64 k = .number n ∧ n.scaled = k.1 * 2 ^ 1074 := by
    intro k
    unfold Json.ofI64
    split
    next h => exact ⟨_, rfl, by rw [Number.scaled, Int.toNat_of_nonneg h]⟩
    next => exact ⟨_, rfl, rfl⟩
  obtain ⟨m, hm, hms⟩ := hscaled i
  obtain ⟨n, hn, hns⟩ := hscaled j
  rw [hm, hn]
  change m.scaled ≤ n.scaled
  rw [hms, hns]
  exact Int.mul_le_mul_of_nonneg_right h (by positivity)

/-- The bounds of the values that a column shows, where its order is that of the values as JSON. -/
theorem bounds_spec {α β : Type} [DecidableEq α] [LinearOrder β] (f : α → β) (J : α → Json)
    (hmono : ∀ a b, f a ≤ f b → (J a).le (J b)) {l : List α} {shown : ℕ → Option Json}
    (hshown : ∀ d v, shown d = some v → ∃ x ∈ l, v = J x) :
    (∀ lo hi, ((foldBounds (fun a b => decide (f a < f b)) l).map fun b => (J b.1, J b.2)) =
      some (lo, hi) → ∀ d v, shown d = some v → lo.le v ∧ v.le hi) ∧
    (((foldBounds (fun a b => decide (f a < f b)) l).map fun b => (J b.1, J b.2)) = none →
      ∀ d, shown d = none) := by
  obtain ⟨hnone, hsome⟩ := foldBounds_spec f l
  refine ⟨fun lo hi heq d v hv => ?_, fun heq d => ?_⟩
  · obtain ⟨⟨a, b⟩, hfold, hab⟩ := map_eq_some_iff.mp heq
    obtain ⟨rfl, rfl⟩ := Prod.mk.injEq .. ▸ hab
    obtain ⟨x, hx, rfl⟩ := hshown d v hv
    obtain ⟨h₁, h₂⟩ := (hsome a b hfold).2.2 x hx
    exact ⟨hmono _ _ h₁, hmono _ _ h₂⟩
  · rcases hv : shown d with _ | v
    · rfl
    · obtain ⟨x, hx, -⟩ := hshown d v hv
      rw [hnone.mp (map_eq_none_iff.mp heq)] at hx
      cases hx

/-- Every value of a column is between its bounds. A column without bounds is a `json` one or holds
no value. -/
theorem columnBounds_spec (c : PropColumn) :
    (∀ lo hi, c.columnBounds = some (lo, hi) →
      ∀ d v, c.getJsonOpt d = some v → lo.le v ∧ v.le hi) ∧
    (c.columnBounds = none → (∃ slots, c = json slots) ∨ ∀ d, c.getJsonOpt d = none) := by
  have hslots : ∀ {α : Type} {J : α → Json} (col : Nullable α) (d : ℕ) v,
      (col.get d).map J = some v → ∃ x ∈ col.toList, v = J x := by
    intro α J col d v hv
    obtain ⟨x, hx, rfl⟩ := map_eq_some_iff.mp hv
    exact ⟨x, Nullable.mem_toList hx, rfl⟩
  cases c with
  | int col =>
    exact (bounds_spec (fun i : I64 => i.1) .ofI64 (fun _ _ => ofI64_le) (hslots col)).imp_right
      fun hnone heq => .inr (hnone heq)
  | float col =>
    exact (bounds_spec F64.scaled (fun x => .number (.float x)) (fun _ _ h => h)
      (hslots col)).imp_right fun hnone heq => .inr (hnone heq)
  | bool col =>
    have hmono : ∀ m n : ℕ, m ≤ n → decide (m ≠ 0) ≤ decide (n ≠ 0) := by
      intro m n hle
      rcases Nat.eq_zero_or_pos m with rfl | hm
      · exact Bool.false_le _
      · have hn : n ≠ 0 := by omega
        simp [hn]
    exact (bounds_spec (fun n : ℕ => n) (fun n => .bool (n ≠ 0)) hmono (hslots col)).imp_right
      fun hnone heq => .inr (hnone heq)
  | str dict idx =>
    have hshown : ∀ d v, (str dict idx).getJsonOpt d = some v →
        ∃ s ∈ idx.filterMap fun i => i.bind fun i => dict[i]?, v = .string s := by
      intro d v hv
      obtain ⟨i, hi, hslot⟩ := bind_eq_some_iff.mp hv
      obtain ⟨s, hdict, rfl⟩ := map_eq_some_iff.mp hslot
      exact ⟨s, mem_filterMap.mpr
        ⟨some i, mem_of_getElem? (join_eq_some_iff.mp hi), hdict⟩, rfl⟩
    exact (bounds_spec (fun s : String => s) .string (fun _ _ h => h) hshown).imp_right
      fun hnone heq => .inr (hnone heq)
  | json slots => exact ⟨fun lo hi heq => (by cases heq), fun _ => .inl ⟨slots, rfl⟩⟩

end PropColumn

namespace PropColumns

/-- The bounds of a property, computed when they are first asked for. -/
def minMax (prop : String) (p : PropColumns) : Option (Json × Json) × PropColumns :=
  match p.bounds.get prop with
  | some bounds => (bounds, p)
  | none =>
    let computed := (p.cols.get prop).bind PropColumn.columnBounds
    (computed, { p with bounds := p.bounds.put prop computed })

def BoundsCurrent (p : PropColumns) : Prop :=
  ∀ prop bounds, p.bounds.get prop = some bounds →
    bounds = (p.cols.get prop).bind PropColumn.columnBounds

/-- Asking for bounds changes nothing but the cache of bounds. -/
theorem minMax_spec {p : PropColumns} (hp : p.BoundsCurrent) (prop : String) :
    (p.minMax prop).1 = (p.cols.get prop).bind PropColumn.columnBounds ∧
      (p.minMax prop).2.BoundsCurrent ∧
      (p.minMax prop).2 = { p with bounds := (p.minMax prop).2.bounds } := by
  unfold minMax
  split
  next bounds hget => exact ⟨hp prop bounds hget, hp, rfl⟩
  next =>
    refine ⟨rfl, fun prop' bounds hget => ?_, rfl⟩
    rw [Table.get_put] at hget
    split at hget
    next heq => rw [← some.inj hget, heq]
    next => exact hp prop' bounds hget

end PropColumns

end IssunDB
