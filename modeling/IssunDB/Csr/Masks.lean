import IssunDB.Csr.Snapshot

/-!
# Node masks of the counting kernels

A counting kernel tests a node against the label its pattern asks for, and against an explicit set
of ids, through one Boolean mask per pattern variable over the dense indices. A pattern usually
repeats a label, so `labelMasks` builds the mask of each distinct label once.

`maskOk_variableMask` states what a mask means: the node is in the label and in the set, where the
pattern asks for them.
-/

namespace IssunDB

open List Option

def maskOk (mask : Option (List Bool)) (d : ℕ) : Bool := mask.all fun m => m.getD d false

/-- The type of an edge is the wanted one; `none` wants any. -/
def typeOk (want : Option TypeId) (actual : TypeId) : Bool := want.all (· = actual)

/-- The id of a type, if one is named; nothing if it is not registered. -/
def Tables.resolveType (s : Tables) : Option String → Option (Option TypeId)
  | none => some none
  | some name => (s.getType name).map some

lemma typeOk_resolveType {s : Tables} {relType : Option String} {typeId : Option TypeId}
    (h : s.resolveType relType = some typeId) (t : TypeId) :
    typeOk typeId t = relType.all fun name => s.getType name = some t := by
  cases relType with
  | none =>
    obtain rfl := some.inj h
    rfl
  | some name =>
    obtain ⟨t', hget, rfl⟩ := map_eq_some_iff.mp h
    simp [typeOk, hget, eq_comm]

def intersectMask (mask : Option (List Bool)) (other : List Bool) : Option (List Bool) :=
  match mask with
  | none => some other
  | some m => some (List.zipWith (· && ·) m other)

def markAll (mask : List Bool) (ds : List ℕ) : List Bool :=
  ds.foldl (fun mask d => mask.set d true) mask

@[simp]
lemma length_markAll (mask : List Bool) (ds : List ℕ) : (markAll mask ds).length = mask.length := by
  induction ds generalizing mask with
  | nil => rfl
  | cons d ds ih => exact (ih _).trans List.length_set

lemma getD_markAll {mask : List Bool} (ds : List ℕ) {d : ℕ} (hd : d < mask.length) :
    (markAll mask ds).getD d false = (mask.getD d false || decide (d ∈ ds)) := by
  induction ds generalizing mask with
  | nil => simp [markAll]
  | cons d' ds ih =>
    change (markAll (mask.set d' true) ds).getD d false = _
    rw [ih (by simpa using hd), getD_eq_getElem?_getD, getElem?_set]
    by_cases h : d' = d
    · subst h
      simp [hd]
    · simp [h, Ne.symm h]

namespace CsrArrays

variable (S : CsrArrays)

/-- Mark the known ids. -/
def maskOf (ids : List NodeId) : List Bool :=
  ids.foldl (fun mask id =>
    match S.idToDense.get id with
    | none => mask
    | some d => mask.set d true)
    (List.replicate S.denseToId.length false)

/-- The masks of the labels of a pattern; `built` has the masks of the labels seen so far. -/
def labelMasks (s : Tables) :
    List (Option String) → List (String × List Bool) → List (Option (List Bool))
  | [], _ => []
  | none :: labels, built => none :: labelMasks s labels built
  | some name :: labels, built =>
    match built.find? (·.1 = name) with
    | some seen => some seen.2 :: labelMasks s labels built
    | none =>
      let mask := S.maskOf (s.nodesByLabel name)
      some mask :: labelMasks s labels (built ++ [(name, mask)])

def allowMask (mask : Option (List Bool)) : Option (List NodeId) → Option (List Bool)
  | none => mask
  | some ids => intersectMask mask (S.maskOf ids)

def allowMasks : List (Option (List Bool)) → List (Option (List NodeId)) →
    List (Option (List Bool))
  | [], _ => []
  | masks, [] => masks
  | mask :: masks, allow :: allows => S.allowMask mask allow :: allowMasks masks allows

end CsrArrays

/-- A node satisfies what a pattern variable asks for: its label and its allow-set. -/
def satisfies (s : Tables) (label : Option String) (allow : Option (List NodeId)) (id : NodeId) :
    Bool :=
  label.all (fun name => id ∈ s.nodesByLabel name) && allow.all (fun ids => id ∈ ids)

namespace Snapshot

variable (S : Snapshot)

@[simp]
lemma length_maskOf (ids : List NodeId) : (S.maskOf ids).length = S.n := by
  have hrun : ∀ mask : List Bool, (ids.foldl (fun mask id =>
      match S.idToDense.get id with
      | none => mask
      | some d => mask.set d true) mask).length = mask.length := by
    induction ids with
    | nil => exact fun _ => rfl
    | cons id ids ih =>
      intro mask
      rw [foldl_cons, ih]
      split
      · rfl
      · exact List.length_set ..
  rw [CsrArrays.maskOf, hrun, length_replicate, n]

/-- A node is in the mask of a list iff its id is in the list. -/
theorem getD_maskOf (ids : List NodeId) {d : ℕ} (hd : d < S.n) :
    (S.maskOf ids).getD d false = decide (S.idOf d ∈ ids) := by
  have hrun : ∀ mask : List Bool, mask.length = S.n → (ids.foldl (fun mask id =>
      match S.idToDense.get id with
      | none => mask
      | some d => mask.set d true) mask).getD d false =
        (mask.getD d false || decide (S.idOf d ∈ ids)) := by
    induction ids with
    | nil => simp
    | cons id ids ih =>
      intro mask hlen
      rw [foldl_cons]
      split
      next hget =>
        have hne : S.idOf d ≠ id := by
          intro heq
          rw [← heq, S.get_idToDense_idOf hd] at hget
          cases hget
        rw [ih mask hlen]
        simp [hne]
      next d' hget =>
        rw [ih _ (by simpa using hlen), getD_eq_getElem?_getD, getElem?_set]
        by_cases hdd : d' = d
        · subst hdd
          have hid : S.idOf d' = id := by
            have h := S.get_idToDense.mp hget
            rw [S.getElem?_denseToId hd] at h
            exact some.inj h
          simp [hlen, hd, hid]
        · have hne : S.idOf d ≠ id := by
            intro heq
            rw [← heq, S.get_idToDense_idOf hd] at hget
            exact hdd (some.inj hget).symm
          simp [hdd, hne]
  rw [CsrArrays.maskOf, hrun _ (by simp [n])]
  simp [getD_eq_getElem?_getD, getElem?_replicate]
  split <;> simp

lemma labelMasks_eq (s : Tables) (labels : List (Option String)) :
    S.labelMasks s labels [] =
    labels.map (Option.map fun name => S.maskOf (s.nodesByLabel name)) := by
  have hrun : ∀ built : List (String × List Bool),
      (∀ b ∈ built, b.2 = S.maskOf (s.nodesByLabel b.1)) → S.labelMasks s labels built =
        labels.map (Option.map fun name => S.maskOf (s.nodesByLabel name)) := by
    induction labels with
    | nil => exact fun _ _ => rfl
    | cons label labels ih =>
      intro built hbuilt
      cases label with
      | none => rw [CsrArrays.labelMasks, ih built hbuilt, map_cons, map_none]
      | some name =>
        rw [CsrArrays.labelMasks]
        split
        next seen hseen =>
          have hname : seen.1 = name := by simpa using find?_some hseen
          rw [ih built hbuilt, hbuilt seen (mem_of_find?_eq_some hseen), hname]
          rfl
        next =>
          dsimp only
          rw [ih]
          · rfl
          · intro b hb
            rcases mem_append.mp hb with hb | hb
            · exact hbuilt b hb
            · obtain rfl := mem_singleton.mp hb
              rfl
  exact hrun [] (by simp)

def variableMask (s : Tables) (label : Option String) (allow : Option (List NodeId)) :
    Option (List Bool) :=
  S.allowMask (label.map fun name => S.maskOf (s.nodesByLabel name)) allow

lemma maskOk_maskOf (ids : List NodeId) {d : ℕ} (hd : d < S.n) :
    maskOk (some (S.maskOf ids)) d = decide (S.idOf d ∈ ids) := S.getD_maskOf ids hd

lemma maskOk_intersectMask {mask : Option (List Bool)} {other : List Bool}
    (hmask : ∀ m, mask = some m → m.length = other.length) (d : ℕ) :
    maskOk (intersectMask mask other) d = (maskOk mask d && maskOk (some other) d) := by
  cases mask with
  | none => rfl
  | some m =>
    have hlen := hmask m rfl
    show (List.zipWith (· && ·) m other).getD d false = (m.getD d false && other.getD d false)
    rcases lt_or_ge d m.length with h | h
    · have h' : d < other.length := hlen ▸ h
      have hzip : d < (List.zipWith (· && ·) m other).length := by
        rw [length_zipWith]
        omega
      rw [getD_eq_getElem _ _ hzip, getElem_zipWith, getD_eq_getElem _ _ h,
        getD_eq_getElem _ _ h']
    · have hzip : (List.zipWith (· && ·) m other).length ≤ d := by
        rw [length_zipWith]
        omega
      rw [getD_eq_default _ _ hzip, getD_eq_default _ _ h, Bool.false_and]

theorem maskOk_variableMask (s : Tables) (label : Option String) (allow : Option (List NodeId))
    {d : ℕ} (hd : d < S.n) :
    maskOk (S.variableMask s label allow) d = satisfies s label allow (S.idOf d) := by
  have hlabel : maskOk (label.map fun name => S.maskOf (s.nodesByLabel name)) d =
      label.all fun name => S.idOf d ∈ s.nodesByLabel name := by
    cases label with
    | none => rfl
    | some name => exact S.maskOk_maskOf _ hd
  rw [variableMask, satisfies, ← hlabel]
  cases allow with
  | none => simp [CsrArrays.allowMask]
  | some ids =>
    rw [CsrArrays.allowMask, maskOk_intersectMask, S.maskOk_maskOf ids hd, all_some]
    intro m hm
    obtain ⟨name, -, rfl⟩ := map_eq_some_iff.mp hm
    rw [length_maskOf, length_maskOf]

lemma getD_allowMasks (s : Tables) {labels : List (Option String)}
    (allows : List (Option (List NodeId))) {i : ℕ} (hi : i < labels.length) :
    (S.allowMasks (S.labelMasks s labels []) allows).getD i none =
      S.variableMask s (labels.getD i none) (allows.getD i none) := by
  rw [labelMasks_eq]
  induction labels generalizing allows i with
  | nil => cases hi
  | cons label labels ih =>
    cases allows with
    | nil =>
      rw [map_cons, CsrArrays.allowMasks, ← map_cons]
      · rw [getD_eq_getElem _ _ (by simpa using hi), getElem_map,
          getD_eq_getElem _ _ hi]
        rfl
      · exact cons_ne_nil _ _
    | cons allow allows =>
      rw [map_cons, CsrArrays.allowMasks]
      cases i with
      | zero => rfl
      | succ i => exact ih allows (Nat.lt_of_succ_lt_succ hi)

end Snapshot

end IssunDB
