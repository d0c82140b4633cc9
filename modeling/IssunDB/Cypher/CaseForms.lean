import IssunDB.Cypher.Comparison

/-!
# Simple and searched `CASE`

A simple `CASE` takes the first arm whose value `jsonCmp` finds in the order `eq` to the subject. In
the searched form the arm is taken where `=` is true, which goes by `cypherEq`. The two differ

* on equal objects that are not ordered, such as maps, nodes and infinities (`EqualKeyless`), and
* on NaN that was given a sort key, alone or after items that agree (`NanTie`).

`jsonCmp_eq_iff` says so for two values and `simpleCase_iff` for the arms that the forms take.
-/

namespace IssunDB.Cypher

open List Option

/-- An arm of a `CASE`: what its condition and its result evaluate to. -/
structure ArmValues where
  when_val : Except String Json
  then_val : Except String Json

def armMatches (subject : Option Json) (when_val : Json) : Bool :=
  match subject with
  | some sv => jsonCmp sv when_val = some .eq
  | none => when_val = .bool true

/-- The evaluation of `CASE`. -/
def evalCase (subject : Option Json) (else_expr : Option (Except String Json)) :
    List ArmValues → Except String Json
  | [] => else_expr.getD (.ok .null)
  | arm :: arms =>
    match arm.when_val with
    | .error e => .error e
    | .ok when_val =>
      if armMatches subject when_val then arm.then_val else evalCase subject else_expr arms

def selectArm (subject : Option Json) : List (Except String Json) → Except String (Option ℕ)
  | [] => .ok none
  | .error e :: _ => .error e
  | .ok when_val :: whens =>
    if armMatches subject when_val then .ok (some 0)
    else (selectArm subject whens).map fun i => i.map (· + 1)

/-- The value of `s = w`. -/
def equalsValue (s : Json) (when_val : Except String Json) : Except String Json :=
  match when_val with
  | .error e => .error e
  | .ok w => (compareValues s w .eq).map fun b => b.elim .null .bool

/-- The arm with the condition `s = w` in place of the value `w`. -/
def ArmValues.searched (s : Json) (arm : ArmValues) : ArmValues :=
  { arm with when_val := equalsValue s arm.when_val }

/-- `CASE` evaluates to the arm that it takes. -/
theorem evalCase_eq (subject : Option Json) (else_expr : Option (Except String Json))
    (arms : List ArmValues) :
    evalCase subject else_expr arms = match selectArm subject (arms.map ArmValues.when_val) with
      | .error e => .error e
      | .ok i => ((i.bind fun i => arms[i]?).map ArmValues.then_val).getD
          (else_expr.getD (.ok .null)) := by
  induction arms with
  | nil => rfl
  | cons arm arms ih =>
    rw [evalCase, map_cons]
    cases hwhen : arm.when_val with
    | error e => rfl
    | ok w =>
      dsimp only
      rw [selectArm]
      split
      next => rfl
      next =>
        rw [ih]
        cases selectArm subject (arms.map ArmValues.when_val) with
        | error e => rfl
        | ok i => cases i <;> rfl

/-- The searched form takes an arm where `=` is true. -/
theorem armMatches_equalsValue {s w v : Json} (h : equalsValue s (.ok w) = .ok v) :
    armMatches none v = true ↔ cypherEq s w = some true := by
  have hvalue : v = (cypherEq s w).elim .null .bool := by
    rw [equalsValue, compareValues] at h
    split at h
    next hnull =>
      have hnone : cypherEq s w = none := by
        unfold cypherEq
        rw [if_pos hnull]
      rw [← Except.ok.inj h, hnone]
    next => exact (Except.ok.inj h).symm
  rw [hvalue, armMatches, decide_eq_true_iff]
  rcases cypherEq s w with _ | b
  · simp
  · simp

/-! ## Where equality and order differ -/

/-- Objects that are ordered: with one tag and both with a sort key. -/
def Keyed (m m' : List (String × Json)) : Prop :=
  (typeTag m).isSome ∧ typeTag m = typeTag m' ∧ (sortKey m).isSome ∧ (sortKey m').isSome

def EqualKeyless (v w : Json) : Prop :=
  ∃ m m', v = .object m ∧ w = .object m' ∧ agree v w = true ∧ ¬ Keyed m m'

/-- NaN with a sort key against NaN with the same one, alone or as items that lists of equal items
lead to. -/
inductive NanTie : Json → Json → Prop
  | nan {m m' : List (String × Json)} {k : String} (hm : isNan (.object m) = true)
      (hm' : isNan (.object m') = true) (hk : sortKey m = some k) (hk' : sortKey m' = some k) :
      NanTie (.object m) (.object m')
  | items {as bs vs ws : List Json} {v w : Json}
      (h : List.Forall₂ (fun a b => agree a b = true) as bs) (hvw : NanTie v w) :
      NanTie (.array (as ++ v :: vs)) (.array (bs ++ w :: ws))

/-- Values that one form of `CASE` takes for equal and the other does not. -/
def Miss (v w : Json) : Prop := EqualKeyless v w ∨ NanTie v w

variable {v w : Json}

/-- Equal values are in the order `eq`, but for objects that are not ordered. -/
theorem jsonCmp_of_cypherEq (h : cypherEq v w = some true)
    (hkeyed : ∀ m m', v = .object m → w = .object m' → Keyed m m') : jsonCmp v w = some .eq := by
  by_cases harray : ∃ as bs, v = .array as ∧ w = .array bs
  · obtain ⟨as, bs, rfl, rfl⟩ := harray
    rw [jsonCmp]
    have hitems := cypherEq_arrays_iff.mp h
    clear h hkeyed
    induction hitems with
    | nil => rw [jsonCmpItems]
    | cons hhead _ ih => rw [jsonCmpItems, hhead, ih]
  by_cases hobject : ∃ m m', v = .object m ∧ w = .object m'
  · obtain ⟨m, m', rfl, rfl⟩ := hobject
    obtain ⟨htag, hsame, hk, hk'⟩ := hkeyed m m' rfl rfl
    obtain ⟨hnan, hnan'⟩ := isNan_of_cypherEq h
    obtain ⟨t, ht⟩ := isSome_iff_exists.mp htag
    obtain ⟨k, hk⟩ := isSome_iff_exists.mp hk
    obtain ⟨k', hk'⟩ := isSome_iff_exists.mp hk'
    have htagged : (getField "__type__" m).isSome := by
      rw [typeTag] at htag
      exact isSome_of_isSome_bind htag
    rw [cypherEq_objects hnan hnan', if_pos (.inl htagged), taggedEq, if_pos hsame, hk, hk'] at h
    have hkeys : k = k' := of_decide_eq_true (some.inj h)
    rw [jsonCmp, objectCmp_eq_some]
    exact ⟨t, k, k', ht, hsame ▸ ht, hk, hk', Std.LawfulEqOrd.compare_eq_iff_eq.mpr hkeys⟩
  by_cases hnumber : ∃ x y, v = .number x ∧ w = .number y
  · obtain ⟨x, y, rfl, rfl⟩ := hnumber
    rw [cypherEq_numbers, some.injEq] at h
    rw [jsonCmp, numberCmp_eq_iff.mpr h]
  · have heqv := cypherEq_of_kinds (fun as bs hv hw => harray ⟨as, bs, hv, hw⟩)
      (fun m m' hv hw => hobject ⟨m, m', hv, hw⟩) (fun x y hv hw => hnumber ⟨x, y, hv, hw⟩) h
    have hnull : v ≠ .null := by
      rintro rfl
      unfold cypherEq at h
      rw [if_pos (.inl rfl)] at h
      cases h
    cases v with
    | null => exact absurd rfl hnull
    | bool b =>
      cases w with
      | bool c =>
        obtain rfl : b = c := of_decide_eq_true heqv
        exact congrArg some Std.ReflOrd.compare_self
      | _ => cases heqv
    | string s =>
      cases w with
      | string t =>
        obtain rfl : s = t := of_decide_eq_true heqv
        exact congrArg some Std.ReflOrd.compare_self
      | _ => cases heqv
    | number x =>
      cases w with
      | number y => exact absurd ⟨x, y, rfl, rfl⟩ hnumber
      | _ => cases heqv
    | array as =>
      cases w with
      | array bs => exact absurd ⟨as, bs, rfl, rfl⟩ harray
      | _ => cases heqv
    | object m =>
      cases w with
      | object m' => exact absurd ⟨m, m', rfl, rfl⟩ hobject
      | _ => cases heqv

/-- Objects in the order `eq` are keyed. -/
theorem keyed_of_jsonCmp {m m' : List (String × Json)} {o : Ordering}
    (h : jsonCmp (.object m) (.object m') = some o) : Keyed m m' := by
  rw [jsonCmp, objectCmp_eq_some] at h
  obtain ⟨t, k, k', ht, ht', hk, hk', -⟩ := h
  exact ⟨by rw [ht]; rfl, ht.trans ht'.symm, by rw [hk]; rfl, by rw [hk']; rfl⟩

lemma cypherEqItems_false {as bs vs ws : List Json} (hasNull : Bool)
    (h : List.Forall₂ (fun a b => cypherEq a b = some true) as bs) (hvw : cypherEq v w =
      some false) :
    cypherEqItems (as ++ v :: vs) (bs ++ w :: ws) hasNull = some false := by
  induction h with
  | nil =>
    show cypherEqItems (v :: vs) (w :: ws) hasNull = some false
    rw [cypherEqItems, hvw]
  | cons hhead _ ih =>
    rw [cons_append, cons_append, cypherEqItems, hhead]
    exact ih

lemma jsonCmpItems_append {as bs vs ws : List Json}
    (h : List.Forall₂ (fun a b => cypherEq a b = some true) as bs) (hvw : cypherEq v w =
      some false) :
    jsonCmpItems (as ++ v :: vs) (bs ++ w :: ws) = jsonCmp v w := by
  induction h with
  | nil =>
    show jsonCmpItems (v :: vs) (w :: ws) = _
    rw [jsonCmpItems, hvw]
  | cons hhead _ ih =>
    rw [cons_append, cons_append, jsonCmpItems, hhead]
    exact ih

/-- Where the loop over two arrays ends in the order `eq`: the items are equal, or it stops at
unequal items in the order `eq`. -/
theorem jsonCmpItems_eq {as bs : List Json} (h : jsonCmpItems as bs = some .eq) :
    List.Forall₂ (fun a b => cypherEq a b = some true) as bs ∨
      ∃ pre pre' v w vs ws, as = pre ++ v :: vs ∧ bs = pre' ++ w :: ws ∧
        List.Forall₂ (fun a b => cypherEq a b = some true) pre pre' ∧
        cypherEq v w = some false ∧ jsonCmp v w = some .eq := by
  induction as generalizing bs with
  | nil =>
    cases bs with
    | nil => exact .inl .nil
    | cons w bs =>
      rw [jsonCmpItems] at h
      cases h
  | cons v as ih =>
    cases bs with
    | nil =>
      rw [jsonCmpItems] at h
      cases h
    | cons w bs =>
      rw [jsonCmpItems] at h
      rcases heq : cypherEq v w with _ | _ | _
      · rw [heq] at h
        cases h
      · rw [heq] at h
        exact .inr ⟨[], [], v, w, as, bs, rfl, rfl, .nil, heq, h⟩
      · rw [heq] at h
        rcases ih h with hall | ⟨pre, pre', v', w', vs, ws, rfl, rfl, hpre, hunequal, hcmp⟩
        · exact .inl (.cons heq hall)
        · exact .inr ⟨v :: pre, w :: pre', v', w', vs, ws, rfl, rfl, .cons heq hpre, hunequal, hcmp⟩

/-- Values that `NanTie` relates are unequal and in the order `eq`. -/
theorem NanTie.spec (h : NanTie v w) (hv : v.wellFormed = true) (hw : w.wellFormed = true) :
    cypherEq v w = some false ∧ jsonCmp v w = some .eq := by
  induction h with
  | @nan m m' k hm hm' hk hk' =>
    constructor
    · unfold cypherEq
      rw [if_neg (by simp), if_pos (.inl hm)]
    · rw [jsonCmp, objectCmp_eq_some]
      exact ⟨_, k, k, (isNan_object m).mp hm, (isNan_object m').mp hm', hk, hk',
        Std.ReflOrd.compare_self⟩
  | @items as bs vs ws v w h _ ih =>
    have hequal : List.Forall₂ (fun a b => cypherEq a b = some true) as bs :=
      forall₂_imp_mem h fun a ha b hb => (cypherEq_iff_agree
        (wellFormed_item hv (mem_append_left _ ha))
        (wellFormed_item hw (mem_append_left _ hb))).mpr
    obtain ⟨hunequal, hcmp⟩ := ih
      (wellFormed_item hv (mem_append_right _ mem_cons_self))
      (wellFormed_item hw (mem_append_right _ mem_cons_self))
    constructor
    · rw [cypherEq_arrays, cypherEqItems_false false hequal hunequal]
      exact ite_self _
    · rw [jsonCmp, jsonCmpItems_append hequal hunequal, hcmp]

/-- Unequal values in the order `eq` are related by `NanTie`. -/
theorem nanTie_of_jsonCmp (hv : v.wellFormed = true) (hw : w.wellFormed = true)
    (hcmp : jsonCmp v w = some .eq) (hunequal : cypherEq v w ≠ some true) : NanTie v w := by
  induction hn : sizeOf v using Nat.strong_induction_on generalizing v w with
  | _ n ih =>
    subst hn
    cases v with
    | null =>
      unfold jsonCmp at hcmp
      cases hcmp
    | bool b =>
      cases w with
      | bool c =>
        obtain rfl : b = c := Std.LawfulEqOrd.compare_eq_iff_eq.mp (some.inj hcmp)
        exact absurd (congrArg some (Json.eqv_refl (.bool b))) hunequal
      | _ => cases hcmp
    | string s =>
      cases w with
      | string t =>
        obtain rfl : s = t := Std.LawfulEqOrd.compare_eq_iff_eq.mp (some.inj hcmp)
        exact absurd (congrArg some (Json.eqv_refl (.string s))) hunequal
      | _ => cases hcmp
    | number x =>
      cases w with
      | number y =>
        rw [jsonCmp, some.injEq, numberCmp_eq_iff] at hcmp
        rw [cypherEq_numbers, hcmp] at hunequal
        exact absurd rfl hunequal
      | _ => cases hcmp
    | array as =>
      cases w with
      | array bs =>
        rw [jsonCmp] at hcmp
        rcases jsonCmpItems_eq hcmp with hall |
          ⟨pre, pre', v, w, vs, ws, rfl, rfl, hpre, hfalse, hvw⟩
        · exact absurd (cypherEq_arrays_iff.mpr hall) hunequal
        · have hmem : v ∈ pre ++ v :: vs := mem_append_right _ mem_cons_self
          have hmem' : w ∈ pre' ++ w :: ws := mem_append_right _ mem_cons_self
          refine .items (forall₂_imp_mem hpre fun a ha b hb => (cypherEq_iff_agree
            (wellFormed_item hv (mem_append_left _ ha))
            (wellFormed_item hw (mem_append_left _ hb))).mp) ?_
          refine ih _ (sizeOf_item hmem) (wellFormed_item hv hmem)
            (wellFormed_item hw hmem') hvw ?_ rfl
          rw [hfalse]
          decide
      | _ => cases hcmp
    | object m =>
      cases w with
      | object m' =>
        rw [jsonCmp, objectCmp_eq_some] at hcmp
        obtain ⟨t, k, k', ht, ht', hk, hk', hkk'⟩ := hcmp
        obtain rfl : k = k' := Std.LawfulEqOrd.compare_eq_iff_eq.mp hkk'
        cases hnan : isNan (.object m) with
        | true =>
          have hnan' : isNan (.object m') = true := by
            rw [isNan_object, ht', ← ht]
            exact (isNan_object m).mp hnan
          exact .nan hnan hnan' hk hk'
        | false =>
          -- Neither is NaN, so that equality goes by the sort keys too.
          have hnan' : isNan (.object m') = false := by
            rw [Bool.eq_false_iff, Ne, isNan_object, ht', ← ht, ← isNan_object, hnan]
            decide
          have htagged : (getField "__type__" m).isSome := by
            have hsome : (typeTag m).isSome := by rw [ht]; rfl
            exact isSome_of_isSome_bind hsome
          rw [cypherEq_objects hnan hnan', if_pos (.inl htagged), taggedEq,
            if_pos (ht.trans ht'.symm), hk, hk'] at hunequal
          exact absurd (congrArg some (decide_eq_true rfl)) hunequal
      | _ => cases hcmp

/-- The order `eq` is equality, but for the misses. -/
theorem jsonCmp_eq_iff (hv : v.wellFormed = true) (hw : w.wellFormed = true) :
    (jsonCmp v w = some .eq ↔ cypherEq v w = some true) ↔ ¬ Miss v w := by
  constructor
  · rintro hiff (⟨m, m', rfl, rfl, hagree, hkeyless⟩ | htie)
    · have hequal := (cypherEq_iff_agree hv hw).mpr hagree
      exact hkeyless (keyed_of_jsonCmp (hiff.mpr hequal))
    · obtain ⟨hunequal, hcmp⟩ := htie.spec hv hw
      have hequal := hiff.mp hcmp
      rw [hunequal] at hequal
      cases hequal
  · intro hmiss
    constructor
    · intro hcmp
      by_contra hunequal
      exact hmiss (.inr (nanTie_of_jsonCmp hv hw hcmp hunequal))
    · intro hequal
      refine jsonCmp_of_cypherEq hequal ?_
      rintro m m' rfl rfl
      by_contra hkeyless
      exact hmiss (.inl ⟨m, m', rfl, rfl, (cypherEq_iff_agree hv hw).mp hequal, hkeyless⟩)

/-! ## The arms that are taken -/

/-- The first value that either form takes is no miss. -/
def FormsAgree (s : Json) (whens : List (Except String Json)) : Prop :=
  ∀ pre w post, whens = pre ++ .ok w :: post →
    (∀ u ∈ pre, ∃ v, u = .ok v ∧ agree s v = false ∧ ¬ NanTie s v) → ¬ Miss s w

lemma map_succ_ne (r : Except String (Option ℕ)) :
    (r.map fun i => i.map (· + 1)) ≠ .ok (some 0) := by
  rcases r with e | i | i
  · exact fun h => nomatch h
  · exact fun h => nomatch h
  · exact fun h => Nat.succ_ne_zero i (some.inj (Except.ok.inj h))

lemma map_succ_inj {r r' : Except String (Option ℕ)} :
    (r.map fun i => i.map (· + 1)) = (r'.map fun i => i.map (· + 1)) ↔ r = r' := by
  refine ⟨fun h => ?_, fun h => by rw [h]⟩
  rcases r with e | i <;> rcases r' with e' | i'
  · exact congrArg Except.error (Except.error.inj h)
  · cases h
  · cases h
  · exact congrArg Except.ok (map_injective (add_left_injective 1) (Except.ok.inj h))

/-- The two forms take the same arm just when the first value that either takes is no miss. -/
theorem selectArm_iff {s : Json} {whens : List (Except String Json)} (hs : s.wellFormed = true)
    (hw : ∀ w, .ok w ∈ whens → w.wellFormed = true) :
    selectArm (some s) whens = selectArm none (whens.map (equalsValue s)) ↔ FormsAgree s whens := by
  induction whens with
  | nil =>
    refine ⟨fun _ pre w post h => ?_, fun _ => rfl⟩
    cases pre <;> cases h
  | cons u whens ih =>
    replace ih := ih fun w hmem => hw w (mem_cons_of_mem _ hmem)
    rw [map_cons]
    cases u with
    | error e =>
      refine ⟨fun _ pre w post h hpre => ?_, fun _ => rfl⟩
      cases pre with
      | nil => cases h
      | cons u pre =>
        obtain ⟨v, hv, -⟩ := hpre u mem_cons_self
        rw [(List.cons.inj h).1.symm.trans rfl] at hv
        cases hv
    | ok w =>
      have hwf := hw w mem_cons_self
      obtain ⟨x, hx⟩ : ∃ x, equalsValue s (.ok w) = .ok x := by
        rw [equalsValue, compareValues]
        split <;> exact ⟨_, rfl⟩
      have hsearched := armMatches_equalsValue hx
      have hsimple : armMatches (some s) w = true ↔ jsonCmp s w = some .eq := decide_eq_true_iff
      rw [hx, selectArm, selectArm]
      by_cases hmiss : Miss s w
      · -- One form takes the arm and the other goes on.
        have hnot : ¬ FormsAgree s (.ok w :: whens) := fun h =>
          h [] w whens rfl (fun u hu => absurd hu not_mem_nil) hmiss
        refine iff_of_false ?_ hnot
        have hdiffer := (not_iff_not.mpr (jsonCmp_eq_iff hs hwf)).mpr (not_not.mpr hmiss)
        rw [← hsimple, ← hsearched] at hdiffer
        split
        next h =>
          rw [if_neg fun h' => hdiffer (iff_of_true h h')]
          exact (map_succ_ne _).symm
        next h =>
          rw [if_pos (by_contra fun h' => hdiffer (iff_of_false h h'))]
          exact map_succ_ne _
      · have hsame := (jsonCmp_eq_iff hs hwf).mpr hmiss
        rw [← hsimple, ← hsearched] at hsame
        split
        next h =>
          rw [if_pos (hsame.mp h)]
          refine iff_of_true rfl fun pre v post hpre hall => ?_
          cases pre with
          | nil =>
            obtain rfl := Except.ok.inj (List.cons.inj hpre).1
            exact hmiss
          | cons u pre =>
            obtain ⟨v', hv', hagree, -⟩ := hall u mem_cons_self
            rw [← (List.cons.inj hpre).1] at hv'
            obtain rfl := Except.ok.inj hv'
            rw [(cypherEq_iff_agree hs hwf).mp (hsearched.mp (hsame.mp h))] at hagree
            cases hagree
        next h =>
          have hunequal : agree s w = false := by
            rw [Bool.eq_false_iff, Ne, ← cypherEq_iff_agree hs hwf, ← hsearched]
            exact fun h' => h (hsame.mpr h')
          have htie : ¬ NanTie s w := fun htie => hmiss (.inr htie)
          rw [if_neg fun h' => h (hsame.mpr h'), map_succ_inj, ih]
          constructor
          · intro hrest pre v post hpre hall
            cases pre with
            | nil =>
              obtain rfl := Except.ok.inj (List.cons.inj hpre).1
              exact hmiss
            | cons u pre =>
              exact hrest pre v post (List.cons.inj hpre).2 fun u' hu' =>
                hall u' (mem_cons_of_mem _ hu')
          · intro hrest pre v post hpre hall
            refine hrest (.ok w :: pre) v post (by rw [hpre]; rfl) fun u hu => ?_
            rcases mem_cons.mp hu with rfl | hu
            · exact ⟨w, rfl, hunequal, htie⟩
            · exact hall u hu

/-- A simple `CASE` is the searched form with `=`, but for the misses. -/
theorem simpleCase_iff {s : Json} {arms : List ArmValues} (hs : s.wellFormed = true)
    (hw : ∀ arm ∈ arms, ∀ w, arm.when_val = .ok w → w.wellFormed = true) :
    (∀ arm ∈ arms, ∀ w, arm.when_val = .ok w →
      ((jsonCmp s w = some .eq ↔ cypherEq s w = some true) ↔ ¬ Miss s w)) ∧
    (selectArm (some s) (arms.map ArmValues.when_val) =
        selectArm none ((arms.map (ArmValues.searched s)).map ArmValues.when_val) ↔
      FormsAgree s (arms.map ArmValues.when_val)) ∧
    (FormsAgree s (arms.map ArmValues.when_val) → ∀ else_expr,
      evalCase (some s) else_expr arms =
      evalCase none else_expr (arms.map (ArmValues.searched s))) := by
  have hmap : (arms.map (ArmValues.searched s)).map ArmValues.when_val =
      (arms.map ArmValues.when_val).map (equalsValue s) := by
    rw [List.map_map, List.map_map]
    rfl
  have hselect := @selectArm_iff s (arms.map ArmValues.when_val) hs fun w hmem => by
    obtain ⟨arm, harm, hwhen⟩ := List.mem_map.mp hmem
    exact hw arm harm w hwhen
  refine ⟨fun arm harm w hwhen => jsonCmp_eq_iff hs (hw arm harm w hwhen), ?_, ?_⟩
  · rw [hmap]
    exact hselect
  · intro hagree else_expr
    rw [evalCase_eq, evalCase_eq, hmap, ← hselect.mpr hagree]
    cases selectArm (some s) (arms.map ArmValues.when_val) with
    | error e => rfl
    | ok i =>
      cases i with
      | none => rfl
      | some i =>
        dsimp only [bind_some]
        rw [getElem?_map, Option.map_map]
        rfl

/-- The arms `1` and `{}`. -/
def twoArms : List ArmValues :=
  [⟨.ok (.number (.posInt 1 F64.one_fits)), .ok (.string "one")⟩,
    ⟨.ok (.object []), .ok (.string "map")⟩]

theorem simpleCase_twoArms :
    (∀ arm ∈ twoArms, ∀ w, arm.when_val = .ok w →
      ((jsonCmp (.object []) w = some .eq ↔ cypherEq (.object []) w = some true) ↔
        ¬ Miss (.object []) w)) ∧
    (selectArm (some (.object [])) (twoArms.map ArmValues.when_val) =
        selectArm none ((twoArms.map (ArmValues.searched (.object []))).map ArmValues.when_val) ↔
      FormsAgree (.object []) (twoArms.map ArmValues.when_val)) ∧
    (FormsAgree (.object []) (twoArms.map ArmValues.when_val) → ∀ else_expr,
      evalCase (some (.object [])) else_expr twoArms =
        evalCase none else_expr (twoArms.map (ArmValues.searched (.object [])))) :=
  simpleCase_iff (by decide) fun arm harm w hwhen => by
    fin_cases harm <;> obtain rfl := Except.ok.inj hwhen <;> decide

/-- `CASE {} WHEN {} THEN true END` is null, where `CASE WHEN {} = {} THEN true END` is true. -/
theorem simpleCase_emptyMap :
    evalCase (some (.object [])) none [⟨.ok (.object []), .ok (.bool true)⟩] = .ok .null ∧
    evalCase none none [.searched (.object []) ⟨.ok (.object []), .ok (.bool true)⟩] =
      .ok (.bool true) ∧
    jsonCmp (.object []) (.object []) ≠ some .eq ∧
    cypherEq (.object []) (.object []) = some true := by
  decide

end IssunDB.Cypher
