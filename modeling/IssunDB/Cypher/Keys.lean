import IssunDB.Encoding
import IssunDB.Lib.Texts
import IssunDB.Cypher.Plan
import IssunDB.Cypher.Values

/-!
# Keys of values

`DISTINCT`, grouping and hash joins identify values by a text, the canonical key. Two keys are equal
iff they are of one form (`canonicalBindingKey_eq_iff`): an entity by its id, a number by its
value as far as the key shows it, every other value by how it is written. Keys of several values are
equal iff they are equal one by one, whichever separator stands between them.
-/

namespace IssunDB.Cypher

open List

/-! ## How values are written -/

/-- Characters of numbers, and of the list of ids in a key. -/
def isWordChar (c : Char) : Bool := c.isDigit || c ∈ ['-', '+', '.', 'e', '_']

/-- How doubles are written: a text from which the double can be read back. -/
structure FloatTexts where
  /-- `Display` of `f64`. -/
  display : F64 → List Char
  /-- `serde_json`. -/
  json : F64 → List Char
  display_injective : Function.Injective display
  display_chars : ∀ f, ∀ c ∈ display f, isWordChar c = true
  json_injective : Function.Injective json
  json_chars : ∀ f, ∀ c ∈ json f, isWordChar c = true
  /-- A double is not written like an integer. -/
  json_mark : ∀ f, ∃ c ∈ json f, c = '.' ∨ c = 'e'

def hexDigit (d : ℕ) : Char := Nat.digitChar d

/-- A character of a string. -/
def escapeChar (c : Char) : List Char :=
  if c.toNat = 0x22 then ['\\', c]
  else if c.toNat = 0x5C then ['\\', c]
  else if c.toNat = 0x08 then ['\\', 'b']
  else if c.toNat = 0x09 then ['\\', 't']
  else if c.toNat = 0x0A then ['\\', 'n']
  else if c.toNat = 0x0C then ['\\', 'f']
  else if c.toNat = 0x0D then ['\\', 'r']
  else if c.toNat < 0x20 then
    ['\\', 'u', '0', '0', hexDigit (c.toNat / 16), hexDigit (c.toNat % 16)]
  else [c]

/-- The quotation mark. -/
def quote : Char := Char.ofNat 0x22

/-- A string after its opening quotation mark. -/
def stringRest (s : List Char) : List Char := s.flatMap escapeChar ++ [quote]

def stringText (s : String) : List Char := quote :: stringRest s.toList

section Text

variable (ft : FloatTexts)

def numberText : Number → List Char
  | .posInt n _ => natText n
  | .negInt i _ => intText i
  | .float f => ft.json f

mutual

/-- A value, `to_string`. -/
def jsonText : Json → List Char
  | .null => ['n', 'u', 'l', 'l']
  | .bool true => ['t', 'r', 'u', 'e']
  | .bool false => ['f', 'a', 'l', 's', 'e']
  | .number n => numberText ft n
  | .string s => stringText s
  | .array items => '[' :: itemsText items
  | .object fields => '{' :: fieldsText fields

def itemsText : List Json → List Char
  | [] => [']']
  | v :: items => jsonText v ++ restItemsText items

def restItemsText : List Json → List Char
  | [] => [']']
  | v :: items => ',' :: (jsonText v ++ restItemsText items)

def fieldsText : List (String × Json) → List Char
  | [] => ['}']
  | (k, v) :: fields => stringText k ++ ':' :: (jsonText v ++ restFieldsText fields)

def restFieldsText : List (String × Json) → List Char
  | [] => ['}']
  | (k, v) :: fields => ',' :: (stringText k ++ ':' :: (jsonText v ++ restFieldsText fields))

end

/-! ## Keys -/

/-- `canonical_cell_key`. -/
def canonicalCellKey (v : Json) : List Char :=
  match v with
  | .number n =>
    match n.asI64, asU64 v with
    | some i, _ => 'N' :: intText i
    | none, some u => 'N' :: natText u
    | none, none =>
      let f := n.asF64
      if f.scaled = 0 then ['N', '0']
      else if inI64Range f then 'N' :: intText (saturatingI64 f)
      else 'F' :: ft.display f
  | v => 'J' :: jsonText ft v

/-- `wrapped_graph_id`. -/
def wrappedGraphId : Json → Option (Bool × ℕ)
  | .object m =>
    if typeTag m = some "__Node__" then (entityId m).map (true, ·)
    else if typeTag m = some "__Edge__" then (entityId m).map (false, ·)
    else none
  | _ => none

def wrappedEdgeId (item : Json) : Option EdgeId :=
  match wrappedGraphId item with
  | some (false, id) => some id
  | _ => none

/-- The relationships a value lists, where it lists some. -/
def wrappedEdgeIds (v : Json) : Option (List EdgeId) :=
  match v with
  | .array items =>
    match items.mapM wrappedEdgeId with
    | some ids => if ids.isEmpty then none else some ids
    | none => none
  | _ => none

/-- `edge_list_key`. -/
def edgeListKey (ids : List EdgeId) : List Char :=
  ['@', 'e', 'l'] ++ ids.flatMap fun id => '_' :: natText id

/-- `canonical_binding_key`. -/
def canonicalBindingKey : Option GraphBinding → List Char
  | some (.node id) => ['@', 'n'] ++ natText id
  | some (.edge id) => ['@', 'e'] ++ natText id
  | some (.edgeList ids) => edgeListKey ids
  | some (.scalar v) =>
    match wrappedGraphId v with
    | some (true, id) => ['@', 'n'] ++ natText id
    | some (false, id) => ['@', 'e'] ++ natText id
    | none =>
      match wrappedEdgeIds v with
      | some ids => edgeListKey ids
      | none => canonicalCellKey ft v
  | none => ['@', '_']

/-- `canonical_row_key`. -/
def canonicalRowKey (values : List Json) : List Char :=
  values.flatMap fun v => Char.ofNat 1 :: canonicalCellKey ft v

/-- The key of a row under `RETURN DISTINCT *`. -/
def starRowKey (row : List (Option GraphBinding)) : List Char :=
  row.flatMap fun b => Char.ofNat 1 :: canonicalBindingKey ft b

/-- The key of a row in the keyed `Distinct` operator. -/
def distinctKey (row : List (Option GraphBinding)) : List Char :=
  List.intercalate ['|'] (row.map (canonicalBindingKey ft))

def groupKey (values : List Json) : List Char :=
  List.intercalate [Char.ofNat 0] (values.map (canonicalCellKey ft))

end Text

/-! ## Reading texts back -/

/-- A character of a string and what follows it. -/
def unescape : List Char → Option (Char × List Char)
  | '\\' :: 'b' :: r => some (Char.ofNat 0x08, r)
  | '\\' :: 't' :: r => some (Char.ofNat 0x09, r)
  | '\\' :: 'n' :: r => some (Char.ofNat 0x0A, r)
  | '\\' :: 'f' :: r => some (Char.ofNat 0x0C, r)
  | '\\' :: 'r' :: r => some (Char.ofNat 0x0D, r)
  | '\\' :: 'u' :: '0' :: '0' :: h :: l :: r =>
    some (Char.ofNat ((if h = '1' then 16 else 0) +
      (if l.isDigit then l.toNat - 48 else l.toNat - 87)), r)
  | '\\' :: c :: r => some (c, r)
  | c :: r => some (c, r)
  | [] => none

lemma unescape_escapeChar (c : Char) (r : List Char) :
    unescape (escapeChar c ++ r) = some (c, r) := by
  have hcode : ∀ k, c.toNat = k → c = Char.ofNat k := fun k hk => by
    rw [← hk, Char.ofNat_toNat]
  by_cases hcontrol : c.toNat < 0x20
  · -- One of the thirty-two control characters.
    obtain ⟨k, hk⟩ : ∃ k, c.toNat = k := ⟨_, rfl⟩
    rw [hk] at hcontrol
    rw [hcode k hk]
    interval_cases k <;> rfl
  by_cases hquote : c.toNat = 0x22
  · rw [hcode _ hquote]
    rfl
  by_cases hslash : c.toNat = 0x5C
  · rw [hcode _ hslash]
    rfl
  · have hself : escapeChar c = [c] := by
      unfold escapeChar
      rw [if_neg hquote, if_neg hslash, if_neg (by omega), if_neg (by omega), if_neg (by omega),
        if_neg (by omega), if_neg (by omega), if_neg (by omega)]
    have hne : c ≠ Char.ofNat 0x5C := fun h => hslash (by rw [h]; rfl)
    rw [hself]
    unfold unescape
    split <;> simp_all

lemma escapeChar_head (c : Char) : ∃ d l, escapeChar c = d :: l ∧ d ≠ quote := by
  unfold escapeChar
  split_ifs with h
  · exact ⟨_, _, rfl, by decide⟩
  · exact ⟨_, _, rfl, by decide⟩
  · exact ⟨_, _, rfl, by decide⟩
  · exact ⟨_, _, rfl, by decide⟩
  · exact ⟨_, _, rfl, by decide⟩
  · exact ⟨_, _, rfl, by decide⟩
  · exact ⟨_, _, rfl, by decide⟩
  · exact ⟨_, _, rfl, by decide⟩
  · exact ⟨c, [], rfl, fun hc => h (by rw [hc]; rfl)⟩

lemma stringRest_inj {a b r s : List Char} (h : stringRest a ++ r = stringRest b ++ s) :
    a = b ∧ r = s := by
  have hcons : ∀ (c : Char) (l r : List Char),
      stringRest (c :: l) ++ r = escapeChar c ++ (stringRest l ++ r) := by
    intro c l r
    simp [stringRest]
  have hnil : ∀ r : List Char, stringRest [] ++ r = quote :: r := fun r => rfl
  induction a generalizing b with
  | nil =>
    cases b with
    | nil => exact ⟨rfl, (List.cons.inj h).2⟩
    | cons d b =>
      obtain ⟨x, l, hx, hne⟩ := escapeChar_head d
      rw [hnil, hcons, hx] at h
      exact absurd (List.cons.inj h).1.symm hne
  | cons c a ih =>
    cases b with
    | nil =>
      obtain ⟨x, l, hx, hne⟩ := escapeChar_head c
      rw [hnil, hcons, hx] at h
      exact absurd (List.cons.inj h).1 hne
    | cons d b =>
      rw [hcons, hcons] at h
      have hread := congrArg unescape h
      rw [unescape_escapeChar, unescape_escapeChar, Option.some.injEq, Prod.mk.injEq] at hread
      obtain ⟨rfl, hrest⟩ := hread
      obtain ⟨rfl, hrs⟩ := ih hrest
      exact ⟨rfl, hrs⟩

lemma stringText_inj {k l : String} {r s : List Char} (h : stringText k ++ r = stringText l ++ s) :
    k = l ∧ r = s :=
  (stringRest_inj (List.cons.inj h).2).imp_left String.toList_inj.mp

section Reading

variable {ft : FloatTexts}

lemma isWordChar_of_isDigit {c : Char} (h : c.isDigit = true) : isWordChar c = true := by
  unfold isWordChar
  rw [h]
  rfl

lemma isWordChar_intText (i : ℤ) : ∀ c ∈ intText i, isWordChar c = true := by
  intro c hc
  rcases mem_intText hc with hdigit | rfl
  · exact isWordChar_of_isDigit hdigit
  · rfl

lemma isWordChar_natText (n : ℕ) : ∀ c ∈ natText n, isWordChar c = true :=
  fun _ hc => isWordChar_of_isDigit (isDigit_of_mem_natText hc)

lemma readable_numberText : Readable isWordChar (numberText ft) := by
  have hnat : ∀ n : ℕ, natText n = intText n := by
    intro n
    unfold intText
    rw [if_neg (by omega)]
    rfl
  have hmark : ∀ (f : F64) (i : ℤ), ft.json f ≠ intText i := by
    intro f i h
    obtain ⟨c, hc, hmark⟩ := ft.json_mark f
    rw [h] at hc
    rcases mem_intText hc with hdigit | rfl
    · rcases hmark with rfl | rfl <;> exact absurd hdigit (by decide)
    · rcases hmark with hmark | hmark <;> exact absurd hmark (by decide)
  apply Readable.of_words
  · intro x
    cases x with
    | posInt n _ => exact isWordChar_natText n
    | negInt i _ => exact isWordChar_intText i
    | float f => exact ft.json_chars f
  · intro x y h
    cases x with
    | posInt m hm =>
      cases y with
      | posInt n hn =>
        obtain rfl := natText_injective h
        rfl
      | negInt j hj =>
        have := intText_injective ((hnat m).symm.trans h)
        omega
      | float g => exact absurd ((hnat m).symm.trans h).symm (hmark g m)
    | negInt i hi =>
      cases y with
      | posInt n hn =>
        have := intText_injective (h.trans (hnat n))
        omega
      | negInt j hj =>
        obtain rfl := intText_injective h
        rfl
      | float g => exact absurd h.symm (hmark g i)
    | float f =>
      cases y with
      | posInt n hn => exact absurd (h.trans (hnat n)) (hmark f n)
      | negInt j hj => exact absurd h (hmark f j)
      | float g => rw [ft.json_injective h]

lemma numberText_head (x : Number) : ∃ c l, numberText ft x = c :: l ∧ isWordChar c = true := by
  have hcons : ∀ l : List Char, l ≠ [] → (∀ c ∈ l, isWordChar c = true) →
      ∃ c l', l = c :: l' ∧ isWordChar c = true := by
    intro l hne hl
    cases l with
    | nil => exact absurd rfl hne
    | cons c l => exact ⟨c, l, rfl, hl c mem_cons_self⟩
  cases x with
  | posInt n _ => exact hcons _ (natText_ne_nil n) (isWordChar_natText n)
  | negInt i _ => exact hcons _ (intText_ne_nil i) (isWordChar_intText i)
  | float f =>
    obtain ⟨c, hc, -⟩ := ft.json_mark f
    exact hcons _ (ne_nil_of_mem hc) (ft.json_chars f)

/-- The first character of a value that is no number. -/
def leadChar : Json → Char
  | .null => 'n'
  | .bool true => 't'
  | .bool false => 'f'
  | .number _ => '0'
  | .string _ => quote
  | .array _ => '['
  | .object _ => '\x7b'

/-- The kind of a value, with its truth value if it is a boolean. -/
def kindOf : Json → ℕ
  | .null => 0
  | .bool true => 1
  | .bool false => 2
  | .number _ => 3
  | .string _ => 4
  | .array _ => 5
  | .object _ => 6

lemma jsonText_head (v : Json) : ∃ c l, jsonText ft v = c :: l ∧
    (kindOf v = 3 ∧ isWordChar c = true ∨ kindOf v ≠ 3 ∧ isWordChar c = false ∧
    c = leadChar v) := by
  cases v with
  | null => exact ⟨_, _, by unfold jsonText; rfl, by decide⟩
  | bool b =>
    cases b with
    | true => exact ⟨_, _, by unfold jsonText; rfl, by decide⟩
    | false => exact ⟨_, _, by unfold jsonText; rfl, by decide⟩
  | number x =>
    obtain ⟨c, l, hcl, hc⟩ := @numberText_head ft x
    exact ⟨c, l, by unfold jsonText; exact hcl, .inl ⟨rfl, hc⟩⟩
  | string s =>
    exact ⟨quote, _, by unfold jsonText stringText; rfl, .inr ⟨by simp [kindOf], by decide, rfl⟩⟩
  | array items =>
    exact ⟨'[', _, by unfold jsonText; rfl, .inr ⟨by simp [kindOf], by decide, rfl⟩⟩
  | object fields =>
    exact ⟨'\x7b', _, by unfold jsonText; rfl, .inr ⟨by simp [kindOf], by decide, rfl⟩⟩

variable {r s : List Char}

/-- The first character tells of which kind a value is. -/
theorem kindOf_eq {v w : Json} (h : jsonText ft v ++ r = jsonText ft w ++ s) :
    kindOf v = kindOf w := by
  obtain ⟨c, l, hcl, hc⟩ := @jsonText_head ft v
  obtain ⟨d, m, hdm, hd⟩ := @jsonText_head ft w
  rw [hcl, hdm] at h
  obtain rfl := (List.cons.inj h).1
  rcases hc with ⟨hv, hword⟩ | ⟨hv, hword, hlead⟩ <;>
    rcases hd with ⟨hw, hword'⟩ | ⟨hw, hword', hlead'⟩
  · rw [hv, hw]
  · rw [hword] at hword'
    cases hword'
  · rw [hword] at hword'
    cases hword'
  · rw [hlead] at hlead'
    -- The marks of different kinds differ.
    have hmarks : ∀ v : Json, kindOf v ≠ 3 →
        (kindOf v, leadChar v) ∈
        [(0, 'n'), (1, 't'), (2, 'f'), (4, quote), (5, '['), (6, '\x7b')] := by
      intro v hv
      cases v with
      | bool b => cases b <;> decide
      | number x => exact absurd rfl hv
      | _ => simp [kindOf, leadChar]
    have hinj : ∀ p ∈ [(0, 'n'), (1, 't'), (2, 'f'), (4, quote), (5, '['), (6, '\x7b')],
        ∀ q ∈ [(0, 'n'), (1, 't'), (2, 'f'), (4, quote), (5, '['), (6, '\x7b')],
          p.2 = q.2 → p.1 = q.1 := by decide
    exact hinj _ (hmarks v hv) _ (hmarks w hw) hlead'

/-- A text does not begin like the end of a list. -/
theorem jsonText_ne_close (v : Json) (r s : List Char) {c : Char}
    (hc : c = ']' ∨ c = '\x7d' ∨ c = ',') : jsonText ft v ++ r ≠ c :: s := by
  intro h
  obtain ⟨d, l, hdl, hd⟩ := @jsonText_head ft v
  rw [hdl] at h
  obtain rfl := (List.cons.inj h).1
  rcases hd with ⟨-, hword⟩ | ⟨-, -, hlead⟩
  · rcases hc with rfl | rfl | rfl <;> exact absurd hword (by decide)
  · have hlead' : leadChar v ∈ ['n', 't', 'f', '0', quote, '[', '\x7b'] := by
      cases v with
      | bool b => cases b <;> decide
      | _ => simp [leadChar]
    rw [← hlead] at hlead'
    rcases hc with rfl | rfl | rfl <;> exact absurd hlead' (by decide)

lemma breaks_restItemsText (items : List Json) (r : List Char) :
    Breaks isWordChar (restItemsText ft items ++ r) := by
  cases items <;> unfold restItemsText <;> exact breaks_cons.mpr (by decide)

/-- After the first item only a comma is added. -/
theorem itemsText_of_rest {as bs : List Json}
    (h : restItemsText ft as ++ r = restItemsText ft bs ++ s) :
    itemsText ft as ++ r = itemsText ft bs ++ s := by
  cases as <;> cases bs <;> unfold restItemsText at h <;>
    first | exact h | exact (List.cons.inj h).2 | exact absurd (List.cons.inj h).1 (by decide)

lemma fieldsText_of_rest {as bs : List (String × Json)}
    (h : restFieldsText ft as ++ r = restFieldsText ft bs ++ s) :
    fieldsText ft as ++ r = fieldsText ft bs ++ s := by
  cases as <;> cases bs <;> unfold restFieldsText at h <;>
    first | exact h | exact (List.cons.inj h).2 | exact absurd (List.cons.inj h).1 (by decide)

lemma breaks_restFieldsText (fields : List (String × Json)) (r : List Char) :
    Breaks isWordChar (restFieldsText ft fields ++ r) := by
  cases fields with
  | nil => unfold restFieldsText; exact breaks_cons.mpr (by decide)
  | cons f fields => unfold restFieldsText; exact breaks_cons.mpr (by decide)

mutual

/-- **Values are written apart.** -/
theorem jsonText_inj :
    (v w : Json) → {r s : List Char} → Breaks isWordChar r → Breaks isWordChar s →
    jsonText ft v ++ r = jsonText ft w ++ s → v = w ∧ r = s
  | .null, w, r, s, _, _, h => by
    have hkind := kindOf_eq h
    cases w with
    | null => exact ⟨rfl, append_cancel_left h⟩
    | bool b => cases b <;> cases hkind
    | _ => cases hkind
  | .bool a, w, r, s, _, _, h => by
    have hkind := kindOf_eq h
    cases w with
    | bool b =>
      obtain rfl : a = b := by cases a <;> cases b <;> first | rfl | cases hkind
      exact ⟨rfl, append_cancel_left h⟩
    | _ => cases a <;> cases hkind
  | .number x, w, r, s, hr, hs, h => by
    have hkind := kindOf_eq h
    cases w with
    | bool b => cases b <;> cases hkind
    | number y =>
      unfold jsonText at h
      obtain ⟨rfl, hrs⟩ := readable_numberText x y r s hr hs h
      exact ⟨rfl, hrs⟩
    | _ => cases hkind
  | .string a, w, r, s, _, _, h => by
    have hkind := kindOf_eq h
    cases w with
    | bool b => cases b <;> cases hkind
    | string b =>
      unfold jsonText at h
      obtain ⟨rfl, hrs⟩ := stringText_inj h
      exact ⟨rfl, hrs⟩
    | _ => cases hkind
  | .array items, w, r, s, _, _, h => by
    have hkind := kindOf_eq h
    cases w with
    | bool b => cases b <;> cases hkind
    | array items' =>
      unfold jsonText at h
      obtain ⟨rfl, hrs⟩ := itemsText_inj items items' (List.cons.inj h).2
      exact ⟨rfl, hrs⟩
    | _ => cases hkind
  | .object fields, w, r, s, _, _, h => by
    have hkind := kindOf_eq h
    cases w with
    | bool b => cases b <;> cases hkind
    | object fields' =>
      unfold jsonText at h
      obtain ⟨rfl, hrs⟩ := fieldsText_inj fields fields' (List.cons.inj h).2
      exact ⟨rfl, hrs⟩
    | _ => cases hkind

theorem itemsText_inj : (as bs : List Json) → {r s : List Char} →
    itemsText ft as ++ r = itemsText ft bs ++ s → as = bs ∧ r = s
  | [], [], r, s, h => ⟨rfl, append_cancel_left h⟩
  | [], b :: bs, r, s, h => by
    unfold itemsText at h
    rw [append_assoc] at h
    exact absurd h.symm (jsonText_ne_close b _ _ (.inl rfl))
  | a :: as, [], r, s, h => by
    unfold itemsText at h
    rw [append_assoc] at h
    exact absurd h (jsonText_ne_close a _ _ (.inl rfl))
  | a :: as, b :: bs, r, s, h => by
    unfold itemsText at h
    rw [append_assoc, append_assoc] at h
    obtain ⟨rfl, hrest⟩ :=
      jsonText_inj a b (breaks_restItemsText as r) (breaks_restItemsText bs s) h
    obtain ⟨rfl, hrs⟩ := itemsText_inj as bs (itemsText_of_rest hrest)
    exact ⟨rfl, hrs⟩

theorem fieldsText_inj : (as bs : List (String × Json)) → {r s : List Char} →
    fieldsText ft as ++ r = fieldsText ft bs ++ s → as = bs ∧ r = s
  | [], [], r, s, h => ⟨rfl, append_cancel_left h⟩
  | [], (l, b) :: bs, r, s, h => by
    unfold fieldsText at h
    exact absurd (List.cons.inj h).1 (by decide)
  | (k, a) :: as, [], r, s, h => by
    unfold fieldsText at h
    exact absurd (List.cons.inj h).1 (by decide)
  | (k, a) :: as, (l, b) :: bs, r, s, h => by
    unfold fieldsText at h
    rw [append_assoc, append_assoc] at h
    obtain ⟨rfl, hvalue⟩ := stringText_inj h
    rw [cons_append, cons_append] at hvalue
    have htail := (List.cons.inj hvalue).2
    rw [append_assoc, append_assoc] at htail
    obtain ⟨rfl, hrest⟩ :=
      jsonText_inj a b (breaks_restFieldsText as r) (breaks_restFieldsText bs s) htail
    obtain ⟨rfl, hrs⟩ := fieldsText_inj as bs (fieldsText_of_rest hrest)
    exact ⟨rfl, hrs⟩

end

lemma readable_jsonText : Readable isWordChar (jsonText ft) :=
  fun v w _ _ hr hs h => jsonText_inj v w hr hs h

end Reading

/-! ## Forms -/

/-- What a key shows. -/
inductive KeyForm where
  | absent
  | node (id : NodeId)
  | edge (id : EdgeId)
  | edgeList (ids : List EdgeId)
  | int (i : ℤ)
  | float (f : F64)
  | value (v : Json)
  deriving DecidableEq

/-- A number: by its value where a double is integral and in the range of a signed integer. -/
def numberForm : Number → KeyForm
  | .posInt n _ => .int n
  | .negInt i _ => .int i
  | .float f =>
    if f.scaled = 0 then .int 0
    else if inI64Range f then .int (saturatingI64 f)
    else .float f

def cellForm : Json → KeyForm
  | .number x => numberForm x
  | v => .value v

def bindingForm : Option GraphBinding → KeyForm
  | some (.node id) => .node id
  | some (.edge id) => .edge id
  | some (.edgeList ids) => .edgeList ids
  | some (.scalar v) =>
    match wrappedGraphId v with
    | some (true, id) => .node id
    | some (false, id) => .edge id
    | none =>
      match wrappedEdgeIds v with
      | some ids => .edgeList ids
      | none => cellForm v
  | none => .absent

lemma numberForm_cases (x : Number) :
    (∃ i, numberForm x = .int i) ∨ ∃ f, numberForm x = .float f := by
  unfold numberForm
  split
  · exact .inl ⟨_, rfl⟩
  · exact .inl ⟨_, rfl⟩
  · split_ifs
    · exact .inl ⟨_, rfl⟩
    · exact .inl ⟨_, rfl⟩
    · exact .inr ⟨_, rfl⟩

section Forms

variable (ft : FloatTexts)

def KeyForm.text : KeyForm → List Char
  | absent => ['@', '_']
  | node id => ['@', 'n'] ++ natText id
  | edge id => ['@', 'e'] ++ natText id
  | edgeList ids => ['@', 'e', 'l'] ++ ids.flatMap fun id => '_' :: natText id
  | int i => ['N'] ++ intText i
  | float f => ['F'] ++ ft.display f
  | value v => ['J'] ++ jsonText ft v

lemma canonicalCellKey_eq (v : Json) : canonicalCellKey ft v = (cellForm v).text ft := by
  have hnat : ∀ n : ℕ, intText n = natText n := by
    intro n
    unfold intText
    rw [if_neg (by omega)]
    rfl
  cases v with
  | number x =>
    cases x with
    | posInt n h =>
      show canonicalCellKey ft _ = 'N' :: intText n
      unfold canonicalCellKey
      dsimp only [Number.asI64, asU64]
      split
      next hi =>
        split at hi
        · rw [← Option.some.inj hi]
        · cases hi
      next hu => rw [hnat, ← Option.some.inj hu]
      next hu => cases hu
    | negInt i h => rfl
    | float f =>
      show (if f.scaled = 0 then ['N', '0']
        else if inI64Range f then 'N' :: intText (saturatingI64 f) else 'F' :: ft.display f) =
          (if f.scaled = 0 then KeyForm.int 0
            else if inI64Range f then .int (saturatingI64 f) else .float f).text ft
      split_ifs <;> rfl
  | _ => rfl

lemma canonicalBindingKey_eq (b : Option GraphBinding) :
    canonicalBindingKey ft b = (bindingForm b).text ft := by
  unfold canonicalBindingKey bindingForm
  split
  · rfl
  · rfl
  · rfl
  next v =>
    rcases wrappedGraphId v with _ | ⟨_ | _, id⟩
    · rcases wrappedEdgeIds v with _ | ids
      · exact canonicalCellKey_eq ft v
      · rfl
    · rfl
    · rfl
  · rfl

variable {ft}

lemma readable_natText : Readable isWordChar natText :=
  .of_words isWordChar_natText natText_injective

lemma readable_edgeIds :
    Readable isWordChar fun ids : List EdgeId => ids.flatMap fun id => '_' :: natText id := by
  apply Readable.of_words
  · intro ids c hc
    obtain ⟨id, -, hid⟩ := mem_flatMap.mp hc
    rcases mem_cons.mp hid with rfl | hdigit
    · rfl
    · exact isWordChar_natText id c hdigit
  · intro ids ids' h
    have hdigits : Readable Char.isDigit natText :=
      .of_words (fun _ _ => isDigit_of_mem_natText) natText_injective
    exact hdigits.flatMap_inj (by decide) h

/-- **Keys are written apart.** -/
theorem readable_text : Readable isWordChar (KeyForm.text ft) := by
  have hdigit : ∀ (id : ℕ) (r s : List Char), natText id ++ r ≠ 'l' :: s := by
    intro id r s h
    rcases hid : natText id with _ | ⟨c, l⟩
    · exact natText_ne_nil id hid
    · rw [hid] at h
      have hc := isDigit_of_mem_natText (hid ▸ mem_cons_self : c ∈ natText id)
      rw [(List.cons.inj h).1] at hc
      exact absurd hc (by decide)
  intro a b r s hr hs h
  cases a with
  | absent =>
    cases b with
    | absent => exact ⟨rfl, append_cancel_left h⟩
    | _ => simp [KeyForm.text] at h
  | node m =>
    cases b with
    | node n =>
      exact (Readable.mark readable_natText ['@', 'n'] m n r s hr hs h).imp_left (congrArg _)
    | _ => simp [KeyForm.text] at h
  | edge m =>
    cases b with
    | edge n =>
      exact (Readable.mark readable_natText ['@', 'e'] m n r s hr hs h).imp_left (congrArg _)
    | edgeList ids =>
      have htail := append_cancel_left (show ['@', 'e'] ++ (natText m ++ r) =
        ['@', 'e'] ++ ('l' :: (ids.flatMap (fun id => '_' :: natText id) ++ s)) from h)
      exact absurd htail (hdigit m r _)
    | _ => simp [KeyForm.text] at h
  | edgeList ids =>
    cases b with
    | edge n =>
      have htail := append_cancel_left (show ['@', 'e'] ++ (natText n ++ s) =
        ['@', 'e'] ++ ('l' :: (ids.flatMap (fun id => '_' :: natText id) ++ r)) from h.symm)
      exact absurd htail (hdigit n s _)
    | edgeList ids' =>
      exact (Readable.mark readable_edgeIds ['@', 'e', 'l'] ids ids' r s hr hs h).imp_left
        (congrArg _)
    | _ => simp [KeyForm.text] at h
  | int i =>
    cases b with
    | int j =>
      have hread : Readable isWordChar intText := .of_words isWordChar_intText intText_injective
      exact (hread.mark ['N'] i j r s hr hs h).imp_left (congrArg _)
    | _ => simp [KeyForm.text] at h
  | float f =>
    cases b with
    | float g =>
      have hread : Readable isWordChar ft.display :=
        .of_words ft.display_chars ft.display_injective
      exact (hread.mark ['F'] f g r s hr hs h).imp_left (congrArg _)
    | _ => simp [KeyForm.text] at h
  | value v =>
    cases b with
    | value w => exact (Readable.mark readable_jsonText ['J'] v w r s hr hs h).imp_left (congrArg _)
    | _ => simp [KeyForm.text] at h

lemma text_injective : Function.Injective (KeyForm.text ft) := Readable.injective readable_text

/-- **Keys are equal iff they show the same.** -/
theorem canonicalBindingKey_eq_iff {a b : Option GraphBinding} :
    canonicalBindingKey ft a = canonicalBindingKey ft b ↔ bindingForm a = bindingForm b := by
  rw [canonicalBindingKey_eq, canonicalBindingKey_eq]
  exact Function.Injective.eq_iff text_injective

lemma canonicalCellKey_eq_iff {v w : Json} :
    canonicalCellKey ft v = canonicalCellKey ft w ↔ cellForm v = cellForm w := by
  rw [canonicalCellKey_eq, canonicalCellKey_eq]
  exact Function.Injective.eq_iff text_injective

end Forms

/-! ## Keys of several values -/

section Rows

variable {ft : FloatTexts}

variable {values values' : List Json} {row row' : List (Option GraphBinding)}

lemma map_cellKey_eq_iff :
    values.map (canonicalCellKey ft) = values'.map (canonicalCellKey ft) ↔
      values.map cellForm = values'.map cellForm := by
  have hkey : canonicalCellKey ft = KeyForm.text ft ∘ cellForm := funext (canonicalCellKey_eq ft)
  rw [hkey, ← map_map, ← map_map]
  exact (map_injective_iff.mpr text_injective).eq_iff

lemma map_bindingKey_eq_iff :
    row.map (canonicalBindingKey ft) = row'.map (canonicalBindingKey ft) ↔
      row.map bindingForm = row'.map bindingForm := by
  have hkey : canonicalBindingKey ft = KeyForm.text ft ∘ bindingForm :=
    funext (canonicalBindingKey_eq ft)
  rw [hkey, ← map_map, ← map_map]
  exact (map_injective_iff.mpr text_injective).eq_iff

/-- **Rows of values.** -/
theorem canonicalRowKey_eq_iff :
    canonicalRowKey ft values = canonicalRowKey ft values' ↔
      values.map (canonicalCellKey ft) = values'.map (canonicalCellKey ft) := by
  have hkey : ∀ values, canonicalRowKey ft values =
      (values.map cellForm).flatMap fun a => Char.ofNat 1 :: a.text ft := by
    intro values
    unfold canonicalRowKey
    simp only [canonicalCellKey_eq, flatMap_map]
  rw [map_cellKey_eq_iff, hkey, hkey]
  exact ⟨Readable.flatMap_inj readable_text (by decide), fun h => by rw [h]⟩

/-- **Rows of bindings.** -/
theorem starRowKey_eq_iff :
    starRowKey ft row = starRowKey ft row' ↔
      row.map (canonicalBindingKey ft) = row'.map (canonicalBindingKey ft) := by
  have hkey : ∀ row, starRowKey ft row =
      (row.map bindingForm).flatMap fun a => Char.ofNat 1 :: a.text ft := by
    intro row
    unfold starRowKey
    simp only [canonicalBindingKey_eq, flatMap_map]
  rw [map_bindingKey_eq_iff, hkey, hkey]
  exact ⟨Readable.flatMap_inj readable_text (by decide), fun h => by rw [h]⟩

lemma distinctKey_eq_iff (hlen : row.length = row'.length) :
    distinctKey ft row = distinctKey ft row' ↔
      row.map (canonicalBindingKey ft) = row'.map (canonicalBindingKey ft) := by
  have hkey : ∀ row : List (Option GraphBinding), row.map (canonicalBindingKey ft) =
      (row.map bindingForm).map (KeyForm.text ft) := by
    intro row
    rw [map_map]
    exact map_congr_left fun b _ => canonicalBindingKey_eq ft b
  constructor
  · intro h
    unfold distinctKey at h
    rw [hkey, hkey] at h ⊢
    rw [Readable.intercalate_inj readable_text (by decide) (by simpa using hlen) h]
  · intro h
    unfold distinctKey
    rw [h]

lemma groupKey_eq_iff (hlen : values.length = values'.length) :
    groupKey ft values = groupKey ft values' ↔
      values.map (canonicalCellKey ft) = values'.map (canonicalCellKey ft) := by
  have hkey : ∀ values : List Json, values.map (canonicalCellKey ft) =
      (values.map cellForm).map (KeyForm.text ft) := by
    intro values
    rw [map_map]
    exact map_congr_left fun v _ => canonicalCellKey_eq ft v
  constructor
  · intro h
    unfold groupKey at h
    rw [hkey, hkey] at h ⊢
    rw [Readable.intercalate_inj readable_text (by decide) (by simpa using hlen) h]
  · intro h
    unfold groupKey
    rw [h]

end Rows

/-! ## One way to write doubles -/

/-- A double by its sign and the two fields of its bit pattern. -/
def bitsText (f : F64) : List Char :=
  (if f.negative then ['-'] else []) ++ (natText f.biased ++ '.' :: natText f.fraction)

lemma bitsText_injective : Function.Injective bitsText := by
  have hfields : ∀ b m b' m' : ℕ, natText b ++ '.' :: natText m = natText b' ++ '.' :: natText m' →
      b = b' ∧ m = m' := by
    intro b m b' m' h
    obtain ⟨hb, hm⟩ := @append_inj_of_words Char.isDigit _ _ _ _
      (fun _ => isDigit_of_mem_natText) (fun _ => isDigit_of_mem_natText)
      (breaks_cons.mpr (by decide)) (breaks_cons.mpr (by decide)) h
    exact ⟨natText_injective hb, natText_injective (List.cons.inj hm).2⟩
  have hsign : ∀ (n : ℕ) (r l : List Char), natText n ++ r ≠ '-' :: l := by
    intro n r l h
    rcases hn : natText n with _ | ⟨c, l'⟩
    · exact natText_ne_nil n hn
    · rw [hn] at h
      have hc := isDigit_of_mem_natText (hn ▸ mem_cons_self : c ∈ natText n)
      rw [(List.cons.inj h).1] at hc
      exact absurd hc (by decide)
  rintro ⟨s, b, m, hb, hm⟩ ⟨s', b', m', hb', hm'⟩ h
  unfold bitsText at h
  cases s <;> cases s'
  · obtain ⟨rfl, rfl⟩ := hfields b m b' m' h
    rfl
  · exact absurd h (hsign _ _ _)
  · exact absurd h.symm (hsign _ _ _)
  · obtain ⟨rfl, rfl⟩ := hfields b m b' m' (List.cons.inj h).2
    rfl

lemma isWordChar_bitsText (f : F64) : ∀ c ∈ bitsText f, isWordChar c = true := by
  intro c hc
  unfold bitsText at hc
  simp only [mem_append, mem_cons] at hc
  rcases hc with hc | hc | rfl | hc
  · split at hc
    · rw [mem_singleton.mp hc]
      rfl
    · cases hc
  · exact isWordChar_natText _ c hc
  · rfl
  · exact isWordChar_natText _ c hc

/-- One way to write doubles. -/
def bitsTexts : FloatTexts where
  display := bitsText
  json := bitsText
  display_injective := bitsText_injective
  display_chars := isWordChar_bitsText
  json_injective := bitsText_injective
  json_chars := isWordChar_bitsText
  json_mark f := ⟨'.', by unfold bitsText; simp, .inl rfl⟩

end IssunDB.Cypher
