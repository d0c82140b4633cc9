import IssunDB.Json
import IssunDB.Lib.Sorting

/-!
# Comparing values

The three comparisons of values: `cypherEq`, the equality of the language, which is unknown where a
null is met; `jsonCmp`, which orders values of one kind; and `jsonCmpTotal`, which orders all of
them and is what sorting and the extrema go by. Nodes, relationships, paths, temporal values, NaN
and the infinities are objects with a tag.
-/

namespace IssunDB.Cypher

/-! ## Tagged objects -/

/-- The value of a key, `Map::get`. -/
def getField (key : String) (fields : List (String × Json)) : Option Json :=
  (fields.find? fun f => f.1 = key).map Prod.snd

/-- `Value::as_str`. -/
def asStr : Json → Option String
  | .string s => some s
  | _ => none

/-- `Value::as_u64`. -/
def asU64 : Json → Option ℕ
  | .number (.posInt n _) => some n
  | _ => none

/-- `Value::as_array`, empty on any other value. -/
def arrayItems : Json → List Json
  | .array items => items
  | _ => []

/-- The tag of an object, where it is a string. -/
def typeTag (fields : List (String × Json)) : Option String :=
  (getField "__type__" fields).bind asStr

def sortKey (fields : List (String × Json)) : Option String :=
  (getField "__sort_key__" fields).bind asStr

def entityId (fields : List (String × Json)) : Option ℕ := (getField "id" fields).bind asU64

def pathPart (key : String) (fields : List (String × Json)) : List Json :=
  ((getField key fields).map arrayItems).getD []

/-- `is_nan`. -/
def isNan : Json → Bool
  | .object fields => typeTag fields = some "__NaN__"
  | _ => false

/-! ## Equality -/

/-- Equality of two numbers: as integers where both are, else as doubles. -/
def numberEq (n₁ n₂ : Number) : Bool :=
  match n₁.asI64, n₂.asI64 with
  | some i₁, some i₂ => i₁ = i₂
  | _, _ => n₁.asF64.scaled = n₂.asF64.scaled

/-- The answer once no difference was found. -/
def noDifference (hasNull : Bool) : Option Bool := if hasNull then none else some true

/-- Equality of two objects one of which has a tag: by the sort keys, where both have the same tag
and a sort key, else by `==`. -/
def taggedEq (lm rm : List (String × Json)) : Bool :=
  if typeTag lm = typeTag rm then
    match sortKey lm, sortKey rm with
    | some lk, some rk => lk = rk
    | _, _ => (Json.object lm).eqv (.object rm)
  else (Json.object lm).eqv (.object rm)

mutual

/-- `cypher_eq`. `none` is null. -/
def cypherEq (l r : Json) : Option Bool :=
  if l = .null ∨ r = .null then none
  else if isNan l ∨ isNan r then some false
  else
    match l, r with
    | .array la, .array ra =>
      if la.length ≠ ra.length then some false else cypherEqItems la ra false
    | .object lm, .object rm =>
      if (getField "__type__" lm).isSome ∨ (getField "__type__" rm).isSome then
        some (taggedEq lm rm)
      else if lm.length ≠ rm.length ∨ lm.any (fun f => (getField f.1 rm).isNone) then some false
      else cypherEqFields lm rm false
    | .number n₁, .number n₂ => some (numberEq n₁ n₂)
    | l, r => some (l.eqv r)

def cypherEqItems : List Json → List Json → Bool → Option Bool
  | a :: la, b :: ra, hasNull =>
    match cypherEq a b with
    | none => cypherEqItems la ra true
    | some false => some false
    | some true => cypherEqItems la ra hasNull
  | _, _, hasNull => noDifference hasNull

/-- The loop over the fields of a map, against another map with the same keys. -/
def cypherEqFields : List (String × Json) → List (String × Json) → Bool → Option Bool
  | (k, v) :: lm, rm, hasNull =>
    match cypherEq v ((getField k rm).getD .null) with
    | none => cypherEqFields lm rm true
    | some false => some false
    | some true => cypherEqFields lm rm hasNull
  | [], _, hasNull => noDifference hasNull

end

/-! ## Order -/

/-- Order of two numbers: as integers where both are, else as doubles. -/
def numberCmp (n₁ n₂ : Number) : Ordering :=
  match n₁.asI64, n₂.asI64 with
  | some i₁, some i₂ => compare i₁ i₂
  | _, _ => compare n₁.asF64.scaled n₂.asF64.scaled

/-- Order of two objects: by the sort keys, where both have the same tag and a sort key. -/
def objectCmp (m₁ m₂ : List (String × Json)) : Option Ordering :=
  match typeTag m₁, typeTag m₂ with
  | some t₁, some t₂ =>
    if t₁ = t₂ then
      match sortKey m₁, sortKey m₂ with
      | some s₁, some s₂ => some (compare s₁ s₂)
      | _, _ => none
    else none
  | _, _ => none

mutual

/-- `json_cmp`. -/
def jsonCmp : Json → Json → Option Ordering
  | .number n₁, .number n₂ => some (numberCmp n₁ n₂)
  | .string s₁, .string s₂ => some (compare s₁ s₂)
  | .bool b₁, .bool b₂ => some (compare b₁ b₂)
  | .array a₁, .array a₂ => jsonCmpItems a₁ a₂
  | .object m₁, .object m₂ => objectCmp m₁ m₂
  | _, _ => none

def jsonCmpItems : List Json → List Json → Option Ordering
  | v₁ :: a₁, v₂ :: a₂ =>
    match cypherEq v₁ v₂ with
    | some true => jsonCmpItems a₁ a₂
    | none => none
    | some false => jsonCmp v₁ v₂
  | _ :: _, [] => some .gt
  | [], _ :: _ => some .lt
  | [], [] => some .eq

end

def typeRank (v : Json) : ℕ :=
  if isNan v then 8
  else
    match v with
    | .object fields =>
      match typeTag fields with
      | none => 0
      | some "__Node__" => 1
      | some "__Edge__" => 2
      | some "__Path__" => 4
      | some _ => 5
    | .array _ => 3
    | .string _ => 6
    | .bool _ => 7
    | .number _ => 8
    | .null => 9

def rankCmp (l r : Json) : Option Ordering :=
  if isNan l ∧ isNan r then some .eq
  else if isNan l ∧ typeRank r = 8 then some .gt
  else if isNan r ∧ typeRank l = 8 then some .lt
  else if typeRank l ≠ typeRank r then some (compare (typeRank l) (typeRank r))
  else none

/-- The empty list against another list. -/
def nilCmp {α : Type} (l : List α) : Ordering := if l.isEmpty then .eq else .lt

mutual

/-- `json_cmp_total`. -/
def jsonCmpTotal (l r : Json) : Ordering :=
  match rankCmp l r with
  | some o => o
  | none =>
    match l, r with
    | .null, .null => .eq
    | .bool a, .bool b => compare a b
    | .number a, .number b => numberCmp a b
    | .string a, .string b => compare a b
    | .array a, .array b => jsonCmpTotalLists a b
    | .object a, .object b =>
      if typeRank (.object a) = 1 ∨ typeRank (.object a) = 2 then compare (entityId a) (entityId b)
      else if typeRank (.object a) = 4 then
        (jsonCmpTotalPart "nodes" a (pathPart "nodes" b)).then
          (jsonCmpTotalPart "relationships" a (pathPart "relationships" b))
      else (objectCmp a b).getD .eq
    | l, r => (jsonCmp l r).getD .eq

/-- `json_cmp_total_lists`. -/
def jsonCmpTotalLists : List Json → List Json → Ordering
  | a :: as, b :: bs => (jsonCmpTotal a b).then (jsonCmpTotalLists as bs)
  | _ :: _, [] => .gt
  | [], l => nilCmp l

/-- `json_cmp_total_lists` with a part of a path on the left. -/
def jsonCmpTotalPart (key : String) : List (String × Json) → List Json → Ordering
  | (k, v) :: fields, part =>
    if k = key then
      match v with
      | .array items => jsonCmpTotalLists items part
      | _ => nilCmp part
    else jsonCmpTotalPart key fields part
  | [], part => nilCmp part

end

end IssunDB.Cypher
