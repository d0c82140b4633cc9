import IssunDB.Storage

/-!
# Declared property indexes

What node and edge property indexes share: the notions of a missing and of a duplicate value, the
maintenance of one declared index for one record, and the check and the writes that backfill a
newly declared index over the existing records.
-/

namespace IssunDB

/-- The encoding under which a property is indexed: none if it is missing, null or has no
encoding. -/
def Props.indexed (props : Props) (name : String) : Option Encoded :=
  match props.get name with
  | some val => if val = .null then none else encodePropertyValue val
  | none => none

/-- A lookup result equals a value, `get(..) == Some(val)`. -/
def holdsValue (found : Option Json) (val : Json) : Bool :=
  match found with
  | some v => v.eqv val
  | none => false

/-- The identity under which backfilling a unique constraint looks for duplicates. -/
inductive DedupKey where
  /-- The encoding of the value, with the zeros identified. -/
  | encoded (e : Encoded)
  /-- The text of a value that has no encoding. The text determines the value and is modelled by
  it. -/
  | text (val : Json)
  deriving DecidableEq

/-- The backfill identity of a value. -/
def dedupKey (val : Json) : DedupKey :=
  match encodePropertyValue val with
  | some e => .encoded (normalizedPropertyEncoding e)
  | none => .text val

def missing (found : Option Json) : Bool := found = none ∨ found = some .null

def roleConflict (owner property : String) (existing role : IndexRole) : Error :=
  .invalidArgument (owner ++ "." ++ property ++ " already has a " ++ existing.roleName ++
    "; drop it before creating a " ++ role.roleName)

namespace Tables

/-- The constraint checks of one declared index of a label or type against a record's
properties. `unique` is the unique check of the record. -/
def declaredCheck (owner : String) (props : Props)
    (unique : PropKeyId → String → Json → Tables → Except Error Unit)
    (active : PropKeyId × IndexRole) (s : Tables) : Except Error Unit :=
  match s.propKeyName active.1 with
  | none => .ok ()
  | some propName =>
    if active.2 = .required ∧ missing (props.get propName) then
      .error (.requiredConstraintViolation owner propName)
    else
      match props.get propName with
      | none => .ok ()
      | some val =>
        if active.2 = .unique ∧ val ≠ .null then unique active.1 propName val s else .ok ()

/-- Write the entry of one declared index; `put` writes it for the record. -/
def declaredWrite (props : Props) (put : PropKeyId → Encoded → Tables → Tables)
    (active : PropKeyId × IndexRole) (s : Tables) : Tables :=
  match (s.propKeyName active.1).bind props.indexed with
  | some e => put active.1 e s
  | none => s

/-- Check one declared index against a record's properties and write its entry. -/
def indexDeclared (owner : String) (props : Props)
    (unique : PropKeyId → String → Json → Tables → Except Error Unit)
    (put : PropKeyId → Encoded → Tables → Tables) (active : PropKeyId × IndexRole) :
    Exec Error Tables PUnit := do
  Exec.check (declaredCheck owner props unique active)
  Exec.modify (declaredWrite props put active)

/-- Check one record against a new constraint, given the values seen so far. -/
def checkBackfillValue (owner property : String) (role : IndexRole) (found : Option Json)
    (seen : List DedupKey) : Except Error (List DedupKey) :=
  if role = .required ∧ missing found then .error (.requiredConstraintViolation owner property)
  else
    match found with
    | none => .ok seen
    | some val =>
      if role = .unique ∧ val ≠ .null then
        if dedupKey val ∈ seen then .error (.uniqueConstraintViolation owner property val)
        else .ok (dedupKey val :: seen)
      else .ok seen

/-- Check existing records against a new constraint. `lookup` reads the properties of a record
and `notFound` is the error for one that the scan lists but the record table lacks. -/
def checkBackfill (owner property : String) (role : IndexRole) (notFound : ℕ → Error)
    (lookup : Tables → ℕ → Option Props) : List ℕ → List DedupKey → Tables → Except Error Unit
  | [], _, _ => .ok ()
  | id :: ids, seen, s =>
    match lookup s id with
    | none => .error (notFound id)
    | some props =>
      match checkBackfillValue owner property role (props.get property) seen with
      | .error e => .error e
      | .ok seen => checkBackfill owner property role notFound lookup ids seen s

/-- Write the index entry of one existing record, null values included. -/
def backfillEntry (property : String) (notFound : ℕ → Error) (lookup : Tables → ℕ → Option Props)
    (put : Encoded → ℕ → Tables → Tables) (id : ℕ) : Exec Error Tables PUnit := fun s =>
  match lookup s id with
  | none => (.error (notFound id), s)
  | some props =>
    match (props.get property).bind encodePropertyValue with
    | some e => (.ok ⟨⟩, put e id s)
    | none => (.ok ⟨⟩, s)

end Tables

end IssunDB
