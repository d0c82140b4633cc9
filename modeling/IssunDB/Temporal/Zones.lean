import IssunDB.Temporal.Chrono

/-!
# Time zones

The zone of a temporal value is written as `Z`, a numeric offset, the name of a zone, or an offset
and a name in brackets. These are the functions that take such texts apart.
-/

namespace IssunDB.Temporal

open Texts

/-- `str::parse` for the number types. -/
def parseI64 : List Char → Option ℤ := parseInt (-2 ^ 63) (2 ^ 63 - 1)

/-- `str::parse` for `u32`. -/
def parseU32 (s : List Char) : Option ℕ := (parseInt 0 (2 ^ 32 - 1) s).map Int.toNat

/-- `str::parse` for `i32`. -/
def parseI32 : List Char → Option ℤ := parseInt (-2 ^ 31) (2 ^ 31 - 1)

def sliceAt (n : ℕ) (s : List Char) : Run (List Char × List Char) := orAbort (cut n s)

/-- `s.split(c)`. -/
def splitChar (c : Char) (s : List Char) : List (List Char) := splitN (s.length + 1) (· = c) s

/-- `s.split('[').next()`. -/
def beforeBracket (s : List Char) : List Char := s.takeWhile (· ≠ '[')

/-- `tz_offset_seconds`. -/
def tzOffsetSeconds (tz : List Char) : Run ℤ :=
  let tz := beforeBracket tz
  if tz = ['Z'] then .ok 0
  else
    let sign : ℤ := if tz.head? = some '-' then -1 else 1
    match splitN 2 (· = ':') (tz.dropWhile fun c => c = '+' || c = '-') with
    | [h, m] => do
      let h ← checkedI64 ((parseI64 h).getD 0 * 3600)
      let m ← checkedI64 ((parseI64 m).getD 0 * 60)
      let sum ← checkedI64 (h + m)
      checkedI64 (sign * sum)
    | _ => .ok 0

/-- `format_offset`. -/
def formatOffset (secs : ℤ) : Run (List Char) :=
  if secs = 0 then .ok ['Z']
  else do
    let sign := if secs < 0 then '-' else '+'
    let a ← checkedI64 |secs|
    let a := a.toNat
    let hm := sign :: (two (a / 3600) ++ ':' :: two (a % 3600 / 60))
    .ok (if a % 60 = 0 then hm else hm ++ ':' :: two (a % 60))

def offsetSum (sign h m sec : ℤ) : Run ℤ := do
  let h ← checkedI64 (h * 3600)
  let m ← checkedI64 (m * 60)
  let hm ← checkedI64 (h + m)
  let sum ← checkedI64 (hm + sec)
  checkedI64 (sign * sum)

def offsetAfterSign (sign : ℤ) (rest : List Char) : Run (Option ℤ) :=
  if ':' ∈ rest then
    let p := splitChar ':' rest
    match p[0]?.bind parseI64, p[1]?.elim (some 0) parseI64, p[2]?.elim (some 0) parseI64 with
    | some h, some m, some sec => (offsetSum sign h m sec).map some
    | _, _, _ => .ok none
  else if byteLen rest = 4 then do
    let (h, m) ← sliceAt 2 rest
    match parseI64 h, parseI64 m with
    | some h, some m => (offsetSum sign h m 0).map some
    | _, _ => .ok none
  else if byteLen rest = 2 then
    match parseI64 rest with
    | some h => (offsetSum sign h 0 0).map some
    | none => .ok none
  else .ok none

/-- `parse_offset_seconds`. -/
def parseOffsetSeconds : List Char → Run (Option ℤ)
  | ['Z'] => .ok (some 0)
  | '+' :: rest => offsetAfterSign 1 rest
  | '-' :: rest => offsetAfterSign (-1) rest
  | _ => .ok none

/-- A zone spec as a leading offset and a name. -/
def zoneParts (spec : List Char) : List Char × Option (List Char) :=
  match rsplitOnce (· = '[') spec, spec.getLast? with
  | some (lead, name), some ']' => (lead, some name.dropLast)
  | _, _ =>
    if spec ≠ ['Z'] ∧ spec.head? ≠ some '+' ∧ spec.head? ≠ some '-' ∧ spec ≠ [] then
      (spec, some spec)
    else (spec, none)

/-- A zone at an instant: its canonical offset, the offset in seconds and its name. -/
abbrev Zone := List Char × ℤ × Option (List Char)

/-- `resolve_zone`. -/
def resolveZone (chrono : Chrono) (dt : NaiveDateTime) (spec : List Char) : Run Zone := do
  let (lead, name) := zoneParts spec
  match name.bind chrono.zone with
  | some tz =>
    let secs := (tz dt).getD 0
    .ok (← formatOffset secs, secs, name)
  | none =>
    let secs := (← parseOffsetSeconds lead).getD 0
    .ok (← formatOffset secs, secs, none)

/-- `normalize_tz`. -/
def normalizeTz (tz : List Char) : Run (Option (List Char)) := do
  let canonical (sign : Char) (hours minutes : ℕ) : Option (List Char) :=
    if 18 < hours ∨ 59 < minutes then none
    else if hours = 0 ∧ minutes = 0 then some ['Z']
    else some (sign :: (two hours ++ ':' :: two minutes))
  match tz with
  | sign :: rest =>
    if sign ≠ '+' ∧ sign ≠ '-' then .ok none
    else if ':' ∈ rest then
      match splitN 2 (· = ':') rest with
      | [h, m] => .ok ((parseU32 h).bind fun h => (parseU32 m).bind (canonical sign h))
      | _ => .ok none
    else if byteLen rest = 4 then do
      let (h, m) ← sliceAt 2 rest
      .ok ((parseU32 h).bind fun h => (parseU32 m).bind (canonical sign h))
    else if byteLen rest = 2 then .ok ((parseU32 rest).bind fun h => canonical sign h 0)
    else .ok none
  | [] => .ok none

/-- The places of a sign that is not the first character, from the right: what is before and the
text from the sign on. -/
def signPlaces : List Char → List (List Char × List Char)
  | [] => []
  | c :: s =>
    let later := (signPlaces s).map fun p => (c :: p.1, p.2)
    match s with
    | d :: _ => if d = '+' ∨ d = '-' then later ++ [([c], s)] else later
    | [] => later

def firstOffset (withZone : List Char → List Char) :
    List (List Char × List Char) → Run (Option (List Char × List Char))
  | [] => .ok none
  | (time, tz) :: places => do
    match ← normalizeTz tz with
    | some tz => .ok (some (time, withZone tz))
    | none => firstOffset withZone places

/-- `split_tz`. -/
def splitTz (s : List Char) : Run (List Char × Option (List Char)) := do
  let (s, zone) := match rsplitOnce (· = '[') s, s.getLast? with
    | some (lead, name), some ']' => (lead, some name.dropLast)
    | _, _ => (s, none)
  let withZone (offset : List Char) : List Char :=
    match zone with
    | some z => offset ++ '[' :: z ++ [']']
    | none => offset
  if s.getLast? = some 'Z' then .ok (s.dropLast, some (withZone ['Z']))
  else
    match ← firstOffset withZone (signPlaces s) with
    | some (time, tz) => .ok (time, some tz)
    | none => .ok (s, zone)

end IssunDB.Temporal
