import IssunDB.Temporal.Returns

/-!
# When zones are read

The functions on offsets and zones have no errors. Each aborts when four bytes after a sign are cut
inside a character, or when a number leaves `i64`, and otherwise has a value that is given here
without these steps.
-/

namespace IssunDB.Temporal

open List Option Texts

/-! ## Offsets -/

/-- The products and sums of an offset. -/
@[mk_iff]
structure OffsetSumFits (sign h m sec : ℤ) : Prop where
  hours : Fits (h * 3600)
  minutes : Fits (m * 60)
  whole : Fits (h * 3600 + m * 60)
  sum : Fits (h * 3600 + m * 60 + sec)
  signed : Fits (sign * (h * 3600 + m * 60 + sec))

def partsSeconds (sign : ℤ) (p : ℤ × ℤ × ℤ) : ℤ := sign * (p.1 * 3600 + p.2.1 * 60 + p.2.2)

lemma offsetSum_yields (sign h m sec : ℤ) :
    Yields (offsetSum sign h m sec) (OffsetSumFits sign h m sec)
    (partsSeconds sign (h, m, sec)) := by
  refine Yields.congr ?_ (offsetSumFits_iff ..).symm
  exact .bind (.checkedI64 _) fun _ => .bind (.checkedI64 _) fun _ => .bind (.checkedI64 _) fun _ =>
    .bind (.checkedI64 _) fun _ => .checkedI64 _

/-- Hours, minutes and seconds after the sign of an offset, where they are numbers. -/
def offsetParts (rest : List Char) : Option (ℤ × ℤ × ℤ) :=
  if ':' ∈ rest then
    let p := splitChar ':' rest
    (p[0]?.bind parseI64).bind fun h => (p[1]?.elim (some 0) parseI64).bind fun m =>
      (p[2]?.elim (some 0) parseI64).map fun sec => (h, m, sec)
  else if byteLen rest = 4 then
    (cut 2 rest).bind fun p => (parseI64 p.1).bind fun h => (parseI64 p.2).map fun m => (h, m, 0)
  else if byteLen rest = 2 then (parseI64 rest).map fun h => (h, 0, 0)
  else none

/-- Four bytes without a colon can be cut in the middle. -/
def HalvesFit (rest : List Char) : Prop := ':' ∉ rest → byteLen rest = 4 → (cut 2 rest).isSome

lemma not_halvesFit {rest : List Char} (h : ¬ HalvesFit rest) :
    ':' ∉ rest ∧ byteLen rest = 4 ∧ cut 2 rest = none := by
  rw [HalvesFit] at h
  push Not at h
  obtain ⟨hcolon, hfour, hcut⟩ := h
  rw [Ne, Bool.not_eq_true, isSome_eq_false_iff, isNone_iff_eq_none] at hcut
  exact ⟨hcolon, hfour, hcut⟩

/-- After the sign, four bytes are not cut inside a character, and the numbers fit. -/
structure AfterSignFits (sign : ℤ) (rest : List Char) : Prop where
  halves : HalvesFit rest
  numbers : ∀ p ∈ offsetParts rest, OffsetSumFits sign p.1 p.2.1 p.2.2

lemma offsetParts_yields (sign : ℤ) (o : Option (ℤ × ℤ × ℤ)) :
    Yields (o.elim (.ok none) fun p => (offsetSum sign p.1 p.2.1 p.2.2).map some)
      (∀ p ∈ o, OffsetSumFits sign p.1 p.2.1 p.2.2) (o.map (partsSeconds sign)) := by
  cases o with
  | none => exact (Yields.ok none).congr (iff_of_true trivial fun p hp => nomatch hp)
  | some p =>
    refine ((offsetSum_yields sign p.1 p.2.1 p.2.2).map some).congr ⟨?_, fun hall => hall p rfl⟩
    rintro hfits q hq
    obtain rfl := some.inj hq
    exact hfits

lemma offsetAfterSign_yields (sign : ℤ) (rest : List Char) :
    Yields (offsetAfterSign sign rest) (AfterSignFits sign rest)
      ((offsetParts rest).map (partsSeconds sign)) := by
  by_cases hhalves : HalvesFit rest
  · -- The parts are there or not, and the sum is taken of parts that are.
    have heq : offsetAfterSign sign rest =
        (offsetParts rest).elim (.ok none) fun p => (offsetSum sign p.1 p.2.1 p.2.2).map some := by
      unfold offsetAfterSign offsetParts
      by_cases hcolon : ':' ∈ rest
      · simp only [hcolon, if_true]
        rcases (splitChar ':' rest)[0]?.bind parseI64 with _ | h
        · rfl
        rcases (splitChar ':' rest)[1]?.elim (some 0) parseI64 with _ | m
        · rfl
        rcases (splitChar ':' rest)[2]?.elim (some 0) parseI64 with _ | sec
        · rfl
        · rfl
      · simp only [hcolon, if_false]
        by_cases hfour : byteLen rest = 4
        · simp only [hfour, if_true, sliceAt]
          obtain ⟨⟨h, m⟩, hcut⟩ := isSome_iff_exists.mp (hhalves hcolon hfour)
          simp only [hcut, orAbort, ok_bind, bind_some]
          rcases parseI64 h with _ | h
          · rfl
          rcases parseI64 m with _ | m
          · rfl
          · rfl
        · simp only [hfour, if_false]
          by_cases htwo : byteLen rest = 2
          · simp only [htwo, if_true]
            rcases parseI64 rest with _ | h
            · rfl
            · rfl
          · simp only [htwo, if_false]
            rfl
    rw [heq]
    exact (offsetParts_yields sign (offsetParts rest)).congr
      ⟨fun hall => ⟨hhalves, hall⟩, AfterSignFits.numbers⟩
  · refine ⟨fun hfits => absurd hfits.halves hhalves, fun _ => ?_⟩
    obtain ⟨hcolon, hfour, hcut⟩ := not_halvesFit hhalves
    rw [offsetAfterSign, if_neg hcolon, if_pos hfour, sliceAt, hcut]
    rfl

def offsetSeconds : List Char → Option ℤ
  | ['Z'] => some 0
  | '+' :: rest => (offsetParts rest).map (partsSeconds 1)
  | '-' :: rest => (offsetParts rest).map (partsSeconds (-1))
  | _ => none

/-- A numeric offset is cut between characters, and its numbers fit. -/
def OffsetFits : List Char → Prop
  | ['Z'] => True
  | '+' :: rest => AfterSignFits 1 rest
  | '-' :: rest => AfterSignFits (-1) rest
  | _ => True

lemma parseOffsetSeconds_yields (s : List Char) :
    Yields (parseOffsetSeconds s) (OffsetFits s) (offsetSeconds s) := by
  fun_cases parseOffsetSeconds s with
  | case1 => exact Yields.ok _
  | case2 rest => exact offsetAfterSign_yields 1 rest
  | case3 rest => exact offsetAfterSign_yields (-1) rest
  | case4 _ hutc hplus hminus =>
    rw [OffsetFits.eq_4 s hutc hplus hminus, offsetSeconds.eq_4 s hutc hplus hminus]
    exact Yields.ok _

/-- The sign, the hours and the minutes that are read back from a zone. A part that is no number
counts as zero. -/
def zoneNumbers (tz : List Char) : ℤ × ℤ × ℤ :=
  let tz := beforeBracket tz
  if tz = ['Z'] then (1, 0, 0)
  else
    match splitN 2 (· = ':') (tz.dropWhile fun c => c = '+' || c = '-') with
    | [h, m] =>
      (if tz.head? = some '-' then -1 else 1, (parseI64 h).getD 0, (parseI64 m).getD 0)
    | _ => (1, 0, 0)

def ZoneNumbersFit (tz : List Char) : Prop :=
  OffsetSumFits (zoneNumbers tz).1 (zoneNumbers tz).2.1 (zoneNumbers tz).2.2 0

def zoneSeconds (tz : List Char) : ℤ :=
  partsSeconds (zoneNumbers tz).1 ((zoneNumbers tz).2.1, (zoneNumbers tz).2.2, 0)

lemma offsetSum_zero_seconds (sign h m : ℤ) :
    offsetSum sign h m 0 = (do
      let h ← checkedI64 (h * 3600)
      let m ← checkedI64 (m * 60)
      let sum ← checkedI64 (h + m)
      checkedI64 (sign * sum)) := by
  have hagain : ∀ {i : ℤ} {f : ℤ → Run ℤ},
      (checkedI64 i >>= fun hm => checkedI64 (hm + 0) >>= f) = checkedI64 i >>= f := by
    intro i f
    rcases hi : checkedI64 i with e | j
    · rfl
    · obtain ⟨hfits, rfl⟩ := checkedI64_eq_ok.mp hi
      rw [ok_bind, Int.add_zero, hi]
  simp only [offsetSum, hagain]

lemma tzOffsetSeconds_eq (tz : List Char) :
    tzOffsetSeconds tz =
    offsetSum (zoneNumbers tz).1 (zoneNumbers tz).2.1 (zoneNumbers tz).2.2 0 := by
  have hzero : offsetSum 1 0 0 0 = .ok (0 : ℤ) := by decide
  unfold tzOffsetSeconds zoneNumbers
  by_cases hz : beforeBracket tz = ['Z']
  · simp only [if_pos hz, hzero]
  · simp only [if_neg hz]
    rcases splitN 2 (· = ':') ((beforeBracket tz).dropWhile fun c => c = '+' || c = '-') with
      _ | ⟨h, _ | ⟨m, _ | ⟨rest, parts⟩⟩⟩
    · exact hzero.symm
    · exact hzero.symm
    · exact (offsetSum_zero_seconds _ _ _).symm
    · exact hzero.symm

lemma tzOffsetSeconds_yields (tz : List Char) :
    Yields (tzOffsetSeconds tz) (ZoneNumbersFit tz) (zoneSeconds tz) := by
  rw [tzOffsetSeconds_eq]
  exact offsetSum_yields _ _ _ 0

def offsetText (secs : ℤ) : List Char :=
  if secs = 0 then ['Z']
  else
    let a := |secs|.toNat
    let hm := (if secs < 0 then '-' else '+') :: (two (a / 3600) ++ ':' :: two (a % 3600 / 60))
    if a % 60 = 0 then hm else hm ++ ':' :: two (a % 60)

lemma formatOffset_yields (secs : ℤ) :
    Yields (formatOffset secs) (Fits |secs|) (offsetText secs) := by
  unfold formatOffset offsetText
  by_cases hzero : secs = 0
  · subst hzero
    have hfits : Fits |(0 : ℤ)| := ⟨by decide, by decide⟩
    exact (Yields.ok _).congr (iff_of_true trivial hfits)
  · simp only [if_neg hzero]
    refine Yields.congr ?_ (and_iff_left trivial)
    exact .bind (.checkedI64 _) fun _ => .ok _

/-! ## Zones -/

section Zones

variable (chrono : Chrono) (dt : NaiveDateTime)

/-- The seconds of a zone: those of a named one at the time, or those of a numeric offset. -/
def resolvedSeconds (spec : List Char) : ℤ :=
  match (zoneParts spec).2.bind chrono.zone with
  | some tz => (tz dt).getD 0
  | none => (offsetSeconds (zoneParts spec).1).getD 0

def resolved (spec : List Char) : Zone :=
  let secs := resolvedSeconds chrono dt spec
  (offsetText secs, secs, if ((zoneParts spec).2.bind chrono.zone).isSome then (zoneParts spec).2
    else none)

/-- An offset that is taken as a number fits, and so does the magnitude of the seconds. -/
structure ZoneFits (spec : List Char) : Prop where
  offset : (zoneParts spec).2.bind chrono.zone = none → OffsetFits (zoneParts spec).1
  magnitude : Fits |resolvedSeconds chrono dt spec|

lemma resolveZone_yields (spec : List Char) :
    Yields (resolveZone chrono dt spec) (ZoneFits chrono dt spec) (resolved chrono dt spec) := by
  have hiff : ZoneFits chrono dt spec ↔ ((zoneParts spec).2.bind chrono.zone = none →
      OffsetFits (zoneParts spec).1) ∧ Fits |resolvedSeconds chrono dt spec| :=
    ⟨fun h => ⟨h.offset, h.magnitude⟩, fun h => ⟨h.1, h.2⟩⟩
  have hformat : ∀ (secs : ℤ) (name : Option (List Char)),
      Yields ((formatOffset secs) >>= fun text => (.ok (text, secs, name) : Run Zone)) (Fits |secs|)
        (offsetText secs, secs, name) := by
    intro secs name
    refine Yields.congr ?_ (and_iff_left trivial)
    exact .bind (formatOffset_yields secs) fun _ => .ok _
  refine Yields.congr ?_ hiff.symm
  unfold resolveZone resolved resolvedSeconds
  rcases hzone : (zoneParts spec).2.bind chrono.zone with _ | tz
  · simp only [hzone, true_imp_iff]
    exact .bind (parseOffsetSeconds_yields (zoneParts spec).1) fun _ => hformat _ _
  · simp only [hzone]
    exact (hformat _ _).congr ⟨fun h => ⟨fun hnone => (nomatch hnone), h⟩, fun h => h.2⟩

end Zones

/-! ## Zones at the end of a text -/

/-- Hours and minutes of a numeric zone: `HH:MM`, `HHMM` or `HH`. -/
def hourMinute (rest : List Char) : Option (ℕ × ℕ) :=
  if ':' ∈ rest then
    match splitN 2 (· = ':') rest with
    | [h, m] => (parseU32 h).bind fun h => (parseU32 m).map fun m => (h, m)
    | _ => none
  else if byteLen rest = 4 then
    (cut 2 rest).bind fun p => (parseU32 p.1).bind fun h => (parseU32 p.2).map fun m => (h, m)
  else if byteLen rest = 2 then (parseU32 rest).map fun h => (h, 0)
  else none

/-- The canonical text of a numeric zone; a sign with hours and minutes in their ranges. -/
def normalText : List Char → Option (List Char)
  | sign :: rest =>
    if sign ≠ '+' ∧ sign ≠ '-' then none
    else (hourMinute rest).bind fun p =>
      if 18 < p.1 ∨ 59 < p.2 then none
      else if p.1 = 0 ∧ p.2 = 0 then some ['Z']
      else some (sign :: (two p.1 ++ ':' :: two p.2))
  | [] => none

/-- What follows a sign is not cut inside a character. -/
def NormalFits (tz : List Char) : Prop :=
  ∀ sign rest, tz = sign :: rest → sign = '+' ∨ sign = '-' → HalvesFit rest

lemma normalizeTz_yields (tz : List Char) :
    Yields (normalizeTz tz) (NormalFits tz) (normalText tz) := by
  cases tz with
  | nil => exact (Yields.ok none).congr (iff_of_true trivial fun sign rest h => nomatch h)
  | cons sign rest =>
    by_cases hsign : sign ≠ '+' ∧ sign ≠ '-'
    · rw [normalizeTz, if_pos hsign, normalText, if_pos hsign]
      refine (Yields.ok none).congr (iff_of_true trivial fun s r heq hs => ?_)
      obtain ⟨rfl, rfl⟩ := List.cons.inj heq
      exact absurd hs (not_or.mpr hsign)
    · have hfits : NormalFits (sign :: rest) ↔ HalvesFit rest := by
        refine ⟨fun h => h sign rest rfl (by tauto), fun h s r heq hs => ?_⟩
        obtain ⟨rfl, rfl⟩ := List.cons.inj heq
        exact h
      refine Yields.congr ?_ hfits.symm
      refine ⟨fun hhalves => ?_, fun hhalves => ?_⟩
      · rw [normalizeTz, if_neg hsign, normalText, if_neg hsign]
        unfold hourMinute
        by_cases hcolon : ':' ∈ rest
        · simp only [hcolon, if_true]
          rcases splitN 2 (· = ':') rest with _ | ⟨h, _ | ⟨m, _ | ⟨m', parts⟩⟩⟩
          · rfl
          · rfl
          · simp only
            rcases parseU32 h with _ | h
            · rfl
            rcases parseU32 m with _ | m
            · rfl
            · rfl
          · rfl
        · simp only [hcolon, if_false]
          by_cases hfour : byteLen rest = 4
          · obtain ⟨⟨h, m⟩, hcut⟩ := isSome_iff_exists.mp (hhalves hcolon hfour)
            simp only [hfour, if_true, sliceAt, hcut, orAbort, ok_bind, bind_some]
            rcases parseU32 h with _ | h
            · rfl
            rcases parseU32 m with _ | m
            · rfl
            · rfl
          · simp only [hfour, if_false]
            by_cases htwo : byteLen rest = 2
            · simp only [htwo, if_true]
              rcases parseU32 rest with _ | h
              · rfl
              · simp only [map_some, bind_some, and_true]
            · simp only [htwo, if_false]
              rfl
      · obtain ⟨hcolon, hfour, hcut⟩ := not_halvesFit hhalves
        rw [normalizeTz, if_neg hsign, if_neg hcolon, if_pos hfour, sliceAt, hcut]
        rfl

def firstNormal (withZone : List Char → List Char) (places : List (List Char × List Char)) :
    Option (List Char × List Char) :=
  places.findSome? fun p => (normalText p.2).map fun tz => (p.1, withZone tz)

/-- No place is cut inside a character before an offset is found. -/
def PlacesFit (places : List (List Char × List Char)) : Prop :=
  ∀ before p after, places = before ++ p :: after → (∀ q ∈ before, normalText q.2 = none) →
    NormalFits p.2

lemma placesFit_cons {p : List Char × List Char} {places : List (List Char × List Char)} :
    PlacesFit (p :: places) ↔ NormalFits p.2 ∧ (normalText p.2 = none → PlacesFit places) := by
  constructor
  · intro h
    refine ⟨h [] p places rfl fun q hq => (nomatch hq), fun hnone before q after heq hall => ?_⟩
    refine h (p :: before) q after (by rw [heq, cons_append]) fun r hr => ?_
    rcases mem_cons.mp hr with rfl | hr
    · exact hnone
    · exact hall r hr
  · rintro ⟨hfirst, hrest⟩ before q after heq hall
    cases before with
    | nil =>
      obtain ⟨rfl, -⟩ := List.cons.inj heq
      exact hfirst
    | cons r before =>
      rw [cons_append] at heq
      obtain ⟨rfl, htail⟩ := List.cons.inj heq
      exact hrest (hall p mem_cons_self) before q after htail fun s hs =>
        hall s (mem_cons_of_mem p hs)

lemma firstOffset_yields (withZone : List Char → List Char)
    (places : List (List Char × List Char)) :
    Yields (firstOffset withZone places) (PlacesFit places) (firstNormal withZone places) := by
  induction places with
  | nil =>
    refine (Yields.ok none).congr (iff_of_true trivial fun before p after h => ?_)
    exact absurd h (by simp)
  | cons p places ih =>
    refine Yields.congr ?_ placesFit_cons.symm
    refine .bind (normalizeTz_yields p.2) fun _ => ?_
    rw [firstNormal, findSome?_cons]
    rcases normalText p.2 with _ | tz
    · exact ih.congr ⟨fun h _ => h, fun h => h rfl⟩
    · exact (Yields.ok _).congr (by simp)

def unbracketed (s : List Char) : List Char × Option (List Char) :=
  match rsplitOnce (· = '[') s, s.getLast? with
  | some (lead, name), some ']' => (lead, some name.dropLast)
  | _, _ => (s, none)

def withName (name : Option (List Char)) (offset : List Char) : List Char :=
  match name with
  | some z => offset ++ '[' :: z ++ [']']
  | none => offset

def zoneSplit (s : List Char) : List Char × Option (List Char) :=
  let p := unbracketed s
  if p.1.getLast? = some 'Z' then (p.1.dropLast, some (withName p.2 ['Z']))
  else
    match firstNormal (withName p.2) (signPlaces p.1) with
    | some (time, tz) => (time, some tz)
    | none => p

def SplitFits (s : List Char) : Prop :=
  (unbracketed s).1.getLast? ≠ some 'Z' → PlacesFit (signPlaces (unbracketed s).1)

lemma splitTz_eq (s : List Char) :
    splitTz s = (if (unbracketed s).1.getLast? = some 'Z' then
        .ok ((unbracketed s).1.dropLast, some (withName (unbracketed s).2 ['Z']))
      else do
        match ← firstOffset (withName (unbracketed s).2) (signPlaces (unbracketed s).1) with
        | some (time, tz) => .ok (time, some tz)
        | none => .ok (unbracketed s)) := rfl

lemma splitTz_yields (s : List Char) : Yields (splitTz s) (SplitFits s) (zoneSplit s) := by
  rw [splitTz_eq]
  unfold SplitFits zoneSplit
  by_cases hz : (unbracketed s).1.getLast? = some 'Z'
  · simp only [if_pos hz]
    exact (Yields.ok _).congr (by simp [hz])
  · simp only [if_neg hz]
    have hiff : PlacesFit (signPlaces (unbracketed s).1) ∧ True ↔
        ((unbracketed s).1.getLast? ≠ some 'Z' → PlacesFit (signPlaces (unbracketed s).1)) :=
      ⟨fun h _ => h.1, fun h => ⟨h hz, trivial⟩⟩
    refine Yields.congr ?_ hiff
    refine .bind (firstOffset_yields _ _) fun _ => ?_
    rcases firstNormal (withName (unbracketed s).2) (signPlaces (unbracketed s).1) with _ | p
    · exact .ok _
    · exact .ok _

end IssunDB.Temporal
