import IssunDB.Cypher.Symmetry
import IssunDB.Lib.StableSort
import IssunDB.Lib.Words

/-!
# The first rows of a sort

A limit above a sort asks the sort for the first `skip + count` rows only. `topRows_iff` says when
this cannot be told from sorting all rows: exactly when the order of the sort keys is transitive.
A number that is not a signed 64-bit integer is compared as a double and can tie with two different
integers, and then the rows returned differ (`topRows_differ`).
-/

namespace IssunDB.Cypher

open List

/-! ## The operators -/

/-- Where a limit stands: the rows skipped, the rows let through. -/
structure LimitState (ρ : Type) where
  skipped : ℕ
  emitted : ℕ
  out : List ρ

section Limit

variable {ρ : Type} (skip count : ℕ)

def limitStep (st : LimitState ρ) (path : ρ) : LimitState ρ :=
  if st.skipped < skip then { st with skipped := st.skipped + 1 }
  else if count ≤ st.emitted then st
  else { st with emitted := st.emitted + 1, out := st.out ++ [path] }

/-- `RowStream::Limit`. -/
def limit (rows : List ρ) : Except String (List ρ) :=
  if 1000000000 < skip then .error s!"SKIP value too large: {skip}"
  else .ok (rows.foldl (limitStep skip count) ⟨0, 0, []⟩).out

variable (keysOf : ρ → List Json) (items : List SortItem)

/-- A `Limit` over a `Sort`: the sort is asked for the first rows only. -/
def limitOverSort (rows : List ρ) : Except String (List ρ) :=
  limit skip count (sortAll keysOf items rows (some (u64SaturatingAdd skip count)))

def limitOverFullSort (rows : List ρ) : Except String (List ρ) :=
  limit skip count (sortAll keysOf items rows none)

end Limit

section Rows

variable {ρ : Type} {skip count : ℕ} {rows : List ρ}

/-- **Run.** A limit drops the first rows and takes the next. -/
theorem foldl_limitStep (st : LimitState ρ) (rows : List ρ) :
    (rows.foldl (limitStep skip count) st).out =
      st.out ++ (rows.drop (skip - st.skipped)).take (count - st.emitted) := by
  induction rows generalizing st with
  | nil => simp
  | cons r rows ih =>
    rw [foldl_cons, ih]
    unfold limitStep
    by_cases hskip : st.skipped < skip
    · obtain ⟨n, hn⟩ : ∃ n, skip - st.skipped = n + 1 := ⟨skip - st.skipped - 1, by omega⟩
      rw [if_pos hskip, hn, drop_succ_cons, show skip - (st.skipped + 1) = n from by omega]
    · rw [if_neg hskip, show skip - st.skipped = 0 from by omega, drop_zero]
      by_cases hcount : count ≤ st.emitted
      · rw [if_pos hcount, show count - st.emitted = 0 from by omega, take_zero, take_zero]
      · obtain ⟨n, hn⟩ : ∃ n, count - st.emitted = n + 1 := ⟨count - st.emitted - 1, by omega⟩
        rw [if_neg hcount, hn, take_succ_cons]
        show (st.out ++ [r]) ++ (rows.drop (skip - st.skipped)).take (count - (st.emitted + 1)) = _
        rw [show skip - st.skipped = 0 from by omega, drop_zero,
          show count - (st.emitted + 1) = n from by omega, append_assoc]
        rfl

lemma limit_eq (rows : List ρ) : limit skip count rows =
    if 1000000000 < skip then .error s!"SKIP value too large: {skip}"
    else .ok ((rows.drop skip).take count) := by
  unfold limit
  rw [foldl_limitStep]
  rfl

lemma limit_take (hlen : rows.length < 2 ^ 64) :
    limit skip count (rows.take (u64SaturatingAdd skip count)) = limit skip count rows := by
  rw [limit_eq, limit_eq]
  congr 2
  unfold u64SaturatingAdd
  by_cases hfits : skip + count ≤ 2 ^ 64 - 1
  · rw [min_eq_left hfits, take_drop, take_take, min_self,
      take_drop]
  · rw [min_eq_right (by omega), take_of_length_le (l := rows) (by omega)]

end Rows

/-! ## When the first rows are those of the whole sort -/

section Contract

variable {items : List SortItem} {T : Set (List Json)}

/-- Lists of one value for each sort item. -/
def ValidKeys (items : List SortItem) : Set (List Json) :=
  {keys | keys.length = items.length ∧ ∀ v ∈ keys, v.wellFormed = true}

/-- No three sort keys run in a circle. -/
def Transitive (items : List SortItem) (T : Set (List Json)) : Prop :=
  ∀ a ∈ T, ∀ b ∈ T, ∀ c ∈ T, (sortCmp items a b).isLE → (sortCmp items b c).isLE →
    (sortCmp items a c).isLE

lemma comparesOn_of_transitive (hT : T ⊆ ValidKeys items) (h : Transitive items T) :
    ComparesOn (sortCmp items) T where
  swap _ ha _ hb := sortCmp_swap (hT ha).2 (hT hb).2
  trans := h

/-- Three sort keys that run in a circle: four rows of which the bounded sort returns the last, the
whole sort the first. -/
theorem limitOverSort_circle {a b c : List Json} (hself : sortCmp items a a = .eq)
    (hab : (sortCmp items a b).isLE) (hbc : (sortCmp items b c).isLE)
    (hac : ¬(sortCmp items a c).isLE) :
    limitOverSort 0 1 (Prod.snd : ℕ × List Json → List Json) items
        [(0, a), (0, a), (1, b), (2, c)] = .ok [(2, c)] ∧
      limitOverFullSort 0 1 (Prod.snd : ℕ × List Json → List Json) items
        [(0, a), (0, a), (1, b), (2, c)] = .ok [(0, a)] := by
  constructor
  · let order := fun x y : (List Json × ℕ × List Json) × ℕ =>
      (sortCmp items x.1.1 y.1.1).then (compare x.2 y.2)
    have htop : topN order 1
        [((a, 0, a), 0), ((a, 0, a), 1), ((b, 1, b), 2), ((c, 2, c), 3)] = [((c, 2, c), 3)] := by
      have hfirst : better order ((a, 0, a), 0) ((a, 0, a), 1) = ((a, 0, a), 0) := by
        have hlt : order ((a, 0, a), 0) ((a, 0, a), 1) = .lt := by
          show (sortCmp items a a).then (compare 0 1) = _
          rw [hself]
          rfl
        rw [better, hlt]
        rfl
      have hsecond : better order ((a, 0, a), 0) ((b, 1, b), 2) = ((a, 0, a), 0) := by
        have hlt : order ((a, 0, a), 0) ((b, 1, b), 2) = .lt := by
          show (sortCmp items a b).then (compare 0 2) = _
          cases hcmp : sortCmp items a b with
          | lt => rfl
          | eq => rfl
          | gt => rw [hcmp] at hab; cases hab
        rw [better, hlt]
        rfl
      have hthird : better order ((a, 0, a), 0) ((c, 2, c), 3) = ((c, 2, c), 3) := by
        have hgt : order ((a, 0, a), 0) ((c, 2, c), 3) = .gt := by
          show (sortCmp items a c).then (compare 0 3) = _
          cases hcmp : sortCmp items a c with
          | lt => rw [hcmp] at hac; exact absurd rfl hac
          | eq => rw [hcmp] at hac; exact absurd rfl hac
          | gt => rfl
        rw [better, hgt]
        rfl
      rw [topN_one, foldl_cons, hfirst, foldl_cons, hsecond, foldl_cons, hthird]
      rfl
    unfold limitOverSort
    show limit 0 1 ((topN order 1 [((a, 0, a), 0), ((a, 0, a), 1), ((b, 1, b), 2),
      ((c, 2, c), 3)]).map fun x => x.1.2) = _
    rw [htop, limit_eq, if_neg (by decide)]
    rfl
  · unfold limitOverFullSort
    rw [sortAll_none, limit_eq, if_neg (by decide), drop_zero,
      @stableSort_head _ (fun r r' : ℕ × List Json => sortCmp items r.2 r'.2) _ _ _ hab hbc]

/-- **Asking a sort for its first rows cannot be told from sorting all rows iff the order of the
sort keys is transitive.** -/
theorem topRows_iff (hT : T ⊆ ValidKeys items) :
    (∀ (ρ : Type) (keysOf : ρ → List Json) (rows : List ρ) (skip count : ℕ),
        rows.length < 2 ^ 64 → (∀ r ∈ rows, keysOf r ∈ T) →
        limitOverSort skip count keysOf items rows =
          limitOverFullSort skip count keysOf items rows) ↔
      Transitive items T := by
  constructor
  · intro h a ha b hb c hc hab hbc
    by_contra hac
    obtain ⟨hbounded, hfull⟩ := limitOverSort_circle (sortCmp_self (hT ha).2) hab hbc hac
    have hsame := h (ℕ × List Json) Prod.snd [(0, a), (0, a), (1, b), (2, c)] 0 1 (by simp)
      (by simp [ha, hb, hc])
    rw [hbounded, hfull] at hsame
    simp at hsame
  · intro h ρ keysOf rows skip count hlen hkeys
    have hrows : ComparesOn (sortCmp items) T := comparesOn_of_transitive hT h
    unfold limitOverSort limitOverFullSort
    rw [sortAll_some hrows hkeys, limit_take]
    rwa [sortAll_none, (perm_stableSort _ rows).length_eq]

/-! ### Three numbers that run in a circle -/

lemma exponent_fits : 1076 < 2047 := by
  decide

lemma fraction_fits : 0 < 2 ^ 52 := by
  decide

/-- `2 ^ 53 + 1`, which is rounded as a double. -/
def highInteger : Json := .number (.posInt (2 ^ 53 + 1) F64.above_fits)

/-- The double `2 ^ 53`. -/
def middleDouble : Json := .number (.float ⟨false, 1076, 0, exponent_fits, fraction_fits⟩)

/-- The integer `2 ^ 53`. -/
def lowInteger : Json := .number (.posInt (2 ^ 53) F64.limit_fits)

def ascendingKey : List SortItem := [⟨.prop "n" "k", true⟩]

/-- The double ties with both integers. -/
theorem numbers_circle :
    (sortCmp ascendingKey [highInteger] [middleDouble]).isLE ∧
      (sortCmp ascendingKey [middleDouble] [lowInteger]).isLE ∧
      ¬(sortCmp ascendingKey [highInteger] [lowInteger]).isLE := by
  decide +kernel

lemma numbers_valid :
    ∀ v ∈ [highInteger, middleDouble, lowInteger], [v] ∈ ValidKeys ascendingKey := by
  intro v hv
  simp only [mem_cons, not_mem_nil, or_false] at hv
  rcases hv with rfl | rfl | rfl <;> exact ⟨rfl, fun w hw => by rw [mem_singleton.mp hw]; rfl⟩

theorem topRows_iff_true :
    (∀ (ρ : Type) (keysOf : ρ → List Json) (rows : List ρ) (skip count : ℕ),
        rows.length < 2 ^ 64 → (∀ r ∈ rows, keysOf r ∈ ({[.bool true]} : Set (List Json))) →
        limitOverSort skip count keysOf [⟨.prop "n" "k", true⟩] rows =
          limitOverFullSort skip count keysOf [⟨.prop "n" "k", true⟩] rows) ↔
      Transitive [⟨.prop "n" "k", true⟩] {[.bool true]} :=
  topRows_iff fun keys hkeys => by
    rw [Set.mem_singleton_iff.mp hkeys]
    exact ⟨rfl, fun v hv => by rw [mem_singleton.mp hv]; rfl⟩

/-- The sort keys `2 ^ 53 + 1`, twice, the double `2 ^ 53` and the integer `2 ^ 53`: the bounded
sort returns the last row, the whole sort the first. -/
theorem topRows_differ :
    ¬ ∀ (ρ : Type) (keysOf : ρ → List Json) (items : List SortItem) (rows : List ρ)
        (skip count : ℕ), rows.length < 2 ^ 64 → (∀ r ∈ rows, keysOf r ∈ ValidKeys items) →
        limitOverSort skip count keysOf items rows =
          limitOverFullSort skip count keysOf items rows := by
  intro h
  obtain ⟨hhigh, hlow, hcircle⟩ := numbers_circle
  have hself := @sortCmp_self ascendingKey _ (numbers_valid highInteger (by simp)).2
  obtain ⟨hbounded, hfull⟩ := limitOverSort_circle hself hhigh hlow hcircle
  have hsame := h (ℕ × List Json) Prod.snd ascendingKey
    [(0, [highInteger]), (0, [highInteger]), (1, [middleDouble]), (2, [lowInteger])] 0 1
    (by decide) (by
      intro r hr
      simp only [mem_cons, not_mem_nil, or_false] at hr
      rcases hr with rfl | rfl | rfl | rfl <;> exact numbers_valid _ (by simp))
  rw [hbounded, hfull] at hsame
  simp at hsame

end Contract

end IssunDB.Cypher
