import Mathlib.Algebra.Order.Field.Basic
import Mathlib.Tactic.FieldSimp
import Mathlib.Tactic.Positivity
import IssunDB.Storage

/-!
# Scoring text matches

The two scorers of full-text search, over any ordered field, so that scores are exact. Of the
logarithm and the square root only the laws in `Analytic` are used.

* `Bm25Scorer.score_bounds` — a score of the first scorer is positive and at most its upper bound;
* `TfIdfScorer.score_bounds` — so is one of the second scorer.
-/

namespace IssunDB.Text

/-- `TextError`. -/
inductive TextError where
  | core (e : Error)
  | indexNotFound (label property : String)
  | labelNotIndexed (label : String)
  | propertyNotIndexed (property : String)
  | noIndexes
  | emptyQuery
  deriving DecidableEq

/-- `BooleanMode`. -/
inductive BooleanMode where
  | and
  | or
  deriving DecidableEq

/-- `Scorer`. -/
structure Scorer (K : Type) where
  /-- The inverse document frequency of a term in some of the documents. -/
  idf : (nDocs nTerm : K) → K
  /-- The score of a document for one term. -/
  score : (tf docLen avgdl idf qtf : K) → K
  /-- A bound of the scores of a term that is met once in the query. -/
  upperBound : (idf : K) → (maxTf : ℕ) → K

/-- `TextSearchOptions`. -/
structure TextSearchOptions (K : Type) where
  label : Option String
  property : Option String
  limit : ℕ
  scorer : Option (Scorer K)
  booleanMode : Option BooleanMode

/-- A result of full-text search. -/
structure TextHit (K : Type) where
  node : NodeId
  score : K
  label : String
  property : String
  deriving DecidableEq

/-- A logarithm and a square root. -/
class Analytic (K : Type) [Field K] [LinearOrder K] where
  ln : K → K
  sqrt : K → K
  ln_pos_iff : ∀ x : K, 0 < x → (0 < ln x ↔ 1 < x)
  sqrt_pos : ∀ x : K, 0 < x → 0 < sqrt x
  sqrt_mono : ∀ x y : K, 0 ≤ x → x ≤ y → sqrt x ≤ sqrt y

variable {K : Type} [Field K] [LinearOrder K]

/-! ## BM25 -/

/-- `Bm25Scorer`. -/
structure Bm25Scorer (K : Type) where
  k1 : K
  b : K

namespace Bm25Scorer

def default : Bm25Scorer K := ⟨12 / 10, 75 / 100⟩

/-- How long a document is against the average. -/
def lengthRatio (docLen avgdl : K) : K := if 0 < avgdl then docLen / avgdl else 1

def score (s : Bm25Scorer K) (tf docLen avgdl idf qtf : K) : K :=
  let numerator := tf * (s.k1 + 1)
  let denominator := tf + s.k1 * (1 - s.b + s.b * lengthRatio docLen avgdl)
  qtf * idf * (numerator / denominator)

/-- The limit of the scores as the term frequency grows. -/
def upperBound (s : Bm25Scorer K) (idf : K) (_maxTf : ℕ) : K := idf * (s.k1 + 1)

/-- `Bm25Scorer` as a `Scorer`. -/
def scorer [Analytic K] (s : Bm25Scorer K) : Scorer K where
  idf nDocs nTerm := Analytic.ln ((nDocs - nTerm + 1 / 2) / (nTerm + 1 / 2) + 1)
  score := s.score
  upperBound := s.upperBound

/-- The parameters are in their usual ranges. -/
structure InRange (s : Bm25Scorer K) : Prop where
  k1_nonneg : 0 ≤ s.k1
  b_nonneg : 0 ≤ s.b
  b_le_one : s.b ≤ 1

variable [IsStrictOrderedRing K] {s : Bm25Scorer K}

lemma lengthRatio_nonneg {docLen : K} (h : 0 ≤ docLen) (avgdl : K) :
    0 ≤ lengthRatio docLen avgdl := by
  unfold lengthRatio
  split
  next hpos => exact div_nonneg h hpos.le
  next => exact zero_le_one

/-- **A score is positive and at most the upper bound.** -/
theorem score_bounds (h : s.InRange) {tf docLen idf qtf : K} (htf : 1 ≤ tf) (hlen : 0 ≤ docLen)
    (avgdl : K) (hidf : 0 < idf) (hqtf : 0 < qtf) (maxTf : ℕ) :
    0 < s.score tf docLen avgdl idf qtf ∧
      s.score tf docLen avgdl idf qtf ≤ s.upperBound idf maxTf * qtf := by
  have htf0 : 0 < tf := zero_lt_one.trans_le htf
  have hk1 : 0 < s.k1 + 1 := add_pos_of_nonneg_of_pos h.k1_nonneg zero_lt_one
  -- The length of the document only adds to the denominator.
  have hnorm : 0 ≤ s.k1 * (1 - s.b + s.b * lengthRatio docLen avgdl) :=
    mul_nonneg h.k1_nonneg (add_nonneg (sub_nonneg.mpr h.b_le_one)
      (mul_nonneg h.b_nonneg (lengthRatio_nonneg hlen avgdl)))
  have hden : 0 < tf + s.k1 * (1 - s.b + s.b * lengthRatio docLen avgdl) :=
    add_pos_of_pos_of_nonneg htf0 hnorm
  have hweight : 0 < qtf * idf := mul_pos hqtf hidf
  have hle : tf * (s.k1 + 1) / (tf + s.k1 * (1 - s.b + s.b * lengthRatio docLen avgdl)) ≤
      s.k1 + 1 := by
    rw [div_le_iff₀ hden, mul_comm]
    exact mul_le_mul_of_nonneg_left (le_add_of_nonneg_right hnorm) hk1.le
  refine ⟨mul_pos hweight (div_pos (mul_pos htf0 hk1) hden), ?_⟩
  calc s.score tf docLen avgdl idf qtf
      ≤ qtf * idf * (s.k1 + 1) := mul_le_mul_of_nonneg_left hle hweight.le
    _ = s.upperBound idf maxTf * qtf := by
        unfold upperBound
        ring

end Bm25Scorer

/-! ## TF-IDF -/

namespace TfIdfScorer

variable [Analytic K]

/-- `TfIdfScorer` as a `Scorer`. -/
def scorer : Scorer K where
  idf nDocs nTerm := max (Analytic.ln (nDocs / (nTerm + 1))) 0
  score tf _docLen _avgdl idf qtf := qtf * Analytic.sqrt tf * idf
  upperBound idf maxTf := idf * Analytic.sqrt (maxTf : K)

variable [IsStrictOrderedRing K]

lemma score_bounds {tf maxTf : ℕ} (htf : 1 ≤ tf) (hmax : tf ≤ maxTf) (docLen avgdl : K)
    {idf qtf : K}
    (hidf : 0 ≤ idf) (hqtf : 0 < qtf) :
    (0 < scorer.score (tf : K) docLen avgdl idf qtf ↔ 0 < idf) ∧
      scorer.score (tf : K) docLen avgdl idf qtf ≤ scorer.upperBound idf maxTf * qtf := by
  have hsqrt : 0 < Analytic.sqrt (tf : K) := Analytic.sqrt_pos _ (Nat.cast_pos.mpr htf)
  refine ⟨mul_pos_iff_of_pos_left (mul_pos hqtf hsqrt), ?_⟩
  have hmono : Analytic.sqrt (tf : K) ≤ Analytic.sqrt (maxTf : K) :=
    Analytic.sqrt_mono _ _ (Nat.cast_nonneg tf) (Nat.cast_le.mpr hmax)
  calc qtf * Analytic.sqrt (tf : K) * idf
      ≤ qtf * Analytic.sqrt (maxTf : K) * idf :=
        mul_le_mul_of_nonneg_right (mul_le_mul_of_nonneg_left hmono hqtf.le) hidf
    _ = idf * Analytic.sqrt (maxTf : K) * qtf := by ring

end TfIdfScorer

/-! ## The built-in scorers -/

/-- A scorer that comes with the library. -/
inductive BuiltInScorer (K : Type) [Field K] [LinearOrder K] where
  | bm25 (s : Bm25Scorer K) (h : s.InRange)
  | tfIdf

namespace BuiltInScorer

variable [Analytic K]

def scorer : BuiltInScorer K → Scorer K
  | bm25 s _ => s.scorer
  | tfIdf => TfIdfScorer.scorer

/-- A term in `nTerm` of `nDocs` documents counts. -/
def Counts : BuiltInScorer K → (nTerm nDocs : ℕ) → Prop
  | bm25 _ _, _, _ => True
  | tfIdf, nTerm, nDocs => nTerm + 1 < nDocs

instance (sc : BuiltInScorer K) (nTerm nDocs : ℕ) : Decidable (sc.Counts nTerm nDocs) :=
  match sc with
  | bm25 _ _ => inferInstanceAs (Decidable True)
  | tfIdf => inferInstanceAs (Decidable (nTerm + 1 < nDocs))

variable [IsStrictOrderedRing K]

omit [Analytic K] in
lemma inRange_default : (Bm25Scorer.default : Bm25Scorer K).InRange :=
  ⟨by norm_num [Bm25Scorer.default], by norm_num [Bm25Scorer.default],
    by norm_num [Bm25Scorer.default]⟩

/-- The scorer of a search that names none. -/
def standard : BuiltInScorer K := .bm25 .default inRange_default

/-- The inverse document frequency is positive for the terms that count. -/
theorem idf_pos_iff (sc : BuiltInScorer K) {nTerm nDocs : ℕ} (hpos : 0 < nTerm)
    (hle : nTerm ≤ nDocs) :
    0 ≤ sc.scorer.idf nDocs nTerm ∧ (0 < sc.scorer.idf nDocs nTerm ↔ sc.Counts nTerm nDocs) := by
  cases sc with
  | bm25 s h =>
    have hcast : (nTerm : K) ≤ nDocs := Nat.cast_le.mpr hle
    have hterm : (0 : K) < nTerm + 1 / 2 := by positivity
    have hrest : (0 : K) < nDocs - nTerm + 1 / 2 := by linarith
    have hratio : (0 : K) < (nDocs - nTerm + 1 / 2) / (nTerm + 1 / 2) := div_pos hrest hterm
    have hidf : 0 < (bm25 s h).scorer.idf nDocs nTerm :=
      (Analytic.ln_pos_iff _ (add_pos hratio zero_lt_one)).mpr (by linarith)
    exact ⟨hidf.le, iff_of_true hidf trivial⟩
  | tfIdf =>
    have hterm : (0 : K) < nTerm + 1 := by positivity
    have hdocs : (0 : K) < nDocs := Nat.cast_pos.mpr (hpos.trans_le hle)
    have hln : 0 < Analytic.ln ((nDocs : K) / (nTerm + 1)) ↔ nTerm + 1 < nDocs := by
      rw [Analytic.ln_pos_iff _ (div_pos hdocs hterm), one_lt_div hterm]
      exact_mod_cast Iff.rfl
    refine ⟨le_max_right _ _, ?_⟩
    calc 0 < max (Analytic.ln ((nDocs : K) / (nTerm + 1))) 0
        ↔ 0 < Analytic.ln ((nDocs : K) / (nTerm + 1)) := by simp
      _ ↔ nTerm + 1 < nDocs := hln

/-- **The scores of the built-in scorers.** -/
theorem score_bounds (sc : BuiltInScorer K) {tf maxTf nTerm nDocs : ℕ} (htf : 0 < tf)
    (hmax : tf ≤ maxTf)
    (hpos : 0 < nTerm) (hle : nTerm ≤ nDocs) {docLen qtf : K} (hlen : 0 ≤ docLen) (hqtf : 0 < qtf)
    (avgdl : K) :
    0 ≤ sc.scorer.score tf docLen avgdl (sc.scorer.idf nDocs nTerm) qtf ∧
      (0 < sc.scorer.score tf docLen avgdl (sc.scorer.idf nDocs nTerm) qtf ↔
      sc.Counts nTerm nDocs) ∧
      sc.scorer.score tf docLen avgdl (sc.scorer.idf nDocs nTerm) qtf ≤
        sc.scorer.upperBound (sc.scorer.idf nDocs nTerm) maxTf * qtf := by
  obtain ⟨hidf, hcounts⟩ := sc.idf_pos_iff hpos hle
  cases sc with
  | bm25 s h =>
    have hone : (1 : K) ≤ tf := Nat.one_le_cast.mpr htf
    obtain ⟨hscore, hub⟩ :=
      Bm25Scorer.score_bounds h hone hlen avgdl (hcounts.mpr trivial) hqtf maxTf
    exact ⟨hscore.le, iff_of_true hscore trivial, hub⟩
  | tfIdf =>
    obtain ⟨hscore, hub⟩ := TfIdfScorer.score_bounds htf hmax docLen avgdl hidf hqtf
    refine ⟨?_, hscore.trans hcounts, hub⟩
    exact mul_nonneg (mul_nonneg hqtf.le (Analytic.sqrt_pos _ (Nat.cast_pos.mpr htf)).le) hidf

end BuiltInScorer

end IssunDB.Text
