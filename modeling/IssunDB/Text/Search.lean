import IssunDB.Lib.Slices
import IssunDB.Text.Corpus
import IssunDB.Text.Wand

/-!
# Full-text search

`textSearch` ranks each searched index on its own, adds up the scores of each node over the indexes,
and keeps the best nodes.

* `indexScore`, `summedScore` — the scores that a search should find;
* `rankIndex_topK` — one index: the documents with a positive score are ranked;
* `textSearch_topK` — the same over all searched indexes;
* `textSearch_exact_iff` — when no matching node is lost.
-/

namespace IssunDB.Text

open List BoundedHeap

variable {K : Type} [Field K] [LinearOrder K]

/-! ## The search -/

abbrev TextIndex := String × String × Language

/-- An entry of the scores: the sum, the largest of its parts, and the index of that part. -/
structure Merged (K : Type) where
  sum : K
  best : Option K
  index : ℕ

/-- What hash maps leave open: the order of their entries. -/
structure HashOrder (K : Type) where
  terms : Table String ℕ → List (String × ℕ)
  perm_terms : ∀ t, (terms t).Perm t.toList
  scores : Table NodeId (Merged K) → List (NodeId × Merged K)
  perm_scores : ∀ t, (scores t).Perm t.toList

/-- The indexes that the filters of a search leave. -/
def searched (s : Tables) (opts : TextSearchOptions K) : List TextIndex :=
  s.activeTextIndexesImpl.filter fun index =>
    opts.label.all (· = index.1) && opts.property.all (· = index.2.1)

def activeIndices (s : Tables) (opts : TextSearchOptions K) : Except TextError (List TextIndex) :=
  match opts.label, opts.property with
  | some label, some property =>
    if s.hasNodeTextIndex label property then
      .ok (s.activeTextIndexesImpl.find? fun index => index.1 = label ∧ index.2.1 = property).toList
    else .error (.indexNotFound label property)
  | some label, none =>
    if searched s opts = [] then .error (.labelNotIndexed label) else .ok (searched s opts)
  | none, some property =>
    if searched s opts = [] then .error (.propertyNotIndexed property) else .ok (searched s opts)
  | none, none => if searched s opts = [] then .error .noIndexes else .ok (searched s opts)

/-- `boolean_candidate_set`. -/
def booleanCandidateSet (s : Tables) (label property : String) (terms : List String)
    (mode : BooleanMode) : Finset NodeId :=
  (terms.foldl (fun result term =>
    let termSet := ((s.ftsPostingsImpl label property term).map Prod.fst).toFinset
    some (match result, mode with
      | none, _ => termSet
      | some existing, .and => existing ∩ termSet
      | some existing, .or => existing ∪ termSet)) none).getD ∅

/-- The cursor of a query term, if documents that pass the filter hold it. -/
def termCursor (s : Tables) (scorer : Scorer K) (label property : String) (nDocs : ℕ)
    (candidates : Option (Finset NodeId)) (entry : String × ℕ) : Option (PostingCursor K) :=
  let postings := s.ftsPostingsImpl label property entry.1
  let kept := postings.filter fun p => candidates.all (p.1 ∈ ·)
  if kept = [] then none
  else
    let idf := scorer.idf nDocs postings.length
    let maxTf := (kept.map Prod.snd).max?.getD 0
    some (.new kept idf (scorer.upperBound idf maxTf * entry.2) entry.2)

def docLengths (s : Tables) (label property : String) (ids : List NodeId) : Table NodeId ℕ :=
  ids.foldl (fun lengths id =>
    match s.ftsDocLenImpl label property id with
    | some len => lengths.put id len
    | none => lengths) .empty

section Search

variable [TextLib] (s : Tables) (U : Unspecified K) (H : HashOrder K)

/-- The hits of one index. Of the rounds of `wandTopK` one more than there are documents are
enough. -/
def rankIndex (scorer : Scorer K) (query : String) (mode : Option BooleanMode) (k : ℕ)
    (index : TextIndex) : Except Error (List (NodeId × K)) :=
  let (label, property, lang) := index
  match s.ftsStatsImpl label property with
  | .error e => .error e
  | .ok none => .ok []
  | .ok (some (nDocs, sumDl)) =>
    if nDocs = 0 then .ok []
    else
      let avgdl : K := sumDl / nDocs
      let terms := H.terms (tokenize query lang)
      if terms = [] then .ok []
      else
        let candidates :=
          if mode = some .and ∧ 1 < terms.length then
            some (booleanCandidateSet s label property (terms.map Prod.fst) .and)
          else none
        let cursors := terms.filterMap (termCursor s scorer label property nDocs candidates)
        if cursors = [] then .ok []
        else
          let lengths := docLengths s label property (docs cursors).ascending
          .ok ((wandTopK U scorer lengths avgdl ((docs cursors).card + 1) cursors k).getD [])

/-- A further part of a score. -/
def Merged.add (indexPos : ℕ) (score : K) (entry : Merged K) : Merged K :=
  if entry.best.all (· < score) then ⟨entry.sum + score, some score, indexPos⟩
  else { entry with sum := entry.sum + score }

/-- Add the hits of an index to the scores. -/
def mergeHits (indexPos : ℕ) (hits : List (NodeId × K)) (scores : Table NodeId (Merged K)) :
    Table NodeId (Merged K) :=
  hits.foldl (fun scores hit =>
    scores.put hit.1 (((scores.get hit.1).getD ⟨0, none, 0⟩).add indexPos hit.2)) scores

/-- Add the hits of the indexes from a position on to the scores. -/
def mergeAll (rank : TextIndex → Except Error (List (NodeId × K))) :
    ℕ → List TextIndex → Table NodeId (Merged K) → Except Error (Table NodeId (Merged K))
  | _, [], scores => .ok scores
  | pos, index :: indexes, scores =>
    match rank index with
    | .error e => .error e
    | .ok hits => mergeAll rank (pos + 1) indexes (mergeHits pos hits scores)

def toHit (active : List TextIndex) (entry : NodeId × Merged K) : Option (TextHit K) :=
  active[entry.2.index]?.map fun index => ⟨entry.1, entry.2.sum, index.1, index.2.1⟩

/-- `text_search`. -/
def textSearch [Analytic K] (query : String) (opts : TextSearchOptions K) :
    Except TextError (List (TextHit K)) :=
  if Texts.trim query.toList = [] then .error .emptyQuery
  else
    match activeIndices s opts with
    | .error e => .error e
    | .ok active =>
      let scorer := opts.scorer.getD Bm25Scorer.default.scorer
      let k := if 1 < active.length then 2 ^ 64 - 1 else opts.limit
      match mergeAll (rankIndex s U H scorer query opts.booleanMode k) 0 active .empty with
      | .error e => .error (.core e)
      | .ok scores =>
        let hits := stableSort (fun a b => compare b.score a.score)
          ((H.scores scores).filterMap (toHit active))
        .ok (if opts.limit < hits.length then hits.take opts.limit else hits)

end Search

/-! ## What a search should find -/

section Specification

/-- A document has a term of the query, and all of them if the mode asks for that. -/
def Matches (T : Corpus) (terms : Table String ℕ) (mode : Option BooleanMode) (n : NodeId) : Prop :=
  (∃ term ∈ terms.keys, (T.freq n term).isSome) ∧
    (mode = some .and → ∀ term ∈ terms.keys, (T.freq n term).isSome)

instance (T : Corpus) (terms : Table String ℕ) (mode : Option BooleanMode) (n : NodeId) :
    Decidable (Matches T terms mode n) :=
  inferInstanceAs (Decidable (_ ∧ _))

/-- What a query term, met `entry.2` times in the query, adds to the score of a document. -/
def termWeight (scorer : Scorer K) (T : Corpus) (n : NodeId) (entry : String × ℕ) : K :=
  match T.freq n entry.1 with
  | some tf =>
    scorer.score tf (((T.get n).map tokenCount).getD 0 : ℕ) (T.tokens / T.keys.card)
      (scorer.idf T.keys.card (T.holders entry.1).card) entry.2
  | none => 0

def indexScore (scorer : Scorer K) (T : Corpus) (terms : Table String ℕ) (mode : Option BooleanMode)
    (n : NodeId) : K :=
  if Matches T terms mode n then (terms.toList.map (termWeight scorer T n)).sum else 0

variable [TextLib] (s : Tables)

/-- A node matches a query in an index. -/
def MatchesIn (query : String) (mode : Option BooleanMode) (n : NodeId)
    (index : TextIndex) : Prop :=
  Matches (s.corpus index.1 index.2.1 index.2.2) (tokenize query index.2.2) mode n

instance (query : String) (mode : Option BooleanMode) (n : NodeId) (index : TextIndex) :
    Decidable (MatchesIn s query mode n index) :=
  inferInstanceAs (Decidable (Matches _ _ _ _))

def matching (query : String) (opts : TextSearchOptions K) : Finset NodeId :=
  s.nodes.keys.filter fun n => ∃ index ∈ searched s opts, MatchesIn s query opts.booleanMode n index

def summedScore (scorer : Scorer K) (query : String) (opts : TextSearchOptions K)
    (n : NodeId) : K :=
  ((searched s opts).map fun index =>
    indexScore scorer (s.corpus index.1 index.2.1 index.2.2) (tokenize query index.2.2)
      opts.booleanMode n).sum

end Specification

/-! ## One index -/

section OneIndex

variable {s : Tables} {label property : String} {T : Corpus} {n : NodeId}

lemma length_postings (h : s.Serves label property T) (term : String) :
    (s.ftsPostingsImpl label property term).length = (T.holders term).card := by
  have hnodup : ((s.ftsPostingsImpl label property term).map Prod.fst).Nodup :=
    pairwise_map.mpr ((h.ascending term).imp fun hlt => hlt.ne)
  rw [← length_map (f := Prod.fst), ← toFinset_card_of_nodup hnodup]
  congr 1
  ext n
  rw [mem_toFinset, Corpus.mem_holders, mem_map]
  constructor
  · rintro ⟨⟨n, tf⟩, hmem, rfl⟩
    rw [(h.postings term n tf).mp hmem]
    rfl
  · intro hsome
    obtain ⟨tf, htf⟩ := Option.isSome_iff_exists.mp hsome
    exact ⟨(n, tf), (h.postings term n tf).mpr htf, rfl⟩

lemma mem_booleanCandidateSet (h : s.Serves label property T) {terms : List String}
    (hne : terms ≠ []) :
    n ∈ booleanCandidateSet s label property terms .and ↔
    ∀ term ∈ terms, (T.freq n term).isSome := by
  have hset : ∀ term, n ∈ ((s.ftsPostingsImpl label property term).map Prod.fst).toFinset ↔
      (T.freq n term).isSome := by
    intro term
    rw [mem_toFinset, mem_map, Option.isSome_iff_exists]
    constructor
    · rintro ⟨⟨n, tf⟩, hmem, rfl⟩
      exact ⟨tf, (h.postings term n tf).mp hmem⟩
    · rintro ⟨tf, htf⟩
      exact ⟨(n, tf), (h.postings term n tf).mpr htf, rfl⟩
  have hfold : ∀ (terms : List String) (start : Finset NodeId),
      n ∈ (terms.foldl (fun result term =>
        let termSet := ((s.ftsPostingsImpl label property term).map Prod.fst).toFinset
        some (match result, BooleanMode.and with
          | none, _ => termSet
          | some existing, .and => existing ∩ termSet
          | some existing, .or => existing ∪ termSet)) (some start)).getD ∅ ↔
        n ∈ start ∧ ∀ term ∈ terms, (T.freq n term).isSome := by
    intro terms
    induction terms with
    | nil => intro start; simp
    | cons term terms ih =>
      intro start
      rw [foldl_cons, ih, Finset.mem_inter, hset, forall_mem_cons, and_assoc]
  cases terms with
  | nil => exact absurd rfl hne
  | cons term terms =>
    rw [booleanCandidateSet, foldl_cons, hfold, hset, forall_mem_cons]

lemma get_docLengths (ids : List NodeId) (hn : n ∈ ids) :
    (docLengths s label property ids).get n = s.ftsDocLenImpl label property n := by
  have hfold : ∀ (ids : List NodeId) (t : Table NodeId ℕ),
      (ids.foldl (fun lengths id =>
        match s.ftsDocLenImpl label property id with
        | some len => lengths.put id len
        | none => lengths) t).get n =
        if n ∈ ids then (s.ftsDocLenImpl label property n).or (t.get n) else t.get n := by
    intro ids
    induction ids with
    | nil => intro t; rfl
    | cons id ids ih =>
      intro t
      rw [foldl_cons, ih]
      rcases hlen : s.ftsDocLenImpl label property id with _ | len
      · by_cases hid : n = id
        · subst hid
          simp [hlen]
        · simp [hid]
      · by_cases hid : n = id
        · subst hid
          simp [hlen]
        · simp [hid]
  rw [docLengths, hfold, if_pos hn, Table.get_empty, Option.or_none]

variable [Analytic K] [IsStrictOrderedRing K] (sc : BuiltInScorer K)
    {candidates : Option (Finset NodeId)}
  {entry : String × ℕ} {c : PostingCursor K} {lengths : Table NodeId ℕ}

variable {scorer : Scorer K} {mode : Option BooleanMode} {terms : Table String ℕ}

omit [IsStrictOrderedRing K] [Analytic K] [LinearOrder K] in
lemma termCursor_some (h : s.Serves label property T)
    (hc : termCursor s scorer label property T.keys.card candidates entry = some c) :
    c.pos = 0 ∧ c.idf = scorer.idf T.keys.card (T.holders entry.1).card ∧ c.qtf = entry.2 ∧
      c.upperBound = scorer.upperBound c.idf ((c.postings.map Prod.snd).max?.getD 0) * entry.2 ∧
      c.postings =
        (s.ftsPostingsImpl label property entry.1).filter fun p => candidates.all (p.1 ∈ ·) := by
  unfold termCursor at hc
  dsimp only at hc
  split at hc
  next => exact nomatch hc
  next =>
    rw [length_postings h] at hc
    obtain rfl := Option.some.inj hc
    exact ⟨rfl, rfl, rfl, rfl, rfl⟩

omit [IsStrictOrderedRing K] [Analytic K] [LinearOrder K] in
lemma mem_postings_iff (h : s.Serves label property T)
    (hc : termCursor s scorer label property T.keys.card candidates entry = some c) {tf : ℕ} :
    (n, tf) ∈ c.postings ↔ T.freq n entry.1 = some tf ∧ candidates.all (n ∈ ·) := by
  rw [(termCursor_some h hc).2.2.2.2, mem_filter, h.postings]

omit [IsStrictOrderedRing K] [Analytic K] [LinearOrder K] in
lemma termScore_eq (h : s.Serves label property T)
    (hc : termCursor s scorer label property T.keys.card candidates entry = some c) {tf : ℕ}
    (hmem : (n, tf) ∈ c.postings) (hlen : lengths.get n = (T.get n).map tokenCount) :
    termScore scorer lengths (T.tokens / T.keys.card) c tf n = termWeight scorer T n entry := by
  obtain ⟨-, hidf, hqtf, -, -⟩ := termCursor_some h hc
  unfold termScore termWeight
  rw [((mem_postings_iff h hc).mp hmem).1, hidf, hqtf, hlen]

omit [IsStrictOrderedRing K] [Analytic K] [LinearOrder K] in
lemma ascending_termCursor (h : s.Serves label property T)
    (hc : termCursor s scorer label property T.keys.card candidates entry = some c) :
    c.Ascending := by
  rw [PostingCursor.Ascending, (termCursor_some h hc).2.2.2.2]
  exact (h.ascending entry.1).sublist filter_sublist

omit [Field K] [LinearOrder K] [IsStrictOrderedRing K] [Analytic K] in
lemma card_holders_le (T : Corpus) (term : String) : (T.holders term).card ≤ T.keys.card :=
  Finset.card_filter_le _ _

lemma termWeight_pos_iff (hentry : 0 < entry.2)
    (hfreq : ∀ n tf, T.freq n entry.1 = some tf → 0 < tf) :
    0 ≤ termWeight sc.scorer T n entry ∧
      (0 < termWeight sc.scorer T n entry ↔
        (T.freq n entry.1).isSome ∧ sc.Counts (T.holders entry.1).card T.keys.card) := by
  unfold termWeight
  rcases htf : T.freq n entry.1 with _ | tf
  · exact ⟨le_refl 0, iff_of_false (lt_irrefl 0) fun hsome => nomatch hsome.1⟩
  · have hholder : 0 < (T.holders entry.1).card :=
      Finset.card_pos.mpr ⟨n, Corpus.mem_holders.mpr (by rw [htf]; rfl)⟩
    have hlen : (0 : K) ≤ ((((T.get n).map tokenCount).getD 0 : ℕ) : K) := Nat.cast_nonneg _
    obtain ⟨hnonneg, hpos, -⟩ := sc.score_bounds (hfreq n tf htf) (le_refl tf) hholder
      (card_holders_le T entry.1) hlen (Nat.cast_pos.mpr hentry) (T.tokens / T.keys.card)
    exact ⟨hnonneg, hpos.trans (and_iff_right rfl).symm⟩

lemma bounded_termCursor (h : s.Serves label property T) (hentry : 0 < entry.2)
    (hc : termCursor s sc.scorer label property T.keys.card candidates entry = some c)
    (hlen : ∀ n, c.Holds n → lengths.get n = (T.get n).map tokenCount) :
    c.Bounded sc.scorer lengths (T.tokens / T.keys.card) where
  ascending := ascending_termCursor h hc
  score_nonneg p hp := by
    rw [termScore_eq h hc hp (hlen p.1 ⟨p.2, hp⟩)]
    exact (termWeight_pos_iff sc hentry (h.positive entry.1)).1
  score_le p hp := by
    obtain ⟨-, hidf, hqtf, hub, -⟩ := termCursor_some h hc
    obtain ⟨htf, -⟩ := (mem_postings_iff h hc).mp hp
    have hmax : p.2 ≤ (c.postings.map Prod.snd).max?.getD 0 :=
      le_max?_getD_of_mem (mem_map_of_mem hp)
    have hholder : 0 < (T.holders entry.1).card :=
      Finset.card_pos.mpr ⟨p.1, Corpus.mem_holders.mpr (by rw [htf]; rfl)⟩
    rw [hub, termScore, hidf, hqtf]
    exact (sc.score_bounds (h.positive entry.1 p.1 p.2 htf) hmax hholder (card_holders_le T entry.1)
      (Nat.cast_nonneg _) (Nat.cast_pos.mpr hentry) _).2.2

omit [IsStrictOrderedRing K] [Analytic K] [LinearOrder K] in
lemma exhaustive_cursors (h : s.Serves label property T) {entries : List (String × ℕ)}
    (hlen : ∀ n ∈
      docs (entries.filterMap (termCursor s scorer label property T.keys.card candidates)),
      lengths.get n = (T.get n).map tokenCount) :
    exhaustive scorer lengths (T.tokens / T.keys.card)
        (entries.filterMap (termCursor s scorer label property T.keys.card candidates)) n =
      if candidates.all (n ∈ ·) then (entries.map (termWeight scorer T n)).sum else 0 := by
  induction entries with
  | nil => simp [exhaustive]
  | cons entry entries ih =>
    rcases hc : termCursor s scorer label property T.keys.card candidates entry with _ | c
    · rw [filterMap_cons_none hc] at hlen ⊢
      rw [ih hlen]
      split
      next hcand =>
        -- No candidate holds the term.
        have hnone : T.freq n entry.1 = none := by
          by_contra hsome
          obtain ⟨tf, htf⟩ := Option.ne_none_iff_exists'.mp hsome
          unfold termCursor at hc
          dsimp only at hc
          split at hc
          next hnil =>
            refine not_mem_nil (a := (n, tf)) (hnil ▸ mem_filter.mpr ⟨?_, hcand⟩)
            exact (h.postings entry.1 n tf).mpr htf
          next => cases hc
        rw [map_cons, sum_cons, termWeight, hnone, zero_add]
      next => rfl
    · rw [filterMap_cons_some hc] at hlen ⊢
      have hrest := ih fun n hn => hlen n (by
        obtain ⟨c', hc', hd⟩ := mem_docs.mp hn
        exact mem_docs.mpr ⟨c', mem_cons_of_mem c hc', hd⟩)
      have hterm : termOf scorer lengths (T.tokens / T.keys.card) c n =
          if candidates.all (n ∈ ·) then termWeight scorer T n entry else 0 := by
        by_cases hholds : c.Holds n
        · obtain ⟨tf, hmem⟩ := hholds
          rw [termOf_of_mem (ascending_termCursor h hc) hmem,
            if_pos ((mem_postings_iff h hc).mp hmem).2]
          exact termScore_eq h hc hmem (hlen n (mem_docs.mpr ⟨c, mem_cons_self, tf, hmem⟩))
        · rw [termOf_of_not_holds hholds]
          split
          next hcand =>
            have hnone : T.freq n entry.1 = none := by
              by_contra hsome
              obtain ⟨tf, htf⟩ := Option.ne_none_iff_exists'.mp hsome
              exact hholds ⟨tf, (mem_postings_iff h hc).mpr ⟨htf, hcand⟩⟩
            rw [termWeight, hnone]
          next => rfl
      unfold exhaustive at hrest ⊢
      rw [map_cons, sum_cons, hrest, hterm]
      split
      next => rw [map_cons, sum_cons]
      next => exact add_zero 0

def positives (scorer : Scorer K) (T : Corpus) (terms : Table String ℕ)
    (mode : Option BooleanMode) :
    Finset NodeId :=
  T.keys.filter fun n => 0 < indexScore scorer T terms mode n

omit [Analytic K] [IsStrictOrderedRing K] in
lemma mem_keys_of_matches (h : Matches T terms mode n) : n ∈ T.keys := by
  obtain ⟨term, -, hterm⟩ := h.1
  obtain ⟨tf, htf⟩ := Option.isSome_iff_exists.mp hterm
  obtain ⟨doc, hdoc, -⟩ := Option.bind_eq_some_iff.mp htf
  exact (T.mem_keys n).mpr (by rw [hdoc]; rfl)

omit [Analytic K] [IsStrictOrderedRing K] in
lemma mem_positives :
    n ∈ positives scorer T terms mode ↔ 0 < indexScore scorer T terms mode n := by
  rw [positives, Finset.mem_filter, and_iff_right_iff_imp]
  intro hpos
  unfold indexScore at hpos
  split at hpos
  next hmatch => exact mem_keys_of_matches hmatch
  next => exact absurd hpos (lt_irrefl 0)

omit [Analytic K] [IsStrictOrderedRing K] in
lemma positives_eq_empty (h : ∀ n, indexScore scorer T terms mode n = 0) :
    positives scorer T terms mode = ∅ :=
  Finset.eq_empty_of_forall_notMem fun n hn => by
    rw [mem_positives, h n] at hn
    exact lt_irrefl 0 hn

omit [Analytic K] [IsStrictOrderedRing K] [LinearOrder K] [Field K] in
/-- The terms of a query, in the order of the hash map. -/
theorem mem_terms (H : HashOrder K) (t : Table String ℕ) {e : String × ℕ} :
    e ∈ H.terms t ↔ t.get e.1 = some e.2 :=
  (H.perm_terms t).mem_iff.trans Table.mem_toList

omit [Analytic K] [IsStrictOrderedRing K] [LinearOrder K] in
lemma indexScore_eq (H : HashOrder K) (h : s.Serves label property T) (scorer : Scorer K)
    (query : Table String ℕ) (mode : Option BooleanMode) (n : NodeId) :
    (if (if mode = some .and ∧ 1 < (H.terms query).length then
          some (booleanCandidateSet s label property ((H.terms query).map Prod.fst) .and)
        else none).all (n ∈ ·) then
      ((H.terms query).map (termWeight scorer T n)).sum else 0) =
        indexScore scorer T query mode n := by
  have hsum : ((H.terms query).map (termWeight scorer T n)).sum =
      (query.toList.map (termWeight scorer T n)).sum := ((H.perm_terms query).map _).sum_eq
  have hkeys : ∀ term, term ∈ query.keys ↔ ∃ e ∈ H.terms query, e.1 = term := by
    intro term
    rw [Table.mem_keys, Option.isSome_iff_exists]
    constructor
    · rintro ⟨qtf, hqtf⟩
      exact ⟨(term, qtf), (mem_terms H query).mpr hqtf, rfl⟩
    · rintro ⟨e, he, rfl⟩
      exact ⟨e.2, (mem_terms H query).mp he⟩
  by_cases hsome : ∃ term ∈ query.keys, (T.freq n term).isSome
  · -- With one term at least, the candidates are the documents that match.
    refine if_congr ?_ hsum rfl
    obtain ⟨term, hterm, hfreq⟩ := hsome
    obtain ⟨e, he, rfl⟩ := (hkeys term).mp hterm
    have hall : (mode = some .and → ∀ term ∈ query.keys, (T.freq n term).isSome) ↔
        Matches T query mode n := (and_iff_right ⟨e.1, hterm, hfreq⟩).symm
    rw [← hall]
    split
    next hcond =>
      have hne : (H.terms query).map Prod.fst ≠ [] := ne_nil_of_mem (mem_map_of_mem he)
      rw [Option.all_some, decide_eq_true_iff, mem_booleanCandidateSet h hne]
      simp only [hcond.1, true_imp_iff, hkeys, mem_map]
    next hcond =>
      refine iff_of_true rfl fun hmode term hmem => ?_
      -- The only term is the one that the document holds.
      obtain ⟨e', he', rfl⟩ := (hkeys term).mp hmem
      have hlength : (H.terms query).length ≤ 1 := not_lt.mp fun hlt => hcond ⟨hmode, hlt⟩
      obtain ⟨only, honly⟩ := length_eq_one_iff.mp
        (le_antisymm hlength (length_pos_of_mem he))
      rw [honly, mem_singleton] at he he'
      rwa [he', ← he]
  · have hnone : ∀ e ∈ H.terms query, termWeight scorer T n e = 0 := by
      intro e he
      have hfreq : T.freq n e.1 = none := by
        by_contra hne
        exact hsome ⟨e.1, (hkeys e.1).mpr ⟨e, he, rfl⟩, Option.isSome_iff_ne_none.mpr hne⟩
      rw [termWeight, hfreq]
    have hzero : ((H.terms query).map (termWeight scorer T n)).sum = 0 := by
      refine sum_eq_zero fun x hx => ?_
      obtain ⟨e, he, rfl⟩ := mem_map.mp hx
      exact hnone e he
    rw [hzero, ite_self, indexScore, if_neg fun hmatch => hsome hmatch.1]

variable [TextLib]

/-- **One index is ranked.** -/
theorem rankIndex_topK (U : Unspecified K) (H : HashOrder K) {lang : Language}
    (h : s.Serves label property T) (query : String) (mode : Option BooleanMode) (k : ℕ) :
    ∃ hits, rankIndex s U H sc.scorer query mode k (label, property, lang) = .ok hits ∧
      TopK k (indexScore sc.scorer T (tokenize query lang) mode)
        (positives sc.scorer T (tokenize query lang) mode) hits := by
  have hempty : (∀ n, indexScore sc.scorer T (tokenize query lang) mode n = 0) →
      TopK k (indexScore sc.scorer T (tokenize query lang) mode)
        (positives sc.scorer T (tokenize query lang) mode) [] := by
    intro hzero
    rw [positives_eq_empty hzero]
    exact TopK.nil k _
  unfold rankIndex
  dsimp only
  rw [h.stats]
  dsimp only
  split
  next hdocs =>
    refine ⟨[], rfl, hempty fun n => if_neg fun hmatch => ?_⟩
    exact absurd (Finset.card_pos.mpr ⟨n, mem_keys_of_matches hmatch⟩) hdocs.not_gt
  next =>
  split
  next hterms =>
    refine ⟨[], rfl, hempty fun n => if_neg ?_⟩
    rintro ⟨⟨term, hterm, -⟩, -⟩
    obtain ⟨qtf, hqtf⟩ := Option.isSome_iff_exists.mp ((Table.mem_keys _ _).mp hterm)
    have hin : (term, qtf) ∈ H.terms (tokenize query lang) := (mem_terms H _).mpr hqtf
    rw [hterms] at hin
    exact not_mem_nil hin
  next =>
  generalize hcand :
    (if mode = some BooleanMode.and ∧ 1 < (H.terms (tokenize query lang)).length then
    some (booleanCandidateSet s label property ((H.terms (tokenize query lang)).map Prod.fst) .and)
    else none) = candidates
  have hscore : ∀ n, (if candidates.all (n ∈ ·) then
      ((H.terms (tokenize query lang)).map (termWeight sc.scorer T n)).sum else 0) =
        indexScore sc.scorer T (tokenize query lang) mode n := by
    intro n
    rw [← hcand]
    exact indexScore_eq H h sc.scorer (tokenize query lang) mode n
  generalize hcursors : (H.terms (tokenize query lang)).filterMap
    (termCursor s sc.scorer label property T.keys.card candidates) = cursors
  have hlen : ∀ n ∈ docs cursors, (docLengths s label property (docs cursors).ascending).get n =
      (T.get n).map tokenCount := by
    intro n hn
    rw [get_docLengths _ (Finset.mem_ascending.mpr hn), h.docLen]
  have hexhaustive : exhaustive sc.scorer (docLengths s label property (docs cursors).ascending)
      (T.tokens / T.keys.card) cursors = indexScore sc.scorer T (tokenize query lang) mode := by
    funext n
    rw [← hscore n, ← exhaustive_cursors h (hcursors ▸ hlen), hcursors]
  split
  next hnil =>
    refine ⟨[], rfl, hempty fun n => ?_⟩
    rw [← hexhaustive, hnil]
    rfl
  next =>
    have hbounded : ∀ c ∈ cursors, c.pos = 0 ∧ c.Bounded sc.scorer
        (docLengths s label property (docs cursors).ascending) (T.tokens / T.keys.card) := by
      intro c hc
      obtain ⟨e, he, hcursor⟩ := mem_filterMap.mp (hcursors ▸ hc)
      refine ⟨(termCursor_some h hcursor).1, bounded_termCursor sc h ?_ hcursor fun n hn =>
        hlen n (mem_docs.mpr ⟨c, hc, hn⟩)⟩
      exact tokenize_pos ((mem_terms H _).mp he)
    obtain ⟨hits, hrun, htop⟩ := wandTopK_topK U (fun c hc => (hbounded c hc).2)
      (fun c hc => (hbounded c hc).1) k (Nat.lt_succ_self (docs cursors).card)
    have hall : scoring sc.scorer (docLengths s label property (docs cursors).ascending)
        (T.tokens / T.keys.card) cursors = positives sc.scorer T (tokenize query lang) mode := by
      ext n
      rw [mem_positives, scoring, Finset.mem_filter, hexhaustive, and_iff_right_iff_imp]
      intro hpos
      by_contra hout
      rw [← hexhaustive, exhaustive_eq_zero fun c hc hd => hout (mem_docs.mpr ⟨c, hc, hd⟩)] at hpos
      exact lt_irrefl 0 hpos
    rw [hall, hexhaustive] at htop
    exact ⟨hits, by rw [hrun]; rfl, htop⟩

end OneIndex

/-! ## Adding up -/

section Merge

omit [Field K] [LinearOrder K] in
/-- At most one element passes a test that pins down its name. -/
theorem toList_find?_eq_filter {α β : Type} {f : α → β} {p : α → Bool} {b : β} {l : List α}
    (hnodup : (l.map f).Nodup) (hp : ∀ a, p a = true → f a = b) : (l.find? p).toList =
      l.filter p := by
  induction l with
  | nil => rfl
  | cons a l ih =>
    obtain ⟨hnot, hrest⟩ := nodup_cons.mp hnodup
    rw [find?_cons, filter_cons]
    cases hpa : p a with
    | false => exact ih hrest
    | true =>
      have hnone : l.filter p = [] := filter_eq_nil_iff.mpr fun a' ha' hpa' =>
        hnot (mem_map.mpr ⟨a', ha', (hp a' hpa').trans (hp a hpa).symm⟩)
      rw [hnone]
      rfl

/-- The entries add up the scores of the nodes found so far. -/
structure Sums (total : NodeId → K) (found : Set NodeId) (bound : ℕ) (t : Table NodeId (Merged K)) :
    Prop where
  isSome_iff : ∀ n, (t.get n).isSome ↔ n ∈ found
  sum : ∀ n e, t.get n = some e → e.sum = total n ∧ e.index < bound
  rest : ∀ n ∉ found, total n = 0

/-- The hits of one index: the nodes of a set with their scores, that are zero elsewhere. -/
structure Finds (score : NodeId → K) (nodes : Set NodeId) (hits : List (NodeId × K)) : Prop where
  nodup : (hits.map Prod.fst).Nodup
  mem : ∀ n, n ∈ hits.map Prod.fst ↔ n ∈ nodes
  scored : ∀ hit ∈ hits, hit.2 = score hit.1
  rest : ∀ n ∉ nodes, score n = 0

variable {total score : NodeId → K} {found nodes : Set NodeId} {pos : ℕ}
    {t : Table NodeId (Merged K)}
  {hits : List (NodeId × K)}

lemma Merged.sum_add (e : Merged K) (pos : ℕ) (x : K) : (e.add pos x).sum = e.sum + x := by
  unfold Merged.add
  split <;> rfl

lemma Merged.index_add_lt {e : Merged K} {pos : ℕ} (h : e.index < pos + 1) (x : K) :
    (e.add pos x).index < pos + 1 := by
  unfold Merged.add
  split
  next => exact Nat.lt_succ_self pos
  next => exact h

/-- **One more index.** -/
theorem Sums.mergeHits (h : Sums total found pos t) (hfinds : Finds score nodes hits) :
    Sums (fun n => total n + score n) (found ∪ nodes) (pos + 1) (mergeHits pos hits t) := by
  have hget := Table.get_foldl_put
    (fun (x : K) (old : Option (Merged K)) => (old.getD ⟨0, none, 0⟩).add pos x) hfinds.nodup t
  have hin : ∀ n ∈ nodes, ∃ x, x = score n ∧ (Text.mergeHits pos hits t).get n =
      some (((t.get n).getD ⟨0, none, 0⟩).add pos x) := by
    intro n hn
    obtain ⟨hit, hmem, rfl⟩ := mem_map.mp ((hfinds.mem n).mpr hn)
    exact ⟨hit.2, hfinds.scored hit hmem, (hget hit.1).1 hit.2 hmem⟩
  have hout : ∀ n ∉ nodes, (Text.mergeHits pos hits t).get n = t.get n :=
    fun n hn => (hget n).2 fun hmem => hn ((hfinds.mem n).mp hmem)
  refine ⟨fun n => ?_, fun n e he => ?_, fun n hn => ?_⟩
  · by_cases hn : n ∈ nodes
    · obtain ⟨x, -, hx⟩ := hin n hn
      rw [hx]
      exact iff_of_true rfl (.inr hn)
    · rw [hout n hn, h.isSome_iff]
      exact (or_iff_left hn).symm
  · by_cases hn : n ∈ nodes
    · obtain ⟨x, rfl, hx⟩ := hin n hn
      obtain rfl := Option.some.inj (hx.symm.trans he)
      rw [Merged.sum_add]
      rcases hold : t.get n with _ | e
      · -- A node that was not found before has no score yet.
        have hzero : total n = 0 := h.rest n fun hf => by
          have hsome := (h.isSome_iff n).mpr hf
          rw [hold] at hsome
          exact nomatch hsome
        exact ⟨by rw [hzero]; rfl, Merged.index_add_lt (Nat.succ_pos pos) _⟩
      · obtain ⟨hsum, hindex⟩ := h.sum n e hold
        exact ⟨by rw [← hsum]; rfl, Merged.index_add_lt (hindex.trans (Nat.lt_succ_self pos)) _⟩
    · rw [hout n hn] at he
      obtain ⟨hsum, hindex⟩ := h.sum n e he
      exact ⟨by rw [hsum, hfinds.rest n hn, add_zero], hindex.trans (Nat.lt_succ_self pos)⟩
  · rw [Set.mem_union, not_or] at hn
    rw [h.rest n hn.1, hfinds.rest n hn.2, add_zero]

/-- **All indexes.** -/
theorem Sums.mergeAll {rank : TextIndex → Except Error (List (NodeId × K))}
    (indexes : List TextIndex) (scores : TextIndex → NodeId → K) (nodes : TextIndex → Set NodeId)
    (hrank : ∀ index ∈ indexes, ∃ hits, rank index = .ok hits ∧
        Finds (scores index) (nodes index) hits)
    (h : Sums total found pos t) :
    ∃ t', mergeAll rank pos indexes t = .ok t' ∧
      Sums (fun n => total n + (indexes.map fun index => scores index n).sum)
        {n | n ∈ found ∨ ∃ index ∈ indexes, n ∈ nodes index} (pos + indexes.length) t' := by
  induction indexes generalizing total found pos t with
  | nil => exact ⟨t, rfl, by simpa using h⟩
  | cons index indexes ih =>
    obtain ⟨hits, hhits, hfinds⟩ := hrank index mem_cons_self
    obtain ⟨t', hrun, hsums⟩ :=
      ih (fun index' hmem => hrank index' (mem_cons_of_mem index hmem)) (h.mergeHits hfinds)
    refine ⟨t', by rw [Text.mergeAll, hhits]; exact hrun, ?_⟩
    have htotal :
        (fun n => total n + scores index n + (indexes.map fun index => scores index n).sum) =
        fun n => total n + ((index :: indexes).map fun index => scores index n).sum := by
      funext n
      rw [map_cons, sum_cons, add_assoc]
    have hfound : {n | n ∈ found ∪ nodes index ∨ ∃ index ∈ indexes, n ∈ nodes index} =
        {n | n ∈ found ∨ ∃ index' ∈ index :: indexes, n ∈ nodes index'} := by
      ext n
      simp only [Set.mem_union, Set.mem_ofPred_eq, mem_cons, exists_eq_or_imp, or_assoc]
    rw [htotal, hfound, Nat.add_right_comm, Nat.add_assoc] at hsums
    exact hsums

def TextHit.pair (hit : TextHit K) : NodeId × K := (hit.node, hit.score)

omit [LinearOrder K] in
lemma Sums.mem_hits (H : HashOrder K) {active : List TextIndex}
    (h : Sums total found active.length t) {n : NodeId} {x : K} :
    (n, x) ∈ ((H.scores t).filterMap (toHit active)).map TextHit.pair ↔ n ∈ found ∧
    x = total n := by
  rw [mem_map]
  constructor
  · rintro ⟨hit, hhit, hpair⟩
    obtain ⟨⟨n', e⟩, he, hto⟩ := mem_filterMap.mp hhit
    obtain ⟨index, -, rfl⟩ := Option.map_eq_some_iff.mp hto
    obtain ⟨rfl, rfl⟩ := Prod.mk.inj hpair
    have hget : t.get n' = some e := Table.mem_toList.mp ((H.perm_scores t).mem_iff.mp he)
    exact ⟨(h.isSome_iff n').mp (by rw [hget]; rfl), (h.sum n' e hget).1⟩
  · rintro ⟨hn, rfl⟩
    obtain ⟨e, he⟩ := Option.isSome_iff_exists.mp ((h.isSome_iff n).mpr hn)
    obtain ⟨hsum, hindex⟩ := h.sum n e he
    refine ⟨⟨n, e.sum, active[e.index].1, active[e.index].2.1⟩, mem_filterMap.mpr
      ⟨(n, e), (H.perm_scores t).mem_iff.mpr (Table.mem_toList.mpr he), ?_⟩, by rw [← hsum]; rfl⟩
    rw [toHit, getElem?_eq_getElem hindex]
    rfl

omit [Field K] [LinearOrder K] in
lemma nodup_hits (H : HashOrder K) (active : List TextIndex) (t : Table NodeId (Merged K)) :
    ((((H.scores t).filterMap (toHit active)).map TextHit.pair).map Prod.fst).Nodup := by
  have hkeys : ((H.scores t).map Prod.fst).Nodup := by
    refine ((H.perm_scores t).map Prod.fst).nodup_iff.mpr ?_
    rw [Table.map_fst_toList]
    exact Finset.ascending_nodup _
  have hsub : ((((H.scores t).filterMap (toHit active)).map TextHit.pair).map Prod.fst).Sublist
      ((H.scores t).map Prod.fst) := by
    generalize H.scores t = entries
    induction entries with
    | nil => exact .slnil
    | cons e entries ih =>
      rcases hto : toHit active e with _ | hit
      · rw [filterMap_cons_none hto]
        exact ih.cons _
      · rw [filterMap_cons_some hto]
        obtain ⟨index, -, rfl⟩ := Option.map_eq_some_iff.mp hto
        exact ih.cons_cons _
  exact hkeys.sublist hsub

end Merge

/-! ## All indexes -/

section AllIndexes

variable {s : Tables} {opts : TextSearchOptions K}

omit [Field K] [LinearOrder K] in
/-- The indexes to search are those that the filters leave. -/
theorem activeIndices_ok {active : List TextIndex} (h : activeIndices s opts = .ok active) :
    active = searched s opts := by
  unfold activeIndices at h
  split at h
  next label property hlabel hproperty =>
    split at h
    next =>
      rw [← Except.ok.inj h, toList_find?_eq_filter (b := (label, property))
        (Tables.nodup_activeTextIndexesImpl s) fun index hindex => ?_, searched]
      · refine filter_congr fun index _ => ?_
        rw [hlabel, hproperty, Option.all_some, Option.all_some, Bool.decide_and]
        exact congrArg₂ _ (decide_eq_decide.mpr eq_comm) (decide_eq_decide.mpr eq_comm)
      · exact Prod.ext (of_decide_eq_true hindex).1 (of_decide_eq_true hindex).2
    next => exact nomatch h
  all_goals
    split at h
    next => exact nomatch h
    next => exact (Except.ok.inj h).symm

omit [Field K] [LinearOrder K] in
lemma activeIndices_eq_ok_iff :
    (∃ active, activeIndices s opts = .ok active) ↔ searched s opts ≠ [] := by
  unfold activeIndices
  split
  next label property hlabel hproperty =>
    have hhas : s.hasNodeTextIndex label property = true ↔ searched s opts ≠ [] := by
      rw [Ne, searched, filter_eq_nil_iff]
      push Not
      rw [hlabel, hproperty]
      unfold Tables.hasNodeTextIndex
      constructor
      · intro h
        split at h
        next l p hl hp =>
          obtain ⟨b, hb⟩ := Option.isSome_iff_exists.mp h
          exact ⟨(label, property, .fromU8 b),
            Tables.mem_activeTextIndexesImpl.mpr ⟨l, p, b, hl, hp, hb, rfl⟩, by simp⟩
        next => exact nomatch h
      · rintro ⟨⟨label', property', lang⟩, hmem, hnames⟩
        obtain ⟨rfl, rfl⟩ : label = label' ∧ property = property' := by simpa using hnames
        obtain ⟨l, p, b, hl, hp, hb, -⟩ := Tables.mem_activeTextIndexesImpl.mp hmem
        rw [hl, hp]
        exact congrArg Option.isSome hb
    rw [← hhas]
    split
    next h => exact iff_of_true ⟨_, rfl⟩ h
    next h => exact iff_of_false (fun hok => nomatch hok.choose_spec) h
  all_goals
    split
    next h => exact iff_of_false (fun hok => nomatch hok.choose_spec) (not_not_intro h)
    next h => exact iff_of_true ⟨_, rfl⟩ h

variable [TextLib]

/-- A query term with which a node matches in an index counts there. -/
def FoundIn [Analytic K] (s : Tables) (sc : BuiltInScorer K) (query : String)
    (mode : Option BooleanMode)
    (n : NodeId) (index : TextIndex) : Prop :=
  MatchesIn s query mode n index ∧ ∃ term ∈ (tokenize query index.2.2).keys,
    ((s.corpus index.1 index.2.1 index.2.2).freq n term).isSome ∧
      sc.Counts ((s.corpus index.1 index.2.1 index.2.2).holders term).card
        (s.corpus index.1 index.2.1 index.2.2).keys.card

instance [Analytic K] (sc : BuiltInScorer K) (query : String) (mode : Option BooleanMode)
    (n : NodeId)
    (index : TextIndex) : Decidable (FoundIn s sc query mode n index) :=
  inferInstanceAs (Decidable (_ ∧ _))

/-- The matching nodes with a term that counts. -/
def counted [Analytic K] (s : Tables) (sc : BuiltInScorer K) (query : String)
    (opts : TextSearchOptions K) :
    Finset NodeId :=
  (matching s query opts).filter fun n => ∃ index ∈ searched s opts,
    FoundIn s sc query opts.booleanMode n index

omit [Field K] [LinearOrder K] in
lemma mem_matching {query : String} {n : NodeId} :
    n ∈ matching s query opts ↔
    ∃ index ∈ searched s opts, MatchesIn s query opts.booleanMode n index := by
  rw [matching, Finset.mem_filter, and_iff_right_iff_imp]
  rintro ⟨index, -, hmatch⟩
  exact (Finset.mem_filter.mp (mem_keys_of_matches hmatch)).1

omit [Field K] [LinearOrder K] in
lemma serves_of_searched (h : FtsExact s s.entered) {index : TextIndex}
    (hindex : index ∈ searched s opts) :
    s.Serves index.1 index.2.1 (s.corpus index.1 index.2.1 index.2.2) :=
  Tables.serves_of_active h (mem_of_mem_filter hindex)

variable [Analytic K] [IsStrictOrderedRing K] (sc : BuiltInScorer K)

lemma indexScore_pos_iff (h : FtsExact s s.entered) (query : String) {index : TextIndex}
    (hindex : index ∈ searched s opts) (mode : Option BooleanMode) (n : NodeId) :
    0 ≤ indexScore sc.scorer (s.corpus index.1 index.2.1 index.2.2)
    (tokenize query index.2.2) mode n ∧
      (0 <
      indexScore sc.scorer (s.corpus index.1 index.2.1 index.2.2)
      (tokenize query index.2.2) mode n ↔
        FoundIn s sc query mode n index) := by
  have hserves := serves_of_searched h hindex
  have hweight : ∀ e ∈ (tokenize query index.2.2).toList, _ := fun e he =>
    termWeight_pos_iff sc (T := s.corpus index.1 index.2.1 index.2.2) (n := n)
      (tokenize_pos (Table.mem_toList.mp he)) (hserves.positive e.1)
  have hnonneg : ∀ x ∈ (tokenize query index.2.2).toList.map
      (termWeight sc.scorer (s.corpus index.1 index.2.1 index.2.2) n), 0 ≤ x := by
    intro x hx
    obtain ⟨e, he, rfl⟩ := mem_map.mp hx
    exact (hweight e he).1
  unfold indexScore
  split
  next hmatch =>
    refine ⟨sum_nonneg hnonneg, fun hpos => ⟨hmatch, ?_⟩, fun hfound => ?_⟩
    · obtain ⟨x, hx, hxpos⟩ := exists_lt_of_sum_lt (l := (tokenize query index.2.2).toList)
        (f := fun _ => 0) (g := termWeight sc.scorer (s.corpus index.1 index.2.1 index.2.2) n)
        (by simpa using hpos)
      have hterm := ((hweight x hx).2.mp hxpos)
      exact ⟨x.1, (Table.mem_keys _ _).mpr (by rw [Table.mem_toList.mp hx]; rfl), hterm⟩
    · obtain ⟨-, term, hterm, hsome, hcounts⟩ := hfound
      obtain ⟨qtf, hqtf⟩ := Option.isSome_iff_exists.mp ((Table.mem_keys _ _).mp hterm)
      have he : (term, qtf) ∈ (tokenize query index.2.2).toList := Table.mem_toList.mpr hqtf
      exact ((hweight _ he).2.mpr ⟨hsome, hcounts⟩).trans_le
        (single_le_sum hnonneg _ (mem_map_of_mem he))
  next hno => exact ⟨le_refl 0, iff_of_false (lt_irrefl 0) fun hfound => hno hfound.1⟩

lemma summedScore_pos_iff (h : FtsExact s s.entered) (query : String)
    (opts : TextSearchOptions K) (n : NodeId) :
    0 ≤ summedScore s sc.scorer query opts n ∧
      (0 < summedScore s sc.scorer query opts n ↔ n ∈ counted s sc query opts) := by
  have hindex : ∀ index ∈ searched s opts, _ := fun index hin =>
    indexScore_pos_iff sc h query hin opts.booleanMode n
  have hnonneg : ∀ x ∈ (searched s opts).map (fun index =>
      indexScore sc.scorer (s.corpus index.1 index.2.1 index.2.2) (tokenize query index.2.2)
        opts.booleanMode n), 0 ≤ x := by
    intro x hx
    obtain ⟨index, hin, rfl⟩ := mem_map.mp hx
    exact (hindex index hin).1
  refine ⟨sum_nonneg hnonneg, fun hpos => ?_, fun hin => ?_⟩
  · obtain ⟨index, hin, hindexPos⟩ := exists_lt_of_sum_lt (l := searched s opts) (f := fun _ => 0)
      (g := fun index => indexScore sc.scorer (s.corpus index.1 index.2.1 index.2.2)
        (tokenize query index.2.2) opts.booleanMode n) (by simpa [summedScore] using hpos)
    have hfound := (hindex index hin).2.mp hindexPos
    exact Finset.mem_filter.mpr ⟨mem_matching.mpr ⟨index, hin, hfound.1⟩, index, hin, hfound⟩
  · obtain ⟨-, index, hin, hfound⟩ := Finset.mem_filter.mp hin
    exact ((hindex index hin).2.mpr hfound).trans_le
      (single_le_sum hnonneg _ (mem_map_of_mem hin))

omit [Field K] [TextLib] [Analytic K] [IsStrictOrderedRing K] in
/-- The hits of the entries, sorted and cut off. -/
theorem topK_of_hits (H : HashOrder K) {active : List TextIndex} {t : Table NodeId (Merged K)}
    {score : NodeId → K} {all : Finset NodeId} {k limit : ℕ}
    (h : ∀ hits : List (NodeId × K),
      hits.Perm (((H.scores t).filterMap (toHit active)).map TextHit.pair) →
        hits.Pairwise (fun a b => b.2 ≤ a.2) → TopK k score all hits) (hlimit : limit ≤ k) :
    let hits :=
      stableSort (fun a b => compare b.score a.score) ((H.scores t).filterMap (toHit active))
    TopK limit score all
      ((if limit < hits.length then hits.take limit else hits).map TextHit.pair) := by
  intro hits
  have hcut : (if limit < hits.length then hits.take limit else hits) = hits.take limit := by
    split
    next => rfl
    next hle => exact (take_of_length_le (not_lt.mp hle)).symm
  have hperm :
      (hits.map TextHit.pair).Perm (((H.scores t).filterMap (toHit active)).map TextHit.pair) :=
    (perm_stableSort _ _).map _
  have hcmp : ComparesOn (fun a b : TextHit K => compare b.score a.score) Set.univ :=
    (comparesOn_desc (K := K)).comap (f := TextHit.pair) fun _ _ => Set.mem_univ _
  have hsorted : SortedBy (fun a b : TextHit K => compare b.score a.score) hits :=
    sortedBy_stableSort hcmp fun _ _ => Set.mem_univ _
  have hdesc : (hits.map TextHit.pair).Pairwise fun a b => b.2 ≤ a.2 :=
    pairwise_map.mpr (hsorted.imp fun hle => isLE_compare_iff.mp hle)
  rw [hcut, map_take]
  exact (h _ hperm hdesc).take hlimit (.refl _) hdesc

omit [TextLib] [Analytic K] [IsStrictOrderedRing K] in
lemma mergeAll_ok (rank : TextIndex → Except Error (List (NodeId × K))) {indexes : List TextIndex}
    (hrank : ∀ index ∈ indexes, ∃ hits, rank index =
      .ok hits) (pos : ℕ) (t : Table NodeId (Merged K)) :
    ∃ t', mergeAll rank pos indexes t = .ok t' := by
  induction indexes generalizing pos t with
  | nil => exact ⟨t, rfl⟩
  | cons index indexes ih =>
    obtain ⟨hits, hhits⟩ := hrank index mem_cons_self
    obtain ⟨t', ht'⟩ := ih (fun index' hmem => hrank index' (mem_cons_of_mem index hmem)) (pos + 1)
      (mergeHits pos hits t)
    exact ⟨t', by rw [mergeAll, hhits]; exact ht'⟩

omit [LinearOrder K] [TextLib] [Analytic K] [IsStrictOrderedRing K] in
lemma sums_empty : Sums (fun _ => (0 : K)) ∅ 0 .empty :=
  ⟨fun n => by simp, fun n e he => (nomatch he), fun _ _ => rfl⟩

variable {query : String} {t : Table NodeId (Merged K)} {hits : List (NodeId × K)}

lemma rankIndex_of_searched (U : Unspecified K) (H : HashOrder K) (h : FtsExact s s.entered)
    (query : String) (k : ℕ) {index : TextIndex} (hindex : index ∈ searched s opts) :
    ∃ hits, rankIndex s U H sc.scorer query opts.booleanMode k index = .ok hits ∧
      TopK k (indexScore sc.scorer (s.corpus index.1 index.2.1 index.2.2) (tokenize query index.2.2)
          opts.booleanMode)
        (positives sc.scorer (s.corpus index.1 index.2.1 index.2.2) (tokenize query index.2.2)
          opts.booleanMode) hits :=
  rankIndex_topK sc U H (serves_of_searched h hindex) query opts.booleanMode k

/-- **Indexes that are ranked in full** give all nodes with a term that counts. -/
theorem topK_of_many (U : Unspecified K) (H : HashOrder K) (h : FtsExact s s.entered)
    (hsize : s.nodes.keys.card < 2 ^ 64)
    (ht : mergeAll (rankIndex s U H sc.scorer query opts.booleanMode (2 ^ 64 - 1)) 0
        (searched s opts)
      .empty = .ok t)
    (hperm : hits.Perm (((H.scores t).filterMap (toHit (searched s opts))).map TextHit.pair))
    (hdesc : hits.Pairwise fun a b => b.2 ≤ a.2) {k : ℕ} (hk : (counted s sc query opts).card ≤ k) :
    TopK k (summedScore s sc.scorer query opts) (counted s sc query opts) hits := by
  have hcard : ∀ index : TextIndex, (positives sc.scorer (s.corpus index.1 index.2.1 index.2.2)
      (tokenize query index.2.2) opts.booleanMode).card ≤ 2 ^ 64 - 1 := by
    intro index
    have hle :
        (positives sc.scorer (s.corpus index.1 index.2.1 index.2.2) (tokenize query index.2.2)
        opts.booleanMode).card ≤ s.nodes.keys.card :=
      (Finset.card_filter_le _ _).trans (Finset.card_filter_le _ _)
    omega
  obtain ⟨t', ht', hsums⟩ := sums_empty.mergeAll (searched s opts)
    (fun index => indexScore sc.scorer (s.corpus index.1 index.2.1 index.2.2)
      (tokenize query index.2.2) opts.booleanMode)
    (fun index => {n | 0 < indexScore sc.scorer (s.corpus index.1 index.2.1 index.2.2)
      (tokenize query index.2.2) opts.booleanMode n}) (fun index hindex => by
      obtain ⟨hits, hhits, htop⟩ := rankIndex_of_searched sc U H h query (2 ^ 64 - 1) hindex
      refine ⟨hits, hhits, htop.nodup, fun n => ⟨fun hn => ?_, fun hn => ?_⟩,
        fun hit hin => (htop.scored hit hin).2, fun n hn => ?_⟩
      · obtain ⟨hit, hin, rfl⟩ := mem_map.mp hn
        exact mem_positives.mp (htop.scored hit hin).1
      · exact htop.mem_of_card_le (hcard index) (mem_positives.mpr hn)
      · exact le_antisymm (not_lt.mp hn)
          (indexScore_pos_iff sc h query hindex opts.booleanMode n).1)
  obtain rfl := Except.ok.inj (ht.symm.trans ht')
  simp only [zero_add, Set.mem_empty_iff_false, false_or] at hsums
  refine topK_of_forall ((hperm.map Prod.fst).nodup_iff.mpr (nodup_hits H _ _)) (fun n => ?_)
    (fun hit hin => (hsums.mem_hits H).mp (hperm.mem_iff.mp hin) |>.2) hdesc hk
  constructor
  · intro hn
    obtain ⟨hit, hin, rfl⟩ := mem_map.mp hn
    obtain ⟨⟨index, hindex, hscore⟩, -⟩ := (hsums.mem_hits H).mp (hperm.mem_iff.mp hin)
    have hfound := (indexScore_pos_iff sc h query hindex opts.booleanMode _).2.mp hscore
    exact Finset.mem_filter.mpr ⟨mem_matching.mpr ⟨index, hindex, hfound.1⟩, index, hindex, hfound⟩
  · intro hn
    obtain ⟨-, index, hindex, hfound⟩ := Finset.mem_filter.mp hn
    have hmem := (hsums.mem_hits H (n := n)).mpr
      ⟨⟨index, hindex, (indexScore_pos_iff sc h query hindex opts.booleanMode n).2.mpr hfound⟩, rfl⟩
    exact mem_map.mpr ⟨_, hperm.mem_iff.mpr hmem, rfl⟩

/-- **A single index** is ranked up to the limit. -/
theorem topK_of_one (U : Unspecified K) (H : HashOrder K) (h : FtsExact s s.entered)
    {index : TextIndex}
    (hone : searched s opts = [index])
    (ht : mergeAll (rankIndex s U H sc.scorer query opts.booleanMode opts.limit) 0 (searched s opts)
      .empty = .ok t)
    (hperm : hits.Perm (((H.scores t).filterMap (toHit (searched s opts))).map TextHit.pair))
    (hdesc : hits.Pairwise fun a b => b.2 ≤ a.2) :
    TopK opts.limit (summedScore s sc.scorer query opts) (counted s sc query opts) hits := by
  have hindex : index ∈ searched s opts := hone ▸ mem_singleton_self index
  obtain ⟨ranked, hranked, htop⟩ := rankIndex_of_searched sc U H h query opts.limit hindex
  have hscore : summedScore s sc.scorer query opts = indexScore sc.scorer
      (s.corpus index.1 index.2.1 index.2.2) (tokenize query index.2.2) opts.booleanMode := by
    funext n
    rw [summedScore, hone, map_singleton, sum_singleton]
  have hall : positives sc.scorer (s.corpus index.1 index.2.1 index.2.2) (tokenize query index.2.2)
      opts.booleanMode = counted s sc query opts := by
    ext n
    rw [mem_positives, ← (summedScore_pos_iff sc h query opts n).2, hscore]
  rw [← hscore, hall] at htop
  obtain ⟨t', ht', hsums⟩ := sums_empty.mergeAll (searched s opts)
    (fun _ n => if n ∈ ranked.map Prod.fst then summedScore s sc.scorer query opts n else 0)
    (fun _ => {n | n ∈ ranked.map Prod.fst}) (fun index' hindex' => by
      obtain rfl : index' = index := by simpa [hone] using hindex'
      refine ⟨ranked, hranked, htop.nodup, fun n => Iff.rfl, fun hit hin => ?_,
        fun n hn => if_neg hn⟩
      rw [if_pos (mem_map_of_mem hin)]
      exact (htop.scored hit hin).2)
  obtain rfl := Except.ok.inj (ht.symm.trans ht')
  rw [hone] at hsums
  simp only [zero_add, Set.mem_empty_iff_false, false_or, mem_singleton, exists_eq_left,
    map_singleton, sum_singleton] at hsums
  have hsame : hits.Perm ranked := by
    refine (perm_ext_iff_of_nodup ?_ (List.Nodup.of_map _ htop.nodup)).mpr fun hit => ?_
    · exact List.Nodup.of_map Prod.fst ((hperm.map Prod.fst).nodup_iff.mpr (nodup_hits H _ _))
    · rw [hperm.mem_iff, hone, hsums.mem_hits H]
      constructor
      · rintro ⟨(hin : hit.1 ∈ ranked.map Prod.fst), heq⟩
        obtain ⟨hit', hin', hfst⟩ := mem_map.mp hin
        have hsnd : hit'.2 = hit.2 := by
          rw [heq, if_pos hin, (htop.scored hit' hin').2, hfst]
        rwa [← Prod.ext hfst hsnd]
      · intro hin
        refine ⟨mem_map_of_mem hin, ?_⟩
        rw [if_pos (mem_map_of_mem hin)]
        exact (htop.scored hit hin).2
  have htake := htop.take le_rfl hsame hdesc
  rwa [take_of_length_le (by rw [hsame.length_eq, htop.length]; exact min_le_left _ _)] at htake

/-- **A search ranks the matching nodes with a term that counts.** -/
theorem textSearch_topK (U : Unspecified K) (H : HashOrder K) (h : FtsExact s s.entered)
    (hsize : s.nodes.keys.card < 2 ^ 64)
    (hscorer : opts.scorer.getD Bm25Scorer.default.scorer = sc.scorer) {hits : List (TextHit K)}
    (hrun : textSearch s U H query opts = .ok hits) :
    TopK opts.limit (summedScore s sc.scorer query opts) (counted s sc query opts)
      (hits.map TextHit.pair) := by
  unfold textSearch at hrun
  split at hrun
  next => exact nomatch hrun
  next =>
  split at hrun
  next => exact nomatch hrun
  next active hactive =>
  obtain rfl := activeIndices_ok hactive
  rw [hscorer] at hrun
  dsimp only at hrun
  split at hrun
  next => exact nomatch hrun
  next scores hscores =>
  obtain rfl := Except.ok.inj hrun
  by_cases hmulti : 1 < (searched s opts).length
  · rw [if_pos hmulti] at hscores
    exact topK_of_hits H (fun hits hperm hdesc =>
      topK_of_many sc U H h hsize hscores hperm hdesc (le_max_right opts.limit _)) (le_max_left _ _)
  · rw [if_neg hmulti] at hscores
    obtain ⟨index, hone⟩ : ∃ index, searched s opts = [index] := by
      refine length_eq_one_iff.mp (le_antisymm (not_lt.mp hmulti) ?_)
      exact length_pos_iff.mpr (activeIndices_eq_ok_iff.mp ⟨_, hactive⟩)
    exact topK_of_hits H (fun hits hperm hdesc =>
      topK_of_one sc U H h hone hscores hperm hdesc) le_rfl

/-- A search gives hits, unless the query is blank or there is no index to search. -/
theorem textSearch_eq_ok_iff (U : Unspecified K) (H : HashOrder K) (h : FtsExact s s.entered)
    (hscorer : opts.scorer.getD Bm25Scorer.default.scorer = sc.scorer) :
    (∃ hits, textSearch s U H query opts = .ok hits) ↔
      Texts.trim query.toList ≠ [] ∧ searched s opts ≠ [] := by
  rw [← activeIndices_eq_ok_iff]
  unfold textSearch
  split
  next hblank => exact iff_of_false (fun hok => nomatch hok.choose_spec) fun hne => hne.1 hblank
  next hblank =>
  split
  next hactive =>
    refine iff_of_false (fun hok => nomatch hok.choose_spec) fun hne => ?_
    obtain ⟨active, hok⟩ := hne.2
    exact nomatch hactive.symm.trans hok
  next active hactive =>
  refine iff_of_true ?_ ⟨hblank, active, hactive⟩
  obtain rfl := activeIndices_ok hactive
  rw [hscorer]
  dsimp only
  obtain ⟨t, ht⟩ := mergeAll_ok (rankIndex s U H sc.scorer query opts.booleanMode
      (if 1 < (searched s opts).length then 2 ^ 64 - 1 else opts.limit)) (fun index hindex =>
    (rankIndex_of_searched sc U H h query _ hindex).imp fun _ hrank => hrank.1) 0 .empty
  rw [ht]
  exact ⟨_, rfl⟩

/-- **When no match is lost.** A search finds the best of the matching nodes exactly if each of them
has a term that counts, or enough of them do. With `Bm25Scorer` every term counts, with
`TfIdfScorer` the terms that two documents at least do not hold. -/
theorem textSearch_exact_iff (U : Unspecified K) (H : HashOrder K) (actions : List Graph.Action)
    (hs : (Graph.run actions .empty).storage.tables = s) (hsize : s.nodes.keys.card < 2 ^ 64)
    (chosen : Option (BuiltInScorer K)) (query : String) (label property : Option String)
      (limit : ℕ)
    (mode : Option BooleanMode) :
    let opts : TextSearchOptions K :=
      ⟨label, property, limit, chosen.map BuiltInScorer.scorer, mode⟩
    let sc := chosen.getD .standard
    ((∃ hits, textSearch s U H query opts = .ok hits) ↔
      Texts.trim query.toList ≠ [] ∧ searched s opts ≠ []) ∧
    ∀ hits, textSearch s U H query opts = .ok hits →
      (TopK limit (summedScore s sc.scorer query opts) (matching s query opts)
      (hits.map TextHit.pair) ↔
        matching s query opts ⊆ counted s sc query opts ∨
        limit ≤ (counted s sc query opts).card) := by
  intro opts sc
  have h : FtsExact s s.entered := hs ▸ Graph.ftsExact_run actions
  have hscorer : opts.scorer.getD Bm25Scorer.default.scorer = sc.scorer := by
    cases chosen <;> rfl
  refine ⟨textSearch_eq_ok_iff sc U H h hscorer, fun hits hrun => ?_⟩
  have hpos := summedScore_pos_iff sc h query opts
  refine (textSearch_topK sc U H h hsize hscorer hrun).widen_iff (Finset.filter_subset _ _)
    (fun n hn => (hpos n).2.mpr hn) fun n _ hn => ?_
  exact not_lt.mp fun hlt => hn ((hpos n).2.mp hlt)

end AllIndexes

/-! ## A corpus of one document -/

section Lone

/-- Words between blanks, without stemming. -/
@[reducible]
def TextLib.blanks : TextLib where
  unicodeWords text := ((text.toList.splitOn ' ').map String.ofList).filter (· ≠ "")
  toLowercase := String.toLower
  stem _ word := word

attribute [local instance] TextLib.blanks

def HashOrder.ascending : HashOrder K where
  terms := Table.toList
  perm_terms _ := .refl _
  scores := Table.toList
  perm_scores _ := .refl _

/-- A logarithm with the right sign, and a square root that is right for squares of itself. -/
@[reducible]
def Analytic.shifted : Analytic ℚ where
  ln x := x - 1
  sqrt x := x
  ln_pos_iff _ _ := sub_pos
  sqrt_pos _ h := h
  sqrt_mono _ _ _ h := h

attribute [local instance] Analytic.shifted

def loneDocument : List Graph.Action :=
  [.mutation (.createNodeTextIndex "Doc" "text" .english) (.ok ()),
    .mutation (.addNode "Doc" ⟨.object [("text", .string "rust")], by decide⟩) (.ok ())]

/-- The options of a search with `TfIdfScorer`. -/
def tfIdfOptions : TextSearchOptions ℚ := ⟨none, none, 10, some TfIdfScorer.scorer, none⟩

/-- The only document matches, and is not found. -/
theorem textSearch_loneDocument :
    textSearch
    (Graph.run loneDocument .empty).storage.tables .stable .ascending "rust" tfIdfOptions =
        .ok [] ∧
      ¬TopK 10 (summedScore (Graph.run loneDocument .empty).storage.tables TfIdfScorer.scorer "rust"
          tfIdfOptions)
        (matching (Graph.run loneDocument .empty).storage.tables "rust" tfIdfOptions) [] := by
  have hcard :
      (matching (Graph.run loneDocument .empty).storage.tables "rust" tfIdfOptions).card = 1 := by
    decide +kernel
  refine ⟨by decide +kernel, fun htop => ?_⟩
  have hlength := htop.length
  rw [hcard] at hlength
  exact absurd hlength (by decide)

/-- With the standard scorer it is found. -/
theorem textSearch_exact_iff_loneDocument :
    ∃ hits, textSearch (Graph.run loneDocument .empty).storage.tables .stable .ascending "rust"
        (⟨none, none, 10, none, none⟩ : TextSearchOptions ℚ) = .ok hits ∧
      TopK 10 (summedScore (Graph.run loneDocument .empty).storage.tables
          (BuiltInScorer.standard : BuiltInScorer ℚ).scorer "rust" ⟨none, none, 10, none, none⟩)
        (matching (Graph.run loneDocument .empty).storage.tables "rust"
          (⟨none, none, 10, none, none⟩ : TextSearchOptions ℚ)) (hits.map TextHit.pair) := by
  have hsize : (Graph.run loneDocument .empty).storage.tables.nodes.keys.card < 2 ^ 64 := by
    decide +kernel
  obtain ⟨hok, hexact⟩ :=
    textSearch_exact_iff (K := ℚ) .stable .ascending loneDocument rfl hsize none
    "rust" none none 10 none
  obtain ⟨hits, hrun⟩ := hok.mpr (by decide +kernel)
  exact ⟨hits, hrun, (hexact hits hrun).mpr (.inl (by decide +kernel))⟩

end Lone

end IssunDB.Text
