import IssunDB.FullText
import IssunDB.Text.Scorers

/-!
# The text indexes as searches read them

What full-text search reads of a text index: whether it exists, its statistics, its postings and the
lengths of its documents.

* `Tables.corpus` — the documents of a text index, from the stored nodes;
* `Tables.Serves` — what is read of an index is what its corpus says;
* `serves_of_active` — in every reached state the active indexes are of this kind.
-/

namespace IssunDB

open List Option

/-! ## Reads -/

namespace Tables

/-- The text of the key of a text index, behind its prefix. -/
def ftsMetaKey (k : LabelId × PropKeyId) : List Char :=
  Nat.toDigits 10 k.1 ++ [':', 'p', ':'] ++ Nat.toDigits 10 k.2

def namedTextIndex (s : Tables) (k : LabelId × PropKeyId) : Option (String × String × Language) :=
  match s.labelName k.1, s.getPropKeyName k.2, s.metaDb.ftsMeta.get k with
  | some label, some property, some b => some (label, property, .fromU8 b)
  | _, _, _ => none

def activeTextIndexesImpl (s : Tables) : List (String × String × Language) :=
  (((s.metaDb.ftsMeta.keys.image toLex).ascending.map ofLex).insertionSort
    fun k k' => ftsMetaKey k ≤ ftsMetaKey k').filterMap s.namedTextIndex

/-- The numbers of documents and of tokens of a text index. -/
def ftsStatsImpl (s : Tables) (label property : String) : Except Error (Option (ℕ × ℕ)) :=
  if s.hasNodeTextIndex label property then
    match s.getLabel label, s.getPropKey property with
    | none, _ => .error (.corrupt "fts_stats: label id not found")
    | some _, none => .error (.corrupt "fts_stats: prop key id not found")
    | some l, some p =>
      .ok (some ((s.metaDb.ftsN.get (l, p)).getD 0, (s.metaDb.ftsSumDl.get (l, p)).getD 0))
  else .ok none

/-- The token count of a document. -/
def ftsDocLenImpl (s : Tables) (label property : String) (n : NodeId) : Option ℕ :=
  match s.getLabel label, s.getPropKey property with
  | some l, some p => s.ftsDocs.get (l, p, n)
  | _, _ => none

/-- The nodes with a term and its frequencies, in key order. -/
def ftsPostingsImpl (s : Tables) (label property term : String) : List (NodeId × ℕ) :=
  match s.getLabel label, s.getPropKey property with
  | some l, some p =>
    ((((s.ftsPostings.under l).under p).under term).image toLex).ascending.map ofLex
  | _, _ => []

end Tables

/-! ## Corpora -/

/-- The documents of one text index: their terms with the frequencies. -/
abbrev Corpus := Table NodeId (Table String ℕ)

namespace Corpus

/-- The frequency of a term in a document. -/
def freq (T : Corpus) (n : NodeId) (term : String) : Option ℕ := (T.get n).bind (·.get term)

/-- The documents that a term is in. -/
def holders (T : Corpus) (term : String) : Finset NodeId :=
  T.keys.filter fun n => (T.freq n term).isSome

def tokens (T : Corpus) : ℕ := ∑ n ∈ T.keys, ((T.get n).map tokenCount).getD 0

lemma mem_holders {T : Corpus} {term : String} {n : NodeId} :
    n ∈ T.holders term ↔ (T.freq n term).isSome := by
  rw [holders, Finset.mem_filter, and_iff_right_iff_imp]
  intro h
  obtain ⟨tf, htf⟩ := isSome_iff_exists.mp h
  obtain ⟨terms, hterms, -⟩ := bind_eq_some_iff.mp htf
  exact (T.mem_keys n).mpr (by rw [hterms]; rfl)

end Corpus

namespace Tables

variable [TextLib]

/-- The terms of the text that a node stores under a property, if it carries the label. -/
def documentOf (s : Tables) (label property : String) (lang : Language) (n : NodeId) :
    Option (Table String ℕ) :=
  (s.nodes.get n).bind fun r =>
    if (s.getLabel label).any (· ∈ r.labels) then (r.props.text property).bind (termsOf · lang)
    else none

/-- The documents of a text index. -/
def corpus (s : Tables) (label property : String) (lang : Language) : Corpus where
  get := s.documentOf label property lang
  keys := s.nodes.keys.filter fun n => (s.documentOf label property lang n).isSome
  mem_keys n := by
    rw [Finset.mem_filter, and_iff_right_iff_imp]
    intro h
    obtain ⟨terms, hterms⟩ := isSome_iff_exists.mp h
    obtain ⟨r, hr, -⟩ := bind_eq_some_iff.mp hterms
    exact (s.nodes.mem_keys n).mpr (by rw [hr]; rfl)

omit [TextLib] in
/-- What is read of a text index is what its corpus says. -/
structure Serves (s : Tables) (label property : String) (T : Corpus) : Prop where
  stats : s.ftsStatsImpl label property = .ok (some (T.keys.card, T.tokens))
  docLen : ∀ n, s.ftsDocLenImpl label property n = (T.get n).map tokenCount
  ascending : ∀ term, (s.ftsPostingsImpl label property term).Pairwise fun p q => p.1 < q.1
  postings : ∀ term n tf, (n, tf) ∈ s.ftsPostingsImpl label property term ↔ T.freq n term = some tf
  positive : ∀ term n tf, T.freq n term = some tf → 0 < tf

variable {label property : String} {s : Tables}

omit [TextLib] in
lemma mem_activeTextIndexesImpl {lang : Language} :
    (label, property, lang) ∈ s.activeTextIndexesImpl ↔
      ∃ l p b, s.getLabel label = some l ∧ s.getPropKey property = some p ∧
        s.metaDb.ftsMeta.get (l, p) = some b ∧ lang = .fromU8 b := by
  rw [activeTextIndexesImpl, mem_filterMap]
  constructor
  · rintro ⟨⟨l, p⟩, -, hnamed⟩
    unfold namedTextIndex at hnamed
    split at hnamed
    next hl hp hb =>
      obtain ⟨rfl, rfl, rfl⟩ : _ = label ∧ _ = property ∧ _ = lang := by simpa using hnamed
      exact ⟨l, p, _, Registry.nameOf_eq_some.mp hl, getPropKeyName_eq_some.mp hp, hb, rfl⟩
    next => exact nomatch hnamed
  · rintro ⟨l, p, b, hl, hp, hb, rfl⟩
    refine ⟨(l, p), ?_, ?_⟩
    · rw [(perm_insertionSort _ _).mem_iff, List.mem_map]
      refine ⟨toLex (l, p), Finset.mem_ascending.mpr (Finset.mem_image_of_mem _ ?_), rfl⟩
      exact (s.metaDb.ftsMeta.mem_keys _).mpr (by rw [hb]; rfl)
    · unfold namedTextIndex
      rw [show s.labelName l = some label from Registry.nameOf_eq_some.mpr hl,
        getPropKeyName_eq_some.mpr hp, hb]

omit [TextLib] in
lemma nodup_activeTextIndexesImpl (s : Tables) :
    (s.activeTextIndexesImpl.map fun index => (index.1, index.2.1)).Nodup := by
  have hkeys : (((s.metaDb.ftsMeta.keys.image toLex).ascending.map ofLex).insertionSort
      fun k k' => ftsMetaKey k ≤ ftsMetaKey k').Nodup :=
    (perm_insertionSort _ _).nodup_iff.mpr
      ((Finset.ascending_nodup _).map ofLex.injective)
  rw [activeTextIndexesImpl, map_filterMap]
  refine hkeys.filterMap fun k k' name hname hname' => ?_
  have hids : ∀ {k : LabelId × PropKeyId},
      name ∈ (s.namedTextIndex k).map (fun index => (index.1, index.2.1)) →
        s.getLabel name.1 = some k.1 ∧ s.getPropKey name.2 = some k.2 := by
    intro k hk
    obtain ⟨index, hindex, rfl⟩ := map_eq_some_iff.mp hk
    unfold namedTextIndex at hindex
    split at hindex
    next hl hp _ =>
      cases hindex
      exact ⟨Registry.nameOf_eq_some.mp hl, getPropKeyName_eq_some.mp hp⟩
    next => exact nomatch hindex
  obtain ⟨hl, hp⟩ := hids hname
  obtain ⟨hl', hp'⟩ := hids hname'
  exact Prod.ext (some.inj (hl.symm.trans hl')) (some.inj (hp.symm.trans hp'))

/-- The corpus of an active index is what the tables hold for it. -/
theorem corpus_get {l : LabelId} {p : PropKeyId} {b : UInt8} (hl : s.getLabel label = some l)
    (hp : s.getPropKey property = some p) (hb : s.metaDb.ftsMeta.get (l, p) = some b) (n : NodeId) :
    (s.corpus label property (.fromU8 b)).get n = s.documents s.entered l p n := by
  refine Option.ext fun terms => ?_
  rw [documents_entered_eq_some hb hp]
  change s.documentOf label property (.fromU8 b) n = some terms ↔ _
  simp only [documentOf, bind_eq_some_iff, hl, any_some, ite_none_right_eq_some,
    decide_eq_true_eq, Props.text_eq_some, StoresText, termsOf, some.injEq]
  constructor
  · rintro ⟨r, hr, hlabel, text, htext, hpos, rfl⟩
    exact ⟨text, ⟨r, hr, hlabel, htext⟩, hpos, rfl⟩
  · rintro ⟨text, ⟨r, hr, hlabel, htext⟩, hpos, rfl⟩
    exact ⟨r, hr, hlabel, text, htext, hpos, rfl⟩

/-- **An active index serves its corpus.** -/
theorem serves_of_active (h : FtsExact s s.entered) {lang : Language}
    (hactive : (label, property, lang) ∈ s.activeTextIndexesImpl) :
    s.Serves label property (s.corpus label property lang) := by
  obtain ⟨l, p, b, hl, hp, hb, rfl⟩ := mem_activeTextIndexesImpl.mp hactive
  have hget := corpus_get hl hp hb
  have hdocs : (s.corpus label property (.fromU8 b)).keys = s.docsOf l p := by
    ext n
    rw [Table.mem_keys, hget, mem_docsOf, h.holds.docs, isSome_map]
  have hhas : s.hasNodeTextIndex label property = true := by
    unfold hasNodeTextIndex
    rw [hl, hp]
    exact congrArg Option.isSome hb
  have hmem : ∀ term n tf, (n, tf) ∈ s.ftsPostingsImpl label property term ↔
      (l, p, term, n, tf) ∈ s.ftsPostings := by
    intro term n tf
    unfold ftsPostingsImpl
    rw [hl, hp]
    dsimp only
    rw [List.mem_map]
    constructor
    · rintro ⟨e, he, heq⟩
      obtain ⟨e', he', rfl⟩ := Finset.mem_image.mp (Finset.mem_ascending.mp he)
      obtain rfl : e' = (n, tf) := heq
      simpa using he'
    · intro hin
      refine ⟨toLex (n, tf), Finset.mem_ascending.mpr (Finset.mem_image_of_mem _ ?_), rfl⟩
      simpa using hin
  have hpostings : ∀ term n tf, (n, tf) ∈ s.ftsPostingsImpl label property term ↔
      (s.corpus label property (.fromU8 b)).freq n term = some tf := by
    intro term n tf
    rw [hmem, h.holds.postings, Corpus.freq, hget, bind_eq_some_iff]
  refine ⟨?_, fun n => ?_, fun term => ?_, hpostings, fun term n tf htf => ?_⟩
  · unfold ftsStatsImpl
    rw [if_pos hhas, hl, hp]
    dsimp only
    rw [h.holds.count, h.holds.total, docCount, docTokens, Corpus.tokens, hdocs]
    simp only [hget, h.holds.docs]
  · unfold ftsDocLenImpl
    rw [hl, hp, hget]
    exact h.holds.docs l p n
  · -- The postings ascend with their frequencies, and a document has one frequency.
    have hlex : (s.ftsPostingsImpl label property term).Pairwise fun p q => toLex p < toLex q := by
      unfold ftsPostingsImpl
      rw [hl, hp]
      exact pairwise_map.mpr ((Finset.ascending_pairwise_lt _).imp fun hlt => hlt)
    refine hlex.imp_of_mem fun {e e'} he he' hlt => ?_
    rcases Prod.Lex.lt_iff.mp hlt with hfst | ⟨hfst, hsnd⟩
    · exact hfst
    · have hone := (hpostings term e.1 e.2).mp he
      have hother := (hpostings term e'.1 e'.2).mp he'
      rw [show e'.1 = e.1 from hfst.symm, hone] at hother
      exact absurd hsnd (some.inj hother ▸ lt_irrefl _)
  · obtain ⟨terms, hterms, hfreq⟩ := bind_eq_some_iff.mp htf
    rw [hget, documents_entered_eq_some hb hp] at hterms
    obtain ⟨text, -, -, rfl⟩ := hterms
    exact tokenize_pos hfreq

end Tables

/-- The full-text tables of every reached state are exact. -/
theorem Graph.ftsExact_run [TextLib] (actions : List Action) :
    FtsExact (run actions .empty).storage.tables (run actions .empty).storage.tables.entered := by
  have hprops : ∀ m : Mutation, m.NodeProps fun _ => True := fun m => by cases m <;> trivial
  have hrun := fts_invariant.run (admissible_of_forall hprops (fun _ _ => trivial) actions .empty)
    ⟨Storage.sound_empty, ftsExact_empty, fun _ _ _ => trivial⟩
  exact hrun.2.entries

end IssunDB
