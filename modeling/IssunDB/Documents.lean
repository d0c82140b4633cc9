import IssunDB.Entries

/-!
# Documents of the full-text indexes

The document and posting tables of a text index hold exactly what tokenizing the indexed texts
gives, and the stored statistics are those of the documents. The removal of a text tokenizes it
again, so it undoes the insertion as long as text and language are the same.

* `FtsHolds s C` — the tables hold the documents `C`, a term table per label, property and node;
* `FtsHolds.add`, `FtsHolds.remove` — what indexing and removing one text does to them;
* `FtsHolds.walk` — what a walk over the texts of one node does.
-/

namespace IssunDB

open List Option

/-- The nodes that have a document under a label and a property. -/
def Tables.docsOf (s : Tables) (l : LabelId) (p : PropKeyId) : Finset NodeId :=
  (s.ftsDocs.keys.under l).under p

variable {p : PropKeyId} {l : LabelId} {n : NodeId}

lemma Tables.mem_docsOf {s : Tables} :
    n ∈ s.docsOf l p ↔ (s.ftsDocs.get (l, p, n)).isSome := by
  simp [docsOf]

/-- Documents, by label, property and node. -/
abbrev Documents := LabelId → PropKeyId → NodeId → Option (Table String ℕ)

/-- Replace the document of one node under one index. -/
def Documents.set (C : Documents) (l : LabelId) (p : PropKeyId) (n : NodeId)
    (doc : Option (Table String ℕ)) : Documents :=
  fun l' p' n' => if l' = l ∧ p' = p ∧ n' = n then doc else C l' p' n'

/-- The document and posting tables hold the documents `C`. -/
structure DocsHold (s : Tables) (C : Documents) : Prop where
  docs : ∀ l p n, s.ftsDocs.get (l, p, n) = (C l p n).map tokenCount
  postings : ∀ l p term n freq, (l, p, term, n, freq) ∈ s.ftsPostings ↔
    ∃ terms, C l p n = some terms ∧ terms.get term = some freq

/-- The number of documents under a label and a property. -/
def Tables.docCount (s : Tables) (l : LabelId) (p : PropKeyId) : ℕ := (s.docsOf l p).card

def Tables.docTokens (s : Tables) (l : LabelId) (p : PropKeyId) : ℕ :=
  ∑ n ∈ s.docsOf l p, (s.ftsDocs.get (l, p, n)).getD 0

/-- The full-text tables hold the documents `C`, with exact statistics. -/
structure FtsHolds (s : Tables) (C : Documents) : Prop extends DocsHold s C where
  count : ∀ l p, (s.metaDb.ftsN.get (l, p)).getD 0 = s.docCount l p
  total : ∀ l p, (s.metaDb.ftsSumDl.get (l, p)).getD 0 = s.docTokens l p

/-- The full-text tables and their statistics. -/
def Tables.ftsPart (s : Tables) :
    Finset (LabelId × PropKeyId × String × NodeId × ℕ) × Table (LabelId × PropKeyId × NodeId) ℕ ×
      Table (LabelId × PropKeyId) ℕ × Table (LabelId × PropKeyId) ℕ :=
  (s.ftsPostings, s.ftsDocs, s.metaDb.ftsN, s.metaDb.ftsSumDl)

lemma mem_postingsOf {l l' : LabelId} {p p' : PropKeyId} {n n' : NodeId} {term : String}
    {freq : ℕ} {terms : Table String ℕ} :
    (l', p', term, n', freq) ∈ Tables.postingsOf l p n terms ↔
      l' = l ∧ p' = p ∧ n' = n ∧ terms.get term = some freq := by
  simp only [Tables.postingsOf, List.mem_toFinset, List.mem_map, Prod.exists, Table.mem_toList,
    Prod.mk.injEq]
  constructor
  · rintro ⟨term', freq', hget, rfl, rfl, rfl, rfl, rfl⟩
    exact ⟨rfl, rfl, rfl, hget⟩
  · rintro ⟨rfl, rfl, rfl, hget⟩
    exact ⟨term, freq, hget, rfl, rfl, rfl, rfl, rfl⟩

/-! ## Replacing documents -/

/-- Replace the documents of several nodes under one index. -/
def Documents.fill (C : Documents) (l : LabelId) (p : PropKeyId) (ns : List NodeId)
    (docs : NodeId → Option (Table String ℕ)) : Documents :=
  fun l' p' n => if l' = l ∧ p' = p ∧ n ∈ ns then docs n else C l' p' n

lemma Documents.fill_cons {C : Documents} {ns : List NodeId}
    (docs : NodeId → Option (Table String ℕ)) :
    (C.set l p n (docs n)).fill l p ns docs = C.fill l p (n :: ns) docs := by
  funext l' p' n'
  simp only [Documents.fill, Documents.set, mem_cons]
  by_cases hlp : l' = l ∧ p' = p
  · obtain ⟨rfl, rfl⟩ := hlp
    by_cases hn : n' = n <;> simp [hn]
  · have h1 : ¬(l' = l ∧ p' = p ∧ n' ∈ ns) := fun h => hlp ⟨h.1, h.2.1⟩
    have h2 : ¬(l' = l ∧ p' = p ∧ n' = n) := fun h => hlp ⟨h.1, h.2.1⟩
    have h3 : ¬(l' = l ∧ p' = p ∧ (n' = n ∨ n' ∈ ns)) := fun h => hlp ⟨h.1, h.2.1⟩
    simp [h1, h2, h3]

lemma Documents.set_of_eq {C : Documents} {doc : Option (Table String ℕ)} (h : C l p n = doc) :
    C.set l p n doc = C := by
  funext l' p' n'
  simp only [Documents.set]
  split
  next heq =>
    obtain ⟨rfl, rfl, rfl⟩ := heq
    exact h.symm
  next => rfl

lemma DocsHold.stats_congr {s s' : Tables} {C C' : Documents} (h : DocsHold s C)
    (h' : DocsHold s' C') (hC : C' l p = C l p) :
    s'.docCount l p = s.docCount l p ∧ s'.docTokens l p = s.docTokens l p := by
  have hget : ∀ n, s'.ftsDocs.get (l, p, n) = s.ftsDocs.get (l, p, n) := by
    intro n
    rw [h.docs, h'.docs, hC]
  have hdocs : s'.docsOf l p = s.docsOf l p := by
    ext n
    rw [Tables.mem_docsOf, Tables.mem_docsOf, hget]
  refine ⟨by rw [Tables.docCount, Tables.docCount, hdocs], ?_⟩
  rw [Tables.docTokens, Tables.docTokens, hdocs]
  exact Finset.sum_congr rfl fun n _ => by rw [hget]

/-! ## One document -/

section Document

variable {s s' : Tables} {C : Documents} {l : LabelId} {p : PropKeyId} {n : NodeId}

lemma DocsHold.putDoc (h : DocsHold s C) (hnone : C l p n = none) (terms : Table String ℕ) :
    DocsHold (s.putDoc l p n terms) (C.set l p n (some terms)) := by
  constructor
  · intro l' p' n'
    simp only [Tables.putDoc, Table.get_put, Documents.set, Prod.mk.injEq]
    by_cases heq : l' = l ∧ p' = p ∧ n' = n
    · simp [heq]
    · simp only [heq, if_false]
      exact h.docs l' p' n'
  · intro l' p' term n' freq
    simp only [Tables.putDoc, Finset.mem_union, mem_postingsOf, h.postings, Documents.set]
    by_cases heq : l' = l ∧ p' = p ∧ n' = n
    · obtain ⟨rfl, rfl, rfl⟩ := heq
      simp [hnone]
    · simp only [heq, if_false]
      refine or_iff_left ?_
      rintro ⟨rfl, rfl, rfl, -⟩
      exact heq ⟨rfl, rfl, rfl⟩

/-- Writing a document leaves the other indexes alone. -/
theorem docsOf_putDoc_of_ne {l' : LabelId} {p' : PropKeyId} (hne : (l', p') ≠ (l, p))
    (terms : Table String ℕ) : (s.putDoc l p n terms).docsOf l' p' = s.docsOf l' p' := by
  ext m
  simp only [Tables.mem_docsOf, Tables.putDoc, Table.get_put, Prod.mk.injEq]
  have hne' : ¬(l' = l ∧ p' = p ∧ m = n) := by
    rintro ⟨rfl, rfl, -⟩
    exact hne rfl
  simp [hne']

lemma docsOf_putDoc_self (terms : Table String ℕ) :
    (s.putDoc l p n terms).docsOf l p = insert n (s.docsOf l p) := by
  ext m
  simp only [Tables.mem_docsOf, Tables.putDoc, Table.get_put, Prod.mk.injEq, Finset.mem_insert,
    true_and]
  by_cases hm : m = n <;> simp [hm]

lemma docCount_putDoc_self (hnone : s.ftsDocs.get (l, p, n) = none) (terms : Table String ℕ) :
    (s.putDoc l p n terms).docCount l p = s.docCount l p + 1 := by
  have hnotin : n ∉ s.docsOf l p := by simp [Tables.mem_docsOf, hnone]
  rw [Tables.docCount, docsOf_putDoc_self, Finset.card_insert_of_notMem hnotin, Tables.docCount]

lemma docTokens_putDoc_self (hnone : s.ftsDocs.get (l, p, n) = none) (terms : Table String ℕ) :
    (s.putDoc l p n terms).docTokens l p = s.docTokens l p + tokenCount terms := by
  have hnotin : n ∉ s.docsOf l p := by simp [Tables.mem_docsOf, hnone]
  rw [Tables.docTokens, docsOf_putDoc_self, Finset.sum_insert hnotin, Tables.docTokens, add_comm]
  congr 1
  · refine Finset.sum_congr rfl fun m hm => ?_
    have hne : m ≠ n := fun heq => hnotin (heq ▸ hm)
    simp [Tables.putDoc, hne]
  · simp [Tables.putDoc]

lemma docTokens_putDoc_of_ne {l' : LabelId} {p' : PropKeyId} (hne : (l', p') ≠ (l, p))
    (terms : Table String ℕ) : (s.putDoc l p n terms).docTokens l' p' = s.docTokens l' p' := by
  rw [Tables.docTokens, docsOf_putDoc_of_ne hne, Tables.docTokens]
  refine Finset.sum_congr rfl fun m _ => ?_
  have hne' : (l', p', m) ≠ (l, p, n) := fun heq => hne (by
    simp only [Prod.mk.injEq] at heq
    rw [heq.1, heq.2.1])
  simp only [Tables.putDoc, Table.get_put_of_ne _ _ hne']

lemma FtsHolds.congr (h : FtsHolds s C) (hpart : s'.ftsPart = s.ftsPart) : FtsHolds s' C := by
  simp only [Tables.ftsPart, Prod.mk.injEq] at hpart
  obtain ⟨h1, h2, h3, h4⟩ := hpart
  refine ⟨⟨fun l p n => ?_, fun l p term n freq => ?_⟩, fun l p => ?_, fun l p => ?_⟩
  · rw [h2, h.docs]
  · rw [h1, h.postings]
  · rw [h3, h.count, Tables.docCount, Tables.docCount, Tables.docsOf, Tables.docsOf, h2]
  · rw [h4, h.total, Tables.docTokens, Tables.docTokens, Tables.docsOf, Tables.docsOf, h2]

/-- A document is counted, and so are its tokens: taking it out of the statistics does not
saturate. -/
theorem FtsHolds.le_of_get (h : FtsHolds s C) {len : ℕ}
    (hget : s.ftsDocs.get (l, p, n) = some len) :
    1 ≤ (s.metaDb.ftsN.get (l, p)).getD 0 ∧ len ≤ (s.metaDb.ftsSumDl.get (l, p)).getD 0 := by
  have hmem : n ∈ s.docsOf l p := Tables.mem_docsOf.mpr (by simp [hget])
  constructor
  · rw [h.count]
    exact Finset.card_pos.mpr ⟨n, hmem⟩
  · rw [h.total, Tables.docTokens]
    have hle := Finset.single_le_sum (f := fun n => (s.ftsDocs.get (l, p, n)).getD 0)
      (fun _ _ => Nat.zero_le _) hmem
    simpa [hget] using hle

variable [TextLib]

def termsOf (text : String) (lang : Language) : Option (Table String ℕ) :=
  if 0 < tokenCount (tokenize text lang) then some (tokenize text lang) else none

theorem FtsHolds.add (h : FtsHolds s C) (hnone : C l p n = none) (text : String) :
    FtsHolds (s.addNodePropFtsEntry n l p text)
      (C.set l p n (termsOf text (s.getFtsIndexLanguage l p))) := by
  set terms := tokenize text (s.getFtsIndexLanguage l p) with hterms
  by_cases hpos : 0 < tokenCount terms
  · have hget : s.ftsDocs.get (l, p, n) = none := by rw [h.docs, hnone]; rfl
    have hdocs := h.toDocsHold.putDoc hnone terms
    simp only [Tables.addNodePropFtsEntry, termsOf, ← hterms, hpos, if_true]
    refine ⟨⟨hdocs.docs, hdocs.postings⟩, fun l' p' => ?_, fun l' p' => ?_⟩
    · by_cases heq : (l', p') = (l, p)
      · obtain ⟨rfl, rfl⟩ := Prod.mk.injEq .. ▸ heq
        refine Eq.trans ?_ (docCount_putDoc_self hget terms).symm
        simp [h.count]
      · refine Eq.trans ?_ (congrArg Finset.card (docsOf_putDoc_of_ne heq terms)).symm
        simp [Table.get_put_of_ne _ _ heq, h.count, Tables.docCount]
    · by_cases heq : (l', p') = (l, p)
      · obtain ⟨rfl, rfl⟩ := Prod.mk.injEq .. ▸ heq
        refine Eq.trans ?_ (docTokens_putDoc_self hget terms).symm
        simp [h.total]
      · refine Eq.trans ?_ (docTokens_putDoc_of_ne heq terms).symm
        simp [Table.get_put_of_ne _ _ heq, h.total]
  · simp only [Tables.addNodePropFtsEntry, termsOf, ← hterms, hpos, if_false]
    rw [Documents.set_of_eq hnone]
    exact h

theorem FtsHolds.remove (h : FtsHolds s C) (text : String)
    (hdoc : C l p n = termsOf text (s.getFtsIndexLanguage l p)) :
    FtsHolds (s.removeNodePropFtsEntry n l p text) (C.set l p n none) := by
  set terms := tokenize text (s.getFtsIndexLanguage l p) with hterms
  simp only [Tables.removeNodePropFtsEntry]
  rcases hget : s.ftsDocs.get (l, p, n) with _ | len
  · have hnone : C l p n = none := by
      have hdocs := h.docs l p n
      rw [hget] at hdocs
      exact map_eq_none_iff.mp hdocs.symm
    rw [Documents.set_of_eq hnone]
    exact h
  · have hsome : C l p n = some terms ∧ len = tokenCount terms := by
      have hdocs := h.docs l p n
      rw [hget, hdoc, termsOf, ← hterms] at hdocs
      rw [hdoc, termsOf, ← hterms]
      split at hdocs
      next hpos =>
        rw [if_pos hpos]
        exact ⟨rfl, some.inj hdocs⟩
      next => cases hdocs
    have hmem : n ∈ s.docsOf l p := Tables.mem_docsOf.mpr (by simp [hget])
    have hdocsOf : ∀ l' p', Finset.under (Finset.under (s.ftsDocs.erase (l, p, n)).keys l') p' =
        if (l', p') = (l, p) then (s.docsOf l p).erase n else s.docsOf l' p' := by
      intro l' p'
      ext m
      simp only [Finset.mem_under, Table.mem_keys, Table.get_erase]
      by_cases heq : (l', p') = (l, p)
      · obtain ⟨rfl, rfl⟩ := Prod.mk.injEq .. ▸ heq
        by_cases hm : m = n <;> simp [hm, Tables.mem_docsOf]
      · have hne : (l', p', m) ≠ (l, p, n) := fun h => heq (by
          simp only [Prod.mk.injEq] at h
          rw [h.1, h.2.1])
        simp [hne, heq, Tables.mem_docsOf]
    refine ⟨⟨fun l' p' n' => ?_, fun l' p' term n' freq => ?_⟩, fun l' p' => ?_, fun l' p' => ?_⟩
    · simp only [Table.get_erase, Documents.set, Prod.mk.injEq]
      split
      · rfl
      · exact h.docs l' p' n'
    · simp only [Finset.mem_sdiff, h.postings, mem_postingsOf, Documents.set, ← hterms]
      by_cases heq : l' = l ∧ p' = p ∧ n' = n
      · obtain ⟨rfl, rfl, rfl⟩ := heq
        simp [hsome.1]
      · simp only [heq, if_false]
        refine and_iff_left ?_
        rintro ⟨rfl, rfl, rfl, -⟩
        exact heq ⟨rfl, rfl, rfl⟩
    · rw [Tables.docCount, Tables.docsOf, hdocsOf]
      by_cases heq : (l', p') = (l, p)
      · obtain ⟨rfl, rfl⟩ := Prod.mk.injEq .. ▸ heq
        rw [if_pos rfl, Finset.card_erase_of_mem hmem]
        simp [h.count, Tables.docCount]
      · rw [if_neg heq]
        simp [Table.get_put_of_ne _ _ heq, h.count, Tables.docCount]
    · rw [Tables.docTokens, Tables.docsOf, hdocsOf]
      by_cases heq : (l', p') = (l, p)
      · obtain ⟨rfl, rfl⟩ := Prod.mk.injEq .. ▸ heq
        have hsum := Finset.sum_erase_add (f := fun n => (s.ftsDocs.get (l', p', n)).getD 0) _ hmem
        have hkeep : ∀ m ∈ (s.docsOf l' p').erase n,
            ((s.ftsDocs.erase (l', p', n)).get (l', p', m)).getD 0 =
              (s.ftsDocs.get (l', p', m)).getD 0 := by
          intro m hm
          rw [Table.get_erase_of_ne]
          simpa using Finset.ne_of_mem_erase hm
        rw [if_pos rfl, Finset.sum_congr rfl hkeep]
        simp only [hget, getD_some] at hsum
        simp only [Table.get_put_self, getD_some, h.total, Tables.docTokens]
        omega
      · rw [if_neg heq]
        simp only [Table.get_put_of_ne _ _ heq, h.total, Tables.docTokens]
        refine Finset.sum_congr rfl fun m _ => ?_
        have hne : (l', p', m) ≠ (l, p, n) := fun h => heq (by
          simp only [Prod.mk.injEq] at h
          rw [h.1, h.2.1])
        rw [Table.get_erase_of_ne _ hne]

end Document

/-! ## The texts of a node -/

section Texts

variable {s s' : Tables} {C : Documents} {l : LabelId} {n : NodeId}

def Props.text (props : Props) (name : String) : Option String :=
  match props.get name with
  | some (.string text) => some text
  | _ => none

/-- The text that a node's properties hold for a property key. -/
def Tables.textOf (s : Tables) (props : Props) (p : PropKeyId) : Option String :=
  (s.getPropKeyName p).bind props.text

lemma ftsTexts_eq (s : Tables) (l : LabelId) (props : Props) :
    s.ftsTexts l props =
      (s.activeTextIndexesForLabel l).filterMap fun p => (s.textOf props p).map (p, ·) := by
  refine filterMap_congr fun p _ => ?_
  simp only [Tables.textOf]
  rcases s.getPropKeyName p with _ | name
  · rfl
  · simp only [bind_some, Props.text]
    rcases props.get name with _ | v
    · rfl
    · cases v <;> rfl

lemma mem_activeTextIndexesForLabel {p : PropKeyId} :
    p ∈ s.activeTextIndexesForLabel l ↔ (s.metaDb.ftsMeta.get (l, p)).isSome := by
  simp [Tables.activeTextIndexesForLabel]

lemma nodup_activeTextIndexesForLabel : (s.activeTextIndexesForLabel l).Nodup :=
  (perm_insertionSort _ _).nodup_iff.mpr (Finset.ascending_nodup _)

/-- Replace the documents of one node under several indexes of a label. -/
def Documents.setAll (C : Documents) (l : LabelId) (ps : List PropKeyId) (n : NodeId)
    (docs : PropKeyId → Option (Table String ℕ)) : Documents :=
  fun l' p' n' => if l' = l ∧ n' = n ∧ p' ∈ ps then docs p' else C l' p' n'

lemma Documents.setAll_nil (docs : PropKeyId → Option (Table String ℕ)) :
    C.setAll l [] n docs = C := by
  funext l' p' n'
  simp [Documents.setAll]

lemma Documents.setAll_cons {p : PropKeyId} {ps : List PropKeyId}
    (docs : PropKeyId → Option (Table String ℕ)) :
    (C.set l p n (docs p)).setAll l ps n docs = C.setAll l (p :: ps) n docs := by
  funext l' p' n'
  simp only [Documents.setAll, Documents.set, mem_cons]
  by_cases hl : l' = l ∧ n' = n
  · obtain ⟨rfl, rfl⟩ := hl
    by_cases hp : p' = p <;> simp [hp]
  · have h1 : ¬(l' = l ∧ n' = n ∧ p' ∈ ps) := fun h => hl ⟨h.1, h.2.1⟩
    have h2 : ¬(l' = l ∧ p' = p ∧ n' = n) := fun h => hl ⟨h.1, h.2.2⟩
    have h3 : ¬(l' = l ∧ n' = n ∧ (p' = p ∨ p' ∈ ps)) := fun h => hl ⟨h.1, h.2.1⟩
    simp [h1, h2, h3]

/-- Walking the texts of a node with a step that turns each document from `before` into `after`,
and keeps the declared indexes. A property without a text has the same document before and
after. -/
theorem FtsHolds.walk (h : FtsHolds s C) {f : Tables → PropKeyId × String → Tables}
    {texts : PropKeyId → Option String} (before : PropKeyId → Option (Table String ℕ))
    {after : PropKeyId → Option (Table String ℕ)} {ps : List PropKeyId}
    (hmeta : ∀ s e, (f s e).metaDb.ftsMeta = s.metaDb.ftsMeta)
    (hstep : ∀ s' C p text, p ∈ ps → s'.metaDb.ftsMeta = s.metaDb.ftsMeta → FtsHolds s' C →
      C l p n = before p → texts p = some text →
      FtsHolds (f s' (p, text)) (C.set l p n (after p)))
    (hskip : ∀ p, texts p = none → after p = before p) (hnodup : ps.Nodup)
    (hbefore : ∀ p ∈ ps, C l p n = before p) :
    FtsHolds ((ps.filterMap fun p => (texts p).map (p, ·)).foldl f s) (C.setAll l ps n after) := by
  suffices hgen : ∀ s', s'.metaDb.ftsMeta = s.metaDb.ftsMeta → FtsHolds s' C →
      FtsHolds ((ps.filterMap fun p => (texts p).map (p, ·)).foldl f s')
      (C.setAll l ps n after) from
    hgen s rfl h
  clear h
  induction ps generalizing C with
  | nil =>
    intro s' _ h
    rw [Documents.setAll_nil]
    exact h
  | cons p ps ih =>
    intro s' hs' h
    obtain ⟨hp, hnodup'⟩ := nodup_cons.mp hnodup
    have hrest : ∀ p' ∈ ps, C.set l p n (after p) l p' n = before p' := by
      intro p' hp'
      have hne : p' ≠ p := fun heq => hp (heq ▸ hp')
      simp only [Documents.set, hne, false_and, and_false, if_false]
      exact hbefore p' (mem_cons_of_mem _ hp')
    have htail := fun s' C p' text (hmem : p' ∈ ps) => hstep s' C p' text (mem_cons_of_mem p hmem)
    rw [← Documents.setAll_cons]
    rcases htext : texts p with _ | text
    · have hset : C.set l p n (after p) = C :=
        Documents.set_of_eq ((hbefore p mem_cons_self).trans (hskip p htext).symm)
      rw [filterMap_cons_none (by simp [htext]), hset]
      exact ih htail hnodup' (hset ▸ hrest) s' hs' h
    · rw [filterMap_cons_some (b := (p, text)) (by simp [htext]), foldl_cons]
      exact ih htail hnodup' hrest _ ((hmeta _ _).trans hs')
        (hstep s' C p text mem_cons_self hs' h (hbefore p mem_cons_self) htext)

end Texts

end IssunDB
