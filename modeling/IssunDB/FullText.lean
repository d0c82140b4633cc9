import IssunDB.Documents

/-!
# Exactness of the full-text indexes

* `docOf` — the document that a node's properties give under an active index;
* `FtsExact` — the tables hold the documents of the entered nodes. It is maintained by every
  mutation (`ftsExact_maintained`) and by every schema change;
* `Graph.fts_exact` — the full-text tables after every run.
-/

namespace IssunDB

open List Option

section Exact

variable [TextLib]

/-- The document that a node's properties give under a label and a property: the terms of its
text, if the index is active and the text has terms. -/
def Tables.docOf (s : Tables) (l : LabelId) (p : PropKeyId) (props : Props) :
    Option (Table String ℕ) :=
  if (s.metaDb.ftsMeta.get (l, p)).isSome then
    (s.textOf props p).bind fun text => termsOf text (s.getFtsIndexLanguage l p)
  else none

def Tables.documents (s : Tables) (D : Entered) : Documents :=
  fun l p n => (D l n).bind (s.docOf l p)

/-- The full-text tables hold the documents of the entered nodes, an inactive index has no
statistics, and the property of an active one is registered. -/
structure FtsExact (s : Tables) (D : Entered) : Prop where
  holds : FtsHolds s (s.documents D)
  inactive : ∀ k, s.metaDb.ftsMeta.get k = none →
    s.metaDb.ftsN.get k = none ∧ s.metaDb.ftsSumDl.get k = none
  registered : ∀ l p, (s.metaDb.ftsMeta.get (l, p)).isSome → ∃ name, s.getPropKey name = some p

/-- The full-text tables and the declared text indexes stay, and property keys are only added. -/
structure Tables.FtsKept (s s' : Tables) : Prop where
  part : s'.ftsPart = s.ftsPart
  indexes : s'.metaDb.ftsMeta = s.metaDb.ftsMeta
  keys : s.metaDb.propKeys.registry.Extends s'.metaDb.propKeys.registry

namespace Tables.FtsKept

omit [TextLib]

lemma refl (s : Tables) : s.FtsKept s := ⟨rfl, rfl, .refl _⟩

lemma trans {s s' s'' : Tables} (h : s.FtsKept s') (h' : s'.FtsKept s'') : s.FtsKept s'' :=
  ⟨h'.part.trans h.part, h'.indexes.trans h.indexes, h.keys.trans h'.keys⟩

lemma of_eq {s s' : Tables} (hpart : s'.ftsPart = s.ftsPart)
    (hindexes : s'.metaDb.ftsMeta = s.metaDb.ftsMeta)
    (hkeys : s'.metaDb.propKeys = s.metaDb.propKeys) : s.FtsKept s' :=
  ⟨hpart, hindexes, hkeys ▸ .refl _⟩

lemma foldl {α : Type} {f : Tables → α → Tables} (hf : ∀ (s : Tables) a, s.FtsKept (f s a))
    (l : List α) (s : Tables) : s.FtsKept (l.foldl f s) := by
  induction l generalizing s with
  | nil => exact .refl s
  | cons a l ih => exact (hf s a).trans (ih _)

lemma textOf {s s' : Tables} (h : s.FtsKept s') {p : PropKeyId}
    (hp : ∃ name, s.getPropKey name = some p) (props : Props) :
    s'.textOf props p = s.textOf props p := by
  obtain ⟨name, hname⟩ := hp
  have h1 : s.getPropKeyName p = some name := getPropKeyName_eq_some.mpr hname
  have h2 : s'.getPropKeyName p = some name := getPropKeyName_eq_some.mpr (h.keys name p hname)
  simp only [Tables.textOf, h1, h2]

end Tables.FtsKept

variable {D : Entered} {l : LabelId} {props : Props} {n : NodeId} {s : Tables} {p : PropKeyId}
  {text : String} {lang : Language}

lemma FtsExact.docOf_eq {s s' : Tables} (h : FtsExact s D) (hkept : s.FtsKept s') :
    s'.docOf = s.docOf := by
  funext l p props
  have hlang : s'.getFtsIndexLanguage l p = s.getFtsIndexLanguage l p := by
    simp only [Tables.getFtsIndexLanguage, hkept.indexes]
  simp only [Tables.docOf, hkept.indexes, hlang]
  split
  next hsome => rw [hkept.textOf (h.registered l p hsome)]
  next => rfl

lemma FtsExact.kept {s s' : Tables} (h : FtsExact s D) (hkept : s.FtsKept s') :
    FtsExact s' D := by
  have hpart := hkept.part
  simp only [Tables.ftsPart, Prod.mk.injEq] at hpart
  refine ⟨?_, fun k hk => ?_, fun l p hsome => ?_⟩
  · have hdocs : s'.documents D = s.documents D := by
      unfold Tables.documents
      rw [h.docOf_eq hkept]
    rw [hdocs]
    exact h.holds.congr hkept.part
  · rw [hkept.indexes] at hk
    rw [hpart.2.2.1, hpart.2.2.2]
    exact h.inactive k hk
  · rw [hkept.indexes] at hsome
    obtain ⟨name, hname⟩ := h.registered l p hsome
    exact ⟨name, hkept.keys name p hname⟩

/-! ## Maintenance -/

omit [TextLib] in
/-- A step that leaves the full-text tables and the `meta` table alone keeps them. -/
theorem ftsKept_of_keeps {α : Type} {m : Exec Error Tables α} {s s' : Tables} {r : Except Error α}
    (h : m s = (r, s')) (hpart : Exec.Keeps Tables.ftsPart m)
    (hmeta : Exec.Keeps Tables.metaDb m) : s.FtsKept s' := by
  have hpart' := hpart s
  have hmeta' := hmeta s
  rw [h] at hpart' hmeta'
  exact .of_eq hpart' (congrArg MetaDb.ftsMeta hmeta') (congrArg MetaDb.propKeys hmeta')

omit [TextLib] in
lemma ftsKept_indexDeclared {labelName : String} {s s' : Tables}
    {active : List (PropKeyId × IndexRole)} {u : PUnit}
    (h : active.forM (Tables.indexDeclaredProp l labelName n props) s = (.ok u, s')) :
    s.FtsKept s' :=
  ftsKept_of_keeps h (Exec.Keeps.forM (Tables.keeps_indexDeclared fun _ _ _ => rfl))
    (Exec.Keeps.forM (Tables.keeps_indexDeclared fun _ _ _ => rfl))

omit [TextLib] in
lemma ftsKept_autoIndexField (l : LabelId) (n : NodeId) (declared : List String) (s : Tables)
    (field : String × Json) : s.FtsKept (s.autoIndexField l n declared field) := by
  simp only [Tables.autoIndexField]
  split
  · exact .refl s
  · split
    · exact .refl s
    · exact ⟨rfl, rfl, s.metaDb.propKeys.extends_getOrCreate field.1⟩

omit [TextLib] in
lemma ftsKept_autoIndexFields (l : LabelId) (n : NodeId) (props : Props) (declared : List String)
    (s : Tables) : s.FtsKept (s.autoIndexFields l n props declared) := by
  simp only [Tables.autoIndexFields]
  split
  · exact .refl s
  · exact Tables.FtsKept.foldl (ftsKept_autoIndexField l n declared) _ _

omit [TextLib] in
lemma ftsKept_unindexDeclaredProp (l : LabelId) (n : NodeId) (props : Props) (s : Tables)
    (active : PropKeyId × IndexRole) : s.FtsKept (s.unindexDeclaredProp l n props active) := by
  simp only [Tables.unindexDeclaredProp]
  split
  · exact .refl s
  · split
    · exact .of_eq rfl rfl rfl
    · exact .refl s

omit [TextLib] in
lemma ftsKept_unindexField (l : LabelId) (n : NodeId) (s : Tables) (field : String × Json) :
    s.FtsKept (s.unindexField l n field) := by
  simp only [Tables.unindexField]
  split
  · exact .refl s
  · split
    · exact .of_eq rfl rfl rfl
    · exact .refl s

/-- What a walk over texts of one label keeps: the declared indexes, the property keys and the
statistics of every other index. -/
theorem stats_addNodePropFtsEntry {k : LabelId × PropKeyId} (hk : k ≠ (l, p)) :
    (s.addNodePropFtsEntry n l p text).metaDb.ftsN.get k = s.metaDb.ftsN.get k ∧
      (s.addNodePropFtsEntry n l p text).metaDb.ftsSumDl.get k = s.metaDb.ftsSumDl.get k := by
  simp only [Tables.addNodePropFtsEntry]
  split
  · exact ⟨Table.get_put_of_ne _ _ hk, Table.get_put_of_ne _ _ hk⟩
  · exact ⟨rfl, rfl⟩

lemma stats_removeNodePropFtsEntry {k : LabelId × PropKeyId} (hk : k ≠ (l, p)) :
    (s.removeNodePropFtsEntry n l p text).metaDb.ftsN.get k = s.metaDb.ftsN.get k ∧
      (s.removeNodePropFtsEntry n l p text).metaDb.ftsSumDl.get k = s.metaDb.ftsSumDl.get k := by
  simp only [Tables.removeNodePropFtsEntry]
  split
  · exact ⟨rfl, rfl⟩
  · exact ⟨Table.get_put_of_ne _ _ hk, Table.get_put_of_ne _ _ hk⟩

lemma meta_addNodePropFtsEntry (n : NodeId) (l : LabelId) (p : PropKeyId) (text : String)
    (s : Tables) :
    (s.addNodePropFtsEntry n l p text).metaDb.ftsMeta = s.metaDb.ftsMeta ∧
      (s.addNodePropFtsEntry n l p text).metaDb.propKeys = s.metaDb.propKeys := by
  simp only [Tables.addNodePropFtsEntry]
  split <;> exact ⟨rfl, rfl⟩

lemma meta_removeNodePropFtsEntry (n : NodeId) (l : LabelId) (p : PropKeyId) (text : String)
    (s : Tables) :
    (s.removeNodePropFtsEntry n l p text).metaDb.ftsMeta = s.metaDb.ftsMeta ∧
      (s.removeNodePropFtsEntry n l p text).metaDb.propKeys = s.metaDb.propKeys := by
  simp only [Tables.removeNodePropFtsEntry]
  split <;> exact ⟨rfl, rfl⟩

/-- A walk over the active texts of a node under one label: the exactness of everything but the
documents carries over. -/
theorem FtsExact.of_walk {D D' : Entered} {f : Tables → PropKeyId × String → Tables}
    (h : FtsExact s D)
    (hmeta : ∀ s e, (f s e).metaDb.ftsMeta = s.metaDb.ftsMeta ∧
        (f s e).metaDb.propKeys = s.metaDb.propKeys)
    (hstats : ∀ s e k, k ≠ (l, e.1) → (f s e).metaDb.ftsN.get k = s.metaDb.ftsN.get k ∧
        (f s e).metaDb.ftsSumDl.get k = s.metaDb.ftsSumDl.get k)
    (hholds : FtsHolds ((s.ftsTexts l props).foldl f s) (s.documents D')) :
    FtsExact ((s.ftsTexts l props).foldl f s) D' := by
  set s' := (s.ftsTexts l props).foldl f s
  have hmeta' : s'.metaDb.ftsMeta = s.metaDb.ftsMeta :=
    Exec.Keeps.foldl (f := fun s : Tables => s.metaDb.ftsMeta) (fun s e => (hmeta s e).1) _ _
  have hkeys' : s'.metaDb.propKeys = s.metaDb.propKeys :=
    Exec.Keeps.foldl (f := fun s : Tables => s.metaDb.propKeys) (fun s e => (hmeta s e).2) _ _
  have hdocOf : s'.docOf = s.docOf := by
    funext l p props
    simp only [Tables.docOf, Tables.textOf, Tables.getPropKeyName, Tables.getFtsIndexLanguage,
      hmeta', hkeys']
  refine ⟨?_, fun k hk => ?_, fun l' p hsome => ?_⟩
  · have hdocs : s'.documents D' = s.documents D' := by
      unfold Tables.documents
      rw [hdocOf]
    rw [hdocs]
    exact hholds
  · rw [hmeta'] at hk
    have hne : ∀ e ∈ s.ftsTexts l props, k ≠ (l, e.1) := by
      rintro ⟨p, text⟩ hmem rfl
      rw [ftsTexts_eq] at hmem
      obtain ⟨p', hp', heq⟩ := mem_filterMap.mp hmem
      obtain ⟨text', -, heq'⟩ := map_eq_some_iff.mp heq
      obtain ⟨rfl, -⟩ := Prod.mk.injEq .. ▸ heq'
      rw [mem_activeTextIndexesForLabel, hk] at hp'
      cases hp'
    have hN : s'.metaDb.ftsN.get k = s.metaDb.ftsN.get k :=
      Exec.Keeps.foldl_of_mem (f := fun s : Tables => s.metaDb.ftsN.get k)
        (fun s e he => (hstats s e k (hne e he)).1) _
    have hS : s'.metaDb.ftsSumDl.get k = s.metaDb.ftsSumDl.get k :=
      Exec.Keeps.foldl_of_mem (f := fun s : Tables => s.metaDb.ftsSumDl.get k)
        (fun s e he => (hstats s e k (hne e he)).2) _
    rw [hN, hS]
    exact h.inactive k hk
  · rw [hmeta'] at hsome
    obtain ⟨name, hname⟩ := h.registered l' p hsome
    exact ⟨name, by rw [Tables.getPropKey, hkeys']; exact hname⟩

/-- Replacing the entry of a node under a label replaces its documents under the active indexes. -/
theorem documents_set (s : Tables) (D : Entered) (l : LabelId) (n : NodeId) (x : Option Props) :
    (s.documents D).setAll l (s.activeTextIndexesForLabel l) n (fun p => x.bind (s.docOf l p)) =
      s.documents (D.set n [l] x) := by
  funext l' p n'
  simp only [Documents.setAll, Tables.documents, Entered.set, mem_singleton,
    mem_activeTextIndexesForLabel]
  by_cases heq : l' = l ∧ n' = n
  · obtain ⟨rfl, rfl⟩ := heq
    by_cases hp : (s.metaDb.ftsMeta.get (l', p)).isSome
    · simp [hp]
    · have hnone : ∀ props, s.docOf l' p props = none := fun props => by simp [Tables.docOf, hp]
      simp only [hp, and_false, if_false, true_and, if_true, Bool.false_eq_true]
      have hbind : ∀ y : Option Props, y.bind (s.docOf l' p) = none := fun y => by
        cases y <;> simp [hnone]
      rw [hbind, hbind]
  · have h1 : ¬(l' = l ∧ n' = n ∧ (s.metaDb.ftsMeta.get (l, p)).isSome) :=
      fun h => heq ⟨h.1, h.2.1⟩
    have h2 : ¬(n' = n ∧ l' = l) := fun h => heq ⟨h.2, h.1⟩
    simp only [h1, h2, if_false]

lemma docOf_of_text {s s' : Tables} (hmeta : s'.metaDb.ftsMeta = s.metaDb.ftsMeta)
    (hp : p ∈ s.activeTextIndexesForLabel l) (htext : s.textOf props p = some text) :
    s.docOf l p props = termsOf text (s'.getFtsIndexLanguage l p) := by
  rw [mem_activeTextIndexesForLabel] at hp
  simp only [Tables.docOf, hp, if_true, htext, bind_some, Tables.getFtsIndexLanguage, hmeta]

lemma docOf_of_text_none (htext : s.textOf props p = none) : s.docOf l p props = none := by
  simp [Tables.docOf, htext]

lemma FtsExact.indexNodeFts (h : FtsExact s D) (hnone : D l n = none) (props : Props) :
    FtsExact (s.indexNodeFts n l props) (D.set n [l] (some props)) := by
  refine h.of_walk (fun s e => meta_addNodePropFtsEntry n l e.1 e.2 s)
    (fun s e k hk => stats_addNodePropFtsEntry hk) ?_
  rw [ftsTexts_eq, ← documents_set]
  refine h.holds.walk (fun _ => none)
    (fun s e => (meta_addNodePropFtsEntry n l e.1 e.2 s).1) ?_
    (fun p htext => docOf_of_text_none htext) nodup_activeTextIndexesForLabel
    (fun p _ => by simp [Tables.documents, hnone])
  intro s' C p text hp hmeta hC hbefore htext
  rw [bind_some, docOf_of_text hmeta hp htext]
  exact hC.add hbefore text

/-- Removing the texts of a node under some of the active indexes. -/
theorem FtsHolds.deleteWalk {ps : List PropKeyId} (h : FtsHolds s (s.documents D))
    (hsome : D l n = some props) (hps : ∀ p ∈ ps, p ∈ s.activeTextIndexesForLabel l)
    (hnodup : ps.Nodup) :
    FtsHolds ((ps.filterMap fun p => (s.textOf props p).map (p, ·)).foldl
        (fun s e => s.removeNodePropFtsEntry n l e.1 e.2) s)
      ((s.documents D).setAll l ps n fun _ => none) := by
  refine h.walk (fun p => s.docOf l p props)
    (fun s e => (meta_removeNodePropFtsEntry n l e.1 e.2 s).1) ?_
    (fun p htext => (docOf_of_text_none htext).symm) hnodup
    (fun p _ => by simp [Tables.documents, hsome])
  intro s' C p text hp hmeta hC hbefore htext
  rw [docOf_of_text hmeta (hps p hp) htext] at hbefore
  exact hC.remove text hbefore

lemma FtsExact.deleteNodeFts (h : FtsExact s D) (hsome : D l n = some props) :
    FtsExact (s.deleteNodeFts n l props) (D.set n [l] none) := by
  refine h.of_walk (fun s e => meta_removeNodePropFtsEntry n l e.1 e.2 s)
    (fun s e k hk => stats_removeNodePropFtsEntry hk) ?_
  rw [ftsTexts_eq, ← documents_set]
  exact h.holds.deleteWalk hsome (fun _ hp => hp) nodup_activeTextIndexesForLabel

/-! ## Declaring and dropping text indexes -/

lemma backfillText_spec {property : String} {nodes : Table NodeId NodeRecord} {ids : List NodeId}
    {s s' : Tables} {C : Documents} {acc acc' : ℕ × ℕ} (hs : s.nodes = nodes) (h : DocsHold s C)
    (hnodup : ids.Nodup) (hnone : ∀ n ∈ ids, C l p n = none)
    (hacc : acc = (s.docCount l p, s.docTokens l p))
    (hrun : Tables.backfillText l p property lang ids acc s = (.ok acc', s')) :
    DocsHold s' (C.fill l p ids fun n => (nodes.get n).bind fun r =>
        (r.props.text property).bind (termsOf · lang)) ∧
      acc' = (s'.docCount l p, s'.docTokens l p) := by
  induction ids generalizing s C acc with
  | nil =>
    obtain ⟨hacc', rfl⟩ := Prod.mk.injEq .. ▸ hrun
    obtain rfl := Except.ok.inj hacc'
    have hfill : (C.fill l p [] fun n => (nodes.get n).bind fun r =>
        (r.props.text property).bind (termsOf · lang)) = C := by
      funext l' p' n
      simp [Documents.fill]
    rw [hfill]
    exact ⟨h, hacc⟩
  | cons n ids ih =>
    obtain ⟨hn, hnodup'⟩ := nodup_cons.mp hnodup
    obtain ⟨count, total⟩ := acc
    obtain ⟨hcount, htotal⟩ := Prod.mk.injEq .. ▸ hacc
    have hself : C l p n = none := hnone n mem_cons_self
    have hrest : ∀ doc, ∀ m ∈ ids, C.set l p n doc l p m = none := by
      intro doc m hm
      have hne : m ≠ n := fun heq => hn (heq ▸ hm)
      simp only [Documents.set, hne, and_false, if_false]
      exact hnone m (mem_cons_of_mem _ hm)
    rw [Tables.backfillText, Exec.get_bind, hs] at hrun
    rw [← Documents.fill_cons]
    rcases hget : nodes.get n with _ | record
    · rw [hget] at hrun
      cases congrArg Prod.fst hrun
    simp only [hget] at hrun
    simp only [bind_some]
    -- a node without a text, or with one that has no tokens, is skipped
    have hskip : (record.props.text property).bind (termsOf · lang) = none →
        Tables.backfillText l p property lang ids (count, total) s = (.ok acc', s') →
        DocsHold s' ((C.set l p n ((record.props.text property).bind (termsOf · lang))).fill l p ids
          fun n => (nodes.get n).bind fun r => (r.props.text property).bind (termsOf · lang)) ∧
        acc' = (s'.docCount l p, s'.docTokens l p) := by
      intro hdoc hrun
      rw [hdoc]
      refine ih hs ?_ hnodup' (hrest none) hacc hrun
      rw [Documents.set_of_eq hself]
      exact h
    rcases htext : record.props.get property with _ | v
    · rw [htext] at hrun
      exact hskip (by simp [Props.text, htext]) hrun
    rw [htext] at hrun
    cases v with
    | string text =>
      have hdoc : (record.props.text property).bind (termsOf · lang) = termsOf text lang := by
        simp [Props.text, htext]
      dsimp only at hrun
      split at hrun
      next hpos =>
        have hterms : termsOf text lang = some (tokenize text lang) := by simp [termsOf, hpos]
        have hfresh : s.ftsDocs.get (l, p, n) = none := by
          rw [h.docs, hself]
          rfl
        rw [hdoc, hterms]
        rw [Exec.modify_bind] at hrun
        refine ih (s := s.putDoc l p n (tokenize text lang)) hs (h.putDoc hself _) hnodup'
          (hrest _) ?_
          hrun
        rw [docCount_putDoc_self hfresh, docTokens_putDoc_self hfresh, hcount, htotal]
      next hpos => exact hskip (by rw [hdoc]; simp [termsOf, hpos]) hrun
    | _ => exact hskip (by simp [Props.text, htext]) hrun

omit [TextLib] in
lemma ftsKept_register {label property : String} {s s₁ : Tables}
    (h : s.register label property = (l, p, s₁)) : s.FtsKept s₁ := by
  obtain ⟨-, -, hs₁, -, hkeys⟩ := Tables.register_spec h
  exact ⟨by rw [hs₁]; rfl, by rw [hs₁], hkeys⟩

/-- The documents once an index on a label and a property is declared, whose nodes are `ids`. -/
theorem documents_declare (s' : Tables) {property : String} {ids : List NodeId}
    (hname : s.getPropKey property = some p) (hids : ∀ n, n ∈ ids ↔ (D l n).isSome)
    (hmeta : s'.metaDb.ftsMeta = s.metaDb.ftsMeta.put (l, p) lang.toU8)
    (hkeys : s'.metaDb.propKeys = s.metaDb.propKeys) :
    s'.documents D = (s.documents D).fill l p ids fun n => (D l n).bind fun props =>
      (props.text property).bind (termsOf · lang) := by
  funext l' p' n
  simp only [Documents.fill, hids]
  by_cases heq : (l', p') = (l, p)
  · obtain ⟨rfl, rfl⟩ := Prod.mk.injEq .. ▸ heq
    have hkey : s'.getPropKeyName p' = some property := by
      rw [Tables.getPropKeyName_eq_some, Tables.getPropKey, hkeys]
      exact hname
    have hdoc : ∀ props, s'.docOf l' p' props = (props.text property).bind (termsOf · lang) := by
      intro props
      simp [Tables.docOf, Tables.textOf, Tables.getFtsIndexLanguage, hmeta, hkey]
    rcases hD : D l' n with _ | props
    · simp [Tables.documents, hD]
    · simp [Tables.documents, hD, hdoc]
  · have hdoc : s'.docOf l' p' = s.docOf l' p' := by
      funext props
      simp only [Tables.docOf, Tables.textOf, Tables.getPropKeyName, Tables.getFtsIndexLanguage,
        hmeta, hkeys, Table.get_put_of_ne _ _ heq]
    have hne : ¬(l' = l ∧ p' = p ∧ (D l n).isSome) := fun h => heq (by rw [h.1, h.2.1])
    simp only [hne, if_false, Tables.documents, hdoc]

lemma FtsExact.createNodeTextIndex {s s' : Tables} {label property : String} (hlisted : s.Listed)
    (h : FtsExact s s.entered)
    (hcreate : Tables.createNodeTextIndex label property lang s = (.ok (), s')) :
    FtsExact s' s.entered := by
  obtain ⟨l, p, s₁, hreg, hcase⟩ := Tables.createNodeTextIndex_ok hcreate
  obtain ⟨hlabel, hname, hs₁, -, -⟩ := Tables.register_spec hreg
  have hentered : s₁.entered = s.entered := Tables.entered_congr (by rw [hs₁])
  have hlisted₁ : s₁.Listed := hlisted.congr (by rw [hs₁]) (by rw [hs₁])
  have h₁ : FtsExact s₁ s.entered := h.kept (ftsKept_register hreg)
  rw [← hentered] at h₁ ⊢
  rcases hcase with ⟨-, rfl⟩ | ⟨hinactive, count, total, s₂, hfill, rfl⟩
  · exact h₁
  clear hs₁ hreg
  have hempty : ∀ n, s₁.documents s₁.entered l p n = none := by
    intro n
    have hdoc : ∀ props, s₁.docOf l p props = none := fun props => by
      simp [Tables.docOf, hinactive]
    rcases hent : s₁.entered l n with _ | props <;> simp [Tables.documents, hent, hdoc]
  have hacc : ((0, 0) : ℕ × ℕ) = (s₁.docCount l p, s₁.docTokens l p) := by
    have hdocs : s₁.docsOf l p = ∅ := by
      ext n
      simp [Tables.mem_docsOf, h₁.holds.docs, hempty n]
    simp [Tables.docCount, Tables.docTokens, hdocs]
  obtain ⟨hdocs, hstats⟩ := backfillText_spec (s := s₁) (rfl : s₁.nodes = s₁.nodes)
    h₁.holds.toDocsHold (s₁.nodup_nodesByLabel label) (fun n _ => hempty n) hacc hfill
  obtain ⟨rfl, rfl⟩ := Prod.mk.injEq .. ▸ hstats
  have hmeta : s₂.metaDb = s₁.metaDb := by
    have hkeep := Tables.keeps_backfillText (f := Tables.metaDb) (l := l) (p := p)
      (fun _ _ _ => rfl) property lang (s₁.nodesByLabel label) (0, 0) s₁
    rwa [hfill] at hkeep
  -- the documents written are those of the new index, the others stay
  have hids : ∀ n, n ∈ s₁.nodesByLabel label ↔ (s₁.entered l n).isSome :=
    fun n => hlisted₁.mem_nodesByLabel hlabel
  have hwritten : (s₁.documents s₁.entered).fill l p (s₁.nodesByLabel label) (fun n =>
        (s₁.nodes.get n).bind fun r => (r.props.text property).bind (termsOf · lang)) =
      (s₁.documents s₁.entered).fill l p (s₁.nodesByLabel label) fun n =>
        (s₁.entered l n).bind fun props => (props.text property).bind (termsOf · lang) := by
    funext l' p' n
    simp only [Documents.fill]
    split
    next hcond =>
      obtain ⟨props, hprops⟩ := isSome_iff_exists.mp ((hids n).mp hcond.2.2)
      obtain ⟨r, hget, -, rfl⟩ := Tables.entered_eq_some.mp hprops
      simp [hget, hprops]
    next => rfl
  have hother : ∀ l' p', (l', p') ≠ (l, p) →
      s₂.docCount l' p' = s₁.docCount l' p' ∧ s₂.docTokens l' p' = s₁.docTokens l' p' := by
    intro l' p' hne
    refine h₁.holds.toDocsHold.stats_congr hdocs ?_
    funext n
    simp only [Documents.fill]
    rw [if_neg fun hcond => hne (by rw [hcond.1, hcond.2.1])]
  rw [hwritten, ← documents_declare { s₂ with metaDb := { s₂.metaDb with
    ftsMeta := s₂.metaDb.ftsMeta.put (l, p) lang.toU8
    ftsN := s₂.metaDb.ftsN.put (l, p) (s₂.docCount l p)
    ftsSumDl := s₂.metaDb.ftsSumDl.put (l, p) (s₂.docTokens l p) } } hname hids (by rw [hmeta])
    (by rw [hmeta])] at hdocs
  refine ⟨⟨⟨hdocs.docs, hdocs.postings⟩, fun l' p' => ?_, fun l' p' => ?_⟩, fun k hk => ?_,
    fun l' p' hsome => ?_⟩
  · by_cases heq : (l', p') = (l, p)
    · obtain ⟨rfl, rfl⟩ := Prod.mk.injEq .. ▸ heq
      simp [Tables.docCount, Tables.docsOf]
    · simp only [Table.get_put_of_ne _ _ heq, hmeta]
      exact (h₁.holds.count l' p').trans (hother l' p' heq).1.symm
  · by_cases heq : (l', p') = (l, p)
    · obtain ⟨rfl, rfl⟩ := Prod.mk.injEq .. ▸ heq
      simp [Tables.docTokens, Tables.docsOf]
    · simp only [Table.get_put_of_ne _ _ heq, hmeta]
      exact (h₁.holds.total l' p').trans (hother l' p' heq).2.symm
  · have hne : k ≠ (l, p) := by
      rintro rfl
      simp at hk
    simp only [Table.get_put_of_ne _ _ hne, hmeta] at hk ⊢
    exact h₁.inactive k hk
  · by_cases heq : (l', p') = (l, p)
    · obtain ⟨rfl, rfl⟩ := Prod.mk.injEq .. ▸ heq
      exact ⟨property, by simpa [Tables.getPropKey, hmeta] using hname⟩
    · simp only [Table.get_put_of_ne _ _ heq, hmeta] at hsome
      obtain ⟨name, hget⟩ := h₁.registered l' p' hsome
      exact ⟨name, by simpa [Tables.getPropKey, hmeta] using hget⟩

lemma FtsExact.dropNodeTextIndex (h : FtsExact s D) (label property : String) :
    FtsExact (s.dropNodeTextIndex label property) D := by
  rcases hreg : s.register label property with ⟨l, p, s₁⟩
  have h₁ : FtsExact s₁ D := h.kept (ftsKept_register hreg)
  rw [Tables.dropNodeTextIndex_eq hreg]
  split
  swap
  · exact h₁
  set s' : Tables := { s₁ with
    ftsPostings := s₁.ftsPostings.filter fun e => ¬(e.1 = l ∧ e.2.1 = p)
    ftsDocs := s₁.ftsDocs.eraseIf fun k => k.1 = l ∧ k.2.1 = p
    metaDb := { s₁.metaDb with
      ftsMeta := s₁.metaDb.ftsMeta.erase (l, p)
      ftsN := s₁.metaDb.ftsN.erase (l, p)
      ftsSumDl := s₁.metaDb.ftsSumDl.erase (l, p) } }
  have hdocs : ∀ l' p' n, s'.documents D l' p' n =
      if l' = l ∧ p' = p then none else s₁.documents D l' p' n := by
    intro l' p' n
    have hdoc : ∀ props, s'.docOf l' p' props =
        if l' = l ∧ p' = p then none else s₁.docOf l' p' props := by
      intro props
      by_cases heq : l' = l ∧ p' = p
      · simp [Tables.docOf, s', heq]
      · have hne : (l', p') ≠ (l, p) := fun h => heq (Prod.mk.injEq .. ▸ h)
        simp only [Tables.docOf, s', Tables.getFtsIndexLanguage, Table.get_erase_of_ne _ hne, heq,
          if_false]
        rfl
    rcases hD : D l' n with _ | props
    · simp [Tables.documents, hD]
    · simp only [Tables.documents, hD, bind_some, hdoc]
  have hhold : DocsHold s' (s'.documents D) := by
    constructor
    · intro l' p' n
      simp only [s', Table.get_eraseIf]
      rw [hdocs]
      split
      · rfl
      · exact h₁.holds.docs l' p' n
    · intro l' p' term n freq
      simp only [s', Finset.mem_filter]
      rw [hdocs]
      by_cases heq : l' = l ∧ p' = p
      · simp [heq]
      · simp only [heq, not_false_eq_true, and_true, if_false]
        exact h₁.holds.postings l' p' term n freq
  have hstats : ∀ l' p', (l', p') ≠ (l, p) →
      s'.docCount l' p' = s₁.docCount l' p' ∧ s'.docTokens l' p' = s₁.docTokens l' p' := by
    intro l' p' hne
    refine h₁.holds.toDocsHold.stats_congr hhold ?_
    funext n
    rw [hdocs, if_neg fun heq => hne (by rw [heq.1, heq.2])]
  have hself : s'.docsOf l p = ∅ := by
    ext n
    simp [Tables.mem_docsOf, s', Table.get_eraseIf]
  refine ⟨⟨hhold, fun l' p' => ?_, fun l' p' => ?_⟩, fun k hk => ?_, fun l' p' hsome => ?_⟩
  · by_cases heq : (l', p') = (l, p)
    · obtain ⟨rfl, rfl⟩ := Prod.mk.injEq .. ▸ heq
      rw [Tables.docCount, hself]
      simp [s']
    · rw [(hstats l' p' heq).1, ← h₁.holds.count]
      simp only [s', Table.get_erase_of_ne _ heq]
  · by_cases heq : (l', p') = (l, p)
    · obtain ⟨rfl, rfl⟩ := Prod.mk.injEq .. ▸ heq
      rw [Tables.docTokens, hself]
      simp [s']
    · rw [(hstats l' p' heq).2, ← h₁.holds.total]
      simp only [s', Table.get_erase_of_ne _ heq]
  · by_cases heq : k = (l, p)
    · subst heq
      simp [s']
    · simp only [s', Table.get_erase_of_ne _ heq] at hk ⊢
      exact h₁.inactive k hk
  · have hne : (l', p') ≠ (l, p) := by
      intro heq
      simp [s', heq] at hsome
    simp only [s', Table.get_erase_of_ne _ hne] at hsome
    exact h₁.registered l' p' hsome

/-! ## The full-text tables are maintained -/

omit [TextLib] in
lemma ftsKept_unindexProps (l : LabelId) (n : NodeId) (props : Props) (s : Tables) :
    s.FtsKept (s.unindexProps l n props) := by
  have hdeclared := Tables.FtsKept.foldl (ftsKept_unindexDeclaredProp l n props)
    (s.getActiveNodeIndexes l) s
  simp only [Tables.unindexProps]
  split
  · exact hdeclared
  · exact hdeclared.trans (Tables.FtsKept.foldl (ftsKept_unindexField l n) _ _)

lemma FtsExact.congr {s s' : Tables} (h : FtsExact s D) (hsec : s'.sec = s.sec) :
    FtsExact s' D := by
  have hpart : s'.sec.ftsPart = s.sec.ftsPart := by rw [hsec]
  have hmeta : s'.metaDb.ftsMeta = s.metaDb.ftsMeta := congrArg (·.metaDb.ftsMeta) hsec
  have hkeys : s'.metaDb.propKeys = s.metaDb.propKeys := congrArg (·.metaDb.propKeys) hsec
  exact h.kept (.of_eq hpart hmeta hkeys)

theorem ftsExact_maintained : Maintained (fun _ => True) FtsExact where
  congr hsec h := h.congr hsec
  index {s s' D l labelName n props} _ h hnone _ _ hindex := by
    obtain ⟨s₁, hdeclared, rfl⟩ := Tables.indexNodeForLabel_ok hindex
    exact ((h.kept (ftsKept_indexDeclared hdeclared)).kept
      (ftsKept_autoIndexFields l n props _ s₁)).indexNodeFts hnone props
  unindex {s D l n props} h hsome := (h.kept (ftsKept_unindexProps l n props s)).deleteNodeFts hsome
  createText hlisted h hcreate := h.createNodeTextIndex hlisted hcreate
  dropText h := h.dropNodeTextIndex _ _

/-! ## Schema changes -/

omit [TextLib] in
lemma ftsKept_switchField (enabled : Bool) (l : LabelId) (declared : List PropKeyId) (n : NodeId)
    (s : Tables) (field : String × Json) :
    s.FtsKept (s.switchField enabled l declared n field) := by
  simp only [Tables.switchField]
  split
  · exact .refl s
  · split
    · exact .refl s
    · split
      · split <;> exact ⟨rfl, rfl, s.metaDb.propKeys.extends_getOrCreate field.1⟩
      · split
        · exact .refl s
        · split <;> exact .of_eq rfl rfl rfl

omit [TextLib] in
lemma ftsKept_switchNode (enabled : Bool) (l : LabelId) (declared : List PropKeyId) (s : Tables)
    (n : NodeId) : s.FtsKept (s.switchNode enabled l declared n) := by
  simp only [Tables.switchNode]
  split
  · exact .refl s
  · exact Tables.FtsKept.foldl (ftsKept_switchField enabled l declared n) _ _

omit [TextLib] in
lemma Graph.Ddl.ftsKept {d : Graph.Ddl} {s s' : Tables} (h : d.exec s = (.ok (), s')) :
    s.FtsKept s' := by
  cases d with
  | createNodeIndex label property role =>
    obtain ⟨l, p, s₁, hreg, ⟨-, rfl⟩ | ⟨-, -, hloop⟩⟩ := Tables.createNodeIndex_ok h
    · exact ftsKept_register hreg
    · have hkept := ftsKept_of_keeps hloop
        (Exec.Keeps.forM (Tables.keeps_backfillEntry _ _ _ fun _ _ _ => rfl))
        (Exec.Keeps.forM (Tables.keeps_backfillEntry _ _ _ fun _ _ _ => rfl))
      exact (ftsKept_register hreg).trans ⟨hkept.part, hkept.indexes, hkept.keys⟩
  | dropNodeIndex label property role =>
    obtain rfl := congrArg Prod.snd h
    have hreg : s.FtsKept (s.register label property).2.2 := ftsKept_register rfl
    simp only [Exec.modify, Ddl.exec, Tables.dropNodeIndex]
    split
    · exact hreg.trans (.of_eq rfl rfl rfl)
    · exact hreg
  | createEdgeIndex etype property role =>
    obtain ⟨t, p, s₁, hreg, hcase⟩ := Tables.createEdgeIndex_ok h
    obtain rfl : (s.registerType etype property).2.2 = s₁ := congrArg (·.2.2) hreg
    have hkept₁ : s.FtsKept (s.registerType etype property).2.2 :=
      ⟨rfl, rfl, s.metaDb.propKeys.extends_getOrCreate property⟩
    rcases hcase with ⟨-, rfl⟩ | ⟨-, -, hloop⟩
    · exact hkept₁
    · have hkept := ftsKept_of_keeps hloop
        (Exec.Keeps.forM (Tables.keeps_backfillEntry _ _ _ fun _ _ _ => rfl))
        (Exec.Keeps.forM (Tables.keeps_backfillEntry _ _ _ fun _ _ _ => rfl))
      exact hkept₁.trans ⟨hkept.part, hkept.indexes, hkept.keys⟩
  | dropEdgeIndex etype property role =>
    obtain rfl := congrArg Prod.snd h
    have hkept₁ : s.FtsKept (s.registerType etype property).2.2 :=
      ⟨rfl, rfl, s.metaDb.propKeys.extends_getOrCreate property⟩
    simp only [Exec.modify, Ddl.exec, Tables.dropEdgeIndex]
    split
    · exact hkept₁.trans (.of_eq rfl rfl rfl)
    · exact hkept₁
  | setLabelAutoIndex label enabled =>
    obtain rfl := congrArg Prod.snd h
    simp only [Exec.modify, Ddl.exec, Tables.setLabelAutoIndex]
    have hlabel : s.FtsKept (s.getOrCreateLabel label).2 := .of_eq rfl rfl rfl
    split
    · exact hlabel
    · have hkept := hlabel.trans (Tables.FtsKept.foldl
        (ftsKept_switchNode enabled (s.getOrCreateLabel label).1
          (((s.getOrCreateLabel label).2.getActiveNodeIndexes
            (s.getOrCreateLabel label).1).map Prod.fst))
        ((s.getOrCreateLabel label).2.nodesByLabel label) (s.getOrCreateLabel label).2)
      exact ⟨hkept.part, hkept.indexes, hkept.keys⟩

/-! ## The subtractions -/

/-- No subtraction saturates while the texts of a node are removed under a label: whenever a
document is taken out, it and its tokens are counted. -/
def Tables.SubtractsExactly (s : Tables) (n : NodeId) (l : LabelId) (props : Props) : Prop :=
  ∀ pre e post len, (s.unindexProps l n props).ftsTexts l props = pre ++ e :: post →
    let s' := pre.foldl (fun s e => s.removeNodePropFtsEntry n l e.1 e.2) (s.unindexProps l n props)
    s'.ftsDocs.get (l, e.1, n) = some len →
      1 ≤ (s'.metaDb.ftsN.get (l, e.1)).getD 0 ∧ len ≤ (s'.metaDb.ftsSumDl.get (l, e.1)).getD 0

lemma FtsExact.subtractsExactly (h : FtsExact s D) (hsome : D l n = some props) :
    s.SubtractsExactly n l props := by
  intro pre e post len hsplit s' hget
  have h₁ := h.kept (ftsKept_unindexProps l n props s)
  rw [ftsTexts_eq] at hsplit
  obtain ⟨ps, ps', hps, rfl, -⟩ := filterMap_eq_append_iff.mp hsplit
  have hnodup : ps.Nodup := by
    have hall : ((s.unindexProps l n props).activeTextIndexesForLabel l).Nodup :=
      nodup_activeTextIndexesForLabel
    rw [hps] at hall
    exact (nodup_append.mp hall).1
  -- the documents of the properties walked so far are gone, the statistics are exact still
  refine (h₁.holds.deleteWalk hsome (fun p hp => ?_) hnodup).le_of_get hget
  rw [hps]
  exact mem_append_left _ hp

/-- No subtraction saturates in the operations that remove texts: a removed label, each label of
an updated and of a deleted node, in the order in which they are processed. -/
structure Txn.SubtractionsExact (t : Txn) : Prop where
  removeLabel : ∀ n r r' l, t.work.tables.nodes.get n = some r → l ∈ r.labels →
    ((t.work.putNode n r').unlinkLabel l n).tables.SubtractsExactly n l r.props
  updateNode : ∀ n r new pre l post s, t.work.tables.nodes.get n = some r →
    r.labels = pre ++ l :: post →
    pre.forM (Working.reindexLabel n r.props new) t.work.tables = (.ok ⟨⟩, s) →
      s.SubtractsExactly n l r.props
  deleteNode : ∀ n r pre l post, t.work.tables.nodes.get n = some r →
    r.labels = pre ++ l :: post →
      (pre.foldl (Working.leaveLabel n r.props) t.work).tables.SubtractsExactly n l r.props

lemma Txn.Sound.subtractionsExact {t : Txn} (ht : t.Sound)
    (h : FtsExact t.work.tables t.work.tables.entered) : t.SubtractionsExact where
  removeLabel n r r' l hget hl := by
    have hsec : ((t.work.putNode n r').unlinkLabel l n).tables.sec = t.work.tables.sec :=
      Working.sec_unlinkLabel ..
    exact (h.congr hsec).subtractsExactly (Tables.entered_eq_some.mpr ⟨r, hget, hl, rfl⟩)
  updateNode n r new pre l post s hget hlabels hrun := by
    have hnodup := r.nodup
    rw [hlabels, nodup_append] at hnodup
    have hsub : ∀ l' ∈ pre, l' ∈ r.labels := fun l' hl' => by simp [hlabels, hl']
    have hstep := ftsExact_maintained.forM_reindexLabel trivial h hnodup.1
      (fun l' hl' => Tables.entered_eq_some.mpr ⟨r, hget, hsub l' hl', rfl⟩)
      (ht.work.listed.agrees n)
      (fun l' hl' => ht.work.nodes.registered n l' ⟨r, hget, hsub l' hl'⟩) hrun
    refine hstep.subtractsExactly ?_
    rw [Entered.set_of_notMem fun hl' => hnodup.2.2 l hl' l mem_cons_self rfl]
    exact Tables.entered_eq_some.mpr ⟨r, hget, by simp [hlabels], rfl⟩
  deleteNode n r pre l post hget hlabels := by
    have hnodup := r.nodup
    rw [hlabels, nodup_append] at hnodup
    have hstep := ftsExact_maintained.foldl_leaveLabel h hnodup.1
      fun l' hl' => Tables.entered_eq_some.mpr ⟨r, hget, by simp [hlabels, hl'], rfl⟩
    refine hstep.subtractsExactly ?_
    rw [Entered.set_of_notMem fun hl' => hnodup.2.2 l hl' l mem_cons_self rfl]
    exact Tables.entered_eq_some.mpr ⟨r, hget, by simp [hlabels], rfl⟩

/-! ## Runs -/

def Tables.StoresText (s : Tables) (l : LabelId) (name : String) (n : NodeId) (text : String) :
    Prop :=
  ∃ r, s.nodes.get n = some r ∧ l ∈ r.labels ∧ r.props.get name = some (.string text)

/-- The full-text tables are exact for the stored nodes. -/
structure Tables.FtsAgrees (s : Tables) : Prop where
  /-- The property of an active index has a name. -/
  named : ∀ l p b, s.metaDb.ftsMeta.get (l, p) = some b → ∃ name, s.getPropKey name = some p
  /-- A node has a document if it carries the label and stores a text with tokens. -/
  docs : ∀ l p b name, s.metaDb.ftsMeta.get (l, p) = some b → s.getPropKey name = some p →
    ∀ n len, s.ftsDocs.get (l, p, n) = some len ↔
      ∃ text, s.StoresText l name n text ∧ 0 < tokenCount (tokenize text (.fromU8 b)) ∧
        len = tokenCount (tokenize text (.fromU8 b))
  /-- The postings of a node are the terms of its text. -/
  postings : ∀ l p b name, s.metaDb.ftsMeta.get (l, p) = some b → s.getPropKey name = some p →
    ∀ term n freq, (l, p, term, n, freq) ∈ s.ftsPostings ↔
      ∃ text, s.StoresText l name n text ∧ (tokenize text (.fromU8 b)).get term = some freq
  /-- The statistics are those of the documents. -/
  stats : ∀ l p, (s.metaDb.ftsN.get (l, p)).getD 0 = (s.docsOf l p).card ∧
    (s.metaDb.ftsSumDl.get (l, p)).getD 0 = ∑ n ∈ s.docsOf l p, (s.ftsDocs.get (l, p, n)).getD 0
  /-- Without an active index there is nothing. -/
  inactive : ∀ l p, s.metaDb.ftsMeta.get (l, p) = none →
    (∀ n, s.ftsDocs.get (l, p, n) = none) ∧ (∀ term n freq, (l, p, term, n, freq) ∉ s.ftsPostings) ∧
      s.metaDb.ftsN.get (l, p) = none ∧ s.metaDb.ftsSumDl.get (l, p) = none

omit [TextLib] in
lemma Props.text_eq_some {name text : String} :
    props.text name = some text ↔ props.get name = some (.string text) := by
  unfold Props.text
  split
  next t hget => simp [hget]
  next hne => simpa using hne text

/-- The documents of the stored nodes under an active index. -/
theorem documents_entered_eq_some {b : UInt8} {name : String} {terms : Table String ℕ}
    (hactive : s.metaDb.ftsMeta.get (l, p) = some b) (hname : s.getPropKey name = some p) :
    s.documents s.entered l p n = some terms ↔
      ∃ text, s.StoresText l name n text ∧ 0 < tokenCount (tokenize text (.fromU8 b)) ∧
        terms = tokenize text (.fromU8 b) := by
  have hkey : s.getPropKeyName p = some name := Tables.getPropKeyName_eq_some.mpr hname
  have hdoc : ∀ props, s.docOf l p props = (props.text name).bind (termsOf · (.fromU8 b)) := by
    intro props
    simp [Tables.docOf, Tables.textOf, Tables.getFtsIndexLanguage, hactive, hkey]
  simp only [Tables.documents, bind_eq_some_iff, Tables.entered_eq_some, hdoc,
    Props.text_eq_some, termsOf, ite_none_right_eq_some, some.injEq,
    Tables.StoresText]
  constructor
  · rintro ⟨_, ⟨r, hget, hl, rfl⟩, text, htext, hpos, rfl⟩
    exact ⟨text, ⟨r, hget, hl, htext⟩, hpos, rfl⟩
  · rintro ⟨text, ⟨r, hget, hl, htext⟩, hpos, rfl⟩
    exact ⟨_, ⟨r, hget, hl, rfl⟩, text, htext, hpos, rfl⟩

lemma FtsExact.ftsAgrees (h : FtsExact s s.entered) : s.FtsAgrees where
  named l p b hactive := h.registered l p (by simp [hactive])
  docs l p b name hactive hname n len := by
    rw [h.holds.docs, map_eq_some_iff]
    simp only [documents_entered_eq_some hactive hname]
    constructor
    · rintro ⟨_, ⟨text, hstores, hpos, rfl⟩, rfl⟩
      exact ⟨text, hstores, hpos, rfl⟩
    · rintro ⟨text, hstores, hpos, rfl⟩
      exact ⟨_, ⟨text, hstores, hpos, rfl⟩, rfl⟩
  postings l p b name hactive hname term n freq := by
    rw [h.holds.postings]
    simp only [documents_entered_eq_some hactive hname]
    constructor
    · rintro ⟨_, ⟨text, hstores, -, rfl⟩, hget⟩
      exact ⟨text, hstores, hget⟩
    · rintro ⟨text, hstores, hget⟩
      exact ⟨_, ⟨text, hstores, tokenCount_pos_iff.mpr ⟨term, freq, hget⟩, rfl⟩, hget⟩
  stats l p := ⟨h.holds.count l p, h.holds.total l p⟩
  inactive l p hinactive := by
    have hnone : ∀ n, s.documents s.entered l p n = none := by
      intro n
      have hdoc : ∀ props, s.docOf l p props = none := fun props => by
        simp [Tables.docOf, hinactive]
      rcases hent : s.entered l n with _ | props <;> simp [Tables.documents, hent, hdoc]
    refine ⟨fun n => by rw [h.holds.docs, hnone]; rfl, fun term n freq hmem => ?_,
      h.inactive (l, p) hinactive⟩
    obtain ⟨terms, hterms, -⟩ := (h.holds.postings l p term n freq).mp hmem
    rw [hnone] at hterms
    cases hterms

lemma ftsExact_empty : FtsExact Storage.empty.tables Storage.empty.tables.entered := by
  refine ⟨⟨⟨fun l p n => ?_, fun l p term n freq => ?_⟩, fun l p => ?_, fun l p => ?_⟩,
    fun k _ => ⟨rfl, rfl⟩, fun l p hsome => by cases hsome⟩
  · rfl
  · constructor
    · intro hmem
      cases hmem
    · rintro ⟨terms, hterms, -⟩
      cases hterms
  · have hempty : Storage.empty.tables.docsOf l p = ∅ := by
      ext n
      rw [Tables.mem_docsOf]
      exact iff_of_false (by rintro ⟨⟩) (Finset.notMem_empty n)
    rw [Tables.docCount, hempty]
    rfl
  · have hempty : Storage.empty.tables.docsOf l p = ∅ := by
      ext n
      rw [Tables.mem_docsOf]
      exact iff_of_false (by rintro ⟨⟩) (Finset.notMem_empty n)
    rw [Tables.docTokens, hempty]
    rfl

namespace Graph

lemma fts_invariant : Invariant (Mutation.NodeProps fun _ => True) (fun _ _ => True)
    (fun t => t.Sound ∧ t.work.tables.Entries (fun _ => True) FtsExact)
    (fun s => s.Sound ∧ s.tables.Entries (fun _ => True) FtsExact) :=
  ftsExact_maintained.invariant fun _ _ h hexec => h.entries.kept (Ddl.ftsKept hexec)

/-- **Full-text exactness.** After every run from the empty database, the documents, postings and
statistics of every text index are those of the stored texts, and no subtraction of a following
operation saturates. The same holds in every open transaction in which no mutation has failed. -/
theorem fts_exact (actions : List Action) :
    ((run actions .empty).storage.tables.FtsAgrees ∧
      (Txn.begin (run actions .empty).storage none).SubtractionsExact) ∧
    ∀ {α : Type} (p : Prog α) (w : WriteTxn),
      (p.run (.begin (run actions .empty).storage)).2 = w → w.failed = false →
        w.txn.work.tables.FtsAgrees ∧ w.txn.SubtractionsExact := by
  have hprops : ∀ m : Mutation, m.NodeProps fun _ => True := fun m => by cases m <;> trivial
  have hrun := fts_invariant.run
    (admissible_of_forall hprops (fun _ _ => trivial) actions .empty)
    ⟨Storage.sound_empty, ftsExact_empty, fun _ _ _ => trivial⟩
  refine ⟨⟨hrun.2.entries.ftsAgrees, ?_⟩, fun p w hw hfailed => ?_⟩
  · exact (fts_invariant.begin_plain hrun).1.subtractionsExact hrun.2.entries
  · subst hw
    have htxn := fts_invariant.txn_run p hfailed (fun m _ _ => hprops m)
      (fts_invariant.begin_batch hrun)
    exact ⟨htxn.2.entries.ftsAgrees, htxn.1.subtractionsExact htxn.2.entries⟩

end Graph

end Exact

end IssunDB
