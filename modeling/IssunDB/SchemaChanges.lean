import IssunDB.Graph
import IssunDB.Soundness

/-!
# Schema changes

Declaring and dropping indexes, constraints and text indexes, and switching the auto-index. The
lemmas `createNodeIndex_ok`, `createEdgeIndex_ok` and `createNodeTextIndex_ok` say what a
declaration that succeeds does. All schema changes leave records, label index, counts and ids
alone and only add names to the registries (`Tables.Evolves`), so they keep the working state
sound.
-/

namespace IssunDB

namespace Tables

/-- The records with the label index, the counts and the next ids. -/
def core (s : Tables) : Tables :=
  { s.base with
    vectors := .empty
    metaDb := { s.base.metaDb with
      labels := .empty
      types := .empty
      idxNode := .empty
      idxEdge := .empty
      autoIndexOff := ∅
      ftsMeta := .empty } }

/-- The core stays and the registries of labels and types grow. -/
structure Evolves (s s' : Tables) : Prop where
  core : s'.core = s.core
  labels : s.metaDb.labels.Extends s'.metaDb.labels
  types : s.metaDb.types.Extends s'.metaDb.types

namespace Evolves

lemma refl (s : Tables) : s.Evolves s := ⟨rfl, .refl _, .refl _⟩

lemma trans {s s' s'' : Tables} (h : s.Evolves s') (h' : s'.Evolves s'') : s.Evolves s'' :=
  ⟨h'.core.trans h.core, h.labels.trans h'.labels, h.types.trans h'.types⟩

variable {s s' : Tables}

lemma of_base_eq (h : s'.base = s.base) : s.Evolves s' := by
  have hlabels : s'.metaDb.labels = s.metaDb.labels := congrArg (·.metaDb.labels) h
  have htypes : s'.metaDb.types = s.metaDb.types := congrArg (·.metaDb.types) h
  refine ⟨?_, hlabels ▸ .refl _, htypes ▸ .refl _⟩
  simp only [Tables.core, h]

lemma nodes (h : s.Evolves s') : s'.nodes = s.nodes := by
  have hnodes := congrArg Tables.nodes h.core
  exact hnodes

lemma edges (h : s.Evolves s') : s'.edges = s.edges := by
  have hedges := congrArg Tables.edges h.core
  exact hedges

end Evolves

lemma evolves_getOrCreateLabel (name : String) (s : Tables) :
    s.Evolves (s.getOrCreateLabel name).2 :=
  ⟨rfl, s.metaDb.labels.extends_getOrCreate name, .refl _⟩

lemma evolves_getOrCreateType (name : String) (s : Tables) :
    s.Evolves (s.getOrCreateType name).2 :=
  ⟨rfl, .refl _, s.metaDb.types.extends_getOrCreate name⟩

lemma evolves_getOrCreatePropKey (name : String) (s : Tables) :
    s.Evolves (s.getOrCreatePropKey name).2 := .of_base_eq rfl

/-- The ids of a label and a property, registered if they are new, with the tables after it. -/
def register (label property : String) (s : Tables) : LabelId × PropKeyId × Tables :=
  let (l, s) := s.getOrCreateLabel label
  let (p, s) := s.getOrCreatePropKey property
  (l, p, s)

/-- The ids of an edge type and a property, registered if they are new, with the tables after
it. -/
def registerType (etype property : String) (s : Tables) : TypeId × PropKeyId × Tables :=
  let (t, s) := s.getOrCreateType etype
  let (p, s) := s.getOrCreatePropKey property
  (t, p, s)

lemma evolves_register (label property : String) (s : Tables) :
    s.Evolves (s.register label property).2.2 :=
  (evolves_getOrCreateLabel label s).trans (evolves_getOrCreatePropKey property _)

lemma evolves_registerType (etype property : String) (s : Tables) :
    s.Evolves (s.registerType etype property).2.2 :=
  (evolves_getOrCreateType etype s).trans (evolves_getOrCreatePropKey property _)

variable {s s' : Tables} {label property : String} {role : IndexRole}

lemma register_spec {l : LabelId} {p : PropKeyId} (h : s.register label property = (l, p, s')) :
    s'.getLabel label = some l ∧ s'.getPropKey property = some p ∧
      s' = { s with metaDb := { s.metaDb with
        labels := s'.metaDb.labels
        propKeys := s'.metaDb.propKeys } } ∧
      s.metaDb.labels.Extends s'.metaDb.labels ∧
      s.metaDb.propKeys.registry.Extends s'.metaDb.propKeys.registry := by
  obtain ⟨rfl, hrest⟩ := Prod.mk.injEq .. ▸ h
  obtain ⟨rfl, rfl⟩ := Prod.mk.injEq .. ▸ hrest
  exact ⟨Registry.get_getOrCreate_self .., PropKeys.get_getOrCreate_self .., rfl,
    Registry.extends_getOrCreate _ label, PropKeys.extends_getOrCreate _ property⟩

/-! ## Property indexes -/

/-- A node index declaration that succeeds: it was there with the same role, or the existing
nodes pass the check and are indexed. -/
theorem createNodeIndex_ok (h : createNodeIndex label property role s = (.ok (), s')) :
    ∃ l p s₁, s.register label property = (l, p, s₁) ∧
      ((s₁.metaDb.idxNode.get (l, p) = some role ∧ s' = s₁) ∨
      (s₁.metaDb.idxNode.get (l, p) = none ∧
        checkBackfill label property role .nodeNotFound nodeProps (s₁.nodesByLabel label) [] s₁ =
          .ok () ∧
        (s₁.nodesByLabel label).forM (backfillEntry property .nodeNotFound nodeProps
          (putNodeProp l p)) { s₁ with metaDb := { s₁.metaDb with
            idxNode := s₁.metaDb.idxNode.put (l, p) role } } = (.ok ⟨⟩, s'))) := by
  rw [createNodeIndex, Exec.state_bind, Exec.state_bind, Exec.get_bind] at h
  refine ⟨_, _, _, rfl, ?_⟩
  rcases hget : (getOrCreatePropKey property (getOrCreateLabel label s).2).2.metaDb.idxNode.get
      ((getOrCreateLabel label s).1, (getOrCreatePropKey property (getOrCreateLabel label s).2).1)
    with _ | existing
  · rw [hget] at h
    obtain ⟨_, s₂, hcheck, h⟩ := Exec.bind_eq_ok.mp h
    obtain ⟨hok, rfl⟩ := Prod.mk.injEq .. ▸ hcheck
    exact .inr ⟨hget, hok, h⟩
  · rw [hget] at h
    dsimp only at h
    split at h
    next heq => exact .inl ⟨heq ▸ hget, (congrArg Prod.snd h).symm⟩
    next => cases congrArg Prod.fst h

theorem createEdgeIndex_ok {etype property : String}
    (h : createEdgeIndex etype property role s = (.ok (), s')) :
    ∃ t p s₁, s.registerType etype property = (t, p, s₁) ∧
      ((s₁.metaDb.idxEdge.get (t, p) = some role ∧ s' = s₁) ∨
      (s₁.metaDb.idxEdge.get (t, p) = none ∧
        checkBackfill etype property role .edgeNotFound edgeProps (s₁.edgesByType etype) [] s₁ =
          .ok () ∧
        (s₁.edgesByType etype).forM (backfillEntry property .edgeNotFound edgeProps
          (putEdgeProp t p)) { s₁ with metaDb := { s₁.metaDb with
            idxEdge := s₁.metaDb.idxEdge.put (t, p) role } } = (.ok ⟨⟩, s'))) := by
  rw [createEdgeIndex, Exec.state_bind, Exec.state_bind, Exec.get_bind] at h
  refine ⟨_, _, _, rfl, ?_⟩
  rcases hget : (getOrCreatePropKey property (getOrCreateType etype s).2).2.metaDb.idxEdge.get
      ((getOrCreateType etype s).1, (getOrCreatePropKey property (getOrCreateType etype s).2).1)
    with _ | existing
  · rw [hget] at h
    obtain ⟨_, s₂, hcheck, h⟩ := Exec.bind_eq_ok.mp h
    obtain ⟨hok, rfl⟩ := Prod.mk.injEq .. ▸ hcheck
    exact .inr ⟨hget, hok, h⟩
  · rw [hget] at h
    dsimp only at h
    split at h
    next heq => exact .inl ⟨heq ▸ hget, (congrArg Prod.snd h).symm⟩
    next => cases congrArg Prod.fst h

lemma evolves_createNodeIndex (h : createNodeIndex label property role s = (.ok (), s')) :
    s.Evolves s' := by
  obtain ⟨l, p, s₁, hreg, ⟨-, rfl⟩ | ⟨-, -, hloop⟩⟩ := createNodeIndex_ok h
  · simpa [hreg] using evolves_register label property s
  · have hkeep := Exec.Keeps.forM (l := s₁.nodesByLabel label) (fun n =>
      keeps_backfillEntry property .nodeNotFound nodeProps (base_putNodeProp l p) n)
      { s₁ with metaDb := { s₁.metaDb with idxNode := s₁.metaDb.idxNode.put (l, p) role } }
    rw [hloop] at hkeep
    have hfirst : s.Evolves s₁ := by simpa [hreg] using evolves_register label property s
    have hdeclare : s₁.Evolves
        { s₁ with metaDb := { s₁.metaDb with idxNode := s₁.metaDb.idxNode.put (l, p) role } } :=
      ⟨rfl, .refl _, .refl _⟩
    exact (hfirst.trans hdeclare).trans (.of_base_eq hkeep)

lemma evolves_createEdgeIndex {etype property : String}
    (h : createEdgeIndex etype property role s = (.ok (), s')) : s.Evolves s' := by
  obtain ⟨t, p, s₁, hreg, ⟨-, rfl⟩ | ⟨-, -, hloop⟩⟩ := createEdgeIndex_ok h
  · simpa [hreg] using evolves_registerType etype property s
  · have hkeep := Exec.Keeps.forM (l := s₁.edgesByType etype) (fun id =>
      keeps_backfillEntry property .edgeNotFound edgeProps (base_putEdgeProp t p) id)
      { s₁ with metaDb := { s₁.metaDb with idxEdge := s₁.metaDb.idxEdge.put (t, p) role } }
    rw [hloop] at hkeep
    have hfirst : s.Evolves s₁ := by simpa [hreg] using evolves_registerType etype property s
    have hdeclare : s₁.Evolves
        { s₁ with metaDb := { s₁.metaDb with idxEdge := s₁.metaDb.idxEdge.put (t, p) role } } :=
      ⟨rfl, .refl _, .refl _⟩
    exact (hfirst.trans hdeclare).trans (.of_base_eq hkeep)

lemma evolves_dropNodeIndex (label property : String) (role : IndexRole) (s : Tables) :
    s.Evolves (s.dropNodeIndex label property role) := by
  refine (evolves_register label property s).trans ?_
  simp only [dropNodeIndex, register]
  split
  · exact ⟨rfl, .refl _, .refl _⟩
  · exact .refl _

lemma evolves_dropEdgeIndex (etype property : String) (role : IndexRole) (s : Tables) :
    s.Evolves (s.dropEdgeIndex etype property role) := by
  refine (evolves_registerType etype property s).trans ?_
  simp only [dropEdgeIndex, registerType]
  split
  · exact ⟨rfl, .refl _, .refl _⟩
  · exact .refl _

lemma base_switchField (enabled : Bool) (l : LabelId) (declared : List PropKeyId) (n : NodeId)
    (s : Tables) (field : String × Json) :
    (s.switchField enabled l declared n field).base = s.base := by
  simp only [switchField]
  split
  · rfl
  · split
    · rfl
    · split
      · split <;> rfl
      · split
        · rfl
        · split <;> rfl

lemma base_switchNode (enabled : Bool) (l : LabelId) (declared : List PropKeyId) (s : Tables)
    (n : NodeId) : (s.switchNode enabled l declared n).base = s.base := by
  simp only [switchNode]
  split
  · rfl
  · exact Exec.Keeps.foldl (base_switchField enabled l declared n) _ _

lemma evolves_setLabelAutoIndex (label : String) (enabled : Bool) (s : Tables) :
    s.Evolves (s.setLabelAutoIndex label enabled) := by
  refine (evolves_getOrCreateLabel label s).trans ?_
  simp only [setLabelAutoIndex]
  split
  · exact .refl _
  · exact (Evolves.of_base_eq (Exec.Keeps.foldl (base_switchNode enabled _ _) _ _)).trans
      ⟨rfl, .refl _, .refl _⟩

/-! ## Text indexes -/

lemma base_putDoc (l : LabelId) (p : PropKeyId) (n : NodeId) (terms : Table String ℕ)
    (s : Tables) : (s.putDoc l p n terms).base = s.base := rfl

section Text

variable [TextLib]

lemma keeps_backfillText {β : Type} {f : Tables → β} {l : LabelId} {p : PropKeyId}
    (hf : ∀ n terms s, f (putDoc l p n terms s) = f s) (property : String) (lang : Language)
    (ids : List NodeId) (acc : ℕ × ℕ) :
    Exec.Keeps f (backfillText l p property lang ids acc) := by
  induction ids generalizing acc with
  | nil => exact Exec.Keeps.pure acc
  | cons n ids ih =>
    obtain ⟨count, total⟩ := acc
    rw [backfillText]
    refine Exec.Keeps.bind (fun _ => rfl) fun s => ?_
    split
    · exact Exec.Keeps.throw _
    · split
      · dsimp only
        split
        · exact Exec.Keeps.bind (Exec.Keeps.modify (hf n _)) fun _ => ih _
        · exact ih _
      · exact ih _

variable {label property : String}

theorem createNodeTextIndex_ok {lang : Language} {s s' : Tables}
    (h : createNodeTextIndex label property lang s = (.ok (), s')) :
    ∃ l p s₁, s.register label property = (l, p, s₁) ∧
      (((s₁.metaDb.ftsMeta.get (l, p)).isSome ∧ s' = s₁) ∨
      (s₁.metaDb.ftsMeta.get (l, p) = none ∧ ∃ count total s₂,
        backfillText l p property lang (s₁.nodesByLabel label) (0, 0) s₁ =
          (.ok (count, total), s₂) ∧
        s' = { s₂ with metaDb := { s₂.metaDb with
          ftsMeta := s₂.metaDb.ftsMeta.put (l, p) lang.toU8
          ftsN := s₂.metaDb.ftsN.put (l, p) count
          ftsSumDl := s₂.metaDb.ftsSumDl.put (l, p) total } })) := by
  rw [createNodeTextIndex, Exec.state_bind, Exec.state_bind, Exec.get_bind] at h
  refine ⟨_, _, _, rfl, ?_⟩
  split at h
  next hsome => exact .inl ⟨hsome, (congrArg Prod.snd h).symm⟩
  next hnone =>
    obtain ⟨⟨count, total⟩, s₂, hfill, h⟩ := Exec.bind_eq_ok.mp h
    refine .inr ⟨Option.not_isSome_iff_eq_none.mp hnone, count, total, s₂, hfill,
      (congrArg Prod.snd h).symm⟩

lemma evolves_createNodeTextIndex {lang : Language} {s s' : Tables}
    (h : createNodeTextIndex label property lang s = (.ok (), s')) :
    s.Evolves s' ∧ s'.metaDb.types = s.metaDb.types ∧ s'.metaDb.idxEdge = s.metaDb.idxEdge := by
  obtain ⟨l, p, s₁, hreg, hcase⟩ := createNodeTextIndex_ok h
  obtain rfl : (s.register label property).2.2 = s₁ := congrArg (·.2.2) hreg
  rcases hcase with ⟨-, rfl⟩ | ⟨-, count, total, s₂, hfill, rfl⟩
  · exact ⟨evolves_register label property s, rfl, rfl⟩
  · have hkeep := keeps_backfillText (base_putDoc l p) property lang
      ((s.register label property).2.2.nodesByLabel label) (0, 0) (s.register label property).2.2
    rw [hfill] at hkeep
    exact ⟨((evolves_register label property s).trans (.of_base_eq hkeep)).trans
      ⟨rfl, .refl _, .refl _⟩, congrArg (·.metaDb.types) hkeep, congrArg (·.metaDb.idxEdge) hkeep⟩

omit [TextLib] in
lemma dropNodeTextIndex_eq {s s₁ : Tables} {l : LabelId} {p : PropKeyId}
    (h : s.register label property = (l, p, s₁)) :
    s.dropNodeTextIndex label property =
      if (s₁.metaDb.ftsMeta.get (l, p)).isSome then
        { s₁ with
          ftsPostings := s₁.ftsPostings.filter fun e => ¬(e.1 = l ∧ e.2.1 = p)
          ftsDocs := s₁.ftsDocs.eraseIf fun k => k.1 = l ∧ k.2.1 = p
          metaDb := { s₁.metaDb with
            ftsMeta := s₁.metaDb.ftsMeta.erase (l, p)
            ftsN := s₁.metaDb.ftsN.erase (l, p)
            ftsSumDl := s₁.metaDb.ftsSumDl.erase (l, p) } }
      else s₁ := by
  obtain ⟨rfl, hrest⟩ := Prod.mk.injEq .. ▸ h
  obtain ⟨rfl, rfl⟩ := Prod.mk.injEq .. ▸ hrest
  rfl

omit [TextLib] in
lemma evolves_dropNodeTextIndex (label property : String) (s : Tables) :
    s.Evolves (s.dropNodeTextIndex label property) ∧
      (s.dropNodeTextIndex label property).metaDb.types = s.metaDb.types ∧
      (s.dropNodeTextIndex label property).metaDb.idxEdge = s.metaDb.idxEdge := by
  have hreg := evolves_register label property s
  simp only [dropNodeTextIndex]
  split
  · exact ⟨hreg.trans ⟨rfl, .refl _, .refl _⟩, rfl, rfl⟩
  · exact ⟨hreg, rfl, rfl⟩

end Text

end Tables

lemma Graph.Ddl.evolves {d : Graph.Ddl} {s s' : Tables} (h : d.exec s = (.ok (), s')) :
    s.Evolves s' := by
  cases d with
  | createNodeIndex label property role => exact Tables.evolves_createNodeIndex h
  | dropNodeIndex label property role =>
    obtain rfl := congrArg Prod.snd h
    exact Tables.evolves_dropNodeIndex label property role s
  | createEdgeIndex etype property role => exact Tables.evolves_createEdgeIndex h
  | dropEdgeIndex etype property role =>
    obtain rfl := congrArg Prod.snd h
    exact Tables.evolves_dropEdgeIndex etype property role s
  | setLabelAutoIndex label enabled =>
    obtain rfl := congrArg Prod.snd h
    exact Tables.evolves_setLabelAutoIndex label enabled s

/-- Tables that evolve stay sound, if the memo's answers stay right. -/
theorem Working.sound_of_evolves {w : Working} {s : Tables} (hw : w.Sound)
    (h : w.tables.Evolves s) (hidx : w.memo = none ∨ s.metaDb.idxEdge = w.tables.metaDb.idxEdge) :
    Working.Sound { w with tables := s } := by
  have hnodes : Working.nodeView { w with tables := s } =
      { w.nodeView with labels := s.metaDb.labels } := by
    have hcount : s.metaDb.statsLabel = w.tables.metaDb.statsLabel :=
      congrArg (·.metaDb.statsLabel) h.core
    have hnext : s.metaDb.nextNode = w.tables.metaDb.nextNode :=
      congrArg (·.metaDb.nextNode) h.core
    have hidx : s.core.labelIdx = w.tables.core.labelIdx := congrArg Tables.labelIdx h.core
    replace hidx : s.labelIdx = w.tables.labelIdx := hidx
    simp only [nodeView, Working.nextNode, Tables.getLabelCount, labelCountDelta, h.nodes, hcount,
      hnext, hidx]
  have hedges : Working.edgeView { w with tables := s } =
      { w.edgeView with types := s.metaDb.types } := by
    have hcount : s.metaDb.statsType = w.tables.metaDb.statsType :=
      congrArg (·.metaDb.statsType) h.core
    have hnext : s.metaDb.nextEdge = w.tables.metaDb.nextEdge :=
      congrArg (·.metaDb.nextEdge) h.core
    simp only [edgeView, Working.nextEdge, Tables.getTypeCount, typeCountDelta, h.edges, hcount,
      hnext]
  refine ⟨?_, ?_, fun c hc => ?_⟩
  · rw [hnodes]
    exact hw.nodes.register h.labels
  · rw [hedges]
    exact hw.edges.register h.types
  · rcases hidx with hnone | hidx
    · rw [show w.memo = some c from hc] at hnone
      cases hnone
    · exact (hw.memo c hc).mono h.types (fun n hn => by rwa [h.nodes]) hidx

end IssunDB
