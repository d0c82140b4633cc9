import IssunDB.EdgeEntries

/-!
# Exactness of the edge property index

The entries of an edge are those of its non-null values under the declared indexes of its type.
A declaration backfills null values as well, and these entries stay until the edge is written
again or the index is dropped.

* `Tables.forM_indexDeclared_ok` — what a walk over declared indexes writes;
* `EdgeExact` — the entries of non-null values are those of the entered edges;
* `edgeExact_maintained`, `Graph.Ddl.edgeExact` — mutations and schema changes keep it;
* `Graph.edge_entries_exact` — the entries after every run;
* `Graph.edge_entries_null` — a declaration that backfills a null.
-/

namespace IssunDB

open List Option

namespace Tables

/-! ## Walks over declared indexes -/

def declaredEntries (s : Tables) (props : Props) (active : List (PropKeyId × IndexRole)) :
    List (PropKeyId × Encoded) :=
  active.filterMap fun a => ((s.propKeyName a.1).bind props.indexed).map (a.1, ·)

variable {props : Props}

lemma mem_declaredEntries {s : Tables} {active : List (PropKeyId × IndexRole)} {p : PropKeyId}
    {e : Encoded} :
    (p, e) ∈ s.declaredEntries props active ↔ (∃ role, (p, role) ∈ active) ∧
      ∃ name, s.getPropKey name = some p ∧ props.indexed name = some e := by
  simp only [declaredEntries, mem_filterMap, map_eq_some_iff, bind_eq_some_iff,
    propKeyName_eq_some, Prod.mk.injEq, Prod.exists]
  constructor
  · rintro ⟨p', role, hmem, e', ⟨name, hname, hindexed⟩, rfl, rfl⟩
    exact ⟨⟨role, hmem⟩, name, hname, hindexed⟩
  · rintro ⟨⟨role, hmem⟩, name, hname, hindexed⟩
    exact ⟨p, role, hmem, e, ⟨name, hname, hindexed⟩, rfl, rfl⟩

lemma forM_indexDeclared_ok {owner : String}
    {unique : PropKeyId → String → Json → Tables → Except Error Unit}
    {put : PropKeyId → Encoded → Tables → Tables} {active : List (PropKeyId × IndexRole)}
    {s s' : Tables} {u : PUnit}
    (h : active.forM (indexDeclared owner props unique put) s = (.ok u, s'))
    (hput : ∀ p e s, (put p e s).metaDb = s.metaDb) :
    s' = (s.declaredEntries props active).foldl (fun s x => put x.1 x.2 s) s := by
  induction active generalizing s with
  | nil => exact Exec.forM_nil_eq_ok.mp h
  | cons a active ih =>
    obtain ⟨s₁, hhead, htail⟩ := Exec.forM_cons_eq_ok.mp h
    obtain ⟨_, s₂, hcheck, hwrite⟩ := Exec.bind_eq_ok.mp hhead
    obtain rfl : s = s₂ := congrArg Prod.snd hcheck
    obtain rfl : declaredWrite props put a s = s₁ := congrArg Prod.snd hwrite
    have hrest := ih htail
    rcases hentry : (s.propKeyName a.1).bind props.indexed with _ | e
    · have hsame : declaredWrite props put a s = s := by
        simp only [declaredWrite, hentry]
      rw [hsame] at hrest
      rw [declaredEntries, filterMap_cons_none (by simp [hentry])]
      exact hrest
    · have hsame : declaredWrite props put a s = put a.1 e s := by
        simp only [declaredWrite, hentry]
      have hkeys : (put a.1 e s).declaredEntries props active = s.declaredEntries props active := by
        simp only [declaredEntries, propKeyName, hput]
      rw [hsame, hkeys] at hrest
      rw [declaredEntries, filterMap_cons_some (b := (a.1, e)) (by simp [hentry]),
        foldl_cons]
      exact hrest

/-- Writing entries of several indexes for one edge. -/
theorem foldl_putEdgeProp_keys (t : TypeId) (id : EdgeId) (xs : List (PropKeyId × Encoded))
    (s : Tables) :
    xs.foldl (fun s x => putEdgeProp t x.1 x.2 id s) s =
      { s with edgePropIdx :=
          s.edgePropIdx ∪ (xs.map fun x => (t, x.1, x.2, id)).toFinset } := by
  induction xs generalizing s with
  | nil => simp
  | cons x xs ih =>
    rw [foldl_cons, ih]
    simp [putEdgeProp, Finset.insert_union]

lemma writeEdgeIndexEntries_ok {id : EdgeId} {t : TypeId} {etype : String} {s s' : Tables}
    {u : PUnit}
    (h : writeEdgeIndexEntries (s.getActiveEdgeIndexes t) id t etype props s = (.ok u, s')) :
    s' = { s with edgePropIdx := s'.edgePropIdx } ∧
      ∀ t' p e id', (t', p, e, id') ∈ s'.edgePropIdx ↔ (t', p, e, id') ∈ s.edgePropIdx ∨
        (t' = t ∧ id' = id ∧ (s.metaDb.idxEdge.get (t, p)).isSome ∧
          ∃ name, s.getPropKey name = some p ∧ props.indexed name = some e) := by
  have hs' := forM_indexDeclared_ok h fun _ _ _ => rfl
  rw [foldl_putEdgeProp_keys] at hs'
  refine ⟨by rw [hs'], fun t' p e id' => ?_⟩
  rw [hs']
  simp only [Finset.mem_union, List.mem_toFinset, List.mem_map, Prod.mk.injEq, Prod.exists,
    mem_declaredEntries, mem_getActiveEdgeIndexes, ← isSome_iff_exists]
  refine or_congr_right ⟨?_, ?_⟩
  · rintro ⟨p', e', ⟨hsome, hname⟩, rfl, rfl, rfl, rfl⟩
    exact ⟨rfl, rfl, hsome, hname⟩
  · rintro ⟨rfl, rfl, hsome, hname⟩
    exact ⟨p, e, ⟨hsome, hname⟩, rfl, rfl, rfl, rfl⟩

lemma deleteEdgeIndexEntries_spec (id : EdgeId) (r : EdgeRecord) (s : Tables) :
    s.deleteEdgeIndexEntries id r =
        { s with edgePropIdx := (s.deleteEdgeIndexEntries id r).edgePropIdx } ∧
      ∀ t p e id', (t, p, e, id') ∈ (s.deleteEdgeIndexEntries id r).edgePropIdx ↔
        (t, p, e, id') ∈ s.edgePropIdx ∧
          ¬(t = r.edgeType ∧ id' = id ∧ (s.metaDb.idxEdge.get (r.edgeType, p)).isSome ∧
            ∃ name, s.getPropKey name = some p ∧
              (r.props.get name).bind encodePropertyValue = some e) := by
  suffices hgen : ∀ (active : List (PropKeyId × IndexRole)) (s : Tables),
      active.foldl (deleteEdgeIndexEntry id r) s =
          { s with edgePropIdx := (active.foldl (deleteEdgeIndexEntry id r) s).edgePropIdx } ∧
        ∀ t p e id', (t, p, e, id') ∈ (active.foldl (deleteEdgeIndexEntry id r) s).edgePropIdx ↔
          (t, p, e, id') ∈ s.edgePropIdx ∧
            ¬(t = r.edgeType ∧ id' = id ∧ (∃ role, (p, role) ∈ active) ∧
              ∃ name, s.getPropKey name = some p ∧
                (r.props.get name).bind encodePropertyValue = some e) by
    obtain ⟨h1, h2⟩ := hgen (s.getActiveEdgeIndexes r.edgeType) s
    refine ⟨h1, fun t p e id' => ?_⟩
    rw [deleteEdgeIndexEntries, h2]
    simp only [mem_getActiveEdgeIndexes, isSome_iff_exists]
  intro active
  induction active with
  | nil => exact fun s => ⟨rfl, fun t p e id' => by simp⟩
  | cons a active ih =>
    intro s
    -- the entry of the first declared index
    have hfirst : s.deleteEdgeIndexEntry id r a =
          { s with edgePropIdx := (s.deleteEdgeIndexEntry id r a).edgePropIdx } ∧
        ∀ t p e id', (t, p, e, id') ∈ (s.deleteEdgeIndexEntry id r a).edgePropIdx ↔
          (t, p, e, id') ∈ s.edgePropIdx ∧
            ¬(t = r.edgeType ∧ id' = id ∧ p = a.1 ∧ ∃ name, s.getPropKey name = some p ∧
              (r.props.get name).bind encodePropertyValue = some e) := by
      unfold deleteEdgeIndexEntry
      split
      next hnone =>
        refine ⟨rfl, fun t p e id' => (and_iff_left ?_).symm⟩
        rintro ⟨-, -, rfl, name, hname, -⟩
        rw [propKeyName_eq_some.mpr hname] at hnone
        cases hnone
      next name hname =>
        have hkey := propKeyName_eq_some.mp hname
        split
        next e he =>
          refine ⟨rfl, fun t p e' id' => ?_⟩
          simp only [deleteEdgeProp, Finset.mem_erase, ne_eq, Prod.mk.injEq]
          rw [and_comm]
          refine and_congr_right fun _ => not_congr ⟨?_, ?_⟩
          · rintro ⟨rfl, rfl, rfl, rfl⟩
            exact ⟨rfl, rfl, rfl, name, hkey, he⟩
          · rintro ⟨rfl, rfl, rfl, name', hname', he'⟩
            obtain rfl := getPropKey_inj hname' hkey
            exact ⟨rfl, rfl, some.inj (he'.symm.trans he), rfl⟩
        next hnone =>
          refine ⟨rfl, fun t p e id' => (and_iff_left ?_).symm⟩
          rintro ⟨-, -, rfl, name', hname', he⟩
          obtain rfl := getPropKey_inj hname' hkey
          rw [hnone] at he
          cases he
    obtain ⟨h1, h2⟩ := ih (s.deleteEdgeIndexEntry id r a)
    have hmeta : (s.deleteEdgeIndexEntry id r a).metaDb = s.metaDb := by rw [hfirst.1]
    rw [foldl_cons]
    refine ⟨?_, fun t p e id' => ?_⟩
    · rw [h1, hfirst.1]
    · rw [h2, hfirst.2]
      simp only [getPropKey, hmeta, mem_cons]
      constructor
      · rintro ⟨⟨hmem, h3⟩, h4⟩
        refine ⟨hmem, ?_⟩
        rintro ⟨rfl, rfl, ⟨role, hrole | hrole⟩, hname⟩
        · exact h3 ⟨rfl, rfl, by rw [← hrole], hname⟩
        · exact h4 ⟨rfl, rfl, ⟨role, hrole⟩, hname⟩
      · rintro ⟨hmem, h3⟩
        refine ⟨⟨hmem, ?_⟩, ?_⟩
        · rintro ⟨rfl, rfl, rfl, hname⟩
          exact h3 ⟨rfl, rfl, ⟨a.2, .inl rfl⟩, hname⟩
        · rintro ⟨rfl, rfl, ⟨role, hrole⟩, hname⟩
          exact h3 ⟨rfl, rfl, ⟨role, .inr hrole⟩, hname⟩

end Tables

/-! ## Exact entries -/

/-- The entries of non-null values are those of the entered edges. An entry of a null value
belongs to a declared index and an entered edge that stores the null. -/
structure EdgeExact (s : Tables) (D : EdgeRecords) : Prop where
  named : ∀ t p, (s.metaDb.idxEdge.get (t, p)).isSome → ∃ name, s.getPropKey name = some p
  entries : ∀ t p e id, e ≠ [encodedNull] → ((t, p, e, id) ∈ s.edgePropIdx ↔
    ∃ r name, D id = some r ∧ r.edgeType = t ∧ (s.metaDb.idxEdge.get (t, p)).isSome ∧
      s.getPropKey name = some p ∧ r.props.indexed name = some e)
  nulls : ∀ t p id, (t, p, [encodedNull], id) ∈ s.edgePropIdx →
    ∃ r name, D id = some r ∧ r.edgeType = t ∧ (s.metaDb.idxEdge.get (t, p)).isSome ∧
      s.getPropKey name = some p ∧ r.props.get name = some .null

namespace EdgeExact

variable {s s' : Tables} {D : EdgeRecords}

variable {id : EdgeId}

/-- An entry belongs to an entered edge of its type, under a declared index. -/
theorem exists_of_mem (h : EdgeExact s D) {t : TypeId} {p : PropKeyId} {e : Encoded}
    (hmem : (t, p, e, id) ∈ s.edgePropIdx) :
    ∃ r name, D id = some r ∧ r.edgeType = t ∧ (s.metaDb.idxEdge.get (t, p)).isSome ∧
      s.getPropKey name = some p ∧ (r.props.get name).bind encodePropertyValue = some e := by
  by_cases he : e = [encodedNull]
  · subst he
    obtain ⟨r, name, hD, ht, hsome, hname, hnull⟩ := h.nulls t p id hmem
    exact ⟨r, name, hD, ht, hsome, hname, by rw [hnull]; rfl⟩
  · obtain ⟨r, name, hD, ht, hsome, hname, hindexed⟩ := (h.entries t p e id he).mp hmem
    obtain ⟨v, hv, -, henc⟩ := Props.indexed_eq_some.mp hindexed
    exact ⟨r, name, hD, ht, hsome, hname, by rw [hv]; exact henc⟩

lemma frame (h : EdgeExact s D) (hentries : s'.edgePropIdx = s.edgePropIdx)
    (hdeclared : s'.metaDb.idxEdge = s.metaDb.idxEdge)
    (hkeys : s.metaDb.propKeys.registry.Extends s'.metaDb.propKeys.registry) : EdgeExact s' D := by
  -- a declared key had its name before
  have hkey : ∀ t p name, (s.metaDb.idxEdge.get (t, p)).isSome →
      (s'.getPropKey name = some p ↔ s.getPropKey name = some p) := by
    intro t p name hsome
    refine ⟨fun hname => ?_, hkeys name p⟩
    obtain ⟨name', hname'⟩ := h.named t p hsome
    obtain rfl := Tables.getPropKey_inj hname (hkeys name' p hname')
    exact hname'
  refine ⟨fun t p hsome => ?_, fun t p e id he => ?_, fun t p id hmem => ?_⟩
  · rw [hdeclared] at hsome
    obtain ⟨name, hname⟩ := h.named t p hsome
    exact ⟨name, hkeys name p hname⟩
  · rw [hentries, hdeclared, h.entries t p e id he]
    constructor
    · rintro ⟨r, name, hD, ht, hsome, hname, hindexed⟩
      exact ⟨r, name, hD, ht, hsome, (hkey t p name hsome).mpr hname, hindexed⟩
    · rintro ⟨r, name, hD, ht, hsome, hname, hindexed⟩
      exact ⟨r, name, hD, ht, hsome, (hkey t p name hsome).mp hname, hindexed⟩
  · rw [hentries] at hmem
    obtain ⟨r, name, hD, ht, hsome, hname, hnull⟩ := h.nulls t p id hmem
    exact ⟨r, name, hD, ht, hdeclared ▸ hsome, (hkey t p name hsome).mpr hname, hnull⟩

lemma write (h : EdgeExact s D) {r : EdgeRecord} {etype : String} {u : PUnit}
    (hfresh : D id = none)
    (hwrite : Tables.writeEdgeIndexEntries
        (s.getActiveEdgeIndexes r.edgeType) id r.edgeType etype r.props s = (.ok u, s')) :
    EdgeExact s' (Function.update D id (some r)) := by
  obtain ⟨hs', hmem⟩ := Tables.writeEdgeIndexEntries_ok hwrite
  have hmeta : s'.metaDb = s.metaDb := by rw [hs']
  have hkey : ∀ name, s'.getPropKey name = s.getPropKey name := fun name => by
    rw [Tables.getPropKey, hmeta]
    rfl
  refine ⟨fun t p hsome => ?_, fun t p e id' he => ?_, fun t p id' hin => ?_⟩
  · rw [hmeta] at hsome
    obtain ⟨name, hname⟩ := h.named t p hsome
    exact ⟨name, (hkey name).trans hname⟩
  · rw [hmem, h.entries t p e id' he, hmeta]
    simp only [hkey]
    by_cases hid : id' = id
    · -- the edge had no entries before
      subst hid
      rw [Function.update_self]
      constructor
      · rintro (⟨r', name, hD, -⟩ | ⟨rfl, -, hsome, name, hname, hindexed⟩)
        · rw [hfresh] at hD
          cases hD
        · exact ⟨r, name, rfl, rfl, hsome, hname, hindexed⟩
      · rintro ⟨r', name, hr, rfl, hsome, hname, hindexed⟩
        obtain rfl := some.inj hr
        exact .inr ⟨rfl, rfl, hsome, name, hname, hindexed⟩
    · rw [Function.update_of_ne hid]
      exact or_iff_left fun hc => hid hc.2.1
  · rw [hmem] at hin
    rw [hmeta]
    simp only [hkey]
    rcases hin with hin | ⟨-, -, -, name, -, hindexed⟩
    · obtain ⟨r', name, hD, hrest⟩ := h.nulls t p id' hin
      have hid : id' ≠ id := by
        rintro rfl
        rw [hfresh] at hD
        cases hD
      exact ⟨r', name, by rw [Function.update_of_ne hid]; exact hD, hrest⟩
    · -- a write never enters a null
      exact (Props.indexed_ne_null hindexed rfl).elim

lemma delete (h : EdgeExact s D) {r : EdgeRecord} (hD : D id = some r) :
    EdgeExact (s.deleteEdgeIndexEntries id r) (Function.update D id none) := by
  obtain ⟨hs', hmem⟩ := Tables.deleteEdgeIndexEntries_spec id r s
  set s' := s.deleteEdgeIndexEntries id r
  have hmeta : s'.metaDb = s.metaDb := by rw [hs']
  have hkey : ∀ name, s'.getPropKey name = s.getPropKey name := fun name => by
    rw [Tables.getPropKey, hmeta]
    rfl
  -- what remains belongs to other edges
  have hother : ∀ t p e id', (t, p, e, id') ∈ s'.edgePropIdx ↔
      (t, p, e, id') ∈ s.edgePropIdx ∧ id' ≠ id := by
    intro t p e id'
    rw [hmem]
    refine and_congr_right fun hin => ⟨?_, fun hne hc => hne hc.2.1⟩
    rintro hnot rfl
    obtain ⟨r', name, hD', rfl, hsome, hname, henc⟩ := h.exists_of_mem hin
    obtain rfl : r = r' := some.inj (hD.symm.trans hD')
    exact hnot ⟨rfl, rfl, hsome, name, hname, henc⟩
  refine ⟨fun t p hsome => ?_, fun t p e id' he => ?_, fun t p id' hin => ?_⟩
  · rw [hmeta] at hsome
    obtain ⟨name, hname⟩ := h.named t p hsome
    exact ⟨name, (hkey name).trans hname⟩
  · rw [hother, h.entries t p e id' he, hmeta]
    simp only [hkey]
    by_cases hid : id' = id
    · subst hid
      simp
    · rw [Function.update_of_ne hid]
      exact and_iff_left hid
  · obtain ⟨hin, hid⟩ := (hother t p _ id').mp hin
    rw [hmeta, Function.update_of_ne hid]
    simp only [hkey]
    exact h.nulls t p id' hin

lemma edges (h : EdgeExact s D) (edges : Table EdgeId EdgeRecord) :
    EdgeExact { s with edges := edges } D :=
  h.frame rfl rfl (.refl _)

end EdgeExact

theorem edgeExact_maintained : EdgeMaintained (fun _ => True) EdgeExact where
  frame hframe h := h.frame hframe.entries hframe.declared hframe.keys
  write _ h hfresh _ _ hwrite := h.write hfresh hwrite
  delete h hD := h.delete hD
  edges h := h.edges _

/-! ## Schema changes -/

namespace Tables

variable {t : TypeId}

lemma mem_edgesByType {s : Tables} {etype : String} (ht : s.getType etype = some t) {id : EdgeId} :
    id ∈ s.edgesByType etype ↔ ∃ r, s.records id = some r ∧ r.edgeType = t := by
  simp only [edgesByType, ht, List.mem_map, mem_filter, decide_eq_true_eq]
  constructor
  · rintro ⟨⟨id', r⟩, ⟨hmem, hr⟩, rfl⟩
    exact ⟨r, Table.mem_toList.mp hmem, hr⟩
  · rintro ⟨r, hget, hr⟩
    exact ⟨(id, r), ⟨Table.mem_toList.mpr hget, hr⟩, rfl⟩

lemma registerType_spec {etype property : String} {s s' : Tables} {p : PropKeyId}
    (h : s.registerType etype property = (t, p, s')) :
    s'.getType etype = some t ∧ s'.getPropKey property = some p ∧ EdgeFrame s s' := by
  obtain ⟨rfl, hrest⟩ := Prod.mk.injEq .. ▸ h
  obtain ⟨rfl, rfl⟩ := Prod.mk.injEq .. ▸ hrest
  refine ⟨Registry.get_getOrCreate_self .., getPropKey_getOrCreatePropKey property _, ?_⟩
  exact ⟨rfl, rfl, rfl, s.metaDb.types.extends_getOrCreate etype,
    s.metaDb.propKeys.extends_getOrCreate property⟩

lemma dropEdgeIndex_eq {etype property : String} {role : IndexRole} {s s₁ : Tables}
    {p : PropKeyId} (h : s.registerType etype property = (t, p, s₁)) :
    s.dropEdgeIndex etype property role =
      if s₁.metaDb.idxEdge.get (t, p) = some role then
        { s₁ with
          edgePropIdx := s₁.edgePropIdx.filter fun e => ¬(e.1 = t ∧ e.2.1 = p)
          metaDb := { s₁.metaDb with idxEdge := s₁.metaDb.idxEdge.erase (t, p) } }
      else s₁ := by
  obtain ⟨rfl, hrest⟩ := Prod.mk.injEq .. ▸ h
  obtain ⟨rfl, rfl⟩ := Prod.mk.injEq .. ▸ hrest
  rfl

end Tables

namespace Tables

lemma edgeFrame_switchField (enabled : Bool) (l : LabelId) (declared : List PropKeyId) (n : NodeId)
    (s : Tables) (field : String × Json) :
    EdgeFrame s (s.switchField enabled l declared n field) := by
  simp only [switchField]
  split
  · exact .refl s
  · split
    · exact .refl s
    · split
      · -- turning on may register the property key
        refine (edgeFrame_getOrCreatePropKey field.1 s).trans ?_
        split
        · exact .refl _
        · exact .of_eq rfl rfl rfl rfl rfl
      · split
        · exact .refl s
        · split
          · exact .refl s
          · exact .of_eq rfl rfl rfl rfl rfl

lemma edgeFrame_setLabelAutoIndex (label : String) (enabled : Bool) (s : Tables) :
    EdgeFrame s (s.setLabelAutoIndex label enabled) := by
  have hlabel : EdgeFrame s (s.getOrCreateLabel label).2 := .of_eq rfl rfl rfl rfl rfl
  refine hlabel.trans ?_
  simp only [setLabelAutoIndex]
  split
  · exact .refl _
  · refine EdgeFrame.trans (Exec.Along.foldl (R := EdgeFrame) (fun s n => ?_) _ _)
      (.of_eq rfl rfl rfl rfl rfl)
    unfold switchNode
    split
    · exact .refl s
    · exact Exec.Along.foldl (R := EdgeFrame) (edgeFrame_switchField enabled _ _ n) _ _

end Tables

namespace EdgeExact

variable {s s' : Tables} {etype property : String}

lemma createEdgeIndex {role : IndexRole} (h : EdgeExact s s.records)
    (hcreate : Tables.createEdgeIndex etype property role s = (.ok (), s')) :
    EdgeExact s' s.records := by
  obtain ⟨t, p, s₁, hreg, hcase⟩ := Tables.createEdgeIndex_ok hcreate
  obtain ⟨htype, hname, hframe⟩ := Tables.registerType_spec hreg
  have hrecords : s₁.records = s.records := by
    unfold Tables.records
    rw [hframe.edges]
  have h₁ : EdgeExact s₁ s₁.records :=
    hrecords ▸ h.frame hframe.entries hframe.declared hframe.keys
  rw [← hrecords]
  rcases hcase with ⟨-, rfl⟩ | ⟨-, -, hloop⟩
  · exact h₁
  clear hreg hframe hrecords
  have hs' := Tables.forM_backfillEntry_ok hloop fun _ _ _ => rfl
  rw [Tables.foldl_putEdgeProp] at hs'
  have hidx : s'.metaDb.idxEdge = s₁.metaDb.idxEdge.put (t, p) role := by rw [hs']
  have hkey : ∀ name, s'.getPropKey name = s₁.getPropKey name := fun name => by
    have hkeys : s'.metaDb.propKeys = s₁.metaDb.propKeys := by rw [hs']
    rw [Tables.getPropKey, hkeys]
    rfl
  have hdeclared : ∀ t' p', (s'.metaDb.idxEdge.get (t', p')).isSome ↔
      (s₁.metaDb.idxEdge.get (t', p')).isSome ∨ (t' = t ∧ p' = p) := by
    intro t' p'
    rw [hidx, Table.get_put]
    split
    next heq => simp [(Prod.mk.injEq .. ▸ heq : t' = t ∧ p' = p)]
    next heq => simp [show ¬(t' = t ∧ p' = p) from fun hc => heq (by rw [hc.1, hc.2])]
  -- the entries written are those of the edges of the type
  have hmem : ∀ t' p' e id, (t', p', e, id) ∈ s'.edgePropIdx ↔ (t', p', e, id) ∈ s₁.edgePropIdx ∨
      (t' = t ∧ p' = p ∧ ∃ r, s₁.records id = some r ∧ r.edgeType = t ∧
        (r.props.get property).bind encodePropertyValue = some e) := by
    intro t' p' e id
    rw [hs']
    simp only [Finset.mem_union, List.mem_toFinset, List.mem_map, mem_filterMap,
      Prod.mk.injEq, Prod.exists, map_eq_some_iff, Tables.mem_edgesByType htype]
    refine or_congr_right ⟨?_, ?_⟩
    · rintro ⟨id', e', ⟨id'', ⟨r, hget, hr⟩, e'', he, rfl, rfl⟩, rfl, rfl, rfl, rfl⟩
      refine ⟨rfl, rfl, r, hget, hr, ?_⟩
      simpa [Tables.edgeProps, show s₁.edges.get id'' = some r from hget] using he
    · rintro ⟨rfl, rfl, r, hget, hr, he⟩
      refine ⟨id, e, ⟨id, ⟨r, hget, hr⟩, e, ?_, rfl, rfl⟩, rfl, rfl, rfl, rfl⟩
      simpa [Tables.edgeProps, show s₁.edges.get id = some r from hget] using he
  refine ⟨fun t' p' hsome => ?_, fun t' p' e id he => ?_, fun t' p' id hin => ?_⟩
  · rcases (hdeclared t' p').mp hsome with hsome | ⟨-, rfl⟩
    · obtain ⟨name, hget⟩ := h₁.named t' p' hsome
      exact ⟨name, (hkey name).trans hget⟩
    · exact ⟨property, (hkey property).trans hname⟩
  · rw [hmem, h₁.entries t' p' e id he]
    simp only [hkey, hdeclared]
    constructor
    · rintro (⟨r, name, hD, ht, hsome, hget, hindexed⟩ | ⟨rfl, rfl, r, hD, ht, henc⟩)
      · exact ⟨r, name, hD, ht, .inl hsome, hget, hindexed⟩
      · obtain ⟨v, hv, henc⟩ := bind_eq_some_iff.mp henc
        refine ⟨r, property, hD, ht, .inr ⟨rfl, rfl⟩, hname, ?_⟩
        refine Props.indexed_eq_some.mpr ⟨v, hv, ?_, henc⟩
        rintro rfl
        exact he (some.inj henc).symm
    · rintro ⟨r, name, hD, ht, hsome | ⟨rfl, rfl⟩, hget, hindexed⟩
      · exact .inl ⟨r, name, hD, ht, hsome, hget, hindexed⟩
      · obtain rfl := Tables.getPropKey_inj hget hname
        obtain ⟨v, hv, -, henc⟩ := Props.indexed_eq_some.mp hindexed
        exact .inr ⟨rfl, rfl, r, hD, ht, by rw [hv]; exact henc⟩
  · simp only [hkey, hdeclared]
    rcases (hmem t' p' _ id).mp hin with hin | ⟨rfl, rfl, r, hD, ht, henc⟩
    · obtain ⟨r, name, hD, ht, hsome, hget, hnull⟩ := h₁.nulls t' p' id hin
      exact ⟨r, name, hD, ht, .inl hsome, hget, hnull⟩
    · obtain ⟨v, hv, henc⟩ := bind_eq_some_iff.mp henc
      exact ⟨r, property, hD, ht, .inr ⟨rfl, rfl⟩, hname,
        by rw [hv, encodePropertyValue_eq_null.mp henc]⟩

lemma dropEdgeIndex (h : EdgeExact s s.records) (etype property : String) (role : IndexRole) :
    EdgeExact (s.dropEdgeIndex etype property role) s.records := by
  obtain ⟨t, p, s₁, hreg⟩ : ∃ t p s₁, s.registerType etype property = (t, p, s₁) := ⟨_, _, _, rfl⟩
  obtain ⟨-, -, hframe⟩ := Tables.registerType_spec hreg
  have h₁ : EdgeExact s₁ s.records := h.frame hframe.entries hframe.declared hframe.keys
  rw [Tables.dropEdgeIndex_eq hreg]
  split
  swap
  · exact h₁
  have hdeclared : ∀ t' p', ((s₁.metaDb.idxEdge.erase (t, p)).get (t', p')).isSome ↔
      (s₁.metaDb.idxEdge.get (t', p')).isSome ∧ ¬(t' = t ∧ p' = p) := by
    intro t' p'
    rw [Table.get_erase]
    split
    next heq => simp [(Prod.mk.injEq .. ▸ heq : t' = t ∧ p' = p)]
    next heq => simp [show ¬(t' = t ∧ p' = p) from fun hc => heq (by rw [hc.1, hc.2])]
  refine ⟨fun t' p' hsome => h₁.named t' p' ((hdeclared t' p').mp hsome).1,
    fun t' p' e id he => ?_, fun t' p' id hin => ?_⟩
  · dsimp only
    rw [Finset.mem_filter, h₁.entries t' p' e id he]
    simp only [hdeclared]
    constructor
    · rintro ⟨⟨r, name, hD, ht, hsome, hrest⟩, hne⟩
      exact ⟨r, name, hD, ht, ⟨hsome, hne⟩, hrest⟩
    · rintro ⟨r, name, hD, ht, ⟨hsome, hne⟩, hrest⟩
      exact ⟨⟨r, name, hD, ht, hsome, hrest⟩, hne⟩
  · obtain ⟨hin, hne⟩ := Finset.mem_filter.mp hin
    obtain ⟨r, name, hD, ht, hsome, hrest⟩ := h₁.nulls t' p' id hin
    exact ⟨r, name, hD, ht, (hdeclared t' p').mpr ⟨hsome, hne⟩, hrest⟩

end EdgeExact

/-! ## Runs -/

/-- The edge property index is exact for the stored edges. A null-valued entry, as a declaration
backfills it, belongs to a declared index and an edge that stores the null. -/
structure Tables.EdgeEntriesExact (s : Tables) : Prop where
  entries : ∀ t p e id, e ≠ [encodedNull] → ((t, p, e, id) ∈ s.edgePropIdx ↔
    ∃ r name v, s.edges.get id = some r ∧ r.edgeType = t ∧
      (s.metaDb.idxEdge.get (t, p)).isSome ∧ s.getPropKey name = some p ∧
      r.props.get name = some v ∧ v ≠ .null ∧ encodePropertyValue v = some e)
  nulls : ∀ t p id, (t, p, [encodedNull], id) ∈ s.edgePropIdx →
    ∃ r name, s.edges.get id = some r ∧ r.edgeType = t ∧
      (s.metaDb.idxEdge.get (t, p)).isSome ∧ s.getPropKey name = some p ∧
      r.props.get name = some .null

lemma EdgeExact.edgeEntriesExact {s : Tables} (h : EdgeExact s s.records) :
    s.EdgeEntriesExact where
  entries t p e id he := by
    rw [h.entries t p e id he]
    constructor
    · rintro ⟨r, name, hget, ht, hsome, hname, hindexed⟩
      obtain ⟨v, hv, hnull, henc⟩ := Props.indexed_eq_some.mp hindexed
      exact ⟨r, name, v, hget, ht, hsome, hname, hv, hnull, henc⟩
    · rintro ⟨r, name, v, hget, ht, hsome, hname, hv, hnull, henc⟩
      exact ⟨r, name, hget, ht, hsome, hname, Props.indexed_eq_some.mpr ⟨v, hv, hnull, henc⟩⟩
  nulls := h.nulls

lemma edgeExact_empty : EdgeExact Storage.empty.tables Storage.empty.tables.records where
  named _ _ hsome := (Bool.false_ne_true hsome).elim
  entries t p e id _ := by
    refine iff_of_false (Finset.notMem_empty _) ?_
    rintro ⟨r, name, hr, -⟩
    cases hr
  nulls _ _ _ hmem := (Finset.notMem_empty _ hmem).elim

namespace Graph

lemma Ddl.edgeExact {d : Ddl} {s s' : Tables} (h : EdgeExact s s.records)
    (hexec : d.exec s = (.ok (), s')) : EdgeExact s' s.records := by
  -- changes on nodes leave edges alone and at most register names
  have hnode : ∀ s' : Tables, s'.edgePropIdx = s.edgePropIdx →
      s'.metaDb.idxEdge = s.metaDb.idxEdge →
      s.metaDb.propKeys.registry.Extends s'.metaDb.propKeys.registry → EdgeExact s' s.records :=
    fun s' => h.frame
  cases d with
  | createNodeIndex label property role =>
    obtain ⟨l, p, s₁, hreg, hcase⟩ := Tables.createNodeIndex_ok hexec
    obtain ⟨-, -, hs₁, -, hkeys⟩ := Tables.register_spec hreg
    rcases hcase with ⟨-, rfl⟩ | ⟨-, -, hloop⟩
    · exact hnode _ (by rw [hs₁]) (by rw [hs₁]) hkeys
    · rw [Tables.forM_backfillEntry_ok hloop fun _ _ _ => rfl, Tables.foldl_putNodeProp]
      exact hnode _ (by rw [hs₁]) (by rw [hs₁]) hkeys
  | dropNodeIndex label property role =>
    obtain rfl := congrArg Prod.snd hexec
    obtain ⟨l, p, s₁, hreg⟩ : ∃ l p s₁, s.register label property = (l, p, s₁) := ⟨_, _, _, rfl⟩
    obtain ⟨-, -, hs₁, -, hkeys⟩ := Tables.register_spec hreg
    change EdgeExact (s.dropNodeIndex label property role) s.records
    rw [Tables.dropNodeIndex_eq hreg]
    split
    · exact hnode _ (by rw [hs₁]) (by rw [hs₁]) hkeys
    · exact hnode _ (by rw [hs₁]) (by rw [hs₁]) hkeys
  | createEdgeIndex etype property role => exact h.createEdgeIndex hexec
  | dropEdgeIndex etype property role =>
    obtain rfl := congrArg Prod.snd hexec
    exact h.dropEdgeIndex etype property role
  | setLabelAutoIndex label enabled =>
    obtain rfl := congrArg Prod.snd hexec
    have hframe := Tables.edgeFrame_setLabelAutoIndex label enabled s
    exact hnode _ hframe.entries hframe.declared hframe.keys

section Exact

variable [TextLib]

lemma edgeEntries_invariant : Invariant (Mutation.EdgeProps fun _ => True) (fun _ _ => True)
    (fun t => t.Sound ∧ t.work.tables.EdgeEntries (fun _ => True) EdgeExact)
    (fun s => s.Sound ∧ s.tables.EdgeEntries (fun _ => True) EdgeExact) :=
  edgeExact_maintained.invariant fun _ h hexec => Ddl.edgeExact h.entries hexec

/-- **Exact edge property index.** After every run from the empty database the entries are those
of the stored edges under the declared indexes, and so they are in every open transaction in which
no mutation has failed. -/
theorem edge_entries_exact (actions : List Action) :
    (run actions .empty).storage.tables.EdgeEntriesExact ∧
      ∀ {α : Type} (p : Prog α), (p.run (.begin (run actions .empty).storage)).2.failed = false →
        (p.run (.begin (run actions .empty).storage)).2.txn.work.tables.EdgeEntriesExact := by
  have hprops : ∀ m : Mutation, m.EdgeProps fun _ => True := fun m => by cases m <;> trivial
  have hrun :=
    edgeEntries_invariant.run (admissible_of_forall hprops (fun _ _ => trivial) actions .empty)
    ⟨Storage.sound_empty, edgeExact_empty, fun _ _ _ => trivial⟩
  refine ⟨hrun.2.entries.edgeEntriesExact, fun p hfailed => ?_⟩
  have htxn := edgeEntries_invariant.txn_run p hfailed (fun m _ _ => hprops m)
    (edgeEntries_invariant.begin_batch hrun)
  exact htxn.2.entries.edgeEntriesExact

end Exact

section Null

attribute [local instance] TextLib.ascii

/-- Two nodes and an edge that stores a null, then a declaration that backfills it. -/
theorem edge_entries_null :
    ∃ s, (run [.mutation (.addNode "A" ⟨.object [], Json.wellFormed_empty⟩) (.ok ()),
        .mutation (.addNode "A" ⟨.object [], Json.wellFormed_empty⟩) (.ok ()),
        .mutation (.addEdge 0 1 "T" ⟨.object [("p", .null)], rfl⟩) (.ok ()),
        .ddl (.createEdgeIndex "T" "p" .index) (.ok ())] .empty).storage.tables = s ∧
      (0, 0, [encodedNull], 0) ∈ s.edgePropIdx ∧ s.getPropKey "p" = some 0 ∧
      ((s.edges.get 0).bind fun r => r.props.get "p") = some .null := by
  refine ⟨_, rfl, by decide +kernel, by decide +kernel, by decide +kernel⟩

end Null

end Graph

end IssunDB
