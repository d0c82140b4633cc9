import IssunDB.PropertyEntries

/-!
# Property-index entries under schema changes

Declaring an index backfills it, dropping one removes its null-valued entries, and switching the
auto-index adds or removes the entries that no declared index owns. All but one case keep the
entries exact: a drop leaves every other entry to the auto-index, also where the label has opted
out of it.

* `Tables.forM_backfillEntry_ok` — what a backfill writes;
* `PropExact.createNodeIndex`, `PropExact.dropNodeIndex`, `PropExact.setLabelAutoIndex` — the
  schema changes on nodes;
* `Graph.Ddl.KeepsEntries` — the schema changes that keep the entries exact;
* `Graph.property_entries_exact` — the entries after every run of such changes and of mutations;
* `Graph.property_entries_inexact` — a backfilled null and an entry that outlives its node.
-/

namespace IssunDB

open List Option

namespace Tables

/-! ## Backfill -/

/-- A backfill writes the encodings that the records have, nulls included. -/
theorem forM_backfillEntry_ok {property : String} {notFound : ℕ → Error}
    {lookup : Tables → ℕ → Option Props} {put : Encoded → ℕ → Tables → Tables}
    {ids : List ℕ} {s s' : Tables} {u : PUnit}
    (h : ids.forM (backfillEntry property notFound lookup put) s = (.ok u, s'))
    (hput : ∀ e id s, lookup (put e id s) = lookup s) :
    s' = (ids.filterMap fun id => ((lookup s id).bind fun props =>
      (props.get property).bind encodePropertyValue).map (id, ·)).foldl
        (fun s x => put x.2 x.1 s) s := by
  induction ids generalizing s with
  | nil => exact Exec.forM_nil_eq_ok.mp h
  | cons id ids ih =>
    obtain ⟨s₁, hhead, htail⟩ := Exec.forM_cons_eq_ok.mp h
    unfold backfillEntry at hhead
    split at hhead
    next => cases congrArg Prod.fst hhead
    next props hlookup =>
      split at hhead
      next e he =>
        obtain rfl : put e id s = s₁ := congrArg Prod.snd hhead
        have hrest := ih htail
        rw [hput] at hrest
        rw [filterMap_cons_some (b := (id, e)) (by simp [hlookup, he]), foldl_cons]
        exact hrest
      next hnone =>
        obtain rfl : s = s₁ := congrArg Prod.snd hhead
        rw [filterMap_cons_none (by simp [hlookup, hnone])]
        exact ih htail

lemma foldl_putNodeProp (l : LabelId) (p : PropKeyId) (xs : List (NodeId × Encoded)) (s : Tables) :
    xs.foldl (fun s x => putNodeProp l p x.2 x.1 s) s =
      { s with nodePropIdx :=
          s.nodePropIdx ∪ (xs.map fun x => (l, p, x.2, x.1)).toFinset } := by
  induction xs generalizing s with
  | nil => simp
  | cons x xs ih =>
    rw [foldl_cons, ih]
    simp [putNodeProp, Finset.insert_union]

lemma foldl_putEdgeProp (t : TypeId) (p : PropKeyId) (xs : List (EdgeId × Encoded)) (s : Tables) :
    xs.foldl (fun s x => putEdgeProp t p x.2 x.1 s) s =
      { s with edgePropIdx :=
          s.edgePropIdx ∪ (xs.map fun x => (t, p, x.2, x.1)).toFinset } := by
  induction xs generalizing s with
  | nil => simp
  | cons x xs ih =>
    rw [foldl_cons, ih]
    simp [putEdgeProp, Finset.insert_union]

lemma dropNodeIndex_eq {label property : String} {role : IndexRole} {s s₁ : Tables} {l : LabelId}
    {p : PropKeyId} (h : s.register label property = (l, p, s₁)) :
    s.dropNodeIndex label property role =
      if s₁.metaDb.idxNode.get (l, p) = some role then
        { s₁ with
          nodePropIdx := s₁.nodePropIdx.filter fun e =>
            ¬(e.1 = l ∧ e.2.1 = p ∧ e.2.2.1 = [encodedNull])
          metaDb := { s₁.metaDb with idxNode := s₁.metaDb.idxNode.erase (l, p) } }
      else s₁ := by
  obtain ⟨rfl, hrest⟩ := Prod.mk.injEq .. ▸ h
  obtain ⟨rfl, rfl⟩ := Prod.mk.injEq .. ▸ hrest
  rfl

/-! ## Switching the auto-index -/

section Switch

variable {l : LabelId} {n : NodeId} {s : Tables} {declared : List PropKeyId}

def DeclaredIds (l : LabelId) (declared : List PropKeyId) (s : Tables) : Prop :=
  ∀ p, p ∈ declared ↔ (s.metaDb.idxNode.get (l, p)).isSome

lemma DeclaredIds.mem_iff (h : s.DeclaredIds l declared) {name : String} {p : PropKeyId}
    (hp : s.getPropKey name = some p) : p ∈ declared ↔ s.Declares l name := by
  rw [h p, declares_iff_isSome hp]

lemma entryStep_switchField_on (field : String × Json) (hs : s.KeysNamed)
    (hd : s.DeclaredIds l declared) :
    EntryStep l n (fun name e => field.1 = name ∧ field.2 ≠ .null ∧
      encodePropertyValue field.2 = some e ∧ ¬s.Declares l name) (fun _ _ => False) s
      (s.switchField true l declared n field) := by
  unfold switchField
  split
  next hnull =>
    refine (EntryStep.refl hs).congr (fun name e => ?_) (fun _ _ => Iff.rfl)
    simp [hnull]
  next hnull =>
    split
    next hnone =>
      refine (EntryStep.refl hs).congr (fun name e => ?_) (fun _ _ => Iff.rfl)
      simp [hnone]
    next e he =>
      have hkept := propKept_getOrCreatePropKey field.1 s
      have hkey := getPropKey_getOrCreatePropKey field.1 s
      have hd' : (s.getOrCreatePropKey field.1).2.DeclaredIds l declared := hd
      have hmem := (hd'.mem_iff hkey).trans (hkept.declares_iff hs)
      rw [if_pos rfl]
      dsimp only
      split
      next hin =>
        refine (EntryStep.of_propKept hkept hs).congr (fun name e' => ?_) (fun _ _ => Iff.rfl)
        simp only [iff_false, not_and, not_not]
        rintro rfl - -
        exact hmem.mp hin
      next hout =>
        refine ((EntryStep.of_propKept hkept hs).trans_add
          (EntryStep.put (hkept.keysNamed hs) hkey)).congr (fun name e' => ?_) (fun _ _ => Iff.rfl)
        constructor
        · rintro ⟨rfl, -, he', -⟩
          exact .inr ⟨rfl, some.inj (he'.symm.trans he)⟩
        · rintro (hfalse | ⟨rfl, rfl⟩)
          · exact hfalse.elim
          · exact ⟨rfl, hnull, he, fun h => hout (hmem.mpr h)⟩

lemma entryStep_switchField_off (field : String × Json) (hs : s.KeysNamed)
    (hd : s.DeclaredIds l declared) :
    EntryStep l n (fun _ _ => False) (fun name e => field.1 = name ∧ field.2 ≠ .null ∧
      encodePropertyValue field.2 = some e ∧ ¬s.Declares l name) s
      (s.switchField false l declared n field) := by
  unfold switchField
  split
  next hnull =>
    refine (EntryStep.refl hs).congr (fun _ _ => Iff.rfl) (fun name e => ?_)
    simp [hnull]
  next hnull =>
    split
    next hnone =>
      refine (EntryStep.refl hs).congr (fun _ _ => Iff.rfl) (fun name e => ?_)
      simp [hnone]
    next e he =>
      rw [if_neg Bool.false_ne_true]
      split
      next hkey =>
        -- a property without a key has no entry
        refine ⟨hs, rfl, rfl, .refl _, fun l' name e' n' => ?_⟩
        split
        swap
        · rfl
        simp only [or_false]
        refine (and_iff_left_of_imp fun hentry hQ => ?_).symm
        obtain ⟨p, hp, -⟩ := hentry
        obtain ⟨rfl, -⟩ := hQ
        rw [hkey] at hp
        cases hp
      next p hkey =>
        split
        next hin =>
          refine (EntryStep.refl hs).congr (fun _ _ => Iff.rfl) (fun name e' => ?_)
          simp only [iff_false, not_and, not_not]
          rintro rfl - -
          exact (hd.mem_iff hkey).mp hin
        next hout =>
          refine (EntryStep.delete hs hkey).congr (fun _ _ => Iff.rfl) (fun name e' => ?_)
          constructor
          · rintro ⟨rfl, -, he', -⟩
            exact ⟨rfl, some.inj (he'.symm.trans he)⟩
          · rintro ⟨rfl, rfl⟩
            exact ⟨rfl, hnull, he, fun h => hout ((hd.mem_iff hkey).mpr h)⟩

/-- What a switch of the auto-index does to the entries of one node: it adds or removes the
entries that no declared index owns. -/
theorem entryStep_switchFields (enabled : Bool) (fields : List (String × Json)) (hs : s.KeysNamed)
    (hd : s.DeclaredIds l declared) :
    EntryStep l n
      (fun name e => enabled = true ∧ ¬s.Declares l name ∧ ∃ field ∈ fields, field.1 = name ∧
        field.2 ≠ .null ∧ encodePropertyValue field.2 = some e)
      (fun name e => enabled = false ∧ ¬s.Declares l name ∧ ∃ field ∈ fields, field.1 = name ∧
        field.2 ≠ .null ∧ encodePropertyValue field.2 = some e) s
      (fields.foldl (switchField enabled l declared n) s) := by
  induction fields generalizing s with
  | nil => exact (EntryStep.refl hs).congr (by simp) (by simp)
  | cons field fields ih =>
    have hfirst : EntryStep l n
        (fun name e => enabled = true ∧ field.1 = name ∧ field.2 ≠ .null ∧
          encodePropertyValue field.2 = some e ∧ ¬s.Declares l name)
        (fun name e => enabled = false ∧ field.1 = name ∧ field.2 ≠ .null ∧
          encodePropertyValue field.2 = some e ∧ ¬s.Declares l name) s
        (s.switchField enabled l declared n field) := by
      cases enabled
      · exact (entryStep_switchField_off field hs hd).congr (by simp) (by simp)
      · exact (entryStep_switchField_on field hs hd).congr (by simp) (by simp)
    have hd' : (s.switchField enabled l declared n field).DeclaredIds l declared := fun p => by
      rw [hfirst.declared]
      exact hd p
    refine (hfirst.trans (ih hfirst.named hd')).congr (fun name e => ?_) (fun name e => ?_)
    · rw [hfirst.declares_iff hs]
      cases enabled <;> simp only [mem_cons, exists_eq_or_imp] <;> tauto
    · rw [hfirst.declares_iff hs]
      cases enabled <;> simp only [mem_cons, exists_eq_or_imp] <;> tauto

/-- A node among `ids` stores the value of an entry under the label that no declared index
owns. -/
def AutoOwned (s : Tables) (l : LabelId) (ids : List NodeId) (name : String) (e : Encoded)
    (n : NodeId) : Prop :=
  n ∈ ids ∧ ¬s.Declares l name ∧ ∃ r, s.nodes.get n = some r ∧ r.props.indexed name = some e

lemma foldl_switchNode_spec (enabled : Bool) {ids : List NodeId} (hnodup : ids.Nodup)
    (hs : s.KeysNamed) (hd : s.DeclaredIds l declared) :
    let s' := ids.foldl (switchNode enabled l declared) s
    s'.KeysNamed ∧ s'.metaDb.idxNode = s.metaDb.idxNode ∧
      s'.metaDb.autoIndexOff = s.metaDb.autoIndexOff ∧
      s.metaDb.propKeys.registry.Extends s'.metaDb.propKeys.registry ∧
      ∀ l' name e n, s'.HasEntry l' name e n ↔
        ((l' = l ∧ s.AutoOwned l ids name e n) ∧ enabled = true) ∨
          (¬(l' = l ∧ s.AutoOwned l ids name e n) ∧ s.HasEntry l' name e n) := by
  induction ids generalizing s with
  | nil => exact ⟨hs, rfl, rfl, .refl _, fun l' name e n => by simp [AutoOwned]⟩
  | cons m ids ih =>
    obtain ⟨hm, hnodup'⟩ := nodup_cons.mp hnodup
    -- the first node
    have hfirst : EntryStep l m
        (fun name e => enabled = true ∧ ¬s.Declares l name ∧
          ∃ r, s.nodes.get m = some r ∧ r.props.indexed name = some e)
        (fun name e => enabled = false ∧ ¬s.Declares l name ∧
          ∃ r, s.nodes.get m = some r ∧ r.props.indexed name = some e) s
        (s.switchNode enabled l declared m) := by
      unfold switchNode
      split
      next hget => exact (EntryStep.refl hs).congr (by simp [hget]) (by simp [hget])
      next r hget =>
        refine (entryStep_switchFields enabled r.props.fields hs hd).congr (fun name e => ?_)
          (fun name e => ?_)
        · simp [hget, indexed_eq_some_iff]
        · simp [hget, indexed_eq_some_iff]
    have hnodes : (s.switchNode enabled l declared m).nodes = s.nodes :=
      nodes_of_base_eq (base_switchNode enabled l declared s m)
    have hd' : (s.switchNode enabled l declared m).DeclaredIds l declared := fun p => by
      rw [hfirst.declared]
      exact hd p
    obtain ⟨h1, h2, h3, h4, h5⟩ := ih hnodup' hfirst.named hd'
    refine ⟨h1, h2.trans hfirst.declared, h3.trans hfirst.optOut, hfirst.keys.trans h4, ?_⟩
    intro l' name e n
    rw [foldl_cons, h5, hfirst.entries]
    simp only [AutoOwned, hfirst.declares_iff hs, hnodes, mem_cons]
    by_cases hl : l' = l
    · subst hl
      by_cases hn : n = m
      · subst hn
        simp only [hm, false_and, and_false, not_false_eq_true, true_and, false_or, and_self,
          if_true, true_or]
        generalize (¬s.Declares l' name ∧
          ∃ r, s.nodes.get n = some r ∧ r.props.indexed name = some e) = owned
        cases enabled <;> simp only [Bool.false_eq_true] <;> tauto
      · simp only [hn, false_or, and_false, if_false]
    · simp [hl]

end Switch

end Tables

namespace PropExact

variable {K : LabelId → String → Prop} {s s' : Tables} {label property : String}

lemma createNodeIndex {role : IndexRole} (hlisted : s.Listed) (h : PropExact K s s.entered)
    (hcreate : Tables.createNodeIndex label property role s = (.ok (), s')) :
    PropExact K s' s.entered := by
  obtain ⟨l, p, s₁, hreg, hcase⟩ := Tables.createNodeIndex_ok hcreate
  obtain ⟨hlabel, hname, hs₁, -, -⟩ := Tables.register_spec hreg
  have hentered : s₁.entered = s.entered := Tables.entered_congr (by rw [hs₁])
  have hlisted₁ : s₁.Listed := hlisted.congr (by rw [hs₁]) (by rw [hs₁])
  have h₁ : PropExact K s₁ s₁.entered := hentered ▸ h.kept (Tables.propKept_register hreg)
  rw [← hentered]
  rcases hcase with ⟨-, rfl⟩ | ⟨hnone, -, hloop⟩
  · exact h₁
  clear hs₁ hreg hentered
  have hs' := Tables.forM_backfillEntry_ok hloop fun _ _ _ => rfl
  rw [Tables.foldl_putNodeProp] at hs'
  have hkeys : s'.metaDb.propKeys = s₁.metaDb.propKeys := by rw [hs']
  have hoff : s'.metaDb.autoIndexOff = s₁.metaDb.autoIndexOff := by rw [hs']
  have hidx : s'.metaDb.idxNode = s₁.metaDb.idxNode.put (l, p) role := by rw [hs']
  -- the entries written are those of the nodes of the label
  have hmem : ∀ l' p' e n, (l', p', e, n) ∈ s'.nodePropIdx ↔ (l', p', e, n) ∈ s₁.nodePropIdx ∨
      (l' = l ∧ p' = p ∧ ∃ props, s₁.entered l n = some props ∧
        (props.get property).bind encodePropertyValue = some e) := by
    intro l' p' e n
    rw [hs']
    simp only [Finset.mem_union, List.mem_toFinset, List.mem_map, mem_filterMap,
      Prod.mk.injEq, Prod.exists, map_eq_some_iff]
    refine or_congr_right ⟨?_, ?_⟩
    · rintro ⟨n', e', ⟨n'', hn, e'', he, rfl, rfl⟩, rfl, rfl, rfl, rfl⟩
      obtain ⟨props, hprops⟩ := isSome_iff_exists.mp ((hlisted₁.mem_nodesByLabel hlabel).mp hn)
      obtain ⟨r, hget, -, rfl⟩ := Tables.entered_eq_some.mp hprops
      obtain ⟨props', hlookup, he⟩ := bind_eq_some_iff.mp he
      obtain rfl : r.props = props' := by
        rw [Tables.nodeProps, show s₁.nodes.get n'' = some r from hget] at hlookup
        exact some.inj hlookup
      exact ⟨rfl, rfl, _, hprops, he⟩
    · rintro ⟨rfl, rfl, props, hprops, he⟩
      obtain ⟨r, hget, -, rfl⟩ := Tables.entered_eq_some.mp hprops
      refine ⟨n, e, ⟨n, ?_, e, ?_, rfl, rfl⟩, rfl, rfl, rfl, rfl⟩
      · exact (hlisted₁.mem_nodesByLabel hlabel).mpr (by rw [hprops]; rfl)
      · rw [Tables.nodeProps, show s₁.nodes.get n = some r from hget]
        exact he
  have hkey : ∀ name, s'.getPropKey name = s₁.getPropKey name := fun name => by
    rw [Tables.getPropKey, hkeys]
    rfl
  have hdeclares : ∀ l' name, s'.Declares l' name ↔
      s₁.Declares l' name ∨ (l' = l ∧ name = property) := by
    intro l' name
    simp only [Tables.Declares, hkey, hidx]
    constructor
    · rintro ⟨p', hp', hsome⟩
      by_cases heq : (l', p') = (l, p)
      · obtain ⟨rfl, rfl⟩ := Prod.mk.injEq .. ▸ heq
        exact .inr ⟨rfl, Tables.getPropKey_inj hp' hname⟩
      · rw [Table.get_put_of_ne _ _ heq] at hsome
        exact .inl ⟨p', hp', hsome⟩
    · rintro (⟨p', hp', hsome⟩ | ⟨rfl, rfl⟩)
      · exact ⟨p', hp', Table.isSome_get_put hsome⟩
      · exact ⟨p, hname, by rw [Table.get_put_self]; rfl⟩
  have hentry : ∀ l' name e n, s'.HasEntry l' name e n ↔ s₁.HasEntry l' name e n ∨
      (l' = l ∧ name = property ∧ ∃ props, s₁.entered l n = some props ∧
        (props.get property).bind encodePropertyValue = some e) := by
    intro l' name e n
    simp only [Tables.HasEntry, hkey, hmem]
    constructor
    · rintro ⟨p', hp', hin | ⟨rfl, rfl, hprops⟩⟩
      · exact .inl ⟨p', hp', hin⟩
      · exact .inr ⟨rfl, Tables.getPropKey_inj hp' hname, hprops⟩
    · rintro (⟨p', hp', hin⟩ | ⟨rfl, rfl, hprops⟩)
      · exact ⟨p', hp', .inl hin⟩
      · exact ⟨p, hname, .inr ⟨rfl, rfl, hprops⟩⟩
  refine ⟨⟨fun x hx => ?_, fun l' p' hsome => ?_⟩, fun l' name e n hk he => ?_,
    fun l' name n hk hnull => ?_⟩
  · obtain ⟨l', p', e, n⟩ := x
    rcases (hmem l' p' e n).mp hx with hx | ⟨-, rfl, -⟩
    · obtain ⟨name, hget⟩ := h₁.named.entries _ hx
      exact ⟨name, (hkey name).trans hget⟩
    · exact ⟨property, (hkey property).trans hname⟩
  · rw [hidx, Table.get_put] at hsome
    split at hsome
    next heq =>
      obtain ⟨-, rfl⟩ := Prod.mk.injEq .. ▸ heq
      exact ⟨property, (hkey property).trans hname⟩
    next =>
      obtain ⟨name, hget⟩ := h₁.named.declared l' p' hsome
      exact ⟨name, (hkey name).trans hget⟩
  · rw [hentry, h₁.entries l' name e n hk he, Tables.Indexes, Tables.Indexes, hoff, hdeclares]
    constructor
    · rintro (⟨props, hprops, hindexes, hindexed⟩ | ⟨rfl, rfl, props, hprops, henc⟩)
      · exact ⟨props, hprops, by tauto, hindexed⟩
      · refine ⟨props, hprops, .inr (.inr ⟨rfl, rfl⟩), ?_⟩
        obtain ⟨v, hget, hv⟩ := bind_eq_some_iff.mp henc
        refine Tables.indexed_eq_some_iff.mpr ⟨(name, v), Props.mem_fields.mpr hget, rfl, ?_, hv⟩
        rintro rfl
        exact he (some.inj hv).symm
    · rintro ⟨props, hprops, hindexes, hindexed⟩
      rcases hindexes with hauto | hdecl | ⟨rfl, rfl⟩
      · exact .inl ⟨props, hprops, .inl hauto, hindexed⟩
      · exact .inl ⟨props, hprops, .inr hdecl, hindexed⟩
      · refine .inr ⟨rfl, rfl, props, hprops, ?_⟩
        obtain ⟨field, hfield, rfl, -, hv⟩ := Tables.indexed_eq_some_iff.mp hindexed
        rw [Props.mem_fields.mp hfield]
        exact hv
  · rw [hentry] at hnull
    rw [hdeclares]
    rcases hnull with hnull | ⟨rfl, rfl, props, hprops, henc⟩
    · obtain ⟨props, hprops, hdecl, hget⟩ := h₁.nulls l' name n hk hnull
      exact ⟨props, hprops, .inl hdecl, hget⟩
    · obtain ⟨v, hget, hv⟩ := bind_eq_some_iff.mp henc
      exact ⟨props, hprops, .inr ⟨rfl, rfl⟩, by rw [hget, encodePropertyValue_eq_null.mp hv]⟩

/-- Dropping an index keeps the entries exact where the auto-index owns them, where there are none,
or where they are not under a key of `K`. -/
theorem dropNodeIndex {role : IndexRole} {l : LabelId} {p : PropKeyId} {s₁ : Tables}
    (h : PropExact K s s.entered) (hreg : s.register label property = (l, p, s₁))
    (hown : K l property → s₁.metaDb.idxNode.get (l, p) = some role →
      l ∈ s.metaDb.autoIndexOff → ∀ n props, s.entered l n = some props → props.indexed property = none) :
    PropExact K (s.dropNodeIndex label property role) s.entered := by
  obtain ⟨-, hname, hs₁, -, -⟩ := Tables.register_spec hreg
  have h₁ : PropExact K s₁ s.entered := h.kept (Tables.propKept_register hreg)
  have hoff : s₁.metaDb.autoIndexOff = s.metaDb.autoIndexOff := by rw [hs₁]
  rw [Tables.dropNodeIndex_eq hreg]
  split
  swap
  · exact h₁
  next hrole =>
    replace hown := fun hk => hown hk hrole
    rw [← hoff] at hown
    clear hs₁ hoff
    set s' : Tables := { s₁ with
      nodePropIdx := s₁.nodePropIdx.filter fun e =>
        ¬(e.1 = l ∧ e.2.1 = p ∧ e.2.2.1 = [encodedNull])
      metaDb := { s₁.metaDb with idxNode := s₁.metaDb.idxNode.erase (l, p) } }
    have hdeclares : ∀ l' name, s'.Declares l' name ↔
        s₁.Declares l' name ∧ ¬(l' = l ∧ name = property) := by
      intro l' name
      constructor
      · rintro ⟨p', hp', hsome⟩
        have hne : (l', p') ≠ (l, p) := by
          intro heq
          simp [s', heq] at hsome
        refine ⟨⟨p', hp', by simpa [s', Table.get_erase_of_ne _ hne] using hsome⟩, ?_⟩
        rintro ⟨rfl, rfl⟩
        exact hne (by rw [some.inj (hp'.symm.trans hname)])
      · rintro ⟨⟨p', hp', hsome⟩, hne⟩
        refine ⟨p', hp', ?_⟩
        have hne' : (l', p') ≠ (l, p) := by
          intro heq
          obtain ⟨rfl, rfl⟩ := Prod.mk.injEq .. ▸ heq
          exact hne ⟨rfl, Tables.getPropKey_inj hp' hname⟩
        simpa [s', Table.get_erase_of_ne _ hne'] using hsome
    have hentry : ∀ l' name e n, s'.HasEntry l' name e n ↔ s₁.HasEntry l' name e n ∧
        ¬(l' = l ∧ name = property ∧ e = [encodedNull]) := by
      intro l' name e n
      constructor
      · rintro ⟨p', hp', hmem⟩
        obtain ⟨hmem, hne⟩ := Finset.mem_filter.mp hmem
        refine ⟨⟨p', hp', hmem⟩, ?_⟩
        rintro ⟨rfl, rfl, rfl⟩
        exact hne ⟨rfl, some.inj (hp'.symm.trans hname), rfl⟩
      · rintro ⟨⟨p', hp', hmem⟩, hne⟩
        refine ⟨p', hp', Finset.mem_filter.mpr ⟨hmem, ?_⟩⟩
        rintro ⟨rfl, rfl, rfl⟩
        exact hne ⟨rfl, Tables.getPropKey_inj hp' hname, rfl⟩
    refine ⟨⟨fun x hx => h₁.named.entries x (Finset.mem_filter.mp hx).1, fun l' p' hsome => ?_⟩,
      fun l' name e n hk he => ?_, fun l' name n hk hnull => ?_⟩
    · refine h₁.named.declared l' p' ?_
      simp only [s', Table.get_erase] at hsome
      split at hsome
      · cases hsome
      · exact hsome
    · rw [hentry, h₁.entries l' name e n hk he, Tables.Indexes, Tables.Indexes, hdeclares]
      constructor
      · rintro ⟨⟨props, hprops, hindexes, hindexed⟩, -⟩
        refine ⟨props, hprops, ?_, hindexed⟩
        rcases hindexes with hauto | hdecl
        · exact .inl hauto
        · -- a dropped index whose label has opted out has no entries by assumption
          by_cases heq : l' = l ∧ name = property
          · obtain ⟨rfl, rfl⟩ := heq
            refine .inl fun hopt => ?_
            rw [hown hk hopt n props hprops] at hindexed
            cases hindexed
          · exact .inr ⟨hdecl, heq⟩
      · rintro ⟨props, hprops, hindexes, hindexed⟩
        refine ⟨⟨props, hprops, ?_, hindexed⟩, fun hc => he hc.2.2⟩
        rcases hindexes with hauto | ⟨hdecl, -⟩
        · exact .inl hauto
        · exact .inr hdecl
    · rw [hentry] at hnull
      obtain ⟨hnull, hne⟩ := hnull
      obtain ⟨props, hprops, hdecl, hget⟩ := h₁.nulls l' name n hk hnull
      exact ⟨props, hprops, (hdeclares l' name).mpr ⟨hdecl, fun hc => hne ⟨hc.1, hc.2, rfl⟩⟩, hget⟩

lemma setLabelAutoIndex (hlisted : s.Listed) (h : PropExact K s s.entered) (label : String)
    (enabled : Bool) : PropExact K (s.setLabelAutoIndex label enabled) s.entered := by
  set l := (s.getOrCreateLabel label).1 with hl
  set s₁ := (s.getOrCreateLabel label).2 with hs₁
  have hkept₁ : s.PropKept s₁ := ⟨rfl, rfl, rfl, .refl _⟩
  have h₁ : PropExact K s₁ s.entered := h.kept hkept₁
  have hlabel : s₁.getLabel label = some l := s.metaDb.labels.get_getOrCreate_self label
  have hlisted₁ : s₁.Listed := hlisted
  have hd : s₁.DeclaredIds l ((s₁.getActiveNodeIndexes l).map Prod.fst) := by
    intro p
    simp only [List.mem_map, Prod.exists, exists_and_right, exists_eq_right,
      Tables.mem_getActiveNodeIndexes, isSome_iff_exists]
  simp only [Tables.setLabelAutoIndex, ← hl, ← hs₁]
  split
  · exact h₁
  next henabled =>
    simp only [ne_eq, not_not] at henabled
    obtain ⟨h1, h2, h3, h4, h5⟩ := Tables.foldl_switchNode_spec enabled
      (s₁.nodup_nodesByLabel label) h₁.named hd
    set s₂ := (s₁.nodesByLabel label).foldl
      (Tables.switchNode enabled l ((s₁.getActiveNodeIndexes l).map Prod.fst)) s₁
    set s₃ : Tables := { s₂ with metaDb := { s₂.metaDb with
      autoIndexOff :=
        if enabled then s₂.metaDb.autoIndexOff.erase l else insert l s₂.metaDb.autoIndexOff } }
      with hs₃
    have howned : ∀ name e n, s₁.AutoOwned l (s₁.nodesByLabel label) name e n ↔
        ¬s₁.Declares l name ∧
          ∃ props, s.entered l n = some props ∧ props.indexed name = some e := by
      intro name e n
      rw [Tables.AutoOwned, hlisted₁.mem_nodesByLabel hlabel]
      change (s.entered l n).isSome ∧ _ ∧ (∃ r, s.nodes.get n = some r ∧ _) ↔ _
      constructor
      · rintro ⟨hsome, hdecl, r, hget, hindexed⟩
        obtain ⟨props, hprops⟩ := isSome_iff_exists.mp hsome
        obtain ⟨r', hget', -, rfl⟩ := Tables.entered_eq_some.mp hprops
        obtain rfl : r' = r := some.inj (hget'.symm.trans hget)
        exact ⟨hdecl, _, hprops, hindexed⟩
      · rintro ⟨hdecl, props, hprops, hindexed⟩
        obtain ⟨r, hget, -, rfl⟩ := Tables.entered_eq_some.mp hprops
        exact ⟨by rw [hprops]; rfl, hdecl, r, hget, hindexed⟩
    have hdeclares : ∀ l' name, s₃.Declares l' name ↔ s₁.Declares l' name := by
      intro l' name
      constructor
      · rintro ⟨p, hp, hsome⟩
        replace hsome : (s₂.metaDb.idxNode.get (l', p)).isSome := hsome
        rw [h2] at hsome
        obtain ⟨name', hname'⟩ := h₁.named.declared l' p hsome
        obtain rfl := Tables.getPropKey_inj (s := s₂) hp (h4 name' p hname')
        exact ⟨p, hname', hsome⟩
      · rintro ⟨p, hp, hsome⟩
        refine ⟨p, h4 name p hp, ?_⟩
        change (s₂.metaDb.idxNode.get (l', p)).isSome
        rw [h2]
        exact hsome
    have hoff : ∀ l', l' ∈ s₃.metaDb.autoIndexOff ↔
        if l' = l then enabled = false else l' ∈ s₁.metaDb.autoIndexOff := by
      intro l'
      simp only [hs₃, h3]
      by_cases heq : l' = l <;> cases enabled <;> simp [heq]
    have hentry : ∀ l' name e n, s₃.HasEntry l' name e n ↔ s₂.HasEntry l' name e n :=
      fun _ _ _ _ => Iff.rfl
    refine ⟨⟨h1.entries, h1.declared⟩, fun l' name e n hk he => ?_, fun l' name n hk hnull => ?_⟩
    · rw [hentry, h5, h₁.entries l' name e n hk he, howned, Tables.Indexes, Tables.Indexes, hdeclares,
        hoff]
      by_cases heq : l' = l
      · have hopt : l ∈ s₁.metaDb.autoIndexOff ↔ enabled = true := by
          rw [henabled]
          simp [Tables.labelAutoIndexDisabled]
        rw [heq]
        simp only [true_and, if_true, hopt]
        by_cases hdecl : s₁.Declares l name
        · simp [hdecl]
        · cases enabled
          · simp only [hdecl, or_false, not_false_eq_true, true_and, Bool.false_eq_true, and_false,
              false_or, not_true_eq_false, false_and, exists_false, iff_false, not_and]
            intro hno hyes
            exact hno hyes
          · simp [hdecl]
      · simp [heq]
    · rw [hentry, h5] at hnull
      rw [hdeclares]
      rcases hnull with ⟨⟨rfl, hown⟩, -⟩ | ⟨-, hnull⟩
      · obtain ⟨-, props, -, hindexed⟩ := (howned _ _ _).mp hown
        exact (Props.indexed_ne_null hindexed rfl).elim
      · exact h₁.nulls l' name n hk hnull

end PropExact

/-! ## Runs -/

namespace Tables

/-- The property index is exact for the stored nodes under the keys of `K`, pairs of a label and a
property name. A null-valued entry, as a declaration backfills it, belongs to a declared index and a
node that stores the null. -/
structure PropEntriesExact (K : LabelId → String → Prop) (s : Tables) : Prop where
  named : ∀ x ∈ s.nodePropIdx, ∃ name, s.getPropKey name = some x.2.1
  entries : ∀ l p name e n, s.getPropKey name = some p → K l name → e ≠ [encodedNull] →
    ((l, p, e, n) ∈ s.nodePropIdx ↔
      ∃ r v, s.nodes.get n = some r ∧ l ∈ r.labels ∧ r.props.get name = some v ∧ v ≠ .null ∧
        encodePropertyValue v = some e ∧
        (l ∉ s.metaDb.autoIndexOff ∨ (s.metaDb.idxNode.get (l, p)).isSome))
  /-- A value that the auto-index covers has a property key, so that it has an entry. -/
  keyed : ∀ r n l name v e, K l name → s.nodes.get n = some r → l ∈ r.labels →
    l ∉ s.metaDb.autoIndexOff → r.props.get name = some v → v ≠ .null →
      encodePropertyValue v = some e → ∃ p, s.getPropKey name = some p
  nulls : ∀ l p name n, s.getPropKey name = some p → K l name →
    (l, p, [encodedNull], n) ∈ s.nodePropIdx → ∃ r, s.nodes.get n = some r ∧ l ∈ r.labels ∧
      r.props.get name = some .null ∧ (s.metaDb.idxNode.get (l, p)).isSome

end Tables

lemma Props.indexed_eq_some {props : Props} {name : String} {e : Encoded} :
    props.indexed name = some e ↔
      ∃ v, props.get name = some v ∧ v ≠ .null ∧ encodePropertyValue v = some e := by
  rw [Tables.indexed_eq_some_iff]
  constructor
  · rintro ⟨⟨_, v⟩, hmem, rfl, hnull, he⟩
    exact ⟨v, Props.mem_fields.mp hmem, hnull, he⟩
  · rintro ⟨v, hget, hnull, he⟩
    exact ⟨(name, v), Props.mem_fields.mpr hget, rfl, hnull, he⟩

lemma PropExact.propEntriesExact {K : LabelId → String → Prop} {s : Tables}
    (h : PropExact K s s.entered) : s.PropEntriesExact K where
  named := h.named.entries
  entries l p name e n hname hk he := by
    rw [← Tables.hasEntry_iff_mem hname, h.entries l name e n hk he, Tables.Indexes,
      Tables.declares_iff_isSome hname]
    constructor
    · rintro ⟨props, hprops, hindexes, hindexed⟩
      obtain ⟨r, hget, hl, rfl⟩ := Tables.entered_eq_some.mp hprops
      obtain ⟨v, hv, hnull, henc⟩ := Props.indexed_eq_some.mp hindexed
      exact ⟨r, v, hget, hl, hv, hnull, henc, hindexes⟩
    · rintro ⟨r, v, hget, hl, hv, hnull, henc, hindexes⟩
      exact ⟨r.props, Tables.entered_eq_some.mpr ⟨r, hget, hl, rfl⟩, hindexes,
        Props.indexed_eq_some.mpr ⟨v, hv, hnull, henc⟩⟩
  keyed r n l name v e hk hget hl hauto hv hnull henc := by
    have hindexed : r.props.indexed name = some e := Props.indexed_eq_some.mpr ⟨v, hv, hnull, henc⟩
    have hentry := (h.entries l name e n hk (Props.indexed_ne_null hindexed)).mpr
      ⟨r.props, Tables.entered_eq_some.mpr ⟨r, hget, hl, rfl⟩, .inl hauto, hindexed⟩
    exact ⟨hentry.choose, hentry.choose_spec.1⟩
  nulls l p name n hname hk hmem := by
    obtain ⟨props, hprops, hdecl, hnull⟩ :=
      h.nulls l name n hk ((Tables.hasEntry_iff_mem hname).mpr hmem)
    obtain ⟨r, hget, hl, rfl⟩ := Tables.entered_eq_some.mp hprops
    exact ⟨r, hget, hl, hnull, (Tables.declares_iff_isSome hname).mp hdecl⟩

lemma propExact_empty {K : LabelId → String → Prop} :
    PropExact K Storage.empty.tables Storage.empty.tables.entered where
  named :=
    ⟨fun _ hx => (Finset.notMem_empty _ hx).elim, fun _ _ hsome => (Bool.false_ne_true hsome).elim⟩
  entries l name e n _ _ := by
    refine iff_of_false ?_ ?_
    · rintro ⟨p, hp, -⟩
      cases hp
    · rintro ⟨props, hprops, -⟩
      cases hprops
  nulls l name n _ hentry := by
    obtain ⟨p, hp, -⟩ := hentry
    cases hp

namespace Graph

section Exact

variable {K : LabelId → String → Prop}

/-- A schema change that keeps the entries under the keys of `K` exact: every one but the drop of an
index that is declared on such a key, whose label has opted out of the auto-index while a node of it
has an indexed value. -/
def Ddl.KeepsEntries (K : LabelId → String → Prop) : Ddl → Tables → Prop
  | dropNodeIndex label property role, s =>
    K (s.register label property).1 property →
      (s.register label property).2.2.metaDb.idxNode.get
          ((s.register label property).1, (s.register label property).2.1) = some role →
        (s.register label property).1 ∈ s.metaDb.autoIndexOff →
          ∀ n props, s.entered (s.register label property).1 n = some props →
            props.indexed property = none
  | _, _ => True

/-- A schema change that keeps the entries. -/
theorem Ddl.propExact {d : Ddl} {s s' : Tables} (hd : d.KeepsEntries K s) (hlisted : s.Listed)
    (h : PropExact K s s.entered) (hexec : d.exec s = (.ok (), s')) : PropExact K s' s.entered := by
  cases d with
  | createNodeIndex label property role => exact h.createNodeIndex hlisted hexec
  | dropNodeIndex label property role =>
    obtain rfl := congrArg Prod.snd hexec
    exact h.dropNodeIndex rfl hd
  | createEdgeIndex etype property role =>
    obtain ⟨t, p, s₁, hreg, hcase⟩ := Tables.createEdgeIndex_ok hexec
    obtain rfl : (s.registerType etype property).2.2 = s₁ := congrArg (·.2.2) hreg
    have hkept : s.PropKept (s.registerType etype property).2.2 :=
      ⟨rfl, rfl, rfl, s.metaDb.propKeys.extends_getOrCreate property⟩
    rcases hcase with ⟨-, rfl⟩ | ⟨-, -, hloop⟩
    · exact h.kept hkept
    · rw [Tables.forM_backfillEntry_ok hloop fun _ _ _ => rfl, Tables.foldl_putEdgeProp]
      exact h.kept (hkept.trans ⟨rfl, rfl, rfl, .refl _⟩)
  | dropEdgeIndex etype property role =>
    obtain rfl := congrArg Prod.snd hexec
    have hkept : s.PropKept (s.registerType etype property).2.2 :=
      ⟨rfl, rfl, rfl, s.metaDb.propKeys.extends_getOrCreate property⟩
    simp only [Ddl.exec, Exec.modify, Tables.dropEdgeIndex]
    split
    · exact h.kept (hkept.trans ⟨rfl, rfl, rfl, .refl _⟩)
    · exact h.kept hkept
  | setLabelAutoIndex label enabled =>
    obtain rfl := congrArg Prod.snd hexec
    exact h.setLabelAutoIndex hlisted label enabled

variable [TextLib]

lemma propEntries_invariant : Invariant (Mutation.NodeProps fun _ => True) (Ddl.KeepsEntries K)
    (fun t => t.Sound ∧ t.work.tables.Entries (fun _ => True) (PropExact K))
    (fun s => s.Sound ∧ s.tables.Entries (fun _ => True) (PropExact K)) :=
  propExact_maintained.invariant fun hd hlisted h hexec => Ddl.propExact hd hlisted h.entries hexec

/-- **Exact property index.** After every run from the empty database in which no index declared on
a key of `K` is dropped while its label has opted out of the auto-index and a node has an indexed
value, the entries under these keys are those of the stored nodes under the indexes in force. The
same holds in every open transaction in which no mutation has failed. -/
theorem property_entries_exact (K : LabelId → String → Prop) (actions : List Action)
    (h : Admissible (fun _ => True) (Ddl.KeepsEntries K) actions .empty) :
    (run actions .empty).storage.tables.PropEntriesExact K ∧
      ∀ {α : Type} (p : Prog α) (w : WriteTxn),
        (p.run (.begin (run actions .empty).storage)).2 = w → w.failed = false →
          w.txn.work.tables.PropEntriesExact K := by
  have hprops : ∀ m : Mutation, m.NodeProps fun _ => True := fun m => by cases m <;> trivial
  have hrun := propEntries_invariant.run (h.mono (fun m _ => hprops m) fun _ _ hd => hd)
    ⟨Storage.sound_empty, propExact_empty, fun _ _ _ => trivial⟩
  refine ⟨hrun.2.entries.propEntriesExact, fun p w hw hfailed => ?_⟩
  subst hw
  have htxn := propEntries_invariant.txn_run p hfailed (fun m _ _ => hprops m)
    (propEntries_invariant.begin_batch hrun)
  exact htxn.2.entries.propEntriesExact

end Exact

section Inexact

attribute [local instance] TextLib.ascii

/-- A node with a property `p`, as every run below inserts it. -/
def insertWith (v : Json) (h : (Json.object [("p", v)]).wellFormed = true) : Action :=
  .mutation (.addNode "A" ⟨.object [("p", v)], h⟩) (.ok ())

/-- A declared index is dropped while the auto-index of its label is on. -/
theorem property_entries_exact_dropped :
    (run [insertWith (.bool true) rfl, .ddl (.createNodeIndex "A" "p" .index) (.ok ()),
      .ddl (.dropNodeIndex "A" "p" .index) (.ok ())] .empty).storage.tables.PropEntriesExact
        fun _ _ => True := by
  have hadmissible : Admissible (fun _ => True) (Ddl.KeepsEntries fun _ _ => True)
      [insertWith (.bool true) rfl, .ddl (.createNodeIndex "A" "p" .index) (.ok ()),
        .ddl (.dropNodeIndex "A" "p" .index) (.ok ())] .empty := by
    refine ⟨trivial, fun _ => trivial, fun _ _ _ hoff => ?_, trivial⟩
    exact absurd hoff (by decide +kernel)
  exact (property_entries_exact _ _ hadmissible).1

/-- A declaration backfills the null that a node stores, and an index dropped under the opt-out
leaves an entry that outlives its node. -/
theorem property_entries_inexact :
    (0, 0, [encodedNull], 0) ∈
        (run [insertWith .null rfl, .ddl (.createNodeIndex "A" "p" .index) (.ok ())]
          .empty).storage.tables.nodePropIdx ∧
      ∃ s, (run [.ddl (.setLabelAutoIndex "A" false) (.ok ()),
          .ddl (.createNodeIndex "A" "p" .index) (.ok ()), insertWith (.bool true) rfl,
          .ddl (.dropNodeIndex "A" "p" .index) (.ok ()), .mutation (.deleteNode 0) (.ok ())]
          .empty).storage.tables = s ∧
        s.nodes.get 0 = none ∧ ∃ e, (0, 0, e, 0) ∈ s.nodePropIdx := by
  refine ⟨by decide +kernel, _, rfl, by decide +kernel, [0x02], by decide +kernel⟩

end Inexact

end Graph

end IssunDB
