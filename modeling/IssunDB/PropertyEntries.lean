import IssunDB.Entries

/-!
# Property-index entries of nodes

The node property index is written under two switches, the declared indexes of a label and its
auto-index. An entry is read back by the name of its property, so the index is described by names:

* `HasEntry` — a node has an entry under a label for a property name and an encoding;
* `Indexes` — a property name is indexed under a label, by either switch;
* `PropExact` — the entries of non-null values are those of the entered nodes, and an entry of a
  null value is one that a declaration has backfilled;
* `propExact_maintained` — every mutation maintains it. The schema changes do as well, except that
  dropping a declared index trusts the auto-index to own the entries it leaves
  (`Graph.Ddl.KeepsEntries`);
* `Graph.property_entries_exact` — the entries after every run.
-/

namespace IssunDB

open List Option

namespace Tables

def HasEntry (s : Tables) (l : LabelId) (name : String) (e : Encoded) (n : NodeId) : Prop :=
  ∃ p, s.getPropKey name = some p ∧ (l, p, e, n) ∈ s.nodePropIdx

def Declares (s : Tables) (l : LabelId) (name : String) : Prop :=
  ∃ p, s.getPropKey name = some p ∧ (s.metaDb.idxNode.get (l, p)).isSome

def Indexes (s : Tables) (l : LabelId) (name : String) : Prop :=
  l ∉ s.metaDb.autoIndexOff ∨ s.Declares l name

/-- The property keys of the entries and of the declared indexes are registered. -/
structure KeysNamed (s : Tables) : Prop where
  entries : ∀ x ∈ s.nodePropIdx, ∃ name, s.getPropKey name = some x.2.1
  declared : ∀ l p, (s.metaDb.idxNode.get (l, p)).isSome → ∃ name, s.getPropKey name = some p

/-- The index, the declared indexes and the opt-outs stay, and property keys are only added. -/
structure PropKept (s s' : Tables) : Prop where
  entries : s'.nodePropIdx = s.nodePropIdx
  declared : s'.metaDb.idxNode = s.metaDb.idxNode
  optOut : s'.metaDb.autoIndexOff = s.metaDb.autoIndexOff
  keys : s.metaDb.propKeys.registry.Extends s'.metaDb.propKeys.registry

lemma getPropKey_inj {s : Tables} {name name' : String} {p : PropKeyId}
    (h : s.getPropKey name = some p) (h' : s.getPropKey name' = some p) : name = name' :=
  Registry.get_inj h h'

namespace PropKept

variable {s s' s'' : Tables}

lemma refl (s : Tables) : s.PropKept s := ⟨rfl, rfl, rfl, .refl _⟩

lemma trans (h : s.PropKept s') (h' : s'.PropKept s'') : s.PropKept s'' :=
  ⟨h'.entries.trans h.entries, h'.declared.trans h.declared, h'.optOut.trans h.optOut,
    h.keys.trans h'.keys⟩

variable {name : String} {l : LabelId}

lemma getPropKey (h : s.PropKept s') {p : PropKeyId} (hget : s.getPropKey name = some p) :
    s'.getPropKey name = some p := h.keys name p hget

lemma keysNamed (h : s.PropKept s') (hs : s.KeysNamed) : s'.KeysNamed := by
  constructor
  · intro x hx
    rw [h.entries] at hx
    obtain ⟨name, hname⟩ := hs.entries x hx
    exact ⟨name, h.getPropKey hname⟩
  · intro l p hsome
    rw [h.declared] at hsome
    obtain ⟨name, hname⟩ := hs.declared l p hsome
    exact ⟨name, h.getPropKey hname⟩

lemma hasEntry_iff (h : s.PropKept s') (hs : s.KeysNamed) {e : Encoded} {n : NodeId} :
    s'.HasEntry l name e n ↔ s.HasEntry l name e n := by
  constructor
  · rintro ⟨p, hget, hmem⟩
    rw [h.entries] at hmem
    obtain ⟨name', hname'⟩ := hs.entries _ hmem
    obtain rfl := getPropKey_inj hget (h.getPropKey hname')
    exact ⟨p, hname', hmem⟩
  · rintro ⟨p, hget, hmem⟩
    exact ⟨p, h.getPropKey hget, h.entries ▸ hmem⟩

lemma declares_iff (h : s.PropKept s') (hs : s.KeysNamed) :
    s'.Declares l name ↔ s.Declares l name := by
  constructor
  · rintro ⟨p, hget, hsome⟩
    rw [h.declared] at hsome
    obtain ⟨name', hname'⟩ := hs.declared l p hsome
    obtain rfl := getPropKey_inj hget (h.getPropKey hname')
    exact ⟨p, hname', hsome⟩
  · rintro ⟨p, hget, hsome⟩
    exact ⟨p, h.getPropKey hget, h.declared ▸ hsome⟩

lemma indexes_iff (h : s.PropKept s') (hs : s.KeysNamed) :
    s'.Indexes l name ↔ s.Indexes l name := by
  rw [Indexes, Indexes, h.optOut, h.declares_iff hs]

/-- A fold of steps that keep the index keeps it. -/
theorem foldl {α : Type} {f : Tables → α → Tables} (hf : ∀ (s : Tables) a, s.PropKept (f s a))
    (l : List α) (s : Tables) : s.PropKept (l.foldl f s) := by
  induction l generalizing s with
  | nil => exact .refl s
  | cons a l ih => exact (hf s a).trans (ih _)

end PropKept

/-! ## Single entries -/

section Entry

variable {s : Tables} {l l' : LabelId} {p : PropKeyId} {name name' : String} {e e' : Encoded}
  {n n' : NodeId}

lemma propKept_getOrCreatePropKey (name : String) (s : Tables) :
    s.PropKept (s.getOrCreatePropKey name).2 :=
  ⟨rfl, rfl, rfl, s.metaDb.propKeys.extends_getOrCreate name⟩

lemma getPropKey_getOrCreatePropKey (name : String) (s : Tables) :
    (s.getOrCreatePropKey name).2.getPropKey name = some (s.getOrCreatePropKey name).1 :=
  s.metaDb.propKeys.get_getOrCreate_self name

lemma hasEntry_iff_mem (hp : s.getPropKey name = some p) :
    s.HasEntry l name e n ↔ (l, p, e, n) ∈ s.nodePropIdx := by
  constructor
  · rintro ⟨p', hp', hmem⟩
    obtain rfl : p' = p := some.inj (hp'.symm.trans hp)
    exact hmem
  · exact fun hmem => ⟨p, hp, hmem⟩

lemma declares_iff_isSome (hp : s.getPropKey name = some p) :
    s.Declares l name ↔ (s.metaDb.idxNode.get (l, p)).isSome := by
  constructor
  · rintro ⟨p', hp', hsome⟩
    obtain rfl : p' = p := some.inj (hp'.symm.trans hp)
    exact hsome
  · exact fun hsome => ⟨p, hp, hsome⟩

lemma hasEntry_putNodeProp (hp : s.getPropKey name = some p) :
    (s.putNodeProp l p e n).HasEntry l' name' e' n' ↔
      s.HasEntry l' name' e' n' ∨ (l' = l ∧ name' = name ∧ e' = e ∧ n' = n) := by
  simp only [HasEntry, putNodeProp, Finset.mem_insert, Prod.mk.injEq]
  constructor
  · rintro ⟨p', hp', ⟨rfl, rfl, rfl, rfl⟩ | hmem⟩
    · exact .inr ⟨rfl, getPropKey_inj hp' hp, rfl, rfl⟩
    · exact .inl ⟨p', hp', hmem⟩
  · rintro (⟨p', hp', hmem⟩ | ⟨rfl, rfl, rfl, rfl⟩)
    · exact ⟨p', hp', .inr hmem⟩
    · exact ⟨p, hp, .inl ⟨rfl, rfl, rfl, rfl⟩⟩

lemma hasEntry_deleteNodeProp (hp : s.getPropKey name = some p) :
    (s.deleteNodeProp l p e n).HasEntry l' name' e' n' ↔
      s.HasEntry l' name' e' n' ∧ ¬(l' = l ∧ name' = name ∧ e' = e ∧ n' = n) := by
  simp only [HasEntry, deleteNodeProp, Finset.mem_erase, ne_eq, Prod.mk.injEq]
  constructor
  · rintro ⟨p', hp', hne, hmem⟩
    refine ⟨⟨p', hp', hmem⟩, ?_⟩
    rintro ⟨rfl, rfl, rfl, rfl⟩
    obtain rfl : p = p' := some.inj (hp.symm.trans hp')
    exact hne ⟨rfl, rfl, rfl, rfl⟩
  · rintro ⟨⟨p', hp', hmem⟩, hne⟩
    refine ⟨p', hp', ?_, hmem⟩
    rintro ⟨rfl, rfl, rfl, rfl⟩
    exact hne ⟨rfl, getPropKey_inj hp' hp, rfl, rfl⟩

lemma KeysNamed.putNodeProp (hs : s.KeysNamed) (hp : s.getPropKey name = some p) :
    (s.putNodeProp l p e n).KeysNamed := by
  refine ⟨fun x hx => ?_, hs.declared⟩
  rcases Finset.mem_insert.mp hx with rfl | hx
  · exact ⟨name, hp⟩
  · exact hs.entries x hx

lemma KeysNamed.deleteNodeProp (hs : s.KeysNamed) : (s.deleteNodeProp l p e n).KeysNamed :=
  ⟨fun x hx => hs.entries x (Finset.mem_of_mem_erase hx), hs.declared⟩

end Entry

lemma exists_active_iff {s : Tables} {l : LabelId} {name : String} :
    (∃ a ∈ s.getActiveNodeIndexes l, s.getPropKey name = some a.1) ↔ s.Declares l name := by
  constructor
  · rintro ⟨⟨p, role⟩, hmem, hkey⟩
    exact ⟨p, hkey, by rw [mem_getActiveNodeIndexes.mp hmem]; rfl⟩
  · rintro ⟨p, hkey, hsome⟩
    obtain ⟨role, hrole⟩ := isSome_iff_exists.mp hsome
    exact ⟨(p, role), mem_getActiveNodeIndexes.mpr hrole, hkey⟩

/-! ## Walks over the properties of one node -/

/-- What a walk does to the entries of one node under one label: those in `P` are added and those
in `Q` removed. The switches stay, and property keys are only added. -/
structure EntryStep (l : LabelId) (n : NodeId) (P Q : String → Encoded → Prop) (s s' : Tables) :
    Prop where
  named : s'.KeysNamed
  declared : s'.metaDb.idxNode = s.metaDb.idxNode
  optOut : s'.metaDb.autoIndexOff = s.metaDb.autoIndexOff
  keys : s.metaDb.propKeys.registry.Extends s'.metaDb.propKeys.registry
  entries : ∀ l' name e n', s'.HasEntry l' name e n' ↔
    if l' = l ∧ n' = n then (s.HasEntry l' name e n' ∧ ¬Q name e) ∨ P name e
    else s.HasEntry l' name e n'

namespace EntryStep

variable {l : LabelId} {n : NodeId} {P P' Q Q' : String → Encoded → Prop} {s s' s'' : Tables}

lemma refl (hs : s.KeysNamed) : EntryStep l n (fun _ _ => False) (fun _ _ => False) s s where
  named := hs
  declared := rfl
  optOut := rfl
  keys := .refl _
  entries l' name e n' := by simp

lemma congr (h : EntryStep l n P Q s s') (hP : ∀ name e, P' name e ↔ P name e)
    (hQ : ∀ name e, Q' name e ↔ Q name e) : EntryStep l n P' Q' s s' :=
  { h with entries := fun l' name e n' => by simp only [h.entries, hP, hQ] }

/-- A step that only registers property keys. -/
theorem of_propKept (h : s.PropKept s') (hs : s.KeysNamed) :
    EntryStep l n (fun _ _ => False) (fun _ _ => False) s s' where
  named := h.keysNamed hs
  declared := h.declared
  optOut := h.optOut
  keys := h.keys
  entries l' name e n' := by simp [h.hasEntry_iff hs]

variable {name : String}

lemma put {p : PropKeyId} {e : Encoded} (hs : s.KeysNamed) (hp : s.getPropKey name = some p) :
    EntryStep l n (fun name' e' => name' = name ∧ e' = e) (fun _ _ => False) s
      (s.putNodeProp l p e n) where
  named := hs.putNodeProp hp
  declared := rfl
  optOut := rfl
  keys := .refl _
  entries l' name' e' n' := by
    rw [hasEntry_putNodeProp hp]
    split
    next h => simp [h.1, h.2]
    next h => exact or_iff_left fun heq => h ⟨heq.1, heq.2.2.2⟩

lemma delete {p : PropKeyId} {e : Encoded} (hs : s.KeysNamed) (hp : s.getPropKey name = some p) :
    EntryStep l n (fun _ _ => False) (fun name' e' => name' = name ∧ e' = e) s
      (s.deleteNodeProp l p e n) where
  named := hs.deleteNodeProp
  declared := rfl
  optOut := rfl
  keys := .refl _
  entries l' name' e' n' := by
    rw [hasEntry_deleteNodeProp hp]
    split
    next h => simp [h.1, h.2]
    next h => exact and_iff_left fun heq => h ⟨heq.1, heq.2.2.2⟩

/-- One walk after another. -/
theorem trans (h : EntryStep l n P Q s s') (h' : EntryStep l n P' Q' s' s'') :
    EntryStep l n (fun name e => (P name e ∧ ¬Q' name e) ∨ P' name e)
      (fun name e => Q name e ∨ Q' name e) s s'' where
  named := h'.named
  declared := h'.declared.trans h.declared
  optOut := h'.optOut.trans h.optOut
  keys := h.keys.trans h'.keys
  entries l' name e n' := by
    rw [h'.entries, h.entries]
    split
    · tauto
    · rfl

lemma trans_add (h : EntryStep l n P (fun _ _ => False) s s')
    (h' : EntryStep l n P' (fun _ _ => False) s' s'') :
    EntryStep l n (fun name e => P name e ∨ P' name e) (fun _ _ => False) s s'' :=
  (h.trans h').congr (by simp) (by simp)

lemma trans_remove (h : EntryStep l n (fun _ _ => False) Q s s')
    (h' : EntryStep l n (fun _ _ => False) Q' s' s'') :
    EntryStep l n (fun _ _ => False) (fun name e => Q name e ∨ Q' name e) s s'' :=
  (h.trans h').congr (by simp) (by simp)

lemma foldl_add {α : Type} {f : Tables → α → Tables} {R : α → String → Encoded → Prop}
    (hf : ∀ (s : Tables) a, s.KeysNamed → EntryStep l n (R a) (fun _ _ => False) s (f s a))
    (as : List α) (hs : s.KeysNamed) :
    EntryStep l n (fun name e => ∃ a ∈ as, R a name e) (fun _ _ => False) s (as.foldl f s) := by
  induction as generalizing s with
  | nil => exact (EntryStep.refl hs).congr (by simp) (fun _ _ => Iff.rfl)
  | cons a as ih =>
    have hstep := (hf s a hs).trans_add (ih (hf s a hs).named)
    exact hstep.congr (by simp) (fun _ _ => Iff.rfl)

lemma foldl_remove {α : Type} {f : Tables → α → Tables} {R : α → String → Encoded → Prop}
    (hf : ∀ (s : Tables) a, s.KeysNamed → EntryStep l n (fun _ _ => False) (R a) s (f s a))
    (as : List α) (hs : s.KeysNamed) :
    EntryStep l n (fun _ _ => False) (fun name e => ∃ a ∈ as, R a name e) s (as.foldl f s) := by
  induction as generalizing s with
  | nil => exact (EntryStep.refl hs).congr (fun _ _ => Iff.rfl) (by simp)
  | cons a as ih =>
    have hstep := (hf s a hs).trans_remove (ih (hf s a hs).named)
    exact hstep.congr (fun _ _ => Iff.rfl) (by simp)

lemma declares_iff (h : EntryStep l n P Q s s') (hs : s.KeysNamed) {l' : LabelId} :
    s'.Declares l' name ↔ s.Declares l' name := by
  constructor
  · rintro ⟨p, hget, hsome⟩
    rw [h.declared] at hsome
    obtain ⟨name', hname'⟩ := hs.declared l' p hsome
    obtain rfl := getPropKey_inj hget (h.keys name' p hname')
    exact ⟨p, hname', hsome⟩
  · rintro ⟨p, hget, hsome⟩
    exact ⟨p, h.keys name p hget, h.declared ▸ hsome⟩

lemma indexes_iff (h : EntryStep l n P Q s s') (hs : s.KeysNamed) {l' : LabelId} :
    s'.Indexes l' name ↔ s.Indexes l' name := by
  rw [Indexes, Indexes, h.optOut, h.declares_iff hs]

end EntryStep

section Walks

variable {l : LabelId} {n : NodeId} {props : Props} {s s' : Tables}

lemma entryStep_indexDeclared {labelName : String} {active : List (PropKeyId × IndexRole)}
    {u : PUnit} (hs : s.KeysNamed)
    (h : active.forM (indexDeclaredProp l labelName n props) s = (.ok u, s')) :
    EntryStep l n (fun name e => (∃ a ∈ active, s.getPropKey name = some a.1) ∧
      props.indexed name = some e) (fun _ _ => False) s s' ∧
      s'.metaDb.propKeys = s.metaDb.propKeys := by
  induction active generalizing s with
  | nil =>
    obtain rfl := Exec.forM_nil_eq_ok.mp h
    refine ⟨(EntryStep.refl hs).congr ?_ (fun _ _ => Iff.rfl), rfl⟩
    simp
  | cons a active ih =>
    obtain ⟨s₁, hhead, htail⟩ := Exec.forM_cons_eq_ok.mp h
    obtain ⟨_, s₂, hcheck, hwrite⟩ := Exec.bind_eq_ok.mp hhead
    obtain rfl : s = s₂ := congrArg Prod.snd hcheck
    obtain rfl : declaredWrite props (fun p e => putNodeProp l p e n) a s = s₁ :=
      congrArg Prod.snd hwrite
    -- the entry of the first declared index
    have hfirst : EntryStep l n (fun name e => s.getPropKey name = some a.1 ∧
        props.indexed name = some e) (fun _ _ => False) s
        (declaredWrite props (fun p e => putNodeProp l p e n) a s) ∧
        (declaredWrite props (fun p e => putNodeProp l p e n) a s).metaDb.propKeys =
          s.metaDb.propKeys := by
      unfold declaredWrite
      split
      next e he =>
        obtain ⟨name, hname, hindexed⟩ := bind_eq_some_iff.mp he
        have hkey := propKeyName_eq_some.mp hname
        refine ⟨(EntryStep.put hs hkey).congr (fun name' e' => ?_) (fun _ _ => Iff.rfl), rfl⟩
        constructor
        · rintro ⟨hkey', hindexed'⟩
          obtain rfl := getPropKey_inj hkey' hkey
          exact ⟨rfl, some.inj (hindexed'.symm.trans hindexed)⟩
        · rintro ⟨rfl, rfl⟩
          exact ⟨hkey, hindexed⟩
      next hnone =>
        refine ⟨(EntryStep.refl hs).congr (fun name' e' => ?_) (fun _ _ => Iff.rfl), rfl⟩
        simp only [iff_false, not_and]
        intro hkey' hindexed'
        have hname := propKeyName_eq_some.mpr hkey'
        simp [hname, hindexed'] at hnone
    obtain ⟨hrest, hkeys⟩ := ih hfirst.1.named htail
    refine ⟨(hfirst.1.trans_add hrest).congr (fun name e => ?_) (fun _ _ => by simp),
      hkeys.trans hfirst.2⟩
    simp only [mem_cons, exists_eq_or_imp, getPropKey, hfirst.2]
    tauto

lemma indexed_eq_some_iff {name : String} {e : Encoded} :
    props.indexed name = some e ↔
      ∃ field ∈ props.fields, field.1 = name ∧ field.2 ≠ .null ∧
        encodePropertyValue field.2 = some e := by
  simp only [Props.indexed, Prod.exists, Props.mem_fields]
  constructor
  · intro h
    rcases hget : props.get name with _ | v
    · rw [hget] at h
      cases h
    · rw [hget] at h
      dsimp only at h
      split at h
      · cases h
      next hnull => exact ⟨name, v, hget, rfl, hnull, h⟩
  · rintro ⟨_, v, hget, rfl, hnull, he⟩
    simp [hget, hnull, he]

lemma entryStep_autoIndexField (declared : List String) (s : Tables) (field : String × Json)
    (hs : s.KeysNamed) :
    EntryStep l n (fun name e => field.1 = name ∧ field.2 ≠ .null ∧ field.1 ∉ declared ∧
      encodePropertyValue field.2 = some e) (fun _ _ => False) s
      (s.autoIndexField l n declared field) := by
  unfold autoIndexField
  split
  next h =>
    refine (EntryStep.refl hs).congr (fun name e => ?_) (fun _ _ => Iff.rfl)
    tauto
  next h =>
    simp only [not_or] at h
    split
    next hnone =>
      refine (EntryStep.refl hs).congr (fun name e => ?_) (fun _ _ => Iff.rfl)
      simp [hnone]
    next e he =>
      have hkept := propKept_getOrCreatePropKey field.1 s
      have hkey := getPropKey_getOrCreatePropKey field.1 s
      have hput := (EntryStep.of_propKept hkept hs).trans_add
        (EntryStep.put (l := l) (n := n) (e := e) (hkept.keysNamed hs) hkey)
      refine hput.congr (fun name e' => ?_) (fun _ _ => Iff.rfl)
      constructor
      · rintro ⟨rfl, -, -, he'⟩
        exact .inr ⟨rfl, some.inj (he'.symm.trans he)⟩
      · rintro (hfalse | ⟨rfl, rfl⟩)
        · exact hfalse.elim
        · exact ⟨rfl, h.1, h.2, he⟩

variable (props) in
lemma entryStep_autoIndexFields (declared : List String) (hs : s.KeysNamed) :
    EntryStep l n (fun name e => l ∉ s.metaDb.autoIndexOff ∧ name ∉ declared ∧
      props.indexed name = some e) (fun _ _ => False) s
      (s.autoIndexFields l n props declared) := by
  unfold autoIndexFields
  split
  next h =>
    have hoff : l ∈ s.metaDb.autoIndexOff := by simpa [labelAutoIndexDisabled] using h
    refine (EntryStep.refl hs).congr (fun name e => ?_) (fun _ _ => Iff.rfl)
    simp [hoff]
  next h =>
    have hoff : l ∉ s.metaDb.autoIndexOff := by simpa [labelAutoIndexDisabled] using h
    refine (EntryStep.foldl_add (fun s field => entryStep_autoIndexField declared s field) _
      hs).congr (fun name e => ?_) (fun _ _ => Iff.rfl)
    rw [indexed_eq_some_iff]
    constructor
    · rintro ⟨-, hname, field, hmem, rfl, hnull, he⟩
      exact ⟨field, hmem, rfl, hnull, hname, he⟩
    · rintro ⟨field, hmem, rfl, hnull, hname, he⟩
      exact ⟨hoff, hname, field, hmem, rfl, hnull, he⟩

lemma entryStep_unindexField (s : Tables) (field : String × Json) (hs : s.KeysNamed) :
    EntryStep l n (fun _ _ => False) (fun name e => field.1 = name ∧ field.2 ≠ .null ∧
      encodePropertyValue field.2 = some e) s (s.unindexField l n field) := by
  unfold unindexField
  split
  next hnull =>
    refine (EntryStep.refl hs).congr (fun _ _ => Iff.rfl) (fun name e => ?_)
    simp [hnull]
  next hnull =>
    split
    next e p he hp =>
      refine (EntryStep.delete hs hp).congr (fun _ _ => Iff.rfl) (fun name e' => ?_)
      constructor
      · rintro ⟨rfl, -, he'⟩
        exact ⟨rfl, some.inj (he'.symm.trans he)⟩
      · rintro ⟨rfl, rfl⟩
        exact ⟨rfl, hnull, he⟩
    next hno =>
      -- the value has no encoding, or its property no key and so no entry
      refine ⟨hs, rfl, rfl, .refl _, fun l' name e n' => ?_⟩
      split
      swap
      · rfl
      simp only [or_false]
      refine (and_iff_left_of_imp fun hentry hQ => ?_).symm
      obtain ⟨p, hp, -⟩ := hentry
      obtain ⟨rfl, -, he⟩ := hQ
      exact hno e p he hp

variable (props) in
lemma entryStep_unindexDeclared (active : List (PropKeyId × IndexRole)) (hs : s.KeysNamed) :
    EntryStep l n (fun _ _ => False) (fun name e => (∃ a ∈ active, s.getPropKey name = some a.1) ∧
      (props.get name).bind encodePropertyValue = some e) s
      (active.foldl (unindexDeclaredProp l n props) s) ∧
      (active.foldl (unindexDeclaredProp l n props) s).metaDb.propKeys = s.metaDb.propKeys := by
  induction active generalizing s with
  | nil => exact ⟨(EntryStep.refl hs).congr (fun _ _ => Iff.rfl) (by simp), rfl⟩
  | cons a active ih =>
    have hfirst : EntryStep l n (fun _ _ => False) (fun name e => s.getPropKey name = some a.1 ∧
        (props.get name).bind encodePropertyValue = some e) s (s.unindexDeclaredProp l n props a) ∧
        (s.unindexDeclaredProp l n props a).metaDb.propKeys = s.metaDb.propKeys := by
      unfold unindexDeclaredProp
      split
      next hnone =>
        refine ⟨(EntryStep.refl hs).congr (fun _ _ => Iff.rfl) (fun name e => ?_), rfl⟩
        simp only [iff_false, not_and]
        intro hkey
        rw [propKeyName_eq_some.mpr hkey] at hnone
        cases hnone
      next name hname =>
        have hkey := propKeyName_eq_some.mp hname
        have hsame : ∀ name', s.getPropKey name' = some a.1 ↔ name' = name := fun name' =>
          ⟨fun h => getPropKey_inj h hkey, fun h => h ▸ hkey⟩
        split
        next e he =>
          refine ⟨(EntryStep.delete hs hkey).congr (fun _ _ => Iff.rfl) (fun name' e' => ?_), rfl⟩
          rw [hsame]
          constructor
          · rintro ⟨rfl, he'⟩
            exact ⟨rfl, some.inj (he'.symm.trans he)⟩
          · rintro ⟨rfl, rfl⟩
            exact ⟨rfl, he⟩
        next hnone =>
          refine ⟨(EntryStep.refl hs).congr (fun _ _ => Iff.rfl) (fun name' e => ?_), rfl⟩
          rw [hsame]
          simp only [iff_false, not_and]
          rintro rfl
          simp [hnone]
    obtain ⟨hrest, hkeys⟩ := ih hfirst.1.named
    refine ⟨(hfirst.1.trans_remove hrest).congr (fun _ _ => by simp) (fun name e => ?_),
      hkeys.trans hfirst.2⟩
    simp only [mem_cons, exists_eq_or_imp, getPropKey, hfirst.2]
    tauto

variable (props) in
lemma entryStep_unindexProps (hs : s.KeysNamed) :
    EntryStep l n (fun _ _ => False) (fun name e =>
      (s.Declares l name ∧ (props.get name).bind encodePropertyValue = some e) ∨
      (l ∉ s.metaDb.autoIndexOff ∧ props.indexed name = some e)) s (s.unindexProps l n props) := by
  obtain ⟨hdeclared, hkeys⟩ := entryStep_unindexDeclared (l := l) (n := n) props
    (s.getActiveNodeIndexes l) hs
  simp only [unindexProps]
  split
  next h =>
    have hoff : l ∈ s.metaDb.autoIndexOff := by
      rw [← hdeclared.optOut]
      simpa [labelAutoIndexDisabled] using h
    refine hdeclared.congr (fun _ _ => Iff.rfl) (fun name e => ?_)
    rw [exists_active_iff]
    simp [hoff]
  next h =>
    have hoff : l ∉ s.metaDb.autoIndexOff := by
      rw [← hdeclared.optOut]
      simpa [labelAutoIndexDisabled] using h
    have hfields := EntryStep.foldl_remove (l := l) (n := n)
      (fun s field => entryStep_unindexField s field) props.fields hdeclared.named
    refine (hdeclared.trans_remove hfields).congr (fun _ _ => Iff.rfl) (fun name e => ?_)
    rw [exists_active_iff, indexed_eq_some_iff]
    simp [hoff]

end Walks

end Tables

/-! ## Exact entries -/

/-- The property-index entries under the keys of `K` that have non-null values are those of the
entered nodes. An entry of a null value belongs to a declared index and an entered node that stores
the null. -/
structure PropExact (K : LabelId → String → Prop) (s : Tables) (D : Entered) : Prop where
  named : s.KeysNamed
  entries : ∀ l name e n, K l name → e ≠ [encodedNull] → (s.HasEntry l name e n ↔
    ∃ props, D l n = some props ∧ s.Indexes l name ∧ props.indexed name = some e)
  nulls : ∀ l name n, K l name → s.HasEntry l name [encodedNull] n →
    ∃ props, D l n = some props ∧ s.Declares l name ∧ props.get name = some .null

lemma Props.indexed_ne_null {props : Props} {name : String} {e : Encoded}
    (h : props.indexed name = some e) : e ≠ [encodedNull] := by
  obtain ⟨field, -, -, hnull, he⟩ := Tables.indexed_eq_some_iff.mp h
  rintro rfl
  exact hnull (encodePropertyValue_eq_null.mp he)

namespace PropExact

variable {K : LabelId → String → Prop} {s s' : Tables} {D : Entered} {l : LabelId} {n : NodeId}
  {props : Props}

lemma kept (h : PropExact K s D) (hkept : s.PropKept s') : PropExact K s' D where
  named := hkept.keysNamed h.named
  entries l name e n hk he := by
    rw [hkept.hasEntry_iff h.named, hkept.indexes_iff h.named, h.entries l name e n hk he]
  nulls l name n hk hentry := by
    rw [hkept.declares_iff h.named]
    exact h.nulls l name n hk ((hkept.hasEntry_iff h.named).mp hentry)

/-- A node that is not entered under a label has no entry there. -/
theorem not_hasEntry (h : PropExact K s D) (hnone : D l n = none) {name : String}
    (hk : K l name) (e : Encoded) : ¬s.HasEntry l name e n := by
  intro hentry
  by_cases he : e = [encodedNull]
  · subst he
    obtain ⟨props, hD, -⟩ := h.nulls l name n hk hentry
    rw [hnone] at hD
    cases hD
  · obtain ⟨props, hD, -⟩ := (h.entries l name e n hk he).mp hentry
    rw [hnone] at hD
    cases hD

lemma enter {P : String → Encoded → Prop} (h : PropExact K s D) (hnone : D l n = none)
    (hstep : Tables.EntryStep l n P (fun _ _ => False) s s')
    (hP : ∀ name e, P name e ↔ s.Indexes l name ∧ props.indexed name = some e) :
    PropExact K s' (D.set n [l] (some props)) where
  named := hstep.named
  entries l' name e n' hk he := by
    rw [hstep.entries, hstep.indexes_iff h.named]
    split
    next heq =>
      obtain ⟨rfl, rfl⟩ := heq
      simp [Entered.set, hP, h.not_hasEntry hnone hk]
    next heq =>
      rw [Entered.set_of_not heq]
      exact h.entries l' name e n' hk he
  nulls l' name n' hk hentry := by
    rw [hstep.entries] at hentry
    rw [hstep.declares_iff h.named]
    split at hentry
    next heq =>
      obtain ⟨rfl, rfl⟩ := heq
      rcases hentry with ⟨hentry, -⟩ | hentry
      · exact (h.not_hasEntry hnone hk _ hentry).elim
      · exact (Props.indexed_ne_null ((hP _ _).mp hentry).2 rfl).elim
    next heq =>
      rw [Entered.set_of_not heq]
      exact h.nulls l' name n' hk hentry

/-- A walk that removes every entry of a node takes it out. -/
theorem leave {Q : String → Encoded → Prop} (h : PropExact K s D)
    (hstep : Tables.EntryStep l n (fun _ _ => False) Q s s')
    (hQ : ∀ name e, K l name → s.HasEntry l name e n → Q name e) :
    PropExact K s' (D.set n [l] none) where
  named := hstep.named
  entries l' name e n' hk he := by
    rw [hstep.entries, hstep.indexes_iff h.named]
    split
    next heq =>
      obtain ⟨rfl, rfl⟩ := heq
      simp only [Entered.set, mem_singleton, and_self, if_true, or_false]
      refine iff_of_false (fun hc => hc.2 (hQ _ _ hk hc.1)) ?_
      rintro ⟨props, hD, -⟩
      cases hD
    next heq =>
      rw [Entered.set_of_not heq]
      exact h.entries l' name e n' hk he
  nulls l' name n' hk hentry := by
    rw [hstep.entries] at hentry
    rw [hstep.declares_iff h.named]
    split at hentry
    next heq =>
      obtain ⟨rfl, rfl⟩ := heq
      rcases hentry with ⟨hentry, hnot⟩ | hfalse
      · exact (hnot (hQ _ _ hk hentry)).elim
      · exact hfalse.elim
    next heq =>
      rw [Entered.set_of_not heq]
      exact h.nulls l' name n' hk hentry

end PropExact

/-! ## Maintenance -/

namespace Tables

lemma mem_declaredNames {s : Tables} {l : LabelId} {name : String} :
    name ∈ ((s.getActiveNodeIndexes l).filterMap fun a => s.propKeyName a.1) ↔
      s.Declares l name := by
  rw [← exists_active_iff, mem_filterMap]
  simp only [propKeyName_eq_some]

section Text

variable [TextLib]

lemma propKept_addNodePropFtsEntry (n : NodeId) (l : LabelId) (s : Tables)
    (e : PropKeyId × String) : s.PropKept (s.addNodePropFtsEntry n l e.1 e.2) := by
  simp only [addNodePropFtsEntry]
  split
  · exact ⟨rfl, rfl, rfl, .refl _⟩
  · exact .refl s

lemma propKept_removeNodePropFtsEntry (n : NodeId) (l : LabelId) (s : Tables)
    (e : PropKeyId × String) : s.PropKept (s.removeNodePropFtsEntry n l e.1 e.2) := by
  unfold removeNodePropFtsEntry
  split
  · exact .refl s
  · exact ⟨rfl, rfl, rfl, .refl _⟩

lemma propKept_indexNodeFts (n : NodeId) (l : LabelId) (props : Props) (s : Tables) :
    s.PropKept (s.indexNodeFts n l props) :=
  PropKept.foldl (propKept_addNodePropFtsEntry n l) _ s

lemma propKept_deleteNodeFts (n : NodeId) (l : LabelId) (props : Props) (s : Tables) :
    s.PropKept (s.deleteNodeFts n l props) :=
  PropKept.foldl (propKept_removeNodePropFtsEntry n l) _ s

end Text

lemma propKept_register {label property : String} {s s₁ : Tables} {l : LabelId} {p : PropKeyId}
    (h : s.register label property = (l, p, s₁)) : s.PropKept s₁ := by
  obtain ⟨-, -, hs₁, -, hkeys⟩ := register_spec h
  exact ⟨by rw [hs₁], by rw [hs₁], by rw [hs₁], hkeys⟩

end Tables

theorem propExact_maintained [TextLib] {K : LabelId → String → Prop} :
    Maintained (fun _ => True) (PropExact K) where
  congr {s s' D} hsec h := by
    have hentries : s'.nodePropIdx = s.nodePropIdx := congrArg (·.nodePropIdx) hsec
    have hdeclared : s'.metaDb.idxNode = s.metaDb.idxNode := congrArg (·.metaDb.idxNode) hsec
    have hoff : s'.metaDb.autoIndexOff = s.metaDb.autoIndexOff :=
      congrArg (·.metaDb.autoIndexOff) hsec
    have hkeys : s'.metaDb.propKeys = s.metaDb.propKeys := congrArg (·.metaDb.propKeys) hsec
    exact h.kept ⟨hentries, hdeclared, hoff, hkeys ▸ .refl _⟩
  index {s s' D l labelName n props} _ h hnone _ _ hindex := by
    obtain ⟨s₁, hloop, rfl⟩ := Tables.indexNodeForLabel_ok hindex
    obtain ⟨hdeclared, hkeys⟩ := Tables.entryStep_indexDeclared h.named hloop
    have hauto := Tables.entryStep_autoIndexFields (l := l) (n := n) props
      ((s.getActiveNodeIndexes l).filterMap fun a => s.propKeyName a.1) hdeclared.named
    refine (h.enter hnone (hdeclared.trans_add hauto) fun name e => ?_).kept
      (Tables.propKept_indexNodeFts n l props _)
    -- the auto-index covers the names that no declared index has
    rw [Tables.exists_active_iff, Tables.mem_declaredNames, hdeclared.optOut, Tables.Indexes]
    tauto
  unindex {s D l n props} h hsome := by
    refine (h.leave (Tables.entryStep_unindexProps props h.named)
      fun name e hk hentry => ?_).kept (Tables.propKept_deleteNodeFts n l props _)
    by_cases he : e = [encodedNull]
    · subst he
      obtain ⟨props', hD, hdeclares, hget⟩ := h.nulls l name n hk hentry
      obtain rfl : props' = props := some.inj (hD.symm.trans hsome)
      exact .inl ⟨hdeclares, by rw [hget]; rfl⟩
    · obtain ⟨props', hD, hindexes, hindexed⟩ := (h.entries l name e n hk he).mp hentry
      obtain rfl : props' = props := some.inj (hD.symm.trans hsome)
      rcases hindexes with hoff | hdeclares
      · exact .inr ⟨hoff, hindexed⟩
      · refine .inl ⟨hdeclares, ?_⟩
        obtain ⟨field, hmem, rfl, -, he'⟩ := Tables.indexed_eq_some_iff.mp hindexed
        rw [Props.mem_fields.mp hmem]
        exact he'
  createText {s s' label property lang} _ h hcreate := by
    obtain ⟨l, p, s₁, hreg, ⟨-, rfl⟩ | ⟨-, count, total, s₂, hfill, rfl⟩⟩ :=
      Tables.createNodeTextIndex_ok hcreate
    · exact h.kept (Tables.propKept_register hreg)
    · have hentries := Tables.keeps_backfillText (f := Tables.nodePropIdx) (l := l) (p := p)
        (fun _ _ _ => rfl) property lang (s₁.nodesByLabel label) (0, 0) s₁
      have hmeta := Tables.keeps_backfillText (f := Tables.metaDb) (l := l) (p := p)
        (fun _ _ _ => rfl) property lang (s₁.nodesByLabel label) (0, 0) s₁
      rw [hfill] at hentries hmeta
      replace hmeta : s₂.metaDb = s₁.metaDb := hmeta
      have hdeclared : s₂.metaDb.idxNode = s₁.metaDb.idxNode := by rw [hmeta]
      have hoff : s₂.metaDb.autoIndexOff = s₁.metaDb.autoIndexOff := by rw [hmeta]
      have hkeys : s₂.metaDb.propKeys = s₁.metaDb.propKeys := by rw [hmeta]
      have hkept : s₁.PropKept { s₂ with metaDb := { s₂.metaDb with
          ftsMeta := s₂.metaDb.ftsMeta.put (l, p) lang.toU8
          ftsN := s₂.metaDb.ftsN.put (l, p) count
          ftsSumDl := s₂.metaDb.ftsSumDl.put (l, p) total } } :=
        ⟨hentries, hdeclared, hoff, hkeys ▸ .refl _⟩
      exact h.kept ((Tables.propKept_register hreg).trans hkept)
  dropText {s label property} h := by
    rcases hreg : s.register label property with ⟨l, p, s₁⟩
    rw [Tables.dropNodeTextIndex_eq hreg]
    have h₁ := h.kept (Tables.propKept_register hreg)
    split
    · exact h₁.kept ⟨rfl, rfl, rfl, .refl _⟩
    · exact h₁

end IssunDB
