import IssunDB.Adjacency

/-!
# Whether the schema has an edge

The optimizer asks whether any edge leads from one label to another along a relationship type. The
question is answered from a table of realized triples, or by a walk of the label index and the
adjacency that stops when a budget is spent.

* `Tables.HasEdge` — the question, on the stored records;
* `EdgeFanout.build`, `EdgeFanout.build_spec` — the table holds the triples that are realized;
* `Storage.probeSchemaEdge`, `Storage.Sound.probeSchemaEdge_spec` — what the walk decides is right,
  whatever the budget.
-/

namespace IssunDB

open List Option

def Tables.Carries (s : Tables) (n : NodeId) (l : LabelId) : Prop :=
  ∃ r, s.nodes.get n = some r ∧ l ∈ r.labels

/-- Some edge of a type leads from a node with one label to a node with another. -/
def Tables.HasEdge (s : Tables) (src : LabelId) (type : TypeId) (dst : LabelId) : Prop :=
  ∃ id r, s.edges.get id = some r ∧ r.edgeType = type ∧ s.Carries r.src src ∧ s.Carries r.dst dst

/-! ## The table -/

/-- The key of a directed triple: source label, type and target label. -/
abbrev Triple := LabelId × TypeId × LabelId

/-- Edge counts by triple, with the write generation that they reflect. -/
structure EdgeFanout where
  generation : ℕ
  triples : Table Triple ℕ

def countKeys {K : Type} [DecidableEq K] (keys : List K) : Table K ℕ :=
  keys.foldl (fun counts key => counts.put key ((counts.get key).getD 0 + 1)) .empty

def Tables.labelsOf (s : Tables) (n : NodeId) : List LabelId :=
  ((s.labelIdx.filter fun entry => entry.2 = n).image Prod.fst).ascending

/-- Every outgoing entry under its source, in the order of the table. -/
def Adjacency.iterOut (a : Adjacency) : List (NodeId × AdjEntry) :=
  (a.outAdj.image Prod.fst).ascending.flatMap fun n => (a.entries n true).map fun e => (n, e)

/-- Build the table from the label index and the outgoing adjacency. -/
def EdgeFanout.build (s : Storage) (generation : ℕ) : EdgeFanout where
  generation := generation
  triples := countKeys <| s.adj.iterOut.flatMap fun edge =>
    (s.tables.labelsOf edge.1).flatMap fun src =>
      (s.tables.labelsOf edge.2.other).map fun dst => (src, edge.2.edgeType, dst)

lemma isSome_countKeys {K : Type} [DecidableEq K] (keys : List K) (key : K) :
    ((countKeys keys).get key).isSome ↔ key ∈ keys := by
  have hfold : ∀ (keys : List K) (counts : Table K ℕ),
      ((keys.foldl (fun counts key => counts.put key ((counts.get key).getD 0 + 1)) counts).get
        key).isSome ↔ key ∈ keys ∨ (counts.get key).isSome := by
    intro keys
    induction keys with
    | nil => simp
    | cons k keys ih =>
      intro counts
      rw [foldl_cons, ih, Table.get_put, mem_cons]
      split
      next heq => simp [heq]
      next hne => simp [hne]
  rw [countKeys, hfold]
  simp

namespace Storage

variable {s : Storage} {n : NodeId}

lemma Sound.mem_labelIdx (h : s.Sound) {l : LabelId} :
    (l, n) ∈ s.tables.labelIdx ↔ s.tables.Carries n l :=
  h.work.nodes.labelIdx_iff l n

lemma Sound.mem_labelsOf (h : s.Sound) {l : LabelId} :
    l ∈ s.tables.labelsOf n ↔ s.tables.Carries n l := by
  rw [← h.mem_labelIdx, Tables.labelsOf, Finset.mem_ascending]
  simp

lemma Sound.mem_entries (h : s.Sound) {o : Bool} {e : AdjEntry} :
    e ∈ s.adj.entries n o ↔ ∃ r, s.tables.edges.get e.edgeId = some r ∧
    r.entry o e.edgeId = (n, e) := by
  have hlist := h.lists o
  rw [Txn.allEntries_of_flushed (by rintro (_ | _) <;> rfl)] at hlist
  refine (Txn.mem_entries_of_lists hlist (fun _ => trivial) e).trans ?_
  constructor
  · rintro ⟨id, r, hget, hentry⟩
    have hid : e.edgeId = id := by simpa using (congrArg (·.2.edgeId) hentry).symm
    exact ⟨r, hid ▸ hget, hid ▸ hentry⟩
  · rintro ⟨r, hget, hentry⟩
    exact ⟨e.edgeId, r, hget, hentry⟩

lemma mem_iterOut {a : Adjacency} {e : AdjEntry} :
    (n, e) ∈ a.iterOut ↔ e ∈ a.entries n true := by
  simp only [Adjacency.iterOut, mem_flatMap, Finset.mem_ascending, Finset.mem_image,
    List.mem_map, Prod.mk.injEq]
  constructor
  · rintro ⟨n', -, e', he, rfl, rfl⟩
    exact he
  · intro he
    exact ⟨n, ⟨(n, e), Txn.mem_entries.mp he, rfl⟩, e, he, rfl, rfl⟩

/-- The edge of a triple, found from either end. -/
theorem Sound.hasEdge_iff (h : s.Sound) (o : Bool) {src dst : LabelId} {type : TypeId} :
    s.tables.HasEdge src type dst ↔ ∃ n e, e ∈ s.adj.entries n o ∧ e.edgeType = type ∧
      s.tables.Carries n (if o then src else dst) ∧
      s.tables.Carries e.other (if o then dst else src) := by
  constructor
  · rintro ⟨id, r, hget, rfl, hsrc, hdst⟩
    refine ⟨(r.entry o id).1, (r.entry o id).2, h.mem_entries.mpr ⟨r, ?_, ?_⟩, ?_, ?_, ?_⟩
    · rwa [EdgeRecord.entry_edgeId]
    · rw [EdgeRecord.entry_edgeId]
    · rw [EdgeRecord.entry_edgeType]
    · cases o <;> assumption
    · cases o <;> assumption
  · rintro ⟨n, e, he, rfl, hn, hother⟩
    obtain ⟨r, hget, hentry⟩ := h.mem_entries.mp he
    refine ⟨e.edgeId, r, hget, ?_, ?_, ?_⟩
    · rw [← EdgeRecord.entry_edgeType o e.edgeId r, hentry]
    · cases o with
      | true => exact (show r.src = n from congrArg Prod.fst hentry) ▸ hn
      | false => exact (show r.src = e.other from congrArg (·.2.other) hentry) ▸ hother
    · cases o with
      | true => exact (show r.dst = e.other from congrArg (·.2.other) hentry) ▸ hother
      | false => exact (show r.dst = n from congrArg Prod.fst hentry) ▸ hn

end Storage

/-- The table holds a triple iff some edge realizes it. -/
theorem EdgeFanout.build_spec {s : Storage} (h : s.Sound) (generation : ℕ) (src dst : LabelId)
    (type : TypeId) :
    ((build s generation).triples.get (src, type, dst)).isSome ↔ s.tables.HasEdge src type dst := by
  rw [h.hasEdge_iff true, build, isSome_countKeys]
  simp only [mem_flatMap, List.mem_map, Prod.exists, Prod.mk.injEq, Storage.mem_iterOut,
    h.mem_labelsOf, if_true]
  constructor
  · rintro ⟨n, e, he, src', hsrc, dst', hdst, rfl, rfl, rfl⟩
    exact ⟨n, e, he, rfl, hsrc, hdst⟩
  · rintro ⟨n, e, he, rfl, hsrc, hdst⟩
    exact ⟨n, e, he, src, hsrc, dst, hdst, rfl, rfl, rfl⟩

/-! ## The walk -/

namespace Storage

/-- Walk the entries of a node. An entry costs one probe, and one more if it has the type. Either
the walk of the nodes ends, undecided or with a match, or it goes on with what is left. -/
def probeEntries (s : Storage) (type : TypeId) (other : LabelId) :
    List AdjEntry → ℕ → Except (Option Bool) ℕ
  | [], budget => .ok budget
  | e :: entries, budget =>
    match budget with
    | 0 => .error none
    | budget + 1 =>
      if e.edgeType ≠ type then s.probeEntries type other entries budget
      else
        match budget with
        | 0 => .error none
        | budget + 1 =>
          if (other, e.other) ∈ s.tables.labelIdx then .error (some true)
          else s.probeEntries type other entries budget

def probeNodes (s : Storage) (type : TypeId) (other : LabelId) (outgoing : Bool) :
    List NodeId → ℕ → Option Bool
  | [], _ => some false
  | n :: nodes, budget =>
    match budget with
    | 0 => none
    | budget + 1 =>
      match s.probeEntries type other (s.adj.entries n outgoing) budget with
      | .error verdict => verdict
      | .ok budget => s.probeNodes type other outgoing nodes budget

/-- Decide a triple by walking the smaller population, with at most `budget` probes. -/
def probeSchemaEdge (s : Storage) (src : LabelId) (type : TypeId) (dst : LabelId) (budget : ℕ) :
    Option Bool :=
  let (walk, other, outgoing) :=
    if s.tables.getLabelCount src ≤ s.tables.getLabelCount dst then (src, dst, true)
    else (dst, src, false)
  if s.tables.labelIdx.under other = ∅ then some false
  else s.probeNodes type other outgoing (s.tables.labelIdx.under walk).ascending budget

/-- An entry that realizes the triple. -/
def Matches (s : Storage) (type : TypeId) (other : LabelId) (e : AdjEntry) : Prop :=
  e.edgeType = type ∧ (other, e.other) ∈ s.tables.labelIdx

/-- The walk of entries ends with a match only at one, never with a denial, and goes on only past
entries that do not match. -/
def EntriesDecided (s : Storage) (type : TypeId) (other : LabelId) (entries : List AdjEntry) :
    Except (Option Bool) ℕ → Prop
  | .error (some true) => ∃ e ∈ entries, s.Matches type other e
  | .error (some false) => False
  | .error none => True
  | .ok _ => ∀ e ∈ entries, ¬ s.Matches type other e

variable {type : TypeId} {s : Storage}

lemma EntriesDecided.cons {other : LabelId} {entries : List AdjEntry}
    {outcome : Except (Option Bool) ℕ} (h : s.EntriesDecided type other entries outcome)
    {e : AdjEntry} (he : ¬ s.Matches type other e) :
    s.EntriesDecided type other (e :: entries) outcome := by
  rcases outcome with (_ | _ | _) | budget
  · trivial
  · exact h
  · obtain ⟨e', he', hmatch⟩ := h
    exact ⟨e', mem_cons_of_mem _ he', hmatch⟩
  · exact forall_mem_cons.mpr ⟨he, h⟩

lemma probeEntries_spec (s : Storage) (type : TypeId) (other : LabelId) (entries : List AdjEntry)
    (budget : ℕ) :
    s.EntriesDecided type other entries (s.probeEntries type other entries budget) := by
  induction entries generalizing budget with
  | nil => exact fun e he => (by cases he)
  | cons e entries ih =>
    unfold probeEntries
    split
    · trivial
    next budget =>
      split
      next hne => exact (ih budget).cons fun hmatch => hne hmatch.1
      next heq =>
        split
        · trivial
        next budget =>
          split
          next hmem => exact ⟨e, mem_cons_self, not_not.mp heq, hmem⟩
          next hmem => exact (ih budget).cons fun hmatch => hmem hmatch.2

lemma probeNodes_spec {other : LabelId} {outgoing : Bool} {nodes : List NodeId} {budget : ℕ}
    {b : Bool} (h : s.probeNodes type other outgoing nodes budget = some b) :
    b = true ↔ ∃ n ∈ nodes, ∃ e ∈ s.adj.entries n outgoing, s.Matches type other e := by
  induction nodes generalizing budget with
  | nil =>
    obtain rfl := some.inj h
    simp
  | cons n nodes ih =>
    unfold probeNodes at h
    split at h
    · cases h
    next budget =>
      have hentries := s.probeEntries_spec type other (s.adj.entries n outgoing) budget
      rcases hprobe : s.probeEntries type other (s.adj.entries n outgoing) budget with
        (_ | _ | _) | left
      · simp [hprobe] at h
      · rw [hprobe] at hentries
        exact hentries.elim
      · rw [hprobe] at hentries h
        obtain rfl := some.inj h
        exact iff_of_true rfl ⟨n, mem_cons_self, hentries⟩
      · rw [hprobe] at hentries h
        -- no entry of this node matches
        rw [ih h]
        constructor
        · rintro ⟨n', hn', hmatch⟩
          exact ⟨n', mem_cons_of_mem _ hn', hmatch⟩
        · rintro ⟨n', hn', e, he, hmatch⟩
          rcases mem_cons.mp hn' with rfl | hrest
          · exact absurd hmatch (hentries e he)
          · exact ⟨n', hrest, e, he, hmatch⟩

/-- What the walk decides is right, whatever the budget and the counts that pick the side. -/
theorem Sound.probeSchemaEdge_spec (h : s.Sound) {src dst : LabelId} {budget : ℕ} {b : Bool}
    (hprobe : s.probeSchemaEdge src type dst budget = some b) :
    b = true ↔ s.tables.HasEdge src type dst := by
  have hside : ∀ (o : Bool) (walk other : LabelId), walk = (if o then src else dst) →
      other = (if o then dst else src) →
      (if s.tables.labelIdx.under other = ∅ then some false
        else s.probeNodes type other o (s.tables.labelIdx.under walk).ascending budget) = some b →
      (b = true ↔ s.tables.HasEdge src type dst) := by
    intro o walk other hwalk hother hsome
    rw [h.hasEdge_iff o, ← hwalk, ← hother]
    split at hsome
    next hempty =>
      obtain rfl := some.inj hsome
      refine iff_of_false (by simp) ?_
      rintro ⟨n, e, -, -, -, hcarries⟩
      have hmem := Finset.mem_under.mpr (h.mem_labelIdx.mpr hcarries)
      rw [hempty] at hmem
      cases hmem
    next =>
      rw [probeNodes_spec hsome]
      simp only [Finset.mem_ascending, Finset.mem_under, h.mem_labelIdx, Matches]
      constructor
      · rintro ⟨n, hn, e, he, htype, hother⟩
        exact ⟨n, e, he, htype, hn, hother⟩
      · rintro ⟨n, e, he, htype, hn, hother⟩
        exact ⟨n, hn, e, he, htype, hother⟩
  unfold probeSchemaEdge at hprobe
  by_cases hcount : s.tables.getLabelCount src ≤ s.tables.getLabelCount dst
  · simp only [hcount, if_true] at hprobe
    exact hside true src dst rfl rfl hprobe
  · simp only [hcount, if_false] at hprobe
    exact hside false dst src rfl rfl hprobe

end Storage

end IssunDB
