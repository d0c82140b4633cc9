import IssunDB.Lib.Interleaving
import IssunDB.Names
import IssunDB.SchemaEdges

/-!
# Answers to schema questions

`schema_has_edge` answers from the table of realized triples if it carries the current write
generation, else from the memo of earlier probes of this generation, else by a probe of its own read
transaction, which it files in the memo only if the generation has not moved since before the
transaction was opened. Writers commit and then advance the generation.

* `SchemaProbes.State.step` — writers, calls of `schema_has_edge` and of
  `materialize_edge_statistics`, a section at a time;
* `SchemaProbes.State.Invariant` — what the table, the memo and open calls hold while their
  generation is current;
* `SchemaProbes.answers_sound` — the answers of every run.
-/

namespace IssunDB

open List Option

namespace SchemaProbes

/-- The names of a question. -/
structure Question where
  srcLabel : String
  relType : String
  dstLabel : String

end SchemaProbes

open SchemaProbes

/-- The ids of the names of a question; none if a name is not registered. -/
def Tables.resolve (s : Tables) (q : Question) : Option Triple :=
  match s.getLabel q.srcLabel, s.getType q.relType, s.getLabel q.dstLabel with
  | some src, some type, some dst => some (src, type, dst)
  | _, _, _ => none

/-- Some edge realizes a triple. -/
def Tables.Realizes (s : Tables) (key : Triple) : Prop := s.HasEdge key.1 key.2.1 key.2.2

/-- The graph has an edge that matches a question. -/
def Tables.Answers (s : Tables) (q : Question) : Prop :=
  ∃ key, s.resolve q = some key ∧ s.Realizes key

namespace SchemaProbes

/-- Where a thread stands. A call that has opened its read transaction carries the database that the
transaction sees and the generation of its writes. -/
inductive Phase where
  | idle
  | asked (q : Question) (probeGen : ℕ)
  | reading (q : Question) (probeGen : ℕ) (snap : Storage) (snapGen : ℕ)
  | missedTable (q : Question) (probeGen : ℕ) (snap : Storage) (snapGen : ℕ) (key : Triple)
  | missedMemo (q : Question) (probeGen : ℕ) (snap : Storage) (snapGen : ℕ) (key : Triple)
  | probed (q : Question) (probeGen : ℕ) (snap : Storage) (snapGen : ℕ) (key : Triple)
      (verdict : Option Bool)
  | building (generation : ℕ)
  | built (table : EdgeFanout)

/-- An answer that a call returned, with the generation that it was answered for and whether no
write was between its commit and its advance of the generation when it was returned. -/
structure Answer where
  question : Question
  answer : Bool
  generation : ℕ
  quiet : Bool

/-- The committed graph, the published write generation, the cached table and memo, and the threads.
The committed databases by generation and the answers are kept to state what holds. -/
structure State where
  graph : Graph
  writeGen : ℕ
  table : Option EdgeFanout
  memo : ℕ × Table Triple (Option Bool)
  threads : Threads Phase
  committed : ℕ → Storage
  answers : List Answer

def State.opened (s : Storage) : State where
  graph := { Graph.empty with storage := s }
  writeGen := Graph.empty.writeGen
  table := none
  memo := (0, .empty)
  threads := fun _ => .idle
  committed := fun _ => s
  answers := []

/-- The sections of writers and readers. -/
inductive Step where
  /-- A writer commits. -/
  | commit (a : Graph.Action)
  /-- The writer advances the write generation. -/
  | advance
  /-- A call reads the generation. -/
  | ask (t : ℕ) (q : Question)
  /-- The call opens its read transaction. -/
  | openTxn (t : ℕ)
  /-- The call resolves the names and looks at the table, under its lock. -/
  | consultTable (t : ℕ)
  /-- The call looks at the memo, under its lock. -/
  | recallMemo (t : ℕ)
  /-- The call probes its transaction with some budget. -/
  | probe (t : ℕ) (budget : ℕ)
  /-- The call files the verdict, under the lock of the memo, and returns it. -/
  | memoize (t : ℕ)
  /-- A call of `materialize_edge_statistics` reads the generation, under the lock of the table. -/
  | materialize (t : ℕ)
  /-- The call builds a table in a read transaction. -/
  | build (t : ℕ)
  /-- The call installs the table, unless a newer one is there. -/
  | install (t : ℕ)

def State.move (s : State) (t : ℕ) (p : Phase) : State := { s with threads := s.threads.move t p }

def State.answer (s : State) (t : ℕ) (q : Question) (b : Bool) (generation : ℕ) : State :=
  { s.move t .idle with
    answers := s.answers ++ [⟨q, b, generation, decide (s.writeGen = s.graph.writeGen)⟩] }

section Sections

variable [TextLib]

/-- One section, if it is enabled. -/
def State.step : Step → State → Option State
  | .commit a, s =>
    if s.writeGen ≠ s.graph.writeGen then none
    else
      let graph := (Graph.perform a s.graph).2
      some { s with
        graph := graph
        committed := Function.update s.committed graph.writeGen graph.storage }
  | .advance, s =>
    if s.writeGen = s.graph.writeGen then none
    else some { s with writeGen := s.graph.writeGen }
  | .ask t q, s =>
    match s.threads t with
    | .idle => some (s.move t (.asked q s.writeGen))
    | _ => none
  | .openTxn t, s =>
    match s.threads t with
    | .asked q probeGen => some (s.move t (.reading q probeGen s.graph.storage s.graph.writeGen))
    | _ => none
  | .consultTable t, s =>
    match s.threads t with
    | .reading q probeGen snap snapGen =>
      match snap.tables.resolve q with
      | none => some (s.move t .idle)
      | some key =>
        match s.table with
        | some table =>
          if table.generation = s.writeGen then
            some (s.answer t q (table.triples.get key).isSome table.generation)
          else some (s.move t (.missedTable q probeGen snap snapGen key))
        | none => some (s.move t (.missedTable q probeGen snap snapGen key))
    | _ => none
  | .recallMemo t, s =>
    match s.threads t with
    | .missedTable q probeGen snap snapGen key =>
      match if s.memo.1 = s.writeGen then s.memo.2.get key else none with
      | some (some b) => some (s.answer t q b s.memo.1)
      | some none => some (s.move t .idle)
      | none => some (s.move t (.missedMemo q probeGen snap snapGen key))
    | _ => none
  | .probe t budget, s =>
    match s.threads t with
    | .missedMemo q probeGen snap snapGen key =>
      some (s.move t (.probed q probeGen snap snapGen key
        (snap.probeSchemaEdge key.1 key.2.1 key.2.2 budget)))
    | _ => none
  | .memoize t, s =>
    match s.threads t with
    | .probed q probeGen _ snapGen key verdict =>
      -- the verdict is filed only if the generation has not moved
      let memo :=
        if s.writeGen ≠ probeGen then s.memo
        else
          let memo := if s.memo.1 ≠ s.writeGen then (s.writeGen, .empty) else s.memo
          (memo.1, memo.2.put key verdict)
      let s := { s with memo := memo }
      match verdict with
      | some b => some (s.answer t q b snapGen)
      | none => some (s.move t .idle)
    | _ => none
  | .materialize t, s =>
    match s.threads t with
    | .idle =>
      if s.table.map EdgeFanout.generation = some s.writeGen then some s
      else some (s.move t (.building s.writeGen))
    | _ => none
  | .build t, s =>
    match s.threads t with
    | .building generation => some (s.move t (.built (.build s.graph.storage generation)))
    | _ => none
  | .install t, s =>
    match s.threads t with
    | .built table =>
      if (s.table.any fun other => table.generation < other.generation) then some (s.move t .idle)
      else some { s.move t .idle with table := some table }
    | _ => none

/-! ## What holds while a generation is current -/

/-- A property of the committed tables that was established for a generation holds as long as the
generation is current and no writer is between its commit and its advance. -/
def State.WhileCurrent (s : State) (generation : ℕ) (p : Tables → Prop) : Prop :=
  generation ≤ s.writeGen ∧
    (generation = s.writeGen → s.writeGen = s.graph.writeGen → p s.graph.storage.tables)

/-- A call's transaction: it sees the records of the generation of its writes, opened after the
generation was read. -/
structure State.Snapshot (s : State) (probeGen : ℕ) (snap : Storage) (snapGen : ℕ) : Prop where
  sound : snap.Sound
  probe_le : probeGen ≤ snapGen
  gen_le : snapGen ≤ s.graph.writeGen
  records : Graph.SameRecords snap.tables (s.committed snapGen).tables
  names : NamesGrow snap.tables (s.committed snapGen).tables
  names_graph : NamesGrow snap.tables s.graph.storage.tables

/-- A table holds exactly the triples that are realized. -/
def Lists (table : EdgeFanout) (s : Tables) : Prop :=
  ∀ key, (table.triples.get key).isSome ↔ s.Realizes key

def State.Knows (s : State) : Phase → Prop
  | .idle => True
  | .asked _ probeGen => probeGen ≤ s.writeGen
  | .reading _ probeGen snap snapGen => s.Snapshot probeGen snap snapGen
  | .missedTable q probeGen snap snapGen key | .missedMemo q probeGen snap snapGen key =>
    s.Snapshot probeGen snap snapGen ∧ snap.tables.resolve q = some key
  | .probed q probeGen snap snapGen key verdict =>
    s.Snapshot probeGen snap snapGen ∧ snap.tables.resolve q = some key ∧
      ∀ b, verdict = some b → (b = true ↔ snap.tables.Realizes key)
  | .building generation => generation ≤ s.writeGen
  | .built table => s.WhileCurrent table.generation (Lists table)

/-- An answer is right about the committed graph of its generation. -/
structure State.Right (s : State) (a : Answer) : Prop where
  gen_le : a.generation ≤ s.graph.writeGen
  right : a.quiet = true → ∃ key, (s.committed a.generation).tables.resolve a.question = some key ∧
    (a.answer = true ↔ (s.committed a.generation).tables.Realizes key)

/-- What holds after every run. -/
structure State.Invariant (s : State) : Prop where
  sound : s.graph.storage.Sound
  gen_le : s.writeGen ≤ s.graph.writeGen
  committed : s.committed s.graph.writeGen = s.graph.storage
  table : ∀ table, s.table = some table → s.WhileCurrent table.generation (Lists table)
  memo : ∀ key b, s.memo.2.get key = some (some b) →
    s.WhileCurrent s.memo.1 fun tables => b = true ↔ tables.Realizes key
  threads : ∀ t, s.Knows (s.threads t)
  answers : ∀ a ∈ s.answers, s.Right a

variable {s s' : State}

omit [TextLib] in
lemma realizes_congr {s s' : Tables} (h : Graph.SameRecords s s') (key : Triple) :
    s'.Realizes key ↔ s.Realizes key := by
  simp only [Tables.Realizes, Tables.HasEdge, Tables.Carries, h.nodes, h.edges]

variable {q : Question} {generation : ℕ} {p : Phase} {t : ℕ}

omit [TextLib] in
lemma resolve_grow {s s' : Tables} (h : NamesGrow s s') {key : Triple}
    (hkey : s.resolve q = some key) : s'.resolve q = some key := by
  unfold Tables.resolve at hkey ⊢
  split at hkey
  next src type dst hsrc htype hdst =>
    have hsrc' : s'.getLabel q.srcLabel = some src := h.labels _ _ hsrc
    have htype' : s'.getType q.relType = some type := h.types _ _ htype
    have hdst' : s'.getLabel q.dstLabel = some dst := h.labels _ _ hdst
    rw [hsrc', htype', hdst']
    exact hkey
  next => cases hkey

lemma State.WhileCurrent.commit {s : State} {p : Tables → Prop} (h : s.WhileCurrent generation p)
    (hp : ∀ {s s'}, Graph.SameRecords s s' → p s → p s') (hquiet : s.writeGen = s.graph.writeGen)
    (a : Graph.Action) (committed : ℕ → Storage) :
    State.WhileCurrent { s with graph := (Graph.perform a s.graph).2, committed := committed }
      generation p := by
  refine ⟨h.1, fun hgen hsame => ?_⟩
  have hunpublished : (Graph.perform a s.graph).2.writeGen = s.graph.writeGen :=
    hsame.symm.trans hquiet
  exact hp (Graph.sameRecords_perform hunpublished) (h.2 hgen hquiet)

omit [TextLib] in
lemma State.WhileCurrent.advance {s : State} {p : Tables → Prop} (h : s.WhileCurrent generation p)
    (hle : s.writeGen ≤ s.graph.writeGen) (hne : s.writeGen ≠ s.graph.writeGen) :
    State.WhileCurrent { s with writeGen := s.graph.writeGen } generation p := by
  refine ⟨h.1.trans hle, fun hgen _ => absurd h.1 ?_⟩
  have hgen : generation = s.graph.writeGen := hgen
  omega

omit [TextLib] in
lemma lists_congr {table : EdgeFanout} {s s' : Tables} (h : Graph.SameRecords s s')
    (hs : Lists table s) : Lists table s' :=
  fun key => (hs key).trans (realizes_congr h key).symm

lemma committed_commit (h : s.Invariant) (a : Graph.Action) {n : ℕ} (hn : n ≤ s.graph.writeGen) :
    Graph.SameRecords (s.committed n).tables
        (Function.update s.committed (Graph.perform a s.graph).2.writeGen
          (Graph.perform a s.graph).2.storage n).tables ∧
      NamesGrow (s.committed n).tables
        (Function.update s.committed (Graph.perform a s.graph).2.writeGen
          (Graph.perform a s.graph).2.storage n).tables := by
  have hle := Graph.writeGen_le_perform a s.graph
  by_cases heq : n = (Graph.perform a s.graph).2.writeGen
  · have hunpublished : (Graph.perform a s.graph).2.writeGen = s.graph.writeGen := by omega
    rw [heq, Function.update_self, hunpublished, h.committed]
    exact ⟨Graph.sameRecords_perform hunpublished, Graph.namesGrow_perform a s.graph⟩
  · rw [Function.update_of_ne heq]
    exact ⟨⟨rfl, rfl⟩, .refl _⟩

omit [TextLib] in
/-- What a thread knows stays, if transactions and tables stay what they are. -/
theorem State.Knows.mono (h : s.Knows p) (hgen : s.writeGen ≤ s'.writeGen)
    (hsnap : ∀ {probeGen snap snapGen}, s.Snapshot probeGen snap snapGen →
      s'.Snapshot probeGen snap snapGen)
    (htable : ∀ {table}, s.WhileCurrent table.generation (Lists table) →
        s'.WhileCurrent table.generation (Lists table)) :
    s'.Knows p := by
  cases p with
  | idle => trivial
  | asked q probeGen => exact le_trans (show probeGen ≤ s.writeGen from h) hgen
  | building generation => exact le_trans (show generation ≤ s.writeGen from h) hgen
  | reading q probeGen snap snapGen => exact hsnap h
  | missedTable q probeGen snap snapGen key => exact ⟨hsnap h.1, h.2⟩
  | missedMemo q probeGen snap snapGen key => exact ⟨hsnap h.1, h.2⟩
  | probed q probeGen snap snapGen key verdict => exact ⟨hsnap h.1, h.2⟩
  | built table => exact htable h

lemma State.Snapshot.commit (hinv : s.Invariant) {probeGen snapGen : ℕ} {snap : Storage}
    (h : s.Snapshot probeGen snap snapGen) (a : Graph.Action) :
    State.Snapshot { s with
      graph := (Graph.perform a s.graph).2
      committed := Function.update s.committed (Graph.perform a s.graph).2.writeGen
        (Graph.perform a s.graph).2.storage } probeGen snap snapGen := by
  obtain ⟨hrecords, hnames⟩ := committed_commit hinv a h.gen_le
  exact ⟨h.sound, h.probe_le, h.gen_le.trans (Graph.writeGen_le_perform a s.graph),
    h.records.trans hrecords, h.names.trans hnames,
    h.names_graph.trans (Graph.namesGrow_perform a s.graph)⟩

/-- **Commit.** -/
theorem State.Invariant.commit (h : s.Invariant) {a : Graph.Action}
    (hstep : s.step (.commit a) = some s') : s'.Invariant := by
  simp only [State.step] at hstep
  split at hstep
  · cases hstep
  next hquiet =>
    have hquiet := not_not.mp hquiet
    obtain rfl := some.inj hstep
    refine ⟨?_, h.gen_le.trans (Graph.writeGen_le_perform a s.graph),
      Function.update_self .., ?_, ?_,
      fun t => ?_, fun answer hmem => ?_⟩
    · exact Graph.sound_invariant.perform (Graph.admissible_of_forall (fun _ => trivial)
        (fun _ _ => trivial) [a] s.graph).1 h.sound
    · exact fun table htable => (h.table table htable).commit lists_congr hquiet a _
    · exact fun key b hget => (h.memo key b hget).commit
        (fun hsame hb => hb.trans (realizes_congr hsame key).symm) hquiet a _
    · exact (h.threads t).mono (le_refl _) (fun hsnap => State.Snapshot.commit h hsnap a)
        fun htable => htable.commit lists_congr hquiet a _
    · have hright := h.answers answer hmem
      obtain ⟨hrecords, hnames⟩ := committed_commit h a hright.gen_le
      refine ⟨hright.gen_le.trans (Graph.writeGen_le_perform a s.graph), fun hq => ?_⟩
      obtain ⟨key, hkey, hanswer⟩ := hright.right hq
      exact ⟨key, resolve_grow hnames hkey, hanswer.trans (realizes_congr hrecords key).symm⟩

/-- **Advance.** Nothing that was cached is of the new generation. -/
theorem State.Invariant.advance (h : s.Invariant) (hstep : s.step .advance = some s') :
    s'.Invariant := by
  simp only [State.step] at hstep
  split at hstep
  · cases hstep
  next hne =>
    obtain rfl := some.inj hstep
    refine ⟨h.sound, le_refl _, h.committed,
      fun table htable => (h.table table htable).advance h.gen_le hne,
      fun key b hget => (h.memo key b hget).advance h.gen_le hne, fun t => ?_,
      fun answer hmem => ⟨(h.answers answer hmem).gen_le, (h.answers answer hmem).right⟩⟩
    refine (h.threads t).mono h.gen_le (fun hsnap => ?_) fun htable => htable.advance h.gen_le hne
    exact ⟨hsnap.sound, hsnap.probe_le, hsnap.gen_le, hsnap.records, hsnap.names, hsnap.names_graph⟩

omit [TextLib] in
/-- What a thread knows is about the graph and the generation. -/
theorem State.Knows.congr (h : s.Knows p) (hgraph : s'.graph = s.graph)
    (hgen : s'.writeGen = s.writeGen) (hcommitted : s'.committed = s.committed) : s'.Knows p := by
  refine h.mono hgen.ge (fun hsnap => ?_) fun htable => ?_
  · exact ⟨hsnap.sound, hsnap.probe_le, hgraph ▸ hsnap.gen_le, hcommitted ▸ hsnap.records,
      hcommitted ▸ hsnap.names, hgraph ▸ hsnap.names_graph⟩
  · unfold State.WhileCurrent
    rw [hgraph, hgen]
    exact htable

omit [TextLib] in
/-- A thread moves to where it knows enough. -/
theorem State.Invariant.move (h : s.Invariant) (hp : s.Knows p) :
    (s.move t p).Invariant := by
  have hsame : ∀ {q : Phase}, s.Knows q → (s.move t p).Knows q := fun hq => hq.congr rfl rfl rfl
  refine ⟨h.sound, h.gen_le, h.committed, h.table, h.memo, ?_,
    fun a ha => ⟨(h.answers a ha).gen_le, (h.answers a ha).right⟩⟩
  exact Threads.forall_move (Q := fun _ q => (s.move t p).Knows q) (hsame hp)
    fun t' _ => hsame (h.threads t')

omit [TextLib] in
lemma State.Invariant.answer (h : s.Invariant) {b : Bool} (hle : generation ≤ s.graph.writeGen)
    (hright : s.writeGen = s.graph.writeGen → ∃ key, (s.committed generation).tables.resolve q =
      some key ∧ (b = true ↔ (s.committed generation).tables.Realizes key)) :
    (s.answer t q b generation).Invariant := by
  have hmoved := h.move (t := t) (p := .idle) trivial
  refine ⟨hmoved.sound, hmoved.gen_le, hmoved.committed, hmoved.table, hmoved.memo,
    fun t' => (hmoved.threads t').congr rfl rfl rfl, fun a ha => ?_⟩
  rcases mem_append.mp ha with hold | hnew
  · exact ⟨(h.answers a hold).gen_le, (h.answers a hold).right⟩
  · obtain rfl := mem_singleton.mp hnew
    exact ⟨hle, fun hquiet => hright (of_decide_eq_true hquiet)⟩

omit [TextLib] in
/-- A call whose question was resolved in its transaction, while no write is in progress: the
committed graph resolves it to the same ids. -/
theorem State.Invariant.current (h : s.Invariant) {probeGen snapGen : ℕ} {snap : Storage}
    {key : Triple} (hsnap : s.Snapshot probeGen snap snapGen)
    (hkey : snap.tables.resolve q = some key) (hquiet : s.writeGen = s.graph.writeGen) :
    (s.committed s.writeGen).tables.resolve q = some key ∧
      (s.committed s.writeGen).tables = s.graph.storage.tables := by
  rw [hquiet, h.committed]
  exact ⟨resolve_grow hsnap.names_graph hkey, rfl⟩

/-- **Table.** -/
theorem State.Invariant.consultTable (h : s.Invariant)
    (hstep : s.step (.consultTable t) = some s') :
    s'.Invariant := by
  cases hphase : s.threads t with
  | reading q probeGen snap snapGen =>
    have hsnap : s.Snapshot probeGen snap snapGen := by
      have hknows := h.threads t
      rwa [hphase] at hknows
    simp only [State.step, hphase] at hstep
    cases hkey : snap.tables.resolve q with
    | none =>
      simp only [hkey] at hstep
      exact some.inj hstep ▸ h.move trivial
    | some key =>
      simp only [hkey] at hstep
      have hmissed : (s.move t (.missedTable q probeGen snap snapGen key)).Invariant :=
        h.move ⟨hsnap, hkey⟩
      cases htable : s.table with
      | none =>
        simp only [htable] at hstep
        exact some.inj hstep ▸ hmissed
      | some table =>
        simp only [htable] at hstep
        split at hstep
        next hgen =>
          obtain rfl := some.inj hstep
          refine h.answer (hgen ▸ h.gen_le) fun hquiet => ⟨key, ?_⟩
          obtain ⟨hresolve, hcommitted⟩ := h.current hsnap hkey hquiet
          rw [hgen, hcommitted]
          exact ⟨hcommitted ▸ hresolve, (h.table table htable).2 hgen hquiet key⟩
        next => exact some.inj hstep ▸ hmissed
  | _ => simp [State.step, hphase] at hstep

/-- **Memo.** -/
theorem State.Invariant.recallMemo (h : s.Invariant) (hstep : s.step (.recallMemo t) = some s') :
    s'.Invariant := by
  cases hphase : s.threads t with
  | missedTable q probeGen snap snapGen key =>
    obtain ⟨hsnap, hkey⟩ : s.Snapshot probeGen snap snapGen ∧ snap.tables.resolve q = some key := by
      have hknows := h.threads t
      rwa [hphase] at hknows
    simp only [State.step, hphase] at hstep
    split at hstep
    next b hhit =>
      obtain rfl := some.inj hstep
      split at hhit
      next hgen =>
        refine h.answer (hgen ▸ h.gen_le) fun hquiet => ⟨key, ?_⟩
        obtain ⟨hresolve, hcommitted⟩ := h.current hsnap hkey hquiet
        rw [hgen, hcommitted]
        exact ⟨hcommitted ▸ hresolve, (h.memo key b hhit).2 hgen hquiet⟩
      next => cases hhit
    next => exact some.inj hstep ▸ h.move trivial
    next => exact some.inj hstep ▸ h.move ⟨hsnap, hkey⟩
  | _ => simp [State.step, hphase] at hstep

/-- **Memoize.** A verdict is filed under a generation only if its transaction saw that generation,
or a writer is between its commit and its advance. -/
theorem State.Invariant.memoize (h : s.Invariant) (hstep : s.step (.memoize t) = some s') :
    s'.Invariant := by
  cases hphase : s.threads t with
  | probed q probeGen snap snapGen key verdict =>
    obtain ⟨hsnap, hkey, hverdict⟩ : s.Snapshot probeGen snap snapGen ∧
        snap.tables.resolve q = some key ∧
        ∀ b, verdict = some b → (b = true ↔ snap.tables.Realizes key) := by
      have hknows := h.threads t
      rwa [hphase] at hknows
    set memo := (if s.writeGen ≠ probeGen then s.memo
      else
        let memo := if s.memo.1 ≠ s.writeGen then (s.writeGen, .empty) else s.memo
        (memo.1, memo.2.put key verdict)) with hmemo
    have hfiled : ({ s with memo := memo } : State).Invariant := by
      refine ⟨h.sound, h.gen_le, h.committed, h.table, fun key' b hget => ?_,
        fun t' => (h.threads t').congr rfl rfl rfl,
        fun a ha => ⟨(h.answers a ha).gen_le, (h.answers a ha).right⟩⟩
      replace hget : memo.2.get key' = some (some b) := hget
      suffices hcurrent : s.WhileCurrent memo.1 fun tables => b = true ↔
          tables.Realizes key' from hcurrent
      by_cases hmoved : s.writeGen = probeGen
      · have hgen : memo.1 = s.writeGen := by
          rw [hmemo, if_neg (not_not.mpr hmoved)]
          dsimp only
          split
          next => rfl
          next heq => exact not_not.mp heq
        by_cases hnew : key' = key
        · refine ⟨hgen.le, fun _ hquiet => ?_⟩
          -- no writer is in progress and the generation is that of the transaction
          have hsnapGen : snapGen = s.graph.writeGen :=
            le_antisymm hsnap.gen_le (hquiet ▸ hmoved ▸ hsnap.probe_le)
          have hb : verdict = some b := by
            rw [hmemo, if_neg (not_not.mpr hmoved), hnew] at hget
            simpa using hget
          have hrecords := hsnap.records
          rw [hsnapGen, h.committed] at hrecords
          rw [hnew]
          exact (hverdict b hb).trans (realizes_congr hrecords key).symm
        · have hold : s.memo.1 = s.writeGen ∧ s.memo.2.get key' = some (some b) := by
            rw [hmemo, if_neg (not_not.mpr hmoved)] at hget
            dsimp only at hget
            rw [Table.get_put_of_ne _ _ hnew] at hget
            split at hget
            next => cases hget
            next heq => exact ⟨not_not.mp heq, hget⟩
          rw [hgen, ← hold.1]
          exact h.memo key' b hold.2
      · rw [hmemo, if_pos hmoved] at hget ⊢
        exact h.memo key' b hget
    simp only [State.step, hphase, ← hmemo] at hstep
    cases verdict with
    | none => exact some.inj hstep ▸ hfiled.move trivial
    | some b =>
      obtain rfl := some.inj hstep
      refine hfiled.answer hsnap.gen_le fun _ => ⟨key, resolve_grow hsnap.names hkey, ?_⟩
      exact (hverdict b rfl).trans (realizes_congr hsnap.records key).symm
  | _ => simp [State.step, hphase] at hstep

/-- **Step.** Every section keeps the invariant. -/
theorem State.Invariant.step (h : s.Invariant) {l : Step} (hstep : s.step l = some s') :
    s'.Invariant := by
  cases l with
  | commit a => exact h.commit hstep
  | advance => exact h.advance hstep
  | consultTable t => exact h.consultTable hstep
  | recallMemo t => exact h.recallMemo hstep
  | memoize t => exact h.memoize hstep
  | ask t q =>
    cases hphase : s.threads t with
    | idle =>
      simp only [State.step, hphase] at hstep
      exact some.inj hstep ▸ h.move (p := .asked q s.writeGen) (le_refl s.writeGen)
    | _ => simp [State.step, hphase] at hstep
  | openTxn t =>
    cases hphase : s.threads t with
    | asked q probeGen =>
      have hle : probeGen ≤ s.writeGen := by
        have hknows := h.threads t
        rwa [hphase] at hknows
      simp only [State.step, hphase] at hstep
      refine some.inj hstep ▸ h.move ⟨h.sound, hle.trans h.gen_le, le_refl _, ?_, ?_, .refl _⟩
      · rw [h.committed]
        exact ⟨rfl, rfl⟩
      · rw [h.committed]
        exact .refl _
    | _ => simp [State.step, hphase] at hstep
  | probe t budget =>
    cases hphase : s.threads t with
    | missedMemo q probeGen snap snapGen key =>
      obtain ⟨hsnap, hkey⟩ : s.Snapshot probeGen snap snapGen ∧
          snap.tables.resolve q = some key := by
        have hknows := h.threads t
        rwa [hphase] at hknows
      simp only [State.step, hphase] at hstep
      refine some.inj hstep ▸ h.move ⟨hsnap, hkey, fun b hb => ?_⟩
      exact hsnap.sound.probeSchemaEdge_spec hb
    | _ => simp [State.step, hphase] at hstep
  | materialize t =>
    cases hphase : s.threads t with
    | idle =>
      simp only [State.step, hphase] at hstep
      split at hstep
      · exact some.inj hstep ▸ h
      · exact some.inj hstep ▸ h.move (p := .building s.writeGen) (le_refl s.writeGen)
    | _ => simp [State.step, hphase] at hstep
  | build t =>
    cases hphase : s.threads t with
    | building generation =>
      have hle : generation ≤ s.writeGen := by
        have hknows := h.threads t
        rwa [hphase] at hknows
      simp only [State.step, hphase] at hstep
      refine some.inj hstep ▸ h.move ⟨hle, fun _ _ key => ?_⟩
      exact EdgeFanout.build_spec h.sound generation key.1 key.2.2 key.2.1
    | _ => simp [State.step, hphase] at hstep
  | install t =>
    cases hphase : s.threads t with
    | built table =>
      have hlists : s.WhileCurrent table.generation (Lists table) := by
        have hknows := h.threads t
        rwa [hphase] at hknows
      have hmoved := h.move (t := t) (p := .idle) trivial
      simp only [State.step, hphase] at hstep
      split at hstep
      · exact some.inj hstep ▸ hmoved
      · obtain rfl := some.inj hstep
        refine ⟨hmoved.sound, hmoved.gen_le, hmoved.committed, fun table' hsome => ?_, hmoved.memo,
          fun t' => (hmoved.threads t').congr rfl rfl rfl,
          fun a ha => ⟨(h.answers a ha).gen_le, (h.answers a ha).right⟩⟩
        exact some.inj hsome ▸ hlists
    | _ => simp [State.step, hphase] at hstep

omit [TextLib] in
lemma invariant_opened {storage : Storage} (h : storage.Sound) :
    (State.opened storage).Invariant where
  sound := h
  gen_le := le_refl _
  committed := rfl
  table _ h := by cases h
  memo _ _ h := by cases h
  threads _ := trivial
  answers _ h := by cases h

/-- After every run over every database that writes can produce: whatever a call answered while no
write was in progress, from the table, from the memo or by a probe with any budget, is the truth
about the committed graph of the generation that it was answered for; so two such answers to one
question at one generation agree. -/
theorem answers_sound (actions : List Graph.Action) {steps : List Step} {s : State}
    (hrun : Interleaving.run State.step steps (.opened (Graph.run actions .empty).storage) =
      some s) :
    (∀ a ∈ s.answers, a.quiet = true →
      (a.answer = true ↔ (s.committed a.generation).tables.Answers a.question)) ∧
    ∀ a ∈ s.answers, ∀ b ∈ s.answers, a.quiet = true → b.quiet = true → a.question = b.question →
      a.generation = b.generation → a.answer = b.answer := by
  have hinv : s.Invariant := Interleaving.run_induction (C := fun _ _ => True)
    (fun _ h hstep => h.step hstep) (Interleaving.meets_of_forall (fun _ _ => trivial) _ _)
    (invariant_opened (Graph.sound_run actions)) hrun
  have hright : ∀ a ∈ s.answers, a.quiet = true →
      (a.answer = true ↔ (s.committed a.generation).tables.Answers a.question) := by
    intro a ha hquiet
    obtain ⟨key, hkey, hanswer⟩ := (hinv.answers a ha).right hquiet
    rw [hanswer]
    constructor
    · exact fun hrealizes => ⟨key, hkey, hrealizes⟩
    · rintro ⟨key', hkey', hrealizes⟩
      obtain rfl := some.inj (hkey.symm.trans hkey')
      exact hrealizes
  refine ⟨hright, fun a ha b hb hqa hqb hquestion hgen => ?_⟩
  rw [Bool.eq_iff_iff, hright a ha hqa, hright b hb hqb, hquestion, hgen]

end Sections

section Witness

attribute [local instance] TextLib.ascii

/-- An edge from `A` to `B` is committed and asked for twice, with the least budget that finds it,
and then an edge from `B` to `A`. -/
def asked : List Step :=
  [.commit (.mutation (.addNode "A" ⟨.object [], by decide⟩) (.ok ())), .advance,
    .commit (.mutation (.addNode "B" ⟨.object [], by decide⟩) (.ok ())), .advance,
    .commit (.mutation (.addEdge 0 1 "R" ⟨.object [], by decide⟩) (.ok ())), .advance,
    .ask 0 ⟨"A", "R", "B"⟩, .openTxn 0, .consultTable 0, .recallMemo 0, .probe 0 3, .memoize 0,
    .ask 1 ⟨"A", "R", "B"⟩, .openTxn 1, .consultTable 1, .recallMemo 1,
    .ask 1 ⟨"B", "R", "A"⟩, .openTxn 1, .consultTable 1, .recallMemo 1, .probe 1 3, .memoize 1]

/-- The answers of a run, from a probe and from the memo. -/
theorem answers_sound_asked :
    ∃ s, Interleaving.run State.step asked (.opened (Graph.run [] .empty).storage) = some s ∧
      s.answers.map (fun a => (a.answer, a.generation, a.quiet)) =
        [(true, 4, true), (true, 4, true), (false, 4, true)] ∧
      ∀ a ∈ s.answers, a.quiet = true →
        (a.answer = true ↔ (s.committed a.generation).tables.Answers a.question) := by
  have hanswers : (Interleaving.run State.step asked
      (.opened (Graph.run [] .empty).storage)).map
        (fun s => s.answers.map fun a => (a.answer, a.generation, a.quiet)) =
      some [(true, 4, true), (true, 4, true), (false, 4, true)] := by
    decide +kernel
  obtain ⟨s, hrun, hs⟩ := map_eq_some_iff.mp hanswers
  exact ⟨s, hrun, hs, (answers_sound [] hrun).1⟩

end Witness

end SchemaProbes

end IssunDB
