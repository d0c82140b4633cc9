import IssunDB.IndexDeclarations
import IssunDB.Lib.Interleaving

/-!
# Cached label scans and bitmaps

The nodes of a label are cached as a list and as a bitmap, both under the write generation at
which a reader last aligned the cache. A bitmap is derived from a list in two sections of the cache
lock: the first scans, or takes the list that is cached, and the second files the bitmap. Another
reader may align the cache to a newer generation in between.

* `labelBitmap`, `hasBit_labelBitmap` — the bitmap of a list tests membership in it;
* `LabelCache.State.step` — readers and committing writers, a section or a commit at a time;
* `LabelCache.Undisturbed` — a bitmap is filed under the generation of the scan it is made of;
* `LabelCache.served_of_undisturbed` — the bitmaps served in every run of such steps;
* `LabelCache.stale_bitmap` — a run that files an old scan under a new generation.
-/

namespace IssunDB

open List Option

/-! ## Bitmaps -/

def setBit (bits : List ℕ) (id : ℕ) : List ℕ :=
  bits.modify (id / 64) (· ||| 1 <<< (id % 64))

/-- Test the bit of an id. Past the last word no bit is set. -/
def hasBit (bits : List ℕ) (id : ℕ) : Bool :=
  match bits[id / 64]? with
  | some word => (word >>> (id % 64)) &&& 1 = 1
  | none => false

/-- The membership of a label as one bit per node id, for members in ascending order. -/
def labelBitmap (members : List ℕ) : List ℕ :=
  let words := match members.getLast? with
    | some max => max / 64 + 1
    | none => 0
  members.foldl setBit (List.replicate words 0)

lemma hasBit_eq_testBit (bits : List ℕ) (id : ℕ) :
    hasBit bits id = (bits[id / 64]?).any fun word => word.testBit (id % 64) := by
  unfold hasBit
  cases bits[id / 64]? with
  | none => rfl
  | some word => simp [Nat.testBit, Nat.and_comm]

@[simp] lemma length_setBit (bits : List ℕ) (id : ℕ) :
    (setBit bits id).length = bits.length := length_modify ..

lemma hasBit_setBit {bits : List ℕ} {id : ℕ} (h : id / 64 < bits.length) (n : ℕ) :
    hasBit (setBit bits id) n = (hasBit bits n || n = id) := by
  rw [hasBit_eq_testBit, hasBit_eq_testBit, setBit, getElem?_modify]
  have hid : n = id ↔ n / 64 = id / 64 ∧ n % 64 = id % 64 := by omega
  by_cases hword : id / 64 = n / 64
  · have hn : n / 64 < bits.length := hword ▸ h
    simp only [hword, if_true, getElem?_eq_getElem hn, Option.map_eq_map, map_some,
      any_some, Nat.testBit_or, Nat.one_shiftLeft, Nat.testBit_two_pow]
    have hbit : (decide (id % 64 = n % 64)) = decide (n = id) :=
      decide_eq_decide.mpr ⟨fun hb => hid.mpr ⟨hword.symm, hb.symm⟩, fun hn => hn ▸ rfl⟩
    rw [hbit]
  · have hne : n ≠ id := fun hn => hword (hn ▸ rfl)
    simp [hword, hne]

lemma hasBit_foldl_setBit (members : List ℕ) {bits : List ℕ}
    (h : ∀ id ∈ members, id / 64 < bits.length) (n : ℕ) :
    hasBit (members.foldl setBit bits) n = (hasBit bits n || n ∈ members) := by
  induction members generalizing bits with
  | nil => simp
  | cons id members ih =>
    have hid : id / 64 < bits.length := h id mem_cons_self
    have hrest : ∀ id' ∈ members, id' / 64 < (setBit bits id).length := fun id' hmem => by
      rw [length_setBit]
      exact h id' (mem_cons_of_mem _ hmem)
    rw [foldl_cons, ih hrest, hasBit_setBit hid]
    simp [mem_cons, Bool.or_assoc]

/-- The bitmap of an ascending list tests membership in it. -/
theorem hasBit_labelBitmap {members : List ℕ} (hasc : members.Pairwise (· < ·)) (n : ℕ) :
    hasBit (labelBitmap members) n = decide (n ∈ members) := by
  have hzero : ∀ words, hasBit (List.replicate words 0) n = false := by
    intro words
    rw [hasBit_eq_testBit, getElem?_replicate]
    split <;> simp
  rcases hlast : members.getLast? with _ | max
  · obtain rfl := getLast?_eq_none_iff.mp hlast
    simp [labelBitmap, hasBit]
  · -- every id is at most the last one
    have hle : ∀ id ∈ members, id ≤ max := by
      intro id hmem
      obtain ⟨init, rfl⟩ := getLast?_eq_some_iff.mp hlast
      rcases mem_append.mp hmem with hinit | hlast
      · exact Nat.le_of_lt ((pairwise_append.mp hasc).2.2 id hinit max (mem_singleton_self _))
      · exact Nat.le_of_eq (mem_singleton.mp hlast)
    rw [labelBitmap, hlast, hasBit_foldl_setBit, hzero, Bool.false_or]
    intro id hmem
    rw [length_replicate]
    change id / 64 < max / 64 + 1
    have := hle id hmem
    omega

lemma Tables.pairwise_nodesByLabel (s : Tables) (label : String) :
    (s.nodesByLabel label).Pairwise (· < ·) := by
  unfold Tables.nodesByLabel
  split
  · rw [Finset.ascending_eq_sort]
    exact Finset.sortedLT_sort _ |>.pairwise
  · exact List.Pairwise.nil

/-! ## The cache -/

/-- Cached label scans of one write generation, and the bitmaps derived from them. -/
structure LabelScanCache where
  generation : ℕ
  byLabel : Table String (List NodeId)
  bitmaps : Table String (List ℕ)

namespace LabelScanCache

/-- The cache of a graph that was just opened. -/
def empty : LabelScanCache := ⟨0, .empty, .empty⟩

/-- Discard the entries of another generation. -/
def align (c : LabelScanCache) (generation : ℕ) : LabelScanCache :=
  if c.generation ≠ generation then ⟨generation, .empty, .empty⟩ else c

/-- The section of `nodes_by_label_arc`: the scan that is cached under the current generation, or a
new one. -/
def nodesByLabelArc (generation : ℕ) (s : Tables) (label : String) (c : LabelScanCache) :
    List NodeId × LabelScanCache :=
  let c := c.align generation
  match c.byLabel.get label with
  | some hit => (hit, c)
  | none => (s.nodesByLabel label, { c with byLabel := c.byLabel.put label (s.nodesByLabel label) })

/-- The second section of `label_bitmap_arc`: the bitmap that is cached, or that of `members`. -/
def labelBitmapArc (label : String) (members : List NodeId) (c : LabelScanCache) :
    List ℕ × LabelScanCache :=
  match c.bitmaps.get label with
  | some hit => (hit, c)
  | none => (labelBitmap members, { c with bitmaps := c.bitmaps.put label (labelBitmap members) })

end LabelScanCache

namespace LabelCache

/-- Where a reader stands. -/
inductive Pc where
  | idle
  /-- `label_bitmap_arc` between its sections, with the scan and the generation it found. -/
  | scanned (label : String) (members : List NodeId) (generation : ℕ)

/-- A bitmap that `label_bitmap_arc` returned, with the generations of the cache and of the graph
at that moment. -/
structure Served where
  label : String
  bits : List ℕ
  cacheGen : ℕ
  writeGen : ℕ

/-- The cache, the committed tables with all that were committed before, and the readers. -/
structure State where
  writeGen : ℕ
  tables : Tables
  /-- The committed states, each with the write generation that it was published at. -/
  committed : List (ℕ × Tables)
  cache : LabelScanCache
  pc : Threads Pc
  served : List Served

/-- A graph that was just opened. -/
def State.init (s : Tables) : State where
  writeGen := 1
  tables := s
  committed := [(1, s)]
  cache := .empty
  pc := fun _ => .idle
  served := []

/-- One step. -/
inductive Step where
  /-- A writer commits tables and advances the generation by its mutations, one at least. -/
  | commit (mutations : ℕ) (tables : Tables)
  /-- A reader calls `nodes_by_label_arc`. -/
  | scan (label : String)
  /-- A reader in the first section of `label_bitmap_arc`. -/
  | begin (label : String)
  /-- A reader in the second section. -/
  | finish

/-- What a step of thread `t` does, where it is enabled. -/
def State.step (l : ℕ × Step) (s : State) : Option State :=
  match l.2, s.pc l.1 with
  | .commit mutations tables, _ =>
    let generation := s.writeGen + mutations + 1
    some { s with
      writeGen := generation, tables, committed := (generation, tables) :: s.committed }
  | .scan label, .idle =>
    some { s with cache := (s.cache.nodesByLabelArc s.writeGen s.tables label).2 }
  | .begin label, .idle =>
    let (members, cache) := s.cache.nodesByLabelArc s.writeGen s.tables label
    some { s with cache, pc := s.pc.move l.1 (.scanned label members s.writeGen) }
  | .finish, .scanned label members _ =>
    let (bits, cache) := s.cache.labelBitmapArc label members
    some { s with
      cache
      pc := s.pc.move l.1 .idle
      served := ⟨label, bits, s.cache.generation, s.writeGen⟩ :: s.served }
  | _, _ => none

/-- The bits are those of the members of the label in the tables. -/
def Describes (bits : List ℕ) (s : Tables) (label : String) : Prop :=
  ∀ n, hasBit bits n = decide (n ∈ s.nodesByLabel label)

/-- Every bitmap served while the cache was at the current generation describes a committed state
at least as new. -/
def Sound (s : State) : Prop :=
  ∀ r ∈ s.served, r.cacheGen = r.writeGen →
    ∃ c ∈ s.committed, r.writeGen ≤ c.1 ∧ Describes r.bits c.2 r.label

/-- A bitmap is filed under the generation of the scan it is made of: where the second section finds
none, no other reader has moved the cache to another generation since the first. -/
def Undisturbed (l : ℕ × Step) (s : State) : Prop :=
  match l.2, s.pc l.1 with
  | .finish, .scanned label _ generation =>
    s.cache.bitmaps.get label = none → s.cache.generation = generation
  | _, _ => True

/-! ## Soundness -/

/-- The entries of the cache are those of the tables, if it is at the current generation. -/
structure Current (c : LabelScanCache) (generation : ℕ) (s : Tables) : Prop where
  le : c.generation ≤ generation
  scans : c.generation = generation → ∀ label members,
    c.byLabel.get label = some members → members = s.nodesByLabel label
  bitmaps : c.generation = generation → ∀ label bits,
    c.bitmaps.get label = some bits → bits = labelBitmap (s.nodesByLabel label)

namespace Current

variable {c : LabelScanCache} {generation : ℕ} {s : Tables}

lemma align (h : Current c generation s) : Current (c.align generation) generation s := by
  unfold LabelScanCache.align
  split
  · refine ⟨Nat.le_refl _, fun _ label members hget => ?_, fun _ label bits hget => ?_⟩
    · cases hget
    · cases hget
  · exact h

lemma generation_align (c : LabelScanCache) (generation : ℕ) :
    (c.align generation).generation = generation := by
  unfold LabelScanCache.align
  split
  next => rfl
  next heq => exact not_not.mp heq

/-- The first section returns the scan of the tables and leaves the cache at the current
generation. -/
theorem nodesByLabelArc (h : Current c generation s) (label : String) :
    (c.nodesByLabelArc generation s label).1 = s.nodesByLabel label ∧
      Current (c.nodesByLabelArc generation s label).2 generation s := by
  have halign := h.align
  have hgen := generation_align c generation
  unfold LabelScanCache.nodesByLabelArc
  dsimp only
  split
  next hit hget => exact ⟨halign.scans hgen label hit hget, halign⟩
  next =>
    refine ⟨rfl, halign.le, fun heq label' members hget => ?_, halign.bitmaps⟩
    rw [Table.get_put] at hget
    split at hget
    next hlabel => rw [← some.inj hget, hlabel]
    next => exact halign.scans heq label' members hget

/-- The second section files the bitmap of a scan of the tables, or finds it. -/
theorem labelBitmapArc (h : Current c generation s) {label : String} {members : List NodeId}
    (hmembers : c.generation = generation → c.bitmaps.get label = none →
      members = s.nodesByLabel label) :
    Current (c.labelBitmapArc label members).2 generation s ∧ (c.generation = generation →
      (c.labelBitmapArc label members).1 = labelBitmap (s.nodesByLabel label)) := by
  unfold LabelScanCache.labelBitmapArc
  split
  next hit hget => exact ⟨h, fun heq => h.bitmaps heq label hit hget⟩
  next hget =>
    refine ⟨⟨h.le, h.scans, fun heq label' bits hget' => ?_⟩, fun heq => by rw [hmembers heq hget]⟩
    rw [Table.get_put] at hget'
    split at hget'
    next hlabel => rw [← some.inj hget', hlabel, hmembers heq hget]
    next => exact h.bitmaps heq label' bits hget'

/-- After a commit the cache is at an older generation. -/
theorem advance (h : Current c generation s) {generation' : ℕ} (hlt : generation < generation')
    (s' : Tables) : Current c generation' s' := by
  have hne : c.generation ≠ generation' := by
    have := h.le
    omega
  exact ⟨by have := h.le; omega, fun heq => (hne heq).elim, fun heq => (hne heq).elim⟩

end Current

/-- The cache, and the scans that readers hold, are those of the tables if their generation is the
current one, and so was what is served. -/
structure Inv (s : State) : Prop where
  committed : (s.writeGen, s.tables) ∈ s.committed
  cache : Current s.cache s.writeGen s.tables
  held : ∀ t label members generation, s.pc t = .scanned label members generation →
    generation ≤ s.writeGen ∧ (generation = s.writeGen → members = s.tables.nodesByLabel label)
  sound : Sound s

namespace Inv

variable {s s' : State}

lemma held_move {s : State} (h : Inv s) {t : ℕ} {p : Pc}
    (hp : ∀ label members generation, p = .scanned label members generation →
      generation ≤ s.writeGen ∧ (generation = s.writeGen → members = s.tables.nodesByLabel label)) :
    ∀ t' label members generation, s.pc.move t p t' = .scanned label members generation →
      generation ≤ s.writeGen ∧ (generation = s.writeGen → members = s.tables.nodesByLabel label) :=
  Threads.forall_move (Q := fun _ p => ∀ label members generation,
    p = Pc.scanned label members generation → generation ≤ s.writeGen ∧
      (generation = s.writeGen → members = s.tables.nodesByLabel label)) hp fun t' _ => h.held t'

/-- **Step.** Every undisturbed step keeps the invariant. -/
theorem step {l : ℕ × Step} (h : Inv s) (hl : Undisturbed l s) (hstep : s.step l = some s') :
    Inv s' := by
  unfold State.step at hstep
  split at hstep
  next mutations tables _ =>
    obtain rfl := some.inj hstep
    have hlt : s.writeGen < s.writeGen + mutations + 1 := by omega
    refine ⟨mem_cons_self, h.cache.advance hlt tables, fun t label members generation hpc => ?_,
      fun r hr heq => ?_⟩
    · have hle := (h.held t label members generation hpc).1
      dsimp only
      omega
    · obtain ⟨c, hc, hrest⟩ := h.sound r hr heq
      exact ⟨c, mem_cons_of_mem _ hc, hrest⟩
  next label _ hpc =>
    obtain rfl := some.inj hstep
    exact ⟨h.committed, (h.cache.nodesByLabelArc label).2, h.held, h.sound⟩
  next label _ hpc =>
    obtain rfl := some.inj hstep
    obtain ⟨hmembers, hcache⟩ := h.cache.nodesByLabelArc label
    refine ⟨h.committed, hcache, h.held_move ?_, h.sound⟩
    rintro label' members' generation' heq
    obtain ⟨rfl, rfl, rfl⟩ := Pc.scanned.inj heq
    exact ⟨Nat.le_refl _, fun _ => hmembers⟩
  next label members generation hl₂ hpc =>
    obtain rfl := some.inj hstep
    have hundisturbed : s.cache.bitmaps.get label = none → s.cache.generation = generation := by
      simpa only [Undisturbed, hl₂, hpc] using hl
    -- a bitmap that is filed under the current generation is made of a scan at it
    have hmembers : s.cache.generation = s.writeGen → s.cache.bitmaps.get label = none →
        members = s.tables.nodesByLabel label := fun heq hnone =>
      (h.held l.1 label members generation hpc).2 ((hundisturbed hnone).symm.trans heq)
    obtain ⟨hcache, hbits⟩ := h.cache.labelBitmapArc hmembers
    refine ⟨h.committed, hcache, h.held_move fun _ _ _ heq => (by cases heq), fun r hr heq => ?_⟩
    rcases mem_cons.mp hr with rfl | hr
    · refine ⟨_, h.committed, Nat.le_refl _, fun n => ?_⟩
      change hasBit (s.cache.labelBitmapArc label members).1 n = _
      rw [hbits heq]
      exact hasBit_labelBitmap (Tables.pairwise_nodesByLabel s.tables label) n
    · exact h.sound r hr heq
  next => cases hstep

lemma init (s : Tables) : Inv (.init s) := by
  refine ⟨mem_singleton_self _, ⟨Nat.zero_le _, ?_, ?_⟩, ?_, ?_⟩
  · intro heq
    cases heq
  · intro heq
    cases heq
  · intro t label members generation hpc
    cases hpc
  · intro r hr
    cases hr

end Inv

/-- **Sound bitmaps.** In every run, of any number of readers and writers, in which each bitmap is
filed under the generation of the scan it is made of, every bitmap served while the cache is at the
current generation describes the members of a committed state at least as new. -/
theorem served_of_undisturbed (tables : Tables) (steps : List (ℕ × Step)) (s : State)
    (hsteps : Interleaving.Meets State.step Undisturbed steps (.init tables))
    (hrun : Interleaving.run State.step steps (.init tables) = some s) : Sound s :=
  (Interleaving.run_induction (I := Inv) (fun hl h hstep => h.step hl hstep) hsteps (.init tables)
    hrun).sound

section Stale

attribute [local instance] TextLib.ascii

/-- The tables with one node of label `A`. -/
def oneNode : Tables :=
  (Graph.run
    [.mutation (.addNode "A" ⟨.object [], Json.wellFormed_empty⟩) (.ok ())] .empty).storage.tables

/-- A reader scans the empty graph, a writer adds a node, a second reader aligns the cache, and the
first one files the bitmap of its scan. -/
def disturbed : List (ℕ × Step) :=
  [(0, .begin "A"), (1, .commit 0 oneNode), (2, .scan "A"), (0, .finish)]

/-- The bitmap that the run ends with is served at the current generation, to the reader that filed
it and to the next one, and lacks the node that was committed. -/
theorem stale_bitmap :
    ∃ s, Interleaving.run State.step (disturbed ++ [(3, .begin "A"), (3, .finish)])
        (.init Storage.empty.tables) = some s ∧
      s.served.map (fun r => (r.bits, r.cacheGen, r.writeGen)) = [([], 2, 2), ([], 2, 2)] ∧
      s.tables.nodesByLabel "A" = [0] ∧ ¬Sound s := by
  refine ⟨_, rfl, by decide +kernel, by decide +kernel, fun h => ?_⟩
  obtain ⟨c, hc, hle, hdescribes⟩ := h _ mem_cons_self (by decide +kernel)
  change c ∈ [(2, oneNode), (1, Storage.empty.tables)] at hc
  change 2 ≤ c.1 at hle
  have hc' : c = (2, oneNode) := by
    rcases mem_pair.mp hc with rfl | rfl
    · rfl
    · exact absurd hle (by decide)
  subst hc'
  have hbit := hdescribes 0
  exact absurd hbit (by decide +kernel)

/-- A reader that is not disturbed. -/
theorem served_of_undisturbed_alone :
    ∃ s, Interleaving.run State.step [(0, .begin "A"), (0, .finish)] (.init oneNode) = some s ∧
      s.served.map (fun r => (r.bits, r.cacheGen, r.writeGen)) = [([1], 1, 1)] ∧ Sound s := by
  refine ⟨_, rfl, by decide +kernel, served_of_undisturbed oneNode [(0, .begin "A"), (0, .finish)] _
    ⟨trivial, fun _ => rfl, trivial⟩ rfl⟩

end Stale

end LabelCache

end IssunDB
