import Mathlib.Data.List.Sort
import Mathlib.Data.Prod.Lex
import Mathlib.Data.Finset.Card

/-!
# Heaps of bounded size

A heap keeps the `k` best of the items it is offered. It is the ascending list of its entries,
scores with their items, so that its root is the first of them. Once it holds `k` entries the score
of the root is the threshold that a further item has to pass.

* `Keeps` — a heap and its threshold against all items seen so far;
* `Keeps.offer` — a further item;
* `Keeps.skip` — items whose score does not pass the threshold need not be offered;
* `Keeps.topK` — what is left in the end are the `k` best of all items.
-/

namespace BoundedHeap

open List

section

variable {K ι : Type}

/-- The entries of a heap, the root first. -/
abbrev Heap (K ι : Type) := List (K ×ₗ ι)

def entry (score : ι → K) (a : ι) : K ×ₗ ι := toLex (score a, a)

lemma entry_injective (score : ι → K) : Function.Injective (entry score) := by
  intro a b h
  exact congrArg (fun e => (ofLex e).2) h

end

variable {K ι : Type} [LinearOrder K] [Zero K] [LinearOrder ι]

def rootScore (heap : Heap K ι) : K := (heap.head?.map fun root => (ofLex root).1).getD 0

/-- Push an entry, and pop the root if the heap holds more than `k` entries then. -/
def push (k : ℕ) (e : K ×ₗ ι) (heap : Heap K ι) : Heap K ι :=
  let pushed := heap.orderedInsert (· ≤ ·) e
  if k < pushed.length then pushed.tail else pushed

/-- Offer an entry to a heap of at most `k` entries with its threshold. -/
def offer (k : ℕ) (e : K ×ₗ ι) (heap : Heap K ι) (threshold : K) : Heap K ι × K :=
  if threshold < (ofLex e).1 then
    let heap := push k e heap
    (heap, if heap.length = k then rootScore heap else threshold)
  else (heap, threshold)

/-- A heap keeps the best of the items seen. -/
structure Keeps (k : ℕ) (score : ι → K) (seen : Set ι) (heap : Heap K ι) (threshold : K) :
    Prop where
  sorted : heap.Pairwise (· < ·)
  scored : ∀ e ∈ heap, ∃ a ∈ seen, e = entry score a
  positive : ∀ e ∈ heap, 0 < (ofLex e).1
  nonneg : 0 ≤ threshold
  room : heap.length ≤ k
  /-- As long as there is room everything passes. -/
  low : heap.length < k → threshold = 0
  root : heap.length = k → ∀ e ∈ heap, threshold ≤ (ofLex e).1
  omitted : ∀ a ∈ seen, entry score a ∉ heap → heap.length = k ∧ score a ≤ threshold

variable {k : ℕ} {score : ι → K} {seen : Set ι} {heap : Heap K ι} {threshold : K}

omit [Zero K] in
lemma fst_le_of_lt {e e' : K ×ₗ ι} (h : e < e') : (ofLex e).1 ≤ (ofLex e').1 := by
  rcases (Prod.Lex.lt_iff).mp h with hlt | ⟨heq, -⟩
  · exact hlt.le
  · exact heq.le

lemma rootScore_le (h : heap.Pairwise (· < ·)) {e : K ×ₗ ι} (he : e ∈ heap) :
    rootScore heap ≤ (ofLex e).1 := by
  cases heap with
  | nil => exact absurd he not_mem_nil
  | cons root rest =>
    rcases mem_cons.mp he with rfl | hrest
    · exact le_refl _
    · exact fst_le_of_lt (rel_of_pairwise_cons h hrest)

omit [LinearOrder K] [LinearOrder ι] in
lemma exists_rootScore (h : heap ≠ []) : ∃ e ∈ heap, rootScore heap = (ofLex e).1 := by
  cases heap with
  | nil => exact absurd rfl h
  | cons root rest => exact ⟨root, mem_cons_self, rfl⟩

lemma Keeps.empty (hk : 0 < k) : Keeps k score ∅ [] 0 where
  sorted := .nil
  scored _ he := absurd he not_mem_nil
  positive _ he := absurd he not_mem_nil
  nonneg := le_refl 0
  room := Nat.zero_le k
  low _ := rfl
  root h := absurd h hk.ne
  omitted a ha := absurd ha (Set.notMem_empty a)

/-- An item that does not pass the threshold leaves the heap without room. -/
theorem Keeps.full (h : Keeps k score seen heap threshold) {a : ι} (hpos : 0 < score a)
    (hlow : score a ≤ threshold) : heap.length = k := by
  by_contra hlen
  have hzero := h.low (lt_of_le_of_ne h.room hlen)
  exact absurd (hpos.trans_le hlow) (by rw [hzero]; exact lt_irrefl 0)

/-- Items that do not pass the threshold need not be offered. -/
theorem Keeps.skip (h : Keeps k score seen heap threshold) (new : Set ι)
    (hpos : ∀ a ∈ new, 0 < score a) (hlow : ∀ a ∈ new, score a ≤ threshold) :
    Keeps k score (seen ∪ new) heap threshold where
  sorted := h.sorted
  scored e he := by
    obtain ⟨a, ha, heq⟩ := h.scored e he
    exact ⟨a, .inl ha, heq⟩
  positive := h.positive
  nonneg := h.nonneg
  room := h.room
  low := h.low
  root := h.root
  omitted a ha hout := by
    rcases ha with ha | ha
    · exact h.omitted a ha hout
    · exact ⟨h.full (hpos a ha) (hlow a ha), hlow a ha⟩

/-- **A further item is offered.** -/
theorem Keeps.offer (h : Keeps k score seen heap threshold) (hk : 0 < k) {a : ι} (hnew : a ∉ seen)
    (hpos : 0 < score a) :
    Keeps k score (insert a seen) (offer k (entry score a) heap threshold).1
      (offer k (entry score a) heap threshold).2 := by
  unfold BoundedHeap.offer
  split
  case isFalse hlow =>
    have hskip := h.skip {a} (fun b hb => hb ▸ hpos) (fun b hb => hb ▸ not_lt.mp hlow)
    rw [Set.union_singleton] at hskip
    exact hskip
  case isTrue hpass =>
    have hfresh : entry score a ∉ heap := by
      intro hin
      obtain ⟨b, hb, heq⟩ := h.scored _ hin
      exact hnew (entry_injective score heq ▸ hb)
    let pushed := heap.orderedInsert (· ≤ ·) (entry score a)
    have hmem : ∀ e, e ∈ pushed ↔ e = entry score a ∨ e ∈ heap :=
      fun e => mem_orderedInsert (· ≤ ·)
    have hlen : pushed.length = heap.length + 1 := orderedInsert_length (· ≤ ·) _ _
    have hsorted : pushed.Pairwise (· < ·) := by
      have hle : pushed.Pairwise (· ≤ ·) :=
        List.Pairwise.orderedInsert _ _ (h.sorted.imp fun hlt => hlt.le)
      have hnodup : pushed.Nodup := ((perm_orderedInsert (· ≤ ·) _ _).nodup_iff).mpr
        (nodup_cons.mpr ⟨hfresh, h.sorted.imp fun hlt => hlt.ne⟩)
      exact (hle.and hnodup).imp fun hab => lt_of_le_of_ne hab.1 hab.2
    have hscored : ∀ e ∈ pushed, ∃ b ∈ insert a seen, e = entry score b := by
      intro e he
      rcases (hmem e).mp he with rfl | hin
      · exact ⟨a, Set.mem_insert _ _, rfl⟩
      · obtain ⟨b, hb, heq⟩ := h.scored e hin
        exact ⟨b, Set.mem_insert_of_mem _ hb, heq⟩
    have hpositive : ∀ e ∈ pushed, 0 < (ofLex e).1 := by
      intro e he
      rcases (hmem e).mp he with rfl | hin
      · exact hpos
      · exact h.positive e hin
    -- Every entry passes the old threshold, if there is no room.
    have hover : heap.length = k → ∀ e ∈ pushed, threshold ≤ (ofLex e).1 := by
      intro hfull e he
      rcases (hmem e).mp he with rfl | hin
      · exact hpass.le
      · exact h.root hfull e hin
    have hpush : push k (entry score a) heap = if k < pushed.length then pushed.tail else pushed :=
      rfl
    rw [hpush]
    dsimp only
    split
    case isTrue hlong =>
      -- The heap was full, and its new root goes.
      have hfull : heap.length = k := by
        have := h.room
        omega
      obtain ⟨least, kept, hkept⟩ : ∃ least kept, pushed = least :: kept :=
        exists_cons_of_length_pos (by omega)
      have hsize : kept.length = k := by
        rw [hkept, length_cons] at hlen
        omega
      have htail : pushed.tail = kept := by rw [hkept]; rfl
      rw [hkept] at hsorted hmem hscored hpositive
      rw [htail, if_pos hsize]
      obtain ⟨root, hroot, hscore⟩ := exists_rootScore (length_pos_iff.mp (hsize ▸ hk))
      have hrise : threshold ≤ rootScore kept := by
        rw [hscore]
        exact hover hfull root (hkept ▸ mem_cons_of_mem _ hroot)
      refine ⟨(pairwise_cons.mp hsorted).2, fun e he => hscored e (mem_cons_of_mem _ he),
        fun e he => hpositive e (mem_cons_of_mem _ he), h.nonneg.trans hrise, hsize.le,
        fun hlt => absurd hsize hlt.ne,
        fun _ e he => rootScore_le (pairwise_cons.mp hsorted).2 he, fun b hb hout => ⟨hsize, ?_⟩⟩
      by_cases hleast : entry score b = least
      · rw [hscore, show score b = (ofLex least).1 from hleast ▸ rfl]
        exact fst_le_of_lt ((pairwise_cons.mp hsorted).1 root hroot)
      · have hnot : ¬(entry score b = entry score a ∨ entry score b ∈ heap) := by
          rw [← hmem, mem_cons]
          exact not_or.mpr ⟨hleast, hout⟩
        rw [not_or] at hnot
        have hold : b ∈ seen :=
          (Set.mem_insert_iff.mp hb).resolve_left fun hba => hnot.1 (hba ▸ rfl)
        exact (h.omitted b hold hnot.2).2.trans hrise
    case isFalse hshort =>
      -- There was room, and nothing was omitted yet.
      have hroom : heap.length < k := by omega
      have hnone : ∀ b ∈ insert a seen, entry score b ∈ pushed := by
        intro b hb
        rw [hmem]
        by_contra hnot
        rw [not_or] at hnot
        have hold : b ∈ seen :=
          (Set.mem_insert_iff.mp hb).resolve_left fun hba => hnot.1 (hba ▸ rfl)
        exact absurd (h.omitted b hold hnot.2).1 hroom.ne
      refine ⟨hsorted, hscored, hpositive, ?_, by omega, fun hlt => ?_, fun hsize e he => ?_,
        fun b hb hout => absurd (hnone b hb) hout⟩
      · split
        · obtain ⟨root, hroot, hscore⟩ := exists_rootScore (ne_nil_of_mem ((hmem _).mpr (.inl rfl)))
          rw [hscore]
          exact (hpositive root hroot).le
        · exact h.nonneg
      · rw [if_neg hlt.ne]
        exact h.low hroom
      · rw [if_pos hsize]
        exact rootScore_le hsorted he

lemma Keeps.nodup_items (h : Keeps k score seen heap threshold) :
    (heap.map fun e => (ofLex e).2).Nodup := by
  refine List.Nodup.map_on (fun e he e' he' heq => ?_) (h.sorted.imp fun hlt => hlt.ne)
  obtain ⟨a, -, rfl⟩ := h.scored e he
  obtain ⟨b, -, rfl⟩ := h.scored e' he'
  exact congrArg (entry score) heq

lemma Keeps.best {all : Finset ι} (h : Keeps k score ↑all heap threshold) :
    heap.length = min k all.card ∧
      ∀ a ∈ all, entry score a ∉ heap → ∀ e ∈ heap, score a ≤ (ofLex e).1 := by
  refine ⟨?_, fun a ha hout e he => ?_⟩
  · -- The items of the entries are different ones of `all`.
    have hnodup := h.nodup_items
    have hsub : (heap.map fun e => (ofLex e).2).toFinset ⊆ all := by
      intro a ha
      obtain ⟨e, he, rfl⟩ := mem_map.mp (mem_toFinset.mp ha)
      obtain ⟨b, hb, rfl⟩ := h.scored e he
      exact hb
    have hcard : heap.length = (heap.map fun e => (ofLex e).2).toFinset.card := by
      rw [toFinset_card_of_nodup hnodup, length_map]
    have hle : heap.length ≤ all.card := hcard ▸ Finset.card_le_card hsub
    rcases h.room.lt_or_eq with hroom | hfull
    · -- With room left nothing is omitted.
      have hall : all ⊆ (heap.map fun e => (ofLex e).2).toFinset := by
        intro a ha
        by_cases hin : entry score a ∈ heap
        · exact mem_toFinset.mpr (mem_map.mpr ⟨_, hin, rfl⟩)
        · exact absurd (h.omitted a ha hin).1 hroom.ne
      have := Finset.card_le_card hall
      omega
    · omega
  · obtain ⟨hfull, hlow⟩ := h.omitted a ha hout
    exact hlow.trans (h.root hfull e he)

/-- The best `k` of all items, with their scores, the best first. -/
structure TopK (k : ℕ) (score : ι → K) (all : Finset ι) (hits : List (ι × K)) : Prop where
  length : hits.length = min k all.card
  nodup : (hits.map Prod.fst).Nodup
  scored : ∀ hit ∈ hits, hit.1 ∈ all ∧ hit.2 = score hit.1
  descending : hits.Pairwise fun a b => b.2 ≤ a.2
  best : ∀ a ∈ all, a ∉ hits.map Prod.fst → ∀ hit ∈ hits, score a ≤ hit.2

/-- **The entries of a heap that has seen all items, sorted by their scores.** -/
theorem Keeps.topK {all : Finset ι} (h : Keeps k score ↑all heap threshold) {hits : List (ι × K)}
    (hperm : hits.Perm (heap.map fun e => ((ofLex e).2, (ofLex e).1)))
    (hdesc : hits.Pairwise fun a b => b.2 ≤ a.2) : TopK k score all hits := by
  have hmem : ∀ hit ∈ hits, toLex (hit.2, hit.1) ∈ heap := by
    intro hit hin
    obtain ⟨e, he, rfl⟩ := mem_map.mp (hperm.mem_iff.mp hin)
    exact he
  have hfst : (hits.map Prod.fst).Perm (heap.map fun e => (ofLex e).2) := by
    have hmap := hperm.map Prod.fst
    rwa [map_map] at hmap
  refine ⟨?_, hfst.nodup_iff.mpr h.nodup_items, fun hit hin => ?_, hdesc,
    fun a ha hout hit hin => ?_⟩
  · rw [hperm.length_eq, length_map, h.best.1]
  · obtain ⟨a, ha, heq⟩ := h.scored _ (hmem hit hin)
    have hitem : hit.1 = a := congrArg (fun e => (ofLex e).2) heq
    have hscore : hit.2 = score a := congrArg (fun e => (ofLex e).1) heq
    exact ⟨hitem ▸ ha, by rw [hscore, hitem]⟩
  · refine h.best.2 a ha (fun hent => hout ?_) _ (hmem hit hin)
    exact hfst.mem_iff.mpr (mem_map.mpr ⟨_, hent, rfl⟩)

section TopK

variable {all more : Finset ι} {hits hits' : List (ι × K)}

omit [Zero K] [LinearOrder ι] in
lemma TopK.nil (k : ℕ) (score : ι → K) : TopK k score ∅ [] :=
  ⟨(Nat.min_zero k).symm, .nil, fun _ h => absurd h not_mem_nil, .nil,
    fun _ h => absurd h (Finset.notMem_empty _)⟩

omit [Zero K] in
/-- A list of all items is the best of them. -/
theorem topK_of_forall (hnodup : (hits.map Prod.fst).Nodup)
    (hall : ∀ a, a ∈ hits.map Prod.fst ↔ a ∈ all)
    (hscored : ∀ hit ∈ hits, hit.2 = score hit.1) (hdesc : hits.Pairwise fun a b => b.2 ≤ a.2)
    (hk : all.card ≤ k) : TopK k score all hits where
  length := by
    have htoFinset : (hits.map Prod.fst).toFinset = all := Finset.ext fun a => by
      rw [mem_toFinset, hall]
    rw [min_eq_right hk, ← htoFinset, toFinset_card_of_nodup hnodup, length_map]
  nodup := hnodup
  scored hit hin := ⟨(hall hit.1).mp (mem_map_of_mem hin), hscored hit hin⟩
  descending := hdesc
  best a ha hout := absurd ((hall a).mpr ha) hout

omit [Zero K] in
/-- With room for all items none is omitted. -/
theorem TopK.mem_of_card_le (h : TopK k score all hits) (hk : all.card ≤ k) {a : ι} (ha : a ∈ all) :
    a ∈ hits.map Prod.fst := by
  have hsub : (hits.map Prod.fst).toFinset ⊆ all := by
    intro b hb
    obtain ⟨hit, hin, rfl⟩ := mem_map.mp (mem_toFinset.mp hb)
    exact (h.scored hit hin).1
  have hcard : all.card ≤ (hits.map Prod.fst).toFinset.card := by
    rw [toFinset_card_of_nodup h.nodup, length_map, h.length, min_eq_right hk]
  exact mem_toFinset.mp ((Finset.eq_of_subset_of_card_le hsub hcard).symm ▸ ha)

omit [Zero K] [LinearOrder ι] in
/-- Fewer of them, after sorting again. -/
theorem TopK.take {n : ℕ} (h : TopK k score all hits) (hn : n ≤ k) (hperm : hits'.Perm hits)
    (hdesc : hits'.Pairwise fun a b => b.2 ≤ a.2) : TopK n score all (hits'.take n) where
  length := by rw [length_take, hperm.length_eq, h.length, ← min_assoc, min_eq_left hn]
  nodup := ((hperm.map Prod.fst).nodup_iff.mpr h.nodup).sublist ((take_sublist n hits').map _)
  scored hit hin := h.scored hit (hperm.mem_iff.mp (mem_of_mem_take hin))
  descending := hdesc.sublist (take_sublist n hits')
  best a ha hout hit hin := by
    by_cases hlisted : a ∈ hits.map Prod.fst
    · -- The item was cut off behind the hit.
      obtain ⟨other, hother, rfl⟩ := mem_map.mp hlisted
      have hsplit : other ∈ hits'.take n ++ hits'.drop n :=
        (take_append_drop n hits').symm ▸ hperm.mem_iff.mpr hother
      rcases mem_append.mp hsplit with htake | hdrop
      · exact absurd (mem_map_of_mem htake) hout
      · have hpair := hdesc
        rw [← take_append_drop n hits', pairwise_append] at hpair
        rw [← (h.scored other hother).2]
        exact hpair.2.2 hit hin other hdrop
    · exact h.best a ha hlisted hit (hperm.mem_iff.mp (mem_of_mem_take hin))

omit [LinearOrder ι] in
/-- **More items without a score**: the list is that of all of them exactly if there are none, or
the others are enough. -/
theorem TopK.widen_iff (h : TopK k score all hits) (hsub : all ⊆ more)
    (hpos : ∀ a ∈ all, 0 < score a)
    (hzero : ∀ a ∈ more, a ∉ all → score a ≤ 0) :
    TopK k score more hits ↔ more ⊆ all ∨ k ≤ all.card := by
  have hcard := Finset.card_le_card hsub
  constructor
  · intro hmore
    have hlength := h.length.symm.trans hmore.length
    rcases le_or_gt k all.card with hle | hlt
    · exact .inr hle
    · refine .inl (Finset.eq_of_subset_of_card_le hsub ?_).ge
      omega
  · rintro (hle | hle)
    · exact (hsub.antisymm hle) ▸ h
    · refine ⟨?_, h.nodup, fun hit hin => ⟨hsub (h.scored hit hin).1, (h.scored hit hin).2⟩,
        h.descending, fun a ha hout hit hin => ?_⟩
      · rw [h.length]
        omega
      · by_cases hin' : a ∈ all
        · exact h.best a hin' hout hit hin
        · obtain ⟨hmem, hscore⟩ := h.scored hit hin
          exact (hzero a ha hin').trans (hscore ▸ (hpos hit.1 hmem).le)

end TopK

end BoundedHeap
