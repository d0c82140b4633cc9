import Mathlib.Algebra.BigOperators.Group.List.Basic
import IssunDB.Lib.BoundedHeap
import IssunDB.Lib.Sorting
import IssunDB.Text.Scorers

/-!
# Weak-AND retrieval

`wandTopK` walks the posting lists of the query terms together, from document to document. It skips
the documents that only the first few of its cursors can hold, if the upper bounds of those do not
pass the score of the `k`-th best document so far.

* `PostingCursor.moveTo` — where a cursor stands once the documents below some id are done;
* `Wanding` — the invariant: every cursor has passed exactly the documents that are done, and the
  heap keeps the best of them;
* `wandTopK_exact` — the result.
-/

namespace IssunDB.Text

open List Option BoundedHeap

variable {K : Type}

/-! ## Cursors -/

/-- `PostingCursor`: the documents of a query term, ascending, with the frequency of the term. -/
structure PostingCursor (K : Type) where
  postings : List (NodeId × ℕ)
  pos : ℕ
  idf : K
  upperBound : K
  qtf : K

namespace PostingCursor

/-- `PostingCursor::new`. -/
def new (postings : List (NodeId × ℕ)) (idf upperBound qtf : K) : PostingCursor K :=
  ⟨postings, 0, idf, upperBound, qtf⟩

/-- The document that the cursor stands at. -/
def current (c : PostingCursor K) : Option NodeId := c.postings[c.pos]?.map Prod.fst

/-- The term frequency there. -/
def currentTf (c : PostingCursor K) : ℕ := (c.postings[c.pos]?.map Prod.snd).getD 0

/-- `advance`. -/
def advance (c : PostingCursor K) : PostingCursor K := { c with pos := c.pos + 1 }

/-- Move on to the first document that is not below the target. -/
def skipTo (c : PostingCursor K) (target : NodeId) : PostingCursor K :=
  { c with pos := c.pos + ((c.postings.drop c.pos).takeWhile fun p => p.1 < target).length }

/-- What cursors are sorted by. -/
def key (c : PostingCursor K) : NodeId := c.current.getD (2 ^ 64 - 1)

/-- The cursor stands at a document. -/
def live (c : PostingCursor K) : Bool := c.current.isSome

/-- The term is in the document. -/
def Holds (c : PostingCursor K) (d : NodeId) : Prop := ∃ tf, (d, tf) ∈ c.postings

/-- The cursor, moved to the first document that is not below the target. -/
def moveTo (target : NodeId) (c : PostingCursor K) : PostingCursor K :=
  { c with pos := (c.postings.takeWhile fun p => p.1 < target).length }

end PostingCursor

/-- What the standard library leaves open: the order of equal keys in an unstable sort, and the
order in which a heap is drained. -/
structure Unspecified (K : Type) where
  sortByCurrent : List (PostingCursor K) → List (PostingCursor K)
  perm_sortByCurrent : ∀ l, (sortByCurrent l).Perm l
  sorted_sortByCurrent : ∀ l, (sortByCurrent l).Pairwise fun a b => a.key ≤ b.key
  drain : Heap K NodeId → Heap K NodeId
  perm_drain : ∀ heap, (drain heap).Perm heap

/-! ## The loop -/

section Definitions

variable [Field K] [LinearOrder K] (U : Unspecified K) (scorer : Scorer K)
  (docLengths : Table NodeId ℕ) (avgdl : K)

def termScore (c : PostingCursor K) (tf : ℕ) (d : NodeId) : K :=
  scorer.score tf (((docLengths.get d).getD 0 : ℕ) : K) avgdl c.idf c.qtf

/-- The index of the first cursor at which the sum of upper bounds passes the threshold. -/
def findPivot (threshold : K) : K → List (PostingCursor K) → Option ℕ
  | _, [] => none
  | prefixUb, c :: cursors =>
    if threshold < prefixUb + c.upperBound then some 0
    else (findPivot threshold (prefixUb + c.upperBound) cursors).map (· + 1)

/-- The score of the document that the first cursors stand at. -/
def totalScore (pivotDoc : NodeId) : K → List (PostingCursor K) → K
  | total, [] => total
  | total, c :: cursors =>
    if c.current = some pivotDoc then
      totalScore pivotDoc (total + termScore scorer docLengths avgdl c c.currentTf pivotDoc) cursors
    else total

/-- The loop of `wand_top_k`, for at most `fuel` rounds. -/
def wandLoop (k : ℕ) : ℕ → List (PostingCursor K) → Heap K NodeId → K → Option (Heap K NodeId)
  | 0, _, _, _ => none
  | fuel + 1, cursors, heap, threshold =>
    let cursors := U.sortByCurrent (cursors.filter (·.live))
    match cursors with
    | [] => some heap
    | first :: _ =>
      match (findPivot threshold 0 cursors).bind fun i => cursors[i]?.map fun c => (i, c) with
      | none => some heap
      | some (i, pivot) =>
        match pivot.current with
        | none => some heap
        | some pivotDoc =>
          if first.current = some pivotDoc then
            let total := totalScore scorer docLengths avgdl pivotDoc 0 cursors
            let (heap, threshold) := offer k (toLex (total, pivotDoc)) heap threshold
            wandLoop k fuel
              (cursors.map fun c => if c.current =
                some pivotDoc then c.advance else c) heap threshold
          else
            wandLoop k fuel ((cursors.take i).map (fun c =>
              if c.current.all (· < pivotDoc) then c.skipTo pivotDoc else c) ++ cursors.drop i)
              heap threshold

/-- `wand_top_k`, for at most `fuel` rounds of its loop. -/
def wandTopK (fuel : ℕ) (cursors : List (PostingCursor K)) (k : ℕ) : Option (List (NodeId × K)) :=
  if k = 0 ∨ cursors = [] then some []
  else (wandLoop U scorer docLengths avgdl k fuel cursors [] 0).map fun heap =>
    stableSort (fun a b => compare b.2 a.2) ((U.drain heap).map fun e => ((ofLex e).2, (ofLex e).1))

end Definitions

/-! ## Moving cursors -/

section Lists

variable {α : Type} {p q : α → Bool} {l : List α}

/-- A stronger test stops first, and the weaker one goes on from there. -/
theorem takeWhile_append_takeWhile (h : ∀ a, p a = true → q a = true) :
    l.takeWhile q = l.takeWhile p ++ (l.drop (l.takeWhile p).length).takeWhile q := by
  induction l with
  | nil => rfl
  | cons a l ih =>
    by_cases hp : p a = true
    · rw [takeWhile_cons_of_pos hp, takeWhile_cons_of_pos (h a hp), length_cons,
        drop_succ_cons, cons_append, ← ih]
    · rw [takeWhile_cons_of_neg hp]
      rfl

/-- Behind the elements that pass a test comes one that does not. -/
theorem not_of_getElem?_takeWhile {a : α} (h : l[(l.takeWhile p).length]? = some a) :
    ¬p a = true := by
  induction l with
  | nil => exact nomatch h
  | cons b l ih =>
    by_cases hb : p b = true
    · rw [takeWhile_cons_of_pos hb, length_cons, getElem?_cons_succ] at h
      exact ih h
    · rw [takeWhile_cons_of_neg hb, length_nil, getElem?_cons_zero] at h
      exact some.inj h ▸ hb

lemma all_of_getElem?_takeWhile (h : l[(l.takeWhile p).length]? = none) : ∀ a ∈ l, p a = true := by
  have hle : l.length ≤ (l.takeWhile p).length := List.getElem?_eq_none_iff.mp h
  have heq : l.takeWhile p = l := (List.takeWhile_prefix p).eq_of_length_le hle
  exact fun a ha => mem_takeWhile_imp (heq.symm ▸ ha)

lemma takeWhile_drop_of_getElem? {n : ℕ} {a : α} (h : l[n]? = some a) :
    (l.drop n).takeWhile q = if q a then a :: (l.drop (n + 1)).takeWhile q else [] := by
  obtain ⟨hlt, rfl⟩ := List.getElem?_eq_some_iff.mp h
  rw [drop_eq_getElem_cons hlt, takeWhile_cons]

/-- Nothing is taken where the next element does not pass. -/
theorem takeWhile_drop_eq_nil {n : ℕ} (h : ∀ a, l[n]? = some a → ¬q a = true) :
    (l.drop n).takeWhile q = [] := by
  rcases hget : l[n]? with _ | a
  · rw [drop_eq_nil_of_le (List.getElem?_eq_none_iff.mp hget)]
    rfl
  · rw [takeWhile_drop_of_getElem? hget, if_neg (h a hget)]

end Lists

namespace PostingCursor

def Ascending (c : PostingCursor K) : Prop := c.postings.Pairwise fun p q => p.1 < q.1

variable {c : PostingCursor K} {m t d : NodeId}

lemma moveTo_moveTo : (c.moveTo m).moveTo t = c.moveTo t := rfl

/-- A moved cursor stands at the first document that is not below the target. -/
theorem current_moveTo_eq_some (hc : c.Ascending) (h : (c.moveTo m).current = some d) :
    m ≤ d ∧ (d, (c.moveTo m).currentTf) ∈ c.postings ∧ ∀ d', c.Holds d' → m ≤ d' → d ≤ d' := by
  obtain ⟨p, hget, rfl⟩ := map_eq_some_iff.mp h
  have htf : (c.moveTo m).currentTf = p.2 := by
    unfold currentTf
    rw [hget]
    rfl
  change c.postings[(c.moveTo m).pos]? = some p at hget
  obtain ⟨hlt, hval⟩ := List.getElem?_eq_some_iff.mp hget
  have hlow : ¬decide (p.1 < m) = true :=
    not_of_getElem?_takeWhile (p := fun q : NodeId × ℕ => q.1 < m) hget
  refine ⟨by simpa using hlow, by rw [htf]; exact mem_of_getElem? hget, ?_⟩
  rintro d' ⟨tf', hmem⟩ hle
  obtain ⟨j, hj, hjval⟩ := getElem_of_mem hmem
  by_contra hbelow
  -- A document in front of the cursor is below the target.
  have hfront : j < (c.moveTo m).pos := by
    by_contra hge
    rcases (not_lt.mp hge).lt_or_eq with hlt' | rfl
    · have hpair := pairwise_iff_getElem.mp hc _ _ hlt hj hlt'
      rw [hjval, hval] at hpair
      exact hbelow hpair.le
    · rw [hval] at hjval
      exact hbelow (congrArg Prod.fst hjval).le
  have hin : (d', tf') ∈ c.postings.takeWhile fun p => p.1 < m := by
    have htake : c.postings.takeWhile (fun p => p.1 < m) = c.postings.take (c.moveTo m).pos :=
      prefix_iff_eq_take.mp (List.takeWhile_prefix _)
    rw [htake, mem_take_iff_getElem]
    exact ⟨j, lt_min hfront hj, hjval⟩
  have hbelowM := mem_takeWhile_imp (p := fun q : NodeId × ℕ => q.1 < m) hin
  exact absurd hle (not_le.mpr (of_decide_eq_true hbelowM))

/-- A moved cursor stands nowhere if all documents are below the target. -/
theorem current_moveTo_eq_none (h : (c.moveTo m).current = none) : ∀ d, c.Holds d → d < m := by
  rintro d ⟨tf, hmem⟩
  exact of_decide_eq_true (all_of_getElem?_takeWhile (map_eq_none_iff.mp h) _ hmem)

lemma skipTo_moveTo (h : m ≤ t) : (c.moveTo m).skipTo t = c.moveTo t := by
  have hsplit := takeWhile_append_takeWhile (l := c.postings) (p := fun p => p.1 < m)
    (q := fun p => p.1 < t) fun p hp => decide_eq_true ((of_decide_eq_true hp).trans_le h)
  unfold skipTo moveTo
  rw [hsplit, length_append]

/-- Where no document is passed a cursor does not move. -/
theorem moveTo_eq_of_le (hc : c.Ascending) (h : m ≤ t) (hnone : ∀ d, c.Holds d → m ≤ d → t ≤ d) :
    c.moveTo m = c.moveTo t := by
  have hsplit := takeWhile_append_takeWhile (l := c.postings) (p := fun p => p.1 < m)
    (q := fun p => p.1 < t) fun p hp => decide_eq_true ((of_decide_eq_true hp).trans_le h)
  have hnil : (c.postings.drop (c.moveTo m).pos).takeWhile (fun p => p.1 < t) = [] := by
    refine takeWhile_drop_eq_nil fun a hget hlt => ?_
    obtain ⟨hm, hmem, -⟩ := current_moveTo_eq_some hc (congrArg (Option.map Prod.fst) hget)
    exact absurd (of_decide_eq_true hlt) (not_lt.mpr (hnone a.1 ⟨_, hmem⟩ hm))
  unfold moveTo at hnil ⊢
  rw [hsplit, hnil, append_nil]

lemma advance_moveTo (hc : c.Ascending) (h : (c.moveTo m).current = some d) :
    (c.moveTo m).advance = c.moveTo (d + 1) := by
  obtain ⟨hm, -, -⟩ := current_moveTo_eq_some hc h
  obtain ⟨p, hget, rfl⟩ := map_eq_some_iff.mp h
  change c.postings[(c.moveTo m).pos]? = some p at hget
  have hsplit := takeWhile_append_takeWhile (l := c.postings) (p := fun q => q.1 < m)
    (q := fun q => q.1 < p.1 + 1) fun q hq =>
      decide_eq_true ((of_decide_eq_true hq).trans_le (hm.trans (Nat.le_succ p.1)))
  -- Of the documents from there on exactly the first one is passed.
  have hone : (c.postings.drop (c.moveTo m).pos).takeWhile (fun q => q.1 < p.1 + 1) = [p] := by
    rw [takeWhile_drop_of_getElem? hget, if_pos (decide_eq_true (Nat.lt_succ_self p.1)),
      takeWhile_drop_eq_nil fun q hq => ?_]
    obtain ⟨hlt, hval⟩ := List.getElem?_eq_some_iff.mp hget
    obtain ⟨hlt', hval'⟩ := List.getElem?_eq_some_iff.mp hq
    have hpair := pairwise_iff_getElem.mp hc _ _ hlt hlt' (Nat.lt_succ_self _)
    rw [hval, hval'] at hpair
    exact fun hle => absurd (Nat.lt_succ_iff.mp (of_decide_eq_true hle)) (not_le.mpr hpair)
  unfold moveTo at hone
  unfold moveTo advance
  rw [hsplit, hone, length_append]
  rfl

end PostingCursor

/-! ## Exhaustive scores -/

section Scores

variable [Field K] [LinearOrder K] (scorer : Scorer K) (docLengths : Table NodeId ℕ) (avgdl : K)

/-- What the term of a cursor adds to the score of a document. -/
def termOf (c : PostingCursor K) (d : NodeId) : K :=
  ((c.postings.find? fun p => p.1 = d).map fun p =>
    termScore scorer docLengths avgdl c p.2 d).getD 0

/-- The sum over all terms that are in a document. -/
def exhaustive (cursors : List (PostingCursor K)) (d : NodeId) : K :=
  (cursors.map fun c => termOf scorer docLengths avgdl c d).sum

/-- The documents that hold a term. -/
def docs (cursors : List (PostingCursor K)) : Finset NodeId :=
  (cursors.flatMap fun c => c.postings.map Prod.fst).toFinset

def scoring (cursors : List (PostingCursor K)) : Finset NodeId :=
  (docs cursors).filter fun d => 0 < exhaustive scorer docLengths avgdl cursors d

/-- The documents ascend, and scores are between zero and the upper bound. -/
structure PostingCursor.Bounded (c : PostingCursor K) : Prop where
  ascending : c.Ascending
  score_nonneg : ∀ p ∈ c.postings, 0 ≤ termScore scorer docLengths avgdl c p.2 p.1
  score_le : ∀ p ∈ c.postings, termScore scorer docLengths avgdl c p.2 p.1 ≤ c.upperBound

/-- A document that holds the term of the cursor scores for it. -/
structure PostingCursor.Positive (c : PostingCursor K) : Prop extends
    c.Bounded scorer docLengths avgdl where
  score_pos : ∀ p ∈ c.postings, 0 < termScore scorer docLengths avgdl c p.2 p.1

variable {scorer docLengths avgdl} {c : PostingCursor K} {cursors cursors' : List (PostingCursor K)}
  {d m t : NodeId}

omit [Field K] [LinearOrder K] in
lemma mem_docs : d ∈ docs cursors ↔ ∃ c ∈ cursors, c.Holds d := by
  simp only [docs, List.mem_toFinset, mem_flatMap, List.mem_map, PostingCursor.Holds,
    Prod.exists, exists_and_right, exists_eq_right]

omit [LinearOrder K] in
lemma termOf_of_mem (hc : c.Ascending) {tf : ℕ} (h : (d, tf) ∈ c.postings) :
    termOf scorer docLengths avgdl c d = termScore scorer docLengths avgdl c tf d := by
  have hfind : c.postings.find? (fun p => p.1 = d) = some (d, tf) := by
    rcases hres : c.postings.find? (fun p => p.1 = d) with _ | p
    · exact absurd (find?_eq_none.mp hres _ h) (by simp)
    · have hp : p.1 = d := by simpa using find?_some hres
      have hnodup : (c.postings.map Prod.fst).Nodup :=
        pairwise_map.mpr (hc.imp fun hlt => hlt.ne)
      exact hres.trans
        (congrArg some (inj_on_of_nodup_map hnodup (mem_of_find?_eq_some hres) h hp))
  rw [termOf, hfind]
  rfl

omit [LinearOrder K] in
lemma termOf_of_not_holds (h : ¬c.Holds d) : termOf scorer docLengths avgdl c d = 0 := by
  have hfind : c.postings.find? (fun p => p.1 = d) = none := by
    rw [find?_eq_none]
    intro p hp hpd
    exact h ⟨p.2, by simpa [← of_decide_eq_true hpd] using hp⟩
  rw [termOf, hfind]
  rfl

omit [LinearOrder K] in
lemma exhaustive_perm (h : cursors.Perm cursors') (d : NodeId) :
    exhaustive scorer docLengths avgdl cursors d = exhaustive scorer docLengths avgdl cursors' d :=
  (h.map _).sum_eq

omit [LinearOrder K] in
/-- Without a term of its own a document has no score. -/
theorem exhaustive_eq_zero (h : ∀ c ∈ cursors, ¬c.Holds d) :
    exhaustive scorer docLengths avgdl cursors d = 0 := by
  refine sum_eq_zero fun x hx => ?_
  obtain ⟨c, hc, rfl⟩ := List.mem_map.mp hx
  exact termOf_of_not_holds (h c hc)

lemma PostingCursor.Bounded.termOf_nonneg (hc : c.Bounded scorer docLengths avgdl) (d : NodeId) :
    0 ≤ termOf scorer docLengths avgdl c d := by
  by_cases h : c.Holds d
  · obtain ⟨tf, hmem⟩ := h
    rw [termOf_of_mem hc.ascending hmem]
    exact hc.score_nonneg _ hmem
  · exact (termOf_of_not_holds h).ge

lemma PostingCursor.Bounded.termOf_le (hc : c.Bounded scorer docLengths avgdl) (h : c.Holds d) :
    termOf scorer docLengths avgdl c d ≤ c.upperBound := by
  obtain ⟨tf, hmem⟩ := h
  rw [termOf_of_mem hc.ascending hmem]
  exact hc.score_le _ hmem

lemma PostingCursor.Bounded.upperBound_nonneg (hc : c.Bounded scorer docLengths avgdl)
    (h : c.Holds d) : 0 ≤ c.upperBound :=
  (hc.termOf_nonneg d).trans (hc.termOf_le h)

variable [IsStrictOrderedRing K]

/-- A document with a term that scores has a positive score. -/
theorem exhaustive_pos (hcursors : ∀ c ∈ cursors, c.Bounded scorer docLengths avgdl)
    {c : PostingCursor K} (hc : c ∈ cursors) (hpos : 0 < termOf scorer docLengths avgdl c d) :
    0 < exhaustive scorer docLengths avgdl cursors d := by
  refine hpos.trans_le (single_le_sum (fun x hx => ?_) _ (List.mem_map_of_mem hc))
  obtain ⟨c', hc', rfl⟩ := List.mem_map.mp hx
  exact (hcursors c' hc').termOf_nonneg d

/-- If every term scores then every document does. -/
theorem scoring_eq_docs (h : ∀ c ∈ cursors, c.Positive scorer docLengths avgdl) :
    scoring scorer docLengths avgdl cursors = docs cursors := by
  refine Finset.filter_true_of_mem fun d hd => ?_
  obtain ⟨c, hc, tf, hmem⟩ := mem_docs.mp hd
  refine exhaustive_pos (fun c hc => (h c hc).toBounded) hc ?_
  rw [termOf_of_mem (h c hc).ascending hmem]
  exact (h c hc).score_pos _ hmem

/-- A score is at most the sum of the upper bounds. -/
theorem exhaustive_le (hcursors : ∀ c ∈ cursors, c.Bounded scorer docLengths avgdl)
    (hub : ∀ c ∈ cursors, 0 ≤ c.upperBound) (d : NodeId) :
    exhaustive scorer docLengths avgdl cursors d ≤ (cursors.map (·.upperBound)).sum := by
  refine sum_le_sum fun c hc => ?_
  by_cases h : c.Holds d
  · exact (hcursors c hc).termOf_le h
  · exact (termOf_of_not_holds h).trans_le (hub c hc)

end Scores

/-! ## A round -/

section Rounds

variable [Field K] [LinearOrder K]

/-- The cursors in front of the pivot cannot pass the threshold. -/
theorem findPivot_eq_some {threshold : K} {cursors : List (PostingCursor K)} :
    ∀ {prefixUb : K} {i : ℕ}, prefixUb ≤ threshold → findPivot threshold prefixUb cursors = some i →
      i < cursors.length ∧ prefixUb + ((cursors.take i).map (·.upperBound)).sum ≤ threshold := by
  induction cursors with
  | nil => exact fun _ h => nomatch h
  | cons c cursors ih =>
    intro prefixUb i hle h
    rw [findPivot] at h
    split at h
    next =>
      cases h
      exact ⟨Nat.succ_pos _, by simpa using hle⟩
    next hlow =>
      obtain ⟨j, hj, rfl⟩ := map_eq_some_iff.mp h
      obtain ⟨hlt, hsum⟩ := ih (not_lt.mp hlow) hj
      refine ⟨Nat.succ_lt_succ hlt, ?_⟩
      rwa [take_succ_cons, map_cons, sum_cons, ← add_assoc]

/-- Without a pivot all cursors together cannot. -/
theorem findPivot_eq_none {threshold : K} {cursors : List (PostingCursor K)} :
    ∀ {prefixUb : K}, prefixUb ≤ threshold → findPivot threshold prefixUb cursors = none →
      prefixUb + (cursors.map (·.upperBound)).sum ≤ threshold := by
  induction cursors with
  | nil => exact fun hle _ => by simpa using hle
  | cons c cursors ih =>
    intro prefixUb hle h
    rw [findPivot] at h
    split at h
    next => exact nomatch h
    next hlow =>
      have hsum := ih (not_lt.mp hlow) (map_eq_none_iff.mp h)
      rwa [map_cons, sum_cons, ← add_assoc]

variable (scorer : Scorer K) (docLengths : Table NodeId ℕ) (avgdl : K)

/-- A cursor that has passed exactly the documents below `m`, and stands at another one. -/
structure Standing (m : NodeId) (c : PostingCursor K) : Prop where
  bounded : c.Bounded scorer docLengths avgdl
  moved : c.moveTo m = c
  live : c.live = true

variable {scorer docLengths avgdl} {c : PostingCursor K} {m t d : NodeId}

lemma Standing.spec (h : Standing scorer docLengths avgdl m c) :
    c.current = some c.key ∧ m ≤ c.key ∧ (c.key, c.currentTf) ∈ c.postings ∧
      ∀ d, c.Holds d → m ≤ d → c.key ≤ d := by
  obtain ⟨e, he⟩ := isSome_iff_exists.mp h.live
  have hkey : c.key = e := by rw [PostingCursor.key, he]; rfl
  have hmoved : (c.moveTo m).current = some e := by rw [h.moved]; exact he
  have hspec := PostingCursor.current_moveTo_eq_some h.bounded.ascending hmoved
  rw [h.moved] at hspec
  rw [hkey]
  exact ⟨he, hspec⟩

lemma Standing.holds_key (h : Standing scorer docLengths avgdl m c) : c.Holds c.key :=
  ⟨_, h.spec.2.2.1⟩

lemma Standing.upperBound_nonneg (h : Standing scorer docLengths avgdl m c) : 0 ≤ c.upperBound :=
  h.bounded.upperBound_nonneg h.holds_key

lemma Standing.moveTo_of_le_key (h : Standing scorer docLengths avgdl m c) (hm : m ≤ t)
    (hkey : t ≤ c.key) : c = c.moveTo t := by
  have hstay := PostingCursor.moveTo_eq_of_le h.bounded.ascending hm
    fun d hd hmd => hkey.trans (h.spec.2.2.2 d hd hmd)
  rwa [h.moved] at hstay

lemma Standing.not_holds (h : Standing scorer docLengths avgdl m c) (hm : m ≤ d)
    (hkey : d < c.key) :
    ¬c.Holds d :=
  fun hd => absurd (h.spec.2.2.2 d hd hm) (not_le.mpr hkey)

variable {cursors : List (PostingCursor K)}

/-- The full evaluation of the first document. -/
theorem totalScore_eq (hstand : ∀ c ∈ cursors, Standing scorer docLengths avgdl m c)
    (hsorted : cursors.Pairwise fun a b => a.key ≤ b.key) (hm : m ≤ d)
    (hfirst : ∀ c ∈ cursors, d ≤ c.key) (total : K) :
    totalScore scorer docLengths avgdl d total cursors =
      total + exhaustive scorer docLengths avgdl cursors d := by
  induction cursors generalizing total with
  | nil => exact (add_zero total).symm
  | cons c cursors ih =>
    have hc := hstand c mem_cons_self
    have hrest := fun c' hc' => hstand c' (mem_cons_of_mem c hc')
    rw [totalScore, hc.spec.1]
    split
    next heq =>
      have hkey : c.key = d := some.inj heq
      rw [ih hrest hsorted.of_cons (fun c' hc' => hfirst c' (mem_cons_of_mem c hc')), exhaustive,
        exhaustive, map_cons, sum_cons, add_assoc,
        termOf_of_mem hc.bounded.ascending (hkey ▸ hc.spec.2.2.1)]
    next hne =>
      -- The cursors behind it stand at least as far.
      have hlt : d < c.key :=
        lt_of_le_of_ne (hfirst c mem_cons_self) fun h => hne (congrArg some h.symm)
      have hzero : exhaustive scorer docLengths avgdl (c :: cursors) d = 0 := by
        refine exhaustive_eq_zero fun c' hc' => (hstand c' hc').not_holds hm ?_
        rcases mem_cons.mp hc' with rfl | hin
        · exact hlt
        · exact hlt.trans_le (rel_of_pairwise_cons hsorted hin)
      rw [hzero, add_zero]

/-! ### The invariant -/

variable (scorer docLengths avgdl)

/-- The documents below `m` are done. -/
structure Wanding (k : ℕ) (orig : List (PostingCursor K)) (m : NodeId)
    (cursors : List (PostingCursor K)) (heap : Heap K NodeId) (threshold : K) : Prop where
  passed : (cursors.filter (·.live)).Perm ((orig.map (PostingCursor.moveTo m)).filter (·.live))
  keeps : Keeps k (exhaustive scorer docLengths avgdl orig)
    {d | d ∈ scoring scorer docLengths avgdl orig ∧ d < m} heap threshold

/-- The live cursors in a round, in the order of their documents. -/
structure Round (orig : List (PostingCursor K)) (m : NodeId) (sorted : List (PostingCursor K)) :
    Prop where
  perm : sorted.Perm ((orig.map (PostingCursor.moveTo m)).filter (·.live))
  ascending : sorted.Pairwise fun a b => a.key ≤ b.key
  standing : ∀ c ∈ sorted, Standing scorer docLengths avgdl m c

variable {scorer docLengths avgdl} {k i : ℕ} {orig sorted : List (PostingCursor K)}
  {heap : Heap K NodeId} {threshold : K}

lemma Wanding.round (U : Unspecified K)
    (h : Wanding scorer docLengths avgdl k orig m cursors heap threshold)
    (horig : ∀ c ∈ orig, c.Bounded scorer docLengths avgdl) :
    Round scorer docLengths avgdl orig m (U.sortByCurrent (cursors.filter (·.live))) where
  perm := (U.perm_sortByCurrent _).trans h.passed
  ascending := U.sorted_sortByCurrent _
  standing c hc := by
    have hin := ((U.perm_sortByCurrent _).trans h.passed).mem_iff.mp hc
    obtain ⟨hmap, hlive⟩ := mem_filter.mp hin
    obtain ⟨c0, hc0, rfl⟩ := List.mem_map.mp hmap
    exact ⟨⟨(horig c0 hc0).ascending, (horig c0 hc0).score_nonneg, (horig c0 hc0).score_le⟩,
      rfl, hlive⟩

namespace Round

/-- The documents that are not done are held by cursors that are live. -/
theorem holds (h : Round scorer docLengths avgdl orig m sorted) (hd : d ∈ docs orig) (hm : m ≤ d) :
    ∃ c ∈ sorted, c.Holds d := by
  obtain ⟨c, hc, hcd⟩ := mem_docs.mp hd
  have hlive : (c.moveTo m).live = true := by
    by_contra hdead
    have hnone := not_isSome_iff_eq_none.mp hdead
    exact absurd hm (not_le.mpr (PostingCursor.current_moveTo_eq_none hnone d hcd))
  exact ⟨c.moveTo m, h.perm.mem_iff.mpr (mem_filter.mpr ⟨List.mem_map_of_mem hc, hlive⟩), hcd⟩

lemma mem_docs (h : Round scorer docLengths avgdl orig m sorted) {c : PostingCursor K}
    (hc : c ∈ sorted) (hd : c.Holds d) : d ∈ docs orig := by
  obtain ⟨c0, hc0, rfl⟩ := List.mem_map.mp (mem_filter.mp (h.perm.mem_iff.mp hc)).1
  exact Text.mem_docs.mpr ⟨c0, hc0, hd⟩

/-- The score of a document that is not done is the one over the live cursors. -/
theorem exhaustive_eq (h : Round scorer docLengths avgdl orig m sorted) (hm : m ≤ d) :
    exhaustive scorer docLengths avgdl sorted d = exhaustive scorer docLengths avgdl orig d := by
  rw [exhaustive_perm h.perm]
  clear h
  induction orig with
  | nil => rfl
  | cons c orig ih =>
    rw [map_cons, filter_cons]
    split
    next =>
      unfold exhaustive at ih ⊢
      rw [map_cons, sum_cons, map_cons, sum_cons, ih]
      rfl
    next hdead =>
      have hnone := not_isSome_iff_eq_none.mp hdead
      have hnot : ¬c.Holds d := fun hd =>
        absurd hm (not_le.mpr (PostingCursor.current_moveTo_eq_none hnone d hd))
      unfold exhaustive at ih ⊢
      rw [map_cons, sum_cons, termOf_of_not_holds hnot, zero_add, ih]

/-- All live cursors move on. -/
theorem passed (h : Round scorer docLengths avgdl orig m sorted) (ht : m ≤ t) :
    ((sorted.map (PostingCursor.moveTo t)).filter (·.live)).Perm
      ((orig.map (PostingCursor.moveTo t)).filter (·.live)) := by
  refine ((h.perm.map _).filter _).trans (List.Perm.of_eq ?_)
  rw [List.filter_map, List.filter_filter, List.filter_map, List.map_map, List.filter_map]
  change List.map (PostingCursor.moveTo t) _ = _
  congr 1
  refine filter_congr fun c _ => ?_
  -- A cursor that is live later is live now.
  have hlive : (c.moveTo t).live = true → (c.moveTo m).live = true := by
    intro hlive
    by_contra hdead
    have hnone := PostingCursor.current_moveTo_eq_none (not_isSome_iff_eq_none.mp hdead)
    have hall : (c.moveTo t).current = none := by
      refine eq_none_iff_forall_ne_some.mpr fun d hd => ?_
      obtain ⟨p, hget, rfl⟩ := map_eq_some_iff.mp hd
      have hlow := hnone p.1 ⟨p.2, mem_of_getElem? hget⟩
      exact not_of_getElem?_takeWhile (p := fun q : NodeId × ℕ => q.1 < t) hget
        (decide_eq_true (hlow.trans_le ht))
    exact absurd hall (isSome_iff_ne_none.mp hlive)
  simp only [Function.comp_apply, PostingCursor.moveTo_moveTo]
  cases hcase : (c.moveTo t).live with
  | false => rfl
  | true => rw [hlive hcase]; rfl

end Round

variable [IsStrictOrderedRing K]

lemma Round.exhaustive_take_le (h : Round scorer docLengths avgdl orig m sorted) (i : ℕ)
    (d : NodeId) :
    exhaustive scorer docLengths avgdl (sorted.take i) d ≤
    ((sorted.take i).map (·.upperBound)).sum :=
  exhaustive_le (fun c hc => (h.standing c (mem_of_mem_take hc)).bounded)
    (fun c hc => (h.standing c (mem_of_mem_take hc)).upperBound_nonneg) d

omit [IsStrictOrderedRing K] in
/-- Documents are skipped. -/
theorem Wanding.keeps_skip (h : Wanding scorer docLengths avgdl k orig m cursors heap threshold)
    (done : Set NodeId)
    (hlow : ∀ d ∈ scoring scorer docLengths avgdl orig, m ≤ d → d ∈ done →
      exhaustive scorer docLengths avgdl orig d ≤ threshold)
    (hdone : ∀ d < m, d ∈ done) :
    Keeps k (exhaustive scorer docLengths avgdl orig)
      {d | d ∈ scoring scorer docLengths avgdl orig ∧ d ∈ done} heap threshold := by
  have hskip := h.keeps.skip {d | d ∈ scoring scorer docLengths avgdl orig ∧ m ≤ d ∧ d ∈ done}
    (fun d hd => (Finset.mem_filter.mp hd.1).2) (fun d hd => hlow d hd.1 hd.2.1 hd.2.2)
  refine (congrArg (Keeps k _ · heap threshold) (Set.ext fun d => ?_)).mp hskip
  constructor
  · rintro (⟨hd, hlt⟩ | ⟨hd, -, hin⟩)
    · exact ⟨hd, hdone d hlt⟩
    · exact ⟨hd, hin⟩
  · rintro ⟨hd, hin⟩
    rcases lt_or_ge d m with hlt | hge
    · exact .inl ⟨hd, hlt⟩
    · exact .inr ⟨hd, hge, hin⟩

/-- **Without a pivot** no document is left that could pass the threshold. -/
theorem Wanding.stop (h : Wanding scorer docLengths avgdl k orig m cursors heap threshold)
    (hround : Round scorer docLengths avgdl orig m sorted)
    (hsum : (sorted.map (·.upperBound)).sum ≤ threshold) :
    Keeps k (exhaustive scorer docLengths avgdl orig) ↑(scoring scorer docLengths avgdl orig)
      heap threshold := by
  have hskip := h.keeps_skip Set.univ (fun d _ hm _ => ?_) (fun d _ => Set.mem_univ d)
  · exact (congrArg (Keeps k _ · heap threshold) (Set.ext fun d =>
      and_iff_left (Set.mem_univ d))).mp hskip
  · have htake := hround.exhaustive_take_le sorted.length d
    rw [take_length] at htake
    rw [← hround.exhaustive_eq hm]
    exact htake.trans hsum

/-- **The cursors in front of the pivot skip to it.** -/
theorem Wanding.skipTo (h : Wanding scorer docLengths avgdl k orig m cursors heap threshold)
    (hround : Round scorer docLengths avgdl orig m sorted) {pivot : PostingCursor K}
    (hpivot : sorted[i]? = some pivot)
    (hsum : ((sorted.take i).map (·.upperBound)).sum ≤ threshold) :
    Wanding scorer docLengths avgdl k orig pivot.key
      ((sorted.take i).map (fun c =>
        if c.current.all (· < pivot.key) then c.skipTo pivot.key else c) ++ sorted.drop i)
      heap threshold := by
  obtain ⟨hi, hval⟩ := List.getElem?_eq_some_iff.mp hpivot
  have hdrop : sorted.drop i = pivot :: sorted.drop (i + 1) := by rw [drop_eq_getElem_cons hi, hval]
  have hm := (hround.standing pivot (mem_of_getElem? hpivot)).spec.2.1
  -- From the pivot on no cursor is in front of it.
  have hbehind : ∀ c ∈ sorted.drop i, pivot.key ≤ c.key := by
    intro c hc
    rw [hdrop] at hc
    rcases mem_cons.mp hc with rfl | hin
    · exact le_refl _
    · have hpair := hround.ascending.sublist (drop_sublist i sorted)
      rw [hdrop] at hpair
      exact rel_of_pairwise_cons hpair hin
  have hmoved : (sorted.take i).map (fun c =>
      if c.current.all (· < pivot.key) then c.skipTo pivot.key else c) ++ sorted.drop i =
        sorted.map (PostingCursor.moveTo pivot.key) := by
    conv_rhs => rw [← take_append_drop i sorted, map_append]
    congr 1
    · refine map_congr_left fun c hc => ?_
      have hstand := hround.standing c (mem_of_mem_take hc)
      rw [hstand.spec.1]
      split
      next =>
        rw [← hstand.moved, PostingCursor.skipTo_moveTo hm, PostingCursor.moveTo_moveTo]
      next hnot => exact hstand.moveTo_of_le_key hm (by simpa using hnot)
    · refine (List.map_id _).symm.trans (map_congr_left fun c hc => ?_)
      exact (hround.standing c (mem_of_mem_drop hc)).moveTo_of_le_key hm (hbehind c hc)
  refine ⟨?_, h.keeps_skip {d | d < pivot.key} (fun d _ hd hlt => ?_)
    (fun d hd => hd.trans_le hm)⟩
  · rw [hmoved]
    exact hround.passed hm
  · -- Only the cursors in front of the pivot can hold a document that is skipped.
    have hzero : exhaustive scorer docLengths avgdl (sorted.drop i) d = 0 :=
      exhaustive_eq_zero fun c hc =>
        (hround.standing c (mem_of_mem_drop hc)).not_holds hd (lt_of_lt_of_le hlt (hbehind c hc))
    calc exhaustive scorer docLengths avgdl orig d
        = exhaustive scorer docLengths avgdl sorted d := (hround.exhaustive_eq hd).symm
      _ = exhaustive scorer docLengths avgdl (sorted.take i) d +
            exhaustive scorer docLengths avgdl (sorted.drop i) d := by
          conv_lhs => rw [← take_append_drop i sorted]
          rw [exhaustive, map_append, sum_append]
          rfl
      _ ≤ threshold := by
          rw [hzero, add_zero]
          exact (hround.exhaustive_take_le i d).trans hsum

omit [IsStrictOrderedRing K] in
/-- **The first document is evaluated**, and its cursors go past it. -/
theorem Wanding.evaluate (h : Wanding scorer docLengths avgdl k orig m cursors heap threshold)
    (hk : 0 < k) (hround : Round scorer docLengths avgdl orig m sorted) {first : PostingCursor K}
    (hfirst : sorted.head? = some first) :
    Wanding scorer docLengths avgdl k orig (first.key + 1)
      (sorted.map fun c => if c.current = some first.key then c.advance else c)
      (offer k (toLex (totalScore scorer docLengths avgdl first.key 0 sorted, first.key)) heap
        threshold).1
      (offer k (toLex (totalScore scorer docLengths avgdl first.key 0 sorted, first.key)) heap
        threshold).2 := by
  obtain ⟨rest, rfl⟩ := head?_eq_some_iff.mp hfirst
  have hstand := hround.standing first mem_cons_self
  obtain ⟨-, hm, -, -⟩ := hstand.spec
  have hle : ∀ c ∈ first :: rest, first.key ≤ c.key := by
    intro c hc
    rcases mem_cons.mp hc with rfl | hin
    · exact le_refl _
    · exact rel_of_pairwise_cons hround.ascending hin
  have htotal : totalScore scorer docLengths avgdl first.key 0 (first :: rest) =
      exhaustive scorer docLengths avgdl orig first.key := by
    rw [totalScore_eq hround.standing hround.ascending hm hle, zero_add, hround.exhaustive_eq hm]
  have hmoved : ((first :: rest).map fun c => if c.current = some first.key then c.advance else c) =
      (first :: rest).map (PostingCursor.moveTo (first.key + 1)) := by
    refine map_congr_left fun c hc => ?_
    have hc' := hround.standing c hc
    split
    next heq =>
      have hadv := PostingCursor.advance_moveTo hc'.bounded.ascending (m := m) (d := first.key)
        (by rw [hc'.moved]; exact heq)
      rwa [hc'.moved] at hadv
    next hne =>
      have hlt : first.key < c.key :=
        lt_of_le_of_ne (hle c hc) fun heq => hne (by rw [hc'.spec.1, heq])
      exact hc'.moveTo_of_le_key (hm.trans (Nat.le_succ _)) hlt
  -- Between the documents that are done and the first one there is none.
  have hnext : ∀ d ∈ docs orig, m ≤ d → first.key ≤ d := by
    intro d hd hmd
    obtain ⟨c, hc, hcd⟩ := hround.holds hd hmd
    exact (hle c hc).trans ((hround.standing c hc).spec.2.2.2 d hcd hmd)
  have hdone : ∀ d ∈ scoring scorer docLengths avgdl orig, d < first.key + 1 → d = first.key ∨
      d < m := by
    intro d hd hlt
    rcases lt_or_ge d m with hdm | hdm
    · exact .inr hdm
    · exact .inl (le_antisymm (Nat.lt_succ_iff.mp hlt) (hnext d (Finset.mem_filter.mp hd).1 hdm))
  refine ⟨hmoved ▸ hround.passed (hm.trans (Nat.le_succ _)), ?_⟩
  rw [htotal]
  by_cases hpos : 0 < exhaustive scorer docLengths avgdl orig first.key
  · have hmem : first.key ∈ scoring scorer docLengths avgdl orig :=
      Finset.mem_filter.mpr ⟨hround.mem_docs mem_cons_self hstand.holds_key, hpos⟩
    have hoffer := h.keeps.offer hk (a := first.key) (fun hin => absurd hin.2 (not_lt.mpr hm)) hpos
    refine (congrArg (Keeps k _ · _ _) (Set.ext fun d => ?_)).mp hoffer
    constructor
    · rintro (rfl | ⟨hd, hlt⟩)
      · exact ⟨hmem, Nat.lt_succ_self _⟩
      · exact ⟨hd, hlt.trans_le (hm.trans (Nat.le_succ _))⟩
    · rintro ⟨hd, hlt⟩
      rcases hdone d hd hlt with rfl | hdm
      · exact .inl rfl
      · exact .inr ⟨hd, hdm⟩
  · -- Without a score the document is not offered.
    have hlow : ¬threshold < exhaustive scorer docLengths avgdl orig first.key :=
      fun hlt => hpos (h.keeps.nonneg.trans_lt hlt)
    have hoff : offer k (toLex (exhaustive scorer docLengths avgdl orig first.key, first.key)) heap
        threshold = (heap, threshold) := if_neg hlow
    rw [hoff]
    refine (congrArg (Keeps k _ · _ _) (Set.ext fun d => ?_)).mp h.keeps
    constructor
    · rintro ⟨hd, hlt⟩
      exact ⟨hd, hlt.trans_le (hm.trans (Nat.le_succ _))⟩
    · rintro ⟨hd, hlt⟩
      rcases hdone d hd hlt with rfl | hdm
      · exact absurd (Finset.mem_filter.mp hd).2 hpos
      · exact ⟨hd, hdm⟩

/-! ### The run -/

omit [Field K] [LinearOrder K] [IsStrictOrderedRing K] in
/-- Fewer documents are left once one of them is done. -/
theorem card_left_lt (hd : d ∈ docs orig) (hm : m ≤ d) (ht : d < t) :
    ((docs orig).filter (t ≤ ·)).card < ((docs orig).filter (m ≤ ·)).card := by
  refine Finset.card_lt_card (Finset.ssubset_iff_of_subset (fun e he => ?_) |>.mpr ⟨d, ?_, ?_⟩)
  · obtain ⟨hin, hte⟩ := Finset.mem_filter.mp he
    exact Finset.mem_filter.mpr ⟨hin, (hm.trans ht.le).trans hte⟩
  · exact Finset.mem_filter.mpr ⟨hd, hm⟩
  · exact fun hin => absurd (Finset.mem_filter.mp hin).2 (not_le.mpr ht)

/-- **The loop ends**, as every round leaves fewer documents. -/
theorem wandLoop_keeps (U : Unspecified K) (hk : 0 < k)
    (horig : ∀ c ∈ orig, c.Bounded scorer docLengths avgdl) (fuel : ℕ) {m : NodeId}
    {cursors : List (PostingCursor K)} {heap : Heap K NodeId} {threshold : K}
    (h : Wanding scorer docLengths avgdl k orig m cursors heap threshold)
    (hfuel : ((docs orig).filter (m ≤ ·)).card < fuel) :
    ∃ heap' threshold',
      wandLoop U scorer docLengths avgdl k fuel cursors heap threshold = some heap' ∧
        Keeps k (exhaustive scorer docLengths avgdl orig) ↑(scoring scorer docLengths avgdl orig)
          heap' threshold' := by
  induction fuel generalizing m cursors heap threshold with
  | zero => exact absurd hfuel (Nat.not_lt_zero _)
  | succ fuel ih =>
    have hround := h.round U horig
    rw [wandLoop]
    dsimp only
    generalize U.sortByCurrent (cursors.filter (·.live)) = sorted at hround ⊢
    rcases sorted with _ | ⟨first, rest⟩
    · exact ⟨heap, threshold, rfl, h.stop hround h.keeps.nonneg⟩
    dsimp only
    rcases hfind : findPivot threshold 0 (first :: rest) with _ | i
    · have hsum := findPivot_eq_none h.keeps.nonneg hfind
      rw [zero_add] at hsum
      exact ⟨heap, threshold, rfl, h.stop hround hsum⟩
    obtain ⟨hi, hsum⟩ := findPivot_eq_some h.keeps.nonneg hfind
    rw [zero_add] at hsum
    obtain ⟨pivot, hpivot⟩ : ∃ pivot, (first :: rest)[i]? = some pivot :=
      ⟨_, getElem?_eq_getElem hi⟩
    have hstand := hround.standing pivot (mem_of_getElem? hpivot)
    have hfirst := hround.standing first mem_cons_self
    have hfirstDoc : first.key ∈ docs orig := hround.mem_docs mem_cons_self hfirst.holds_key
    have hm : m ≤ first.key := hfirst.spec.2.1
    simp only [bind_some, hpivot, map_some, hstand.spec.1]
    split
    next heq =>
      have hkey : first.key = pivot.key := some.inj (hfirst.spec.1.symm.trans heq)
      rw [← hkey]
      refine ih (h.evaluate hk hround rfl)
        ((card_left_lt hfirstDoc hm (Nat.lt_succ_self _)).trans_le ?_)
      exact Nat.lt_succ_iff.mp hfuel
    next hne =>
      have hlt : first.key < pivot.key := by
        refine lt_of_le_of_ne ?_ fun heq => hne (by rw [hfirst.spec.1, heq])
        rcases mem_cons.mp (mem_of_getElem? hpivot) with rfl | hin
        · exact le_refl _
        · exact rel_of_pairwise_cons hround.ascending hin
      exact ih (h.skipTo hround hpivot hsum)
        ((card_left_lt hfirstDoc hm hlt).trans_le (Nat.lt_succ_iff.mp hfuel))

omit [IsStrictOrderedRing K] in
/-- Fresh cursors have passed nothing. -/
theorem Wanding.start (hk : 0 < k) (hfresh : ∀ c ∈ orig, c.pos = 0) :
    Wanding scorer docLengths avgdl k orig 0 orig [] 0 where
  passed := by
    have hmoved : orig.map (PostingCursor.moveTo 0) = orig := by
      refine (map_congr_left fun c hc => ?_).trans (List.map_id orig)
      have hnone : c.postings.takeWhile (fun p => p.1 < 0) = [] :=
        takeWhile_drop_eq_nil (n := 0) fun p _ hp =>
          absurd (of_decide_eq_true hp) (Nat.not_lt_zero _)
      rw [PostingCursor.moveTo, hnone, length_nil, ← hfresh c hc]
      rfl
    rw [hmoved]
  keeps := by
    refine (congrArg (Keeps k _ · [] 0) (Set.ext fun d => ?_)).mp (Keeps.empty hk)
    exact ⟨fun hd => absurd hd (Set.notMem_empty d), fun hd => absurd hd.2 (Nat.not_lt_zero d)⟩

omit [Field K] [IsStrictOrderedRing K] in
lemma isLE_compare_iff {a b : K} : (compare a b).isLE ↔ a ≤ b :=
  Ordering.ne_gt_iff_isLE.symm.trans compare_le_iff_le

omit [Field K] [IsStrictOrderedRing K] in
lemma comparesOn_desc : ComparesOn (fun a b : NodeId × K => compare b.2 a.2) Set.univ where
  swap a _ b _ := (Std.OrientedCmp.eq_swap : compare a.2 b.2 = (compare b.2 a.2).swap)
  trans _ _ _ _ _ _ hab hbc :=
    isLE_compare_iff.mpr ((isLE_compare_iff.mp hbc).trans (isLE_compare_iff.mp hab))

/-- **Weak-AND retrieval finds the best of the documents that score.** -/
theorem wandTopK_topK (U : Unspecified K) (horig : ∀ c ∈ orig, c.Bounded scorer docLengths avgdl)
    (hfresh : ∀ c ∈ orig, c.pos = 0) (k : ℕ) {fuel : ℕ} (hfuel : (docs orig).card < fuel) :
    ∃ hits, wandTopK U scorer docLengths avgdl fuel orig k = some hits ∧
      TopK k (exhaustive scorer docLengths avgdl orig)
      (scoring scorer docLengths avgdl orig) hits := by
  unfold wandTopK
  split
  next hnone =>
    refine ⟨[], rfl, ?_, .nil, fun _ h => absurd h not_mem_nil, .nil,
      fun _ _ _ _ h => absurd h not_mem_nil⟩
    rcases hnone with rfl | rfl
    · exact (Nat.zero_min _).symm
    · exact (Nat.min_zero _).symm
  next hsome =>
    have hk : 0 < k := Nat.pos_of_ne_zero fun h => hsome (.inl h)
    obtain ⟨heap, threshold, hrun, hkeeps⟩ :=
      wandLoop_keeps U hk horig fuel (Wanding.start hk hfresh)
      ((Finset.card_filter_le _ _).trans_lt hfuel)
    refine ⟨_, by rw [hrun]; rfl,
      hkeeps.topK ((perm_stableSort _ _).trans ((U.perm_drain heap).map _)) ?_⟩
    refine (sortedBy_stableSort comparesOn_desc fun _ _ => Set.mem_univ _).imp fun hle => ?_
    exact isLE_compare_iff.mp hle

/-- **Weak-AND retrieval is exact**: if every posting scores, all documents are ranked. The scores
of `Bm25Scorer` are of this kind. -/
theorem wandTopK_exact (U : Unspecified K) (scorer : Scorer K) (docLengths : Table NodeId ℕ)
    (avgdl : K)
    (cursors : List (PostingCursor K)) (hfresh : ∀ c ∈ cursors, c.pos = 0)
    (hscores : ∀ c ∈ cursors, c.Positive scorer docLengths avgdl) (k : ℕ) :
    (∀ fuel, (docs cursors).card < fuel →
      ∃ hits, wandTopK U scorer docLengths avgdl fuel cursors k = some hits ∧
        TopK k (exhaustive scorer docLengths avgdl cursors) (docs cursors) hits) ∧
    ∀ (s : Bm25Scorer K), s.InRange → ∀ tf docLen avgdl idf qtf : K, 1 ≤ tf → 0 ≤ docLen → 0 < idf →
      0 < qtf → ∀ maxTf, 0 < s.score tf docLen avgdl idf qtf ∧
        s.score tf docLen avgdl idf qtf ≤ s.upperBound idf maxTf * qtf := by
  refine ⟨fun fuel hfuel => ?_, fun s hs tf docLen avgdl idf qtf htf hlen hidf hqtf maxTf =>
    Bm25Scorer.score_bounds hs htf hlen avgdl hidf hqtf maxTf⟩
  have htop := wandTopK_topK U (fun c hc => (hscores c hc).toBounded) hfresh k hfuel
  rwa [scoring_eq_docs hscores] at htop

end Rounds

/-- Sorting that keeps the order of equal keys. -/
def Unspecified.stable : Unspecified K where
  sortByCurrent l := l.mergeSort fun a b => a.key ≤ b.key
  perm_sortByCurrent l := mergeSort_perm l _
  sorted_sortByCurrent l := by
    have hsorted := @pairwise_mergeSort _ (fun a b : PostingCursor K => decide (a.key ≤ b.key))
      (fun a b c hab hbc => decide_eq_true ((of_decide_eq_true hab).trans (of_decide_eq_true hbc)))
      (fun a b => by simpa using le_total a.key b.key) l
    exact hsorted.imp fun h => of_decide_eq_true h
  drain heap := heap
  perm_drain heap := .refl heap

def countScorer : Scorer ℚ where
  idf _ _ := 1
  score tf _ _ idf qtf := qtf * tf * idf
  upperBound idf maxTf := idf * maxTf

/-- A query for two terms, one of which is in two documents. -/
def sharedCursors : List (PostingCursor ℚ) :=
  [.new [(1, 2), (3, 1)] 1 2 1, .new [(3, 4)] 1 4 1]

lemma positive_sharedCursors : ∀ c ∈ sharedCursors, c.Positive countScorer .empty 1 := by
  intro c hc
  simp only [sharedCursors, PostingCursor.new, mem_cons, not_mem_nil, or_false] at hc
  rcases hc with rfl | rfl
  all_goals
    refine ⟨⟨?_, ?_, ?_⟩, ?_⟩
    all_goals simp [PostingCursor.Ascending, termScore, countScorer]

theorem wandTopK_exact_shared :
    (∃ hits, wandTopK .stable countScorer .empty 1 3 sharedCursors 1 = some hits ∧
      TopK 1 (exhaustive countScorer .empty 1 sharedCursors) (docs sharedCursors) hits) ∧
    0 < (Bm25Scorer.default : Bm25Scorer ℚ).score 2 5 4 1 1 :=
  have hexact :=
    wandTopK_exact .stable countScorer .empty 1 sharedCursors (by decide) positive_sharedCursors 1
  ⟨hexact.1 3 (by decide), (hexact.2 .default ⟨by norm_num [Bm25Scorer.default],
    by norm_num [Bm25Scorer.default], by norm_num [Bm25Scorer.default]⟩ 2 5 4 1 1 (by norm_num)
    (by norm_num) (by norm_num) (by norm_num) 2).1⟩

end IssunDB.Text
