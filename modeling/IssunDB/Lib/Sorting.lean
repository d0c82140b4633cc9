import IssunDB.Lib.Comparator
import Mathlib.Data.List.Induction
import Mathlib.Data.List.Sort

/-!
# Sorting by a comparator

What sorting, keeping the first few and picking an extremum have in common when the comparator is
lawful on the values at hand: their results are those of every other order of the input, up to
values that tie.

* `stableSort_ties` — sorting two orders of the same values;
* `topN_eq` — a bounded buffer that is trimmed as it fills keeps the first of the sorted values;
* `leastOf_ties` — the running minimum.
-/

def stableSort {α : Type*} (cmp : α → α → Ordering) (l : List α) : List α :=
  l.mergeSort fun a b => (cmp a b).isLE

section Sorting

variable {α : Type*} {cmp : α → α → Ordering} {T : Set α} {l l' : List α}

lemma perm_stableSort (cmp : α → α → Ordering) (l : List α) : (stableSort cmp l).Perm l :=
  List.mergeSort_perm l _

def SortedBy (cmp : α → α → Ordering) (l : List α) : Prop := l.Pairwise fun a b => (cmp a b).isLE

lemma sortedBy_stableSort (h : ComparesOn cmp T) (hl : ∀ a ∈ l, a ∈ T) :
    SortedBy cmp (stableSort cmp l) := by
  -- The sort runs on the members of the set, where the comparator is lawful.
  let members : List T := l.attachWith (· ∈ T) hl
  let le : T → T → Bool := fun a b => (cmp a b).isLE
  have hmap : stableSort cmp l = (members.mergeSort le).map Subtype.val := by
    rw [List.map_mergeSort (s := fun a b => (cmp a b).isLE) (fun a _ b _ => rfl),
      List.attachWith_map_subtype_val]
    rfl
  have htrans : ∀ a b c : T, le a b → le b c → le a c :=
    fun a b c => h.trans a a.2 b b.2 c c.2
  have htotal : ∀ a b : T, le a b || le b a :=
    fun a b => Bool.or_eq_true_iff.mpr (h.isLE_total a.2 b.2)
  have hsorted : (members.mergeSort le).Pairwise fun a b => le a b :=
    List.pairwise_mergeSort htrans htotal _
  rw [SortedBy, hmap, List.pairwise_map]
  exact hsorted

lemma stableSort_of_sortedBy (h : SortedBy cmp l) : stableSort cmp l = l :=
  List.mergeSort_of_pairwise h

/-- **Two sorted orders of the same values tie place by place.** -/
theorem ties_of_perm (h : ComparesOn cmp T) (hl : ∀ a ∈ l, a ∈ T) (hperm : l.Perm l')
    (hsorted : SortedBy cmp l) (hsorted' : SortedBy cmp l') :
    List.Forall₂ (fun a b => cmp a b = .eq) l l' := by
  have hl' : ∀ a ∈ l', a ∈ T := fun a ha => hl a (hperm.mem_iff.mpr ha)
  -- Values are told apart by the values they tie with.
  let tied : α → Set α := fun a => {b | b ∈ T ∧ cmp a b = .eq}
  have htied : ∀ a ∈ T, ∀ b ∈ T, (tied a = tied b ↔ cmp a b = .eq) := by
    intro a ha b hb
    constructor
    · intro heq
      have hmem : b ∈ tied b := ⟨hb, h.self hb⟩
      rw [← heq] at hmem
      exact hmem.2
    · intro hab
      ext c
      exact and_congr_right fun hc => by rw [h.congr_left ha hb hc hab]
  let below : Set α → Set α → Prop := fun s t =>
    ∃ a ∈ T, ∃ b ∈ T, s = tied a ∧ t = tied b ∧ (cmp a b).isLE
  have hantisymm : ∀ s t, below s t → below t s → s = t := by
    rintro _ _ ⟨a, ha, b, hb, rfl, rfl, hab⟩ ⟨b', hb', a', ha', hbb, haa, hba⟩
    have hb₁ := (htied b hb b' hb').mp hbb
    have ha₁ := (htied a ha a' ha').mp haa
    rw [htied a ha b hb]
    apply h.eq_of_isLE ha hb hab
    rwa [h.congr_left hb hb' ha hb₁, h.congr_right hb' ha ha' ha₁]
  have hbelow : ∀ {l : List α}, (∀ a ∈ l, a ∈ T) → SortedBy cmp l →
      (l.map tied).Pairwise below := by
    intro l hl hsorted
    rw [List.pairwise_map]
    exact hsorted.imp_of_mem fun ha hb hab => ⟨_, hl _ ha, _, hl _ hb, rfl, rfl, hab⟩
  have heq : l'.map tied = l.map tied :=
    List.Perm.eq_of_pairwise (fun s t _ _ => hantisymm s t) (hbelow hl' hsorted')
      (hbelow hl hsorted) (hperm.symm.map tied)
  rw [← List.forall₂_eq_eq_eq, List.forall₂_map_left_iff, List.forall₂_map_right_iff] at heq
  have hmem := (List.forall₂_and_left l' l).mpr ⟨hl', heq⟩
  refine (hmem.imp fun b a hba => ?_).flip
  have hself : b ∈ tied b := ⟨hba.1, h.self hba.1⟩
  rw [hba.2] at hself
  exact hself.2

/-- **Sorting forgets the order of the input, up to ties.** -/
theorem stableSort_ties (h : ComparesOn cmp T) (hl : ∀ a ∈ l, a ∈ T) (hperm : l.Perm l') :
    List.Forall₂ (fun a b => cmp a b = .eq) (stableSort cmp l) (stableSort cmp l') := by
  have hl' : ∀ a ∈ l', a ∈ T := fun a ha => hl a (hperm.mem_iff.mpr ha)
  apply ties_of_perm h (fun a ha => hl a ((perm_stableSort cmp l).mem_iff.mp ha)) _
    (sortedBy_stableSort h hl) (sortedBy_stableSort h hl')
  exact (perm_stableSort cmp l).trans (hperm.trans (perm_stableSort cmp l').symm)

/-- **Stability.** Breaking ties by the place in the input is what a stable sort does. -/
theorem stableSort_zipIdx (h : ComparesOn cmp T) (hl : ∀ a ∈ l, a ∈ T) :
    (stableSort (fun a b => (cmp a.1 b.1).then (compare a.2 b.2)) l.zipIdx).map Prod.fst =
      stableSort cmp l := by
  have hsame : ∀ a ∈ l.zipIdx, ∀ b ∈ l.zipIdx,
      ((cmp a.1 b.1).then (compare a.2 b.2)).isLE =
        List.zipIdxLE (fun a b => (cmp a b).isLE) a b := by
    intro a ha b hb
    have hswap := h.swap a.1 (hl _ (List.fst_mem_of_mem_zipIdx ha)) b.1
      (hl _ (List.fst_mem_of_mem_zipIdx hb))
    unfold List.zipIdxLE
    simp only [hswap]
    cases cmp a.1 b.1 with
    | lt => rfl
    | gt => rfl
    | eq =>
      show (compare a.2 b.2).isLE = decide (a.2 ≤ b.2)
      rw [Bool.eq_iff_iff, decide_eq_true_iff]
      exact Std.isLE_compare
  have hsort := List.map_mergeSort (f := id) hsame
  rw [List.map_id, List.map_id] at hsort
  rw [stableSort, hsort, List.mergeSort_zipIdx]
  rfl

/-! ## The first few -/

/-- Take a value in; the buffer is sorted and trimmed when it holds twice as many as are kept. -/
def topNStep (cmp : α → α → Ordering) (k : ℕ) (buf : List α) (a : α) : List α :=
  if 2 * k ≤ (buf ++ [a]).length then (stableSort cmp (buf ++ [a])).take k else buf ++ [a]

/-- The first `k` values, through a bounded buffer. -/
def topN (cmp : α → α → Ordering) (k : ℕ) (l : List α) : List α :=
  (stableSort cmp (l.foldl (topNStep cmp k) [])).take k

def insertBy (cmp : α → α → Ordering) (a : α) (l : List α) : List α :=
  l.orderedInsert (fun a b => (cmp a b).isLE) a

lemma sortedBy_insertBy (h : ComparesOn cmp T) {a : α} (ha : a ∈ T) (hl : ∀ b ∈ l, b ∈ T)
    (hsorted : SortedBy cmp l) : SortedBy cmp (insertBy cmp a l) := by
  induction l with
  | nil => exact List.pairwise_singleton _ _
  | cons b l ih =>
    have hb := hl b List.mem_cons_self
    obtain ⟨hlt, hrest⟩ := List.pairwise_cons.mp hsorted
    unfold insertBy
    rw [List.orderedInsert_cons]
    split
    next hab =>
      refine List.pairwise_cons.mpr ⟨fun c hc => ?_, hsorted⟩
      rcases List.mem_cons.mp hc with rfl | hc
      · exact hab
      · exact h.trans a ha b hb c (hl c (List.mem_cons_of_mem _ hc)) hab (hlt c hc)
    next hab =>
      have hba := (h.isLE_total ha hb).resolve_left hab
      refine List.pairwise_cons.mpr ⟨fun c hc => ?_,
        ih (fun c hc => hl c (List.mem_cons_of_mem _ hc)) hrest⟩
      rcases (List.mem_orderedInsert _).mp hc with rfl | hc
      · exact hba
      · exact hlt c hc

/-- Where only equal values tie, sorting one more value inserts it. -/
theorem stableSort_append_singleton (h : ComparesOn cmp T)
    (hstrict : ∀ a ∈ T, ∀ b ∈ T, cmp a b = .eq → a = b) {a : α} (ha : a ∈ T)
    (hl : ∀ b ∈ l, b ∈ T) : stableSort cmp (l ++ [a]) = insertBy cmp a (stableSort cmp l) := by
  have hl' : ∀ b ∈ stableSort cmp l, b ∈ T :=
    fun b hb => hl b ((perm_stableSort cmp l).mem_iff.mp hb)
  have hla : ∀ b ∈ l ++ [a], b ∈ T := by
    intro b hb
    rcases List.mem_append.mp hb with hb | hb
    · exact hl b hb
    · rwa [List.mem_singleton.mp hb]
  have hins : ∀ b ∈ insertBy cmp a (stableSort cmp l), b ∈ T := by
    intro b hb
    rcases (List.mem_orderedInsert _).mp hb with rfl | hb
    · exact ha
    · exact hl' b hb
  apply List.Perm.eq_of_pairwise _ (sortedBy_stableSort h hla)
    (sortedBy_insertBy h ha hl' (sortedBy_stableSort h hl))
  · have hperm : (insertBy cmp a (stableSort cmp l)).Perm (a :: l) :=
      (List.perm_orderedInsert _ _ _).trans ((perm_stableSort cmp l).cons a)
    exact (perm_stableSort cmp _).trans ((List.perm_append_singleton a l).trans hperm.symm)
  · intro b c hb hc hbc hcb
    have hb' := hla b ((perm_stableSort cmp _).mem_iff.mp hb)
    have hc' := hins c hc
    exact hstrict b hb' c hc' (h.eq_of_isLE hb' hc' hbc hcb)

/-- What an insertion puts first depends on what was first. -/
theorem take_insertBy (a : α) (l : List α) (k : ℕ) :
    (insertBy cmp a l).take k = (insertBy cmp a (l.take k)).take k := by
  induction l generalizing k with
  | nil => rw [List.take_nil]
  | cons b l ih =>
    cases k with
    | zero => rfl
    | succ k =>
      unfold insertBy at ih ⊢
      rw [List.take_succ_cons, List.orderedInsert_cons, List.orderedInsert_cons]
      split
      · rw [List.take_succ_cons, List.take_succ_cons]
        congr 1
        cases k with
        | zero => rfl
        | succ k => rw [List.take_succ_cons, List.take_succ_cons, List.take_take,
          min_eq_left (by omega)]
      · rw [List.take_succ_cons, List.take_succ_cons, ih]

/-- **Step.** The buffer begins like the values seen so far, once both are sorted. -/
theorem take_topNStep (h : ComparesOn cmp T) (hstrict : ∀ a ∈ T, ∀ b ∈ T, cmp a b = .eq → a = b)
    {k : ℕ} {buf seen : List α} {a : α} (ha : a ∈ T) (hbuf : ∀ b ∈ buf, b ∈ T)
    (hseen : ∀ b ∈ seen, b ∈ T)
    (hsame : (stableSort cmp buf).take k = (stableSort cmp seen).take k) :
    (stableSort cmp (topNStep cmp k buf a)).take k = (stableSort cmp (seen ++ [a])).take k := by
  have hpush : (stableSort cmp (buf ++ [a])).take k = (stableSort cmp (seen ++ [a])).take k := by
    rw [stableSort_append_singleton h hstrict ha hbuf,
      stableSort_append_singleton h hstrict ha hseen,
      take_insertBy, hsame, ← take_insertBy]
  unfold topNStep
  split
  · have hsorted : SortedBy cmp ((stableSort cmp (buf ++ [a])).take k) := by
      refine (sortedBy_stableSort h fun b hb => ?_).sublist (List.take_sublist _ _)
      rcases List.mem_append.mp hb with hb | hb
      · exact hbuf b hb
      · rwa [List.mem_singleton.mp hb]
    rw [stableSort_of_sortedBy hsorted, List.take_take, min_self, hpush]
  · exact hpush

/-- **A bounded buffer keeps the first of the sorted values.** -/
theorem topN_eq (h : ComparesOn cmp T) (hstrict : ∀ a ∈ T, ∀ b ∈ T, cmp a b = .eq → a = b) (k : ℕ)
    (hl : ∀ a ∈ l, a ∈ T) : topN cmp k l = (stableSort cmp l).take k := by
  have hrun : ∀ (rest : List α), (∀ a ∈ rest, a ∈ T) → ∀ {buf seen : List α}, (∀ b ∈ buf, b ∈ T) →
      (∀ b ∈ seen, b ∈ T) → (stableSort cmp buf).take k = (stableSort cmp seen).take k →
      (stableSort cmp (rest.foldl (topNStep cmp k) buf)).take k =
        (stableSort cmp (seen ++ rest)).take k := by
    intro rest hrest
    induction rest with
    | nil =>
      intro buf seen hbuf hseen hsame
      rw [List.append_nil]
      exact hsame
    | cons a rest ih =>
      intro buf seen hbuf hseen hsame
      have ha := hrest a List.mem_cons_self
      have hseen' : ∀ b ∈ seen ++ [a], b ∈ T := by
        intro b hb
        rcases List.mem_append.mp hb with hb | hb
        · exact hseen b hb
        · rwa [List.mem_singleton.mp hb]
      have hbuf' : ∀ b ∈ topNStep cmp k buf a, b ∈ T := by
        intro b hb
        have hpushed : b ∈ buf ++ [a] := by
          unfold topNStep at hb
          split at hb
          · exact (perm_stableSort cmp _).mem_iff.mp (List.mem_of_mem_take hb)
          · exact hb
        rcases List.mem_append.mp hpushed with hb | hb
        · exact hbuf b hb
        · rwa [List.mem_singleton.mp hb]
      rw [List.foldl_cons, List.append_cons]
      exact ih (fun b hb => hrest b (List.mem_cons_of_mem _ hb)) hbuf' hseen'
        (take_topNStep h hstrict ha hbuf hseen hsame)
  exact hrun l hl (by simp) (by simp) rfl

/-! ## Extrema -/

/-- Keep the new value where it is less than the one kept. -/
def leastOf (cmp : α → α → Ordering) (l : List α) : Option α :=
  l.foldl (fun kept a =>
    match kept with
    | none => some a
    | some prev => some (if cmp a prev = .lt then a else prev)) none

lemma leastOf_spec (h : ComparesOn cmp T) (hl : ∀ a ∈ l, a ∈ T) :
    match leastOf cmp l with
    | none => l = []
    | some m => m ∈ l ∧ ∀ a ∈ l, (cmp m a).isLE := by
  induction l using List.reverseRecOn with
  | nil => rfl
  | append_singleton l a ih =>
    have hl' : ∀ b ∈ l, b ∈ T := fun b hb => hl b (List.mem_append_left _ hb)
    have ha : a ∈ T := hl a (List.mem_append_right _ (List.mem_singleton_self a))
    have ih' := ih hl'
    have hstep : leastOf cmp (l ++ [a]) =
        match leastOf cmp l with
        | none => some a
        | some prev => some (if cmp a prev = .lt then a else prev) := by
      unfold leastOf
      rw [List.foldl_append]
      rfl
    rw [hstep]
    rcases hleast : leastOf cmp l with _ | prev
    · rw [hleast] at ih'
      obtain rfl : l = [] := ih'
      refine ⟨by simp, fun b hb => ?_⟩
      rw [List.nil_append, List.mem_singleton] at hb
      rw [hb, h.self ha]
      rfl
    · rw [hleast] at ih'
      obtain ⟨hmem, hle⟩ := ih'
      have hprev := hl' prev hmem
      dsimp only
      split
      next hlt =>
        refine ⟨by simp, fun b hb => ?_⟩
        rcases List.mem_append.mp hb with hb | hb
        · rw [h.lt_of_lt_of_isLE ha hprev (hl' b hb) hlt (hle b hb)]
          rfl
        · rw [List.mem_singleton.mp hb, h.self ha]
          rfl
      next hlt =>
        refine ⟨List.mem_append_left _ hmem, fun b hb => ?_⟩
        rcases List.mem_append.mp hb with hb | hb
        · exact hle b hb
        · rw [List.mem_singleton.mp hb, h.swap a ha prev hprev]
          cases hcmp : cmp a prev with
          | lt => exact absurd hcmp hlt
          | eq => rfl
          | gt => rfl

/-- **Two orders of the same values have minima that tie.** -/
theorem leastOf_ties (h : ComparesOn cmp T) (hl : ∀ a ∈ l, a ∈ T) (hperm : l.Perm l') :
    Option.Rel (fun a b => cmp a b = .eq) (leastOf cmp l) (leastOf cmp l') := by
  have hl' : ∀ a ∈ l', a ∈ T := fun a ha => hl a (hperm.mem_iff.mpr ha)
  have hleast := leastOf_spec h hl
  have hleast' := leastOf_spec h hl'
  rcases hm : leastOf cmp l with _ | m <;> rcases hm' : leastOf cmp l' with _ | m' <;>
    rw [hm] at hleast <;> rw [hm'] at hleast' <;> dsimp only at hleast hleast'
  · exact .none
  · rw [hleast] at hperm
    rw [hperm.nil_eq.symm] at hleast'
    cases hleast'.1
  · rw [hleast'] at hperm
    rw [hperm.eq_nil] at hleast
    cases hleast.1
  · exact .some (h.eq_of_isLE (hl m hleast.1) (hl' m' hleast'.1)
      (hleast.2 m' (hperm.mem_iff.mpr hleast'.1)) (hleast'.2 m (hperm.mem_iff.mp hleast.1)))

end Sorting
