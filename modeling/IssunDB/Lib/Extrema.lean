import IssunDB.Lib.Sorting
import Mathlib.Data.List.Chain

/-!
# Running extrema without a lawful order

The running minimum keeps the first value until a smaller one comes. Where the comparator is no
total preorder, what is kept in the end depends on the order of the values.
`exists_perm_leastOf_iff` says which values can be kept: those at the end of a descending chain that
turns all others down.
-/

section Extrema

variable {α : Type*} {cmp : α → α → Ordering} {l : List α} {m : α}

/-- A descending chain of the values ends in `m`, and of the others each is not less than some
member of the chain. -/
def Attains (cmp : α → α → Ordering) (l : List α) (m : α) : Prop :=
  ∃ chain rest : List α, (chain ++ rest).Perm l ∧ chain.getLast? = some m ∧
    chain.IsChain (fun p q => cmp q p = .lt) ∧ ∀ x ∈ rest, ∃ p ∈ chain, cmp x p ≠ .lt

lemma leastOf_concat (cmp : α → α → Ordering) (l : List α) (a : α) : leastOf cmp (l ++ [a]) =
    match leastOf cmp l with
    | none => some a
    | some prev => some (if cmp a prev = .lt then a else prev) := by
  unfold leastOf
  rw [List.foldl_append]
  rfl

/-- **What is kept ends such a chain.** -/
theorem attains_of_leastOf (h : leastOf cmp l = some m) : Attains cmp l m := by
  induction l using List.reverseRecOn generalizing m with
  | nil => cases h
  | append_singleton l a ih =>
    rw [leastOf_concat] at h
    rcases hprev : leastOf cmp l with _ | prev
    · rw [hprev] at h
      obtain rfl := Option.some.inj h
      have hnil : l = [] := by
        cases l using List.reverseRecOn with
        | nil => rfl
        | append_singleton l b =>
          rw [leastOf_concat] at hprev
          cases hleast : leastOf cmp l <;> simp [hleast] at hprev
      subst hnil
      exact ⟨[a], [], .refl _, rfl, .singleton a, by simp⟩
    · obtain ⟨chain, rest, hperm, hlast, hchain, hrest⟩ := ih hprev
      rw [hprev] at h
      by_cases hlt : cmp a prev = .lt
      · -- the new value prolongs the chain
        obtain rfl : a = m := by simpa [hlt] using h
        refine ⟨chain ++ [a], rest, ?_, by simp, ?_, fun x hx => ?_⟩
        · rw [List.append_assoc]
          exact (List.perm_append_comm.append_left chain).trans
            ((List.append_assoc chain rest [a] ▸ hperm.append_right [a]))
        · refine List.isChain_append.mpr ⟨hchain, .singleton a, fun p hp q hq => ?_⟩
          rw [hlast, Option.mem_some] at hp
          rw [List.head?_cons, Option.mem_some] at hq
          rw [← hp, ← hq]
          exact hlt
        · obtain ⟨p, hp, hne⟩ := hrest x hx
          exact ⟨p, List.mem_append_left _ hp, hne⟩
      · -- the end of the chain turns it down
        obtain rfl : prev = m := by simpa [hlt] using h
        refine ⟨chain, rest ++ [a],
          List.append_assoc chain rest [a] ▸ hperm.append_right [a], hlast,
          hchain, fun x hx => ?_⟩
        rcases List.mem_append.mp hx with hx | hx
        · exact hrest x hx
        · obtain rfl := List.mem_singleton.mp hx
          exact ⟨prev, List.mem_of_getLast? hlast, hlt⟩

/-- Keep the new value where it is less than `prev`. -/
def keepLess (cmp : α → α → Ordering) (prev a : α) : α := if cmp a prev = .lt then a else prev

lemma leastOf_cons (a : α) (l : List α) :
    leastOf cmp (a :: l) = some (l.foldl (keepLess cmp) a) := by
  induction l using List.reverseRecOn with
  | nil => rfl
  | append_singleton l b ih =>
    rw [← List.cons_append, leastOf_concat, ih, List.foldl_append]
    rfl

lemma foldl_keepLess_of_not_lt {p : α} (h : ∀ x ∈ l, cmp x p ≠ .lt) :
    l.foldl (keepLess cmp) p = p := by
  induction l with
  | nil => rfl
  | cons x l ih =>
    have hx : keepLess cmp p x = p := if_neg (h x List.mem_cons_self)
    rw [List.foldl_cons, hx]
    exact ih fun y hy => h y (List.mem_cons_of_mem _ hy)

/-- The others can come right after the member of the chain that turns them down. -/
theorem exists_perm_foldl_keepLess (chain : List α) : ∀ (p : α) (rest : List α),
    (p :: chain).IsChain (fun p q => cmp q p = .lt) →
    (∀ x ∈ rest, ∃ q ∈ p :: chain, cmp x q ≠ .lt) →
    ∃ l : List α, l.Perm (chain ++ rest) ∧
      (p :: chain).getLast? = some (l.foldl (keepLess cmp) p) := by
  induction chain with
  | nil =>
    intro p rest _ hrest
    refine ⟨rest, .refl _, ?_⟩
    rw [foldl_keepLess_of_not_lt fun x hx => ?_]
    · rfl
    · obtain ⟨q, hq, hne⟩ := hrest x hx
      rwa [List.mem_singleton.mp hq] at hne
  | cons q chain ih =>
    intro p rest hchain hrest
    obtain ⟨hlt, htail⟩ := List.isChain_cons_cons.mp hchain
    obtain ⟨l, hperm, hlast⟩ := ih q (rest.filter fun x => cmp x p = .lt) htail fun x hx => by
      obtain ⟨hx, hxlt⟩ := List.mem_filter.mp hx
      obtain ⟨r, hr, hne⟩ := hrest x hx
      rcases List.mem_cons.mp hr with rfl | hr
      · exact absurd (of_decide_eq_true hxlt) hne
      · exact ⟨r, hr, hne⟩
    refine ⟨(rest.filter fun x => !decide (cmp x p = .lt)) ++ q :: l, ?_, ?_⟩
    · have hsplit := List.filter_append_perm (fun x => decide (cmp x p = .lt)) rest
      refine List.perm_middle.trans (List.Perm.cons q ?_)
      refine List.perm_append_comm.trans ((hperm.append_right _).trans ?_)
      rw [List.append_assoc]
      exact hsplit.append_left chain
    · have hq : keepLess cmp p q = q := if_pos hlt
      have hstay : (rest.filter fun x => !decide (cmp x p = .lt)).foldl (keepLess cmp) p = p :=
        foldl_keepLess_of_not_lt fun x hx => by simpa using (List.mem_filter.mp hx).2
      rw [List.foldl_append, hstay, List.foldl_cons, hq, ← hlast, List.getLast?_cons_cons]

/-- **Which values can be kept.** -/
theorem exists_perm_leastOf_iff :
    (∃ l' : List α, l'.Perm l ∧ leastOf cmp l' = some m) ↔ Attains cmp l m := by
  constructor
  · rintro ⟨l', hperm, hleast⟩
    obtain ⟨chain, rest, hperm', hchain⟩ := attains_of_leastOf hleast
    exact ⟨chain, rest, hperm'.trans hperm, hchain⟩
  · rintro ⟨_ | ⟨p, chain⟩, rest, hperm, hlast, hchain, hrest⟩
    · cases hlast
    · obtain ⟨l', hperm', hlast'⟩ := exists_perm_foldl_keepLess chain p rest hchain hrest
      refine ⟨p :: l', (List.Perm.cons p hperm').trans hperm, ?_⟩
      rw [leastOf_cons, ← hlast', hlast]

end Extrema
