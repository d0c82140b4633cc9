import IssunDB.Lib.Interleaving
import Mathlib.Algebra.BigOperators.Group.Finset.Basic
import Mathlib.Algebra.Order.BigOperators.Group.Finset

/-!
# Accounting of background rebuilds

A committed write adds its mutations to the dirty counter. The write that finds the counter at the
threshold claims a rebuild, and a pass of it subtracts what was claimed. `rebuild_csr` zeroes the
counter and the claim. Counter, claim and flag are separate atomics, and only the passes are
serialised, by the maintenance lock.

* `Rebuild.State.step` — every atomic operation of the four entry points, for any thread;
* `Rebuild.Accounted` — no underflow, one claim at most, no write forgotten;
* `Rebuild.Orderly` — the steps that do not race: a claim is not larger than the counter when it
  is published, `install_full` zeroes a counter of writes that its snapshot covers, and lowers the
  flag while no claim is outstanding;
* `Rebuild.accounted_of_orderly` — the accounting holds in every run of such steps;
* `Rebuild.claim_underflows` — a run in which the counter wraps.
-/

namespace IssunDB

open Option

namespace Rebuild

/-- Minimum number of writes between two background rebuilds. -/
def rebuildThreshold : ℕ := 1000

/-- Where a thread stands. -/
inductive Pc where
  | idle
  /-- A write that has committed and not yet noted itself. -/
  | committed (batch : ℕ)
  /-- `note_dirty_n` after `fetch_add`, with the threshold reached. -/
  | noted (total : ℕ)
  /-- `note_dirty_n` after it raised the flag. -/
  | claiming (total : ℕ)
  /-- A compaction pass before it has the maintenance lock. -/
  | waiting
  | locked
  /-- The pass has built a snapshot of these writes. -/
  | built (writes : Finset ℕ)
  /-- `install` has stored the snapshot. -/
  | stored
  /-- `settle_rebuild_claim` after `claimed.swap(0)`. -/
  | taken (claimed : ℕ)
  /-- `settle_rebuild_claim` after `dirty.fetch_sub(claimed)`. -/
  | subtracted (claimed prev : ℕ)
  /-- The build failed. -/
  | failed
  /-- `cancel_rebuild` after it cleared the claim. -/
  | cancelling
  /-- The pass is over, with another one to come or not. -/
  | releasing (again : Bool)
  /-- `rebuild_csr` with the maintenance lock. -/
  | fullLocked
  | fullBuilt (writes : Finset ℕ)
  /-- `install_full` has stored the snapshot. -/
  | fullStored
  /-- `install_full` after `dirty.store(0)`. -/
  | fullZeroed
  /-- `install_full` after `claimed.store(0)`. -/
  | fullCleared
  deriving DecidableEq

def Pc.claims : Pc → Bool
  | claiming _ | waiting | locked | built _ | stored | taken _ | subtracted _ _ | failed
  | cancelling | releasing true => true
  | _ => false

/-- The thread holds the maintenance lock. -/
def Pc.maintains : Pc → Bool
  | locked | built _ | stored | taken _ | subtracted _ _ | failed | cancelling | releasing _
  | fullLocked | fullBuilt _ | fullStored | fullZeroed | fullCleared => true
  | _ => false

/-- The counters of the cache, with what is written and covered. A write is a batch of mutations,
committed by one transaction. -/
structure State where
  dirty : ℕ
  rebuilding : Bool
  claimed : ℕ
  maintenance : Option ℕ
  committed : Finset ℕ
  noted : Finset ℕ
  /-- The writes that an installed snapshot covers. -/
  covered : Finset ℕ
  pc : Threads Pc

/-- A cache that was just opened. -/
def State.init : State where
  dirty := 0
  rebuilding := false
  claimed := 0
  maintenance := none
  committed := ∅
  noted := ∅
  covered := ∅
  pc := fun _ => .idle

/-- Subtraction on a 64-bit counter. -/
def wrappingSub (a b : ℕ) : ℕ := if b ≤ a then a - b else a + 2 ^ 64 - b

/-- One step of a thread. -/
inductive Step where
  /-- A writer commits a batch. -/
  | commit (batch : ℕ)
  /-- `note_dirty_n`, `claimed.store` with the thread that then runs the passes. -/
  | publish (worker : ℕ)
  /-- The build of a pass succeeds, or not. -/
  | build (ok : Bool)
  /-- `rebuild_csr` takes the maintenance lock. -/
  | lockFull
  /-- The next operation of a thread that has one. -/
  | next

namespace State

variable (size : ℕ → ℕ)

/-- The next operation of thread `t`, where there is only one. -/
def next (s : State) (t : ℕ) : Option State :=
  match s.pc t with
  | .committed b =>
    let total := s.dirty + size b
    some { s with
      dirty := total
      noted := insert b s.noted
      pc := s.pc.move t (if rebuildThreshold ≤ total then .noted total else .idle) }
  | .noted total =>
    some { s with
      rebuilding := true
      pc := s.pc.move t (if s.rebuilding then .idle else .claiming total) }
  | .waiting =>
    if s.maintenance = none then
      some { s with maintenance := some t, pc := s.pc.move t .locked }
    else none
  | .built writes =>
    some { s with covered := s.covered ∪ writes, pc := s.pc.move t .stored }
  | .stored => some { s with claimed := 0, pc := s.pc.move t (.taken s.claimed) }
  | .taken claimed =>
    some { s with
      dirty := wrappingSub s.dirty claimed
      pc := s.pc.move t (.subtracted claimed s.dirty) }
  | .subtracted claimed prev =>
    if rebuildThreshold ≤ prev - claimed then
      some { s with claimed := prev - claimed, pc := s.pc.move t (.releasing true) }
    else
      some { s with rebuilding := false, pc := s.pc.move t (.releasing false) }
  | .failed => some { s with claimed := 0, pc := s.pc.move t .cancelling }
  | .cancelling => some { s with rebuilding := false, pc := s.pc.move t (.releasing false) }
  | .releasing again =>
    some { s with maintenance := none, pc := s.pc.move t (if again then .waiting else .idle) }
  | .fullBuilt writes =>
    some { s with covered := s.covered ∪ writes, pc := s.pc.move t .fullStored }
  | .fullStored => some { s with dirty := 0, pc := s.pc.move t .fullZeroed }
  | .fullZeroed => some { s with claimed := 0, pc := s.pc.move t .fullCleared }
  | .fullCleared => some { s with rebuilding := false, pc := s.pc.move t (.releasing false) }
  | _ => none

/-- What a step of thread `t` does, where it is enabled. -/
def step (l : ℕ × Step) (s : State) : Option State :=
  let t := l.1
  match l.2, s.pc t with
  | .commit b, .idle =>
    if b ∈ s.committed then none
    else some { s with committed := insert b s.committed, pc := s.pc.move t (.committed b) }
  | .publish worker, .claiming total =>
    -- the caller of `note_dirty_n` goes on and a thread of its own runs the passes
    let pc := s.pc.move t .idle
    if pc worker = .idle then some { s with claimed := total, pc := pc.move worker .waiting }
    else none
  | .build ok, .locked =>
    some { s with pc := s.pc.move t (if ok then .built s.committed else .failed) }
  | .build true, .fullLocked => some { s with pc := s.pc.move t (.fullBuilt s.committed) }
  | .build false, .fullLocked => some { s with pc := s.pc.move t (.releasing false) }
  | .lockFull, .idle =>
    if s.maintenance = none then
      some { s with maintenance := some t, pc := s.pc.move t .fullLocked }
    else none
  | .next, _ => s.next size t
  | _, _ => none

/-- The mutations of the writes that are noted and that no installed snapshot covers. -/
def lagging (s : State) : ℕ := ∑ b ∈ s.noted \ s.covered, size b

end State

/-- No subtraction goes below zero, at most one thread is responsible for a claimed rebuild, and
every noted write that no installed snapshot covers is counted. -/
structure Accounted (size : ℕ → ℕ) (s : State) : Prop where
  no_underflow : ∀ t c, s.pc t = .taken c → c ≤ s.dirty
  one_claim : ∀ t t', (s.pc t).claims → (s.pc t').claims → t = t'
  counted : s.lagging size ≤ s.dirty

/-- A step that does not race with another one: a claim is published while the counter holds it,
and `install_full` zeroes the counter of writes that its snapshot covers and lowers the flag of no
one. -/
def Orderly (l : ℕ × Step) (s : State) : Prop :=
  match l.2, s.pc l.1 with
  | .publish _, .claiming total => total ≤ s.dirty
  | .next, .fullStored => s.noted ⊆ s.covered
  | .next, .fullCleared => ∀ t, (s.pc t).claims = false
  | _, _ => True

/-! ## Who holds the lock and the claim -/

/-- The maintenance lock and the flag belong to the threads that stand accordingly. -/
structure Owned (s : State) : Prop where
  lock : ∀ t, (s.pc t).maintains → s.maintenance = some t
  flag : ∀ t, (s.pc t).claims → s.rebuilding = true
  one : ∀ t t', (s.pc t).claims → (s.pc t').claims → t = t'

namespace Owned

variable {s s' : State} {t t' : ℕ} {p : Pc}

lemma not_claims_of_ne (h : Owned s) (ht : (s.pc t).claims) (hne : t' ≠ t) :
    (s.pc t').claims = false := by
  rcases hc : (s.pc t').claims with _ | _
  · rfl
  · exact (hne (h.one t' t hc ht)).elim

lemma not_claims_of_flag (h : Owned s) (hflag : s.rebuilding = false) (t : ℕ) :
    (s.pc t).claims = false := by
  rcases hc : (s.pc t).claims with _ | _
  · rfl
  · rw [h.flag t hc] at hflag
    cases hflag

/-- A thread moves. It may take or release what it holds, and raise the flag if no other thread has
a claim. -/
theorem move (h : Owned s) (hpc : s'.pc = s.pc.move t p)
    (hlock : p.maintains → s'.maintenance = some t)
    (hkept : s'.maintenance = s.maintenance ∨ s.maintenance = none ∨ (s.pc t).maintains)
    (hclaim : p.claims → s'.rebuilding = true ∧ ∀ t', t' ≠ t → (s.pc t').claims = false)
    (hflag : ∀ t', t' ≠ t → (s.pc t').claims → s'.rebuilding = true) : Owned s' := by
  have hcases : ∀ t', t' ≠ t → s'.pc t' = s.pc t' := fun t' hne => by
    rw [hpc, Threads.move_of_ne hne]
  have hself : s'.pc t = p := by rw [hpc, Threads.move_self]
  refine ⟨fun t' hm => ?_, fun t' hc => ?_, fun t₁ t₂ h₁ h₂ => ?_⟩
  · by_cases hne : t' = t
    · subst hne
      exact hlock (hself ▸ hm)
    · rw [hcases t' hne] at hm
      have hold := h.lock t' hm
      rcases hkept with heq | hnone | hmover
      · rw [heq, hold]
      · rw [hnone] at hold
        cases hold
      · -- the lock is not held twice
        exact (hne (some.inj (hold.symm.trans (h.lock t hmover)))).elim
  · by_cases hne : t' = t
    · subst hne
      exact (hclaim (hself ▸ hc)).1
    · exact hflag t' hne (hcases t' hne ▸ hc)
  · by_cases hne₁ : t₁ = t <;> by_cases hne₂ : t₂ = t
    · rw [hne₁, hne₂]
    · subst hne₁
      rw [hcases t₂ hne₂, (hclaim (hself ▸ h₁)).2 t₂ hne₂] at h₂
      cases h₂
    · subst hne₂
      rw [hcases t₁ hne₁, (hclaim (hself ▸ h₂)).2 t₁ hne₁] at h₁
      cases h₁
    · exact h.one t₁ t₂ (hcases t₁ hne₁ ▸ h₁) (hcases t₂ hne₂ ▸ h₂)

/-- A move that changes neither lock nor flag, of a thread that keeps what it holds. -/
theorem stay (h : Owned s) (hpc : s'.pc = s.pc.move t p) (hm : s'.maintenance = s.maintenance)
    (hr : s'.rebuilding = s.rebuilding) (hlock : p.maintains → (s.pc t).maintains)
    (hclaim : p.claims → (s.pc t).claims) : Owned s' := by
  refine h.move hpc (fun hp => ?_) (.inl hm) (fun hp => ⟨?_, fun t' => ?_⟩) fun t' _ hc => ?_
  · rw [hm]
    exact h.lock t (hlock hp)
  · rw [hr]
    exact h.flag t (hclaim hp)
  · exact h.not_claims_of_ne (hclaim hp)
  · rw [hr]
    exact h.flag t' hc

/-- A move of the only claimer that lowers the flag. -/
theorem lower (h : Owned s) (hpc : s'.pc = s.pc.move t (.releasing false))
    (hm : s'.maintenance = s.maintenance) (hlock : (s.pc t).maintains)
    (hnone : ∀ t', t' ≠ t → (s.pc t').claims = false) : Owned s' := by
  refine h.move hpc (fun _ => ?_) (.inl hm) (fun hp => by cases hp) fun t' hne hc => ?_
  · rw [hm]
    exact h.lock t hlock
  · rw [hnone t' hne] at hc
    cases hc

end Owned

/-! ## What is counted -/

section Counts

variable {size : ℕ → ℕ} {s s' : State} {t : ℕ}

/-- What the counter holds while a thread stands at `p`. -/
def Pc.Holds (size : ℕ → ℕ) (s : State) : Pc → Prop
  | committed b => b ∈ s.committed
  | built writes => (∑ b ∈ s.noted \ (s.covered ∪ writes), size b) + s.claimed ≤ s.dirty
  | stored => s.lagging size + s.claimed ≤ s.dirty
  | taken c => s.lagging size + c ≤ s.dirty ∧ s.claimed = 0
  | subtracted c prev => prev - c ≤ s.dirty
  | _ => True

/-- The counter holds every claim and every write that lags. While `install_full` is between its
two stores the claim is void. -/
structure Counted (size : ℕ → ℕ) (s : State) : Prop where
  noted : s.noted ⊆ s.committed
  lagging : s.lagging size ≤ s.dirty
  claimed : (∃ t, s.pc t = .fullZeroed) ∨ s.claimed ≤ s.dirty
  holds : ∀ t, (s.pc t).Holds size s

/-- Noting a write adds at most its size to what lags. -/
theorem sum_insert_sdiff_le (size : ℕ → ℕ) (noted covered : Finset ℕ) (b : ℕ) :
    ∑ b' ∈ insert b noted \ covered, size b' ≤ (∑ b' ∈ noted \ covered, size b') + size b := by
  have hsub : insert b noted \ covered ⊆ insert b (noted \ covered) := by
    intro b' hb'
    simp only [Finset.mem_sdiff, Finset.mem_insert] at hb' ⊢
    tauto
  refine (Finset.sum_le_sum_of_subset hsub).trans ?_
  by_cases hb : b ∈ noted \ covered
  · rw [Finset.insert_eq_of_mem hb]
    exact Nat.le_add_right ..
  · rw [Finset.sum_insert hb, Nat.add_comm]

/-- What other threads stand at is not about the fields that the holder of the lock changes. -/
theorem Pc.Holds.of_lock {t' : ℕ} (h : (s.pc t').Holds size s) (howned : Owned s)
    (hlock : s.maintenance = some t) (hne : t' ≠ t) (hcommitted : s'.committed = s.committed) :
    (s.pc t').Holds size s' := by
  have hfree : (s.pc t').maintains = false := by
    rcases hm : (s.pc t').maintains with _ | _
    · rfl
    · exact (hne (some.inj ((howned.lock t' hm).symm.trans hlock))).elim
  cases hpc : s.pc t' with
  | committed b =>
    rw [hpc] at h
    change b ∈ s'.committed
    rw [hcommitted]
    exact h
  | built | stored | taken | subtracted =>
    rw [hpc] at hfree
    cases hfree
  | _ => trivial

def State.counts (s : State) : ℕ × ℕ × Finset ℕ × Finset ℕ × Finset ℕ :=
  (s.dirty, s.claimed, s.committed, s.noted, s.covered)

lemma Pc.Holds.congr {p : Pc} (h : p.Holds size s) (hs : s'.counts = s.counts) :
    p.Holds size s' := by
  simp only [State.counts, Prod.mk.injEq] at hs
  obtain ⟨h₁, h₂, h₃, h₄, h₅⟩ := hs
  cases p <;> simp_all [Pc.Holds, State.lagging]

namespace Counted

/-- A move that leaves the counts alone. -/
theorem stay {p : Pc} (h : Counted size s) (hs : s'.counts = s.counts)
    (hpc : s'.pc = s.pc.move t p) (hp : p.Holds size s) (hne : s.pc t ≠ .fullZeroed) :
    Counted size s' := by
  have hfields := hs
  simp only [State.counts, Prod.mk.injEq] at hfields
  obtain ⟨h₁, h₂, h₃, h₄, h₅⟩ := hfields
  refine ⟨by rw [h₃, h₄]; exact h.noted, ?_, ?_, ?_⟩
  · rw [State.lagging, h₁, h₄, h₅]
    exact h.lagging
  · rw [h₁, h₂, hpc]
    refine h.claimed.imp_left ?_
    rintro ⟨t', ht'⟩
    have hother : t' ≠ t := by
      rintro rfl
      exact hne ht'
    exact ⟨t', by rw [Threads.move_of_ne hother, ht']⟩
  · rw [hpc]
    refine Threads.forall_move (hp.congr hs) fun t' _ => (h.holds t').congr hs

lemma locked {p : Pc} (h : Counted size s) (howned : Owned s) (hlock : (s.pc t).maintains)
    (hpc : s'.pc = s.pc.move t p) (hcommitted : s'.committed = s.committed)
    (hnoted : s'.noted = s.noted) (hlag : s'.lagging size ≤ s'.dirty)
    (hclaimed : p = .fullZeroed ∨ s'.claimed ≤ s'.dirty) (hp : p.Holds size s') :
    Counted size s' := by
  refine ⟨by rw [hnoted, hcommitted]; exact h.noted, hlag, ?_, ?_⟩
  · rw [hpc]
    refine hclaimed.imp_left ?_
    rintro rfl
    exact ⟨t, Threads.move_self⟩
  · rw [hpc]
    exact Threads.forall_move hp fun t' hne =>
      (h.holds t').of_lock howned (howned.lock t hlock) hne hcommitted

/-- Where the holder of the lock is not `install_full`, the claim is counted. -/
theorem claimed_le (h : Counted size s) (howned : Owned s) (hlock : (s.pc t).maintains)
    (hne : s.pc t ≠ .fullZeroed) : s.claimed ≤ s.dirty := by
  rcases h.claimed with ⟨t', ht'⟩ | hle
  · have heq := (howned.lock t' (by rw [ht']; rfl)).symm.trans (howned.lock t hlock)
    obtain rfl := some.inj heq
    exact (hne ht').elim
  · exact hle

end Counted

end Counts

/-! ## Runs -/

section Runs

variable {size : ℕ → ℕ} {s s' : State} {t : ℕ}

lemma Owned.next (h : Owned s) (hord : Orderly (t, .next) s) (hnext : s.next size t = some s') :
    Owned s' := by
  unfold State.next at hnext
  split at hnext
  next b hpc =>
    obtain rfl := some.inj hnext
    refine h.stay (t := t) rfl rfl rfl ?_ ?_
    · split <;> exact fun hp => by cases hp
    · split <;> exact fun hp => by cases hp
  next total hpc =>
    -- the swap: it claims where the flag was down
    obtain rfl := some.inj hnext
    rcases hr : s.rebuilding with _ | _
    · refine h.move rfl (fun hp => by cases hp) (.inl rfl) (fun _ => ⟨rfl, fun t' _ => ?_⟩)
        fun _ _ _ => rfl
      exact h.not_claims_of_flag hr t'
    · exact h.stay rfl rfl hr.symm (fun hp => by cases hp) (fun hp => by cases hp)
  next hpc =>
    split at hnext
    next hfree =>
      obtain rfl := some.inj hnext
      have hclaims : (s.pc t).claims := by rw [hpc]; rfl
      exact h.move rfl (fun _ => rfl) (.inr (.inl hfree))
        (fun _ => ⟨h.flag t hclaims, fun t' => h.not_claims_of_ne hclaims⟩) fun t' _ => h.flag t'
    next => cases hnext
  next writes hpc =>
    obtain rfl := some.inj hnext
    exact h.stay (t := t) rfl rfl rfl (fun _ => by rw [hpc]; rfl) (fun _ => by rw [hpc]; rfl)
  next hpc =>
    obtain rfl := some.inj hnext
    exact h.stay (t := t) rfl rfl rfl (fun _ => by rw [hpc]; rfl) (fun _ => by rw [hpc]; rfl)
  next claimed hpc =>
    obtain rfl := some.inj hnext
    exact h.stay (t := t) rfl rfl rfl (fun _ => by rw [hpc]; rfl) (fun _ => by rw [hpc]; rfl)
  next claimed prev hpc =>
    have hclaims : (s.pc t).claims := by rw [hpc]; rfl
    split at hnext
    · obtain rfl := some.inj hnext
      exact h.stay (t := t) rfl rfl rfl (fun _ => by rw [hpc]; rfl) (fun _ => hclaims)
    · obtain rfl := some.inj hnext
      exact h.lower rfl rfl (by rw [hpc]; rfl) fun t' => h.not_claims_of_ne hclaims
  next hpc =>
    obtain rfl := some.inj hnext
    exact h.stay (t := t) rfl rfl rfl (fun _ => by rw [hpc]; rfl) (fun _ => by rw [hpc]; rfl)
  next hpc =>
    obtain rfl := some.inj hnext
    have hclaims : (s.pc t).claims := by rw [hpc]; rfl
    exact h.lower rfl rfl (by rw [hpc]; rfl) fun t' => h.not_claims_of_ne hclaims
  next again hpc =>
    obtain rfl := some.inj hnext
    have hlock : (s.pc t).maintains := by rw [hpc]; rfl
    refine h.move rfl (fun hp => ?_) (.inr (.inr hlock)) (fun hp => ?_) fun t' _ => h.flag t'
    · split at hp <;> cases hp
    · cases again with
      | false => cases hp
      | true =>
        have hclaims : (s.pc t).claims := by rw [hpc]; rfl
        exact ⟨h.flag t hclaims, fun t' => h.not_claims_of_ne hclaims⟩
  next writes hpc =>
    obtain rfl := some.inj hnext
    exact h.stay (t := t) rfl rfl rfl (fun _ => by rw [hpc]; rfl) (fun hp => by cases hp)
  next hpc =>
    obtain rfl := some.inj hnext
    exact h.stay (t := t) rfl rfl rfl (fun _ => by rw [hpc]; rfl) (fun hp => by cases hp)
  next hpc =>
    obtain rfl := some.inj hnext
    exact h.stay (t := t) rfl rfl rfl (fun _ => by rw [hpc]; rfl) (fun hp => by cases hp)
  next hpc =>
    obtain rfl := some.inj hnext
    have hnone : ∀ t', (s.pc t').claims = false := by
      simpa only [Orderly, hpc] using hord
    exact h.lower rfl rfl (by rw [hpc]; rfl) fun t' _ => hnone t'
  next => cases hnext

lemma Owned.step {l : ℕ × Step} (h : Owned s) (hord : Orderly l s)
    (hstep : s.step size l = some s') : Owned s' := by
  obtain ⟨t, l⟩ := l
  unfold State.step at hstep
  dsimp only at hstep
  split at hstep
  next b hpc =>
    split at hstep
    · cases hstep
    · obtain rfl := some.inj hstep
      exact h.stay (t := t) rfl rfl rfl (fun hp => by cases hp) (fun hp => by cases hp)
  next worker total hpc =>
    have hclaims : (s.pc t).claims := by rw [hpc]; rfl
    -- the claim passes from the caller to the worker
    have hidle : Owned { s with pc := s.pc.move t .idle } :=
      h.stay (t := t) rfl rfl rfl (fun hp => by cases hp) (fun hp => by cases hp)
    have hnone : ∀ t', (s.pc.move t .idle t').claims = false :=
      Threads.forall_move (Q := fun _ p => Pc.claims p = false) rfl fun t' =>
        h.not_claims_of_ne hclaims
    split at hstep
    · obtain rfl := some.inj hstep
      exact hidle.move rfl (fun hp => by cases hp) (.inl rfl)
        (fun _ => ⟨h.flag t hclaims, fun t' _ => hnone t'⟩) fun _ _ _ => h.flag t hclaims
    · cases hstep
  next ok hpc =>
    obtain rfl := some.inj hstep
    exact h.stay (t := t) rfl rfl rfl (fun _ => by rw [hpc]; rfl) (fun _ => by rw [hpc]; rfl)
  next hpc =>
    obtain rfl := some.inj hstep
    exact h.stay (t := t) rfl rfl rfl (fun _ => by rw [hpc]; rfl) (fun hp => by cases hp)
  next hpc =>
    obtain rfl := some.inj hstep
    exact h.stay (t := t) rfl rfl rfl (fun _ => by rw [hpc]; rfl) (fun hp => by cases hp)
  next hpc =>
    split at hstep
    next hfree =>
      obtain rfl := some.inj hstep
      exact h.move rfl (fun _ => rfl) (.inr (.inl hfree)) (fun hp => by cases hp)
        fun t' _ => h.flag t'
    next => cases hstep
  next => exact h.next hord hstep
  next => cases hstep

/-- Every bound grows by the size of a noted write, at most. -/
lemma Pc.Holds.note {p : Pc} (h : p.Holds size s) (b : ℕ) (pc : ℕ → Pc) :
    p.Holds size { s with dirty := s.dirty + size b, noted := insert b s.noted, pc } := by
  cases p with
  | built writes =>
    have hsum := sum_insert_sdiff_le size s.noted (s.covered ∪ writes) b
    simp only [Pc.Holds] at h ⊢
    omega
  | stored =>
    have hsum := sum_insert_sdiff_le size s.noted s.covered b
    simp only [Pc.Holds, State.lagging] at h ⊢
    omega
  | taken c =>
    have hsum := sum_insert_sdiff_le size s.noted s.covered b
    simp only [Pc.Holds, State.lagging] at h ⊢
    omega
  | subtracted c prev =>
    simp only [Pc.Holds] at h ⊢
    omega
  | committed b' => exact h
  | _ => trivial

/-- A thread notes its write and goes on to `p`. -/
lemma Counted.note (h : Counted size s) {b : ℕ} (hpc : s.pc t = .committed b) {p : Pc}
    (hp : p = .noted (s.dirty + size b) ∨ p = .idle) :
    Counted size { s with
      dirty := s.dirty + size b, noted := insert b s.noted, pc := s.pc.move t p } := by
  have hholds := h.holds t
  rw [hpc] at hholds
  refine ⟨Finset.insert_subset hholds h.noted, ?_, ?_, ?_⟩
  · exact (sum_insert_sdiff_le size s.noted s.covered b).trans (Nat.add_le_add_right h.lagging _)
  · rcases h.claimed with ⟨t', ht'⟩ | hle
    · have hne : t' ≠ t := by
        rintro rfl
        rw [hpc] at ht'
        cases ht'
      exact .inl ⟨t', by dsimp only; rw [Threads.move_of_ne hne, ht']⟩
    · exact .inr (hle.trans (Nat.le_add_right ..))
  · refine Threads.forall_move (Q := fun _ p => Pc.Holds size _ p) ?_ fun t' _ =>
      (h.holds t').note b _
    rcases hp with rfl | rfl <;> trivial

lemma Counted.next (h : Counted size s) (howned : Owned s) (hord : Orderly (t, .next) s)
    (hnext : s.next size t = some s') : Counted size s' := by
  have hholds := h.holds t
  unfold State.next at hnext
  split at hnext
  next b hpc =>
    obtain rfl := some.inj hnext
    exact h.note hpc (ite_eq_or_eq ..)
  next total hpc =>
    obtain rfl := some.inj hnext
    refine h.stay (t := t) rfl rfl ?_ (by rw [hpc]; exact Pc.noConfusion)
    split <;> trivial
  next hpc =>
    split at hnext
    · obtain rfl := some.inj hnext
      exact h.stay (t := t) rfl rfl trivial (by rw [hpc]; exact Pc.noConfusion)
    · cases hnext
  next writes hpc =>
    obtain rfl := some.inj hnext
    have hlock : (s.pc t).maintains := by rw [hpc]; rfl
    rw [hpc] at hholds
    have hsum : (∑ b ∈ s.noted \ (s.covered ∪ writes), size b) + s.claimed ≤ s.dirty := hholds
    exact h.locked howned hlock rfl rfl rfl (by simp only [State.lagging]; omega)
      (.inr (by dsimp only; omega)) hsum
  next hpc =>
    obtain rfl := some.inj hnext
    have hlock : (s.pc t).maintains := by rw [hpc]; rfl
    rw [hpc] at hholds
    exact h.locked howned hlock rfl rfl rfl h.lagging (.inr (Nat.zero_le _)) ⟨hholds, rfl⟩
  next c hpc =>
    obtain rfl := some.inj hnext
    have hlock : (s.pc t).maintains := by rw [hpc]; rfl
    rw [hpc] at hholds
    obtain ⟨hle, hzero⟩ := hholds
    have hsub : wrappingSub s.dirty c = s.dirty - c := if_pos (by omega)
    refine h.locked howned hlock rfl rfl rfl ?_ (.inr ?_) ?_
    · simp only [hsub]
      change s.lagging size ≤ s.dirty - c
      omega
    · simp only [hzero]
      exact Nat.zero_le _
    · simp only [Pc.Holds, hsub]
      exact Nat.le_refl _
  next c prev hpc =>
    have hlock : (s.pc t).maintains := by rw [hpc]; rfl
    have hle : s.claimed ≤ s.dirty :=
      h.claimed_le howned hlock (by rw [hpc]; exact Pc.noConfusion)
    rw [hpc] at hholds
    split at hnext
    · obtain rfl := some.inj hnext
      exact h.locked howned hlock rfl rfl rfl h.lagging (.inr hholds) trivial
    · obtain rfl := some.inj hnext
      exact h.locked howned hlock rfl rfl rfl h.lagging (.inr hle) trivial
  next hpc =>
    obtain rfl := some.inj hnext
    have hlock : (s.pc t).maintains := by rw [hpc]; rfl
    exact h.locked howned hlock rfl rfl rfl h.lagging (.inr (Nat.zero_le _)) trivial
  next hpc =>
    obtain rfl := some.inj hnext
    exact h.stay (t := t) rfl rfl trivial (by rw [hpc]; exact Pc.noConfusion)
  next again hpc =>
    obtain rfl := some.inj hnext
    refine h.stay (t := t) rfl rfl ?_ (by rw [hpc]; exact Pc.noConfusion)
    split <;> trivial
  next writes hpc =>
    obtain rfl := some.inj hnext
    have hlock : (s.pc t).maintains := by rw [hpc]; rfl
    have hle : s.claimed ≤ s.dirty :=
      h.claimed_le howned hlock (by rw [hpc]; exact Pc.noConfusion)
    refine h.locked howned hlock rfl rfl rfl ?_ (.inr hle) trivial
    refine (Finset.sum_le_sum_of_subset ?_).trans h.lagging
    exact Finset.sdiff_subset_sdiff (Finset.Subset.refl _) Finset.subset_union_left
  next hpc =>
    obtain rfl := some.inj hnext
    have hlock : (s.pc t).maintains := by rw [hpc]; rfl
    -- nothing lags behind the snapshot just installed
    have hcovered : s.noted ⊆ s.covered := by
      simpa only [Orderly, hpc] using hord
    refine h.locked howned hlock rfl rfl rfl ?_ (.inl rfl) trivial
    simp only [State.lagging, Finset.sdiff_eq_empty_iff_subset.mpr hcovered, Finset.sum_empty]
    exact Nat.le_refl _
  next hpc =>
    obtain rfl := some.inj hnext
    have hlock : (s.pc t).maintains := by rw [hpc]; rfl
    exact h.locked howned hlock rfl rfl rfl h.lagging (.inr (Nat.zero_le _)) trivial
  next hpc =>
    obtain rfl := some.inj hnext
    exact h.stay (t := t) rfl rfl trivial (by rw [hpc]; exact Pc.noConfusion)
  next => cases hnext

lemma Counted.step {l : ℕ × Step} (h : Counted size s) (howned : Owned s) (hord : Orderly l s)
    (hstep : s.step size l = some s') : Counted size s' := by
  obtain ⟨t, l⟩ := l
  unfold State.step at hstep
  dsimp only at hstep
  split at hstep
  next b hpc =>
    split at hstep
    · cases hstep
    · obtain rfl := some.inj hstep
      refine ⟨h.noted.trans (Finset.subset_insert ..), h.lagging, ?_, ?_⟩
      · refine h.claimed.imp_left ?_
        rintro ⟨t', ht'⟩
        have hne : t' ≠ t := by
          rintro rfl
          rw [hpc] at ht'
          cases ht'
        exact ⟨t', by dsimp only; rw [Threads.move_of_ne hne, ht']⟩
      · refine Threads.forall_move (Q := fun _ p => Pc.Holds size _ p) ?_ fun t' _ => ?_
        · exact Finset.mem_insert_self ..
        · have hother := h.holds t'
          cases hpc' : s.pc t' with
          | committed b' =>
            rw [hpc'] at hother
            exact Finset.mem_insert_of_mem hother
          | built | stored | taken | subtracted =>
            rw [hpc'] at hother
            exact hother
          | _ => trivial
  next worker total hpc =>
    have hle : total ≤ s.dirty := by
      simpa only [Orderly, hpc] using hord
    have hclaims : (s.pc t).claims := by rw [hpc]; rfl
    split at hstep
    next hidle =>
      obtain rfl := some.inj hstep
      refine ⟨h.noted, h.lagging, .inr hle, ?_⟩
      set s' : State :=
        { s with claimed := total, pc := (s.pc.move t .idle).move worker .waiting }
      change ∀ t', Pc.Holds size s' ((s.pc.move t .idle).move worker .waiting t')
      refine Threads.forall_move (p := Pc.waiting) (Q := fun _ p => Pc.Holds size s' p) trivial
        fun t' _ => ?_
      refine Threads.forall_move (p := Pc.idle) (Q := fun _ p => Pc.Holds size s' p) trivial
        (fun t' hne => ?_) t'
      -- a thread whose bound names the claim would be a second claimer
      have hother := h.holds t'
      have hnot := howned.not_claims_of_ne hclaims hne
      cases hpc' : s.pc t' with
      | committed b' =>
        rw [hpc'] at hother
        exact hother
      | built | stored | taken | subtracted =>
        rw [hpc'] at hnot
        cases hnot
      | _ => trivial
    next => cases hstep
  next ok hpc =>
    obtain rfl := some.inj hstep
    have hlock : (s.pc t).maintains := by rw [hpc]; rfl
    have hle : s.claimed ≤ s.dirty :=
      h.claimed_le howned hlock (by rw [hpc]; exact Pc.noConfusion)
    refine h.stay (t := t) rfl rfl ?_ (by rw [hpc]; exact Pc.noConfusion)
    split
    · -- the build sees every write that is noted
      have hsub : s.noted ⊆ s.covered ∪ s.committed := h.noted.trans Finset.subset_union_right
      simp only [Pc.Holds, Finset.sdiff_eq_empty_iff_subset.mpr hsub, Finset.sum_empty]
      omega
    · trivial
  next hpc =>
    obtain rfl := some.inj hstep
    exact h.stay (t := t) rfl rfl trivial (by rw [hpc]; exact Pc.noConfusion)
  next hpc =>
    obtain rfl := some.inj hstep
    exact h.stay (t := t) rfl rfl trivial (by rw [hpc]; exact Pc.noConfusion)
  next hpc =>
    split at hstep
    · obtain rfl := some.inj hstep
      exact h.stay (t := t) rfl rfl trivial (by rw [hpc]; exact Pc.noConfusion)
    · cases hstep
  next => exact h.next howned hord hstep
  next => cases hstep

lemma owned_init : Owned .init where
  lock _ hm := (Bool.false_ne_true hm).elim
  flag _ hc := (Bool.false_ne_true hc).elim
  one _ _ hc := (Bool.false_ne_true hc).elim

lemma counted_init (size : ℕ → ℕ) : Counted size .init :=
  ⟨Finset.Subset.refl _, Nat.le_refl _, .inr (Nat.le_refl _), fun _ => trivial⟩

lemma Owned.accounted (howned : Owned s) (h : Counted size s) : Accounted size s where
  no_underflow t c hpc := by
    have hholds := h.holds t
    rw [hpc] at hholds
    exact (Nat.le_add_left ..).trans hholds.1
  one_claim := howned.one
  counted := h.lagging

end Runs

/-- **Accounting.** In every run of orderly steps, of any number of threads, the dirty counter does
not wrap, at most one rebuild is claimed at a time, and every noted write is counted or covered by
an installed snapshot. -/
theorem accounted_of_orderly (size : ℕ → ℕ) (steps : List (ℕ × Step)) (s : State)
    (hord : Interleaving.Meets (State.step size) Orderly steps .init)
    (hrun : Interleaving.run (State.step size) steps .init = some s) : Accounted size s := by
  have hinv : Owned s ∧ Counted size s :=
    Interleaving.run_induction (I := fun s => Owned s ∧ Counted size s)
      (fun hl h hstep => ⟨h.1.step hl hstep, h.2.step h.1 hl hstep⟩) hord
      ⟨owned_init, counted_init size⟩ hrun
  exact hinv.1.accounted hinv.2

/-- A write of a thousand mutations whose rebuild settles before another write publishes the claim
that it counted before. -/
def lateClaim : List (ℕ × Step) :=
  [(0, .commit 0), (0, .next), (0, .next), (0, .publish 1),
    (1, .next), (1, .build true), (1, .next), (1, .next),
    -- the second write counts a thousand and one
    (2, .commit 1), (2, .next),
    (1, .next), (1, .next), (1, .next),
    -- and claims them when one is left
    (2, .next), (2, .publish 3), (3, .next), (3, .build true), (3, .next), (3, .next)]

/-- A claimed rebuild waits for the lock while `rebuild_csr` installs and lowers the flag, and the
next write claims again. -/
def secondClaim : List (ℕ × Step) :=
  [(0, .commit 0), (0, .next), (0, .next), (0, .publish 1),
    (2, .lockFull), (2, .build true), (2, .next), (2, .next), (2, .next), (2, .next),
    (0, .commit 2), (0, .next), (0, .next)]

/-- A write commits and notes itself between the build of `rebuild_csr` and its `dirty.store(0)`. -/
def lostWrite : List (ℕ × Step) :=
  [(2, .lockFull), (2, .build true), (0, .commit 1), (0, .next), (2, .next), (2, .next)]

/-- The sizes of the writes of the runs above. -/
def sizes (b : ℕ) : ℕ := if b = 1 then 1 else 1000

/-- The late claim takes a thousand and one from a counter of one, which wraps in the next step.
The second claim is made while the first is outstanding. The lost write is neither counted nor
covered. -/
theorem rebuild_races :
    (Interleaving.run (State.step sizes) lateClaim .init).map (fun s => (s.pc 3, s.dirty)) =
        some (.taken 1001, 1) ∧
      (Interleaving.run (State.step sizes) (lateClaim ++ [(3, .next)]) .init).map State.dirty =
        some (2 ^ 64 - 1000) ∧
      (Interleaving.run (State.step sizes) secondClaim .init).map (fun s => (s.pc 0, s.pc 1)) =
        some (.claiming 1000, .waiting) ∧
      (Interleaving.run (State.step sizes) lostWrite .init).map
        (fun s => (s.lagging sizes, s.dirty)) = some (1, 0) := by
  refine ⟨?_, ?_, ?_, ?_⟩ <;> decide +kernel

/-- A step that is orderly wherever the other threads stand. -/
def quiet (l : ℕ × Step) (s : State) : Bool :=
  match l.2, s.pc l.1 with
  | .publish _, .claiming total => total ≤ s.dirty
  | .next, .fullStored | .next, .fullCleared => false
  | _, _ => true

lemma orderly_of_quiet (l : ℕ × Step) (s : State) (h : quiet l s = true) : Orderly l s := by
  unfold quiet at h
  unfold Orderly
  split at h
  next => simpa using h
  next => cases h
  next => cases h
  next => trivial

/-- The first rebuild of `lateClaim` settles in orderly steps. -/
theorem accounted_of_orderly_settled :
    ∃ s, Interleaving.run (State.step sizes) (lateClaim.take 13) .init = some s ∧
      Accounted sizes s := by
  obtain ⟨s, hs⟩ := isSome_iff_exists.mp
    (show (Interleaving.run (State.step sizes) (lateClaim.take 13) .init).isSome by decide +kernel)
  exact ⟨s, hs, accounted_of_orderly sizes (lateClaim.take 13) s
    (Interleaving.meets_of_check orderly_of_quiet (by decide +kernel)) hs⟩

end Rebuild

end IssunDB
