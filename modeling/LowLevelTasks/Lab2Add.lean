import LowLevelTasks.Threads
import Mathlib.Algebra.Order.BigOperators.Group.Finset
import Mathlib.Tactic.Ring
import Mathlib.Tactic.Linarith

/-!
The counter of `lab2_add.c` under any schedule.

Every thread adds one to the shared counter `num_iterations` times and then takes one away as
often. Reads and writes of the counter, compare-and-swaps and lock operations are atomic
steps; everything else a thread does is local.
-/

namespace LowLevelTasks.Lab2Add

open LowLevelTasks.Runs LowLevelTasks.Threads

inductive SyncOption
  | mutex | spinLock | compareSwap | unsynced
  deriving DecidableEq

structure Config where
  numThreads : ℕ
  numIterations : ℕ
  syncOpt : SyncOption
  optYield : Bool

/-- Where a thread is in `add_wrapper`, or in the `add` or `add_compare_and_swap` it calls. -/
inductive Pc
  | lock | loop | read | yield | write | casRead | casYield | cas | unlock | returned
  deriving DecidableEq

/-- The loop a thread is in: the one that adds 1 or the one that adds -1. -/
inductive Phase
  | up | down
  deriving DecidableEq

def Phase.value : Phase → ℤ
  | .up => 1
  | .down => -1

structure Shared where
  counter : ℤ
  mutex : Bool
  spinlock : ℕ

/-- `plus` and `minus` count the operations of the thread that have taken effect. -/
structure Local where
  pc : Pc
  phase : Phase
  n : ℕ
  prev : ℤ
  sum : ℤ
  plus : ℕ
  minus : ℕ

/-- The operation has taken effect: on to the next pass of the loop. -/
def Local.commit (l : Local) : Local :=
  match l.phase with
  | .up => { l with pc := .loop, n := l.n + 1, plus := l.plus + 1 }
  | .down => { l with pc := .loop, n := l.n + 1, minus := l.minus + 1 }

variable (c : Config)

/-- The next atomic step of a thread; `none` when it waits for the mutex or has returned. -/
def act (_ : Fin c.numThreads) (_ : Unit) (g : Shared) (l : Local) : Option (Shared × Local) :=
  match l.pc with
  | .lock =>
    match c.syncOpt with
    | .mutex => if g.mutex then none else some ({ g with mutex := true }, { l with pc := .loop })
    | .spinLock =>
      -- `__sync_lock_test_and_set` always stores 1 and goes on if it found 0
      some ({ g with spinlock := 1 }, if g.spinlock = 0 then { l with pc := .loop } else l)
    | _ => some (g, { l with pc := .loop })
  | .loop =>
    if l.n < c.numIterations then
      some (g, { l with pc := if c.syncOpt = .compareSwap then .casRead else .read })
    else
      match l.phase with
      | .up => some (g, { l with phase := .down, n := 0 })
      | .down => some (g, { l with pc := .unlock })
  | .read =>
    some (g, { l with sum := g.counter + l.phase.value,
                      pc := if c.optYield then .yield else .write })
  | .yield => some (g, { l with pc := .write })
  | .write => some ({ g with counter := l.sum }, l.commit)
  | .casRead =>
    some (g, { l with prev := g.counter, sum := g.counter + l.phase.value,
                      pc := if c.optYield then .casYield else .cas })
  | .casYield => some (g, { l with pc := .cas })
  | .cas =>
    if g.counter = l.prev then some ({ g with counter := l.sum }, l.commit)
    else some (g, { l with pc := .casRead })
  | .unlock =>
    match c.syncOpt with
    | .mutex => some ({ g with mutex := false }, { l with pc := .returned })
    | .spinLock => some ({ g with spinlock := 0 }, { l with pc := .returned })
    | _ => some (g, { l with pc := .returned })
  | .returned => none

abbrev St := State (Fin c.numThreads) Shared Local

def init : St c := ⟨⟨0, false, 0⟩, fun _ => ⟨.lock, .up, 0, 0, 0, 0, 0⟩⟩

/-- What the operations of a thread that have taken effect add up to. -/
def Local.committed (l : Local) : ℤ := l.plus - l.minus

/-- The thread is inside the locked region. -/
def Local.inside (l : Local) : Prop := l.pc ≠ .lock ∧ l.pc ≠ .returned

/-- The lock of the configuration is taken. -/
def Held (g : Shared) : Prop :=
  match c.syncOpt with
  | .mutex => g.mutex = true
  | .spinLock => g.spinlock ≠ 0
  | _ => True

def Locked : Prop := c.syncOpt = .mutex ∨ c.syncOpt = .spinLock

/-! ### The invariant -/

/-- The operations that have taken effect are those of the passes completed. -/
def Counted (l : Local) : Prop :=
  match l.phase with
  | .up => l.plus = l.n ∧ l.minus = 0
  | .down => l.plus = c.numIterations ∧ l.minus = l.n

/-- How far a thread can be in a loop, by where it stands. -/
def Bounded (l : Local) : Prop :=
  match l.pc with
  | .lock | .loop => l.n ≤ c.numIterations
  | .unlock | .returned => l.phase = .down ∧ l.n = c.numIterations
  | _ => l.n < c.numIterations

/-- The private value of a thread that is about to write: computed from the counter as it is
now under a lock, from the value last read before a compare-and-swap. -/
def Prepared (g : Shared) (l : Local) : Prop :=
  match l.pc with
  | .read => Locked c
  | .yield | .write => Locked c ∧ l.sum = g.counter + l.phase.value
  | .casRead => ¬ Locked c
  | .casYield | .cas => ¬ Locked c ∧ l.sum = l.prev + l.phase.value
  | _ => True

/-- What holds of a thread by itself. -/
structure Good (g : Shared) (l : Local) : Prop where
  counted : Counted c l
  bounded : Bounded c l
  prepared : Prepared c g l

structure Inv (s : St c) : Prop where
  good : ∀ t, Good c s.shared (s.locals t)
  held : Locked c → ∀ t, (s.locals t).inside → Held c s.shared
  exclusive : Locked c → ∀ t u, t ≠ u → ¬ ((s.locals t).inside ∧ (s.locals u).inside)
  total : s.shared.counter = ∑ t, (s.locals t).committed

variable {c}

lemma inv_init : Inv c (init c) where
  good _ := ⟨⟨rfl, rfl⟩, Nat.zero_le _, trivial⟩
  held _ _ h := absurd rfl h.1
  exclusive _ _ _ _ h := absurd rfl h.1.1
  total := by simp [init, Local.committed]

/-- Taking effect counts the operation and moves the counter by its value. -/
lemma good_commit (g' : Shared) {l : Local} (hc : Counted c l) (hn : l.n < c.numIterations) :
    Good c g' l.commit ∧ l.commit.committed = l.committed + l.phase.value := by
  obtain ⟨pc, phase, n, prev, sum, plus, minus⟩ := l
  cases phase with
  | up =>
    obtain ⟨h1, h2⟩ : plus = n ∧ minus = 0 := hc
    refine ⟨⟨⟨?_, h2⟩, hn, trivial⟩, ?_⟩
    · simp [Local.commit, h1]
    · simp [Local.commit, Local.committed, Phase.value]; ring
  | down =>
    obtain ⟨h1, h2⟩ : plus = c.numIterations ∧ minus = n := hc
    refine ⟨⟨⟨h1, ?_⟩, hn, trivial⟩, ?_⟩
    · simp [Local.commit, h2]
    · simp [Local.commit, Local.committed, Phase.value]; ring

lemma locked_iff (hs : c.syncOpt ≠ .unsynced) : Locked c ↔ c.syncOpt ≠ .compareSwap := by
  unfold Locked
  cases hc : c.syncOpt <;> simp_all

section Step

variable {t : Fin c.numThreads} {g g' : Shared} {l l' : Local}

/-- A step of a thread keeps what holds of it, and moves the counter by what it commits. -/
lemma act_good (hg : Good c g l) (hs : c.syncOpt ≠ .unsynced)
    (h : act c t () g l = some (g', l')) :
    Good c g' l' ∧ g'.counter = g.counter + (l'.committed - l.committed) := by
  obtain ⟨hc, hb, hp⟩ := hg
  obtain ⟨pc, phase, n, prev, sum, plus, minus⟩ := l
  cases pc with
  | lock =>
    simp only [act] at h
    split at h
    · split at h
      · cases h
      · obtain ⟨rfl, rfl⟩ := by simpa using h
        exact ⟨⟨hc, hb, trivial⟩, by simp [Local.committed]⟩
    · obtain ⟨rfl, rfl⟩ := by simpa using h
      split
      · exact ⟨⟨hc, hb, trivial⟩, by simp [Local.committed]⟩
      · exact ⟨⟨hc, hb, trivial⟩, by simp⟩
    · obtain ⟨rfl, rfl⟩ := by simpa using h
      exact ⟨⟨hc, hb, trivial⟩, by simp [Local.committed]⟩
  | loop =>
    simp only [act] at h
    split at h
    · next hlt =>
      obtain ⟨rfl, rfl⟩ := by simpa using h
      refine ⟨⟨hc, ?_, ?_⟩, by simp [Local.committed]⟩
      · dsimp only [Bounded]; split_ifs <;> exact hlt
      · have hl := locked_iff hs
        dsimp only [Prepared]
        split_ifs with hcas
        · exact fun hlock => hl.mp hlock hcas
        · exact hl.mpr hcas
    · next hge =>
      have hn : n = c.numIterations := le_antisymm hb (not_lt.mp hge)
      cases phase with
      | up =>
        obtain ⟨rfl, rfl⟩ := by simpa using h
        exact ⟨⟨⟨hc.1.trans hn, hc.2⟩, Nat.zero_le _, trivial⟩, by simp [Local.committed]⟩
      | down =>
        obtain ⟨rfl, rfl⟩ := by simpa using h
        exact ⟨⟨hc, ⟨rfl, hn⟩, trivial⟩, by simp [Local.committed]⟩
  | read =>
    obtain ⟨rfl, rfl⟩ := by simpa [act] using h
    refine ⟨⟨hc, ?_, ?_⟩, by simp [Local.committed]⟩
    · dsimp only [Bounded]; split_ifs <;> exact hb
    · dsimp only [Prepared]; split_ifs <;> exact ⟨hp, rfl⟩
  | yield =>
    obtain ⟨rfl, rfl⟩ := by simpa [act] using h
    exact ⟨⟨hc, hb, hp⟩, by simp [Local.committed]⟩
  | write =>
    obtain ⟨rfl, rfl⟩ := by simpa [act] using h
    obtain ⟨-, hsum⟩ : Locked c ∧ sum = g.counter + phase.value := hp
    obtain ⟨hgood, hcom⟩ := good_commit { g with counter := sum } hc hb
    exact ⟨hgood, by rw [hcom]; dsimp only; rw [hsum]; ring⟩
  | casRead =>
    obtain ⟨rfl, rfl⟩ := by simpa [act] using h
    refine ⟨⟨hc, ?_, ?_⟩, by simp [Local.committed]⟩
    · dsimp only [Bounded]; split_ifs <;> exact hb
    · dsimp only [Prepared]; split_ifs <;> exact ⟨hp, rfl⟩
  | casYield =>
    obtain ⟨rfl, rfl⟩ := by simpa [act] using h
    exact ⟨⟨hc, hb, hp⟩, by simp [Local.committed]⟩
  | cas =>
    simp only [act] at h
    split at h
    · next heq =>
      -- the counter still has the value read, however often it changed in between
      obtain ⟨rfl, rfl⟩ := by simpa using h
      obtain ⟨-, hsum⟩ : ¬ Locked c ∧ sum = prev + phase.value := hp
      obtain ⟨hgood, hcom⟩ := good_commit { g with counter := sum } hc hb
      exact ⟨hgood, by rw [hcom]; dsimp only at heq ⊢; rw [hsum, heq]; ring⟩
    · obtain ⟨rfl, rfl⟩ := by simpa using h
      exact ⟨⟨hc, hb, hp.1⟩, by simp [Local.committed]⟩
  | unlock =>
    simp only [act] at h
    split at h <;>
      (obtain ⟨rfl, rfl⟩ := by simpa using h) <;>
      exact ⟨⟨hc, hb, trivial⟩, by simp [Local.committed]⟩
  | returned => cases h

/-- What a step does to the lock: a thread that enters found it free and leaves it taken, a
thread outside neither frees it nor touches the counter. -/
lemma act_lock (hl : Locked c) (h : act c t () g l = some (g', l')) :
    (¬ l.inside → g'.counter = g.counter ∧ (Held c g → Held c g') ∧
      (l'.inside → ¬ Held c g ∧ Held c g')) ∧
    (l.inside → l'.inside → Held c g → Held c g') := by
  obtain ⟨pc, phase, n, prev, sum, plus, minus⟩ := l
  cases pc with
  | lock =>
    refine ⟨fun _ => ?_, fun hi => absurd rfl hi.1⟩
    rcases hl with hs | hs
    · simp only [act, hs] at h
      split at h
      · cases h
      · next hfree =>
        obtain ⟨rfl, rfl⟩ := by simpa using h
        simp [Held, hs, hfree]
    · simp only [act, hs] at h
      obtain ⟨rfl, rfl⟩ := by simpa using h
      split
      · next hfree => simp [Held, hs, hfree]
      · simp [Held, hs, Local.inside]
  | returned => cases h
  | unlock =>
    refine ⟨fun hi => absurd (by simp [Local.inside]) hi, fun _ hi => ?_⟩
    rcases hl with hs | hs <;>
    · obtain ⟨rfl, rfl⟩ := by simpa [act, hs] using h
      exact absurd rfl hi.2
  | loop =>
    refine ⟨fun hi => absurd (by simp [Local.inside]) hi, fun _ _ hh => ?_⟩
    have : g' = g := by
      simp only [act] at h
      split at h
      · exact (by simpa using h : g = g' ∧ _).1.symm
      · cases phase <;> exact (by simpa using h : g = g' ∧ _).1.symm
    rwa [this]
  | read | yield | casRead | casYield =>
    refine ⟨fun hi => absurd (by simp [Local.inside]) hi, fun _ _ hh => ?_⟩
    obtain ⟨rfl, -⟩ := by simpa [act] using h
    exact hh
  | write =>
    refine ⟨fun hi => absurd (by simp [Local.inside]) hi, fun _ _ hh => ?_⟩
    obtain ⟨rfl, -⟩ := by simpa [act] using h
    rcases hl with hs | hs <;> simpa [Held, hs] using hh
  | cas =>
    refine ⟨fun hi => absurd (by simp [Local.inside]) hi, fun _ _ hh => ?_⟩
    simp only [act] at h
    split at h
    · obtain ⟨rfl, -⟩ := by simpa using h
      rcases hl with hs | hs <;> simpa [Held, hs] using hh
    · obtain ⟨rfl, -⟩ := by simpa using h
      exact hh

/-- A thread outside the locked region has no private copy of the counter to protect, and
without locks none depends on the counter. -/
lemma Prepared.of_step (hp : Prepared c g l) (h : l.inside → Locked c → g'.counter = g.counter) :
    Prepared c g' l := by
  obtain ⟨pc, phase, n, prev, sum, plus, minus⟩ := l
  cases pc with
  | yield | write =>
    obtain ⟨hl, hsum⟩ : Locked c ∧ sum = g.counter + phase.value := hp
    exact ⟨hl, by rw [h (by simp [Local.inside]) hl]; exact hsum⟩
  | lock | loop | read | casRead | casYield | cas | unlock | returned => exact hp

end Step

/-- **The step lemma.** -/
lemma inv_step (hs : c.syncOpt ≠ .unsynced) (s : St c) (a : Fin c.numThreads × Unit) (s' : St c)
    (hi : Inv c s) (h : step (act c) s a = some s') : Inv c s' := by
  obtain ⟨t, u⟩ := a
  obtain ⟨g', l', hact, rfl⟩ := step_cases h
  obtain ⟨hgood, hcount⟩ := act_good (hi.good t) hs hact
  refine ⟨?_, ?_, ?_, ?_⟩
  · refine forall_update hgood fun v hv => ⟨(hi.good v).counted, (hi.good v).bounded, ?_⟩
    refine (hi.good v).prepared.of_step fun hin hl => ?_
    -- with another thread inside the lock, the one that moved is outside
    have hout : ¬ (s.locals t).inside := fun ht => hi.exclusive hl v t hv ⟨hin, ht⟩
    exact ((act_lock hl hact).1 hout).1
  · intro hl v
    have hlock := act_lock hl hact
    refine forall_update (P := fun _ (l : Local) => l.inside → Held c g') (fun hin => ?_)
      (fun v hv hin => ?_) v
    · by_cases ht : (s.locals t).inside
      · exact hlock.2 ht hin (hi.held hl t ht)
      · exact ((hlock.1 ht).2.2 hin).2
    · have hout : ¬ (s.locals t).inside := fun ht => hi.exclusive hl v t hv ⟨hin, ht⟩
      exact (hlock.1 hout).2.1 (hi.held hl v hin)
  · intro hl
    refine forall_pair_update (P := fun a b : Local => ¬ (a.inside ∧ b.inside))
      (fun a b hab hba => hab hba.symm) (fun v hv hin => ?_) (hi.exclusive hl)
    by_cases ht : (s.locals t).inside
    · exact hi.exclusive hl v t hv ⟨hin.2, ht⟩
    · exact (((act_lock hl hact).1 ht).2.2 hin.1).1 (hi.held hl v hin.2)
  · have hsum := sum_update (fun _ => Local.committed) s.locals t l'
    dsimp only
    rw [hsum, ← hi.total]
    exact hcount

/-! ### The results -/

lemma Good.abs_committed_le {g : Shared} {l : Local} (h : Good c g l) :
    |l.committed| ≤ c.numIterations := by
  obtain ⟨pc, phase, n, prev, sum, plus, minus⟩ := l
  have hn : n ≤ c.numIterations := by
    have hb := h.bounded
    cases pc <;> simp only [Bounded] at hb <;> omega
  have hc := h.counted
  cases phase <;> simp only [Counted] at hc <;> simp only [Local.committed, abs_le] <;> omega

lemma Good.committed_returned {g : Shared} {l : Local} (h : Good c g l) (hr : l.pc = .returned) :
    l.committed = 0 := by
  obtain ⟨pc, phase, n, prev, sum, plus, minus⟩ := l
  obtain rfl : pc = .returned := hr
  obtain ⟨hph, hn⟩ := h.bounded
  obtain rfl : phase = .down := hph
  obtain ⟨hplus, hminus⟩ : plus = c.numIterations ∧ minus = n := h.counted
  simp only at hn
  simp only [Local.committed]
  omega

/-- **No lost update.** Under a mutex, a spin lock or compare-and-swap, with or without
yields, in every state of every interleaving the counter is the sum of the operations that
have taken effect; it never leaves the range of a `long long`; and it is zero once every
thread has returned. -/
theorem counter_eq_committed (c : Config) (hs : c.syncOpt ≠ .unsynced)
    (schedule : List (Fin c.numThreads × Unit)) (s : St c)
    (hrun : run (step (act c)) (init c) schedule = some s) :
    s.shared.counter = ∑ t, ((s.locals t).plus - (s.locals t).minus : ℤ) ∧
      |s.shared.counter| ≤ c.numThreads * c.numIterations ∧
      ((∀ t, (s.locals t).pc = .returned) → s.shared.counter = 0) := by
  have hi : Inv c s := invariant (inv_step hs) inv_init hrun
  refine ⟨hi.total, ?_, fun hall => ?_⟩
  · rw [hi.total]
    calc |∑ t, (s.locals t).committed| ≤ ∑ t, |(s.locals t).committed| :=
          Finset.abs_sum_le_sum_abs _ _
      _ ≤ ∑ _t : Fin c.numThreads, (c.numIterations : ℤ) :=
          Finset.sum_le_sum fun t _ => (hi.good t).abs_committed_le
      _ = c.numThreads * c.numIterations := by simp
  · rw [hi.total]
    exact Finset.sum_eq_zero fun t _ => (hi.good t).committed_returned (hall t)

/-- Two threads that race for the counter: the first compare-and-swap of thread 1 fails. -/
def sampleConfig : Config := ⟨2, 1, .compareSwap, false⟩

def sampleSchedule : List (Fin sampleConfig.numThreads × Unit) :=
  [0, 1, 0, 1, 0, 1, 0, 1, 1, 1, 0, 0, 0, 0, 0, 0, 1, 1, 1, 1, 1, 1].map fun n => (ofTwo n, ())

theorem counter_eq_committed_sample :
    ∃ s, run (step (act sampleConfig)) (init sampleConfig) sampleSchedule = some s ∧
      s.shared.counter = 0 := by
  have hall : ((run (step (act sampleConfig)) (init sampleConfig) sampleSchedule).map
      fun s => decide (∀ t : Fin 2, (s.locals t).pc = .returned)) = some true := by decide
  rw [Option.map_eq_some_iff] at hall
  obtain ⟨s, hs, hret⟩ := hall
  exact ⟨s, hs, (counter_eq_committed sampleConfig (by decide) _ s hs).2.2
    (of_decide_eq_true hret)⟩

end LowLevelTasks.Lab2Add
