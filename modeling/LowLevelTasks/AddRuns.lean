import LowLevelTasks.Lab2Add

/-!
What holds of the threads of `lab2_add.c` under any schedule and any synchronisation.

Without synchronisation updates are lost, but no value is ever written that the operations so
far could not have led to, so that the counter keeps to the range it has without a race. And the
threads come to an end: a compare-and-swap fails only if another thread has changed the counter
since the value was read, every other step brings a thread closer to its end, except for the
tests of a spin lock that is taken, and while a lock is taken, the thread that has it goes on.
-/

namespace LowLevelTasks.AddRuns

open LowLevelTasks.Runs LowLevelTasks.Threads LowLevelTasks.Lab2Add

variable (c : Config)

/-- All that a step can do: `act` from the outside. -/
inductive Moves (g : Shared) (l : Local) : Shared → Local → Prop
  | spin (hpc : l.pc = .lock) (hs : c.syncOpt = .spinLock) (htaken : g.spinlock ≠ 0) :
      Moves g l { g with spinlock := 1 } l
  | enter {g' : Shared} (hpc : l.pc = .lock) (hfree : Locked c → ¬ Held c g ∧ Held c g')
      (hcounter : g'.counter = g.counter) : Moves g l g' { l with pc := .loop }
  | start (hpc : l.pc = .loop) (hn : l.n < c.numIterations) : Moves g l g
      { l with pc := if c.syncOpt = .compareSwap then .casRead else .read }
  | turn (hpc : l.pc = .loop) (hn : ¬ l.n < c.numIterations) (hphase : l.phase = .up) :
      Moves g l g { l with phase := .down, n := 0 }
  | finish (hpc : l.pc = .loop) (hn : ¬ l.n < c.numIterations) (hphase : l.phase = .down) :
      Moves g l g { l with pc := .unlock }
  | load (hpc : l.pc = .read) : Moves g l g
      { l with sum := g.counter + l.phase.value, pc := if c.optYield then .yield else .write }
  | yield (hpc : l.pc = .yield) : Moves g l g { l with pc := .write }
  | store (hpc : l.pc = .write) : Moves g l { g with counter := l.sum } l.commit
  | casLoad (hpc : l.pc = .casRead) : Moves g l g
      { l with prev := g.counter, sum := g.counter + l.phase.value
               pc := if c.optYield then .casYield else .cas }
  | casYield (hpc : l.pc = .casYield) : Moves g l g { l with pc := .cas }
  | casOk (hpc : l.pc = .cas) (heq : g.counter = l.prev) :
      Moves g l { g with counter := l.sum } l.commit
  | casFail (hpc : l.pc = .cas) (hne : g.counter ≠ l.prev) : Moves g l g { l with pc := .casRead }
  | leave {g' : Shared} (hpc : l.pc = .unlock) (hfree : Locked c → ¬ Held c g')
      (hcounter : g'.counter = g.counter) : Moves g l g' { l with pc := .returned }

variable {c} {t : Fin c.numThreads} {g g' : Shared} {l l' : Local}

lemma act_moves (h : act c t () g l = some (g', l')) : Moves c g l g' l' := by
  obtain ⟨pc, phase, n, prev, sum, plus, minus⟩ := l
  cases pc with
  | lock =>
    simp only [act] at h
    cases hs : c.syncOpt with
    | mutex =>
      simp only [hs] at h
      split at h
      · cases h
      · next hfree =>
        obtain ⟨rfl, rfl⟩ := by simpa using h
        exact .enter rfl (fun _ => by simp [Held, hs, hfree]) rfl
    | spinLock =>
      simp only [hs] at h
      by_cases hfree : g.spinlock = 0
      · obtain ⟨rfl, rfl⟩ := by simpa [hfree] using h
        exact .enter rfl (fun _ => by simp [Held, hs, hfree]) rfl
      · obtain ⟨rfl, rfl⟩ := by simpa [hfree] using h
        exact .spin rfl hs hfree
    | compareSwap | unsynced =>
      obtain ⟨rfl, rfl⟩ := by simpa [hs] using h
      exact .enter rfl (fun hl => by simp [Locked, hs] at hl) rfl
  | loop =>
    simp only [act] at h
    split at h
    · next hn =>
      obtain ⟨rfl, rfl⟩ := by simpa using h
      exact .start rfl hn
    · next hn =>
      cases phase with
      | up =>
        obtain ⟨rfl, rfl⟩ := by simpa using h
        exact .turn rfl hn rfl
      | down =>
        obtain ⟨rfl, rfl⟩ := by simpa using h
        exact .finish rfl hn rfl
  | read =>
    obtain ⟨rfl, rfl⟩ := by simpa [act] using h
    exact .load rfl
  | yield =>
    obtain ⟨rfl, rfl⟩ := by simpa [act] using h
    exact .yield rfl
  | write =>
    obtain ⟨rfl, rfl⟩ := by simpa [act] using h
    exact .store rfl
  | casRead =>
    obtain ⟨rfl, rfl⟩ := by simpa [act] using h
    exact .casLoad rfl
  | casYield =>
    obtain ⟨rfl, rfl⟩ := by simpa [act] using h
    exact .casYield rfl
  | cas =>
    simp only [act] at h
    split at h
    · next heq =>
      obtain ⟨rfl, rfl⟩ := by simpa using h
      exact .casOk rfl heq
    · next hne =>
      obtain ⟨rfl, rfl⟩ := by simpa using h
      exact .casFail rfl hne
  | unlock =>
    simp only [act] at h
    split at h
    · next hs =>
      obtain ⟨rfl, rfl⟩ := by simpa using h
      exact .leave rfl (fun _ => by simp [Held, hs]) rfl
    · next hs =>
      obtain ⟨rfl, rfl⟩ := by simpa using h
      exact .leave rfl (fun _ => by simp [Held, hs]) rfl
    · next hmutex hspin =>
      obtain ⟨rfl, rfl⟩ := by simpa using h
      exact .leave rfl (fun hl => absurd hl (not_or.mpr ⟨hmutex, hspin⟩)) rfl
  | returned => cases h

/-! ### Passes -/

/-- Where a thread is in its loops, whatever the synchronisation. -/
structure Paced (c : Config) (l : Local) : Prop where
  counted : Counted c l
  bounded : Bounded c l

@[simp] lemma pc_commit (l : Local) : l.commit.pc = .loop := by
  unfold Local.commit
  split <;> rfl

lemma paced_commit (hp : Paced c l) (hn : l.n < c.numIterations) : Paced c l.commit := by
  have hgood := (good_commit ⟨0, false, 0⟩ hp.counted hn).1
  exact ⟨hgood.counted, hgood.bounded⟩

lemma Paced.n_le (hp : Paced c l) : l.n ≤ c.numIterations := by
  have hb := hp.bounded
  unfold Bounded at hb
  split at hb <;> omega

lemma Moves.paced (hp : Paced c l) (h : Moves c g l g' l') : Paced c l' := by
  obtain ⟨hc, hb⟩ := hp
  cases h with
  | spin => exact ⟨hc, hb⟩
  | enter hpc =>
    rw [Bounded, hpc] at hb
    exact ⟨hc, hb⟩
  | start hpc hn =>
    refine ⟨hc, ?_⟩
    dsimp only [Bounded]
    split_ifs <;> exact hn
  | turn hpc hn hphase =>
    rw [Bounded, hpc] at hb
    rw [Counted, hphase] at hc
    exact ⟨⟨hc.1.trans (le_antisymm hb (not_lt.mp hn)), hc.2⟩, by simp [Bounded, hpc]⟩
  | finish hpc hn hphase =>
    rw [Bounded, hpc] at hb
    exact ⟨hc, hphase, le_antisymm hb (not_lt.mp hn)⟩
  | load hpc =>
    rw [Bounded, hpc] at hb
    refine ⟨hc, ?_⟩
    dsimp only [Bounded]
    split_ifs <;> exact hb
  | yield hpc =>
    rw [Bounded, hpc] at hb
    exact ⟨hc, hb⟩
  | store hpc =>
    have hn : l.n < c.numIterations := by rw [Bounded, hpc] at hb; exact hb
    exact paced_commit ⟨hc, hb⟩ hn
  | casLoad hpc =>
    rw [Bounded, hpc] at hb
    refine ⟨hc, ?_⟩
    dsimp only [Bounded]
    split_ifs <;> exact hb
  | casYield hpc =>
    rw [Bounded, hpc] at hb
    exact ⟨hc, hb⟩
  | casOk hpc =>
    have hn : l.n < c.numIterations := by rw [Bounded, hpc] at hb; exact hb
    exact paced_commit ⟨hc, hb⟩ hn
  | casFail hpc =>
    rw [Bounded, hpc] at hb
    exact ⟨hc, hb⟩
  | leave hpc =>
    rw [Bounded, hpc] at hb
    exact ⟨hc, hb⟩

/-! ### The range of the counter -/

/-- The operations of all threads that have taken effect and add 1, -/
def plusTotal (s : St c) : ℤ := ∑ t, ((s.locals t).plus : ℤ)

/-- and those that add -1. -/
def minusTotal (s : St c) : ℤ := ∑ t, ((s.locals t).minus : ℤ)

/-- The thread has a sum that it has not written yet. -/
def Pending (l : Local) : Prop :=
  match l.pc with
  | .yield | .write | .casYield | .cas => True
  | _ => False

/-- A sum that is pending is the next value of a counter that lies between `lo` and `hi`. -/
def Within (lo hi : ℤ) (l : Local) : Prop :=
  Pending l → lo + l.phase.value ≤ l.sum ∧ l.sum ≤ hi + l.phase.value

structure InRange (s : St c) : Prop where
  paced : ∀ t, Paced c (s.locals t)
  counter : -minusTotal s ≤ s.shared.counter ∧ s.shared.counter ≤ plusTotal s
  within : ∀ t, Within (-minusTotal s) (plusTotal s) (s.locals t)

lemma Within.mono {lo lo' hi hi' : ℤ} (hw : Within lo hi l) (hlo : lo' ≤ lo) (hhi : hi ≤ hi') :
    Within lo' hi' l := fun hp => by
  obtain ⟨h1, h2⟩ := hw hp
  constructor <;> omega

lemma within_commit {lo hi : ℤ} : Within lo hi l.commit := fun hp => by
  simp [Pending] at hp

/-- What is written takes the counter no further than the operation that is counted for it. -/
lemma commit_range {m p : ℤ} (hw : Within (-m) p l) (hpending : Pending l) :
    -(m + (l.commit.minus - l.minus)) ≤ l.sum ∧ l.sum ≤ p + (l.commit.plus - l.plus) ∧
      l.minus ≤ l.commit.minus ∧ l.plus ≤ l.commit.plus := by
  obtain ⟨h1, h2⟩ := hw hpending
  obtain ⟨pc, phase, n, prev, sum, plus, minus⟩ := l
  cases phase <;> simp only [Local.commit, Phase.value] at h1 h2 ⊢ <;> push_cast <;> omega

lemma Moves.range {m p : ℤ} (hcounter : -m ≤ g.counter ∧ g.counter ≤ p) (hw : Within (-m) p l)
    (h : Moves c g l g' l') :
    (l.minus ≤ l'.minus ∧ l.plus ≤ l'.plus) ∧
      (-(m + (l'.minus - l.minus)) ≤ g'.counter ∧ g'.counter ≤ p + (l'.plus - l.plus)) ∧
      Within (-(m + (l'.minus - l.minus))) (p + (l'.plus - l.plus)) l' := by
  cases h with
  | spin => simpa using ⟨hcounter, hw⟩
  | enter hpc hfree hsame => simpa [hsame, Within, Pending] using hcounter
  | start =>
    refine ⟨⟨le_rfl, le_rfl⟩, by simpa using hcounter, fun hp => ?_⟩
    dsimp only [Pending] at hp
    split_ifs at hp <;> exact hp.elim
  | turn hpc => simpa [Within, Pending, hpc] using hcounter
  | finish => simpa [Within, Pending] using hcounter
  | load =>
    refine ⟨⟨le_rfl, le_rfl⟩, by simpa using hcounter, fun _ => ?_⟩
    dsimp only
    omega
  | yield hpc =>
    refine ⟨⟨le_rfl, le_rfl⟩, by simpa using hcounter, fun _ => ?_⟩
    have := hw (by simp [Pending, hpc])
    dsimp only
    omega
  | store hpc =>
    obtain ⟨h1, h2, h3, h4⟩ := commit_range hw (by simp [Pending, hpc])
    exact ⟨⟨h3, h4⟩, ⟨h1, h2⟩, within_commit⟩
  | casLoad =>
    refine ⟨⟨le_rfl, le_rfl⟩, by simpa using hcounter, fun _ => ?_⟩
    dsimp only
    omega
  | casYield hpc =>
    refine ⟨⟨le_rfl, le_rfl⟩, by simpa using hcounter, fun _ => ?_⟩
    have := hw (by simp [Pending, hpc])
    dsimp only
    omega
  | casOk hpc =>
    obtain ⟨h1, h2, h3, h4⟩ := commit_range hw (by simp [Pending, hpc])
    exact ⟨⟨h3, h4⟩, ⟨h1, h2⟩, within_commit⟩
  | casFail => simpa [Within, Pending] using hcounter
  | leave hpc hfree hsame => simpa [hsame, Within, Pending] using hcounter

lemma inRange_step (s : St c) (a : Fin c.numThreads × Unit) (s' : St c) (hi : InRange s)
    (h : step (act c) s a = some s') : InRange s' := by
  obtain ⟨t, u⟩ := a
  obtain ⟨g', l', hact, rfl⟩ := step_cases h
  have hmoves := act_moves hact
  obtain ⟨⟨hm, hp⟩, hcounter, hwithin⟩ := hmoves.range hi.counter (hi.within t)
  have hminus : minusTotal ⟨g', Function.update s.locals t l'⟩ =
      minusTotal s + (l'.minus - (s.locals t).minus) :=
    sum_update (fun _ (l : Local) => (l.minus : ℤ)) s.locals t l'
  have hplus : plusTotal ⟨g', Function.update s.locals t l'⟩ =
      plusTotal s + (l'.plus - (s.locals t).plus) :=
    sum_update (fun _ (l : Local) => (l.plus : ℤ)) s.locals t l'
  constructor
  · exact forall_update (hmoves.paced (hi.paced t)) fun v _ => hi.paced v
  · rw [hminus, hplus]
    exact hcounter
  · rw [hminus, hplus]
    exact forall_update hwithin fun v _ => (hi.within v).mono (by omega) (by omega)

lemma Paced.le (hp : Paced c l) : l.plus ≤ c.numIterations ∧ l.minus ≤ c.numIterations := by
  have hn := hp.n_le
  have hc := hp.counted
  unfold Counted at hc
  split at hc <;> omega

/-- The operation that is pending is not counted yet. -/
lemma Paced.lt (hp : Paced c l) (hpending : Pending l) :
    match l.phase with
    | .up => l.plus < c.numIterations
    | .down => l.minus < c.numIterations := by
  obtain ⟨pc, phase, n, prev, sum, plus, minus⟩ := l
  have hn : n < c.numIterations := by
    have hb := hp.bounded
    cases pc <;> first | exact hpending.elim | exact hb
  have hc := hp.counted
  cases phase <;> simp only [Counted] at hc ⊢ <;> omega

section Totals

variable {n N : ℕ} {f : Fin n → ℕ}

lemma sum_le_mul (hf : ∀ u, f u ≤ N) : ∑ u, (f u : ℤ) ≤ n * N := by
  calc ∑ u, (f u : ℤ) ≤ ∑ _u : Fin n, (N : ℤ) :=
        Finset.sum_le_sum fun u _ => Nat.cast_le.mpr (hf u)
    _ = n * N := by simp

/-- What one thread still has to do is missing from the total of all. -/
lemma sum_add_le_mul (hf : ∀ u, f u ≤ N) (t : Fin n) : ∑ u, (f u : ℤ) + (N - f t) ≤ n * N := by
  rw [← sum_update (fun _ (k : ℕ) => (k : ℤ)) f t N]
  exact sum_le_mul (forall_update (P := fun _ k => k ≤ N) le_rfl fun u _ => hf u)

end Totals

lemma inRange_init : InRange (init c) where
  paced _ := ⟨⟨rfl, rfl⟩, Nat.zero_le _⟩
  counter := by simp [init, minusTotal, plusTotal]
  within _ hp := hp.elim

lemma InRange.abs_counter_le {s : St c} (hi : InRange s) :
    |s.shared.counter| ≤ c.numThreads * c.numIterations := by
  have hplus : ∀ t, (s.locals t).plus ≤ c.numIterations := fun t => (hi.paced t).le.1
  have hminus : ∀ t, (s.locals t).minus ≤ c.numIterations := fun t => (hi.paced t).le.2
  have hp := sum_le_mul hplus
  have hm := sum_le_mul hminus
  obtain ⟨hlo, hhi⟩ := hi.counter
  unfold plusTotal at hhi
  unfold minusTotal at hlo
  rw [abs_le]
  constructor <;> omega

/-- **The counter keeps to its range.** Under any synchronisation, or none, and any schedule no
value of the counter, and no sum that a thread has computed and not yet written, is farther
from zero than the operations of one sign that all threads make together. -/
theorem counter_in_range (c : Config) (schedule : List (Fin c.numThreads × Unit)) (s : St c)
    (hrun : run (step (act c)) (init c) schedule = some s) :
    |s.shared.counter| ≤ c.numThreads * c.numIterations ∧
      ∀ t, Pending (s.locals t) → |(s.locals t).sum| ≤ c.numThreads * c.numIterations := by
  have hi : InRange s := invariant inRange_step inRange_init hrun
  refine ⟨hi.abs_counter_le, fun t hpending => ?_⟩
  obtain ⟨hlo, hhi⟩ := hi.within t hpending
  have hlt := (hi.paced t).lt hpending
  have hplus : ∀ t, (s.locals t).plus ≤ c.numIterations := fun t => (hi.paced t).le.1
  have hminus : ∀ t, (s.locals t).minus ≤ c.numIterations := fun t => (hi.paced t).le.2
  have hp := sum_le_mul hplus
  have hm := sum_le_mul hminus
  have hpt := sum_add_le_mul hplus t
  have hmt := sum_add_le_mul hminus t
  unfold plusTotal at hhi
  unfold minusTotal at hlo
  rw [abs_le]
  cases hphase : (s.locals t).phase with
  | up =>
    rw [hphase] at hlt hlo hhi
    simp only [Phase.value] at hlo hhi
    constructor <;> omega
  | down =>
    rw [hphase] at hlt hlo hhi
    simp only [Phase.value] at hlo hhi
    constructor <;> omega

/-- Two threads without synchronisation, which both take one away from 2. -/
def raceConfig : Config := ⟨2, 1, .unsynced, false⟩

def raceSchedule : List (Fin raceConfig.numThreads × Unit) :=
  [0, 0, 0, 0, 1, 1, 1, 1, 0, 0, 0, 1, 1, 1, 0, 1, 0, 0, 1, 1].map fun n => (ofTwo n, ())

theorem counter_in_range_race :
    ∃ s, run (step (act raceConfig)) (init raceConfig) raceSchedule = some s ∧
      s.shared.counter = 1 ∧ |s.shared.counter| ≤ 2 * 1 := by
  have hone : (run (step (act raceConfig)) (init raceConfig) raceSchedule).map
      (fun s => s.shared.counter) = some 1 := by decide
  rw [Option.map_eq_some_iff] at hone
  obtain ⟨s, hs, hcounter⟩ := hone
  exact ⟨s, hs, hcounter, (counter_in_range raceConfig _ s hs).1⟩

/-! ### Compare-and-swap -/

/-- A compare-and-swap that is under way will fail: the counter is not what was read. -/
def stale (counter : ℤ) (l : Local) : ℤ :=
  if (l.pc = .casYield ∨ l.pc = .cas) ∧ l.prev ≠ counter then 1 else 0

variable (c) in
/-- The step is a compare-and-swap that fails, -/
def failed (s : St c) (a : Fin c.numThreads × Unit) : ℤ :=
  if (s.locals a.1).pc = .cas ∧ s.shared.counter ≠ (s.locals a.1).prev then 1 else 0

variable (c) in
/-- or one that succeeds. -/
def succeeded (s : St c) (a : Fin c.numThreads × Unit) : ℤ :=
  if (s.locals a.1).pc = .cas ∧ s.shared.counter = (s.locals a.1).prev then 1 else 0

lemma stale_nonneg (counter : ℤ) (l : Local) : 0 ≤ stale counter l := by
  unfold stale
  split <;> simp

lemma stale_le (counter : ℤ) (l : Local) : stale counter l ≤ 1 := by
  unfold stale
  split <;> simp

lemma stale_of_pc {counter : ℤ} (h : l.pc ≠ .casYield ∧ l.pc ≠ .cas) : stale counter l = 0 := by
  simp [stale, h]

lemma stale_commit (counter : ℤ) (l : Local) : stale counter l.commit = 0 :=
  stale_of_pc (by simp)

/-- With one thread up to date, at most all others are stale. -/
lemma sum_stale_le {n : ℕ} {f : Fin n → Local} {counter : ℤ} {t : Fin n}
    (ht : stale counter (f t) = 0) : ∑ u, stale counter (f u) ≤ n - 1 := by
  rw [← Finset.sum_erase_add _ _ (Finset.mem_univ t), ht, add_zero]
  calc ∑ u ∈ Finset.univ.erase t, stale counter (f u) ≤ ∑ _u ∈ Finset.univ.erase t, (1 : ℤ) :=
        Finset.sum_le_sum fun u _ => stale_le counter (f u)
    _ = n - 1 := by
      have hn : 0 < n := t.pos
      simp [Finset.card_erase_of_mem, Nat.cast_sub hn]

/-- A step that is no effect of an operation leaves the counter alone and makes nothing stale. -/
lemma Moves.stale_or_commit (h : Moves c g l g' l') :
    (g'.counter = g.counter ∧ stale g.counter l' +
      (if l.pc = .cas ∧ g.counter ≠ l.prev then 1 else 0) ≤ stale g.counter l) ∨
    l' = l.commit ∧ (l.pc = .write ∨ l.pc = .cas ∧ g.counter = l.prev) := by
  cases h with
  | spin hpc | turn hpc => exact .inl ⟨rfl, by simp [stale, hpc]⟩
  | enter hpc hfree hsame => exact .inl ⟨hsame, by simp [stale, hpc]⟩
  | leave hpc hfree hsame => exact .inl ⟨hsame, by simp [stale, hpc]⟩
  | start hpc =>
    refine .inl ⟨rfl, ?_⟩
    rw [stale_of_pc (by dsimp only; split_ifs <;> decide)]
    simp [stale, hpc]
  | finish hpc => exact .inl ⟨rfl, by simp [stale, hpc]⟩
  | load hpc =>
    refine .inl ⟨rfl, ?_⟩
    rw [stale_of_pc (by dsimp only; split_ifs <;> decide)]
    simp [stale, hpc]
  | yield hpc => exact .inl ⟨rfl, by simp [stale, hpc]⟩
  | store hpc => exact .inr ⟨rfl, .inl hpc⟩
  | casLoad hpc => exact .inl ⟨rfl, by simp [stale, hpc]⟩
  | casYield hpc => exact .inl ⟨rfl, by simp [stale, hpc]⟩
  | casOk hpc heq => exact .inr ⟨rfl, .inr ⟨hpc, heq⟩⟩
  | casFail hpc hne => exact .inl ⟨rfl, by simp [stale, hpc, hne, hne.symm]⟩

lemma stale_step (hs : c.syncOpt = .compareSwap) (s : St c) (a : Fin c.numThreads × Unit)
    (s' : St c) (hi : Inv c s) (h : step (act c) s a = some s') :
    Inv c s' ∧ failed c s a - (c.numThreads - 1) * succeeded c s a +
      ∑ t, stale s'.shared.counter (s'.locals t) ≤ ∑ t, stale s.shared.counter (s.locals t) := by
  refine ⟨inv_step (by simp [hs]) s a s' hi h, ?_⟩
  obtain ⟨t, u⟩ := a
  obtain ⟨g', l', hact, rfl⟩ := step_cases h
  rcases (act_moves hact).stale_or_commit with ⟨hsame, hle⟩ | ⟨rfl, hwrite | ⟨hpc, heq⟩⟩
  · have hsum := sum_update (fun _ => stale s.shared.counter) s.locals t l'
    have hsucceeded : 0 ≤ (c.numThreads - 1 : ℤ) * succeeded c s (t, u) := by
      refine mul_nonneg ?_ (by unfold succeeded; split <;> simp)
      have := t.pos
      omega
    rw [hsame, hsum]
    dsimp only [failed]
    linarith
  · -- with compare-and-swap there are no plain writes
    have hprepared := (hi.good t).prepared
    rw [Prepared, hwrite] at hprepared
    rcases hprepared.1 with hl | hl <;> simp [hs] at hl
  · have hfailed : failed c s (t, u) = 0 := by simp [failed, heq]
    have hone : succeeded c s (t, u) = 1 := by simp [succeeded, hpc, heq]
    have hstale : ∑ v, stale g'.counter (Function.update s.locals t (s.locals t).commit v) ≤
        c.numThreads - 1 := sum_stale_le (t := t) (by rw [Function.update_self, stale_commit])
    have hnonneg : 0 ≤ ∑ v, stale s.shared.counter (s.locals v) :=
      Finset.sum_nonneg fun v _ => stale_nonneg _ _
    rw [hfailed, hone]
    dsimp only
    omega

/-! ### The end -/

variable (c) in
/-- The thread tests a spin lock that is taken. -/
def Waits (g : Shared) (l : Local) : Prop :=
  l.pc = .lock ∧ c.syncOpt = .spinLock ∧ g.spinlock ≠ 0

instance (g : Shared) (l : Local) : Decidable (Waits c g l) :=
  inferInstanceAs (Decidable (_ ∧ _ ∧ _))

variable (c) in
/-- Steps other than waiting. -/
def working (s : St c) (a : Fin c.numThreads × Unit) : ℤ :=
  if Waits c s.shared (s.locals a.1) then 0 else 1

/-- The steps to the next effect, or to the end. -/
def rank : Pc → ℤ
  | .lock => 5
  | .loop => 4
  | .read | .casRead => 3
  | .yield | .casYield => 2
  | .write | .cas | .unlock => 1
  | .returned => 0

variable (c) in
/-- The operations that are left. -/
def remaining (l : Local) : ℤ :=
  match l.phase with
  | .up => 2 * c.numIterations - l.n
  | .down => c.numIterations - l.n

variable (c) in
/-- What a thread has still to do. With each operation it may make all others stale. -/
def effort (l : Local) : ℤ :=
  (3 * c.numThreads + 4) * remaining c l + (if l.phase = .up then 1 else 0) + rank l.pc

variable (c) in
/-- A thread that is stale has up to two steps to make again. -/
def measure (s : St c) : ℤ :=
  ∑ t, (effort c (s.locals t) + 3 * stale s.shared.counter (s.locals t))

lemma effort_eq {l l' : Local} (hphase : l'.phase = l.phase) (hn : l'.n = l.n) :
    effort c l' = effort c l + (rank l'.pc - rank l.pc) := by
  simp only [effort, remaining, hphase, hn]
  ring

lemma effort_commit (hpc : rank l.pc = 1) :
    effort c l.commit = effort c l - (3 * c.numThreads + 1) := by
  obtain ⟨pc, phase, n, prev, sum, plus, minus⟩ := l
  cases phase <;>
    simp only [effort, remaining, Local.commit, rank] at hpc ⊢ <;> rw [hpc] <;> push_cast <;> ring

/-- A step that is no waiting and no failure brings the thread closer to its end. -/
lemma Moves.effort_le (hp : Paced c l) (h : Moves c g l g' l') :
    effort c l' + (if Waits c g l then 0 else 1) ≤
      effort c l + 3 * (if l.pc = .cas ∧ g.counter ≠ l.prev then 1 else 0) := by
  have hwork : (if Waits c g l then 0 else 1 : ℤ) ≤ 1 := by split <;> decide
  have hfail : 0 ≤ (if l.pc = .cas ∧ g.counter ≠ l.prev then 1 else 0 : ℤ) := by split <;> decide
  have hrank {l' : Local} (hphase : l'.phase = l.phase) (hn : l'.n = l.n)
      (hlt : rank l'.pc < rank l.pc) : effort c l' + (if Waits c g l then 0 else 1) ≤
        effort c l + 3 * (if l.pc = .cas ∧ g.counter ≠ l.prev then 1 else 0) := by
    rw [effort_eq hphase hn]
    linarith
  have hcommit (hone : rank l.pc = 1) : effort c l.commit + (if Waits c g l then 0 else 1) ≤
      effort c l + 3 * (if l.pc = .cas ∧ g.counter ≠ l.prev then 1 else 0) := by
    rw [effort_commit hone]
    linarith
  cases h with
  | spin hpc hs htaken => simp [Waits, hpc, hs, htaken]
  | enter hpc | finish hpc | yield hpc | casYield hpc | leave hpc =>
    exact hrank rfl rfl (by rw [hpc]; dsimp only; decide)
  | start hpc | load hpc | casLoad hpc =>
    refine hrank rfl rfl ?_
    rw [hpc]
    dsimp only
    split_ifs <;> decide
  | turn hpc hn hphase =>
    have hb := hp.bounded
    rw [Bounded, hpc] at hb
    have hlast : (l.n : ℤ) = c.numIterations := by exact_mod_cast le_antisymm hb (not_lt.mp hn)
    have heffort : effort c { l with phase := .down, n := 0 } = effort c l - 1 := by
      simp only [effort, remaining, hphase, hlast]
      push_cast
      ring
    linarith
  | store hpc | casOk hpc => exact hcommit (by rw [hpc]; rfl)
  | casFail hpc hne =>
    have heffort : effort c { l with pc := .casRead } = effort c l + (rank .casRead - rank .cas) :=
      hpc ▸ effort_eq rfl rfl
    have hone : (if l.pc = .cas ∧ g.counter ≠ l.prev then 1 else 0 : ℤ) = 1 := if_pos ⟨hpc, hne⟩
    simp only [rank] at heffort
    rw [heffort, hone]
    linarith

lemma measure_step (s : St c) (a : Fin c.numThreads × Unit) (s' : St c)
    (hp : ∀ t, Paced c (s.locals t)) (h : step (act c) s a = some s') :
    working c s a + measure c s' ≤ measure c s := by
  obtain ⟨t, u⟩ := a
  obtain ⟨g', l', hact, rfl⟩ := step_cases h
  have hmoves := act_moves hact
  have heffort := hmoves.effort_le (hp t)
  rcases hmoves.stale_or_commit with ⟨hsame, hle⟩ | ⟨rfl, hcommit⟩
  · have hsum := sum_update (fun _ l => effort c l + 3 * stale s.shared.counter l) s.locals t l'
    dsimp only [measure, working]
    rw [hsame, hsum]
    linarith
  · have hone : rank (s.locals t).pc = 1 := by
      rcases hcommit with hpc | ⟨hpc, -⟩ <;> rw [hpc] <;> rfl
    have hsum := sum_update (fun _ => effort c) s.locals t (s.locals t).commit
    have hstale : ∑ v, stale g'.counter (Function.update s.locals t (s.locals t).commit v) ≤
        c.numThreads - 1 := sum_stale_le (t := t) (by rw [Function.update_self, stale_commit])
    have hnonneg : 0 ≤ ∑ v, stale s.shared.counter (s.locals v) :=
      Finset.sum_nonneg fun v _ => stale_nonneg _ _
    have hwork : working c s (t, u) ≤ 1 := by unfold working; split <;> decide
    rw [effort_commit hone] at hsum
    dsimp only [measure]
    rw [Finset.sum_add_distrib, Finset.sum_add_distrib, ← Finset.mul_sum, ← Finset.mul_sum, hsum]
    linarith

lemma Paced.effort_nonneg (hp : Paced c l) : 0 ≤ effort c l := by
  have hn := hp.n_le
  have hremaining : 0 ≤ remaining c l := by
    unfold remaining
    split <;> omega
  have hrank : 0 ≤ rank l.pc := by cases l.pc <;> decide
  have hphase : 0 ≤ (if l.phase = .up then 1 else 0 : ℤ) := by split <;> decide
  have hmul := mul_nonneg (show (0 : ℤ) ≤ 3 * c.numThreads + 4 by omega) hremaining
  unfold effort
  linarith

lemma measure_nonneg {s : St c} (hp : ∀ t, Paced c (s.locals t)) : 0 ≤ measure c s :=
  Finset.sum_nonneg fun t _ =>
    add_nonneg (hp t).effort_nonneg (mul_nonneg (by decide) (stale_nonneg _ _))

variable (c) in
/-- The most steps that all threads together can take without waiting. -/
def bound : ℕ := c.numThreads * (2 * c.numIterations * (3 * c.numThreads + 4) + 6)

lemma measure_init : measure c (init c) = bound c := by
  have hterm : ∀ t, effort c ((init c).locals t) +
      3 * stale (init c).shared.counter ((init c).locals t) =
      2 * c.numIterations * (3 * c.numThreads + 4) + 6 := by
    intro t
    rw [stale_of_pc (by simp [init])]
    simp only [effort, remaining, rank, init]
    push_cast
    ring
  rw [measure, Finset.sum_congr rfl fun t _ => hterm t, Finset.sum_const, Finset.card_univ,
    Fintype.card_fin, nsmul_eq_mul]
  push_cast [bound]
  rfl

/-! ### Progress -/

/-- A lock that is taken is taken by a thread. -/
def Occupied (s : St c) : Prop := Locked c → Held c s.shared → ∃ t, (s.locals t).inside

/-- A thread that is not inside after a step waits for the lock, or has just freed it. -/
lemma Moves.inside_or (h : Moves c g l g' l') :
    l'.inside ∨ (l' = l ∧ ¬ l.inside ∧ (Locked c → Held c g)) ∨ (Locked c → ¬ Held c g') := by
  cases h with
  | spin hpc hs htaken =>
    exact .inr (.inl ⟨rfl, fun hin => hin.1 hpc, fun _ => by simpa [Held, hs] using htaken⟩)
  | leave hpc hfree => exact .inr (.inr hfree)
  | enter => exact .inl ⟨by simp, by simp⟩
  | start =>
    refine .inl ?_
    dsimp only [Local.inside]
    split_ifs <;> simp
  | load =>
    refine .inl ?_
    dsimp only [Local.inside]
    split_ifs <;> simp
  | casLoad =>
    refine .inl ?_
    dsimp only [Local.inside]
    split_ifs <;> simp
  | turn hpc => exact .inl ⟨by simp [hpc], by simp [hpc]⟩
  | finish | yield | casYield | casFail => exact .inl ⟨by simp, by simp⟩
  | store | casOk => exact .inl ⟨by simp, by simp⟩

lemma occupied_step (s : St c) (a : Fin c.numThreads × Unit) (s' : St c) (ho : Occupied s)
    (h : step (act c) s a = some s') : Occupied s' := by
  obtain ⟨t, u⟩ := a
  obtain ⟨g', l', hact, rfl⟩ := step_cases h
  intro hl hheld
  rcases (act_moves hact).inside_or with hin | ⟨rfl, hout, hbefore⟩ | hfree
  · exact ⟨t, by simpa using hin⟩
  · obtain ⟨v, hv⟩ := ho hl (hbefore hl)
    have hne : v ≠ t := fun heq => hout (heq ▸ hv)
    exact ⟨v, by simpa [Function.update_of_ne hne] using hv⟩
  · exact absurd hheld (hfree hl)

/-- A thread that has not returned can go on, unless it finds the lock taken. -/
lemma exists_act (hpc : l.pc ≠ .returned) (hfree : l.pc = .lock → Locked c → ¬ Held c g) :
    (∃ r, act c t () g l = some r) ∧ ¬ Waits c g l := by
  obtain ⟨pc, phase, n, prev, sum, plus, minus⟩ := l
  cases pc with
  | lock =>
    have hnot := hfree rfl
    cases hs : c.syncOpt <;> simp_all [act, Waits, Held, Locked]
  | loop =>
    refine ⟨?_, by simp [Waits]⟩
    simp only [act]
    cases phase <;> split <;> exact ⟨_, rfl⟩
  | read | yield | write | casRead | casYield => exact ⟨⟨_, rfl⟩, by simp [Waits]⟩
  | cas =>
    refine ⟨?_, by simp [Waits]⟩
    simp only [act]
    split <;> exact ⟨_, rfl⟩
  | unlock =>
    refine ⟨?_, by simp [Waits]⟩
    simp only [act]
    split <;> exact ⟨_, rfl⟩
  | returned => exact absurd rfl hpc

/-- **No deadlock.** While a thread has not returned, some thread can go on without waiting. -/
lemma Occupied.exists_step {s : St c} (ho : Occupied s) (h : ∃ t, (s.locals t).pc ≠ .returned) :
    ∃ t s', step (act c) s (t, ()) = some s' ∧ ¬ Waits c s.shared (s.locals t) := by
  obtain ⟨t, ht⟩ := h
  by_cases hfree : Locked c → ¬ Held c s.shared
  · obtain ⟨⟨r, hr⟩, hwait⟩ := exists_act (t := t) ht fun _ => hfree
    exact ⟨t, _, step_of_act hr, hwait⟩
  · rw [Classical.not_imp, not_not] at hfree
    obtain ⟨u, hin⟩ := ho hfree.1 hfree.2
    obtain ⟨⟨r, hr⟩, hwait⟩ := exists_act (t := u) hin.2 fun hpc => absurd hpc hin.1
    exact ⟨u, _, step_of_act hr, hwait⟩

/-- What holds of every state of a run, whatever the synchronisation. -/
structure Sound (s : St c) : Prop where
  paced : ∀ t, Paced c (s.locals t)
  occupied : Occupied s

lemma sound_init : Sound (init c) where
  paced := inRange_init.paced
  occupied hl hheld := by rcases hl with hl | hl <;> simp [Held, hl, init] at hheld

lemma sound_step (s : St c) (a : Fin c.numThreads × Unit) (s' : St c) (hs : Sound s)
    (h : step (act c) s a = some s') : Sound s' := by
  refine ⟨?_, occupied_step s a s' hs.occupied h⟩
  obtain ⟨t, u⟩ := a
  obtain ⟨g', l', hact, rfl⟩ := step_cases h
  exact forall_update ((act_moves hact).paced (hs.paced t)) fun v _ => hs.paced v

/-- Whatever has happened, the threads can all come to their end. -/
lemma Sound.exists_end {s : St c} (hs : Sound s) :
    ∃ schedule s', run (step (act c)) s schedule = some s' ∧
      ∀ t, (s'.locals t).pc = .returned := by
  have hprogress : ∀ s : St c, Sound s → ¬ (∀ t, (s.locals t).pc = .returned) →
      ∃ a s', step (act c) s a = some s' ∧ Sound s' ∧
        (measure c s').toNat < (measure c s).toNat := by
    intro s hs hnot
    obtain ⟨t, s', hstep, hwait⟩ := hs.occupied.exists_step (not_forall.mp hnot)
    have hs' := sound_step s (t, ()) s' hs hstep
    have hone : working c s (t, ()) = 1 := if_neg hwait
    have hlt := measure_step s (t, ()) s' hs.paced hstep
    have hnonneg := measure_nonneg hs'.paced
    exact ⟨(t, ()), s', hstep, hs', by omega⟩
  obtain ⟨schedule, s', hrun, -, hend⟩ := exists_run_final hprogress hs
  exact ⟨schedule, s', hrun, hend⟩

/-- **Every thread comes to its end.** In every run, whatever the synchronisation, the steps
that do not wait for a spin lock are at most as many as the bound, and all steps are without
spin lock; while some thread has not returned, some thread can take a step that does not wait;
and every run can be continued to one in which all threads have returned. -/
theorem threads_end (c : Config) (schedule : List (Fin c.numThreads × Unit)) (s : St c)
    (hrun : run (step (act c)) (init c) schedule = some s) :
    total (step (act c)) (working c) (init c) schedule ≤ bound c ∧
      (c.syncOpt ≠ .spinLock → schedule.length ≤ bound c) ∧
      ((∃ t, (s.locals t).pc ≠ .returned) →
        ∃ t s', step (act c) s (t, ()) = some s' ∧ ¬ Waits c s.shared (s.locals t)) ∧
      ∃ rest s', run (step (act c)) s rest = some s' ∧ ∀ t, (s'.locals t).pc = .returned := by
  have hs : Sound s := invariant sound_step sound_init hrun
  have hwork : total (step (act c)) (working c) (init c) schedule ≤ bound c := by
    have hle := total_add_le (P := Sound) (fun s a s' hs hstep =>
      ⟨sound_step s a s' hs hstep, measure_step s a s' hs.paced hstep⟩) sound_init hrun
    rw [measure_init] at hle
    linarith [measure_nonneg hs.paced]
  refine ⟨hwork, fun hspin => ?_, hs.occupied.exists_step, hs.exists_end⟩
  have hone : working c = fun _ _ => 1 :=
    funext fun _ => funext fun _ => if_neg fun hwait => hspin hwait.2.1
  rw [hone, total_one hrun] at hwork
  exact_mod_cast hwork

/-- Thread 1 finds the spin lock taken. -/
theorem threads_end_waiting :
    ∃ s rest s', run (step (act ⟨2, 1, .spinLock, true⟩)) (init ⟨2, 1, .spinLock, true⟩)
        [(0, ()), (1, ())] = some s ∧
      run (step (act ⟨2, 1, .spinLock, true⟩)) s rest = some s' ∧
      ∀ t, (s'.locals t).pc = .returned := by
  obtain ⟨s, hs⟩ : ∃ s, run (step (act ⟨2, 1, .spinLock, true⟩)) (init ⟨2, 1, .spinLock, true⟩)
      [(0, ()), (1, ())] = some s := ⟨_, rfl⟩
  obtain ⟨rest, s', hrun, hend⟩ := (threads_end ⟨2, 1, .spinLock, true⟩ _ s hs).2.2.2
  exact ⟨s, rest, s', hs, hrun, hend⟩

lemma committed_commit (l : Local) :
    (l.commit.plus + l.commit.minus : ℤ) - (l.plus + l.minus) = 1 := by
  obtain ⟨pc, phase, n, prev, sum, plus, minus⟩ := l
  cases phase <;> simp only [Local.commit] <;> push_cast <;> ring

/-- With compare-and-swap nothing else takes effect. -/
lemma Moves.committed (hs : c.syncOpt = .compareSwap) (hp : Prepared c g l)
    (h : Moves c g l g' l') : (l'.plus + l'.minus : ℤ) - (l.plus + l.minus) =
      if l.pc = .cas ∧ g.counter = l.prev then 1 else 0 := by
  cases h with
  | spin hpc | enter hpc | start hpc | turn hpc | finish hpc | load hpc | yield hpc | casLoad hpc
  | casYield hpc | leave hpc => simp [hpc]
  | store hpc =>
    rw [Prepared, hpc] at hp
    rcases hp.1 with hl | hl <;> simp [hs] at hl
  | casOk hpc heq => rw [committed_commit, if_pos ⟨hpc, heq⟩]
  | casFail hpc hne => simp [hne]

lemma committed_step (hs : c.syncOpt = .compareSwap) (s : St c) (a : Fin c.numThreads × Unit)
    (s' : St c) (hi : Inv c s) (h : step (act c) s a = some s') :
    Inv c s' ∧ plusTotal s' + minusTotal s' = plusTotal s + minusTotal s + succeeded c s a := by
  refine ⟨inv_step (by simp [hs]) s a s' hi h, ?_⟩
  obtain ⟨t, u⟩ := a
  obtain ⟨g', l', hact, rfl⟩ := step_cases h
  have hsum := sum_update (fun _ (l : Local) => (l.plus + l.minus : ℤ)) s.locals t l'
  have hone := (act_moves hact).committed hs (hi.good t).prepared
  dsimp only [plusTotal, minusTotal]
  rw [← Finset.sum_add_distrib, ← Finset.sum_add_distrib, hsum, hone]
  rfl

/-- **Lock freedom.** With compare-and-swap a run has at most `numThreads - 1` failures for
each success, and each operation that has taken effect is one success. -/
theorem failed_le (c : Config) (hs : c.syncOpt = .compareSwap)
    (schedule : List (Fin c.numThreads × Unit)) (s : St c)
    (hrun : run (step (act c)) (init c) schedule = some s) :
    total (step (act c)) (failed c) (init c) schedule ≤
        (c.numThreads - 1) * total (step (act c)) (succeeded c) (init c) schedule ∧
      total (step (act c)) (succeeded c) (init c) schedule = plusTotal s + minusTotal s := by
  constructor
  · have hle := total_add_le (stale_step hs) inv_init hrun
    have hinit : ∑ t, stale (init c).shared.counter ((init c).locals t) = 0 :=
      Finset.sum_eq_zero fun t _ => stale_of_pc (by simp [init])
    have hend : 0 ≤ ∑ t, stale s.shared.counter (s.locals t) :=
      Finset.sum_nonneg fun t _ => stale_nonneg _ _
    rw [total_sub, total_mul_left, hinit] at hle
    linarith
  · have heq := eq_add_total (committed_step hs) inv_init hrun
    have hinit : plusTotal (init c) + minusTotal (init c) = 0 := by
      simp [plusTotal, minusTotal, init]
    rw [heq, hinit, zero_add]

theorem failed_le_sample :
    total (step (act sampleConfig)) (failed sampleConfig) (init sampleConfig) sampleSchedule ≤
      (2 - 1) * total (step (act sampleConfig)) (succeeded sampleConfig) (init sampleConfig)
        sampleSchedule := by
  obtain ⟨s, hs⟩ := Option.isSome_iff_exists.mp (show
    (run (step (act sampleConfig)) (init sampleConfig) sampleSchedule).isSome by decide)
  exact (failed_le sampleConfig rfl _ s hs).1

end LowLevelTasks.AddRuns
