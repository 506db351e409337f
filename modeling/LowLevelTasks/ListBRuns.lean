import LowLevelTasks.CountPass
import Mathlib.Tactic.Linarith
import Mathlib.Tactic.Ring

/-!
Runs of the threads of `lab2_list.c` in project 2b, from the start of the threads to their end.

A thread that waits at one of the two barriers takes steps that change nothing. All other steps
are counted: each thread has its own number of them, and the three steps that count a sublist
are taken by one thread where the others take one. The barriers are used once each, so that the
thread that is missing at a barrier is never one that waits at it.
-/

namespace LowLevelTasks.ListBRuns

open LowLevelTasks.Runs LowLevelTasks.Threads LowLevelTasks.Strings LowLevelTasks.SortedList
open LowLevelTasks.Sublists LowLevelTasks.ElementLists
open LowLevelTasks.Lab2ListB LowLevelTasks.CountPass

/-! ### The second barrier -/

/-- The thread has counted itself in at the second barrier, -/
def Finished (l : Local) : Prop :=
  match l.pc with
  | .waitDeleting | .addWait | .returned => True
  | _ => False

/-- and has come through it. -/
def Released (l : Local) : Prop :=
  match l.pc with
  | .addWait | .returned => True
  | _ => False

lemma finished_iff {l : Local} :
    l.pc = .waitDeleting ∨ l.pc = .addWait ∨ l.pc = .returned ↔ Finished l := by
  unfold Finished
  cases l.pc <;> simp

instance (l : Local) : Decidable (Finished l) := decidable_of_iff _ finished_iff

variable (c : Config)

/-- The thread tests a barrier at which others are missing. -/
def Spins (g : Shared) (l : Local) : Prop :=
  (l.pc = .waitInserting ∧ g.threadsFinishedInserting ≠ c.numThreads) ∨
    (l.pc = .waitDeleting ∧ g.threadsFinishedDeleting ≠ c.numThreads)

instance (g : Shared) (l : Local) : Decidable (Spins c g l) :=
  inferInstanceAs (Decidable (_ ∨ _))

/-- Where the thread is in the pass over the sublists. -/
def Binned (l : Local) : Prop :=
  match l.pc with
  | .checkLoop => l.bin ≤ c.numLists
  | .checkLength | .checkTotal => l.bin < c.numLists
  | _ => True

/-! ### Steps that are left -/

/-- The steps of the thread `id` that are left, without those that wait. -/
def remaining (id : ℕ) (l : Local) : ℤ :=
  match l.pc with
  | .insertLoop =>
    2 * (startIndex c.numIterations (id + 1) - l.n) + c.numLists + 5 * c.numIterations + 9
  | .insertCs =>
    2 * (startIndex c.numIterations (id + 1) - l.n) + c.numLists + 5 * c.numIterations + 8
  | .finishInserting => c.numLists + 5 * c.numIterations + 8
  | .waitInserting => c.numLists + 5 * c.numIterations + 7
  | .checkLoop => (c.numLists - l.bin) + 5 * c.numIterations + 6
  | .checkLength => (c.numLists - l.bin) + 5 * c.numIterations + 7
  | .checkTotal => (c.numLists - l.bin) + 5 * c.numIterations + 6
  | .checkEnd => 5 * c.numIterations + 5
  | .deleteLoop => 5 * (startIndex c.numIterations (id + 1) - l.n) + 4
  | .lookupCs => 5 * (startIndex c.numIterations (id + 1) - l.n) + 3
  | .deleteCs => 5 * (startIndex c.numIterations (id + 1) - l.n) + 2
  | .clearNext => 5 * (startIndex c.numIterations (id + 1) - l.n) + 1
  | .clearPrev => 5 * (startIndex c.numIterations (id + 1) - l.n)
  | .finishDeleting => 3
  | .waitDeleting => 2
  | .addWait => 1
  | .returned => 0

/-- The sublists that no thread has claimed. -/
def unclaimed (g : Shared) : Finset ℕ :=
  (Finset.range c.numLists).filter fun b => g.listCount b = 0

/-- The steps that are left. A sublist that is claimed costs two steps more than one that is
passed over. -/
def left (s : St c) : ℤ :=
  ∑ id : Fin c.numThreads, remaining c id (s.locals id) + 2 * (unclaimed c s.shared).card

/-- The steps of a whole run. -/
def bound : ℕ :=
  c.numThreads * (7 * c.numIterations + c.numLists + 9) + 2 * c.numLists

/-- 1 for a step that does not wait at a barrier. -/
def working (s : St c) (a : Fin c.numThreads × ℤ) : ℤ :=
  if Spins c s.shared (s.locals a.1) then 0 else 1

variable {c} {key : ℕ → CString} {bin : ℕ → ℕ} {id : Fin c.numThreads} {elapsed : ℤ}
variable {g g' : Shared} {l l' : Local}

lemma card_unclaimed_claim {b : ℕ} (hb : b < c.numLists) (hzero : g.listCount b = 0) :
    (unclaimed c { g with listCount := Function.update g.listCount b 1 }).card + 1 =
      (unclaimed c g).card := by
  have hmem : b ∈ unclaimed c g := by simp [unclaimed, hb, hzero]
  have heq : unclaimed c { g with listCount := Function.update g.listCount b 1 } =
      (unclaimed c g).erase b := by
    ext b'
    by_cases hbb : b' = b <;> simp [unclaimed, hbb]
  rw [heq, Finset.card_erase_add_one hmem]

/-- What a step does to the count of the second barrier, to the place in the pass over the
sublists and to the steps that are left. -/
structure Turn (id : Fin c.numThreads) (g : Shared) (l : Local) (g' : Shared) (l' : Local) :
    Prop where
  binned : Binned c l'
  finished : (g'.threadsFinishedDeleting : ℤ) - g.threadsFinishedDeleting =
    (if Finished l' then 1 else 0) - if Finished l then 1 else 0
  stays : Finished l → Finished l'
  released : Released l' → Released l ∨ g.threadsFinishedDeleting = c.numThreads
  counted : remaining c id l' + 2 * (unclaimed c g').card + (if Spins c g l then 0 else 1) =
    remaining c id l + 2 * (unclaimed c g).card

lemma act_turn (hk : Keyed c key bin) (hs : Sound c key bin g) (hl : Good c bin id g.history l)
    (hb : Binned c l) (h : act c id elapsed g l = some (g', l')) : Turn id g l g' l' := by
  have hrunning := (act_good hk hs hl h).1.running
  have hstart := startIndex_succ c.numIterations id
  have hbounded := hl.bounded
  obtain ⟨pc, n, b, sList, matching, count, wait⟩ := l
  cases (act_moves h).2 with
  | exitEnter | exitInsert | exitLookup | exitDelete => cases hrunning
  | endInsert hpc hn | endDelete hpc hn =>
    obtain rfl := hpc
    obtain ⟨-, hle⟩ : startIndex c.numIterations id ≤ n ∧
      n ≤ startIndex c.numIterations (id + 1) := hbounded
    obtain rfl : n = startIndex c.numIterations (id + 1) :=
      le_antisymm hle (not_lt.mp fun hlt => hn (le_endIndex_iff.mpr hlt))
    exact ⟨trivial, by simp [Finished], fun hf => hf, fun hr => hr.elim,
      by simp [remaining, Spins]; ring⟩
  | claim hpc hlt hzero =>
    obtain rfl := hpc
    have hcard := card_unclaimed_claim hlt hzero
    refine ⟨hlt, by simp [Finished], fun hf => hf, fun hr => hr.elim, ?_⟩
    simp only [remaining, Spins, reduceCtorEq, false_and, or_self, if_false, ← hcard]
    push_cast
    ring
  | pass hpc hlt hone =>
    obtain rfl := hpc
    exact ⟨Nat.succ_le_of_lt hlt, by simp [Finished], fun hf => hf, fun hr => hr.elim,
      by simp [remaining, Spins]; ring⟩
  | endLoop hpc hge =>
    obtain rfl := hpc
    obtain rfl : b = c.numLists := le_antisymm hb (not_lt.mp hge)
    exact ⟨trivial, by simp [Finished], fun hf => hf, fun hr => hr.elim,
      by simp [remaining, Spins]; ring⟩
  | addCount hpc =>
    obtain rfl := hpc
    exact ⟨Nat.succ_le_of_lt hb, by simp [Finished], fun hf => hf, fun hr => hr.elim,
      by simp [remaining, Spins, unclaimed]; ring⟩
  | startCheck hpc hall =>
    obtain rfl := hpc
    exact ⟨Nat.zero_le _, by simp [Finished], fun hf => hf, fun hr => hr.elim,
      by simp [remaining, Spins, hall]; ring⟩
  | spinInserting hpc hwait =>
    obtain rfl := hpc
    exact ⟨trivial, by simp [Finished], fun hf => hf, fun hr => hr.elim,
      by simp [remaining, Spins, hwait]⟩
  | spinDeleting hpc hwait =>
    obtain rfl := hpc
    exact ⟨trivial, by simp [Finished], fun hf => hf, fun hr => hr.elim,
      by simp [remaining, Spins, hwait]⟩
  | endWait hpc hall =>
    obtain rfl := hpc
    exact ⟨trivial, by simp [Finished], fun _ => trivial, fun _ => .inr hall,
      by simp [remaining, Spins, hall]; ring⟩
  | finish hpc =>
    obtain rfl := hpc
    exact ⟨trivial, by simp [Finished], fun hf => hf.elim, fun hr => hr.elim,
      by simp [remaining, Spins, unclaimed]; ring⟩
  | addWait hpc =>
    obtain rfl := hpc
    exact ⟨trivial, by simp [Finished], fun _ => trivial, fun _ => .inl trivial,
      by simp [remaining, Spins, unclaimed]; ring⟩
  | length hpc =>
    obtain rfl := hpc
    exact ⟨hb, by simp [Finished], fun hf => hf, fun hr => hr.elim,
      by simp [remaining, Spins, unclaimed]; ring⟩
  | endCheck hpc =>
    obtain rfl := hpc
    exact ⟨trivial, by simp [Finished], fun hf => hf, fun hr => hr.elim,
      by simp only [remaining, Spins, hstart]; simp; ring⟩
  | enterInsert hpc | enterDelete hpc | insert hpc | arrive hpc | lookup hpc | unlink hpc
  | clearNext hpc | clearPrev hpc =>
    obtain rfl := hpc
    exact ⟨trivial, by simp [Finished], fun hf => hf, fun hr => hr.elim,
      by simp [remaining, Spins, unclaimed]; ring⟩

/-! ### The invariant -/

variable (key bin) in
/-- What holds of every state. -/
structure Running (s : St c) : Prop where
  counting : Counting key bin s
  binned : ∀ id, Binned c (s.locals id)
  finished : (s.shared.threadsFinishedDeleting : ℤ) =
    ∑ id, if Finished (s.locals id) then 1 else 0
  barrier : ∀ t, Released (s.locals t) → ∀ u, Finished (s.locals u)

variable {s s' : St c}

/-- All threads have finished once the second barrier is open. -/
lemma Running.forall_finished (hr : Running key bin s)
    (hall : s.shared.threadsFinishedDeleting = c.numThreads) (u : Fin c.numThreads) :
    Finished (s.locals u) := by
  have hfinished := hr.finished
  rw [Finset.sum_boole, hall, Nat.cast_inj] at hfinished
  have hcard := Finset.card_filter_eq_iff (s := (Finset.univ : Finset (Fin c.numThreads)))
    (p := fun t => Finished (s.locals t))
  rw [Finset.card_univ, Fintype.card_fin] at hcard
  exact hcard.mp hfinished.symm u (Finset.mem_univ u)

/-- **The step lemma.** -/
lemma running_step (hk : Keyed c key bin) (s : St c) (a : Fin c.numThreads × ℤ) (s' : St c)
    (hr : Running key bin s) (h : step (act c) s a = some s') :
    Running key bin s' ∧ left c s' + working c s a = left c s := by
  have hcounting := (counting_step hk s a s' hr.counting h).1
  obtain ⟨t, elapsed⟩ := a
  obtain ⟨g', l', hact, rfl⟩ := step_cases h
  have hinv := hr.counting.inv
  have hturn := act_turn hk hinv.sound (hinv.good t) (hr.binned t) hact
  have hfinished := sum_update (fun (_ : Fin c.numThreads) l => if Finished l then (1 : ℤ) else 0)
    s.locals t l'
  have hremaining := sum_update (fun (id : Fin c.numThreads) l => remaining c id l) s.locals t l'
  refine ⟨⟨hcounting, forall_update hturn.binned fun u _ => hr.binned u, ?_, fun v hv => ?_⟩, ?_⟩
  · have hcount := hr.finished
    have hone := hturn.finished
    dsimp only
    omega
  · change Released (Function.update s.locals t l' v) at hv
    have hall : ∀ u, Finished (s.locals u) := by
      by_cases hvt : v = t
      · subst hvt
        rw [Function.update_self] at hv
        rcases hturn.released hv with hv | hfull
        · exact hr.barrier v hv
        · exact hr.forall_finished hfull
      · rw [Function.update_of_ne hvt] at hv
        exact hr.barrier v hv
    exact forall_update (P := fun _ l => Finished l) (hturn.stays (hall t)) fun u _ => hall u
  · have hcounted := hturn.counted
    rw [left, left, working, hremaining]
    linarith

variable {h : Heap Addr}

lemma running_init (hi : Initial c h) :
    Running (fun e => h.keyOf (.elem e)) (binOf c h) (init c h) where
  counting := (counting_init hi).1
  binned _ := trivial
  finished := by simp [init, Finished]
  barrier _ ht := ht.elim

lemma left_init : left c (init c h) = bound c := by
  have hterm : ∀ id : Fin c.numThreads, remaining c id ((init c h).locals id) =
      (7 * c.numIterations + c.numLists + 9 : ℕ) := by
    intro id
    have := startIndex_succ c.numIterations id
    simp only [remaining, init]
    push_cast [this]
    ring
  have hunclaimed : unclaimed c (init c h).shared = Finset.range c.numLists := by
    simp [unclaimed, init]
  rw [left, Finset.sum_congr rfl fun id _ => hterm id, hunclaimed, Finset.sum_const,
    Finset.card_univ, Fintype.card_fin, Finset.card_range, bound]
  push_cast
  ring

/-! ### What is left of a run -/

lemma remaining_nonneg {id : ℕ} {history : ℕ → History} (hl : Good c bin id history l)
    (hb : Binned c l) : 0 ≤ remaining c id l ∧ (remaining c id l = 0 → l.pc = .returned) := by
  have hbounded := hl.bounded
  obtain ⟨pc, n, b, sList, matching, count, wait⟩ := l
  cases pc with
  | returned => exact ⟨le_rfl, fun _ => rfl⟩
  | _ =>
    simp only [Bounded, Binned, remaining, reduceCtorEq, imp_false] at hbounded hb ⊢
    omega

/-- Nothing is left exactly when all threads have returned. -/
lemma Running.left_eq_zero_iff (hr : Running key bin s) (hthreads : 0 < c.numThreads) :
    left c s = 0 ↔ ∀ t, (s.locals t).pc = .returned := by
  have hnonneg : ∀ id : Fin c.numThreads, 0 ≤ remaining c id (s.locals id) :=
    fun id => (remaining_nonneg (hr.counting.inv.good id) (hr.binned id)).1
  have hsum := Finset.sum_nonneg fun id (_ : id ∈ Finset.univ) => hnonneg id
  constructor
  · intro hleft t
    have hle := Finset.single_le_sum (fun id _ => hnonneg id) (Finset.mem_univ t)
    rw [left] at hleft
    exact (remaining_nonneg (hr.counting.inv.good t) (hr.binned t)).2
      (le_antisymm (by omega) (hnonneg t))
  · intro hall
    have hzero : ∑ id : Fin c.numThreads, remaining c id (s.locals id) = 0 :=
      Finset.sum_eq_zero fun id _ => by rw [remaining, hall id]
    -- any thread that has returned has seen all sublists claimed
    have hseen := (hr.counting.placed ⟨0, hthreads⟩).seen
    have hempty : unclaimed c s.shared = ∅ := by
      refine Finset.filter_eq_empty_iff.mpr fun b hb => ?_
      have := hseen b (by rw [seen, hall]; exact Finset.mem_range.mp hb) (Finset.mem_range.mp hb)
      omega
    rw [left, hzero, hempty]
    simp

/-- As long as the process runs, every thread that has not returned can go on. -/
lemma exists_act (hx : g.exited = none) (hpc : l.pc ≠ .returned) :
    ∃ r, act c id elapsed g l = some r := by
  rw [← Option.isSome_iff_exists]
  obtain ⟨pc, n, b, sList, matching, count, wait⟩ := l
  simp only [act, hx, Option.isSome_none, Bool.false_eq_true, if_false]
  cases pc with
  | returned => exact absurd rfl hpc
  | finishInserting | checkLength | checkTotal | checkEnd | clearNext | clearPrev
  | finishDeleting | addWait => rfl
  | insertLoop | insertCs | waitInserting | deleteLoop | waitDeleting => dsimp only; split <;> rfl
  | checkLoop | lookupCs =>
    dsimp only
    split
    · first | rfl | split <;> rfl
    · first | rfl | split <;> rfl
  | deleteCs => dsimp only; split <;> rfl

/-- **No deadlock.** While some thread has not returned, some thread does not wait. -/
lemma Running.exists_not_spins (hr : Running key bin s) {t : Fin c.numThreads}
    (ht : (s.locals t).pc ≠ .returned) :
    ∃ u, (s.locals u).pc ≠ .returned ∧ ¬ Spins c s.shared (s.locals u) := by
  -- a thread that is missing at the first barrier is before it,
  have hfirst : s.shared.threadsFinishedInserting ≠ c.numThreads →
      ∃ u, (s.locals u).pc ≠ .returned ∧ ¬ Spins c s.shared (s.locals u) := by
    intro hne
    have harrivals := hr.counting.arrivals
    obtain ⟨u, hu⟩ : ∃ u, ¬ Arrived (s.locals u) := by
      by_contra hall
      push Not at hall
      rw [Finset.sum_congr rfl fun u _ => if_pos (hall u)] at harrivals
      simp at harrivals
      exact hne harrivals
    refine ⟨u, fun hpc => hu (by rw [Arrived, hpc]; trivial), ?_⟩
    rintro (⟨hpc, -⟩ | ⟨hpc, -⟩) <;> exact hu (by rw [Arrived, hpc]; trivial)
  by_cases hspins : Spins c s.shared (s.locals t)
  swap
  · exact ⟨t, ht, hspins⟩
  rcases hspins with ⟨-, hne⟩ | ⟨-, hne⟩
  · exact hfirst hne
  · -- and one that is missing at the second barrier waits at the first one at most
    have hfinished := hr.finished
    obtain ⟨u, hu⟩ : ∃ u, ¬ Finished (s.locals u) := by
      by_contra hall
      push Not at hall
      rw [Finset.sum_congr rfl fun u _ => if_pos (hall u)] at hfinished
      simp at hfinished
      exact hne hfinished
    by_cases hspins : Spins c s.shared (s.locals u)
    · rcases hspins with ⟨-, hne⟩ | ⟨hpc, -⟩
      · exact hfirst hne
      · exact absurd (by rw [Finished, hpc]; trivial) hu
    · exact ⟨u, fun hpc => hu (by rw [Finished, hpc]; trivial), hspins⟩

/-- The sublists are empty when all threads have finished their deletions. -/
lemma Running.emptied (hr : Running key bin s) (hall : ∀ u, Finished (s.locals u)) {b : ℕ}
    (hb : b < c.numLists) : Represents s.shared.heap (.list b) [] := by
  obtain ⟨xs, hrep, hm⟩ := hr.counting.inv.sound.holds.lists b hb
  have hempty : xs = [] := by
    refine List.eq_nil_iff_forall_not_mem.mpr fun e he => ?_
    obtain ⟨hlt, hin, -⟩ := (hm e).mp he
    obtain ⟨id, hown⟩ := exists_owner hlt
    have hrange := ((hr.counting.inv.good id).owned e hown).mp hin
    have hfinished := hall id
    unfold Finished at hfinished
    split at hfinished
    · next hpc => simp only [Local.first, Local.last, hpc] at hrange; omega
    · next hpc => simp only [Local.first, Local.last, hpc] at hrange; omega
    · next hpc => simp only [Local.first, Local.last, hpc] at hrange; omega
    · exact hfinished
  rwa [hempty] at hrep

lemma Running.left_nonneg (hr : Running key bin s) : 0 ≤ left c s := by
  have := Finset.sum_nonneg fun (id : Fin c.numThreads) (_ : id ∈ Finset.univ) =>
    (remaining_nonneg (hr.counting.inv.good id) (hr.binned id)).1
  rw [left]
  omega

lemma Running.exists_step (hr : Running key bin s) (hnot : ∃ t, (s.locals t).pc ≠ .returned) :
    ∃ t, ¬ Spins c s.shared (s.locals t) ∧
      ∀ elapsed, ∃ s', step (act c) s (t, elapsed) = some s' := by
  obtain ⟨t, ht⟩ := hnot
  obtain ⟨u, hu, hspins⟩ := hr.exists_not_spins ht
  refine ⟨u, hspins, fun elapsed => ?_⟩
  obtain ⟨r, hact⟩ := @exists_act c u elapsed _ _ hr.counting.inv.sound.running hu
  exact ⟨_, step_of_act hact⟩

/-- Every run can be continued until all threads have returned. -/
lemma Running.exists_end (hk : Keyed c key bin) (hr : Running key bin s) :
    ∃ rest s', run (step (act c)) s rest = some s' ∧ Running key bin s' ∧
      ∀ t, (s'.locals t).pc = .returned := by
  have hprogress : ∀ s : St c, Running key bin s → ¬ (∀ t, (s.locals t).pc = .returned) →
      ∃ a s', step (act c) s a = some s' ∧ Running key bin s' ∧
        (left c s').toNat < (left c s).toNat := by
    intro s hr hnot
    obtain ⟨t, hspins, hsteps⟩ := hr.exists_step (not_forall.mp hnot)
    obtain ⟨s', hs'⟩ := hsteps 0
    obtain ⟨hr', hleft⟩ := running_step hk s (t, 0) s' hr hs'
    have hworking : working c s (t, 0) = 1 := if_neg hspins
    have := hr'.left_nonneg
    exact ⟨(t, 0), s', hs', hr', by omega⟩
  exact exists_run_final hprogress hr

/-! ### The result -/

/-- **Every run comes to its end.** Under a lock and with different keys, the steps of a run that
do not wait at a barrier are at most as many as the bound, and exactly as many when all threads
have returned. While some thread has not returned, some thread can take a step that does not
wait. Once a thread has come through the second barrier all sublists are empty. And every run
can be continued until all threads have returned. -/
theorem every_run_ends (c : Config) (_hsync : c.syncOpt ≠ .unsynced) (hL : 0 < c.numLists)
    (h : Heap Addr) (hi : Initial c h) (schedule : List (Fin c.numThreads × ℤ)) (s : St c)
    (hrun : run (step (act c)) (init c h) schedule = some s) :
    total (step (act c)) (working c) (init c h) schedule ≤ bound c ∧
      (0 < c.numThreads → ((∀ t, (s.locals t).pc = .returned) ↔
        total (step (act c)) (working c) (init c h) schedule = bound c)) ∧
      ((∃ t, (s.locals t).pc ≠ .returned) → ∃ t, ¬ Spins c s.shared (s.locals t) ∧
        ∀ elapsed, ∃ s', step (act c) s (t, elapsed) = some s') ∧
      (∀ t, Released (s.locals t) → ∀ b < c.numLists, Represents s.shared.heap (.list b) []) ∧
      ∃ rest s', run (step (act c)) s rest = some s' ∧ ∀ t, (s'.locals t).pc = .returned := by
  have hk := hi.keyed hL
  have hone : ∀ s a s', Running (fun e => h.keyOf (.elem e)) (binOf c h) s →
      step (act c) s a = some s' → Running (fun e => h.keyOf (.elem e)) (binOf c h) s' ∧
        -left c s' = -left c s + working c s a := by
    intro s a s' hr hstep
    obtain ⟨hr', hleft⟩ := running_step hk s a s' hr hstep
    exact ⟨hr', by omega⟩
  have hr := invariant (fun s a s' hr hs => (hone s a s' hr hs).1) (running_init hi) hrun
  have hcount := eq_add_total hone (running_init hi) hrun
  rw [left_init] at hcount
  have hleft := hr.left_nonneg
  refine ⟨by omega, fun hthreads => ?_, hr.exists_step,
    fun t ht b hb => hr.emptied (hr.barrier t ht) hb, ?_⟩
  · rw [← hr.left_eq_zero_iff hthreads]
    constructor <;> intro <;> omega
  · obtain ⟨rest, s', hrest, -, hend⟩ := hr.exists_end hk
    exact ⟨rest, s', hrest, hend⟩

/-- Thread 0 waits for thread 1 at the first barrier. -/
theorem every_run_ends_waiting :
    ∃ s rest s', run (step (act sampleConfig)) (init sampleConfig sampleHeap)
        (List.replicate 6 (ofTwo 0, 0)) = some s ∧
      (∃ t, ¬ Spins sampleConfig s.shared (s.locals t)) ∧
      run (step (act sampleConfig)) s rest = some s' ∧ ∀ t, (s'.locals t).pc = .returned := by
  have hpc : ((run (step (act sampleConfig)) (init sampleConfig sampleHeap)
      (List.replicate 6 (ofTwo 0, 0))).map fun s => (s.locals (ofTwo 0)).pc) =
        some .waitInserting := by decide +kernel
  obtain ⟨s, hs, hwait⟩ := Option.map_eq_some_iff.mp hpc
  obtain ⟨-, -, hgo, -, rest, s', hrest, hend⟩ := every_run_ends sampleConfig (by decide)
    (by decide) sampleHeap sampleHeap_initial _ s hs
  obtain ⟨t, ht, -⟩ := hgo ⟨ofTwo 0, by rw [hwait]; decide⟩
  exact ⟨s, rest, s', hs, ⟨t, ht⟩, hrest, hend⟩

end LowLevelTasks.ListBRuns
