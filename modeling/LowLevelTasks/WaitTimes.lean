import LowLevelTasks.Lab2ListB
import Mathlib.Algebra.Order.Ring.Int

/-!
The lock times of project 2b. A thread adds up what `set_lock` stores in its record, but the
record of the length pass is set up anew for every sublist, and only what it holds at the end
of the pass is added.
-/

namespace LowLevelTasks.WaitTimes

open LowLevelTasks.Lab2ListB LowLevelTasks.Runs LowLevelTasks.SortedList
open LowLevelTasks.Sublists LowLevelTasks.Threads

variable (c : Config)

/-- The time that `set_lock` stores if the thread calls it in this step. -/
def stored (elapsed : ℤ) (l : Local) : ℤ :=
  match l.pc with
  | .insertCs | .checkLength | .lookupCs | .deleteCs => lockTime c elapsed
  | _ => 0

/-- The part of it that the next `set_up_ListInfo` of the length pass overwrites. -/
def lost (elapsed : ℤ) (l : Local) : ℤ :=
  if l.pc = .checkLength ∧ l.bin + 1 < c.numLists then lockTime c elapsed else 0

/-- The sum of the lock times that all calls of `set_lock` store. -/
def lockTimes : St c → List (Fin c.numThreads × ℤ) → ℤ :=
  total (step (act c)) fun s a => stored c a.2 (s.locals a.1)

/-- The length of a sublist that is not the last one is taken without a wait. -/
def Kept (s : St c) (a : Fin c.numThreads × ℤ) : Prop :=
  (s.locals a.1).pc = .checkLength → (s.locals a.1).bin + 1 < c.numLists → lockTime c a.2 = 0

/-- The time that the thread still brings along. -/
def held (l : Local) : ℤ :=
  match l.pc with
  | .checkLoop => l.waitPerThreadTime + if l.bin < c.numLists then 0 else l.sList.timer
  | .checkTotal => l.waitPerThreadTime + if l.bin + 1 < c.numLists then 0 else l.sList.timer
  | .checkEnd | .clearNext | .clearPrev => l.waitPerThreadTime + l.sList.timer
  | .returned => 0
  | _ => l.waitPerThreadTime

/-- The time that has been reported, and that the threads will report. -/
def account (s : St c) : ℤ := s.shared.waitForTime + ∑ t, held c (s.locals t)

variable {c} {id : Fin c.numThreads} {elapsed : ℤ} {g g' : Shared} {l l' : Local}

/-- **A step of one thread** brings along what it stores, less what is overwritten. -/
lemma act_held (hL : 0 < c.numLists) (h : act c id elapsed g l = some (g', l'))
    (hex : g'.exited = none) :
    g.exited = none ∧ g'.waitForTime + held c l' =
      g.waitForTime + held c l + (stored c elapsed l - lost c elapsed l) := by
  obtain ⟨hrunning, hmoves⟩ := act_moves h
  refine ⟨hrunning, ?_⟩
  obtain ⟨pc, n, b, sList, matching, count, wait⟩ := l
  cases hmoves with
  | exitEnter | exitInsert | exitLookup | exitDelete => cases hex
  | insert hpc | lookup hpc | unlink hpc =>
    obtain rfl := hpc
    simp [held, stored, lost, add_assoc]
  | startCheck hpc =>
    obtain rfl := hpc
    simp [held, stored, lost, hL]
  | claim hpc hb | pass hpc hb | endLoop hpc hb =>
    obtain rfl := hpc
    simp only at hb
    simp [held, stored, lost, hb, setUpListInfo]
  | length hpc =>
    obtain rfl := hpc
    -- the time is overwritten unless the sublist is the last one
    by_cases hb : b + 1 < c.numLists
    · simp [held, stored, lost, hb]
    · simp [held, stored, lost, hb, add_assoc]
  | spinInserting hpc | spinDeleting hpc | enterInsert hpc | enterDelete hpc | endInsert hpc
  | endDelete hpc | arrive hpc | addCount hpc | endCheck hpc | clearNext hpc | clearPrev hpc
  | finish hpc | endWait hpc | addWait hpc =>
    obtain rfl := hpc
    simp [held, stored, lost]

lemma account_step (hL : 0 < c.numLists) (s : St c) (a : Fin c.numThreads × ℤ) (s' : St c)
    (h : step (act c) s a = some s') (hex : s'.shared.exited = none) :
    s.shared.exited = none ∧ account c s' =
      account c s + (stored c a.2 (s.locals a.1) - lost c a.2 (s.locals a.1)) := by
  obtain ⟨t, elapsed⟩ := a
  obtain ⟨g', l', hact, rfl⟩ := step_cases h
  obtain ⟨hrunning, hheld⟩ := act_held hL hact hex
  refine ⟨hrunning, ?_⟩
  have hsum := sum_update (fun _ l => held c l) s.locals t l'
  unfold account
  dsimp only at hsum ⊢
  rw [hsum]
  omega

lemma lockTime_nonneg (h : 0 ≤ elapsed) : 0 ≤ lockTime c elapsed := by
  unfold lockTime
  split
  · exact le_rfl
  · exact h

lemma lost_eq_zero_iff {s : St c} {a : Fin c.numThreads × ℤ} :
    lost c a.2 (s.locals a.1) = 0 ↔ Kept c s a := by
  unfold lost Kept
  split
  · next h => simp [h]
  · next h => simp only [true_iff]; exact fun hpc hb => absurd ⟨hpc, hb⟩ h

/-- **The lock times are accounted for** in a run that ends normally if the length of every
sublist but the last is taken without a wait; with a clock that does not go back, only then. -/
theorem accounted (c : Config) (hL : 0 < c.numLists) (h : Heap Addr)
    (schedule : List (Fin c.numThreads × ℤ)) (s : St c)
    (hrun : run (step (act c)) (init c h) schedule = some s)
    (hret : ∀ id, (s.locals id).pc = .returned) (hex : s.shared.exited = none) :
    (Always (step (act c)) (Kept c) (init c h) schedule →
      s.shared.waitForTime = lockTimes c (init c h) schedule) ∧
    ((∀ a ∈ schedule, 0 ≤ a.2) → s.shared.waitForTime = lockTimes c (init c h) schedule →
      Always (step (act c)) (Kept c) (init c h) schedule) := by
  have hpot := (potential_eq_add_total (P := fun s : St c => s.shared.exited = none)
    (account_step hL) hex hrun).2
  have hstart : account c (init c h) = 0 := by
    simp [account, init, held]
  have hend : account c s = s.shared.waitForTime := by
    simp [account, held, hret]
  rw [hstart, hend, zero_add, total_sub] at hpot
  have hsum : s.shared.waitForTime = lockTimes c (init c h) schedule ↔
      total (step (act c)) (fun s a => lost c a.2 (s.locals a.1)) (init c h) schedule = 0 := by
    rw [hpot, lockTimes, sub_eq_self]
  rw [hsum]
  refine ⟨fun hkept => ?_, fun hclock hzero => ?_⟩
  · exact total_eq_zero_of_always (hkept.imp fun s a => lost_eq_zero_iff.mpr)
  · refine (always_of_total_eq_zero (fun a ha s => ?_) hzero).imp fun s a => lost_eq_zero_iff.mp
    unfold lost
    split
    · exact lockTime_nonneg (hclock a ha)
    · exact le_rfl

/-- With one sublist nothing is overwritten. -/
def oneList : Config := ⟨2, 1, 1, .mutex⟩

lemma oneList_initial : Initial oneList sampleHeap :=
  ⟨sampleHeap_initial.heads, sampleHeap_initial.keys, sampleHeap_initial.distinct⟩

/-- The two threads in turns, to the end. -/
def oneListSchedule : List (Fin oneList.numThreads × ℤ) :=
  (List.replicate 18 [(ofTwo 1, 3), (ofTwo 0, 4)]).flatten ++ [(ofTwo 1, 3)]

theorem accounted_oneList :
    ∃ s, run (step (act oneList)) (init oneList sampleHeap) oneListSchedule = some s ∧
      s.shared.waitForTime = lockTimes oneList (init oneList sampleHeap) oneListSchedule ∧
      lockTimes oneList (init oneList sampleHeap) oneListSchedule = 24 := by
  have hall : ((run (step (act oneList)) (init oneList sampleHeap) oneListSchedule).map
      fun s => decide (∀ t : Fin 2, (s.locals t).pc = .returned)) = some true := by decide +kernel
  rw [Option.map_eq_some_iff] at hall
  obtain ⟨s, hs, hret⟩ := hall
  have hinv := invariant (inv_step (oneList_initial.keyed (by decide)))
    (inv_init oneList_initial) hs
  have hkept : ∀ (s : St oneList) a, Kept oneList s a := fun s a _ hb =>
    absurd (show (s.locals a.1).bin + 1 < 1 from hb) (by omega)
  refine ⟨s, hs, ?_, by decide +kernel⟩
  exact (accounted oneList (by decide) sampleHeap oneListSchedule s hs (of_decide_eq_true hret)
    hinv.sound.running).1 (always_of_forall hkept _ _)

/-- Of the three time units that thread 1 waits to count the first of two sublists none is
reported. -/
theorem firstList_unaccounted :
    ∃ s, run (step (act sampleConfig)) (init sampleConfig sampleHeap) sampleSchedule = some s ∧
      s.shared.exited = none ∧ (∀ t, (s.locals t).pc = .returned) ∧ s.shared.waitForTime = 25 ∧
      lockTimes sampleConfig (init sampleConfig sampleHeap) sampleSchedule = 28 := by
  have hall : ((run (step (act sampleConfig)) (init sampleConfig sampleHeap) sampleSchedule).map
      fun s => (decide (∀ t : Fin 2, (s.locals t).pc = .returned), s.shared.waitForTime)) =
        some (true, 25) := by decide +kernel
  obtain ⟨s, hs, heq⟩ := Option.map_eq_some_iff.mp hall
  obtain ⟨hret, htime⟩ := Prod.mk.inj heq
  have hinv := invariant (inv_step (sampleHeap_initial.keyed (by decide)))
    (inv_init sampleHeap_initial) hs
  exact ⟨s, hs, hinv.sound.running, of_decide_eq_true hret, htime, by decide +kernel⟩

end LowLevelTasks.WaitTimes
