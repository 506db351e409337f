import LowLevelTasks.Lab2ListB
import Mathlib.Algebra.Order.BigOperators.Group.Finset

/-!
The concurrent count of project 2b. A thread claims a sublist, counts it later, and adds the
count later still. No one waits for the counts of others before it deletes its elements, so an
element can be gone when the sublist it was in is counted.
-/

namespace LowLevelTasks.CountPass

open LowLevelTasks.ElementLists LowLevelTasks.Lab2ListB LowLevelTasks.Runs LowLevelTasks.SortedList
open LowLevelTasks.SortedListSpec LowLevelTasks.Sublists LowLevelTasks.Strings
open LowLevelTasks.Threads

/-! ### Where the threads are -/

/-- The thread has counted itself in at the barrier, -/
def Arrived (l : Local) : Prop :=
  match l.pc with
  | .insertLoop | .insertCs | .finishInserting => False
  | _ => True

/-- has come through it, -/
def Passed (l : Local) : Prop :=
  match l.pc with
  | .insertLoop | .insertCs | .finishInserting | .waitInserting => False
  | _ => True

/-- and has returned from `check_correct_list_length`. -/
def Checked (l : Local) : Prop :=
  match l.pc with
  | .insertLoop | .insertCs | .finishInserting | .waitInserting => False
  | .checkLoop | .checkLength | .checkTotal | .checkEnd => False
  | _ => True

instance decidableArrived (l : Local) : Decidable (Arrived l) := by
  unfold Arrived
  split <;> infer_instance

instance decidableChecked (l : Local) : Decidable (Checked l) := by
  unfold Checked
  split <;> infer_instance

/-- The thread has claimed the sublist and not counted it yet. -/
def Claims (b : ℕ) (l : Local) : Prop := l.pc = .checkLength ∧ l.bin = b

instance {b : ℕ} {l : Local} : Decidable (Claims b l) := inferInstanceAs (Decidable (_ ∧ _))

/-- A count that has not been added yet. -/
def pending (l : Local) : ℤ := if l.pc = .checkTotal then l.count else 0

/-- The sublists of which the thread knows that they are claimed are those before this one. -/
def seen (c : Config) (l : Local) : ℕ :=
  match l.pc with
  | .insertLoop | .insertCs | .finishInserting | .waitInserting => 0
  | .checkLoop => l.bin
  | .checkLength | .checkTotal => l.bin + 1
  | _ => c.numLists

variable (c : Config)

/-- How often `SortedList_length` has run on the sublist. -/
def lengthCalls (s : St c) : List (Fin c.numThreads × ℤ) → ℕ → ℕ
  | [], _ => 0
  | a :: schedule, b => (if Claims b (s.locals a.1) then 1 else 0) +
      match step (act c) s a with
      | none => 0
      | some s' => lengthCalls s' schedule b

/-- No deletion is made in a sublist that a thread has claimed and not counted yet. -/
def Settled (s : St c) (a : Fin c.numThreads × ℤ) : Prop :=
  (s.locals a.1).pc = .deleteCs → ∀ t, ¬ Claims (s.locals a.1).bin (s.locals t)

instance decidableSettled (s : St c) (a : Fin c.numThreads × ℤ) : Decidable (Settled c s a) :=
  inferInstanceAs (Decidable (_ → _))

/-- Each sublist has been counted once, and the total is the number of inserted elements. -/
structure Complete (start s : St c) (schedule : List (Fin c.numThreads × ℤ)) : Prop where
  once : ∀ b < c.numLists, lengthCalls c start schedule b = 1
  total : s.shared.listCountTotal = c.numElements

/-! ### What a step does to the count -/

/-- What holds of the thread `id` by itself. -/
structure Placed (bin : ℕ → ℕ) (id : ℕ) (g : Shared) (l : Local) : Prop where
  fresh : ∀ e, Owned c.numIterations id e → (g.history e = .fresh ↔ l.last c id ≤ e)
  seen : ∀ b < seen c l, b < c.numLists → g.listCount b = 1
  target :
    match l.pc with
    | .insertCs | .lookupCs | .deleteCs => l.bin = bin l.n
    | .checkLength => l.bin < c.numLists ∧ l.sList.listObj = .list l.bin
    | _ => True

/-- A step of the count, of a deletion, or one that has nothing to do with either. -/
inductive Effect (bin : ℕ → ℕ) (g : Shared) (l : Local) (g' : Shared) (l' : Local) : Prop
  | quiet (hpc : l.pc ≠ .deleteCs) (hflags : g'.listCount = g.listCount)
    (hclaims : ∀ b, ¬ Claims b l ∧ ¬ Claims b l')
    (htotal : g'.listCountTotal + pending l' = g.listCountTotal + pending l)
    (hdead : ∀ e, g'.history e = .deleted ↔ g.history e = .deleted)
  | claim (hpc : l.pc ≠ .deleteCs) (hzero : g.listCount l.bin = 0)
    (hflags : g'.listCount = Function.update g.listCount l.bin 1)
    (hclaims : ∀ b, ¬ Claims b l ∧ (Claims b l' ↔ b = l.bin))
    (htotal : g'.listCountTotal + pending l' = g.listCountTotal + pending l)
    (hdead : g'.history = g.history)
  | count (hpc : l.pc = .checkLength) (hflags : g'.listCount = g.listCount)
    (hclaims : ∀ b, ¬ Claims b l')
    (htotal : g'.listCountTotal + pending l' = g.listCountTotal + pending l +
      sortedListLength c.numElements g.heap (.list l.bin))
    (hdead : g'.history = g.history)
  | delete (hpc : l.pc = .deleteCs) (hflags : g'.listCount = g.listCount)
    (hclaims : ∀ b, ¬ Claims b l ∧ ¬ Claims b l')
    (htotal : g'.listCountTotal + pending l' = g.listCountTotal + pending l)
    (hdead : g'.history = Function.update g.history l.n .deleted)

variable {c} {key : ℕ → CString} {bin : ℕ → ℕ} {id : Fin c.numThreads} {elapsed : ℤ}
variable {g g' : Shared} {l l' : Local}

/-- **A step of one thread**, as far as the count goes. -/
lemma act_effect (hk : Keyed c key bin) (hs : Sound c key bin g) (hl : Good c bin id g.history l)
    (hp : Placed c bin id g l) (hflags : ∀ b, g.listCount b ≤ 1)
    (h : act c id elapsed g l = some (g', l')) :
    Effect c bin g l g' l' ∧ Placed c bin id g' l' := by
  have hrunning := (act_good hk hs hl h).1.running
  obtain ⟨hb, ht, ho⟩ := hl
  obtain ⟨hfresh, hseen, htarget⟩ := hp
  have hend : startIndex c.numIterations (id + 1) ≤ c.numElements := startIndex_le id.2
  obtain ⟨pc, n, b, sList, matching, count, wait⟩ := l
  cases (act_moves h).2 with
  | exitEnter | exitInsert | exitLookup | exitDelete => cases hrunning
  | enterInsert hpc hn hbin | enterDelete hpc hn hbin =>
    obtain rfl := hpc
    have hlt : n < c.numElements := (le_endIndex_iff.mp hn).trans_le hend
    obtain ⟨k, hkey, hbin⟩ := hbin
    rw [hs.holds.keys n hlt, Option.some.injEq] at hkey
    rw [← hkey, hk.getBin_eq n hlt, Option.some.injEq] at hbin
    exact ⟨.quiet (by simp) rfl (by simp [Claims]) rfl fun _ => Iff.rfl, hfresh, hseen, hbin.symm⟩
  | endInsert hpc hn | endDelete hpc hn =>
    obtain rfl := hpc
    obtain ⟨-, hb2⟩ : startIndex c.numIterations id ≤ n ∧
      n ≤ startIndex c.numIterations (id + 1) := hb
    have hge : startIndex c.numIterations (id + 1) ≤ n :=
      not_lt.mp fun hlt => hn (le_endIndex_iff.mpr hlt)
    obtain rfl : n = startIndex c.numIterations (id + 1) := le_antisymm hb2 hge
    exact ⟨.quiet (by simp) rfl (by simp [Claims]) rfl fun _ => Iff.rfl, hfresh, hseen, trivial⟩
  | insert hpc hins =>
    obtain rfl := hpc
    obtain ⟨hb1, hb2⟩ : Owned c.numIterations id n := hb
    have hnew : g.history n = .fresh := (hfresh n ⟨hb1, hb2⟩).mpr le_rfl
    refine ⟨.quiet (by simp) rfl (by simp [Claims]) rfl fun e => ?_, fun e he => ?_, hseen, trivial⟩
    · by_cases hen : e = n <;> simp [hen, hnew]
    · by_cases hen : e = n
      · simp [hen, Local.last]
      · have := hfresh e he
        simp only [Local.last] at this ⊢
        rw [Function.update_of_ne hen, this]
        omega
  | startCheck hpc hall =>
    obtain rfl := hpc
    exact ⟨.quiet (by simp) rfl (by simp [Claims]) rfl fun _ => Iff.rfl, hfresh,
      fun b hb => absurd hb (Nat.not_lt_zero b), trivial⟩
  | claim hpc hlt hzero =>
    obtain rfl := hpc
    have hbefore : ∀ b' < b, b' < c.numLists → g.listCount b' = 1 := hseen
    refine ⟨.claim (by simp) hzero rfl (fun b' => ?_) rfl rfl, hfresh, fun b' hb' hL => ?_,
      hlt, rfl⟩
    · simp [Claims, eq_comm]
    · rcases Nat.lt_succ_iff_lt_or_eq.mp hb' with hb' | rfl
      · dsimp only
        rw [Function.update_of_ne hb'.ne]
        exact hbefore b' hb' hL
      · exact Function.update_self _ _ _
  | pass hpc hlt hone =>
    obtain rfl := hpc
    have hbefore : ∀ b' < b, b' < c.numLists → g.listCount b' = 1 := hseen
    refine ⟨.quiet (by simp) rfl (by simp [Claims]) rfl fun _ => Iff.rfl, hfresh,
      fun b' hb' hL => ?_, trivial⟩
    rcases Nat.lt_succ_iff_lt_or_eq.mp hb' with hb' | rfl
    · exact hbefore b' hb' hL
    · have := hflags b'
      dsimp only at hone
      omega
  | endLoop hpc hge =>
    obtain rfl := hpc
    have hbefore : ∀ b' < b, b' < c.numLists → g.listCount b' = 1 := hseen
    exact ⟨.quiet (by simp) rfl (by simp [Claims]) rfl fun _ => Iff.rfl, hfresh,
      fun b' hb' hL => hbefore b' (hb'.trans_le (not_lt.mp hge)) hL, trivial⟩
  | length hpc =>
    obtain rfl := hpc
    obtain ⟨-, hlist⟩ : b < c.numLists ∧ sList.listObj = .list b := htarget
    exact ⟨.count rfl rfl (by simp [Claims]) (by simp [pending, hlist]) rfl, hfresh, hseen, trivial⟩
  | addCount hpc =>
    obtain rfl := hpc
    exact ⟨.quiet (by simp) rfl (by simp [Claims]) (by simp [pending]) fun _ => Iff.rfl, hfresh,
      hseen, trivial⟩
  | lookup hpc =>
    obtain rfl := hpc
    exact ⟨.quiet (by simp) rfl (by simp [Claims]) rfl fun _ => Iff.rfl, hfresh, hseen, htarget⟩
  | unlink hpc hcode =>
    obtain rfl := hpc
    obtain ⟨hb1, hb2⟩ : Owned c.numIterations id n := hb
    have hlist : sList.listObj = .elem n := ht
    simp only [hlist]
    refine ⟨.delete rfl rfl (by simp [Claims]) rfl rfl, fun e he => ?_, hseen, trivial⟩
    by_cases hen : e = n
    · have hlast : ¬ startIndex c.numIterations (id + 1) ≤ n := not_le.mpr hb2
      simp [hen, Local.last, hlast]
    · have := hfresh e he
      simp only [Local.last] at this ⊢
      rw [Function.update_of_ne hen, this]
  | spinInserting hpc | spinDeleting hpc | arrive hpc | endCheck hpc | clearNext hpc
  | clearPrev hpc | finish hpc | endWait hpc | addWait hpc =>
    obtain rfl := hpc
    exact ⟨.quiet (by simp) rfl (by simp [Claims]) rfl fun _ => Iff.rfl, hfresh, hseen, trivial⟩

/-- **The barrier**: the threads that arrive are counted, and none comes through it before all
have arrived. -/
lemma act_barrier (h : act c id elapsed g l = some (g', l')) :
    (g'.threadsFinishedInserting : ℤ) - g.threadsFinishedInserting =
      (if Arrived l' then 1 else 0) - (if Arrived l then 1 else 0) ∧
    (Arrived l → Arrived l') ∧
    (Passed l' → Passed l ∨ g.threadsFinishedInserting = c.numThreads) := by
  obtain ⟨pc, n, b, sList, matching, count, wait⟩ := l
  cases (act_moves h).2 with
  | exitEnter | exitInsert | exitLookup | exitDelete =>
    exact ⟨by simp [Shared.exit], fun ha => ha, .inl⟩
  | startCheck hpc hall =>
    obtain rfl := hpc
    simp [Arrived, hall]
  | spinInserting hpc | spinDeleting hpc | enterInsert hpc | enterDelete hpc | endInsert hpc
  | endDelete hpc | insert hpc | arrive hpc | claim hpc | pass hpc | endLoop hpc | length hpc
  | addCount hpc | endCheck hpc | lookup hpc | unlink hpc | clearNext hpc | clearPrev hpc
  | finish hpc | endWait hpc | addWait hpc =>
    obtain rfl := hpc
    simp [Arrived, Passed]

/-! ### Sums over threads and elements -/

/-- 1 for a sublist that has been counted, 0 for one that has not. -/
def measured (s : St c) (b : ℕ) : ℤ :=
  s.shared.listCount b - ∑ t, if Claims b (s.locals t) then 1 else 0

/-- The elements that are not deleted and will still be counted. -/
def uncounted (bin : ℕ → ℕ) (s : St c) : ℤ :=
  ∑ e ∈ Finset.range c.numElements,
    if s.shared.history e ≠ .deleted ∧ measured s (bin e) = 0 then 1 else 0

/-- What the total will be if nothing is deleted before it is counted. -/
def balance (bin : ℕ → ℕ) (s : St c) : ℤ :=
  s.shared.listCountTotal + ∑ t, pending (s.locals t) + uncounted bin s

/-- Between the steps. -/
structure Counting (key : ℕ → CString) (bin : ℕ → ℕ) (s : St c) : Prop where
  inv : Inv c key bin s
  placed : ∀ id : Fin c.numThreads, Placed c bin id s.shared (s.locals id)
  flags : ∀ b, s.shared.listCount b ≤ 1
  claims : ∀ b, 0 ≤ measured s b
  arrivals : (s.shared.threadsFinishedInserting : ℤ) =
    ∑ t, if Arrived (s.locals t) then 1 else 0
  barrier : ∀ t, Passed (s.locals t) → ∀ u, Arrived (s.locals u)
  balance_le : balance bin s ≤ c.numElements

variable {s s' : St c} {b : ℕ}

lemma sum_claims_nonneg (s : St c) (b : ℕ) :
    0 ≤ ∑ t, if Claims b (s.locals t) then (1 : ℤ) else 0 :=
  Finset.sum_nonneg fun t _ => by split <;> decide

lemma Counting.measured_le (hc : Counting key bin s) (b : ℕ) : measured s b ≤ 1 := by
  have hflag := hc.flags b
  have hsum := sum_claims_nonneg s b
  unfold measured
  omega

/-- A sublist whose flag is set is counted unless a thread claims it. -/
lemma measured_eq_one_iff (hone : s.shared.listCount b = 1) :
    measured s b = 1 ↔ ∀ t, ¬ Claims b (s.locals t) := by
  unfold measured
  rw [hone, Nat.cast_one, sub_eq_self,
    Finset.sum_eq_zero_iff_of_nonneg fun t _ => by split <;> decide]
  simp

/-- A claimed sublist is not counted yet. -/
lemma Counting.measured_of_claims (hc : Counting key bin s) {t : Fin c.numThreads}
    (ht : Claims b (s.locals t)) : measured s b = 0 := by
  have hnonneg := hc.claims b
  have hflag := hc.flags b
  have hle := Finset.single_le_sum (f := fun t => if Claims b (s.locals t) then (1 : ℤ) else 0)
    (fun t _ => by split <;> decide) (Finset.mem_univ t)
  rw [if_pos ht] at hle
  unfold measured at hnonneg ⊢
  omega

lemma last_of_arrived (id : Fin c.numThreads) (h : Arrived l) :
    l.last c id = startIndex c.numIterations (id + 1) := by
  obtain ⟨pc, n, b, sList, matching, count, wait⟩ := l
  cases pc with
  | insertLoop | insertCs | finishInserting => exact h.elim
  | _ => rfl

/-- All threads have arrived once one has come through the barrier. -/
lemma forall_arrived (hall : s.shared.threadsFinishedInserting = c.numThreads)
    (harrivals : (s.shared.threadsFinishedInserting : ℤ) =
      ∑ t, if Arrived (s.locals t) then 1 else 0) : ∀ u, Arrived (s.locals u) := by
  rw [Finset.sum_boole, hall, Nat.cast_inj] at harrivals
  have hcard := Finset.card_filter_eq_iff (s := (Finset.univ : Finset (Fin c.numThreads)))
    (p := fun t => Arrived (s.locals t))
  rw [Finset.card_univ, Fintype.card_fin] at hcard
  exact fun u => hcard.mp harrivals.symm u (Finset.mem_univ u)

/-- **The length of a sublist** when all threads have arrived: its elements that are not deleted. -/
lemma Counting.length_eq (hc : Counting key bin s) (hall : ∀ u, Arrived (s.locals u))
    (hb : b < c.numLists) : sortedListLength c.numElements s.shared.heap (.list b) =
      ∑ e ∈ Finset.range c.numElements,
        if s.shared.history e ≠ .deleted ∧ bin e = b then 1 else 0 := by
  obtain ⟨xs, hr, hm⟩ := hc.inv.sound.holds.lists b hb
  have hnd := Represents.nodup_of_map hr
  have hlen := hm.length_le hnd
  rw [length_spec hr (by rwa [List.length_map]), List.length_map, Finset.sum_boole,
    ← List.toFinset_card_of_nodup hnd, Nat.cast_inj]
  congr 1
  ext e
  rw [List.mem_toFinset, hm, Finset.mem_filter, Finset.mem_range]
  refine and_congr_right fun he => and_congr_left fun _ => ?_
  -- no element is left to be inserted
  obtain ⟨id, hown⟩ := exists_owner he
  have hfresh := (hc.placed id).fresh e hown
  have hlast := last_of_arrived id (hall id)
  have hnot : s.shared.history e ≠ .fresh := fun h => by
    have := hfresh.mp h
    have := hown.2
    omega
  cases hhist : s.shared.history e with
  | fresh => exact absurd hhist hnot
  | inserted => simp [hhist]
  | deleted => simp [hhist]

/-! ### Steps -/

section

variable {t : Fin c.numThreads}

/-- **A step counts** the sublist that the thread has claimed, and no other one. -/
lemma measured_step (he : Effect c bin s.shared (s.locals t) g' l') (b : ℕ) :
    measured (⟨g', Function.update s.locals t l'⟩ : St c) b =
      measured s b + if Claims b (s.locals t) then 1 else 0 := by
  have hsum := sum_update (fun _ l => if Claims b l then (1 : ℤ) else 0) s.locals t l'
  unfold measured
  rw [hsum]
  cases he with
  | quiet hpc hflags hclaims =>
    rw [hflags, if_neg (hclaims b).1, if_neg (hclaims b).2]
    omega
  | claim hpc hzero hflags hclaims =>
    rw [hflags, if_neg (hclaims b).1]
    by_cases hb : b = (s.locals t).bin
    · rw [if_pos ((hclaims b).2.mpr hb), hb, Function.update_self, hzero]
      push_cast
      omega
    · rw [if_neg fun h => hb ((hclaims b).2.mp h), Function.update_of_ne hb]
      omega
  | count hpc hflags hclaims =>
    rw [hflags, if_neg (hclaims b)]
    omega
  | delete hpc hflags hclaims =>
    rw [hflags, if_neg (hclaims b).1, if_neg (hclaims b).2]
    omega

/-- The element of a deletion is in its sublist. -/
lemma Counting.deletes (hc : Counting key bin s) (hpc : (s.locals t).pc = .deleteCs) :
    (s.locals t).n < c.numElements ∧ s.shared.history (s.locals t).n = .inserted ∧
      (s.locals t).bin = bin (s.locals t).n := by
  obtain ⟨hb, -, ho⟩ := hc.inv.good t
  have htarget := (hc.placed t).target
  have hown : Owned c.numIterations t (s.locals t).n := by
    unfold Bounded at hb
    rwa [hpc] at hb
  rw [hpc] at htarget
  refine ⟨hown.2.trans_le (startIndex_le t.2), (ho _ hown).mpr ?_, htarget⟩
  have hlt := hown.2
  unfold Local.first Local.last
  rw [hpc]
  exact ⟨le_rfl, hlt⟩

/-- A thread that counts knows that all have arrived. -/
lemma Counting.counts (hc : Counting key bin s) (hpc : (s.locals t).pc = .checkLength) :
    sortedListLength c.numElements s.shared.heap (.list (s.locals t).bin) =
      ∑ e ∈ Finset.range c.numElements,
        if s.shared.history e ≠ .deleted ∧ bin e = (s.locals t).bin then 1 else 0 := by
  have htarget := (hc.placed t).target
  rw [hpc] at htarget
  refine hc.length_eq (hc.barrier t ?_) htarget.1
  unfold Passed
  rw [hpc]
  trivial

/-- What the balance loses in this step. -/
def loss (s : St c) (t : Fin c.numThreads) : ℤ :=
  if (s.locals t).pc = .deleteCs ∧ measured s (s.locals t).bin = 0 then 1 else 0

/-- **The balance of a step**: it goes down if the deleted element will not be counted. -/
lemma balance_step (hc : Counting key bin s)
    (he : Effect c bin s.shared (s.locals t) g' l') :
    balance bin (⟨g', Function.update s.locals t l'⟩ : St c) = balance bin s - loss s t := by
  have hmeasured := measured_step he
  have hpending := sum_update (fun _ l => pending l) s.locals t l'
  unfold balance uncounted loss
  dsimp only
  rw [hpending]
  simp only [hmeasured]
  cases he with
  | quiet hpc hflags hclaims htotal hdead =>
    rw [if_neg fun h => hpc h.1]
    simp only [ne_eq, hdead, if_neg (hclaims _).1, add_zero]
    omega
  | claim hpc hzero hflags hclaims htotal hdead =>
    rw [if_neg fun h => hpc h.1]
    simp only [hdead, if_neg (hclaims _).1, add_zero]
    omega
  | count hpc hflags hclaims htotal hdead =>
    have hzero := hc.measured_of_claims (b := (s.locals t).bin) ⟨hpc, rfl⟩
    have hsplit : (∑ e ∈ Finset.range c.numElements,
          if s.shared.history e ≠ .deleted ∧ measured s (bin e) = 0 then (1 : ℤ) else 0) =
        (∑ e ∈ Finset.range c.numElements,
          if s.shared.history e ≠ .deleted ∧
            measured s (bin e) + (if Claims (bin e) (s.locals t) then 1 else 0) = 0
          then (1 : ℤ) else 0) +
        ∑ e ∈ Finset.range c.numElements,
          if s.shared.history e ≠ .deleted ∧ bin e = (s.locals t).bin then (1 : ℤ) else 0 := by
      rw [← Finset.sum_add_distrib]
      refine Finset.sum_congr rfl fun e _ => ?_
      by_cases hbin : bin e = (s.locals t).bin
      · have hclaim : Claims (bin e) (s.locals t) := ⟨hpc, hbin.symm⟩
        rw [hbin] at hclaim ⊢
        simp [hclaim, hzero]
      · have hclaim : ¬ Claims (bin e) (s.locals t) := fun h => hbin h.2.symm
        simp [hclaim, hbin]
    rw [if_neg fun h => absurd (hpc.symm.trans h.1) (by simp), hdead, hsplit]
    rw [hc.counts hpc] at htotal
    omega
  | delete hpc hflags hclaims htotal hdead =>
    obtain ⟨hn, hin, hbin⟩ := hc.deletes hpc
    have hsplit : (∑ e ∈ Finset.range c.numElements,
          if s.shared.history e ≠ .deleted ∧ measured s (bin e) = 0 then (1 : ℤ) else 0) =
        (∑ e ∈ Finset.range c.numElements,
          if Function.update s.shared.history (s.locals t).n .deleted e ≠ .deleted ∧
            measured s (bin e) = 0 then (1 : ℤ) else 0) +
        ∑ e ∈ Finset.range c.numElements,
          if e = (s.locals t).n then (if measured s (bin e) = 0 then (1 : ℤ) else 0) else 0 := by
      rw [← Finset.sum_add_distrib]
      refine Finset.sum_congr rfl fun e _ => ?_
      by_cases hen : e = (s.locals t).n
      · simp [hen, hin]
      · simp [hen]
    rw [hsplit, Finset.sum_ite_eq', if_pos (Finset.mem_range.mpr hn), hdead, hbin]
    simp only [if_neg (hclaims _).1, add_zero, hpc, true_and]
    omega

/-- The flags of the sublists are set and never reset. -/
lemma Effect.flags (he : Effect c bin g l g' l') (hflags : ∀ b, g.listCount b ≤ 1) :
    (∀ b, g'.listCount b ≤ 1) ∧ ∀ b, g.listCount b = 1 → g'.listCount b = 1 := by
  cases he with
  | quiet _ heq | count _ heq | delete _ heq =>
    rw [heq]
    exact ⟨hflags, fun _ hb => hb⟩
  | claim _ hzero heq =>
    rw [heq]
    refine ⟨fun b => ?_, fun b hb => ?_⟩
    · by_cases hbin : b = l.bin
      · rw [hbin, Function.update_self]
      · rw [Function.update_of_ne hbin]
        exact hflags b
    · rw [Function.update_of_ne fun heq => by rw [heq, hzero] at hb; cases hb]
      exact hb

lemma loss_nonneg : 0 ≤ loss s t := by
  unfold loss
  split <;> decide

/-- A step loses an element exactly if it deletes it in a sublist that is claimed. -/
lemma Counting.loss_eq_zero_iff (hc : Counting key bin s) (hk : Keyed c key bin) :
    loss s t = 0 ↔ Settled c s (t, elapsed) := by
  unfold loss Settled
  dsimp only
  by_cases hpc : (s.locals t).pc = .deleteCs
  swap
  · simp [hpc]
  obtain ⟨hn, -, hbin⟩ := hc.deletes hpc
  have hone : s.shared.listCount (s.locals t).bin = 1 := by
    refine (hc.placed t).seen _ ?_ ?_
    · unfold seen
      rw [hpc, hbin]
      exact hk.bin_lt _ hn
    · rw [hbin]
      exact hk.bin_lt _ hn
  have hnonneg := hc.claims (s.locals t).bin
  have hle := hc.measured_le (s.locals t).bin
  rw [← measured_eq_one_iff hone]
  simp only [hpc, true_and, true_implies]
  split <;> omega

/-- **One step** keeps what holds of the count, and the balance is wrong after it if it was
before, or if the step deletes in a sublist that is claimed. -/
lemma counting_step (hk : Keyed c key bin) (s : St c) (a : Fin c.numThreads × ℤ) (s' : St c)
    (hc : Counting key bin s) (h : step (act c) s a = some s') :
    Counting key bin s' ∧
      (balance bin s' ≠ c.numElements ↔ balance bin s ≠ c.numElements ∨ ¬ Settled c s a) := by
  have hinv := inv_step hk s a s' hc.inv h
  obtain ⟨t, elapsed⟩ := a
  obtain ⟨g', l', hact, rfl⟩ := step_cases h
  obtain ⟨he, hplaced⟩ := act_effect hk hc.inv.sound (hc.inv.good t) (hc.placed t) hc.flags hact
  obtain ⟨-, -, hother⟩ := act_good hk hc.inv.sound (hc.inv.good t) hact
  obtain ⟨harrivals, harrived, hpassed⟩ := act_barrier hact
  obtain ⟨hflags, hset⟩ := he.flags hc.flags
  have hbalance := balance_step hc he
  have hloss : 0 ≤ loss s t := loss_nonneg
  have hle := hc.balance_le
  rw [← hc.loss_eq_zero_iff hk]
  refine ⟨⟨hinv, ?_, hflags, fun b => ?_, ?_, fun v hv => ?_, by omega⟩, by omega⟩
  · refine forall_update (P := fun (id : Fin c.numThreads) l => Placed c bin id g' l)
      hplaced fun u hu => ?_
    obtain ⟨hfresh, hseen, htarget⟩ := hc.placed u
    refine ⟨fun e hown => ?_, fun b hb hL => hset b (hseen b hb hL), htarget⟩
    rw [hother e fun hown' => hu (Fin.ext (owned_unique hown hown'))]
    exact hfresh e hown
  · have := hc.claims b
    rw [measured_step he]
    split <;> omega
  · have hsum := sum_update (fun _ l => if Arrived l then (1 : ℤ) else 0) s.locals t l'
    have := hc.arrivals
    dsimp only
    rw [hsum]
    omega
  · change Passed (Function.update s.locals t l' v) at hv
    have hall : ∀ u, Arrived (s.locals u) := by
      by_cases hvt : v = t
      · subst hvt
        rw [Function.update_self] at hv
        rcases hpassed hv with hv | hfull
        · exact hc.barrier v hv
        · exact forall_arrived hfull hc.arrivals
      · rw [Function.update_of_ne hvt] at hv
        exact hc.barrier v hv
    exact forall_update (P := fun _ l => Arrived l) (harrived (hall t)) fun u _ => hall u

/-! ### Runs -/

/-- **The calls of a run**: each one is for a sublist that has not been counted yet. -/
lemma lengthCalls_eq (hk : Keyed c key bin) (hc : Counting key bin s)
    {schedule : List (Fin c.numThreads × ℤ)} (hrun : run (step (act c)) s schedule = some s')
    (b : ℕ) : (lengthCalls c s schedule b : ℤ) = measured s' b - measured s b := by
  induction schedule generalizing s with
  | nil =>
    obtain rfl := Option.some.inj hrun
    simp [lengthCalls]
  | cons a schedule ih =>
    obtain ⟨s₁, hs₁, hrest⟩ := run_cons_some hrun
    have ih := ih (counting_step hk s a s₁ hc hs₁).1 hrest
    unfold lengthCalls
    simp only [hs₁]
    obtain ⟨t, elapsed⟩ := a
    obtain ⟨g', l', hact, rfl⟩ := step_cases hs₁
    obtain ⟨he, -⟩ := act_effect hk hc.inv.sound (hc.inv.good t) (hc.placed t) hc.flags hact
    rw [measured_step he] at ih
    push_cast
    rw [ih]
    omega

variable {h : Heap Addr}

lemma counting_init (hi : Initial c h) :
    Counting (fun e => h.keyOf (.elem e)) (binOf c h) (init c h) ∧
      (∀ b, measured (init c h) b = 0) ∧ balance (binOf c h) (init c h) = c.numElements := by
  have hmeasured : ∀ b, measured (init c h) b = 0 := fun b => by simp [measured, init, Claims]
  have hbalance : balance (binOf c h) (init c h) = c.numElements := by
    unfold balance uncounted
    simp only [hmeasured]
    simp [init, pending]
  refine ⟨⟨inv_init hi, fun id => ⟨fun e he => ?_, fun b hb => ?_, trivial⟩, fun b => ?_,
    fun b => (hmeasured b).ge, ?_, fun t ht => ht.elim, hbalance.le⟩, hmeasured, hbalance⟩
  · exact iff_of_true rfl he.1
  · exact absurd hb (Nat.not_lt_zero b)
  · exact Nat.zero_le 1
  · simp [init, Arrived]

/-- When all threads have returned from the check, all sublists have been counted. -/
lemma Counting.done (hc : Counting key bin s) (hk : Keyed c key bin)
    (hthreads : 0 < c.numThreads) (hdone : ∀ t, Checked (s.locals t)) :
    (∀ b < c.numLists, measured s b = 1) ∧ balance bin s = s.shared.listCountTotal := by
  have hseen : ∀ l, Checked l → seen c l = c.numLists ∧ pending l = 0 ∧ ∀ b, ¬ Claims b l := by
    rintro ⟨pc, n, b, sList, matching, count, wait⟩ hl
    cases pc with
    | insertLoop | insertCs | finishInserting | waitInserting | checkLoop | checkLength
    | checkTotal | checkEnd => exact hl.elim
    | _ => simp [seen, pending, Claims]
  have hmeasured : ∀ b < c.numLists, measured s b = 1 := by
    intro b hb
    have hone := (hc.placed ⟨0, hthreads⟩).seen b (by rwa [(hseen _ (hdone _)).1]) hb
    exact (measured_eq_one_iff hone).mpr fun t => (hseen _ (hdone t)).2.2 b
  refine ⟨hmeasured, ?_⟩
  have hpending : ∑ t, pending (s.locals t) = 0 :=
    Finset.sum_eq_zero fun t _ => (hseen _ (hdone t)).2.1
  have huncounted : uncounted bin s = 0 := Finset.sum_eq_zero fun e he => by
    rw [if_neg]
    rintro ⟨-, hzero⟩
    rw [hmeasured _ (hk.bin_lt e (Finset.mem_range.mp he))] at hzero
    cases hzero
  unfold balance
  rw [hpending, huncounted]
  omega

end

/-- **Exactly the complete counts.** Under a lock, when all threads have returned from the check,
each sublist has been counted once, and the total is the number of the elements if no deletion
was made in a sublist that was claimed and not counted yet. -/
theorem complete_iff (c : Config) (_hsync : c.syncOpt ≠ .unsynced) (hL : 0 < c.numLists)
    (h : Heap Addr) (hi : Initial c h) (schedule : List (Fin c.numThreads × ℤ)) (s : St c)
    (hrun : run (step (act c)) (init c h) schedule = some s)
    (hdone : ∀ t, Checked (s.locals t)) :
    Complete c (init c h) s schedule ↔
      0 < c.numThreads ∧ Always (step (act c)) (Settled c) (init c h) schedule := by
  have hk := hi.keyed hL
  obtain ⟨hstart, hmeasured, hbalance⟩ := counting_init hi
  have hcalls := lengthCalls_eq hk hstart hrun
  have hfinal := invariant (fun s a s' hc hs => (counting_step hk s a s' hc hs).1) hstart hrun
  rcases Nat.eq_zero_or_pos c.numThreads with hzero | hpos
  · -- without a thread nothing is counted
    refine iff_of_false (fun hcomplete => ?_) fun hright => by omega
    cases schedule with
    | nil => exact absurd (hcomplete.once 0 hL) (by simp [lengthCalls])
    | cons a schedule => exact absurd a.1.2 (by omega)
  obtain ⟨hall, htotal⟩ := hfinal.done hk hpos hdone
  rw [and_iff_right hpos,
    always_iff_of_lasting (counting_step hk) hstart (not_not.mpr hbalance) hrun, not_not, htotal]
  refine ⟨fun hcomplete => hcomplete.total, fun hnumber => ⟨fun b hb => ?_, hnumber⟩⟩
  have := hcalls b
  rw [hall b hb, hmeasured] at this
  omega

/-! ### Two threads -/

/-- In turns, the two threads count before either deletes. -/
theorem complete_iff_sample :
    ∃ s, run (step (act sampleConfig)) (init sampleConfig sampleHeap) sampleSchedule = some s ∧
      Complete sampleConfig (init sampleConfig sampleHeap) s sampleSchedule := by
  have hall : ((run (step (act sampleConfig)) (init sampleConfig sampleHeap) sampleSchedule).map
      fun s => decide (∀ t : Fin 2, Checked (s.locals t))) = some true := by decide +kernel
  obtain ⟨s, hs, hdone⟩ := Option.map_eq_some_iff.mp hall
  refine ⟨s, hs, (complete_iff sampleConfig (by decide) (by decide) sampleHeap
    sampleHeap_initial sampleSchedule s hs (of_decide_eq_true hdone)).mpr ⟨by decide, ?_⟩⟩
  decide +kernel

/-- The first thread claims the sublist of both elements, and counts it when the second thread
has deleted its element. -/
def lateSchedule : List (Fin sampleConfig.numThreads × ℤ) :=
  List.replicate 4 (ofTwo 0, 0) ++ List.replicate 4 (ofTwo 1, 0) ++
    List.replicate 2 (ofTwo 0, 0) ++ List.replicate 10 (ofTwo 1, 0) ++
      List.replicate 5 (ofTwo 0, 0)

theorem lateSchedule_incomplete :
    ∃ s, run (step (act sampleConfig)) (init sampleConfig sampleHeap) lateSchedule = some s ∧
      (∀ t, Checked (s.locals t)) ∧ sampleConfig.numElements = 2 ∧
      s.shared.listCountTotal = 1 ∧
      ¬ Complete sampleConfig (init sampleConfig sampleHeap) s lateSchedule := by
  have hall : ((run (step (act sampleConfig)) (init sampleConfig sampleHeap) lateSchedule).map
      fun s => (decide (∀ t : Fin 2, Checked (s.locals t)), s.shared.listCountTotal)) =
        some (true, 1) := by decide +kernel
  obtain ⟨s, hs, heq⟩ := Option.map_eq_some_iff.mp hall
  obtain ⟨hdone, htotal⟩ := Prod.mk.inj heq
  refine ⟨s, hs, of_decide_eq_true hdone, rfl, htotal, fun hcomplete => ?_⟩
  have hnumber := htotal.symm.trans hcomplete.total
  exact absurd hnumber (by decide)

end LowLevelTasks.CountPass
