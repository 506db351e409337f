import LowLevelTasks.ElementLists
import LowLevelTasks.Threads

/-!
The threads of `lab2_list.c` in project 2b.

Every thread inserts its own elements into the sublists, waits for the others, checks the
lengths, looks up and deletes its elements, waits again and adds up the time it waited for
locks. A critical section of a list operation is one step, and so is a section under `mut`;
the deletion clears the links of its element in two more steps after the lock is released.
-/

namespace LowLevelTasks.Lab2ListB

open LowLevelTasks.Runs LowLevelTasks.Threads LowLevelTasks.Strings LowLevelTasks.SortedList
open LowLevelTasks.Sublists LowLevelTasks.ElementLists

inductive SyncOptions
  | unsynced | mutex | spinlock
  deriving DecidableEq

structure Config where
  numThreads : ℕ
  numIterations : ℕ
  numLists : ℕ
  syncOpt : SyncOptions

def Config.numElements (c : Config) : ℕ := c.numThreads * c.numIterations

/-- Where a thread is in `list_operations`, or in a function it calls. -/
inductive Pc
  | insertLoop | insertCs
  | finishInserting | waitInserting
  | checkLoop | checkLength | checkTotal | checkEnd
  | deleteLoop | lookupCs | deleteCs | clearNext | clearPrev
  | finishDeleting | waitDeleting
  | addWait | returned
  deriving DecidableEq

/-- Why the process has exited with status 2. -/
inductive Exit
  | invalidKey | noMatch | corrupted | segmentationFault
  deriving DecidableEq

structure Shared where
  heap : Heap Addr
  threadsFinishedInserting : ℕ
  threadsFinishedDeleting : ℕ
  listCount : ℕ → ℕ
  listCountTotal : ℤ
  waitForTime : ℤ
  history : ℕ → History
  exited : Option Exit

structure Local where
  pc : Pc
  n : ℕ
  bin : ℕ
  sList : ListInfo
  matching : Option Addr
  count : ℤ
  waitPerThreadTime : ℤ

variable (c : Config)

/-- The time `set_lock` stores, when it measured `elapsed`. -/
def lockTime (elapsed : ℤ) : ℤ :=
  if c.syncOpt = .unsynced then 0 else elapsed

def Shared.exit (g : Shared) (e : Exit) : Shared := { g with exited := some e }

/-- The head of a pass through the loops over the elements of the thread: `get_bin` and
`set_up_ListInfo` for the element `n`, then on to `pc`. -/
def enterPass (g : Shared) (l : Local) (pc : Pc) : Shared × Local :=
  match (g.heap (.elem l.n)).key with
  | none => (g.exit .segmentationFault, l)
  | some key =>
    match getBin c.numLists key with
    | none => (g.exit .invalidKey, l)
    | some bin => (g, { l with bin := bin, sList := setUpListInfo (.list bin) bin, pc := pc })

/-- The next step of the thread `id`; `elapsed` is the time it waits for the lock, where the
step takes one. No step is left once a thread has returned or the process has exited. -/
def act (id : Fin c.numThreads) (elapsed : ℤ) (g : Shared) (l : Local) :
    Option (Shared × Local) :=
  if g.exited.isSome then none
  else
    match l.pc with
    | .insertLoop =>
      if (l.n : ℤ) ≤ endIndex c.numIterations id then some (enterPass c g l .insertCs)
      else some (g, { l with pc := .finishInserting })
    | .insertCs =>
      match sortedListInsert c.numElements g.heap l.sList.listObj (.elem l.n) with
      | none => some (g.exit .segmentationFault, l)
      | some heap =>
        some ({ g with heap := heap, history := Function.update g.history l.n .inserted },
          { l with
            sList := { l.sList with timer := lockTime c elapsed }
            waitPerThreadTime := l.waitPerThreadTime + lockTime c elapsed
            n := l.n + 1
            pc := .insertLoop })
    | .finishInserting =>
      some ({ g with threadsFinishedInserting := g.threadsFinishedInserting + 1 },
        { l with pc := .waitInserting })
    | .waitInserting =>
      if g.threadsFinishedInserting ≠ c.numThreads then some (g, l)
      else some (g, { l with bin := 0, pc := .checkLoop })
    | .checkLoop =>
      if l.bin < c.numLists then
        let l := { l with sList := setUpListInfo (.list l.bin) l.bin }
        if g.listCount l.bin = 0 then
          some ({ g with listCount := Function.update g.listCount l.bin 1 },
            { l with pc := .checkLength })
        else some (g, { l with bin := l.bin + 1 })
      else some (g, { l with pc := .checkEnd })
    | .checkLength =>
      -- called with `enforce` 0: a count of -1 is added up like any other
      some (g, { l with
        sList := { l.sList with timer := lockTime c elapsed }
        count := sortedListLength c.numElements g.heap l.sList.listObj
        pc := .checkTotal })
    | .checkTotal =>
      some ({ g with listCountTotal := g.listCountTotal + l.count },
        { l with bin := l.bin + 1, pc := .checkLoop })
    | .checkEnd =>
      some (g, { l with
        waitPerThreadTime := l.waitPerThreadTime + l.sList.timer
        n := startIndex c.numIterations id
        pc := .deleteLoop })
    | .deleteLoop =>
      if (l.n : ℤ) ≤ endIndex c.numIterations id then some (enterPass c g l .lookupCs)
      else some (g, { l with pc := .finishDeleting })
    | .lookupCs =>
      match (g.heap (.elem l.n)).key with
      | none => some (g.exit .segmentationFault, l)
      | some key =>
        match sortedListLookup c.numElements g.heap l.sList.listObj key with
        | none => some (g.exit .segmentationFault, l)
        | some none => some (g.exit .noMatch, l)
        | some (some matching) =>
          some (g, { l with
            matching := some matching
            waitPerThreadTime := l.waitPerThreadTime + lockTime c elapsed
            sList := setUpListInfo matching l.bin
            pc := .deleteCs })
    | .deleteCs =>
      let (heap, code) := deleteUnlink g.heap l.sList.listObj
      if code = 1 then some (g.exit .corrupted, l)
      else
        let history := match l.sList.listObj with
          | .elem m => Function.update g.history m .deleted
          | .list _ => g.history
        some ({ g with heap := heap, history := history },
          { l with sList := { l.sList with timer := lockTime c elapsed }, pc := .clearNext })
    | .clearNext =>
      some ({ g with heap := g.heap.setNext l.sList.listObj none }, { l with pc := .clearPrev })
    | .clearPrev =>
      some ({ g with heap := g.heap.setPrev l.sList.listObj none },
        { l with
          waitPerThreadTime := l.waitPerThreadTime + l.sList.timer
          n := l.n + 1
          pc := .deleteLoop })
    | .finishDeleting =>
      some ({ g with threadsFinishedDeleting := g.threadsFinishedDeleting + 1 },
        { l with pc := .waitDeleting })
    | .waitDeleting =>
      if g.threadsFinishedDeleting ≠ c.numThreads then some (g, l)
      else some (g, { l with pc := .addWait })
    | .addWait =>
      some ({ g with waitForTime := g.waitForTime + l.waitPerThreadTime },
        { l with pc := .returned })
    | .returned => none

/-- All that a step can do: `act` from the outside. -/
inductive Moves (id : Fin c.numThreads) (elapsed : ℤ) (g : Shared) (l : Local) :
    Shared → Local → Prop
  | exitEnter (e : Exit) (hpc : l.pc = .insertLoop ∨ l.pc = .deleteLoop)
      (hn : (l.n : ℤ) ≤ endIndex c.numIterations id)
      (hbin : ∀ key, (g.heap (.elem l.n)).key = some key → getBin c.numLists key = none) :
      Moves id elapsed g l (g.exit e) l
  | exitInsert (e : Exit) (hpc : l.pc = .insertCs)
      (hins : sortedListInsert c.numElements g.heap l.sList.listObj (.elem l.n) = none) :
      Moves id elapsed g l (g.exit e) l
  | exitLookup (e : Exit) (hpc : l.pc = .lookupCs)
      (hfound : ∀ key matching, (g.heap (.elem l.n)).key = some key →
        sortedListLookup c.numElements g.heap l.sList.listObj key ≠ some (some matching)) :
      Moves id elapsed g l (g.exit e) l
  | exitDelete (e : Exit) (hpc : l.pc = .deleteCs)
      (hcode : (deleteUnlink g.heap l.sList.listObj).2 = 1) : Moves id elapsed g l (g.exit e) l
  | enterInsert {b : ℕ} (hpc : l.pc = .insertLoop) (hn : (l.n : ℤ) ≤ endIndex c.numIterations id)
      (hbin : ∃ key, (g.heap (.elem l.n)).key = some key ∧ getBin c.numLists key = some b) :
      Moves id elapsed g l g
        { l with bin := b, sList := setUpListInfo (.list b) b, pc := .insertCs }
  | endInsert (hpc : l.pc = .insertLoop) (hn : ¬ (l.n : ℤ) ≤ endIndex c.numIterations id) :
      Moves id elapsed g l g { l with pc := .finishInserting }
  | insert {heap : Heap Addr} (hpc : l.pc = .insertCs)
      (hins : sortedListInsert c.numElements g.heap l.sList.listObj (.elem l.n) = some heap) :
      Moves id elapsed g l
        { g with heap := heap, history := Function.update g.history l.n .inserted }
        { l with
          sList := { l.sList with timer := lockTime c elapsed }
          waitPerThreadTime := l.waitPerThreadTime + lockTime c elapsed
          n := l.n + 1
          pc := .insertLoop }
  | arrive (hpc : l.pc = .finishInserting) : Moves id elapsed g l
      { g with threadsFinishedInserting := g.threadsFinishedInserting + 1 }
      { l with pc := .waitInserting }
  | spinInserting (hpc : l.pc = .waitInserting)
      (hwait : g.threadsFinishedInserting ≠ c.numThreads) : Moves id elapsed g l g l
  | startCheck (hpc : l.pc = .waitInserting)
      (hall : g.threadsFinishedInserting = c.numThreads) :
      Moves id elapsed g l g { l with bin := 0, pc := .checkLoop }
  | claim (hpc : l.pc = .checkLoop) (hb : l.bin < c.numLists) (hzero : g.listCount l.bin = 0) :
      Moves id elapsed g l { g with listCount := Function.update g.listCount l.bin 1 }
        { l with sList := setUpListInfo (.list l.bin) l.bin, pc := .checkLength }
  | pass (hpc : l.pc = .checkLoop) (hb : l.bin < c.numLists) (hone : g.listCount l.bin ≠ 0) :
      Moves id elapsed g l g
        { l with sList := setUpListInfo (.list l.bin) l.bin, bin := l.bin + 1, pc := .checkLoop }
  | endLoop (hpc : l.pc = .checkLoop) (hb : ¬ l.bin < c.numLists) :
      Moves id elapsed g l g { l with pc := .checkEnd }
  | length (hpc : l.pc = .checkLength) : Moves id elapsed g l g
      { l with
        sList := { l.sList with timer := lockTime c elapsed }
        count := sortedListLength c.numElements g.heap l.sList.listObj
        pc := .checkTotal }
  | addCount (hpc : l.pc = .checkTotal) : Moves id elapsed g l
      { g with listCountTotal := g.listCountTotal + l.count }
      { l with bin := l.bin + 1, pc := .checkLoop }
  | endCheck (hpc : l.pc = .checkEnd) : Moves id elapsed g l g
      { l with
        waitPerThreadTime := l.waitPerThreadTime + l.sList.timer
        n := startIndex c.numIterations id
        pc := .deleteLoop }
  | enterDelete {b : ℕ} (hpc : l.pc = .deleteLoop) (hn : (l.n : ℤ) ≤ endIndex c.numIterations id)
      (hbin : ∃ key, (g.heap (.elem l.n)).key = some key ∧ getBin c.numLists key = some b) :
      Moves id elapsed g l g
        { l with bin := b, sList := setUpListInfo (.list b) b, pc := .lookupCs }
  | endDelete (hpc : l.pc = .deleteLoop) (hn : ¬ (l.n : ℤ) ≤ endIndex c.numIterations id) :
      Moves id elapsed g l g { l with pc := .finishDeleting }
  | lookup {key : CString} {matching : Addr} (hpc : l.pc = .lookupCs)
      (hkey : (g.heap (.elem l.n)).key = some key)
      (hfound : sortedListLookup c.numElements g.heap l.sList.listObj key = some (some matching)) :
      Moves id elapsed g l g
        { l with
          matching := some matching
          waitPerThreadTime := l.waitPerThreadTime + lockTime c elapsed
          sList := setUpListInfo matching l.bin
          pc := .deleteCs }
  | unlink (hpc : l.pc = .deleteCs) (hcode : (deleteUnlink g.heap l.sList.listObj).2 ≠ 1) :
      Moves id elapsed g l
        { g with
          heap := (deleteUnlink g.heap l.sList.listObj).1
          history := match l.sList.listObj with
            | .elem m => Function.update g.history m .deleted
            | .list _ => g.history }
        { l with sList := { l.sList with timer := lockTime c elapsed }, pc := .clearNext }
  | clearNext (hpc : l.pc = .clearNext) : Moves id elapsed g l
      { g with heap := g.heap.setNext l.sList.listObj none } { l with pc := .clearPrev }
  | clearPrev (hpc : l.pc = .clearPrev) : Moves id elapsed g l
      { g with heap := g.heap.setPrev l.sList.listObj none }
      { l with
        waitPerThreadTime := l.waitPerThreadTime + l.sList.timer
        n := l.n + 1
        pc := .deleteLoop }
  | finish (hpc : l.pc = .finishDeleting) : Moves id elapsed g l
      { g with threadsFinishedDeleting := g.threadsFinishedDeleting + 1 }
      { l with pc := .waitDeleting }
  | spinDeleting (hpc : l.pc = .waitDeleting)
      (hwait : g.threadsFinishedDeleting ≠ c.numThreads) : Moves id elapsed g l g l
  | endWait (hpc : l.pc = .waitDeleting) (hall : g.threadsFinishedDeleting = c.numThreads) :
      Moves id elapsed g l g { l with pc := .addWait }
  | addWait (hpc : l.pc = .addWait) : Moves id elapsed g l
      { g with waitForTime := g.waitForTime + l.waitPerThreadTime } { l with pc := .returned }

variable {c} in
lemma enterPass_cases (g : Shared) (l : Local) (pc : Pc) :
    (∃ e, (∀ key, (g.heap (.elem l.n)).key = some key → getBin c.numLists key = none) ∧
      enterPass c g l pc = (g.exit e, l)) ∨
      ∃ b, (∃ key, (g.heap (.elem l.n)).key = some key ∧ getBin c.numLists key = some b) ∧
        enterPass c g l pc =
          (g, { l with bin := b, sList := setUpListInfo (.list b) b, pc := pc }) := by
  unfold enterPass
  cases hkey : (g.heap (.elem l.n)).key with
  | none => exact .inl ⟨.segmentationFault, nofun, rfl⟩
  | some key =>
    cases hbin : getBin c.numLists key with
    | none => exact .inl ⟨.invalidKey, fun _ hk => Option.some.inj hk ▸ hbin, by simp only [hbin]⟩
    | some b => exact .inr ⟨b, ⟨key, rfl, hbin⟩, by simp only [hbin]⟩

variable {c} in
/-- **The cases of a step**, once for all invariants. -/
lemma act_moves {id : Fin c.numThreads} {elapsed : ℤ} {g g' : Shared} {l l' : Local}
    (h : act c id elapsed g l = some (g', l')) :
    g.exited = none ∧ Moves c id elapsed g l g' l' := by
  unfold act at h
  by_cases hex : g.exited.isSome = true
  · rw [if_pos hex] at h
    cases h
  rw [if_neg hex] at h
  refine ⟨by simpa using hex, ?_⟩
  cases hpc : l.pc with
  | insertLoop =>
    simp only [hpc] at h
    split at h
    · next hn =>
      rcases enterPass_cases (c := c) g l .insertCs with ⟨e, hbin, heq⟩ | ⟨b, hbin, heq⟩
      · obtain ⟨rfl, rfl⟩ := by simpa [heq] using h
        exact .exitEnter e (.inl hpc) hn hbin
      · obtain ⟨rfl, rfl⟩ := by simpa [heq] using h
        exact .enterInsert hpc hn hbin
    · next hn =>
      obtain ⟨rfl, rfl⟩ := by simpa using h
      exact .endInsert hpc hn
  | insertCs =>
    simp only [hpc] at h
    cases hins : sortedListInsert c.numElements g.heap l.sList.listObj (.elem l.n) with
    | none =>
      obtain ⟨rfl, rfl⟩ := by simpa [hins] using h
      exact .exitInsert _ hpc hins
    | some heap =>
      obtain ⟨rfl, rfl⟩ := by simpa [hins] using h
      exact .insert hpc hins
  | finishInserting =>
    obtain ⟨rfl, rfl⟩ := by simpa [hpc] using h
    exact .arrive hpc
  | waitInserting =>
    simp only [hpc] at h
    split at h
    · next hwait =>
      obtain ⟨rfl, rfl⟩ := by simpa using h
      exact .spinInserting hpc hwait
    · next hall =>
      obtain ⟨rfl, rfl⟩ := by simpa using h
      exact .startCheck hpc (not_not.mp hall)
  | checkLoop =>
    simp only [hpc] at h
    split at h
    · next hb =>
      split at h
      · next hzero =>
        obtain ⟨rfl, rfl⟩ := by simpa using h
        exact .claim hpc hb hzero
      · next hone =>
        obtain ⟨rfl, rfl⟩ := by simpa using h
        exact .pass hpc hb hone
    · next hb =>
      obtain ⟨rfl, rfl⟩ := by simpa using h
      exact .endLoop hpc hb
  | checkLength =>
    obtain ⟨rfl, rfl⟩ := by simpa [hpc] using h
    exact .length hpc
  | checkTotal =>
    obtain ⟨rfl, rfl⟩ := by simpa [hpc] using h
    exact .addCount hpc
  | checkEnd =>
    obtain ⟨rfl, rfl⟩ := by simpa [hpc] using h
    exact .endCheck hpc
  | deleteLoop =>
    simp only [hpc] at h
    split at h
    · next hn =>
      rcases enterPass_cases (c := c) g l .lookupCs with ⟨e, hbin, heq⟩ | ⟨b, hbin, heq⟩
      · obtain ⟨rfl, rfl⟩ := by simpa [heq] using h
        exact .exitEnter e (.inr hpc) hn hbin
      · obtain ⟨rfl, rfl⟩ := by simpa [heq] using h
        exact .enterDelete hpc hn hbin
    · next hn =>
      obtain ⟨rfl, rfl⟩ := by simpa using h
      exact .endDelete hpc hn
  | lookupCs =>
    simp only [hpc] at h
    cases hkey : (g.heap (.elem l.n)).key with
    | none =>
      obtain ⟨rfl, rfl⟩ := by simpa [hkey] using h
      exact .exitLookup _ hpc (by simp [hkey])
    | some key =>
      rcases hfound : sortedListLookup c.numElements g.heap l.sList.listObj key with
        _ | _ | matching
      · obtain ⟨rfl, rfl⟩ := by simpa [hkey, hfound] using h
        refine .exitLookup _ hpc fun key' matching hkey' => ?_
        rw [← Option.some.inj (hkey.symm.trans hkey'), hfound]
        simp
      · obtain ⟨rfl, rfl⟩ := by simpa [hkey, hfound] using h
        refine .exitLookup _ hpc fun key' matching hkey' => ?_
        rw [← Option.some.inj (hkey.symm.trans hkey'), hfound]
        simp
      · obtain ⟨rfl, rfl⟩ := by simpa [hkey, hfound] using h
        exact .lookup hpc hkey hfound
  | deleteCs =>
    simp only [hpc] at h
    split at h
    · next hcode =>
      obtain ⟨rfl, rfl⟩ := by simpa using h
      exact .exitDelete _ hpc hcode
    · next hcode =>
      obtain ⟨rfl, rfl⟩ := by simpa using h
      exact .unlink hpc hcode
  | clearNext =>
    obtain ⟨rfl, rfl⟩ := by simpa [hpc] using h
    exact .clearNext hpc
  | clearPrev =>
    obtain ⟨rfl, rfl⟩ := by simpa [hpc] using h
    exact .clearPrev hpc
  | finishDeleting =>
    obtain ⟨rfl, rfl⟩ := by simpa [hpc] using h
    exact .finish hpc
  | waitDeleting =>
    simp only [hpc] at h
    split at h
    · next hwait =>
      obtain ⟨rfl, rfl⟩ := by simpa using h
      exact .spinDeleting hpc hwait
    · next hall =>
      obtain ⟨rfl, rfl⟩ := by simpa using h
      exact .endWait hpc (not_not.mp hall)
  | addWait =>
    obtain ⟨rfl, rfl⟩ := by simpa [hpc] using h
    exact .addWait hpc
  | returned => simp [hpc] at h

abbrev St := State (Fin c.numThreads) Shared Local

/-- The state before the threads start, with the elements and empty heads in memory. -/
def init (heap : Heap Addr) : St c where
  shared := ⟨heap, 0, 0, fun _ => 0, 0, 0, fun _ => .fresh, none⟩
  locals id :=
    ⟨.insertLoop, startIndex c.numIterations id, 0, setUpListInfo (.list 0) 0, none, 0, 0⟩

/-- The memory the threads start from: empty heads, and elements whose keys start with a
visible character and are all different. -/
structure Initial (h : Heap Addr) : Prop where
  heads : ∀ b, h (.list b) = ⟨none, none, none⟩
  keys : ∀ e < c.numElements, ∃ k, (h (.elem e)).key = some k ∧ 32 ≤ deref k ∧ deref k ≤ 126
  distinct : ∀ e < c.numElements, ∀ e' < c.numElements,
    (h (.elem e)).key = (h (.elem e')).key → e = e'

/-! ### The invariant -/

/-- The elements the thread has in the sublists start here, -/
def Local.first (id : ℕ) (l : Local) : ℕ :=
  match l.pc with
  | .deleteLoop | .lookupCs | .deleteCs => l.n
  | .clearNext | .clearPrev => l.n + 1
  | .finishDeleting | .waitDeleting | .addWait | .returned => startIndex c.numIterations (id + 1)
  | _ => startIndex c.numIterations id

/-- and end before this one. -/
def Local.last (id : ℕ) (l : Local) : ℕ :=
  match l.pc with
  | .insertLoop | .insertCs => l.n
  | _ => startIndex c.numIterations (id + 1)

def Bounded (id : ℕ) (l : Local) : Prop :=
  match l.pc with
  | .insertLoop | .deleteLoop =>
    startIndex c.numIterations id ≤ l.n ∧ l.n ≤ startIndex c.numIterations (id + 1)
  | .insertCs | .lookupCs | .deleteCs | .clearNext | .clearPrev =>
    startIndex c.numIterations id ≤ l.n ∧ l.n < startIndex c.numIterations (id + 1)
  | _ => True

/-- The list object the next operation works on: the head of the bin of the thread's current
element, or that element. -/
def Targeted (bin : ℕ → ℕ) (l : Local) : Prop :=
  match l.pc with
  | .insertCs | .lookupCs => l.sList.listObj = .list (bin l.n)
  | .deleteCs | .clearNext | .clearPrev => l.sList.listObj = .elem l.n
  | _ => True

/-- What holds of the thread `id` by itself. -/
structure Good (bin : ℕ → ℕ) (id : ℕ) (history : ℕ → History) (l : Local) : Prop where
  bounded : Bounded c id l
  targeted : Targeted bin l
  owned : ∀ e, Owned c.numIterations id e →
    (history e = .inserted ↔ l.first c id ≤ e ∧ e < l.last c id)

/-- The elements have bins and different keys. -/
structure Keyed (key : ℕ → CString) (bin : ℕ → ℕ) : Prop where
  getBin_eq : ∀ e < c.numElements, getBin c.numLists (key e) = some (bin e)
  bin_lt : ∀ e < c.numElements, bin e < c.numLists
  distinct : ∀ e < c.numElements, ∀ e' < c.numElements, key e = key e' → e = e'

/-- What holds of the shared state. -/
structure Sound (key : ℕ → CString) (bin : ℕ → ℕ) (g : Shared) : Prop where
  holds : Holds c.numElements c.numLists key bin g.heap fun e => g.history e = .inserted
  running : g.exited = none

structure Inv (key : ℕ → CString) (bin : ℕ → ℕ) (s : St c) : Prop where
  sound : Sound c key bin s.shared
  good : ∀ id : Fin c.numThreads, Good c bin id s.shared.history (s.locals id)

variable {c} {key : ℕ → CString} {bin : ℕ → ℕ}

lemma enterPass_eq {g : Shared} {l : Local} (hk : Keyed c key bin) (hs : Sound c key bin g)
    (hn : l.n < c.numElements) (pc : Pc) :
    enterPass c g l pc = (g, { l with
      bin := bin l.n
      sList := setUpListInfo (.list (bin l.n)) (bin l.n)
      pc := pc }) := by
  simp [enterPass, hs.holds.keys _ hn, hk.getBin_eq _ hn]

/-- Only the memory, the history and the exit matter. -/
lemma Sound.congr {g g' : Shared} (hs : Sound c key bin g) (hheap : g'.heap = g.heap)
    (hhist : g'.history = g.history) (hex : g'.exited = none) : Sound c key bin g' where
  holds := by rw [hheap, hhist]; exact hs.holds
  running := hex

/-- The lookup of an element that is in its list finds it: no other has its key. -/
lemma Sound.lookup_eq {g : Shared} {n : ℕ} (hs : Sound c key bin g) (hk : Keyed c key bin)
    (hn : n < c.numElements) (hin : g.history n = .inserted) :
    sortedListLookup c.numElements g.heap (.list (bin n)) (key n) = some (some (.elem n)) := by
  obtain ⟨xs, hr, hm⟩ := hs.holds.lists _ (hk.bin_lt n hn)
  have hmem : n ∈ xs := (hm n).mpr ⟨hn, hin, rfl⟩
  rw [hs.holds.lookup hr hm]
  cases hf : xs.find? fun e => decide (key e = key n) with
  | none => exact absurd (List.find?_eq_none.mp hf n hmem) (by simp)
  | some e =>
    have hkey : key e = key n := by simpa using List.find?_some hf
    have he := ((hm e).mp (List.mem_of_find?_eq_some hf)).1
    rw [hk.distinct e he n hn hkey]
    rfl

section Step

variable {id : Fin c.numThreads} {elapsed : ℤ} {g g' : Shared} {l l' : Local}

/-- The thread is about to insert its first element that is not in its list, -/
lemma Good.not_inserted (hl : Good c bin id g.history l) (hpc : l.pc = .insertCs) :
    ¬ g.history l.n = .inserted := fun hin => by
  obtain ⟨hb, -, ho⟩ := hl
  rw [Bounded, hpc] at hb
  have hlast := ((ho l.n hb).mp hin).2
  simp [Local.last, hpc] at hlast

/-- it deletes one that is there, -/
lemma Good.inserted (hl : Good c bin id g.history l) (hpc : l.pc = .lookupCs ∨ l.pc = .deleteCs) :
    g.history l.n = .inserted := by
  obtain ⟨hb, -, ho⟩ := hl
  rcases hpc with hpc | hpc
  all_goals
    rw [Bounded, hpc] at hb
    exact (ho l.n hb).mpr (by simpa [Local.first, Local.last, hpc] using hb.2)

/-- and it clears the links of one that has left its list. -/
lemma Good.removed (hl : Good c bin id g.history l)
    (hpc : l.pc = .clearNext ∨ l.pc = .clearPrev) : ¬ g.history l.n = .inserted := fun hin => by
  obtain ⟨hb, -, ho⟩ := hl
  rcases hpc with hpc | hpc
  all_goals
    rw [Bounded, hpc] at hb
    have hfirst := ((ho l.n hb).mp hin).1
    simp [Local.first, hpc] at hfirst

/-- **The step of one thread** keeps what holds of the shared state and of the thread; the
history of the elements of the others is as before. -/
lemma act_good (hk : Keyed c key bin) (hs : Sound c key bin g) (hl : Good c bin id g.history l)
    (h : act c id elapsed g l = some (g', l')) :
    Sound c key bin g' ∧ Good c bin id g'.history l' ∧
      ∀ e, ¬ Owned c.numIterations id e → g'.history e = g.history e := by
  obtain ⟨-, hmoves⟩ := act_moves h
  have hstart := startIndex_succ c.numIterations id
  have hend : startIndex c.numIterations (id + 1) ≤ c.numElements := startIndex_le id.2
  have hfresh := hl.not_inserted
  have hin := hl.inserted
  have hout := hl.removed
  obtain ⟨hb, ht, ho⟩ := hl
  obtain ⟨pc, n, b, sList, matching, count, wait⟩ := l
  cases hmoves with
  | exitEnter e hpc hn hbin =>
    have hlt : n < c.numElements := (le_endIndex_iff.mp hn).trans_le hend
    cases (hbin _ (hs.holds.keys n hlt)).symm.trans (hk.getBin_eq n hlt)
  | exitInsert e hpc hins =>
    have hfresh := hfresh hpc
    cases hpc
    have hn : n < c.numElements := hb.2.trans_le hend
    have htarget : sList.listObj = .list (bin n) := ht
    obtain ⟨heap, hins', -⟩ := hs.holds.insert hn (hk.bin_lt n hn) hfresh
    dsimp only at hins
    rw [htarget, hins'] at hins
    cases hins
  | exitLookup e hpc hfound =>
    have hin := hin (.inl hpc)
    cases hpc
    have hn : n < c.numElements := hb.2.trans_le hend
    have htarget : sList.listObj = .list (bin n) := ht
    have hlook := hs.lookup_eq hk hn hin
    rw [← htarget] at hlook
    exact absurd hlook (hfound _ _ (hs.holds.keys n hn))
  | exitDelete e hpc hcode =>
    have hin := hin (.inr hpc)
    cases hpc
    have hn : n < c.numElements := hb.2.trans_le hend
    have htarget : sList.listObj = .elem n := ht
    obtain ⟨heap, hdel, -⟩ := hs.holds.delete hn (hk.bin_lt n hn) hin
    dsimp only at hcode
    rw [htarget, hdel] at hcode
    cases hcode
  | enterInsert hpc hn hbin | enterDelete hpc hn hbin =>
    cases hpc
    have hlt : n < startIndex c.numIterations (id + 1) := le_endIndex_iff.mp hn
    obtain ⟨key', hkey, hbin⟩ := hbin
    obtain rfl := Option.some.inj (hkey.symm.trans (hs.holds.keys n (hlt.trans_le hend)))
    obtain rfl := Option.some.inj (hbin.symm.trans (hk.getBin_eq n (hlt.trans_le hend)))
    exact ⟨hs, ⟨⟨hb.1, hlt⟩, rfl, ho⟩, fun _ _ => rfl⟩
  | endInsert hpc hn | endDelete hpc hn =>
    cases hpc
    obtain rfl := eq_of_endIndex_lt hn hb.2
    exact ⟨hs, ⟨trivial, trivial, ho⟩, fun _ _ => rfl⟩
  | insert hpc hins =>
    have hfresh := hfresh hpc
    cases hpc
    obtain ⟨hb1, hb2⟩ : Owned c.numIterations id n := hb
    have hn : n < c.numElements := hb2.trans_le hend
    have htarget : sList.listObj = .list (bin n) := ht
    obtain ⟨heap, hins', hholds⟩ := hs.holds.insert hn (hk.bin_lt n hn) hfresh
    dsimp only at hins
    rw [htarget] at hins
    obtain rfl := Option.some.inj (hins.symm.trans hins')
    refine ⟨⟨hholds.congr fun e _ => update_inserted_iff, hs.running⟩,
      ⟨⟨by dsimp only; omega, hb2⟩, trivial, fun e hown => ?_⟩, fun e hne => ?_⟩
    · rw [update_inserted_iff, ho e hown]
      simp only [Local.first, Local.last]
      omega
    · exact Function.update_of_ne (by rintro rfl; exact hne ⟨hb1, hb2⟩) _ _
  | lookup hpc hkey hfound =>
    have hin := hin (.inl hpc)
    cases hpc
    have hn : n < c.numElements := hb.2.trans_le hend
    have htarget : sList.listObj = .list (bin n) := ht
    have hlook := hs.lookup_eq hk hn hin
    obtain rfl := Option.some.inj (hkey.symm.trans (hs.holds.keys n hn))
    dsimp only at hfound
    rw [htarget, hlook] at hfound
    obtain rfl := Option.some.inj (Option.some.inj hfound)
    exact ⟨hs, ⟨hb, rfl, ho⟩, fun _ _ => rfl⟩
  | unlink hpc hcode =>
    have hin := hin (.inr hpc)
    cases hpc
    obtain ⟨hb1, hb2⟩ : Owned c.numIterations id n := hb
    have hn : n < c.numElements := hb2.trans_le hend
    have htarget : sList.listObj = .elem n := ht
    obtain ⟨heap, hdel, hholds⟩ := hs.holds.delete hn (hk.bin_lt n hn) hin
    dsimp only
    rw [htarget, hdel]
    refine ⟨⟨hholds.congr fun e _ => update_deleted_iff, hs.running⟩,
      ⟨⟨hb1, hb2⟩, rfl, fun e hown => ?_⟩, fun e hne => ?_⟩
    · dsimp only
      rw [update_deleted_iff, ho e hown]
      simp only [Local.first, Local.last]
      omega
    · exact Function.update_of_ne (by rintro rfl; exact hne ⟨hb1, hb2⟩) _ _
  | clearNext hpc =>
    have hout := hout (.inl hpc)
    cases hpc
    have htarget : sList.listObj = .elem n := ht
    dsimp only
    rw [htarget]
    exact ⟨⟨hs.holds.setNext hout none, hs.running⟩, ⟨hb, htarget, ho⟩, fun _ _ => rfl⟩
  | clearPrev hpc =>
    have hout := hout (.inr hpc)
    cases hpc
    obtain ⟨hb1, hb2⟩ : Owned c.numIterations id n := hb
    have htarget : sList.listObj = .elem n := ht
    dsimp only
    rw [htarget]
    exact ⟨⟨hs.holds.setPrev hout none, hs.running⟩,
      ⟨⟨by dsimp only; omega, hb2⟩, trivial, ho⟩, fun _ _ => rfl⟩
  | endCheck hpc =>
    cases hpc
    exact ⟨hs, ⟨⟨le_rfl, by dsimp only; omega⟩, trivial, ho⟩, fun _ _ => rfl⟩
  | arrive hpc | claim hpc | addCount hpc | finish hpc | addWait hpc =>
    cases hpc
    exact ⟨hs.congr rfl rfl hs.running, ⟨trivial, trivial, ho⟩, fun _ _ => rfl⟩
  | spinInserting hpc | startCheck hpc | pass hpc | endLoop hpc | length hpc | spinDeleting hpc
  | endWait hpc =>
    cases hpc
    exact ⟨hs, ⟨trivial, trivial, ho⟩, fun _ _ => rfl⟩

end Step

lemma inv_step (hk : Keyed c key bin) (s : St c) (a : Fin c.numThreads × ℤ) (s' : St c)
    (hi : Inv c key bin s) (h : step (act c) s a = some s') : Inv c key bin s' := by
  obtain ⟨t, elapsed⟩ := a
  obtain ⟨g', l', hact, rfl⟩ := step_cases h
  obtain ⟨hsound, hgood, hother⟩ := act_good hk hi.sound (hi.good t) hact
  refine ⟨hsound, ?_⟩
  refine forall_update (P := fun (id : Fin c.numThreads) l => Good c bin id g'.history l)
    hgood fun u hu => ?_
  -- the elements of another thread are not among those of the thread that moved
  obtain ⟨hb, ht, ho⟩ := hi.good u
  refine ⟨hb, ht, fun e he => ?_⟩
  rw [hother e fun hown => hu (Fin.ext (owned_unique he hown))]
  exact ho e he

variable {h : Heap Addr}

/-- The bin of an element, from its key in the memory at the start. -/
def binOf (c : Config) (h : Heap Addr) (e : ℕ) : ℕ :=
  (getBin c.numLists (h.keyOf (.elem e))).getD 0

lemma Initial.key_eq (hi : Initial c h) {e : ℕ} (he : e < c.numElements) :
    (h (.elem e)).key = some (h.keyOf (.elem e)) := by
  obtain ⟨k, hk, -⟩ := hi.keys e he
  rw [Heap.keyOf, hk, Option.getD_some]

lemma Initial.getBin_eq (hi : Initial c h) (hL : 0 < c.numLists) {e : ℕ}
    (he : e < c.numElements) :
    getBin c.numLists (h.keyOf (.elem e)) = some (binOf c h e) ∧ binOf c h e < c.numLists := by
  obtain ⟨k, hk, -, hhi⟩ := hi.keys e he
  have hkey : h.keyOf (.elem e) = k := by rw [Heap.keyOf, hk, Option.getD_some]
  obtain ⟨b, hb, hlt⟩ := getBin_isSome hL hhi
  have hbin : binOf c h e = b := by rw [binOf, hkey, hb, Option.getD_some]
  rw [hkey, hbin]
  exact ⟨hb, hlt⟩

lemma Initial.keyed (hi : Initial c h) (hL : 0 < c.numLists) :
    Keyed c (fun e => h.keyOf (.elem e)) (binOf c h) where
  getBin_eq _ he := (hi.getBin_eq hL he).1
  bin_lt _ he := (hi.getBin_eq hL he).2
  distinct e he e' he' hk := hi.distinct e he e' he' (by
    rw [hi.key_eq he, hi.key_eq he']
    exact congrArg some hk)

lemma inv_init (hi : Initial c h) : Inv c (fun e => h.keyOf (.elem e)) (binOf c h) (init c h) where
  sound := by
    refine ⟨⟨fun e he => hi.key_eq he, fun b _ => ⟨[], ?_, fun e => ?_⟩⟩, rfl⟩
    · exact ⟨by simp [Chain.Linked, Heap.links, init, hi.heads], by simp, by simp, by simp⟩
    · simp [init]
  good id := by
    have := startIndex_succ c.numIterations id
    refine ⟨⟨le_rfl, by dsimp only [init]; omega⟩, trivial, fun e he => ?_⟩
    have := he.1
    simp only [init, Local.first, Local.last, reduceCtorEq, false_iff]
    omega

/-! ### The result -/

/-- **Safety of the partitioned list.** Under a lock, with different keys that start with a
visible character, in every state of every interleaving each sublist is a well formed sorted
chain of exactly the elements of its bin that are inserted and not yet deleted. No lookup
comes back empty and no deletion finds corrupted links, either of which ends the process; and
when all threads have returned, the sublists are empty. -/
theorem sublists_hold_inserted (c : Config) (_hsync : c.syncOpt ≠ .unsynced)
    (hL : 0 < c.numLists) (h : Heap Addr) (hi : Initial c h)
    (schedule : List (Fin c.numThreads × ℤ)) (s : St c)
    (hrun : run (step (act c)) (init c h) schedule = some s) :
    s.shared.exited = none ∧
    (∀ b < c.numLists, ∃ xs : List ℕ, Represents s.shared.heap (.list b) (xs.map .elem) ∧
      ∀ e, e ∈ xs ↔ e < c.numElements ∧ s.shared.history e = .inserted ∧
        (h (.elem e)).key.bind (getBin c.numLists) = some b) ∧
    ((∀ id, (s.locals id).pc = .returned) →
      ∀ b < c.numLists, Represents s.shared.heap (.list b) []) := by
  have hinv := invariant (inv_step (hi.keyed hL)) (inv_init hi) hrun
  refine ⟨hinv.sound.running, fun b hb => ?_, fun hall b hb => ?_⟩
  · obtain ⟨xs, hr, hm⟩ := hinv.sound.holds.lists b hb
    refine ⟨xs, hr, fun e => (hm e).trans (and_congr_right fun he => and_congr_right fun _ => ?_)⟩
    rw [hi.key_eq he, Option.bind_some, (hi.getBin_eq hL he).1, Option.some.injEq]
  · obtain ⟨xs, hr, hm⟩ := hinv.sound.holds.lists b hb
    have hempty : xs = [] := by
      refine List.eq_nil_iff_forall_not_mem.mpr fun e he => ?_
      obtain ⟨hlt, hin, -⟩ := (hm e).mp he
      -- the thread of the element has returned: nothing is left of its range
      obtain ⟨id, hown⟩ := exists_owner hlt
      have hrange := ((hinv.good id).owned e hown).mp hin
      simp only [Local.first, Local.last, hall id] at hrange
      omega
    rwa [hempty] at hr

def sampleConfig : Config := ⟨2, 1, 2, .mutex⟩

def sampleHeap : Heap Addr
  | .list _ => ⟨none, none, none⟩
  | .elem 0 => ⟨none, none, some (.ofBuffer [98])⟩
  | .elem _ => ⟨none, none, some (.ofBuffer [65])⟩

lemma sampleHeap_initial : Initial sampleConfig sampleHeap where
  heads _ := rfl
  keys e he := by
    rcases e with - | e
    · exact ⟨.ofBuffer [98], rfl, by decide, by decide⟩
    · exact ⟨.ofBuffer [65], rfl, by decide, by decide⟩
  distinct e he e' he' hk := by
    have h2 : sampleConfig.numElements = 2 := rfl
    rcases e with - | e <;> rcases e' with - | e'
    · rfl
    · exact absurd hk (by simp [sampleHeap, CString.ofBuffer])
    · exact absurd hk (by simp [sampleHeap, CString.ofBuffer])
    · omega

/-- The two threads in turns, to the end. -/
def sampleSchedule : List (Fin sampleConfig.numThreads × ℤ) :=
  (List.replicate 20 [(ofTwo 1, 3), (ofTwo 0, 4)]).flatten

theorem sublists_hold_inserted_sample :
    ∃ s, run (step (act sampleConfig)) (init sampleConfig sampleHeap) sampleSchedule = some s ∧
      s.shared.exited = none ∧ ∀ b < 2, Represents s.shared.heap (.list b) [] := by
  have hall : ((run (step (act sampleConfig)) (init sampleConfig sampleHeap) sampleSchedule).map
      fun s => decide (∀ t : Fin 2, (s.locals t).pc = .returned)) = some true := by decide +kernel
  rw [Option.map_eq_some_iff] at hall
  obtain ⟨s, hs, hret⟩ := hall
  have hsafe := sublists_hold_inserted sampleConfig (by decide) (by decide) sampleHeap
    sampleHeap_initial sampleSchedule s hs
  exact ⟨s, hs, hsafe.1, hsafe.2.2 (of_decide_eq_true hret)⟩

end LowLevelTasks.Lab2ListB
