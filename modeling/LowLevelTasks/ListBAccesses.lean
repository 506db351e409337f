import LowLevelTasks.CriticalSections
import LowLevelTasks.ListAccesses
import LowLevelTasks.ListBRuns
import LowLevelTasks.LockBalance

/-!
The threads of `lab2_list.c` in project 2b, one access to the list at a time.

A thread takes the lock of a sublist with `set_lock`, makes the accesses of the operation one by
one and gives the lock back; a thread that clears the links of an element it has deleted does so
without a lock. Between any two accesses the other threads may act. The sections under `mut` are
one step, as before. A deletion that returns 1 keeps its lock, and a segmentation fault ends the
process.
-/

namespace LowLevelTasks.ListBAccesses

open LowLevelTasks.Runs LowLevelTasks.Threads LowLevelTasks.Strings LowLevelTasks.SortedList
open LowLevelTasks.Sublists LowLevelTasks.ElementLists LowLevelTasks.Lab2ListB
open LowLevelTasks.MemoryPrograms LowLevelTasks.CriticalSections LowLevelTasks.ListAccesses
open LowLevelTasks.ListBRuns (Running running_init running_step)

/-- What a thread has found out by the accesses of a step. -/
inductive Answer
  | nothing
  | key (k : CString)
  | code (n : ℕ)
  | found (matching : Option Addr)
  | count (n : ℤ)
  deriving DecidableEq

variable (c : Config)

/-- `list_elements[n].key`, for a function that looks at its characters. -/
def elementKey (n : ℕ) : Access Addr CString := do
  Prog.check (← getKey (.elem n))

/-- The accesses of the next step to the nodes of the lists. -/
def body (id : Fin c.numThreads) (l : Local) : Option (Access Addr Answer) :=
  match l.pc with
  | .insertLoop | .deleteLoop =>
    if (l.n : ℤ) ≤ endIndex c.numIterations id then some do
      let key ← elementKey l.n
      pure (.key key)
    else some (pure .nothing)
  | .insertCs => some do
    ListAccesses.insert c.numElements l.sList.listObj (.elem l.n)
    pure .nothing
  | .checkLength => some do
    let count ← length c.numElements l.sList.listObj
    pure (.count count)
  | .lookupCs => some do
    let key ← elementKey l.n
    let matching ← lookup c.numElements l.sList.listObj key
    pure (.found matching)
  | .deleteCs => some do
    let code ← delete l.sList.listObj
    pure (.code code)
  | .clearNext => some do
    putNext l.sList.listObj none
    pure .nothing
  | .clearPrev => some do
    putPrev l.sList.listObj none
    pure .nothing
  | .returned => none
  | _ => some (pure .nothing)

/-- The sublist whose lock the next step takes, if locks are taken. -/
def Local.lockedList (l : Local) : Option ℕ :=
  match l.pc with
  | .insertCs | .checkLength | .lookupCs | .deleteCs => some l.sList.bin
  | _ => none

def lock (l : Local) : Option ℕ :=
  if c.syncOpt = .unsynced then none else Local.lockedList l

/-- The head of a pass through a loop, once the key is known. -/
def enter (g : Shared) (l : Local) (pc : Pc) (key : CString) : Shared × Local :=
  match getBin c.numLists key with
  | none => (g.exit .invalidKey, l)
  | some bin => (g, { l with bin := bin, sList := setUpListInfo (.list bin) bin, pc := pc })

/-- What follows from an answer; a step that makes no accesses is that of `act`. -/
def proceed (id : Fin c.numThreads) (elapsed : ℤ) (answer : Answer) (g : Shared) (l : Local) :
    Shared × Local :=
  match l.pc with
  | .insertLoop =>
    match answer with
    | .key key => enter c g l .insertCs key
    | _ => (g, { l with pc := .finishInserting })
  | .insertCs =>
    ({ g with history := Function.update g.history l.n .inserted },
      { l with
        sList := { l.sList with timer := lockTime c elapsed }
        waitPerThreadTime := l.waitPerThreadTime + lockTime c elapsed
        n := l.n + 1
        pc := .insertLoop })
  | .checkLength =>
    match answer with
    | .count count =>
      (g, { l with
        sList := { l.sList with timer := lockTime c elapsed }
        count := count
        pc := .checkTotal })
    | _ => (g, l)
  | .deleteLoop =>
    match answer with
    | .key key => enter c g l .lookupCs key
    | _ => (g, { l with pc := .finishDeleting })
  | .lookupCs =>
    match answer with
    | .found (some matching) =>
      (g, { l with
        matching := some matching
        waitPerThreadTime := l.waitPerThreadTime + lockTime c elapsed
        sList := setUpListInfo matching l.bin
        pc := .deleteCs })
    | _ => (g.exit .noMatch, l)
  | .deleteCs =>
    if answer = .code 1 then (g.exit .corrupted, l)
    else
      let history := match l.sList.listObj with
        | .elem m => Function.update g.history m .deleted
        | .list _ => g.history
      ({ g with history := history },
        { l with sList := { l.sList with timer := lockTime c elapsed }, pc := .clearNext })
  | .clearNext => (g, { l with pc := .clearPrev })
  | .clearPrev =>
    (g, { l with
      waitPerThreadTime := l.waitPerThreadTime + l.sList.timer
      n := l.n + 1
      pc := .deleteLoop })
  | _ => (act c id elapsed g l).getD (g, l)

def finish (id : Fin c.numThreads) (elapsed : ℤ) (result : Option Answer) (g : Shared)
    (l : Local) : Shared × Local :=
  match result with
  | none => (g.exit .segmentationFault, l)
  | some answer => proceed c id elapsed answer g l

/-- `release_lock` is not called where the deletion returns 1. -/
def releases (l : Local) (result : Option Answer) : Bool :=
  !decide (l.pc = .deleteCs ∧ result = some (.code 1))

def Shared.withHeap (g : Shared) (h : Heap Addr) : Shared := { g with heap := h }

@[simp] lemma withHeap_self (g : Shared) : Shared.withHeap g g.heap = g := rfl

lemma finish_withHeap (id : Fin c.numThreads) (elapsed : ℤ) (result : Option Answer)
    (g : Shared) (h : Heap Addr) (l : Local) :
    finish c id elapsed result (Shared.withHeap g h) l =
      (Shared.withHeap (finish c id elapsed result g l).1 h,
        (finish c id elapsed result g l).2) := by
  cases result with
  | none => rfl
  | some answer =>
    obtain ⟨pc, n, b, sList, matching, count, wait⟩ := l
    unfold finish proceed
    cases pc with
    | insertCs | clearNext | clearPrev => rfl
    | insertLoop | deleteLoop =>
      cases answer with
      | key k =>
        dsimp only [enter]
        cases getBin c.numLists k <;> rfl
      | _ => rfl
    | checkLength => cases answer <;> rfl
    | lookupCs =>
      cases answer with
      | found matching => cases matching <;> rfl
      | _ => rfl
    | deleteCs => dsimp only; split <;> rfl
    | finishInserting | checkTotal | checkEnd | finishDeleting | addWait | returned =>
      by_cases hex : g.exited.isSome <;> simp [act, Shared.withHeap, hex]
    | waitInserting =>
      by_cases hex : g.exited.isSome <;>
        by_cases hall : g.threadsFinishedInserting = c.numThreads <;>
          simp [act, Shared.withHeap, hex, hall]
    | checkLoop =>
      by_cases hex : g.exited.isSome <;> by_cases hb : b < c.numLists <;>
        by_cases hzero : g.listCount b = 0 <;> simp [act, Shared.withHeap, hex, hb, hzero]
    | waitDeleting =>
      by_cases hex : g.exited.isSome <;>
        by_cases hall : g.threadsFinishedDeleting = c.numThreads <;>
          simp [act, Shared.withHeap, hex, hall]

/-- The threads with their locks. -/
def sections : Sections (Fin c.numThreads) ℤ Shared Local ℕ Answer (Value Addr) where
  memory g := cells g.heap
  store g m := Shared.withHeap g (heapOf m)
  stopped g := g.exited.isSome
  body := body c
  lock := lock c
  spins := decide (c.syncOpt = .spinlock)
  finish := finish c
  releases := releases
  memory_store _ m := cells_heapOf m
  store_memory _ := rfl
  store_store _ _ _ := rfl
  stopped_store _ _ := rfl
  finish_store i elapsed r g m l := finish_withHeap c i elapsed r g (heapOf m) l

variable {c} {id : Fin c.numThreads} {elapsed : ℤ} {g : Shared} {l : Local}

lemma exec_elementKey {R : Type} (n : ℕ) (f : CString → Access Addr R) (h : Heap Addr) :
    (elementKey n >>= f).exec (cells h) =
      match (h (.elem n)).key with
      | none => (cells h, none)
      | some key => (f key).exec (cells h) := by
  cases hk : (h (.elem n)).key with
  | none => exact Prog.exec_bind_none (by rw [elementKey, exec_getKey_bind, hk]; rfl) f
  | some key => exact Prog.exec_bind_some (by rw [elementKey, exec_getKey_bind, hk]; rfl) f

/-- A deletion that is refused has written nothing. -/
lemma deleteUnlink_of_corrupted {h : Heap Addr} {element : Addr}
    (hcode : (deleteUnlink h element).2 = 1) : deleteUnlink h element = (h, 1) := by
  rcases LockBalance.deleteUnlink_cases h element with ⟨-, hzero⟩ | ⟨-, hone⟩
  · omega
  · exact hone

/-- **A step without interference** is a step of `act`. -/
lemma atomic_eq (id : Fin c.numThreads) (elapsed : ℤ) (g : Shared) (l : Local) :
    (sections c).atomic id elapsed g l = act c id elapsed g l := by
  cases hgo : g.exited with
  | some e => simp [Sections.atomic, sections, act, hgo]
  | none =>
    have hstopped : (sections c).stopped g = false := by simp [sections, hgo]
    rw [Sections.atomic, hstopped, if_neg Bool.false_ne_true, act, hgo, Option.isSome_none,
      if_neg Bool.false_ne_true]
    obtain ⟨pc, n, b, sList, matching, count, wait⟩ := l
    cases pc with
    | insertLoop | deleteLoop =>
      by_cases hn : (n : ℤ) ≤ endIndex c.numIterations id
      · cases hk : (g.heap (.elem n)).key with
        | none => simp [sections, body, hn, exec_elementKey, hk, enterPass, finish]
        | some key =>
          cases hb : getBin c.numLists key <;>
            simp [sections, body, hn, exec_elementKey, hk, enterPass, finish, proceed, enter, hb]
      · simp [sections, body, hn, finish, proceed]
    | insertCs =>
      have hexec : (insert c.numElements sList.listObj (.elem n)).exec (cells g.heap) = _ :=
        exec_insert
      cases hins : sortedListInsert c.numElements g.heap sList.listObj (.elem n) with
      | none =>
        rw [hins] at hexec
        simp [sections, body, Prog.exec_bind_none hexec, finish]
      | some heap =>
        rw [hins] at hexec
        simp [sections, body, Prog.exec_bind_some hexec, finish, proceed, Shared.withHeap, hgo]
    | checkLength =>
      have hexec : (length c.numElements sList.listObj).exec (cells g.heap) = _ := exec_length
      simp [sections, body, Prog.exec_bind_some hexec, finish, proceed]
    | lookupCs =>
      cases hk : (g.heap (.elem n)).key with
      | none => simp [sections, body, exec_elementKey, hk, finish]
      | some key =>
        have hexec : (lookup c.numElements sList.listObj key).exec (cells g.heap) = _ :=
          exec_lookup key
        cases hfound : sortedListLookup c.numElements g.heap sList.listObj key with
        | none =>
          rw [hfound] at hexec
          simp [sections, body, exec_elementKey, hk, Prog.exec_bind_none hexec, finish, hfound]
        | some matching' =>
          rw [hfound] at hexec
          cases matching' <;>
            simp [sections, body, exec_elementKey, hk, Prog.exec_bind_some hexec, finish, hfound,
              proceed]
    | deleteCs =>
      have hexec : (delete sList.listObj).exec (cells g.heap) = _ := exec_delete
      by_cases hcode : (deleteUnlink g.heap sList.listObj).2 = 1
      · rw [deleteUnlink_of_corrupted hcode] at hexec
        simp [sections, body, Prog.exec_bind_some hexec, finish, proceed, hcode]
      · cases hobj : sList.listObj <;> rw [hobj] at hexec hcode <;>
          simp [sections, body, Prog.exec_bind_some hexec, finish, proceed, hcode, hobj,
            Shared.withHeap, hgo]
    | clearNext | clearPrev => simp [sections, body, finish, proceed, Shared.withHeap, hgo]
    | returned => rfl
    | finishInserting | checkTotal | checkEnd | finishDeleting | addWait =>
      simp [sections, body, finish, proceed, act, hgo]
    | waitInserting =>
      by_cases hall : g.threadsFinishedInserting = c.numThreads <;>
        simp [sections, body, finish, proceed, act, hgo, hall]
    | checkLoop =>
      by_cases hb : b < c.numLists <;> by_cases hzero : g.listCount b = 0 <;>
        simp [sections, body, finish, proceed, act, hgo, hb, hzero]
    | waitDeleting =>
      by_cases hall : g.threadsFinishedDeleting = c.numThreads <;>
        simp [sections, body, finish, proceed, act, hgo, hall]

/-! ### Who touches what -/

/-- The element whose links a thread writes although it is in no list. -/
def Local.ownElement (l : Local) : Option ℕ :=
  match l.pc with
  | .insertCs | .clearNext | .clearPrev => some l.n
  | _ => none

variable (c) in
/-- The head of the sublist `b` and the elements in it. -/
def listNodes (bin : ℕ → ℕ) (history : ℕ → History) (b : ℕ) : Set Addr :=
  {a | match a with
    | .list b' => b' = b
    | .elem e => e < c.numElements ∧ history e = .inserted ∧ bin e = b}

variable (c) in
/-- The nodes whose links the next step of a thread is about. -/
def touched (bin : ℕ → ℕ) (history : ℕ → History) (l : Local) : Set Addr :=
  {a | (∃ n, Local.ownElement l = some n ∧ a = .elem n) ∨
    ∃ b, Local.lockedList l = some b ∧ a ∈ listNodes c bin history b}

variable (c) in
/-- The lock that a thread takes is the one of the list it works on. -/
def Guarded (bin : ℕ → ℕ) (l : Local) : Prop :=
  match l.pc with
  | .insertCs | .lookupCs => l.sList.bin = bin l.n ∧ l.bin = bin l.n
  | .deleteCs => l.sList.bin = bin l.n
  | .checkLength =>
    l.bin < c.numLists ∧ l.sList.bin = l.bin ∧ l.sList.listObj = .list l.bin
  | _ => True

/-- What holds of every state of the atomic system. -/
structure Safe (key : ℕ → CString) (bin : ℕ → ℕ) (S : St c) : Prop where
  running : Running key bin S
  guarded : ∀ id, Guarded c bin (S.locals id)

variable {key : ℕ → CString} {bin : ℕ → ℕ} {history : ℕ → History} {l' : Local} {g' : Shared}
  {S S' : St c} {id' : Fin c.numThreads}

lemma act_guarded (hk : Keyed c key bin) (hs : Sound c key bin g)
    (hl : Good c bin id g.history l) (hguard : Guarded c bin l)
    (h : act c id elapsed g l = some (g', l')) : Guarded c bin l' := by
  have hend : startIndex c.numIterations (id + 1) ≤ c.numElements := startIndex_le id.2
  have hrunning := (act_good hk hs hl h).1.running
  obtain ⟨pc, n, b, sList, matching, count, wait⟩ := l
  cases (act_moves h).2 with
  | exitEnter | exitInsert | exitLookup | exitDelete => cases hrunning
  | enterInsert hpc hn hbin | enterDelete hpc hn hbin =>
    obtain ⟨k, hkey, hbin⟩ := hbin
    have hlt : n < c.numElements := (le_endIndex_iff.mp hn).trans_le hend
    rw [hs.holds.keys n hlt, Option.some.injEq] at hkey
    rw [← hkey, hk.getBin_eq n hlt, Option.some.injEq] at hbin
    exact ⟨hbin.symm, hbin.symm⟩
  | claim hpc hb => exact ⟨hb, rfl, rfl⟩
  | lookup hpc =>
    obtain rfl := hpc
    exact hguard.2
  | _ => trivial

lemma safe_step (hk : Keyed c key bin) {a : Fin c.numThreads × ℤ} (hS : Safe key bin S)
    (h : step (act c) S a = some S') : Safe key bin S' := by
  have hrunning := (running_step hk S a S' hS.running h).1
  obtain ⟨t, elapsed⟩ := a
  obtain ⟨g', l', hact, rfl⟩ := step_cases h
  have hinv := hS.running.counting.inv
  have hguarded := act_guarded hk hinv.sound (hinv.good t) (hS.guarded t) hact
  exact ⟨hrunning, forall_update hguarded fun u _ => hS.guarded u⟩

/-- The element that a thread writes outside the lists is its own, and in none. -/
lemma own_spec (hl : Good c bin id history l) {n : ℕ} (hn : Local.ownElement l = some n) :
    Owned c.numIterations id n ∧ history n ≠ .inserted := by
  obtain ⟨hb, -, ho⟩ := hl
  obtain ⟨pc, n', b, sList, matching, count, wait⟩ := l
  cases pc with
  | insertCs | clearNext | clearPrev =>
    obtain rfl : n' = n := by simpa [Local.ownElement] using hn
    refine ⟨hb, fun hin => ?_⟩
    have := (ho n' hb).mp hin
    simp [Local.first, Local.last] at this
  | _ => cases hn

/-- A node is in one list only. -/
lemma eq_of_mem_listNodes {history : ℕ → History} {a : Addr} {b b' : ℕ}
    (ha : a ∈ listNodes c bin history b) (ha' : a ∈ listNodes c bin history b') : b = b' := by
  cases a with
  | list b₀ => exact ha.symm.trans ha'
  | elem e => exact ha.2.2.symm.trans ha'.2.2

/-- Threads under different locks touch different nodes. -/
lemma disjoint_touched (hsync : c.syncOpt ≠ .unsynced) (hS : Safe key bin S) (hne : id ≠ id')
    (hapart : (sections c).Apart (S.locals id) (S.locals id')) :
    ∀ a ∈ touched c bin S.shared.history (S.locals id),
      a ∉ touched c bin S.shared.history (S.locals id') := by
  have hgood := hS.running.counting.inv.good
  rintro a (⟨n, hn, rfl⟩ | ⟨b, hb, ha⟩) (⟨n', hn', ha'⟩ | ⟨b', hb', ha'⟩)
  · obtain rfl : n = n' := Addr.elem_injective ha'
    exact hne (Fin.ext (owned_unique (own_spec (hgood id) hn).1 (own_spec (hgood id') hn').1))
  · exact (own_spec (hgood id) hn).2 ha'.2.1
  · subst ha'
    exact (own_spec (hgood id') hn').2 ha.2.1
  · obtain rfl := eq_of_mem_listNodes ha ha'
    refine hapart b ?_ ?_
    · exact (if_neg hsync).trans hb
    · exact (if_neg hsync).trans hb'

/-- The elements of a list change under its lock only. -/
lemma act_history (hl : Good c bin id g.history l) (hguard : Guarded c bin l)
    (h : act c id elapsed g l = some (g', l')) {e : ℕ} (he : g'.history e ≠ g.history e) :
    Local.lockedList l = some (bin e) := by
  obtain ⟨-, ht, -⟩ := hl
  obtain ⟨pc, n, b, sList, matching, count, wait⟩ := l
  cases (act_moves h).2 with
  | insert hpc hins =>
    obtain rfl := hpc
    obtain rfl : e = n := by
      by_contra hne
      exact he (Function.update_of_ne hne _ _)
    exact congrArg some hguard.1
  | unlink hpc hcode =>
    obtain rfl := hpc
    have htarget : sList.listObj = .elem n := ht
    obtain rfl : e = n := by
      by_contra hne
      refine he ?_
      dsimp only
      rw [htarget]
      exact Function.update_of_ne hne _ _
    exact congrArg some hguard
  | _ => exact absurd rfl he

lemma listNodes_congr {history' : ℕ → History} {b : ℕ}
    (hsame : ∀ e, bin e = b → history' e = history e) :
    listNodes c bin history' b = listNodes c bin history b := by
  ext a
  cases a with
  | list b' => rfl
  | elem e =>
    refine and_congr_right fun _ => and_congr_left fun hb => ?_
    rw [hsame e hb]

/-- What a thread touches stays the same while others act under other locks. -/
lemma touched_stable (hsync : c.syncOpt ≠ .unsynced) (hS : Safe key bin S)
    (hapart : (sections c).Apart (S.locals id) (S.locals id'))
    (h : act c id elapsed S.shared (S.locals id) = some (g', l')) :
    touched c bin g'.history (S.locals id') = touched c bin S.shared.history (S.locals id') := by
  have hlist : ∀ b, Local.lockedList (S.locals id') = some b →
      listNodes c bin g'.history b = listNodes c bin S.shared.history b := by
    intro b hb
    refine listNodes_congr fun e he => ?_
    by_contra hne
    have hlock := act_history (hS.running.counting.inv.good id) (hS.guarded id) h hne
    rw [he] at hlock
    exact hapart b ((if_neg hsync).trans hlock) ((if_neg hsync).trans hb)
  ext a
  refine or_congr Iff.rfl (exists_congr fun b => and_congr_right fun hb => ?_)
  rw [hlist b hb]

lemma listNodes_eq {b : ℕ} {xs : List ℕ}
    (hm : Members c.numElements bin (fun e => history e = .inserted) b xs) :
    listNodes c bin history b = {a | a ∈ Addr.list b :: xs.map Addr.elem} := by
  ext a
  cases a with
  | list b' => simp [listNodes]
  | elem e =>
    refine (hm e).symm.trans ?_
    simp

lemma exists_listNodes (hs : Sound c key bin g) {b : ℕ} (hb : b < c.numLists) :
    ∃ xs, Represents g.heap (.list b) xs ∧
      listNodes c bin g.history b = {a | a ∈ .list b :: xs} := by
  obtain ⟨xs, hr, hm⟩ := hs.holds.lists b hb
  exact ⟨xs.map .elem, hr, listNodes_eq hm⟩

lemma nextClosed_listNodes (hs : Sound c key bin g) {b : ℕ} (hb : b < c.numLists) :
    NextClosed g.heap (listNodes c bin g.history b) := by
  obtain ⟨xs, hr, heq⟩ := exists_listNodes hs hb
  rw [heq]
  exact fun a ha q hq => List.mem_cons_of_mem _ (hr.next_mem ha hq)

lemma within_elementKey {R : Type} {A : Set Addr} {h : Heap Addr} {n : ℕ}
    {f : CString → Access Addr R} (hf : ∀ k, (f k).Within (nodes A) (cells h)) :
    (elementKey n >>= f).Within (nodes A) (cells h) := by
  refine Prog.within_bind (within_getKey_bind ?_) fun k hk => ?_
  · cases (h (.elem n)).key <;> trivial
  · have : ((elementKey n).exec (cells h)).1 = cells h := by
      rw [elementKey, exec_getKey_bind]
      cases (h (.elem n)).key <;> rfl
    rw [this]
    exact hf k

/-- **The accesses of a step** are to the nodes that the thread touches, and to keys. -/
lemma within_body (hk : Keyed c key bin) (hs : Sound c key bin g)
    (hl : Good c bin id g.history l) (hguard : Guarded c bin l) {p : Access Addr Answer}
    (hp : body c id l = some p) :
    p.Within (nodes (touched c bin g.history l)) (cells g.heap) := by
  have hend : startIndex c.numIterations (id + 1) ≤ c.numElements := startIndex_le id.2
  obtain ⟨hb, ht, ho⟩ := hl
  obtain ⟨pc, n, b, sList, matching, count, wait⟩ := l
  cases pc with
  | insertLoop | deleteLoop =>
    rw [body] at hp
    dsimp only at hp
    split at hp
    · obtain rfl := Option.some.inj hp
      exact within_elementKey fun k => trivial
    · obtain rfl := Option.some.inj hp
      trivial
  | insertCs =>
    obtain rfl := Option.some.inj hp
    obtain ⟨hlock, -⟩ := hguard
    have hn : n < c.numElements := hb.2.trans_le hend
    have htarget : sList.listObj = .list (bin n) := ht
    dsimp only
    rw [htarget]
    refine Prog.within_bind (within_insert (nextClosed_listNodes hs (hk.bin_lt n hn)) ?_ rfl ?_)
      fun _ _ => trivial
    · exact fun a ha => Or.inr ⟨bin n, congrArg some hlock, ha⟩
    · exact Or.inl ⟨n, rfl, rfl⟩
  | checkLength =>
    obtain rfl := Option.some.inj hp
    obtain ⟨hlt, hlock, htarget⟩ := hguard
    dsimp only at hlock htarget ⊢
    rw [htarget]
    refine Prog.within_bind (within_mono ?_ (within_length (nextClosed_listNodes hs hlt) rfl))
      fun _ _ => trivial
    exact fun a ha => Or.inr ⟨b, congrArg some hlock, ha⟩
  | lookupCs =>
    obtain rfl := Option.some.inj hp
    obtain ⟨hlock, -⟩ := hguard
    have hn : n < c.numElements := hb.2.trans_le hend
    have htarget : sList.listObj = .list (bin n) := ht
    refine within_elementKey fun k => ?_
    dsimp only
    rw [htarget]
    refine Prog.within_bind (within_mono ?_
      (within_lookup (nextClosed_listNodes hs (hk.bin_lt n hn)) rfl k)) fun _ _ => trivial
    exact fun a ha => Or.inr ⟨bin n, congrArg some hlock, ha⟩
  | deleteCs =>
    obtain rfl := Option.some.inj hp
    have hlock : sList.bin = bin n := hguard
    have hn : n < c.numElements := hb.2.trans_le hend
    have htarget : sList.listObj = .elem n := ht
    have hin : g.history n = .inserted := (ho n hb).mpr ⟨le_rfl, hb.2⟩
    obtain ⟨xs, hr, heq⟩ := exists_listNodes hs (hk.bin_lt n hn)
    have hmem : Addr.elem n ∈ listNodes c bin g.history (bin n) := ⟨hn, hin, rfl⟩
    have hxs : Addr.elem n ∈ xs := by
      rw [heq] at hmem
      exact (List.mem_cons.mp hmem).resolve_left nofun
    dsimp only
    rw [htarget]
    refine Prog.within_bind (within_mono ?_ (within_delete hmem ?_ ?_)) fun _ _ => trivial
    · exact fun a ha => Or.inr ⟨bin n, congrArg some hlock, ha⟩
    · rw [heq]
      exact fun p hp => hr.prev_mem hxs hp
    · rw [heq]
      exact fun q hq => List.mem_cons_of_mem _ (hr.next_mem (List.mem_cons_of_mem _ hxs) hq)
  | clearNext | clearPrev =>
    obtain rfl := Option.some.inj hp
    have htarget : sList.listObj = .elem n := ht
    exact ⟨⟨nofun, Or.inl ⟨n, rfl, htarget⟩⟩, trivial⟩
  | returned => cases hp
  | _ =>
    obtain rfl := Option.some.inj hp
    trivial

lemma atomic_eq_act : (sections c).atomic = act c := by
  funext id elapsed g l
  exact atomic_eq id elapsed g l

variable (c bin) in
/-- The footprints of the steps that come next. -/
def foot (S : St c) (id : Fin c.numThreads) : Footprint (Addr × Field) :=
  nodes (touched c bin S.shared.history (S.locals id))

lemma releases_of_safe (hk : Keyed c key bin) (hs : Sound c key bin g)
    (hl : Good c bin id g.history l) {p : Access Addr Answer} (hp : body c id l = some p) :
    releases l (p.exec (cells g.heap)).2 = true := by
  have hend : startIndex c.numIterations (id + 1) ≤ c.numElements := startIndex_le id.2
  obtain ⟨hb, ht, ho⟩ := hl
  obtain ⟨pc, n, b, sList, matching, count, wait⟩ := l
  cases pc with
  | deleteCs =>
    obtain rfl := Option.some.inj hp
    have hb : Owned c.numIterations id n := hb
    have hn : n < c.numElements := hb.2.trans_le hend
    have htarget : sList.listObj = .elem n := ht
    have hin : g.history n = .inserted := (ho n hb).mpr ⟨le_rfl, hb.2⟩
    obtain ⟨heap, hdel, -⟩ := hs.holds.delete hn (hk.bin_lt n hn) hin
    have hexec : (delete sList.listObj).exec (cells g.heap) = _ := exec_delete
    rw [htarget, hdel] at hexec
    rw [htarget, Prog.exec_bind_some hexec]
    rfl
  | _ => simp [releases]

lemma separated (hsync : c.syncOpt ≠ .unsynced) (hk : Keyed c key bin) :
    Separated (sections c) (Safe key bin) (foot c bin) where
  keeps S a S' hS h := by
    rw [atomic_eq_act] at h
    exact safe_step hk hS h
  within S id p hS hp :=
    within_body hk hS.running.counting.inv.sound (hS.running.counting.inv.good id)
      (hS.guarded id) hp
  disjoint S id id' hS hne hapart := disjoint_nodes (disjoint_touched hsync hS hne hapart)
  stable S id id' elapsed S' hS hne hapart h := by
    rw [atomic_eq_act] at h
    obtain ⟨g', l', hact, rfl⟩ := step_cases h
    dsimp only [foot]
    rw [Function.update_of_ne hne.symm, touched_stable hsync hS hapart hact]
  running S hS := by
    change S.shared.exited.isSome = false
    rw [hS.running.counting.inv.sound.running, Option.isSome_none]
  releases S id p hS hp :=
    releases_of_safe hk hS.running.counting.inv.sound (hS.running.counting.inv.good id) hp

/-! ### Runs of accesses -/

abbrev Accessing (c : Config) :=
  Single (Fin c.numThreads) ℤ Shared Local ℕ Answer (Value Addr)

def start (c : Config) (h : Heap Addr) : Accessing c := quiet (init c h)

variable {h : Heap Addr} {s : Accessing c}

lemma safe_init (hi : Initial c h) :
    Safe (fun e => h.keyOf (.elem e)) (binOf c h) (init c h) :=
  ⟨running_init hi, fun _ => trivial⟩

/-- The invariant of the runs of accesses: a state of the atomic system that they simulate. -/
lemma exists_simulated (hsync : c.syncOpt ≠ .unsynced) (hL : 0 < c.numLists) (hi : Initial c h)
    {schedule : List (Fin c.numThreads × ℤ)}
    (hrun : run (step (sections c).single) (start c h) schedule = some s) :
    ∃ atomic S, run (step (act c)) (init c h) atomic = some S ∧
      Safe (fun e => h.keyOf (.elem e)) (binOf c h) S ∧
      Simulates (sections c) (foot c (binOf c h)) s S := by
  have := simulates_of_run (separated hsync (hi.keyed hL)) (safe_init hi) hrun
  rwa [atomic_eq_act] at this

/-- A node that no thread inside touches has the same links in both. -/
lemma heap_eq_of_untouched (hsim : Simulates (sections c) (foot c bin) s S) {a : Addr}
    (ha : ∀ id, (s.locals id).inside ≠ none → a ∉ touched c bin S.shared.history (S.locals id)) :
    s.shared.shared.heap a = S.shared.heap a := by
  have hcell : ∀ f, cells s.shared.shared.heap (a, f) = cells S.shared.heap (a, f) :=
    fun f => hsim.outside (a, f) fun id hid hw => ha id hid hw.2
  have hprev := hcell .prev
  have hnext := hcell .next
  have hkey := hcell .key
  simp only [cells] at hprev hnext hkey
  cases hs : s.shared.shared.heap a
  cases hS : S.shared.heap a
  simp_all

def twoLists : Config := ⟨2, 1, 4, .spinlock⟩

def twoKeys : Heap Addr
  | .list _ => ⟨none, none, none⟩
  | .elem 0 => ⟨none, none, some (.ofBuffer [126])⟩
  | .elem _ => ⟨none, none, some (.ofBuffer [65])⟩

lemma twoKeys_initial : Initial twoLists twoKeys where
  heads _ := rfl
  keys e he := by
    rcases e with - | e
    · exact ⟨.ofBuffer [126], rfl, by decide, by decide⟩
    · exact ⟨.ofBuffer [65], rfl, by decide, by decide⟩
  distinct e he e' he' hk := by
    have h2 : twoLists.numElements = 2 := rfl
    rcases e with - | e <;> rcases e' with - | e'
    · rfl
    · exact absurd hk (by simp [twoKeys, CString.ofBuffer])
    · exact absurd hk (by simp [twoKeys, CString.ofBuffer])
    · omega

/-- Both threads insert their elements, under different locks. -/
def bothInserting : List (Fin twoLists.numThreads × ℤ) :=
  List.replicate 8 (ofTwo 0, 0) ++ List.replicate 7 (ofTwo 1, 0)

lemma exists_bothInserting : ∃ s e e' p p',
    run (step (sections twoLists).single) (start twoLists twoKeys) bothInserting = some s ∧
      (s.locals (ofTwo 0)).inside = some (e, p) ∧ (s.locals (ofTwo 1)).inside = some (e', p') ∧
      p.target = some ((.list 1, .next), true) ∧ p'.target = some ((.elem 1, .prev), true) := by
  have hrun : ((run (step (sections twoLists).single) (start twoLists twoKeys)
      bothInserting).bind fun s => (s.locals (ofTwo 0)).inside.bind fun q =>
        (s.locals (ofTwo 1)).inside.map fun q' => (q.2.target, q'.2.target)) =
      some (some ((.list 1, .next), true), some ((.elem 1, .prev), true)) := by
    decide +kernel
  simp only [Option.bind_eq_some_iff, Option.map_eq_some_iff, Prod.mk.injEq] at hrun
  obtain ⟨s, hs, ⟨e, p⟩, hp, ⟨e', p'⟩, hp', ht, ht'⟩ := hrun
  exact ⟨s, e, e', p, p', hs, hp, hp', ht, ht'⟩

/-- **Every run of accesses comes from a run of whole operations.** Under a lock and with
different keys there is, for every interleaving of the accesses, one of the operations at once
in which every thread is where it is after its last complete step, the counters and flags are the
same, and so are all nodes but those of the sublists whose locks are held and the elements just
being inserted or cleared. -/
theorem accesses_atomic (c : Config) (hsync : c.syncOpt ≠ .unsynced) (hL : 0 < c.numLists)
    (h : Heap Addr) (hi : Initial c h) (schedule : List (Fin c.numThreads × ℤ)) (s : Accessing c)
    (hrun : run (step (sections c).single) (start c h) schedule = some s) :
    ∃ atomic S, run (step (act c)) (init c h) atomic = some S ∧
      (∀ id, (s.locals id).outer = S.locals id) ∧
      S.shared = Shared.withHeap s.shared.shared S.shared.heap ∧
      ∀ a, (∀ id, (s.locals id).inside ≠ none →
          a ∉ touched c (binOf c h) S.shared.history (S.locals id)) →
        s.shared.shared.heap a = S.shared.heap a := by
  obtain ⟨atomic, S, hatomic, -, hsim⟩ := exists_simulated hsync hL hi hrun
  exact ⟨atomic, S, hatomic, hsim.outer, hsim.rest, fun a ha => heap_eq_of_untouched hsim ha⟩

theorem accesses_atomic_bothInserting :
    ∃ s atomic S,
      run (step (sections twoLists).single) (start twoLists twoKeys) bothInserting = some s ∧
      run (step (act twoLists)) (init twoLists twoKeys) atomic = some S ∧
      ∀ id, (s.locals id).outer = S.locals id := by
  obtain ⟨s, -, -, -, -, hs, -⟩ := exists_bothInserting
  obtain ⟨atomic, S, hatomic, houter, -⟩ := accesses_atomic twoLists (by decide) (by decide) twoKeys
    twoKeys_initial bothInserting s hs
  exact ⟨s, atomic, S, hs, hatomic, houter⟩

/-- **No races.** Two threads that are inside their steps hold different locks, and the next
access of none of them writes a field that the next access of the other is to. -/
theorem accesses_race_free (c : Config) (hsync : c.syncOpt ≠ .unsynced) (hL : 0 < c.numLists)
    (h : Heap Addr) (hi : Initial c h) (schedule : List (Fin c.numThreads × ℤ)) (s : Accessing c)
    (hrun : run (step (sections c).single) (start c h) schedule = some s)
    (id id' : Fin c.numThreads) (hne : id ≠ id') (elapsed elapsed' : ℤ)
    (p p' : Access Addr Answer) (hp : (s.locals id).inside = some (elapsed, p))
    (hp' : (s.locals id').inside = some (elapsed', p')) :
    (∀ b, lock c (s.locals id).outer = some b → lock c (s.locals id').outer ≠ some b) ∧
      ∀ l l' w, p.target = some (l, true) → p'.target = some (l', w) → l ≠ l' := by
  obtain ⟨-, S, -, hsafe, hsim⟩ := exists_simulated hsync hL hi hrun
  refine ⟨fun b hb => ?_, fun l l' w hl hl' => ?_⟩
  · exact hsim.exclusive hne (by rw [hp]; exact nofun) (by rw [hp']; exact nofun) hb
  · exact hsim.race_free (separated hsync (hi.keyed hL)) hsafe hne hp hp' hl hl'

theorem accesses_race_free_bothInserting :
    ∃ s, run (step (sections twoLists).single) (start twoLists twoKeys) bothInserting = some s ∧
      ∀ b, lock twoLists (s.locals (ofTwo 0)).outer = some b →
        lock twoLists (s.locals (ofTwo 1)).outer ≠ some b := by
  obtain ⟨s, e, e', p, p', hs, hp, hp', -⟩ := exists_bothInserting
  have hfree := accesses_race_free twoLists (by decide) (by decide) twoKeys twoKeys_initial
    bothInserting s hs (ofTwo 0) (ofTwo 1) (by change (0 : Fin 2) ≠ 1; decide) e e' p p' hp hp'
  exact ⟨s, hs, hfree.1⟩

/-- The nodes of a sublist whose lock is free are touched by nobody inside. -/
lemma untouched_of_free (hsync : c.syncOpt ≠ .unsynced) (hS : Safe key bin S)
    (hsim : Simulates (sections c) (foot c bin) s S) {b : ℕ} (hfree : s.shared.held b = false)
    {a : Addr} (ha : a ∈ listNodes c bin S.shared.history b) (hin : (s.locals id).inside ≠ none) :
    a ∉ touched c bin S.shared.history (S.locals id) := by
  rintro (⟨n, hn, rfl⟩ | ⟨b', hb', ha'⟩)
  · exact (own_spec (hS.running.counting.inv.good id) hn).2 ha.2.1
  · obtain rfl := eq_of_mem_listNodes ha ha'
    have hheld := (hsim.held_iff b).mpr ⟨id, hin, (if_neg hsync).trans hb'⟩
    rw [hfree] at hheld
    cases hheld

lemma outside_of_returned (hsim : Simulates (sections c) (foot c bin) s S)
    (hret : (s.locals id).outer.pc = .returned) : (s.locals id).inside = none := by
  by_contra hin
  obtain ⟨⟨elapsed, p⟩, hp⟩ := Option.ne_none_iff_exists'.mp hin
  obtain ⟨p₀, hbody, -⟩ := hsim.inside id elapsed p hp
  rw [← hsim.outer id] at hbody
  simp [sections, body, hret] at hbody

/-- **Safety of the accesses.** Under a lock and with different keys no interleaving of the
accesses ends the process. At any time a sublist whose lock is free is a well formed sorted chain
of exactly the elements of its bin that are inserted and not yet deleted; and when all threads
have returned, all sublists are empty. -/
theorem accesses_safe (c : Config) (hsync : c.syncOpt ≠ .unsynced) (hL : 0 < c.numLists)
    (h : Heap Addr) (hi : Initial c h) (schedule : List (Fin c.numThreads × ℤ)) (s : Accessing c)
    (hrun : run (step (sections c).single) (start c h) schedule = some s) :
    s.shared.shared.exited = none ∧
      (∀ b < c.numLists, s.shared.held b = false → ∃ xs : List ℕ,
        Represents s.shared.shared.heap (.list b) (xs.map .elem) ∧
          ∀ e, e ∈ xs ↔ e < c.numElements ∧ s.shared.shared.history e = .inserted ∧
            (h (.elem e)).key.bind (getBin c.numLists) = some b) ∧
      ((∀ id, (s.locals id).outer.pc = .returned) →
        ∀ b < c.numLists, Represents s.shared.shared.heap (.list b) []) := by
  obtain ⟨-, S, -, hsafe, hsim⟩ := exists_simulated hsync hL hi hrun
  have hrest : S.shared = Shared.withHeap s.shared.shared S.shared.heap := hsim.rest
  have hhistory : S.shared.history = s.shared.shared.history := by rw [hrest]; rfl
  have hsound := hsafe.running.counting.inv.sound
  refine ⟨?_, fun b hb hfree => ?_, fun hall b hb => ?_⟩
  · have hrunning := hsound.running
    rw [hrest] at hrunning
    exact hrunning
  · obtain ⟨xs, hr, hm⟩ := hsound.holds.lists b hb
    refine ⟨xs, hr.frame fun a ha => heap_eq_of_untouched hsim fun id hid => ?_, fun e => ?_⟩
    · refine untouched_of_free hsync hsafe hsim hfree ?_ hid
      rw [listNodes_eq hm]
      exact ha
    · rw [← hhistory]
      refine (hm e).trans (and_congr_right fun he => and_congr_right fun _ => ?_)
      rw [hi.key_eq he, Option.bind_some, (hi.getBin_eq hL he).1, Option.some.injEq]
  · have hquiet : s = quiet S := hsim.eq_quiet fun id => outside_of_returned hsim (hall id)
    have hret : ∀ id, (S.locals id).pc = .returned := fun id => by
      rw [← hsim.outer id]
      exact hall id
    rw [hquiet]
    exact hsafe.running.emptied (fun u => by rw [ListBRuns.Finished, hret u]; trivial) hb

theorem accesses_safe_bothInserting :
    ∃ s, run (step (sections twoLists).single) (start twoLists twoKeys) bothInserting = some s ∧
      s.shared.shared.exited = none := by
  obtain ⟨s, -, -, -, -, hs, -⟩ := exists_bothInserting
  have hsafe := accesses_safe twoLists (by decide) (by decide) twoKeys twoKeys_initial
    bothInserting s hs
  exact ⟨s, hs, hsafe.1⟩

/-- **The accesses come to an end.** Under a lock and with different keys every run of accesses
can be continued until all threads have returned, all locks are free and all sublists are
empty: there is no deadlock, wherever the threads are in their operations. -/
theorem accesses_end (c : Config) (hsync : c.syncOpt ≠ .unsynced) (hL : 0 < c.numLists)
    (h : Heap Addr) (hi : Initial c h) (schedule : List (Fin c.numThreads × ℤ)) (s : Accessing c)
    (hrun : run (step (sections c).single) (start c h) schedule = some s) :
    ∃ rest s', run (step (sections c).single) s rest = some s' ∧
      (∀ id, (s'.locals id).outer.pc = .returned) ∧ (∀ b, s'.shared.held b = false) ∧
      ∀ b < c.numLists, Represents s'.shared.shared.heap (.list b) [] := by
  have hk := hi.keyed hL
  obtain ⟨-, S, -, hsafe, hsim⟩ := exists_simulated hsync hL hi hrun
  have hend : ∀ S, Safe (fun e => h.keyOf (.elem e)) (binOf c h) S →
      ∃ bs T, run (step (sections c).atomic) S bs = some T ∧
        (∀ id, (T.locals id).pc = .returned) ∧
          ∀ b < c.numLists, Represents T.shared.heap (.list b) [] := by
    intro S hS
    obtain ⟨bs, T, hrun, hT, hret⟩ := hS.running.exists_end hk
    refine ⟨bs, T, by rw [atomic_eq_act]; exact hrun, hret, fun b hb => ?_⟩
    exact hT.emptied (fun u => by rw [ListBRuns.Finished, hret u]; trivial) hb
  obtain ⟨rest, T, hrest, hret, hempty⟩ := hsim.exists_end (separated hsync hk) hsafe hend
  exact ⟨rest, _, hrest, hret, fun _ => rfl, hempty⟩

theorem accesses_end_bothInserting :
    ∃ s rest s',
      run (step (sections twoLists).single) (start twoLists twoKeys) bothInserting = some s ∧
      run (step (sections twoLists).single) s rest = some s' ∧
      ∀ id, (s'.locals id).outer.pc = .returned := by
  obtain ⟨s, -, -, -, -, hs, -⟩ := exists_bothInserting
  obtain ⟨rest, s', hrest, hret, -⟩ := accesses_end twoLists (by decide) (by decide) twoKeys
    twoKeys_initial bothInserting s hs
  exact ⟨s, rest, s', hs, hrest, hret⟩

end LowLevelTasks.ListBAccesses
