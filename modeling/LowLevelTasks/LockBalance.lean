import LowLevelTasks.Lab2ListB

/-!
The locks of `SortedList.c`. In project 2a there is one for the list, in project 2b one for
each sublist, and in both a critical section is between `set_lock` and `release_lock`. The
deletion returns early if the links around its element are corrupted, and keeps the lock.
-/

namespace LowLevelTasks.LockBalance

open LowLevelTasks.Lab2ListB LowLevelTasks.SortedList LowLevelTasks.Strings
open LowLevelTasks.Sublists

/-- Which locks are held. -/
structure Locks (β : Type) where
  mutex : β → Bool
  spinlock : β → Bool

structure ListState (β : Type) where
  heap : Heap Addr
  locks : Locks β

/-- What an operation returns. -/
inductive Result
  | done
  | code (n : ℕ)
  | found (element : Option Addr)
  | count (n : ℤ)
  deriving DecidableEq

inductive Operation
  | insert (element : Addr)
  | delete
  | lookup (key : CString)
  | length
  deriving DecidableEq

section

variable {β : Type} [DecidableEq β] (sync : SyncOptions) (numElements : ℕ) (bin : β)

/-- Taking a lock that is held does not come to an end. -/
def setLock (k : Locks β) : Option (Locks β) :=
  match sync with
  | .unsynced => some k
  | .mutex => if k.mutex bin then none else some { k with mutex := Function.update k.mutex bin true }
  | .spinlock =>
    if k.spinlock bin then none else some { k with spinlock := Function.update k.spinlock bin true }

def releaseLock (k : Locks β) : Locks β :=
  match sync with
  | .unsynced => k
  | .mutex => { k with mutex := Function.update k.mutex bin false }
  | .spinlock => { k with spinlock := Function.update k.spinlock bin false }

/-- The insertion with its critical section; `none` if it does not return. -/
def insertSection (list element : Addr) (s : ListState β) : Option (ListState β × Result) := do
  let locks ← setLock sync bin s.locks
  let heap ← sortedListInsert numElements s.heap list element
  some (⟨heap, releaseLock sync bin locks⟩, .done)

/-- The deletion: `deleteUnlink` is what it does up to the release, to which it does not come if
it returns 1. -/
def deleteSection (element : Addr) (s : ListState β) : Option (ListState β × Result) := do
  let locks ← setLock sync bin s.locks
  let (heap, code) := deleteUnlink s.heap element
  if code = 1 then some (⟨heap, locks⟩, .code 1)
  else
    let locks := releaseLock sync bin locks
    some (⟨(heap.setNext element none).setPrev element none, locks⟩, .code 0)

def lookupSection (list : Addr) (key : CString) (s : ListState β) :
    Option (ListState β × Result) := do
  let locks ← setLock sync bin s.locks
  let result ← sortedListLookup numElements s.heap list key
  some (⟨s.heap, releaseLock sync bin locks⟩, .found result)

def lengthSection (list : Addr) (s : ListState β) : Option (ListState β × Result) := do
  let locks ← setLock sync bin s.locks
  let limiter := sortedListLength numElements s.heap list
  some (⟨s.heap, releaseLock sync bin locks⟩, .count limiter)

/-- The lock that the option asks for is free. -/
def Free (k : Locks β) : Prop :=
  match sync with
  | .unsynced => True
  | .mutex => k.mutex bin = false
  | .spinlock => k.spinlock bin = false

instance decidableFree (k : Locks β) : Decidable (Free sync bin k) :=
  match sync with
  | .unsynced => inferInstanceAs (Decidable True)
  | .mutex => inferInstanceAs (Decidable (k.mutex bin = false))
  | .spinlock => inferInstanceAs (Decidable (k.spinlock bin = false))

/-- The lock is free again, and a deletion that has returned 1 has not changed the heap. -/
structure Balanced (s s' : ListState β) (r : Result) : Prop where
  released : Free sync bin s'.locks
  unchanged : r = .code 1 → s'.heap = s.heap

end

/-! ### The two programs -/

namespace ListA

variable (sync : SyncOptions) (numElements : ℕ)

def sortedListInsert (list element : Addr) (s : ListState Unit) :
    Option (ListState Unit × Result) :=
  insertSection sync numElements () list element s

def sortedListDelete (element : Addr) (s : ListState Unit) : Option (ListState Unit × Result) :=
  deleteSection sync () element s

def sortedListLookup (list : Addr) (key : CString) (s : ListState Unit) :
    Option (ListState Unit × Result) :=
  lookupSection sync numElements () list key s

def sortedListLength (list : Addr) (s : ListState Unit) : Option (ListState Unit × Result) :=
  lengthSection sync numElements () list s

/-- A call of an operation on a head, or on an element for a deletion. -/
def call (listObj : Addr) (s : ListState Unit) : Operation → Option (ListState Unit × Result)
  | .insert element => sortedListInsert sync numElements listObj element s
  | .delete => sortedListDelete sync listObj s
  | .lookup key => sortedListLookup sync numElements listObj key s
  | .length => sortedListLength sync numElements listObj s

end ListA

namespace ListB

variable (sync : SyncOptions) (numElements : ℕ) (elapsed : ℤ)

/-- `set_lock` stores the time it took, if there is a lock. -/
def timed (sList : ListInfo) : ListInfo :=
  { sList with timer := if sync = .unsynced then 0 else elapsed }

def sortedListInsert (sList : ListInfo) (element : Addr) (s : ListState ℕ) :
    Option (ListInfo × ListState ℕ × Result) :=
  (insertSection sync numElements sList.bin sList.listObj element s).map
    fun p => (timed sync elapsed sList, p)

def sortedListDelete (sList : ListInfo) (s : ListState ℕ) :
    Option (ListInfo × ListState ℕ × Result) :=
  (deleteSection sync sList.bin sList.listObj s).map fun p => (timed sync elapsed sList, p)

def sortedListLookup (sList : ListInfo) (key : CString) (s : ListState ℕ) :
    Option (ListInfo × ListState ℕ × Result) :=
  (lookupSection sync numElements sList.bin sList.listObj key s).map
    fun p => (timed sync elapsed sList, p)

def sortedListLength (sList : ListInfo) (s : ListState ℕ) :
    Option (ListInfo × ListState ℕ × Result) :=
  (lengthSection sync numElements sList.bin sList.listObj s).map
    fun p => (timed sync elapsed sList, p)

def call (sList : ListInfo) (s : ListState ℕ) :
    Operation → Option (ListInfo × ListState ℕ × Result)
  | .insert element => sortedListInsert sync numElements elapsed sList element s
  | .delete => sortedListDelete sync elapsed sList s
  | .lookup key => sortedListLookup sync numElements elapsed sList key s
  | .length => sortedListLength sync numElements elapsed sList s

end ListB

/-! ### Locks -/

variable {β : Type} [DecidableEq β] {sync : SyncOptions} {numElements : ℕ} {bin : β}
variable {k k' : Locks β} {s s' : ListState β} {r : Result} {h : Heap Addr}
variable {list element : Addr} {key : CString}

/-- A lock that has been taken was free, and is held unless there is none. -/
lemma setLock_cases (hk : setLock sync bin k = some k') :
    Free sync bin k ∧ (Free sync bin k' ↔ sync = .unsynced) := by
  unfold setLock at hk
  unfold Free
  cases sync with
  | unsynced => simp
  | mutex =>
    dsimp only at hk
    split at hk
    · cases hk
    · next hheld =>
      obtain rfl := Option.some.inj hk
      simpa using hheld
  | spinlock =>
    dsimp only at hk
    split at hk
    · cases hk
    · next hheld =>
      obtain rfl := Option.some.inj hk
      simpa using hheld

lemma exists_setLock (hk : Free sync bin k) : ∃ k', setLock sync bin k = some k' := by
  unfold Free at hk
  unfold setLock
  cases sync with
  | unsynced => exact ⟨_, rfl⟩
  | mutex => exact ⟨_, if_neg (by simpa using hk)⟩
  | spinlock => exact ⟨_, if_neg (by simpa using hk)⟩

lemma free_releaseLock : Free sync bin (releaseLock sync bin k) := by
  unfold Free releaseLock
  cases sync <;> simp

/-! ### Corrupted links -/

/-- The element has a node before it, and the nodes around it point back at it. -/
def Intact (h : Heap Addr) (element : Addr) : Prop :=
  ∃ p, (h element).prev = some p ∧ (h p).next = some element ∧
    ∀ q, (h element).next = some q → (h q).prev = some element

/-- **The deletion of an element** whose links are corrupted changes nothing. -/
lemma deleteUnlink_cases (h : Heap Addr) (element : Addr) :
    (Intact h element ∧ (deleteUnlink h element).2 = 0) ∨
      ¬ Intact h element ∧ deleteUnlink h element = (h, 1) := by
  unfold deleteUnlink Intact
  cases hprev : (h element).prev with
  | none => simp
  | some p =>
    dsimp only
    by_cases hpn : (h p).next = some element
    swap
    · simp [hpn]
    rw [if_neg (not_not.mpr hpn)]
    cases hnext : (h element).next with
    | none => simp [hpn]
    | some q =>
      dsimp only
      by_cases hqp : (h q).prev = some element
      · simp [hpn, hqp]
      · simp [hqp]

/-! ### Balance -/

lemma balanced_insertSection
    (hrun : insertSection sync numElements bin list element s = some (s', r)) :
    Balanced sync bin s s' r := by
  obtain ⟨locks, -, hrun⟩ := Option.bind_eq_some_iff.mp hrun
  obtain ⟨heap, -, hrun⟩ := Option.bind_eq_some_iff.mp hrun
  obtain ⟨rfl, rfl⟩ := Prod.mk.inj (Option.some.inj hrun)
  exact ⟨free_releaseLock, fun hr => by cases hr⟩

lemma balanced_lookupSection
    (hrun : lookupSection sync numElements bin list key s = some (s', r)) :
    Balanced sync bin s s' r := by
  obtain ⟨locks, -, hrun⟩ := Option.bind_eq_some_iff.mp hrun
  obtain ⟨result, -, hrun⟩ := Option.bind_eq_some_iff.mp hrun
  obtain ⟨rfl, rfl⟩ := Prod.mk.inj (Option.some.inj hrun)
  exact ⟨free_releaseLock, fun hr => by cases hr⟩

lemma balanced_lengthSection (hrun : lengthSection sync numElements bin list s = some (s', r)) :
    Balanced sync bin s s' r := by
  obtain ⟨locks, -, hrun⟩ := Option.bind_eq_some_iff.mp hrun
  obtain ⟨rfl, rfl⟩ := Prod.mk.inj (Option.some.inj hrun)
  exact ⟨free_releaseLock, fun hr => by cases hr⟩

/-- **The deletion** is balanced if the links are intact, if there is no lock to release, and if
it waits for ever. -/
theorem balanced_deleteSection_iff :
    (∀ s' r, deleteSection sync bin element s = some (s', r) → Balanced sync bin s s' r) ↔
      (sync ≠ .unsynced → Free sync bin s.locks → Intact s.heap element) := by
  unfold deleteSection
  constructor
  · intro hall hsync hfree
    obtain ⟨locks, hlocks⟩ := exists_setLock hfree
    by_contra hnot
    have hdelete := (deleteUnlink_cases s.heap element).resolve_left fun hc => hnot hc.1
    rw [hlocks, Option.bind_eq_bind, Option.bind_some, hdelete.2] at hall
    exact hsync ((setLock_cases hlocks).2.mp (hall _ _ rfl).released)
  · intro hintact s' r hrun
    obtain ⟨locks, hlocks, hrun⟩ := Option.bind_eq_some_iff.mp hrun
    obtain ⟨hfree, hheld⟩ := setLock_cases hlocks
    rcases deleteUnlink_cases s.heap element with ⟨-, hcode⟩ | ⟨hnot, hcode⟩
    · dsimp only at hrun
      rw [if_neg (by omega)] at hrun
      obtain ⟨rfl, rfl⟩ := Prod.mk.inj (Option.some.inj hrun)
      exact ⟨free_releaseLock, fun hr => by cases hr⟩
    · rw [hcode] at hrun
      obtain ⟨rfl, rfl⟩ := Prod.mk.inj (Option.some.inj hrun)
      refine ⟨hheld.mpr ?_, fun _ => rfl⟩
      by_contra hsync
      exact hnot (hintact hsync hfree)

/-- A call is not a deletion that holds its lock in front of corrupted links. -/
def Sound (sync : SyncOptions) (bin : β) (element : Addr) (s : ListState β) (op : Operation) :
    Prop :=
  op = .delete → sync ≠ .unsynced → Free sync bin s.locks → Intact s.heap element

/-- **Exactly the balanced calls**, in both programs. -/
theorem balanced_iff (sync : SyncOptions) (numElements : ℕ) (op : Operation) :
    (∀ (listObj : Addr) (s : ListState Unit),
      (∀ s' r, ListA.call sync numElements listObj s op = some (s', r) →
        Balanced sync () s s' r) ↔ Sound sync () listObj s op) ∧
    ∀ (elapsed : ℤ) (sList : ListInfo) (s : ListState ℕ),
      (∀ sList' s' r, ListB.call sync numElements elapsed sList s op = some (sList', s', r) →
        Balanced sync sList.bin s s' r) ↔ Sound sync sList.bin sList.listObj s op := by
  unfold Sound
  constructor
  · intro listObj s
    cases op with
    | insert element => exact iff_of_true (fun _ _ => balanced_insertSection) (by simp)
    | delete => exact balanced_deleteSection_iff.trans (by simp)
    | lookup key => exact iff_of_true (fun _ _ => balanced_lookupSection) (by simp)
    | length => exact iff_of_true (fun _ _ => balanced_lengthSection) (by simp)
  · intro elapsed sList s
    have hmap : ∀ {x : Option (ListState ℕ × Result)} {sList' s' r},
        x.map (fun p => (ListB.timed sync elapsed sList, p)) = some (sList', s', r) →
          x = some (s', r) := by
      intro x sList' s' r hx
      obtain ⟨p, hp, heq⟩ := Option.map_eq_some_iff.mp hx
      rw [hp, (Prod.mk.inj heq).2]
    cases op with
    | insert element =>
      exact iff_of_true (fun _ _ _ hrun => balanced_insertSection (hmap hrun)) (by simp)
    | delete =>
      refine Iff.trans ⟨fun hall s' r hrun => ?_, fun hall sList' s' r hrun => hall _ _ (hmap hrun)⟩
        (balanced_deleteSection_iff.trans (by simp))
      refine hall (ListB.timed sync elapsed sList) s' r ?_
      unfold ListB.call ListB.sortedListDelete
      rw [hrun]
      rfl
    | lookup key =>
      exact iff_of_true (fun _ _ _ hrun => balanced_lookupSection (hmap hrun)) (by simp)
    | length =>
      exact iff_of_true (fun _ _ _ hrun => balanced_lengthSection (hmap hrun)) (by simp)

/-- No node points at any other, and no lock is held. -/
def scattered (β : Type) : ListState β where
  heap := fun _ => ⟨none, none, none⟩
  locks := ⟨fun _ => false, fun _ => false⟩

/-- The deletion of an element that is in no list returns 1 and keeps the lock, for which the next
operation waits. -/
theorem scattered_locked :
    (∃ s', ListA.call .mutex 1 (.elem 0) (scattered Unit) .delete = some (s', .code 1) ∧
      ¬ Balanced .mutex () (scattered Unit) s' (.code 1) ∧
      ListA.call .mutex 1 (.list 0) s' .length = none) ∧
    ∃ sList' s', ListB.call .spinlock 1 0 ⟨.elem 0, 0, 0⟩ (scattered ℕ) .delete =
        some (sList', s', .code 1) ∧
      ¬ Balanced .spinlock 0 (scattered ℕ) s' (.code 1) ∧
      ListB.call .spinlock 1 0 ⟨.list 0, 0, 0⟩ s' .length = none := by
  refine ⟨⟨_, rfl, fun hb => ?_, rfl⟩, _, _, rfl, fun hb => ?_, rfl⟩
  · exact absurd hb.released (by decide)
  · exact absurd hb.released (by decide)

end LowLevelTasks.LockBalance
