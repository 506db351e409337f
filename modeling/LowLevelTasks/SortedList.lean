import LowLevelTasks.Chain
import LowLevelTasks.Strings

/-!
The sorted list of `SortedList.c`: its nodes in memory and its four operations.

A heap gives every address its node. Comparing with a NULL key is a crash, which an operation
answers with `none`. The counter `limiter` never passes `num_elements`, so the search loops
recurse on what is left of that budget.
-/

namespace LowLevelTasks.SortedList

open LowLevelTasks.Strings LowLevelTasks.Chain

structure SortedListElement (α : Type) where
  prev : Option α
  next : Option α
  key : Option CString

abbrev Heap (α : Type) := α → SortedListElement α

variable {α : Type} [DecidableEq α]

def Heap.setNext (h : Heap α) (a : α) (v : Option α) : Heap α :=
  Function.update h a { h a with next := v }

def Heap.setPrev (h : Heap α) (a : α) (v : Option α) : Heap α :=
  Function.update h a { h a with prev := v }

/-- The loop the insertion and the lookup share, from the node `it` and the count `limiter`:
go on as long as there is a next node and `goOn` holds of its key. The first argument is
`num_elements - limiter`; when it is used up the guard breaks the loop. -/
def searchLoop (h : Heap α) (goOn : CString → Option Bool) : ℕ → α → ℕ → Option (α × ℕ)
  | left, it, limiter =>
    match (h it).next with
    | none => some (it, limiter)
    | some nx => do
      let k ← (h nx).key
      let b ← goOn k
      if b then
        match left with
        | 0 => some (it, limiter)
        | left + 1 => searchLoop h goOn left nx (limiter + 1)
      else some (it, limiter)

/-- The pointer writes at the end of `SortedList_insert`. -/
def linkIn (numElements : ℕ) (h : Heap α) (element it : α) (limiter : ℕ) : Heap α :=
  if limiter ≤ numElements then
    let h' := match (h it).next with
      | none => h.setNext element none
      | some nx =>
        if limiter = numElements then h.setNext element none
        else (h.setPrev nx (some element)).setNext element (some nx)
    (h'.setPrev element (some it)).setNext it (some element)
  else h

/-- The loop condition of `SortedList_insert`: `strcmp(it->next->key, element->key) < 0`. -/
def insertGoOn (h : Heap α) (element : α) (k : CString) : Option Bool :=
  (h element).key.map fun e => decide (strcmp k e < 0)

def sortedListInsert (numElements : ℕ) (h : Heap α) (list element : α) : Option (Heap α) := do
  let (it, limiter) ← searchLoop h (insertGoOn h element) numElements list 0
  some (linkIn numElements h element it limiter)

/-- `SortedList_delete` up to the release of the lock: the result code is 1 when the links
around the element are corrupted. -/
def deleteUnlink (h : Heap α) (element : α) : Heap α × ℕ :=
  match (h element).prev with
  | none => (h, 1)
  | some p =>
    if (h p).next ≠ some element then (h, 1)
    else
      match (h element).next with
      | none => (h.setNext p none, 0)
      | some q =>
        if (h q).prev ≠ some element then (h, 1)
        else ((h.setNext p (some q)).setPrev q (some p), 0)

def sortedListDelete (h : Heap α) (element : α) : Heap α × ℕ :=
  let (h', code) := deleteUnlink h element
  if code = 1 then (h', 1) else ((h'.setNext element none).setPrev element none, 0)

/-- The loop condition of `SortedList_lookup`: `strcmp(it->next->key, key) != 0`. -/
def lookupGoOn (key k : CString) : Option Bool := some (decide (strcmp k key ≠ 0))

def sortedListLookup (numElements : ℕ) (h : Heap α) (list : α) (key : CString) :
    Option (Option α) := do
  let (it, limiter) ← searchLoop h (lookupGoOn key) numElements list 0
  if limiter ≤ numElements then
    if (h it).next = none ∨ limiter = numElements then some none else some (h it).next
  else some none

/-- The loop of `SortedList_length`, with what `num_elements` leaves of the budget. -/
def lengthLoop (h : Heap α) : ℕ → α → ℕ → ℤ
  | left, it, limiter =>
    match (h it).next with
    | none => limiter
    | some nx =>
      if (h nx).prev ≠ some it then -1
      else
        match left with
        | 0 => -1
        | left + 1 => lengthLoop h left nx (limiter + 1)

def sortedListLength (numElements : ℕ) (h : Heap α) (list : α) : ℤ :=
  lengthLoop h numElements list 0

/-! ### Fields after a write -/

section Fields

variable (h : Heap α) (a b : α) (v : Option α)

@[simp] lemma next_setNext : (h.setNext a v b).next = if b = a then v else (h b).next := by
  by_cases hb : b = a
  · subst hb; simp [Heap.setNext]
  · simp [Heap.setNext, hb]

@[simp] lemma prev_setNext : (h.setNext a v b).prev = (h b).prev := by
  by_cases hb : b = a
  · subst hb; simp [Heap.setNext]
  · simp [Heap.setNext, hb]

@[simp] lemma key_setNext : (h.setNext a v b).key = (h b).key := by
  by_cases hb : b = a
  · subst hb; simp [Heap.setNext]
  · simp [Heap.setNext, hb]

@[simp] lemma next_setPrev : (h.setPrev a v b).next = (h b).next := by
  by_cases hb : b = a
  · subst hb; simp [Heap.setPrev]
  · simp [Heap.setPrev, hb]

@[simp] lemma prev_setPrev : (h.setPrev a v b).prev = if b = a then v else (h b).prev := by
  by_cases hb : b = a
  · subst hb; simp [Heap.setPrev]
  · simp [Heap.setPrev, hb]

@[simp] lemma key_setPrev : (h.setPrev a v b).key = (h b).key := by
  by_cases hb : b = a
  · subst hb; simp [Heap.setPrev]
  · simp [Heap.setPrev, hb]

lemma setNext_of_ne {a b : α} (hb : b ≠ a) : h.setNext a v b = h b := by
  simp [Heap.setNext, hb]

lemma setPrev_of_ne {a b : α} (hb : b ≠ a) : h.setPrev a v b = h b := by
  simp [Heap.setPrev, hb]

end Fields

/-! ### The nodes of a list -/

/-- The links of all nodes of a heap. -/
def Heap.links (h : Heap α) : Links α := ⟨fun a => (h a).next, fun a => (h a).prev⟩

/-- The key of a node that has one. -/
def Heap.keyOf (h : Heap α) (a : α) : CString := (h a).key.getD ⟨[], by simp⟩

omit [DecidableEq α] in
lemma Heap.keyOf_congr {h h' : Heap α} (hk : ∀ a, (h' a).key = (h a).key) : h'.keyOf = h.keyOf :=
  funext fun a => by rw [Heap.keyOf, Heap.keyOf, hk a]

/-- The list headed by `list` holds exactly the nodes `xs`: a well formed chain from the head,
no node twice, every node with a key, the keys ascending. -/
structure Represents (h : Heap α) (list : α) (xs : List α) : Prop where
  linked : Linked h.links list xs
  nodup : (list :: xs).Nodup
  keyed : ∀ x ∈ xs, (h x).key = some (h.keyOf x)
  sorted : xs.Pairwise fun a b => h.keyOf a ≤ h.keyOf b

omit [DecidableEq α] in
/-- The representation only depends on the head and the nodes of the list. -/
theorem Represents.congr {h h' : Heap α} {list : α} {xs : List α} (hr : Represents h list xs)
    (hn : ∀ a ∈ list :: xs, (h' a).next = (h a).next) (hp : ∀ a ∈ xs, (h' a).prev = (h a).prev)
    (hk : ∀ a ∈ xs, (h' a).key = (h a).key) : Represents h' list xs where
  linked := hr.linked.congr hn hp
  nodup := hr.nodup
  keyed x hx := by rw [Heap.keyOf, hk x hx]; exact hr.keyed x hx
  sorted := by
    refine hr.sorted.imp_of_mem fun {a b} ha hb hab => ?_
    rw [Heap.keyOf, Heap.keyOf, hk a ha, hk b hb]
    exact hab

omit [DecidableEq α] in
theorem Represents.frame {h h' : Heap α} {list : α} {xs : List α} (hr : Represents h list xs)
    (hh : ∀ a ∈ list :: xs, h' a = h a) : Represents h' list xs :=
  hr.congr (fun a ha => by rw [hh a ha]) (fun a ha => by rw [hh a (List.mem_cons_of_mem _ ha)])
    (fun a ha => by rw [hh a (List.mem_cons_of_mem _ ha)])

omit [DecidableEq α] in
/-- A heap holds at most one list behind a head. -/
lemma Represents.unique {h : Heap α} {list : α} {xs ys : List α} (hx : Represents h list xs)
    (hy : Represents h list ys) : xs = ys :=
  hx.linked.unique hy.linked

omit [DecidableEq α] in
/-- From a node of a list one gets to nodes of the list only, -/
lemma Represents.next_mem {h : Heap α} {list a b : α} {xs : List α} (hr : Represents h list xs)
    (ha : a ∈ list :: xs) (hb : (h a).next = some b) : b ∈ xs := by
  rcases List.mem_cons.mp ha with rfl | ha
  · have : h.links.next a = xs.head? := hr.linked.next_eq_head?
    exact List.mem_of_mem_head? (this.symm.trans hb)
  · obtain ⟨l, r, rfl⟩ := List.append_of_mem ha
    have : h.links.next a = r.head? := hr.linked.around.2.2
    have hmem : b ∈ r := List.mem_of_mem_head? (this.symm.trans hb)
    simp [hmem]

omit [DecidableEq α] in
/-- and back to those or to the head. -/
lemma Represents.prev_mem {h : Heap α} {list a b : α} {xs : List α} (hr : Represents h list xs)
    (ha : a ∈ xs) (hb : (h a).prev = some b) : b ∈ list :: xs := by
  obtain ⟨l, r, rfl⟩ := List.append_of_mem ha
  have hprev : h.links.prev a = some (lastOf list l) := hr.linked.around.2.1
  obtain rfl : lastOf list l = b := Option.some.inj (hprev.symm.trans hb)
  rcases List.mem_cons.mp (lastOf_mem list l) with heq | hmem
  · rw [heq]
    exact List.mem_cons_self
  · exact List.mem_cons_of_mem _ (List.mem_append_left _ hmem)

end LowLevelTasks.SortedList
