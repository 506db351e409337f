import LowLevelTasks.SortedList
import LowLevelTasks.MemoryPrograms

/-!
The operations of `SortedList.c`, one access to the memory at a time.

A field is read as often as the code names it: a second look at `it->next` can find something
else when there is no lock. Run on a memory of their own the operations are those of
`SortedList`, and they keep to the list and the element they are given.
-/

namespace LowLevelTasks.ListAccesses

open LowLevelTasks.Strings LowLevelTasks.SortedList LowLevelTasks.MemoryPrograms
open LowLevelTasks.MemoryPrograms.Prog

inductive Field
  | prev | next | key
  deriving DecidableEq

@[reducible] def FieldValue (α : Type) : Field → Type
  | .prev => Option α
  | .next => Option α
  | .key => Option CString

abbrev Value (α : Type) (l : α × Field) : Type := FieldValue α l.2

variable {α : Type}

/-- The fields of all nodes. -/
def cells (h : Heap α) : Memory (Value α)
  | (a, .prev) => (h a).prev
  | (a, .next) => (h a).next
  | (a, .key) => (h a).key

def heapOf (m : Memory (Value α)) : Heap α := fun a => ⟨m (a, .prev), m (a, .next), m (a, .key)⟩

@[simp] lemma heapOf_cells (h : Heap α) : heapOf (cells h) = h := rfl

@[simp] lemma cells_heapOf (m : Memory (Value α)) : cells (heapOf m) = m := by
  funext ⟨a, f⟩
  cases f <;> rfl

abbrev Access (α R : Type) := Prog (Value α) R

def getPrev (a : α) : Access α (Option α) := read (a, Field.prev) ret

def getNext (a : α) : Access α (Option α) := read (a, Field.next) ret

def getKey (a : α) : Access α (Option CString) := read (a, Field.key) ret

def putPrev (a : α) (v : Option α) : Access α Unit := write (a, Field.prev) v (ret ())

def putNext (a : α) (v : Option α) : Access α Unit := write (a, Field.next) v (ret ())

/-! ### The operations -/

/-- The loop of the insertion and the lookup. -/
def search (goOn : CString → Access α Bool) : ℕ → α → ℕ → Access α (α × ℕ)
  | left, it, limiter => do
    match ← getNext it with
    | none => pure (it, limiter)
    | some _ =>
      let nx ← check (← getNext it)
      let k ← check (← getKey nx)
      if ← goOn k then
        match left with
        | 0 => pure (it, limiter)
        | left + 1 => do
          let nx ← check (← getNext it)
          search goOn left nx (limiter + 1)
      else pure (it, limiter)

/-- `strcmp(it->next->key, element->key) < 0` -/
def insertTest (element : α) (k : CString) : Access α Bool := do
  let e ← check (← getKey element)
  pure (decide (strcmp k e < 0))

/-- `strcmp(it->next->key, key) != 0` -/
def lookupTest (key k : CString) : Access α Bool := pure (decide (strcmp k key ≠ 0))

/-- The links of the new element and of the node behind it. -/
def linkBehind (numElements : ℕ) (element it : α) (limiter : ℕ) : Access α Unit := do
  match ← getNext it with
  | none => putNext element none
  | some _ =>
    if limiter = numElements then putNext element none
    else do
      let nx ← check (← getNext it)
      putPrev nx (some element)
      putNext element (← getNext it)

def insert (numElements : ℕ) (list element : α) : Access α Unit := do
  let (it, limiter) ← search (insertTest element) numElements list 0
  if limiter ≤ numElements then do
    linkBehind numElements element it limiter
    putPrev element (some it)
    putNext it (some element)
  else pure ()

variable [DecidableEq α]

/-- `el->next != NULL && el->next->prev != el` -/
def nextCorrupted (el : α) : Access α Bool := do
  match ← getNext el with
  | none => pure false
  | some _ =>
    let q ← check (← getNext el)
    pure (decide ((← getPrev q) ≠ some el))

/-- The writes of the deletion. -/
def unlink (el : α) : Access α Unit := do
  match ← getNext el with
  | none =>
    let p ← check (← getPrev el)
    putNext p none
  | some _ =>
    let p ← check (← getPrev el)
    putNext p (← getNext el)
    let q ← check (← getNext el)
    putPrev q (← getPrev el)

/-- `SortedList_delete` up to the release of the lock. -/
def delete (el : α) : Access α ℕ := do
  match ← getPrev el with
  | none => pure 1
  | some _ =>
    let p ← check (← getPrev el)
    if (← getNext p) ≠ some el then pure 1
    else do
      if ← nextCorrupted el then pure 1
      else do
        unlink el
        pure 0

omit [DecidableEq α] in
def lookup (numElements : ℕ) (list : α) (key : CString) : Access α (Option α) := do
  let (it, limiter) ← search (lookupTest key) numElements list 0
  if limiter ≤ numElements then do
    match ← getNext it with
    | none => pure none
    | some _ => if limiter = numElements then pure none else getNext it
  else pure none

/-- The loop of `SortedList_length`. -/
def countNodes : ℕ → α → ℕ → Access α ℤ
  | left, it, limiter => do
    match ← getNext it with
    | none => pure limiter
    | some _ =>
      let nx ← check (← getNext it)
      if (← getPrev nx) ≠ some it then pure (-1)
      else
        match left with
        | 0 => pure (-1)
        | left + 1 => do
          let nx ← check (← getNext it)
          countNodes left nx (limiter + 1)

def length (numElements : ℕ) (list : α) : Access α ℤ := countNodes numElements list 0

/-! ### The operations without interference -/

variable {R : Type} {h : Heap α} {list it element el : α} {left limiter numElements : ℕ}

lemma cells_setNext (h : Heap α) (a : α) (v : Option α) :
    cells (h.setNext a v) = Function.update (cells h) (a, Field.next) v := by
  funext ⟨b, f⟩
  by_cases hb : b = a
  · subst hb
    cases f <;> simp [cells]
  · rw [Function.update_of_ne (by simp [hb])]
    cases f <;> simp [cells, hb]

lemma cells_setPrev (h : Heap α) (a : α) (v : Option α) :
    cells (h.setPrev a v) = Function.update (cells h) (a, Field.prev) v := by
  funext ⟨b, f⟩
  by_cases hb : b = a
  · subst hb
    cases f <;> simp [cells]
  · rw [Function.update_of_ne (by simp [hb])]
    cases f <;> simp [cells, hb]

@[simp] lemma exec_getPrev_bind (a : α) (f : Option α → Access α R) (h : Heap α) :
    (getPrev a >>= f).exec (cells h) = (f (h a).prev).exec (cells h) := rfl

@[simp] lemma exec_getNext_bind (a : α) (f : Option α → Access α R) (h : Heap α) :
    (getNext a >>= f).exec (cells h) = (f (h a).next).exec (cells h) := rfl

@[simp] lemma exec_getKey_bind (a : α) (f : Option CString → Access α R) (h : Heap α) :
    (getKey a >>= f).exec (cells h) = (f (h a).key).exec (cells h) := rfl

@[simp] lemma exec_getNext (a : α) (h : Heap α) :
    (getNext a).exec (cells h) = (cells h, some (h a).next) := rfl

@[simp] lemma exec_putPrev_bind (a : α) (v : Option α) (f : Unit → Access α R) (h : Heap α) :
    (putPrev a v >>= f).exec (cells h) = (f ()).exec (cells (h.setPrev a v)) := by
  rw [cells_setPrev]
  rfl

@[simp] lemma exec_putNext_bind (a : α) (v : Option α) (f : Unit → Access α R) (h : Heap α) :
    (putNext a v >>= f).exec (cells h) = (f ()).exec (cells (h.setNext a v)) := by
  rw [cells_setNext]
  rfl

@[simp] lemma exec_putPrev (a : α) (v : Option α) (h : Heap α) :
    (putPrev a v).exec (cells h) = (cells (h.setPrev a v), some ()) := by
  rw [cells_setPrev]
  rfl

@[simp] lemma exec_putNext (a : α) (v : Option α) (h : Heap α) :
    (putNext a v).exec (cells h) = (cells (h.setNext a v), some ()) := by
  rw [cells_setNext]
  rfl

lemma exec_search {goOn : CString → Access α Bool} {b : CString → Option Bool}
    (hgo : ∀ k, (goOn k).exec (cells h) = (cells h, b k)) :
    (search goOn left it limiter).exec (cells h) =
      (cells h, searchLoop h b left it limiter) := by
  induction left generalizing it limiter with
  | zero | succ =>
    rw [search.eq_def, searchLoop.eq_def]
    simp only [exec_getNext_bind]
    cases hnx : (h it).next with
    | none => rfl
    | some nx =>
      cases hk : (h nx).key with
      | none => simp [hnx, hk]
      | some k =>
        have hrun := hgo k
        cases hb : b k with
        | none =>
          rw [hb] at hrun
          simp [hnx, hk, exec_bind_none hrun, hb]
        | some go =>
          rw [hb] at hrun
          cases go <;> simp [exec_bind_some hrun, *]

lemma exec_insertTest (element : α) (k : CString) :
    (insertTest element k).exec (cells h) = (cells h, insertGoOn h element k) := by
  rw [insertTest, exec_getKey_bind, insertGoOn]
  cases (h element).key <;> rfl

lemma exec_lookupTest (key k : CString) :
    (lookupTest key k).exec (cells h) = (cells h, lookupGoOn key k) := rfl

lemma exec_linkBehind (it : α) : (linkBehind numElements element it limiter).exec (cells h) =
    (cells (match (h it).next with
      | none => h.setNext element none
      | some nx =>
        if limiter = numElements then h.setNext element none
        else (h.setPrev nx (some element)).setNext element (some nx)), some ()) := by
  rw [linkBehind, exec_getNext_bind]
  cases hnx : (h it).next with
  | none => simp
  | some nx =>
    by_cases hlim : limiter = numElements
    · simp [hlim]
    · simp [hlim, hnx]

/-- **Insertion** without interference. -/
lemma exec_insert : (insert numElements list element).exec (cells h) =
    match sortedListInsert numElements h list element with
    | none => (cells h, none)
    | some h' => (cells h', some ()) := by
  have hsearch : (search (insertTest element) numElements list 0).exec (cells h) = _ :=
    exec_search (exec_insertTest element)
  rw [insert, sortedListInsert]
  cases hloop : searchLoop h (insertGoOn h element) numElements list 0 with
  | none =>
    rw [hloop] at hsearch
    simp [exec_bind_none hsearch]
  | some r =>
    obtain ⟨it, limiter⟩ := r
    rw [hloop] at hsearch
    rw [exec_bind_some hsearch]
    by_cases hlim : limiter ≤ numElements
    · cases hnx : (h it).next <;>
        simp [hlim, linkIn, hnx, exec_bind_some (exec_linkBehind it)]
    · simp [hlim, linkIn]

lemma exec_nextCorrupted {q : Option α} (hq : (h el).next = q) :
    (nextCorrupted el).exec (cells h) =
      (cells h, some (decide (∃ x, q = some x ∧ (h x).prev ≠ some el))) := by
  rw [nextCorrupted, exec_getNext_bind, hq]
  cases q with
  | none => simp
  | some x => simp [hq]

lemma exec_unlink {p : α} (hp : (h el).prev = some p) :
    (unlink el).exec (cells h) =
      (cells (match (h el).next with
        | none => h.setNext p none
        | some q => (h.setNext p (some q)).setPrev q (some p)), some ()) := by
  rw [unlink, exec_getNext_bind]
  cases hq : (h el).next with
  | none => simp [hp]
  | some q => simp [hp, hq]

/-- **Deletion** without interference, up to the release of the lock. -/
lemma exec_delete : (delete el).exec (cells h) =
    (cells (deleteUnlink h el).1, some (deleteUnlink h el).2) := by
  rw [delete, deleteUnlink, exec_getPrev_bind]
  cases hp : (h el).prev with
  | none => rfl
  | some p =>
    by_cases hback : (h p).next = some el
    · cases hq : (h el).next with
      | none =>
        simp [hp, hback, hq, exec_bind_some (exec_nextCorrupted hq),
          exec_bind_some (exec_unlink hp)]
      | some q =>
        by_cases hqp : (h q).prev = some el
        · simp [hp, hback, hq, hqp, exec_bind_some (exec_nextCorrupted hq),
            exec_bind_some (exec_unlink hp)]
        · simp [hp, hback, exec_bind_some (exec_nextCorrupted hq), hqp]
    · simp [hp, hback]

/-- **Lookup** without interference. -/
lemma exec_lookup (key : CString) : (lookup numElements list key).exec (cells h) =
    (cells h, sortedListLookup numElements h list key) := by
  have hsearch : (search (lookupTest key) numElements list 0).exec (cells h) = _ :=
    exec_search (exec_lookupTest key)
  rw [lookup, sortedListLookup]
  cases hloop : searchLoop h (lookupGoOn key) numElements list 0 with
  | none =>
    rw [hloop] at hsearch
    simp [exec_bind_none hsearch]
  | some r =>
    obtain ⟨it, limiter⟩ := r
    rw [hloop] at hsearch
    rw [exec_bind_some hsearch]
    by_cases hlim : limiter ≤ numElements
    · cases hnx : (h it).next with
      | none => simp [hlim, hnx]
      | some nx => by_cases heq : limiter = numElements <;> simp [hlim, hnx, heq]
    · simp [hlim]

lemma exec_countNodes : (countNodes left it limiter).exec (cells h) =
    (cells h, some (lengthLoop h left it limiter)) := by
  induction left generalizing it limiter with
  | zero | succ =>
    rw [countNodes.eq_def, lengthLoop.eq_def]
    simp only [exec_getNext_bind]
    cases hnx : (h it).next with
    | none => rfl
    | some nx => by_cases hp : (h nx).prev = some it <;> simp [*]

/-- **Length** without interference. -/
lemma exec_length : (length numElements list).exec (cells h) =
    (cells h, some (sortedListLength numElements h list)) := exec_countNodes

/-! ### Footprints -/

/-- The links of these nodes; keys are read only, and anywhere. -/
def nodes (A : Set α) : Footprint (α × Field) where
  reads := {l | l.2 = .key ∨ l.1 ∈ A}
  writes := {l | l.2 ≠ .key ∧ l.1 ∈ A}
  writes_subset _ hl := Or.inr hl.2

omit [DecidableEq α] in
lemma disjoint_nodes {A B : Set α} (hAB : ∀ a ∈ A, a ∉ B) :
    ∀ l ∈ (nodes A).writes, l ∉ (nodes B).reads := by
  rintro l ⟨hkey, hA⟩ (hl | hB)
  · exact hkey hl
  · exact hAB _ hA hB

lemma within_mono {A B : Set α} {p : Access α R} {m : Memory (Value α)} (hAB : A ⊆ B)
    (hp : p.Within (nodes A) m) : p.Within (nodes B) m :=
  hp.mono (fun _ hl => hl.imp_right fun ha => hAB ha) fun _ hl => ⟨hl.1, hAB hl.2⟩

/-- From the nodes of `A` the next links do not lead out. -/
def NextClosed (h : Heap α) (A : Set α) : Prop := ∀ a ∈ A, ∀ b, (h a).next = some b → b ∈ A

variable {A B : Set α} {a : α} {m : Memory (Value α)} {f : Option α → Access α R} {v : Option α}

lemma within_getPrev_bind (ha : a ∈ A) (hf : (f (h a).prev).Within (nodes A) (cells h)) :
    (getPrev a >>= f).Within (nodes A) (cells h) := ⟨Or.inr ha, hf⟩

lemma within_getNext_bind (ha : a ∈ A) (hf : (f (h a).next).Within (nodes A) (cells h)) :
    (getNext a >>= f).Within (nodes A) (cells h) := ⟨Or.inr ha, hf⟩

lemma within_getKey_bind {f : Option CString → Access α R}
    (hf : (f (h a).key).Within (nodes A) (cells h)) :
    (getKey a >>= f).Within (nodes A) (cells h) := ⟨Or.inl rfl, hf⟩

lemma within_putPrev (ha : a ∈ A) : (putPrev a v).Within (nodes A) m := ⟨⟨nofun, ha⟩, trivial⟩

lemma within_putNext (ha : a ∈ A) : (putNext a v).Within (nodes A) m := ⟨⟨nofun, ha⟩, trivial⟩

lemma within_putPrev_bind {f : Unit → Access α R} (ha : a ∈ A)
    (hf : (f ()).Within (nodes A) (cells (h.setPrev a v))) :
    (putPrev a v >>= f).Within (nodes A) (cells h) := by
  rw [cells_setPrev] at hf
  exact ⟨⟨nofun, ha⟩, hf⟩

lemma within_putNext_bind {f : Unit → Access α R} (ha : a ∈ A)
    (hf : (f ()).Within (nodes A) (cells (h.setNext a v))) :
    (putNext a v >>= f).Within (nodes A) (cells h) := by
  rw [cells_setNext] at hf
  exact ⟨⟨nofun, ha⟩, hf⟩

lemma within_search {goOn : CString → Access α Bool} {b : CString → Option Bool}
    (hgo : ∀ k, (goOn k).exec (cells h) = (cells h, b k))
    (hin : ∀ k, (goOn k).Within (nodes A) (cells h)) (hA : NextClosed h A) (hit : it ∈ A) :
    (search goOn left it limiter).Within (nodes A) (cells h) := by
  induction left using Nat.strong_induction_on generalizing it limiter with
  | _ left ih =>
    rw [search.eq_def]
    refine within_getNext_bind hit ?_
    cases hnx : (h it).next with
    | none => trivial
    | some nx =>
      refine within_getNext_bind hit ?_
      rw [hnx, check_some_bind]
      refine within_getKey_bind ?_
      cases (h nx).key with
      | none => trivial
      | some k =>
        rw [check_some_bind]
        refine within_bind (hin k) fun go _ => ?_
        rw [hgo k]
        cases go with
        | false => trivial
        | true =>
          cases left with
          | zero => trivial
          | succ left =>
            refine within_getNext_bind hit ?_
            rw [hnx, check_some_bind]
            exact ih left (Nat.lt_succ_self left) (hA it hit nx hnx)

omit [DecidableEq α] in
lemma searchLoop_mem {b : CString → Option Bool} {it' : α} {limiter' : ℕ} (hA : NextClosed h A)
    (hit : it ∈ A) (hloop : searchLoop h b left it limiter = some (it', limiter')) : it' ∈ A := by
  induction left using Nat.strong_induction_on generalizing it limiter with
  | _ left ih =>
    rw [searchLoop.eq_def] at hloop
    cases hnx : (h it).next with
    | none =>
      obtain ⟨rfl, -⟩ := by simpa [hnx] using hloop
      exact hit
    | some nx =>
      simp only [hnx, Option.bind_eq_bind, Option.bind_eq_some_iff] at hloop
      obtain ⟨k, -, go, -, hgo⟩ := hloop
      split at hgo
      · cases left with
        | zero =>
          obtain ⟨rfl, -⟩ := by simpa using hgo
          exact hit
        | succ left => exact ih left (Nat.lt_succ_self left) (hA it hit nx hnx) hgo
      · obtain ⟨rfl, -⟩ := by simpa using hgo
        exact hit

lemma within_insertTest (element : α) (k : CString) :
    (insertTest element k).Within (nodes A) (cells h) := by
  refine within_getKey_bind ?_
  cases (h element).key <;> trivial

lemma within_linkBehind {it : α} (hit : it ∈ A) (hel : element ∈ A)
    (hnx : ∀ nx, (h it).next = some nx → nx ∈ A) :
    (linkBehind numElements element it limiter).Within (nodes A) (cells h) := by
  refine within_getNext_bind hit ?_
  cases hnext : (h it).next with
  | none => exact within_putNext hel
  | some nx =>
    dsimp only
    split
    · exact within_putNext hel
    · refine within_getNext_bind hit ?_
      rw [hnext, check_some_bind]
      refine within_putPrev_bind (hnx nx hnext) ?_
      exact within_getNext_bind hit (within_putNext hel)

/-- The insertion keeps to the list and to its element. -/
lemma within_insert (hA : NextClosed h A) (hAB : A ⊆ B) (hlist : list ∈ A) (hel : element ∈ B) :
    (insert numElements list element).Within (nodes B) (cells h) := by
  refine within_bind (within_mono hAB
    (within_search (exec_insertTest element) (within_insertTest element) hA hlist)) fun r hr => ?_
  obtain ⟨it, limiter⟩ := r
  rw [exec_search (exec_insertTest element)] at hr ⊢
  have hit := searchLoop_mem hA hlist hr
  dsimp only
  split
  · refine within_bind (within_linkBehind (hAB hit) hel fun nx hnx => hAB (hA it hit nx hnx))
      fun _ _ => ?_
    rw [exec_linkBehind]
    exact within_putPrev_bind hel (within_putNext (hAB hit))
  · trivial

lemma within_nextCorrupted (hel : el ∈ A) (hq : ∀ q, (h el).next = some q → q ∈ A) :
    (nextCorrupted el).Within (nodes A) (cells h) := by
  refine within_getNext_bind hel ?_
  cases hnext : (h el).next with
  | none => trivial
  | some q =>
    refine within_getNext_bind hel ?_
    rw [hnext, check_some_bind]
    exact within_getPrev_bind (hq q hnext) trivial

lemma within_unlink (hel : el ∈ A) (hp : ∀ p, (h el).prev = some p → p ∈ A)
    (hq : ∀ q, (h el).next = some q → q ∈ A) :
    (unlink el).Within (nodes A) (cells h) := by
  refine within_getNext_bind hel ?_
  cases hnext : (h el).next with
  | none =>
    refine within_getPrev_bind hel ?_
    cases hprev : (h el).prev with
    | none => trivial
    | some p => exact within_putNext (hp p hprev)
  | some q =>
    refine within_getPrev_bind hel ?_
    cases hprev : (h el).prev with
    | none => trivial
    | some p =>
      refine within_getNext_bind hel (within_putNext_bind (hp p hprev) ?_)
      refine within_getNext_bind hel ?_
      have hsame : ((h.setNext p (some q)) el).next = some q := by
        rw [next_setNext]
        split
        · rfl
        · exact hnext
      rw [hnext, hsame, check_some_bind]
      exact within_getPrev_bind hel (within_putPrev (hq q hnext))

/-- The deletion keeps to the element and its neighbours. -/
lemma within_delete (hel : el ∈ A) (hp : ∀ p, (h el).prev = some p → p ∈ A)
    (hq : ∀ q, (h el).next = some q → q ∈ A) : (delete el).Within (nodes A) (cells h) := by
  refine within_getPrev_bind hel ?_
  cases hprev : (h el).prev with
  | none => trivial
  | some p =>
    refine within_getPrev_bind hel ?_
    rw [hprev, check_some_bind]
    refine within_getNext_bind (hp p hprev) ?_
    split
    · trivial
    · refine within_bind (within_nextCorrupted hel hq) fun r _ => ?_
      rw [exec_nextCorrupted rfl]
      split
      · trivial
      · refine within_bind (within_unlink hel hp hq) fun _ _ => trivial

/-- The lookup keeps to the list. -/
lemma within_lookup (hA : NextClosed h A) (hlist : list ∈ A) (key : CString) :
    (lookup numElements list key).Within (nodes A) (cells h) := by
  refine within_bind (within_search (exec_lookupTest key) (fun _ => trivial) hA hlist)
    fun r hr => ?_
  obtain ⟨it, limiter⟩ := r
  rw [exec_search (exec_lookupTest key)] at hr ⊢
  have hit := searchLoop_mem hA hlist hr
  dsimp only
  split
  · refine within_getNext_bind hit ?_
    split
    · trivial
    · split
      · trivial
      · exact ⟨Or.inr hit, trivial⟩
  · trivial

lemma within_countNodes (hA : NextClosed h A) (hit : it ∈ A) :
    (countNodes left it limiter).Within (nodes A) (cells h) := by
  induction left using Nat.strong_induction_on generalizing it limiter with
  | _ left ih =>
    rw [countNodes.eq_def]
    refine within_getNext_bind hit ?_
    cases hnx : (h it).next with
    | none => trivial
    | some nx =>
      refine within_getNext_bind hit ?_
      rw [hnx, check_some_bind]
      refine within_getPrev_bind (hA it hit nx hnx) ?_
      split
      · trivial
      · cases left with
        | zero => trivial
        | succ left =>
          refine within_getNext_bind hit ?_
          rw [hnx, check_some_bind]
          exact ih left (Nat.lt_succ_self left) (hA it hit nx hnx)

/-- So does the count of its nodes. -/
lemma within_length (hA : NextClosed h A) (hlist : list ∈ A) :
    (length numElements list).Within (nodes A) (cells h) := within_countNodes hA hlist

end LowLevelTasks.ListAccesses
