import LowLevelTasks.SortedListSpec

/-!
`SortedList` in sequential use refines a sorted sequence.

The sequence is the abstract data type: its state is the list of the nodes, and its
operations are insertion before the first key that is not smaller, removal, search and
length. The pointer operations, run in any order on a list that starts empty, follow it.
-/

namespace LowLevelTasks.SequentialList

open LowLevelTasks.Strings LowLevelTasks.Chain LowLevelTasks.SortedList
open LowLevelTasks.SortedSeq LowLevelTasks.SortedListSpec

inductive Op (α : Type)
  | insert (x : α)
  | delete (x : α)
  | lookup (key : CString)
  | length

/-- What the caller sees of an operation. For a deletion this is the result code and the
links the removed node is left with. -/
inductive Result (α : Type)
  | inserted
  | deleted (code : ℕ) (prev next : Option α)
  | found (x : Option α)
  | counted (n : ℤ)
  deriving DecidableEq

variable {α : Type} [DecidableEq α]

/-! ### The pointer operations -/

def exec (numElements : ℕ) (list : α) (h : Heap α) : Op α → Option (Heap α × Result α)
  | .insert x => do
    let h' ← sortedListInsert numElements h list x
    some (h', .inserted)
  | .delete x =>
    let (h', code) := sortedListDelete h x
    some (h', .deleted code (h' x).prev (h' x).next)
  | .lookup key => do
    let r ← sortedListLookup numElements h list key
    some (h, .found r)
  | .length => some (h, .counted (sortedListLength numElements h list))

/-- The search ends at a node with a successor although the count has reached the limit. -/
def guardStops (numElements : ℕ) (list : α) (h : Heap α) (goOn : CString → Option Bool) : Bool :=
  match searchLoop h goOn numElements list 0 with
  | some (it, limiter) => decide (numElements ≤ limiter) && (h it).next.isSome
  | none => false

/-- One of the tests of `limiter` against `num_elements` decides the operation. In a count
the guard shows as the result `-1`. -/
def guardFires (numElements : ℕ) (list : α) (h : Heap α) : Op α → Bool
  | .insert x => guardStops numElements list h (insertGoOn h x)
  | .delete _ => false
  | .lookup key => guardStops numElements list h (lookupGoOn key)
  | .length => decide (sortedListLength numElements h list = -1)

/-- A sequence of operations: the final heap, and for every operation its result and whether
the guard fired. -/
def execAll (numElements : ℕ) (list : α) : Heap α → List (Op α) →
    Option (Heap α × List (Result α × Bool))
  | h, [] => some (h, [])
  | h, op :: ops => do
    let (h', r) ← exec numElements list h op
    let (h'', rs) ← execAll numElements list h' ops
    some (h'', (r, guardFires numElements list h op) :: rs)

/-! ### The sorted sequence -/

/-- The abstract data type. -/
def absExec (κ : α → CString) (xs : List α) : Op α → List α × Result α
  | .insert x => (insertSorted κ x xs, .inserted)
  | .delete x => (xs.erase x, .deleted 0 none none)
  | .lookup key => (xs, .found (xs.find? fun x => decide (κ x = key)))
  | .length => (xs, .counted xs.length)

/-- The abstract run; the guard never fires. -/
def absAll (κ : α → CString) : List α → List (Op α) → List α × List (Result α × Bool)
  | xs, [] => (xs, [])
  | xs, op :: ops =>
    let (xs', r) := absExec κ xs op
    let (xs'', rs) := absAll κ xs' ops
    (xs'', (r, false) :: rs)

/-- What the caller promises: a node to insert has a key and is not in the list, which has
room for it; a node to delete is in the list. -/
def Legal (numElements : ℕ) (list : α) (h : Heap α) (xs : List α) : Op α → Prop
  | .insert x => (x ∉ list :: xs ∧ (h x).key.isSome) ∧ xs.length < numElements
  | .delete x => x ∈ xs
  | .lookup _ => True
  | .length => True

instance (numElements : ℕ) (list : α) (h : Heap α) (xs : List α) :
    ∀ op, Decidable (Legal numElements list h xs op)
  | .insert x => inferInstanceAs (Decidable ((x ∉ list :: xs ∧ (h x).key.isSome) ∧ _))
  | .delete x => inferInstanceAs (Decidable (x ∈ xs))
  | .lookup _ => inferInstanceAs (Decidable True)
  | .length => inferInstanceAs (Decidable True)

/-- Every operation of the sequence is legal when its turn comes. -/
def LegalRun (numElements : ℕ) (list : α) (h : Heap α) : List α → List (Op α) → Prop
  | _, [] => True
  | xs, op :: ops => Legal numElements list h xs op ∧
      LegalRun numElements list h (absExec h.keyOf xs op).1 ops

instance instDecidableLegalRun (numElements : ℕ) (list : α) (h : Heap α) :
    ∀ xs ops, Decidable (LegalRun numElements list h xs ops)
  | _, [] => inferInstanceAs (Decidable True)
  | xs, op :: ops =>
    have := instDecidableLegalRun numElements list h (absExec h.keyOf xs op).1 ops
    inferInstanceAs (Decidable (Legal numElements list h xs op ∧
      LegalRun numElements list h (absExec h.keyOf xs op).1 ops))

/-! ### The refinement -/

/-- The states the list passes through: the heap represents a sequence within the limit, and
the keys are the ones the nodes had at the start. -/
structure Inv (numElements : ℕ) (list : α) (h₀ h : Heap α) (xs : List α) : Prop where
  repr : Represents h list xs
  bound : xs.length ≤ numElements
  key : ∀ a, (h a).key = (h₀ a).key

variable {numElements : ℕ} {list : α} {h₀ h : Heap α} {xs : List α}

omit [DecidableEq α] in
lemma Inv.keyOf (hi : Inv numElements list h₀ h xs) : h.keyOf = h₀.keyOf :=
  Heap.keyOf_congr hi.key

omit [DecidableEq α] in
/-- A search over a list within the limit is not ended by the guard. -/
lemma not_guardStops {goOn : CString → Option Bool} {p : CString → Bool}
    (hg : ∀ k, goOn k = some (p k)) (hi : Inv numElements list h₀ h xs) :
    guardStops numElements list h goOn = false := by
  have hpre : (xs.takeWhile fun x => p (h.keyOf x)).length ≤ xs.length :=
    (List.takeWhile_prefix _).length_le
  have hb := hi.bound
  have hs := searchLoop_eq hg 0 hi.repr.linked hi.repr.keyed (hpre.trans hi.bound)
  simp only [guardStops, hs, Nat.zero_add, Bool.and_eq_false_iff, decide_eq_false_iff_not,
    not_le, Option.isSome_eq_false_iff, Option.isNone_iff_eq_none]
  -- a count that reaches the limit has passed every node
  by_cases hlt : (xs.takeWhile fun x => p (h.keyOf x)).length < numElements
  · exact Or.inl hlt
  · right
    have hfull : xs.takeWhile (fun x => p (h.keyOf x)) = xs :=
      (List.takeWhile_prefix _).eq_of_length (by omega)
    have hend : Linked h.links (lastOf list xs) [] := by
      have := hi.repr.linked
      rw [← List.append_nil xs] at this
      exact (linked_append.mp this).2
    rw [hfull]
    exact hend

lemma inv_insert {x : α} (hi : Inv numElements list h₀ h xs)
    (hl : Legal numElements list h₀ xs (.insert x)) :
    ∃ h', exec numElements list h (.insert x) = some (h', .inserted) ∧
      Inv numElements list h₀ h' (insertSorted h₀.keyOf x xs) := by
  obtain ⟨⟨hx, hkey⟩, hroom⟩ := hl
  obtain ⟨k, hk⟩ := Option.isSome_iff_exists.mp hkey
  obtain ⟨h', hins, hrep, hkeys, -⟩ := insert_spec hi.repr hx ((hi.key x).trans hk) hroom
  refine ⟨h', by simp [exec, hins], ?_, ?_, fun a => (hkeys a).trans (hi.key a)⟩
  · rwa [hi.keyOf] at hrep
  · rw [length_insertSorted]; omega

lemma inv_delete {x : α} (hi : Inv numElements list h₀ h xs) (hx : x ∈ xs) :
    ∃ h', exec numElements list h (.delete x) = some (h', .deleted 0 none none) ∧
      Inv numElements list h₀ h' (xs.erase x) := by
  obtain ⟨h', hdel, hrep, hkeys, hprev, hnext, -⟩ := sortedListDelete_spec hi.repr hx
  refine ⟨h', by simp [exec, hdel, hprev, hnext], hrep, ?_, fun a => (hkeys a).trans (hi.key a)⟩
  have := List.length_erase_le (a := x) (l := xs)
  have := hi.bound
  omega

/-- One operation: it succeeds, answers what the sequence answers, the guard stays silent,
and the heap represents the new sequence. -/
lemma inv_step {op : Op α} (hi : Inv numElements list h₀ h xs)
    (hl : Legal numElements list h₀ xs op) :
    ∃ h', exec numElements list h op = some (h', (absExec h₀.keyOf xs op).2) ∧
      guardFires numElements list h op = false ∧
      Inv numElements list h₀ h' (absExec h₀.keyOf xs op).1 := by
  cases op with
  | insert x =>
    obtain ⟨h', he, hi'⟩ := inv_insert hi hl
    obtain ⟨k, hk⟩ := Option.isSome_iff_exists.mp hl.1.2
    refine ⟨h', he, ?_, hi'⟩
    exact not_guardStops (p := fun k' => decide (strcmp k' k < 0))
      (fun k' => by simp [insertGoOn, hi.key, hk]) hi
  | delete x =>
    obtain ⟨h', he, hi'⟩ := inv_delete hi hl
    exact ⟨h', he, rfl, hi'⟩
  | lookup key =>
    have hlook := lookup_spec hi.repr hi.bound key
    rw [hi.keyOf] at hlook
    refine ⟨h, by simp [exec, hlook, absExec], ?_, hi⟩
    exact not_guardStops (p := fun k => decide (strcmp k key ≠ 0)) (fun _ => rfl) hi
  | length =>
    have hlen := length_spec hi.repr hi.bound
    refine ⟨h, by simp [exec, hlen, absExec], ?_, hi⟩
    simp only [guardFires, hlen, decide_eq_false_iff_not]
    omega

/-- **The run lemma.** From any state the invariant describes, every legal sequence of
operations follows the abstract data type. -/
lemma inv_run {ops : List (Op α)} (hi : Inv numElements list h₀ h xs)
    (hl : LegalRun numElements list h₀ xs ops) :
    ∃ h', execAll numElements list h ops = some (h', (absAll h₀.keyOf xs ops).2) ∧
      Inv numElements list h₀ h' (absAll h₀.keyOf xs ops).1 := by
  induction ops generalizing h xs with
  | nil => exact ⟨h, rfl, hi⟩
  | cons op ops ih =>
    obtain ⟨h', he, hg, hi'⟩ := inv_step hi hl.1
    obtain ⟨h'', hes, hi''⟩ := ih hi' hl.2
    exact ⟨h'', by simp [execAll, he, hes, hg, absAll], hi''⟩

omit [DecidableEq α] in
lemma inv_init (hlist : h₀ list = ⟨none, none, none⟩) : Inv numElements list h₀ h₀ [] where
  repr := ⟨by simp [Linked, Heap.links, hlist], by simp, by simp, List.Pairwise.nil⟩
  bound := Nat.zero_le _
  key _ := rfl

/-- **Refinement.** Start with an empty head and apply any legal sequence of operations. No
operation crashes; every one answers what the sorted sequence answers, so an insertion goes
directly before the first key that is not smaller, a deletion returns 0 and clears the links
of the node it removes, a lookup finds the first node with the key and a count is the number
of nodes; the guard never fires; and the heap represents the sequence, as a chain from the
head that is exact in both directions, holds no node twice and is ascending under `strcmp`. -/
theorem sortedList_refines_sequence (numElements : ℕ) (list : α) (h₀ : Heap α)
    (hlist : h₀ list = ⟨none, none, none⟩) (ops : List (Op α))
    (hlegal : LegalRun numElements list h₀ [] ops) :
    ∃ h, execAll numElements list h₀ ops = some (h, (absAll h₀.keyOf [] ops).2) ∧
      Represents h list (absAll h₀.keyOf [] ops).1 ∧
      (absAll h₀.keyOf [] ops).1.length ≤ numElements ∧ ∀ a, (h a).key = (h₀ a).key := by
  obtain ⟨h, he, hi⟩ := inv_run (inv_init hlist) hlegal
  exact ⟨h, he, hi.repr, hi.bound, hi.key⟩

/-- A head at address 0 and elements with the keys `b`, `a`, `b`, ... -/
def sampleHeap : Heap ℕ
  | 0 => ⟨none, none, none⟩
  | n + 1 => ⟨none, none, some (if n % 2 = 0 then .ofBuffer [98] else .ofBuffer [97])⟩

/-- Two equal keys, a full list, a deletion in the middle and a lookup that fails. -/
theorem sortedList_refines_sequence_sample :
    ∃ h, execAll 3 0 sampleHeap
        [.insert 1, .insert 2, .insert 3, .length, .delete 3, .lookup (.ofBuffer [99])] =
      some (h, [(.inserted, false), (.inserted, false), (.inserted, false), (.counted 3, false),
        (.deleted 0 none none, false), (.found none, false)]) ∧ Represents h 0 [2, 1] := by
  obtain ⟨h, he, hrep, -⟩ := sortedList_refines_sequence 3 0 sampleHeap rfl
    [.insert 1, .insert 2, .insert 3, .length, .delete 3, .lookup (.ofBuffer [99])]
    (by decide)
  exact ⟨h, he, hrep⟩

end LowLevelTasks.SequentialList
