import LowLevelTasks.Lab2ListA

/-!
Runs of the threads of `lab2_list.c` in project 2a, with any keys and any schedule.

Two threads may find the same node, and then the second deletion is refused. What a run never
does is to go on with a list that is damaged: a node that has been unlinked is not pointed at
by the node it points back at, however many nodes are inserted and deleted after it, so that the
test of the links catches every second deletion. Each step brings its thread closer to its end,
so that a run ends after a fixed number of steps, or sooner with the exit of the process.
-/

namespace LowLevelTasks.ListARuns

open LowLevelTasks.Runs LowLevelTasks.Threads LowLevelTasks.Strings LowLevelTasks.Chain
open LowLevelTasks.SortedList LowLevelTasks.SortedListSpec LowLevelTasks.SortedSeq
open LowLevelTasks.Sublists LowLevelTasks.ElementLists LowLevelTasks.Lab2ListA

/-! ### Nodes that have been unlinked -/

section Detached

variable {α : Type} [DecidableEq α] {h h' : Heap α} {list a q x : α} {xs ys : List α}

/-- The node that `a` points back at, if there is one, does not point at `a`. -/
def Detached (h : Heap α) (a : α) : Prop := ∀ q, (h a).prev = some q → (h q).next ≠ some a

lemma Detached.deleteUnlink (hd : Detached h a) : deleteUnlink h a = (h, 1) := by
  unfold SortedList.deleteUnlink
  cases hp : (h a).prev with
  | none => rfl
  | some q => simp [hd q hp]

omit [DecidableEq α] in
/-- An operation that writes to the nodes of its list only leaves other nodes detached. -/
lemma Detached.frame (hd : Detached h a) (hr : Represents h' list ys) (ha : a ∉ list :: ys)
    (hframe : ∀ b, b ∉ list :: ys → h' b = h b) : Detached h' a := by
  intro q hq hnext
  by_cases hmem : q ∈ list :: ys
  · exact ha (List.mem_cons_of_mem _ (hr.next_mem hmem hnext))
  · rw [hframe a ha] at hq
    rw [hframe q hmem] at hnext
    exact hd q hq hnext

lemma Detached.setNext (hd : Detached h a) : Detached (h.setNext x none) a := by
  intro q hq
  rw [prev_setNext] at hq
  rw [next_setNext]
  split
  · simp
  · exact hd q hq

lemma Detached.setPrev (hd : Detached h a) : Detached (h.setPrev x none) a := by
  intro q hq
  rw [prev_setPrev] at hq
  rw [next_setPrev]
  split at hq
  · simp at hq
  · exact hd q hq

omit [DecidableEq α] in
/-- A node of the list, once it is unlinked. -/
lemma detached_of_erased (hr : Represents h list xs) (hx : x ∈ xs)
    (hr' : Represents h' list ys) (hys : x ∉ list :: ys) (hsub : ∀ b ∈ xs, b ≠ x → b ∈ ys)
    (hsame : h' x = h x) : Detached h' x := by
  intro q hq hnext
  obtain ⟨l, r, rfl⟩ := List.append_of_mem hx
  have hprev : (h x).prev = some (lastOf list l) := hr.linked.around.2.1
  rw [hsame, hprev] at hq
  obtain rfl : lastOf list l = q := Option.some.inj hq
  have hlast := lastOf_mem list l
  refine hys (List.mem_cons_of_mem _ (hr'.next_mem ?_ hnext))
  rcases List.mem_cons.mp hlast with heq | hmem
  · rw [heq]
    exact List.mem_cons_self
  · refine List.mem_cons_of_mem _ (hsub _ (List.mem_append_left _ hmem) ?_)
    rintro rfl
    have hnd := (List.nodup_append.mp (List.nodup_cons.mp hr.nodup).2).2.2
    exact hnd _ hmem _ (List.mem_cons_self) rfl

end Detached

/-! ### The invariant -/

variable (c : Config) (key : ℕ → CString)

/-- What the thread has found: an element that has been inserted, and not necessarily one that
is still in the list. -/
def Found (history : ℕ → History) (l : Local) : Prop :=
  match l.pc with
  | .deleteCs => ∃ m < c.numElements, l.matching = some (.elem m) ∧ history m ≠ .fresh
  | .clearNext | .clearPrev => ∃ m, l.matching = some (.elem m) ∧ history m = .deleted
  | _ => True

structure Placed (id : ℕ) (history : ℕ → History) (l : Local) : Prop where
  bounded : Bounded c id l
  found : Found c history l
  fresh : ∀ e, Owned c.numIterations id e → (history e = .fresh ↔ l.last c id ≤ e)

/-- The elements that have been deleted. -/
def deletedOf (history : ℕ → History) : Finset ℕ :=
  (Finset.range c.numElements).filter fun e => history e = .deleted

/-- The deletions that the thread has made. -/
def made (id : ℕ) (l : Local) : ℤ := l.first c id - startIndex c.numIterations id

/-- What holds of the list and the elements. -/
structure Intact (heap : Heap Addr) (history : ℕ → History) : Prop where
  holds : Holds c.numElements 1 key (fun _ => 0) heap fun e => history e = .inserted
  detached : ∀ e, history e = .deleted → Detached heap (.elem e)

structure Kept (s : St c) : Prop where
  intact : Intact c key s.shared.heap s.shared.history
  placed : ∀ id : Fin c.numThreads, Placed c id s.shared.history (s.locals id)
  total : ((deletedOf c s.shared.history).card : ℤ) =
    ∑ id : Fin c.numThreads, made c id (s.locals id)

variable {c key} {heap : Heap Addr} {history : ℕ → History} {n m : ℕ}

/-- The list of the program. -/
lemma Intact.list (hi : Intact c key heap history) : ∃ xs : List ℕ,
    Represents heap (.list 0) (xs.map .elem) ∧
      Members c.numElements (fun _ => 0) (fun e => history e = .inserted) 0 xs :=
  hi.holds.lists 0 one_pos

/-- Insertion, with what it does to the nodes that have been unlinked. -/
lemma Intact.insert (hi : Intact c key heap history) (hn : n < c.numElements)
    (hfresh : history n = .fresh) : ∃ heap', sortedListInsert c.numElements heap (.list 0)
      (.elem n) = some heap' ∧ Intact c key heap' (Function.update history n .inserted) := by
  obtain ⟨heap', hins, hholds⟩ := hi.holds.insert hn one_pos (by simp [hfresh])
  have hholds' := hholds.congr fun e _ => @update_inserted_iff history n e
  refine ⟨heap', hins, hholds', fun e he => ?_⟩
  obtain ⟨xs, hr, hm⟩ := hi.list
  have hne : e ≠ n := by
    rintro rfl
    simp at he
  rw [Function.update_of_ne hne] at he
  have hnx : n ∉ xs := fun hmem => by
    have := ((hm n).mp hmem).2.1
    simp [hfresh] at this
  obtain ⟨heap'', hins', hrep, -, hframe⟩ := insert_spec hr (elem_notMem hnx) (hi.holds.keys n hn)
    (by rw [List.length_map]; exact hm.length_lt (Represents.nodup_of_map hr) hn hnx)
  obtain rfl : heap'' = heap' := Option.some.inj (hins'.symm.trans hins)
  have hmem {b : Addr} : b ∈ .elem n :: .list 0 :: xs.map Addr.elem ↔
      b ∈ .list 0 :: insertSorted heap.keyOf (.elem n) (xs.map Addr.elem) := by
    simp only [List.mem_cons, mem_insertSorted]
    tauto
  refine (hi.detached e he).frame hrep (fun hin => ?_) fun b hb => hframe b (hmem.not.mpr hb)
  rcases List.mem_cons.mp hin with heq | hin
  · cases heq
  rcases mem_insertSorted.mp hin with heq | hin
  · exact hne (Addr.elem_injective heq)
  · have := ((hm e).mp (mem_map_elem.mp hin)).2.1
    simp [he] at this

/-- Deletion of an element in the list. -/
lemma Intact.delete (hi : Intact c key heap history) (hm : m < c.numElements)
    (hin : history m = .inserted) : ∃ heap', deleteUnlink heap (.elem m) = (heap', 0) ∧
      Intact c key heap' (Function.update history m .deleted) := by
  obtain ⟨heap', hdel, hholds⟩ := hi.holds.delete hm one_pos hin
  have hholds' := hholds.congr fun e _ => @update_deleted_iff history m e
  refine ⟨heap', hdel, hholds', fun e he => ?_⟩
  obtain ⟨xs, hr, hmem⟩ := hi.list
  have hx := mem_map_elem.mpr ((hmem m).mpr ⟨hm, hin, rfl⟩)
  obtain ⟨heap'', hdel', hrep, -, hsame, hframe⟩ := delete_spec hr hx
  obtain rfl : heap'' = heap' := congrArg Prod.fst (hdel'.symm.trans hdel)
  have hout := represents_notMem_erase hr hx
  by_cases hem : e = m
  · subst hem
    refine detached_of_erased hr hx hrep hout (fun b hb hne => ?_) hsame
    exact (List.mem_erase_of_ne hne).mpr hb
  · rw [Function.update_of_ne hem] at he
    refine (hi.detached e he).frame hrep (fun hin' => ?_) fun b hb => ?_
    · rcases List.mem_cons.mp hin' with heq | hin'
      · cases heq
      · have := ((hmem e).mp (mem_map_elem.mp (List.mem_of_mem_erase hin'))).2.1
        simp [he] at this
    · by_cases hb' : b = .elem m
      · rw [hb', hsame]
      · refine hframe b fun hin' => hb ?_
        rcases List.mem_cons.mp hin' with heq | hin'
        · exact heq ▸ List.mem_cons_self
        · exact List.mem_cons_of_mem _ ((List.mem_erase_of_ne hb').mpr hin')

lemma Intact.setNext (hi : Intact c key heap history) (hdel : history m = .deleted) :
    Intact c key (heap.setNext (.elem m) none) history :=
  ⟨hi.holds.setNext (by simp [hdel]) none, fun e he => (hi.detached e he).setNext⟩

lemma Intact.setPrev (hi : Intact c key heap history) (hdel : history m = .deleted) :
    Intact c key (heap.setPrev (.elem m) none) history :=
  ⟨hi.holds.setPrev (by simp [hdel]) none, fun e he => (hi.detached e he).setPrev⟩

/-- The lookup finds nothing, or an element of the list. -/
lemma Intact.lookup (hi : Intact c key heap history) (k : CString) :
    sortedListLookup c.numElements heap (.list 0) k = some none ∨
      ∃ m < c.numElements, history m = .inserted ∧
        sortedListLookup c.numElements heap (.list 0) k = some (some (.elem m)) := by
  obtain ⟨xs, hr, hm⟩ := hi.list
  rw [hi.holds.lookup hr hm k]
  cases hf : xs.find? fun e => decide (key e = k) with
  | none => exact .inl rfl
  | some m =>
    obtain ⟨hlt, hin, -⟩ := (hm m).mp (List.mem_of_find?_eq_some hf)
    exact .inr ⟨m, hlt, hin, rfl⟩

/-! ### Steps -/

variable (c) in
/-- The steps a thread has still to take, if nothing ends the process. -/
def remaining (id : ℕ) (l : Local) : ℤ :=
  match l.pc with
  | .insertLoop =>
    2 * (startIndex c.numIterations (id + 1) - l.n) + 5 * c.numIterations + 3
  | .insertCs => 2 * (startIndex c.numIterations (id + 1) - l.n) + 5 * c.numIterations + 2
  | .checkLength => 5 * c.numIterations + 2
  | .deleteLoop => 5 * (startIndex c.numIterations (id + 1) - l.n) + 1
  | .lookupCs => 5 * (startIndex c.numIterations (id + 1) - l.n)
  | .deleteCs => 5 * (startIndex c.numIterations (id + 1) - l.n) - 1
  | .clearNext => 5 * (startIndex c.numIterations (id + 1) - l.n) - 2
  | .clearPrev => 5 * (startIndex c.numIterations (id + 1) - l.n) - 3
  | .returned => 0

variable (c) in
/-- What a step of the thread `id` does to the elements. -/
inductive Edit (id : ℕ) (history : ℕ → History) (l : Local) :
    (ℕ → History) → Local → Prop
  | quiet {l' : Local} (made : made c id l' = made c id l) : Edit id history l history l'
  | insert {l' : Local} (n : ℕ) (owned : Owned c.numIterations id n) (fresh : history n = .fresh)
      (made : made c id l' = made c id l) :
      Edit id history l (Function.update history n .inserted) l'
  | delete {l' : Local} (m : ℕ) (lt : m < c.numElements) (inserted : history m = .inserted)
      (made : made c id l' = made c id l + 1) :
      Edit id history l (Function.update history m .deleted) l'

/-- The process goes on after the step. -/
structure GoesOn (c : Config) (key : ℕ → CString) (id : ℕ) (g : Shared) (l : Local)
    (g' : Shared) (l' : Local) : Prop where
  running : g'.exited = none
  intact : Intact c key g'.heap g'.history
  placed : Placed c id g'.history l'
  edit : Edit c id g.history l g'.history l'
  counted : remaining c id l' = remaining c id l - 1

/-- The process ends with the step, and nothing else changes. -/
def Ends (g : Shared) (l : Local) (g' : Shared) (l' : Local) : Prop :=
  (g' = g.exit .noMatch ∨ g' = g.exit .deleteCorrupted) ∧ l' = l ∧ l.pc ≠ .returned

variable {id : Fin c.numThreads} {g g' : Shared} {l l' : Local}

lemma turn_of_moves (hi : Intact c key g.heap g.history) (hl : Placed c id g.history l)
    (hx : g.exited = none) (h : Moves c id g l g' l') :
    Ends g l g' l' ∨ GoesOn c key id g l g' l' := by
  have hstart := startIndex_succ c.numIterations id
  have hend : startIndex c.numIterations (id + 1) ≤ c.numElements := startIndex_le id.2
  have hfound : ∀ m, l.pc = .deleteCs → l.matching = some (.elem m) → g.history m ≠ .fresh :=
    fun m hpc hmat => by
      have hfound := hl.found
      simp only [Found, hpc] at hfound
      obtain ⟨m', -, hmat', hne⟩ := hfound
      rwa [Addr.elem_injective (Option.some.inj (hmat.symm.trans hmat'))]
  -- where the thread is does not depend on the keys
  suffices hturn : Ends g l g' l' ∨ g'.exited = none ∧ Intact c key g'.heap g'.history ∧
      Found c g'.history l' ∧ Edit c id g.history l g'.history l' ∧
        remaining c id l' = remaining c id l - 1 from
    hturn.imp_right fun ⟨hx', hi', hf', hedit, hcount⟩ =>
      ⟨hx', hi', ⟨h.bounded hl.bounded, hf', h.fresh hl.bounded hfound hl.fresh⟩, hedit, hcount⟩
  obtain ⟨hb, ht, hf⟩ := hl
  obtain ⟨pc, n, matching⟩ := l
  cases h with
  | exitInsert hpc hins =>
    cases hpc
    obtain ⟨heap, hins', -⟩ := hi.insert (hb.2.trans_le hend) ((hf n hb).mpr le_rfl)
    cases hins.symm.trans hins'
  | exitLookup hpc hcrash =>
    cases hpc
    have hkey := hi.holds.keys n (hb.2.trans_le hend)
    rcases hi.lookup (key n) with hlook | ⟨m, -, -, hlook⟩ <;>
      cases (hcrash _ hkey).symm.trans hlook
  | exitUnmatched hpc hmat =>
    rcases hpc with hpc | hpc | hpc <;> cases hpc
    · obtain ⟨m, -, hmat', -⟩ := ht
      cases hmat.symm.trans hmat'
    · obtain ⟨m, hmat', -⟩ := ht
      cases hmat.symm.trans hmat'
    · obtain ⟨m, hmat', -⟩ := ht
      cases hmat.symm.trans hmat'
  | noMatch hpc =>
    cases hpc
    exact .inl ⟨.inl rfl, rfl, by simp⟩
  | refuse hpc =>
    cases hpc
    exact .inl ⟨.inr rfl, rfl, by simp⟩
  | enterInsert hpc | check hpc | enterDelete hpc =>
    cases hpc
    exact .inr ⟨hx, hi, trivial, .quiet rfl, by simp only [remaining]; omega⟩
  | endInsert hpc hn | endDelete hpc hn =>
    cases hpc
    obtain rfl := eq_of_endIndex_lt hn hb.2
    exact .inr ⟨hx, hi, trivial, .quiet rfl, by simp only [remaining]; omega⟩
  | insert hpc hins =>
    cases hpc
    have hfresh : g.history n = .fresh := (hf n hb).mpr le_rfl
    obtain ⟨heap, hins', hi'⟩ := hi.insert (hb.2.trans_le hend) hfresh
    obtain rfl := Option.some.inj (hins.symm.trans hins')
    refine .inr ⟨hx, hi', trivial, .insert n hb hfresh rfl, ?_⟩
    simp only [remaining]
    push_cast
    omega
  | lookup hpc hkey hlook =>
    cases hpc
    obtain rfl := Option.some.inj (hkey.symm.trans (hi.holds.keys n (hb.2.trans_le hend)))
    rcases hi.lookup (key n) with hlook' | ⟨m, hm, hin, hlook'⟩
    · cases hlook.symm.trans hlook'
    · obtain rfl := Option.some.inj (Option.some.inj (hlook.symm.trans hlook'))
      exact .inr ⟨hx, hi, ⟨m, hm, rfl, by simp [hin]⟩, .quiet rfl, by simp only [remaining]⟩
  | unlink hpc hmat hcode =>
    cases hpc
    obtain ⟨m, hm, hmat', hne⟩ : ∃ m < c.numElements, matching = some (.elem m) ∧
      g.history m ≠ .fresh := ht
    obtain rfl := Option.some.inj (hmat.symm.trans hmat')
    cases hmh : g.history m with
    | fresh => exact absurd hmh hne
    | deleted =>
      -- another thread has deleted the node since it was found, and the deletion is refused
      rw [(hi.detached m hmh).deleteUnlink] at hcode
      exact absurd rfl hcode
    | inserted =>
      obtain ⟨heap, hdel, hi'⟩ := hi.delete hm hmh
      rw [hdel]
      refine .inr ⟨hx, hi', ⟨m, hmat, by simp [unlinked]⟩, .delete m hm hmh ?_, ?_⟩
      · simp only [made, Local.first]
        push_cast
        ring
      · simp only [remaining]
        ring
  | clearNext hpc hmat =>
    cases hpc
    obtain ⟨m, hmat', hdel⟩ : ∃ m, matching = some (.elem m) ∧ g.history m = .deleted := ht
    obtain rfl := Option.some.inj (hmat.symm.trans hmat')
    exact .inr ⟨hx, hi.setNext hdel, ⟨m, hmat, hdel⟩, .quiet rfl, by simp only [remaining]; ring⟩
  | clearPrev hpc hmat =>
    cases hpc
    obtain ⟨m, hmat', hdel⟩ : ∃ m, matching = some (.elem m) ∧ g.history m = .deleted := ht
    obtain rfl := Option.some.inj (hmat.symm.trans hmat')
    exact .inr ⟨hx, hi.setPrev hdel, trivial, .quiet rfl,
      by simp only [remaining]; push_cast; ring⟩

/-- The step of another thread keeps what holds of a thread. -/
lemma Placed.of_edit {id id' : ℕ} (hne : id ≠ id') {history history' : ℕ → History}
    {lu : Local} (hu : Placed c id history lu) (he : Edit c id' history l history' l') :
    Placed c id history' lu := by
  obtain ⟨hb, ht, hf⟩ := hu
  cases he with
  | quiet => exact ⟨hb, ht, hf⟩
  | insert n howned hfresh =>
    refine ⟨hb, ?_, fun e he => ?_⟩
    · -- what the thread has found is not a fresh element
      obtain ⟨pc, k, matching⟩ := lu
      cases pc with
      | deleteCs =>
        obtain ⟨m, hm, hmat, hin⟩ := ht
        have : m ≠ n := by rintro rfl; exact hin hfresh
        exact ⟨m, hm, hmat, by rwa [Function.update_of_ne this]⟩
      | clearNext | clearPrev =>
        obtain ⟨m, hmat, hdel⟩ := ht
        have : m ≠ n := by rintro rfl; simp [hfresh] at hdel
        exact ⟨m, hmat, by rwa [Function.update_of_ne this]⟩
      | insertLoop | insertCs | checkLength | deleteLoop | lookupCs | returned => trivial
    · have : e ≠ n := by
        rintro rfl
        exact hne (owned_unique he howned)
      rw [Function.update_of_ne this]
      exact hf e he
  | delete m hm hin =>
    refine ⟨hb, ?_, fun e he => ?_⟩
    · obtain ⟨pc, k, matching⟩ := lu
      cases pc with
      | deleteCs =>
        obtain ⟨m', hm', hmat, hne'⟩ := ht
        refine ⟨m', hm', hmat, ?_⟩
        by_cases hmm : m' = m
        · simp [hmm]
        · rwa [Function.update_of_ne hmm]
      | clearNext | clearPrev =>
        obtain ⟨m', hmat, hdel⟩ := ht
        have : m' ≠ m := by rintro rfl; simp [hin] at hdel
        exact ⟨m', hmat, by rwa [Function.update_of_ne this]⟩
      | insertLoop | insertCs | checkLength | deleteLoop | lookupCs | returned => trivial
    · have := hf e he
      by_cases hem : e = m
      · subst hem
        simpa [hin] using this
      · rwa [Function.update_of_ne hem]

lemma card_deletedOf_delete {history : ℕ → History} {m : ℕ} (hm : m < c.numElements)
    (hin : history m = .inserted) :
    (deletedOf c (Function.update history m .deleted)).card = (deletedOf c history).card + 1 := by
  have heq : deletedOf c (Function.update history m .deleted) = insert m (deletedOf c history) := by
    ext e
    by_cases he : e = m <;> simp [deletedOf, he, hm]
  rw [heq, Finset.card_insert_of_notMem (by simp [deletedOf, hin])]

lemma Edit.card_deletedOf {id : ℕ} {history history' : ℕ → History}
    (he : Edit c id history l history' l') : ((deletedOf c history').card : ℤ) =
      (deletedOf c history).card + (made c id l' - made c id l) := by
  cases he with
  | quiet hmade => rw [hmade]; ring
  | insert n howned hfresh hmade =>
    have heq : deletedOf c (Function.update history n .inserted) = deletedOf c history := by
      ext e
      by_cases he : e = n <;> simp [deletedOf, he, hfresh]
    rw [heq, hmade]
    ring
  | delete m hm hin hmade =>
    rw [card_deletedOf_delete hm hin, hmade]
    push_cast
    ring

variable (c key) in
/-- What holds of every state. A process that has exited had a thread that was not at its end. -/
structure Inv (s : St c) : Prop where
  kept : Kept c key s
  exited : s.shared.exited = none ∨
    (s.shared.exited = some .noMatch ∨ s.shared.exited = some .deleteCorrupted) ∧
      ∃ t, (s.locals t).pc ≠ .returned

variable (c) in
/-- The steps that have been taken, up to those that a run takes if nothing ends the process. -/
def taken (s : St c) : ℤ :=
  (if s.shared.exited.isSome then 1 else 0) -
    ∑ id : Fin c.numThreads, remaining c id (s.locals id)

/-- **The step lemma.** -/
lemma inv_step (s : St c) (a : Fin c.numThreads × Unit) (s' : St c) (hi : Inv c key s)
    (h : step (act c) s a = some s') : Inv c key s' ∧ taken c s' = taken c s + 1 := by
  obtain ⟨t, u⟩ := a
  obtain ⟨g', l', hact, rfl⟩ := step_cases h
  obtain ⟨hx, hmoves⟩ := act_moves hact
  rcases turn_of_moves hi.kept.intact (hi.kept.placed t) hx hmoves with ⟨hexit, rfl, hpc⟩ | hgo
  · have hsame : Function.update s.locals t (s.locals t) = s.locals := Function.update_eq_self t _
    have hshared : g'.heap = s.shared.heap ∧ g'.history = s.shared.history ∧
        (g'.exited = some .noMatch ∨ g'.exited = some .deleteCorrupted) := by
      rcases hexit with rfl | rfl
      · exact ⟨rfl, rfl, .inl rfl⟩
      · exact ⟨rfl, rfl, .inr rfl⟩
    obtain ⟨hheap, hhistory, hexited⟩ := hshared
    have hsome : g'.exited.isSome := by rcases hexited with he | he <;> simp [he]
    rw [hsame]
    refine ⟨⟨⟨?_, ?_, ?_⟩, .inr ⟨hexited, t, hpc⟩⟩, ?_⟩
    · dsimp only
      rw [hheap, hhistory]
      exact hi.kept.intact
    · dsimp only
      rw [hhistory]
      exact hi.kept.placed
    · dsimp only
      rw [hhistory]
      exact hi.kept.total
    · simp only [taken, hsome, hx, if_true]
      simp
      ring
  · have htotal := sum_update (fun (id : Fin c.numThreads) l => made c id l) s.locals t l'
    have hremaining := sum_update (fun (id : Fin c.numThreads) l => remaining c id l) s.locals t l'
    refine ⟨⟨⟨hgo.intact, ?_, ?_⟩, .inl hgo.running⟩, ?_⟩
    · exact forall_update (P := fun (id : Fin c.numThreads) l => Placed c id g'.history l)
        hgo.placed fun v hv => (hi.kept.placed v).of_edit (fun e => hv (Fin.ext e)) hgo.edit
    · dsimp only at htotal ⊢
      rw [htotal, ← hi.kept.total, hgo.edit.card_deletedOf]
    · have := hgo.counted
      simp only [taken, hgo.running, hx, hremaining, this]
      ring

/-! ### Whole runs -/

variable {h : Heap Addr}

lemma inv_init (hi : Initial c h) : Inv c (fun e => h.keyOf (.elem e)) (init c h) where
  kept := by
    refine ⟨⟨(Lab2ListA.inv_init hi).sound.holds, fun e he => by cases he⟩, fun id => ?_, ?_⟩
    · have hgood := (Lab2ListA.inv_init hi).good id
      exact ⟨hgood.bounded, trivial, hgood.fresh⟩
    · simp [deletedOf, init, made, Local.first]
  exited := .inl rfl

lemma taken_init : taken c (init c h) = -(c.numThreads * (7 * c.numIterations + 3) : ℕ) := by
  have hterm : ∀ id : Fin c.numThreads, remaining c id ((init c h).locals id) =
      7 * c.numIterations + 3 := by
    intro id
    have := startIndex_succ c.numIterations id
    simp only [remaining, init]
    push_cast [this]
    ring
  rw [taken, Finset.sum_congr rfl fun id _ => hterm id, Finset.sum_const, Finset.card_univ,
    Fintype.card_fin, nsmul_eq_mul]
  simp [init]

lemma Placed.remaining_pos {id : ℕ} {history : ℕ → History} (hl : Placed c id history l)
    (hpc : l.pc ≠ .returned) : 1 ≤ remaining c id l := by
  have hb := hl.bounded
  obtain ⟨pc, n, matching⟩ := l
  cases pc <;> simp only [Bounded, remaining] at hb ⊢ <;> first | omega | exact absurd rfl hpc

lemma Placed.remaining_nonneg {id : ℕ} {history : ℕ → History} (hl : Placed c id history l) :
    0 ≤ remaining c id l := by
  by_cases hpc : l.pc = .returned
  · rw [remaining, hpc]
  · have := hl.remaining_pos hpc
    omega

/-- As long as the process runs, every thread that has not returned can go on. -/
lemma exists_act {id : Fin c.numThreads} (hx : g.exited = none) (hpc : l.pc ≠ .returned) :
    ∃ r, act c id () g l = some r := by
  rw [← Option.isSome_iff_exists]
  obtain ⟨pc, n, matching⟩ := l
  simp only [act, hx, Option.isSome_none, Bool.false_eq_true, if_false]
  cases pc with
  | returned => exact absurd rfl hpc
  | insertLoop | deleteLoop => dsimp only; split <;> rfl
  | checkLength => rfl
  | insertCs | clearNext | clearPrev => dsimp only; split <;> rfl
  | lookupCs =>
    dsimp only
    split
    · rfl
    · split <;> rfl
  | deleteCs =>
    dsimp only
    split
    · rfl
    · split <;> rfl

/-- With all elements deleted the list is empty. -/
lemma Kept.emptied {s : St c} (hk : Kept c key s) (hall : ∀ id, (s.locals id).pc = .returned) :
    Represents s.shared.heap (.list 0) [] := by
  have hmade : ∀ id : Fin c.numThreads, made c id (s.locals id) = c.numIterations := by
    intro id
    have := startIndex_succ c.numIterations id
    simp only [made, Local.first, hall id]
    omega
  have hcard : (deletedOf c s.shared.history).card = c.numElements := by
    have htotal := hk.total
    rw [Finset.sum_congr rfl fun id _ => hmade id, Finset.sum_const, Finset.card_univ,
      Fintype.card_fin, nsmul_eq_mul] at htotal
    exact_mod_cast htotal
  have heq : deletedOf c s.shared.history = Finset.range c.numElements :=
    Finset.eq_of_subset_of_card_le (Finset.filter_subset _ _) (by simp [hcard])
  obtain ⟨xs, hr, hm⟩ := hk.intact.list
  have hempty : xs = [] := by
    refine List.eq_nil_iff_forall_not_mem.mpr fun e he => ?_
    obtain ⟨hlt, hin, -⟩ := (hm e).mp he
    have hdel : e ∈ deletedOf c s.shared.history := heq ▸ Finset.mem_range.mpr hlt
    simp [deletedOf, hin] at hdel
  rwa [hempty] at hr

/-- No more steps are taken than there are. -/
lemma Inv.taken_nonpos {s : St c} (hi : Inv c key s) : taken c s ≤ 0 := by
  have hnonneg : ∀ id : Fin c.numThreads, 0 ≤ remaining c id (s.locals id) :=
    fun id => (hi.kept.placed id).remaining_nonneg
  rcases hi.exited with hx | ⟨hx, t, hpc⟩
  · have := Finset.sum_nonneg fun id (_ : id ∈ Finset.univ) => hnonneg id
    simp only [taken, hx, Option.isSome_none, Bool.false_eq_true, if_false]
    omega
  · have hsome : s.shared.exited.isSome := by rcases hx with hx | hx <;> simp [hx]
    have hle := Finset.single_le_sum (fun id _ => hnonneg id) (Finset.mem_univ t)
    have hpos := (hi.kept.placed t).remaining_pos hpc
    simp only [taken, hsome, if_true]
    omega

/-- **A run ends, with an empty list or with an exit.** For any keys and in every run the list
is a proper sorted list in every state, and the steps are at most
`numThreads * (7 * numIterations + 3)`. As long as the process runs, every thread that has not
returned can take its next step, all have returned when the steps have reached that number and
not before, and then the list is empty. The only exits are those of a key that is not found and
of a deletion that is refused. -/
theorem ends_or_exits (c : Config) (h : Heap Addr) (hi : Initial c h)
    (schedule : List (Fin c.numThreads × Unit)) (s : St c)
    (hrun : run (step (act c)) (init c h) schedule = some s) :
    (∃ xs, Represents s.shared.heap (.list 0) xs) ∧
      schedule.length ≤ c.numThreads * (7 * c.numIterations + 3) ∧
      (s.shared.exited = none →
        (∀ t, (s.locals t).pc ≠ .returned → ∃ s', step (act c) s (t, ()) = some s') ∧
        ((∀ t, (s.locals t).pc = .returned) ↔
          schedule.length = c.numThreads * (7 * c.numIterations + 3)) ∧
        ((∀ t, (s.locals t).pc = .returned) → Represents s.shared.heap (.list 0) [])) ∧
      ∀ e, s.shared.exited = some e → e = .noMatch ∨ e = .deleteCorrupted := by
  have hinv : Inv c (fun e => h.keyOf (.elem e)) s :=
    invariant (fun s a s' hi hs => (inv_step s a s' hi hs).1) (inv_init hi) hrun
  have hcount := eq_add_total inv_step (inv_init hi) hrun
  rw [total_one hrun, taken_init] at hcount
  obtain ⟨xs, hr, -⟩ := hinv.kept.intact.list
  refine ⟨⟨_, hr⟩, ?_, fun hx => ⟨fun t hpc => ?_, ⟨fun hall => ?_, fun hlen t => ?_⟩,
    hinv.kept.emptied⟩, fun e he => ?_⟩
  · have := hinv.taken_nonpos
    omega
  · obtain ⟨r, hr⟩ := exists_act hx hpc
    exact ⟨_, step_of_act hr⟩
  · have hzero : ∑ id : Fin c.numThreads, remaining c id (s.locals id) = 0 :=
      Finset.sum_eq_zero fun id _ => by rw [remaining, hall id]
    simp only [taken, hx, hzero, Option.isSome_none, Bool.false_eq_true, if_false] at hcount
    omega
  · by_contra hpc
    have hle := Finset.single_le_sum
      (fun (id : Fin c.numThreads) _ => (hinv.kept.placed id).remaining_nonneg) (Finset.mem_univ t)
    have hpos := (hinv.kept.placed t).remaining_pos hpc
    simp only [taken, hx, Option.isSome_none, Bool.false_eq_true, if_false] at hcount
    omega
  · rcases hinv.exited with hx | ⟨hx, -⟩
    · rw [hx] at he
      cases he
    · rcases hx with hx | hx <;> rw [hx] at he <;> cases he
      · exact .inl rfl
      · exact .inr rfl

/-- Two threads that find the same node. -/
theorem ends_or_exits_equal_keys :
    ∃ s e, run (step (act sampleConfig)) (init sampleConfig sampleHeap)
        ((List.replicate 7 ([0, 1] : List (Fin 2))).flatten.map (·, ())) = some s ∧
      s.shared.exited = some e ∧ (e = .noMatch ∨ e = .deleteCorrupted) ∧
      ∃ xs, Represents s.shared.heap (.list 0) xs := by
  have hexit : ((run (step (act sampleConfig)) (init sampleConfig sampleHeap)
      ((List.replicate 7 ([0, 1] : List (Fin 2))).flatten.map (·, ()))).map
      fun s => s.shared.exited) = some (some .deleteCorrupted) := by decide +kernel
  rw [Option.map_eq_some_iff] at hexit
  obtain ⟨s, hs, hex⟩ := hexit
  have hends := ends_or_exits sampleConfig sampleHeap sampleHeap_initial _ s hs
  exact ⟨s, _, hs, hex, hends.2.2.2 _ hex, hends.1⟩

end LowLevelTasks.ListARuns
