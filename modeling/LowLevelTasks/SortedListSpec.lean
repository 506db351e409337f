import LowLevelTasks.SortedList
import LowLevelTasks.SortedSeq

/-!
What the operations of `SortedList.c` do to a well formed list.

One specification for each operation: its result, the list afterwards, and the nodes it
leaves alone. None of the guards against corrupted lists is reached, because a list never
holds more than `num_elements` nodes.
-/

namespace LowLevelTasks.SortedListSpec

open LowLevelTasks.Strings LowLevelTasks.Chain LowLevelTasks.SortedList
open LowLevelTasks.SortedSeq

variable {α : Type} [DecidableEq α] {h : Heap α} {list : α} {xs : List α} {numElements : ℕ}

omit [DecidableEq α] in
/-- On a chain the search loop stops before the first node whose key fails the condition, as
long as the budget lasts that far. -/
lemma searchLoop_eq {goOn : CString → Option Bool} {p : CString → Bool}
    (hg : ∀ k, goOn k = some (p k)) {it : α} {left : ℕ} (limiter : ℕ)
    (hl : Linked h.links it xs) (hk : ∀ x ∈ xs, (h x).key = some (h.keyOf x))
    (hlen : (xs.takeWhile fun x => p (h.keyOf x)).length ≤ left) :
    searchLoop h goOn left it limiter =
      some (lastOf it (xs.takeWhile fun x => p (h.keyOf x)),
        limiter + (xs.takeWhile fun x => p (h.keyOf x)).length) := by
  induction xs generalizing it left limiter with
  | nil =>
    have hnone : (h it).next = none := hl
    rw [searchLoop.eq_def]
    simp [hnone]
  | cons x xs ih =>
    obtain ⟨hn, -, htail⟩ := hl
    have hn' : (h it).next = some x := hn
    have hkx := hk x (by simp)
    rw [searchLoop.eq_def]
    simp only [hn', hkx, hg, Option.bind_eq_bind, Option.bind_some]
    by_cases hp : p (h.keyOf x) = true
    · rw [List.takeWhile_cons_of_pos (by simpa using hp)] at hlen ⊢
      cases left with
      | zero => simp at hlen
      | succ left =>
        simp only [List.length_cons, lastOf_cons] at hlen ⊢
        simp only [hp, if_true]
        rw [ih (limiter + 1) htail (fun y hy => hk y (List.mem_cons_of_mem x hy)) (by omega)]
        congr 2
        omega
    · rw [List.takeWhile_cons_of_neg (by simpa using hp)]
      simp [hp]

/-! ### Insertion -/

/-- Below the limit the pointer writes of the insertion are a splice. -/
lemma links_linkIn (h : Heap α) (element it : α) {limiter : ℕ} (hlim : limiter < numElements) :
    (linkIn numElements h element it limiter).links = h.links.splice it element := by
  have h1 : limiter ≤ numElements := hlim.le
  have h2 : limiter ≠ numElements := hlim.ne
  cases hn : (h it).next with
  | none =>
    simp only [Heap.links, Links.splice, linkIn, if_pos h1, hn]
    congr 1
    · funext b; simp
    · funext b; simp
  | some nx =>
    simp only [Heap.links, Links.splice, linkIn, if_pos h1, hn, if_neg h2]
    congr 1
    · funext b; simp
    · funext b; simp [eq_comm]

lemma key_linkIn (element it b : α) (limiter : ℕ) :
    (linkIn numElements h element it limiter b).key = (h b).key := by
  unfold linkIn
  split
  · dsimp only
    split
    · simp
    · split <;> simp
  · rfl

lemma keyOf_linkIn (element it : α) (limiter : ℕ) :
    (linkIn numElements h element it limiter).keyOf = h.keyOf :=
  Heap.keyOf_congr (key_linkIn element it · limiter)

lemma linkIn_of_ne {element it b : α} {limiter : ℕ} (he : b ≠ element) (hi : b ≠ it)
    (hn : (h it).next ≠ some b) : linkIn numElements h element it limiter b = h b := by
  unfold linkIn
  split
  · dsimp only
    rw [setNext_of_ne _ _ hi, setPrev_of_ne _ _ he]
    cases hnx : (h it).next with
    | none => exact setNext_of_ne _ _ he
    | some nx =>
      have hb : b ≠ nx := fun e => hn (by rw [hnx, e])
      dsimp only
      split
      · exact setNext_of_ne _ _ he
      · rw [setNext_of_ne _ _ he, setPrev_of_ne _ _ hb]
  · rfl

/-- **Insertion.** A fresh node with a key goes directly before the first node whose key is
not smaller; the nodes outside the list keep their fields. -/
theorem insert_spec {x : α} {k : CString} (hr : Represents h list xs) (hx : x ∉ list :: xs)
    (hk : (h x).key = some k) (hlen : xs.length < numElements) :
    ∃ h', sortedListInsert numElements h list x = some h' ∧
      Represents h' list (insertSorted h.keyOf x xs) ∧ (∀ b, (h' b).key = (h b).key) ∧
      ∀ b, b ∉ x :: list :: xs → h' b = h b := by
  have hkx : h.keyOf x = k := by simp [Heap.keyOf, hk]
  set p : CString → Bool := fun k' => decide (k' < h.keyOf x) with hp
  set l := xs.takeWhile (fun y => p (h.keyOf y)) with hldef
  set r := xs.dropWhile (fun y => p (h.keyOf y)) with hrdef
  have hxs : l ++ r = xs := List.takeWhile_append_dropWhile
  have hllen : l.length < numElements := by
    have : l.length ≤ xs.length := (List.takeWhile_prefix _).length_le
    omega
  have hgoOn : ∀ k', insertGoOn h x k' = some (p k') := fun k' => by
    simp [insertGoOn, hk, hp, hkx]
  have hsearch := searchLoop_eq hgoOn 0 hr.linked hr.keyed hllen.le
  rw [← hldef, Nat.zero_add] at hsearch
  have hlinks := links_linkIn h x (lastOf list l) hllen
  refine ⟨linkIn numElements h x (lastOf list l) l.length, ?_, ?_, ?_, ?_⟩
  · simp [sortedListInsert, hsearch]
  · refine ⟨?_, ?_, ?_, ?_⟩
    · rw [hlinks]
      have hlr := hr.linked
      have hnd := hr.nodup
      rw [← hxs] at hlr hnd hx
      exact linked_splice hlr hnd hx
    · have hperm := (insertSorted_perm h.keyOf x xs).cons list
      rw [hperm.nodup_iff, (List.Perm.swap x list xs).nodup_iff]
      exact List.nodup_cons.mpr ⟨hx, hr.nodup⟩
    · intro y hy
      rw [keyOf_linkIn, key_linkIn]
      rcases mem_insertSorted.mp hy with rfl | hy
      · rw [hk, hkx]
      · exact hr.keyed y hy
    · have hasc : Ascending h.keyOf xs := hr.sorted
      rw [keyOf_linkIn]
      exact hasc.insertSorted x
  · exact fun b => key_linkIn _ _ _ _
  · intro b hb
    simp only [List.mem_cons, not_or] at hb
    have hlast := lastOf_mem list l
    refine linkIn_of_ne hb.1 ?_ ?_
    · rintro rfl
      rcases List.mem_cons.mp hlast with e | e
      · exact hb.2.1 e
      · exact hb.2.2 (by rw [← hxs]; exact List.mem_append_left r e)
    · -- the node after the place is a node of the list
      intro hn
      have hlr := hr.linked
      rw [← hxs] at hlr
      have hhead := (linked_append.mp hlr).2.next_eq_head?
      have : b ∈ r := List.mem_of_mem_head? (by rw [← hhead]; exact hn)
      exact hb.2.2 (by rw [← hxs]; exact List.mem_append_right l this)

/-! ### Deletion -/

/-- **Deletion.** The links around a node of the list are intact, so the node is unlinked;
its own fields and the nodes outside the list are not written. -/
theorem delete_spec {x : α} (hr : Represents h list xs) (hx : x ∈ xs) :
    ∃ h', deleteUnlink h x = (h', 0) ∧ Represents h' list (xs.erase x) ∧
      (∀ b, (h' b).key = (h b).key) ∧ h' x = h x ∧ ∀ b, b ∉ list :: xs → h' b = h b := by
  obtain ⟨l, r, rfl⟩ := List.append_of_mem hx
  have hnd := hr.nodup
  have hxl : x ∉ l := by
    intro hm
    exact (List.nodup_append.mp (List.nodup_cons.mp hnd).2).2.2 x hm x (by simp) rfl
  obtain ⟨hpn, hxp, hxn⟩ := hr.linked.around
  replace hpn : (h (lastOf list l)).next = some x := hpn
  replace hxp : (h x).prev = some (lastOf list l) := hxp
  replace hxn : (h x).next = r.head? := hxn
  have hlast := lastOf_mem list l
  have hxlast : x ≠ lastOf list l := by
    intro e
    rw [← e] at hlast
    rcases List.mem_cons.mp hlast with e' | e'
    · exact (List.nodup_cons.mp hnd).1 (by simp [e'])
    · exact hxl e'
  have hmem : ∀ b, b = lastOf list l ∨ r.head? = some b → b ∈ list :: (l ++ x :: r) := by
    rintro b (rfl | hb)
    · rcases List.mem_cons.mp hlast with e | e
      · simp [e]
      · simp [e]
    · have := List.mem_of_mem_head? (show b ∈ r.head? from hb)
      simp [this]
  -- the four facts below carry over from the links to the heap after the writes
  have key : ∀ h' : Heap α, h'.links = h.links.unlink x → (∀ b, (h' b).key = (h b).key) →
      Represents h' list ((l ++ x :: r).erase x) := by
    intro h' hl' hk'
    have hkeyOf : h'.keyOf = h.keyOf := Heap.keyOf_congr hk'
    have hsub : (l ++ r).Sublist (l ++ x :: r) := by simp
    rw [erase_middle hxl]
    refine ⟨?_, ?_, ?_, ?_⟩
    · rw [hl']; exact linked_unlink hr.linked hnd
    · exact hnd.sublist (hsub.cons_cons list)
    · intro y hy
      rw [hkeyOf, hk']
      exact hr.keyed y (hsub.subset hy)
    · rw [hkeyOf]; exact Ascending.sublist hr.sorted hsub
  cases hq : r.head? with
  | none =>
    have hxn' : (h x).next = none := hxn.trans hq
    refine ⟨h.setNext (lastOf list l) none, ?_, key _ ?_ (by simp), by simp, ?_, ?_⟩
    · simp [deleteUnlink, hxp, hpn, hxn']
    · simp only [Heap.links, Links.unlink, hxp, hxn']
      congr 1
      · funext b; simp [eq_comm]
      · funext b; simp
    · exact setNext_of_ne _ _ hxlast
    · intro b hb
      exact setNext_of_ne _ _ fun e => hb (hmem b (Or.inl e))
  | some q =>
    have hxn' : (h x).next = some q := hxn.trans hq
    have hqp : (h q).prev = some x := by
      have hl : Linked h.links list ((l ++ [x]) ++ r) := by simpa using hr.linked
      have := hl.prev_head hq
      rwa [lastOf_append] at this
    have hxq : x ≠ q := by
      rintro rfl
      have := List.mem_of_mem_head? (show x ∈ r.head? from hq)
      have hnd' := (List.nodup_append.mp (List.nodup_cons.mp hnd).2).2.1
      exact (List.nodup_cons.mp hnd').1 this
    refine ⟨(h.setNext (lastOf list l) (some q)).setPrev q (some (lastOf list l)), ?_,
      key _ ?_ (by simp), by simp, ?_, ?_⟩
    · simp [deleteUnlink, hxp, hpn, hxn', hqp]
    · simp only [Heap.links, Links.unlink, hxp, hxn']
      congr 1
      · funext b; simp [eq_comm]
      · funext b; simp [eq_comm]
    · rw [setPrev_of_ne _ _ hxq, setNext_of_ne _ _ hxlast]
    · intro b hb
      have hbq : b ≠ q := by rintro rfl; exact hb (hmem b (Or.inr hq))
      rw [setPrev_of_ne _ _ hbq, setNext_of_ne _ _ fun e => hb (hmem b (Or.inl e))]

/-- A node that has been unlinked still points at the node before it, which does not point
back: unlinking it again is refused. -/
theorem deleteUnlink_twice {x : α} (hr : Represents h list xs) (hx : x ∈ xs) :
    ∃ h', deleteUnlink h x = (h', 0) ∧ deleteUnlink h' x = (h', 1) := by
  obtain ⟨h', hdel, hrep, -, hsame, -⟩ := delete_spec hr hx
  refine ⟨h', hdel, ?_⟩
  obtain ⟨l, r, rfl⟩ := List.append_of_mem hx
  have hnd := (List.nodup_append.mp (List.nodup_cons.mp hr.nodup).2)
  have hxl : x ∉ l := fun hm => hnd.2.2 x hm x (by simp) rfl
  rw [erase_middle hxl] at hrep
  have hxp : (h' x).prev = some (lastOf list l) := by
    rw [hsame]
    exact hr.linked.around.2.1
  have hpn : (h' (lastOf list l)).next = r.head? :=
    (linked_append.mp hrep.linked).2.next_eq_head?
  have hne : r.head? ≠ some x := fun e =>
    (List.nodup_cons.mp hnd.2.1).1 (List.mem_of_mem_head? e)
  simp [deleteUnlink, hxp, hpn, hne]

/-- Clearing the links of a node outside the list. -/
lemma represents_setNext {x : α} (hr : Represents h list xs) (hx : x ∉ list :: xs) (v : Option α) :
    Represents (h.setNext x v) list xs :=
  hr.frame fun _ ha => setNext_of_ne _ _ fun e => hx (e ▸ ha)

lemma represents_setPrev {x : α} (hr : Represents h list xs) (hx : x ∉ list :: xs) (v : Option α) :
    Represents (h.setPrev x v) list xs :=
  hr.frame fun _ ha => setPrev_of_ne _ _ fun e => hx (e ▸ ha)

lemma represents_notMem_erase {x : α} (hr : Represents h list xs) (hx : x ∈ xs) :
    x ∉ list :: xs.erase x := by
  have hnd := List.nodup_cons.mp hr.nodup
  intro hm
  rcases List.mem_cons.mp hm with e | e
  · exact hnd.1 (e ▸ hx)
  · exact (hnd.2.mem_erase_iff.mp e).1 rfl

/-- **Deletion, whole.** The node is removed and left with NULL links. -/
theorem sortedListDelete_spec {x : α} (hr : Represents h list xs) (hx : x ∈ xs) :
    ∃ h', sortedListDelete h x = (h', 0) ∧ Represents h' list (xs.erase x) ∧
      (∀ b, (h' b).key = (h b).key) ∧ (h' x).prev = none ∧ (h' x).next = none ∧
      ∀ b, b ∉ list :: xs → h' b = h b := by
  obtain ⟨h', hdel, hrep, hkeys, -, hframe⟩ := delete_spec hr hx
  have hout := represents_notMem_erase hr hx
  refine ⟨(h'.setNext x none).setPrev x none, by simp [sortedListDelete, hdel], ?_, ?_, by simp,
    by simp, ?_⟩
  · exact represents_setPrev (represents_setNext hrep hout none) hout none
  · intro b
    rw [key_setPrev, key_setNext, hkeys]
  · intro b hb
    have hbx : b ≠ x := by rintro rfl; exact hb (List.mem_cons_of_mem list hx)
    rw [setPrev_of_ne _ _ hbx, setNext_of_ne _ _ hbx, hframe b hb]

/-! ### Lookup and length -/

omit [DecidableEq α] in
/-- **Lookup.** The first node with the key, or NULL. -/
theorem lookup_spec (hr : Represents h list xs) (hlen : xs.length ≤ numElements) (key : CString) :
    sortedListLookup numElements h list key =
      some (xs.find? fun x => decide (h.keyOf x = key)) := by
  set p : CString → Bool := fun k => !decide (k = key) with hp
  set l := xs.takeWhile (fun y => p (h.keyOf y)) with hldef
  set r := xs.dropWhile (fun y => p (h.keyOf y)) with hrdef
  have hxs : l ++ r = xs := List.takeWhile_append_dropWhile
  have hllen : l.length + r.length = xs.length := by rw [← hxs, List.length_append]
  have hgoOn : ∀ k, lookupGoOn key k = some (p k) := fun k => by simp [lookupGoOn, hp]
  have hle : l.length ≤ numElements := by omega
  have hsearch := searchLoop_eq hgoOn 0 hr.linked hr.keyed hle
  rw [← hldef, Nat.zero_add] at hsearch
  have hfind : (xs.find? fun x => decide (h.keyOf x = key)) = r.head? := by
    rw [List.find?_eq_head?_dropWhile_not]
  have hnext : (h (lastOf list l)).next = r.head? := by
    have hlr := hr.linked
    rw [← hxs] at hlr
    exact (linked_append.mp hlr).2.next_eq_head?
  rw [hfind]
  simp only [sortedListLookup, hsearch, Option.bind_eq_bind, Option.bind_some, hnext,
    if_pos (show l.length ≤ numElements by omega)]
  cases hr' : r with
  | nil => simp
  | cons y ys =>
    have : l.length ≠ numElements := by
      rw [hr', List.length_cons] at hllen
      omega
    simp [this]

lemma lengthLoop_eq {it : α} {left limiter : ℕ} (hl : Linked h.links it xs)
    (hlen : xs.length ≤ left) : lengthLoop h left it limiter = (limiter + xs.length : ℕ) := by
  induction xs generalizing it left limiter with
  | nil =>
    have hnone : (h it).next = none := hl
    rw [lengthLoop.eq_def]
    simp [hnone]
  | cons x xs ih =>
    obtain ⟨hn, hp, htail⟩ := hl
    have hn' : (h it).next = some x := hn
    have hp' : (h x).prev = some it := hp
    rw [lengthLoop.eq_def]
    simp only [hn', hp', ne_eq, not_true_eq_false, if_false]
    cases left with
    | zero => simp at hlen
    | succ left =>
      simp only [List.length_cons] at hlen ⊢
      rw [ih htail (by omega)]
      congr 1
      omega

/-- **Length.** The number of nodes. -/
theorem length_spec (hr : Represents h list xs) (hlen : xs.length ≤ numElements) :
    sortedListLength numElements h list = xs.length := by
  rw [sortedListLength, lengthLoop_eq hr.linked hlen, Nat.zero_add]

end LowLevelTasks.SortedListSpec
