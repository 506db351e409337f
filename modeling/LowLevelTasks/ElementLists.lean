import LowLevelTasks.SortedListSpec
import LowLevelTasks.Sublists
import Mathlib.Data.List.Find
import Mathlib.Data.List.Perm.Subperm

/-!
The lists of a program over its array of elements, and which of them a thread works on.

`Holds` says which elements are in which of the lists. Every list operation of a thread is one
lemma: what it returns, and which elements the lists hold afterwards. The element an operation
is given is in at most the one list its bin names, so the other lists are not touched.
-/

namespace LowLevelTasks.ElementLists

open LowLevelTasks.Strings LowLevelTasks.SortedSeq LowLevelTasks.SortedList
open LowLevelTasks.SortedListSpec LowLevelTasks.Sublists

/-- What has happened to an element so far. -/
inductive History
  | fresh | inserted | deleted
  deriving DecidableEq

/-- Which elements are in the lists after an insertion, -/
lemma update_inserted_iff {history : ℕ → History} {n e : ℕ} :
    Function.update history n .inserted e = .inserted ↔ history e = .inserted ∨ e = n := by
  by_cases he : e = n <;> simp [he]

/-- and after a deletion. -/
lemma update_deleted_iff {history : ℕ → History} {n e : ℕ} :
    Function.update history n .deleted e = .inserted ↔ history e = .inserted ∧ e ≠ n := by
  by_cases he : e = n <;> simp [he]

/-! ### The elements of a thread -/

section Ranges

variable (numIterations : ℕ)

def startIndex (id : ℕ) : ℕ := id * numIterations

def endIndex (id : ℕ) : ℤ := ((id + 1) * numIterations : ℕ) - 1

def Owned (id e : ℕ) : Prop :=
  startIndex numIterations id ≤ e ∧ e < startIndex numIterations (id + 1)

lemma startIndex_succ (id : ℕ) :
    startIndex numIterations (id + 1) = startIndex numIterations id + numIterations := by
  simp [startIndex, Nat.succ_mul]

variable {numIterations}

lemma le_endIndex_iff {id n : ℕ} :
    (n : ℤ) ≤ endIndex numIterations id ↔ n < startIndex numIterations (id + 1) := by
  simp only [endIndex, startIndex]
  omega

/-- Where the loop over the elements of a thread ends. -/
lemma eq_of_endIndex_lt {iterations id n : ℕ} (hn : ¬ (n : ℤ) ≤ endIndex iterations id)
    (hle : n ≤ startIndex iterations (id + 1)) : n = startIndex iterations (id + 1) :=
  le_antisymm hle (not_lt.mp (le_endIndex_iff.not.mp hn))

/-- The elements of a thread are elements of the program. -/
lemma startIndex_le {numThreads id : ℕ} (hid : id < numThreads) :
    startIndex numIterations (id + 1) ≤ numThreads * numIterations :=
  Nat.mul_le_mul_right _ hid

/-- The thread of a range is the only one with an element of it. -/
lemma owned_unique {id id' e : ℕ} (h : Owned numIterations id e) (h' : Owned numIterations id' e) :
    id = id' := by
  obtain ⟨h1, h2⟩ := h
  obtain ⟨h3, h4⟩ := h'
  by_contra hne
  rcases Nat.lt_or_gt_of_ne hne with hlt | hlt
  · have : startIndex numIterations (id + 1) ≤ startIndex numIterations id' :=
      Nat.mul_le_mul_right _ hlt
    omega
  · have : startIndex numIterations (id' + 1) ≤ startIndex numIterations id :=
      Nat.mul_le_mul_right _ hlt
    omega

/-- Every element has its thread. -/
lemma exists_owner {numThreads e : ℕ} (he : e < numThreads * numIterations) :
    ∃ id : Fin numThreads, Owned numIterations id e := by
  have hpos : 0 < numIterations := by
    rcases Nat.eq_zero_or_pos numIterations with h0 | hp
    · simp [h0] at he
    · exact hp
  refine ⟨⟨e / numIterations, Nat.div_lt_of_lt_mul (by rwa [mul_comm])⟩, ?_, ?_⟩
  · exact Nat.div_mul_le_self e numIterations
  · rw [startIndex_succ]
    exact Nat.lt_div_mul_add hpos

end Ranges

/-! ### What the lists hold -/

variable {numElements numLists : ℕ} {key : ℕ → CString} {bin : ℕ → ℕ} {h : Heap Addr}
  {present : ℕ → Prop} {n b : ℕ}

/-- The elements of the list `xs` are those present in the bin `b`. -/
def Members (numElements : ℕ) (bin : ℕ → ℕ) (present : ℕ → Prop) (b : ℕ) (xs : List ℕ) : Prop :=
  ∀ e, e ∈ xs ↔ e < numElements ∧ present e ∧ bin e = b

/-- The elements have their keys, and each list is a well formed sorted chain of exactly the
elements present in its bin. -/
structure Holds (numElements numLists : ℕ) (key : ℕ → CString) (bin : ℕ → ℕ) (h : Heap Addr)
    (present : ℕ → Prop) : Prop where
  keys : ∀ e < numElements, (h (.elem e)).key = some (key e)
  lists : ∀ b < numLists, ∃ xs : List ℕ,
    Represents h (.list b) (xs.map .elem) ∧ Members numElements bin present b xs

lemma mem_map_elem {e : ℕ} {xs : List ℕ} : Addr.elem e ∈ xs.map Addr.elem ↔ e ∈ xs :=
  List.mem_map_of_injective Addr.elem_injective

lemma elem_notMem {e b : ℕ} {xs : List ℕ} (he : e ∉ xs) :
    Addr.elem e ∉ Addr.list b :: xs.map Addr.elem := by
  rw [List.mem_cons, mem_map_elem]
  rintro (h | h)
  · cases h
  · exact he h

lemma Holds.keyOf (hh : Holds numElements numLists key bin h present) {e : ℕ}
    (he : e < numElements) : h.keyOf (.elem e) = key e := by
  rw [Heap.keyOf, hh.keys e he, Option.getD_some]

lemma Represents.nodup_of_map {xs : List ℕ} (hr : Represents h (.list b) (xs.map .elem)) :
    xs.Nodup :=
  List.Nodup.of_map _ (List.nodup_cons.mp hr.nodup).2

/-- A list of present elements fits the budget of the search loops. -/
lemma Members.length_le {xs : List ℕ} (hm : Members numElements bin present b xs)
    (hnd : xs.Nodup) : xs.length ≤ numElements := by
  have hsub : xs ⊆ List.range numElements := fun e he => List.mem_range.mpr ((hm e).mp he).1
  have := (hnd.subperm hsub).length_le
  rwa [List.length_range] at this

lemma Members.length_lt {xs : List ℕ} (hm : Members numElements bin present b xs)
    (hnd : xs.Nodup) (hn : n < numElements) (hx : n ∉ xs) : xs.length < numElements := by
  have hsub : n :: xs ⊆ List.range numElements := by
    intro e he
    rcases List.mem_cons.mp he with rfl | he
    · exact List.mem_range.mpr hn
    · exact List.mem_range.mpr ((hm e).mp he).1
  have := ((List.nodup_cons.mpr ⟨hx, hnd⟩).subperm hsub).length_le
  rw [List.length_range, List.length_cons] at this
  omega

/-- Only the elements present matter. -/
lemma Holds.congr {present' : ℕ → Prop} (hh : Holds numElements numLists key bin h present)
    (hp : ∀ e < numElements, present' e ↔ present e) :
    Holds numElements numLists key bin h present' where
  keys := hh.keys
  lists b hb := by
    obtain ⟨xs, hr, hm⟩ := hh.lists b hb
    refine ⟨xs, hr, fun e => (hm e).trans ⟨?_, ?_⟩⟩
    · rintro ⟨he, hpe, hbe⟩; exact ⟨he, (hp e he).mpr hpe, hbe⟩
    · rintro ⟨he, hpe, hbe⟩; exact ⟨he, (hp e he).mp hpe, hbe⟩

/-- An operation on the list of `n`: it changes that list as told and writes to no node
outside it but the element itself. -/
lemma Holds.of_frame {h' : Heap Addr} {present' : ℕ → Prop} {xs ys : List ℕ}
    (hh : Holds numElements numLists key bin h present)
    (hxs : Members numElements bin present (bin n) xs)
    (hkeys : ∀ a, (h' a).key = (h a).key)
    (hr : Represents h' (.list (bin n)) (ys.map .elem))
    (hys : Members numElements bin present' (bin n) ys)
    (hother : ∀ e, e ≠ n → (present' e ↔ present e))
    (hframe : ∀ a, a ∉ Addr.elem n :: Addr.list (bin n) :: xs.map Addr.elem → h' a = h a) :
    Holds numElements numLists key bin h' present' where
  keys e he := (hkeys _).trans (hh.keys e he)
  lists b hb := by
    by_cases hbn : b = bin n
    · exact hbn ▸ ⟨ys, hr, hys⟩
    · -- the other lists hold neither `n` nor an element of its bin
      obtain ⟨zs, hrz, hmz⟩ := hh.lists b hb
      have hne : ∀ e ∈ zs, e ≠ n := by
        rintro e he rfl
        exact hbn ((hmz e).mp he).2.2.symm
      refine ⟨zs, hrz.frame fun a ha => hframe a ?_, fun e => (hmz e).trans ?_⟩
      · simp only [List.mem_cons, List.mem_map, not_or] at ha ⊢
        rcases ha with rfl | ⟨e, he, rfl⟩
        · exact ⟨by simp, by simpa using hbn, by simp⟩
        · refine ⟨by simpa using hne e he, by simp, ?_⟩
          rintro ⟨e', he', heq⟩
          obtain rfl : e' = e := Addr.elem_injective heq
          exact hbn (((hmz e').mp he).2.2.symm.trans ((hxs e').mp he').2.2)
      · constructor
        · rintro ⟨he, hpe, hbe⟩
          exact ⟨he, (hother e (by rintro rfl; exact hbn hbe.symm)).mpr hpe, hbe⟩
        · rintro ⟨he, hpe, hbe⟩
          exact ⟨he, (hother e (by rintro rfl; exact hbn hbe.symm)).mp hpe, hbe⟩

/-- **Insertion** of an element that is not present. -/
theorem Holds.insert (hh : Holds numElements numLists key bin h present) (hn : n < numElements)
    (hb : bin n < numLists) (hp : ¬ present n) :
    ∃ h', sortedListInsert numElements h (.list (bin n)) (.elem n) = some h' ∧
      Holds numElements numLists key bin h' fun e => present e ∨ e = n := by
  obtain ⟨xs, hr, hm⟩ := hh.lists _ hb
  have hx : n ∉ xs := fun hmem => hp ((hm n).mp hmem).2.1
  have hlen := hm.length_lt (Represents.nodup_of_map hr) hn hx
  obtain ⟨h', hins, hrep, hkeys, hframe⟩ :=
    insert_spec hr (elem_notMem hx) (hh.keys n hn) (by rwa [List.length_map])
  rw [insertSorted_map] at hrep
  refine ⟨h', hins, hh.of_frame hm hkeys hrep (fun e => ?_) (fun e he => by simp [he]) hframe⟩
  rw [mem_insertSorted, hm e]
  constructor
  · rintro (rfl | ⟨he, hpe, hbe⟩)
    · exact ⟨hn, Or.inr rfl, rfl⟩
    · exact ⟨he, Or.inl hpe, hbe⟩
  · rintro ⟨he, hpe | rfl, hbe⟩
    · exact Or.inr ⟨he, hpe, hbe⟩
    · exact Or.inl rfl

/-- **Deletion** of an element that is present. -/
theorem Holds.delete (hh : Holds numElements numLists key bin h present) (hn : n < numElements)
    (hb : bin n < numLists) (hp : present n) :
    ∃ h', deleteUnlink h (.elem n) = (h', 0) ∧
      Holds numElements numLists key bin h' fun e => present e ∧ e ≠ n := by
  obtain ⟨xs, hr, hm⟩ := hh.lists _ hb
  have hx : n ∈ xs := (hm n).mpr ⟨hn, hp, rfl⟩
  have hnd := Represents.nodup_of_map hr
  obtain ⟨h', hdel, hrep, hkeys, -, hframe⟩ := delete_spec hr (mem_map_elem.mpr hx)
  rw [← List.map_erase Addr.elem_injective] at hrep
  refine ⟨h', hdel, hh.of_frame hm hkeys hrep (fun e => ?_) (fun e he => by simp [he])
    fun a ha => hframe a fun hmem => ha (List.mem_cons_of_mem _ hmem)⟩
  rw [hnd.mem_erase_iff, hm e]
  constructor
  · rintro ⟨hne, he, hpe, hbe⟩; exact ⟨he, ⟨hpe, hne⟩, hbe⟩
  · rintro ⟨he, ⟨hpe, hne⟩, hbe⟩; exact ⟨hne, he, hpe, hbe⟩

/-- Writing to the links of an element that is not present. -/
lemma Holds.write {h' : Heap Addr} (hh : Holds numElements numLists key bin h present)
    (hp : ¬ present n) (hkeys : ∀ a, (h' a).key = (h a).key)
    (hframe : ∀ a, a ≠ .elem n → h' a = h a) :
    Holds numElements numLists key bin h' present where
  keys e he := (hkeys _).trans (hh.keys e he)
  lists b hb := by
    obtain ⟨xs, hr, hm⟩ := hh.lists b hb
    have hx : n ∉ xs := fun hmem => hp ((hm n).mp hmem).2.1
    exact ⟨xs, hr.frame fun a ha => hframe a fun e => elem_notMem hx (e ▸ ha), hm⟩

lemma Holds.setNext (hh : Holds numElements numLists key bin h present) (hp : ¬ present n)
    (v : Option Addr) : Holds numElements numLists key bin (h.setNext (.elem n) v) present :=
  hh.write hp (fun _ => key_setNext _ _ _ _) fun _ ha => setNext_of_ne _ _ ha

lemma Holds.setPrev (hh : Holds numElements numLists key bin h present) (hp : ¬ present n)
    (v : Option Addr) : Holds numElements numLists key bin (h.setPrev (.elem n) v) present :=
  hh.write hp (fun _ => key_setPrev _ _ _ _) fun _ ha => setPrev_of_ne _ _ ha

/-- **Lookup.** The first element of the list with the key. -/
theorem Holds.lookup (hh : Holds numElements numLists key bin h present) {xs : List ℕ}
    (hr : Represents h (.list b) (xs.map .elem)) (hm : Members numElements bin present b xs)
    (k : CString) : sortedListLookup numElements h (.list b) k =
      some ((xs.find? fun e => decide (key e = k)).map .elem) := by
  have hlen := hm.length_le (Represents.nodup_of_map hr)
  rw [lookup_spec hr (by rwa [List.length_map]) k, List.find?_map]
  congr 2
  refine List.find?_congr fun e he => ?_
  rw [Function.comp_apply, hh.keyOf ((hm e).mp he).1]

end LowLevelTasks.ElementLists
