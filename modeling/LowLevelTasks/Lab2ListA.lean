import LowLevelTasks.ElementLists
import LowLevelTasks.Threads
import Mathlib.Algebra.Order.BigOperators.Group.Finset
import Mathlib.Algebra.Order.Interval.Finset.SuccPred
import Mathlib.Data.Nat.SuccPred
import Mathlib.Tactic.Ring

/-!
The threads of `lab2_list.c` in project 2a.

Every thread inserts its own elements into the one list, checks its length, and then looks up
the key of each of its elements and deletes what it finds. Nothing makes the keys different:
what a thread finds may be the element of another. Under a mutex or a spin lock a critical
section is one step, and the deletion clears the links in two more steps after it.
-/

namespace LowLevelTasks.Lab2ListA

open LowLevelTasks.Runs LowLevelTasks.Threads LowLevelTasks.Strings LowLevelTasks.SortedList
open LowLevelTasks.SortedListSpec LowLevelTasks.Sublists LowLevelTasks.ElementLists

structure Config where
  numThreads : ℕ
  numIterations : ℕ

def Config.numElements (c : Config) : ℕ := c.numThreads * c.numIterations

/-- Where a thread is in `list_operations`, or in a function it calls. -/
inductive Pc
  | insertLoop | insertCs | checkLength
  | deleteLoop | lookupCs | deleteCs | clearNext | clearPrev
  | returned
  deriving DecidableEq

/-- Why the process has exited with status 2. -/
inductive Exit
  | lengthCorrupted | noMatch | deleteCorrupted | segmentationFault
  deriving DecidableEq

structure Shared where
  heap : Heap Addr
  history : ℕ → History
  exited : Option Exit

structure Local where
  pc : Pc
  n : ℕ
  matching : Option Addr

def Shared.exit (g : Shared) (e : Exit) : Shared := { g with exited := some e }

variable (c : Config)

def checkCorrectListLength (g : Shared) (enforce : ℕ) : Shared :=
  if sortedListLength c.numElements g.heap (.list 0) = -1 ∧ enforce = 1 then
    g.exit .lengthCorrupted
  else g

/-- The next step of the thread `id`. No step is left once it has returned or the process has
exited. -/
def act (id : Fin c.numThreads) (_ : Unit) (g : Shared) (l : Local) : Option (Shared × Local) :=
  if g.exited.isSome then none
  else
    match l.pc with
    | .insertLoop =>
      if (l.n : ℤ) ≤ endIndex c.numIterations id then some (g, { l with pc := .insertCs })
      else some (g, { l with pc := .checkLength })
    | .insertCs =>
      match sortedListInsert c.numElements g.heap (.list 0) (.elem l.n) with
      | none => some (g.exit .segmentationFault, l)
      | some heap =>
        some ({ g with heap := heap, history := Function.update g.history l.n .inserted },
          { l with n := l.n + 1, pc := .insertLoop })
    | .checkLength =>
      some (checkCorrectListLength c g 0,
        { l with n := startIndex c.numIterations id, pc := .deleteLoop })
    | .deleteLoop =>
      if (l.n : ℤ) ≤ endIndex c.numIterations id then some (g, { l with pc := .lookupCs })
      else some (g, { l with pc := .returned })
    | .lookupCs =>
      match (g.heap (.elem l.n)).key with
      | none => some (g.exit .segmentationFault, l)
      | some key =>
        match sortedListLookup c.numElements g.heap (.list 0) key with
        | none => some (g.exit .segmentationFault, l)
        | some none => some (g.exit .noMatch, l)
        | some (some matching) => some (g, { l with matching := some matching, pc := .deleteCs })
    | .deleteCs =>
      match l.matching with
      | none => some (g.exit .segmentationFault, l)
      | some matching =>
        let (heap, code) := deleteUnlink g.heap matching
        if code = 1 then some (g.exit .deleteCorrupted, l)
        else
          let history := match matching with
            | .elem m => Function.update g.history m .deleted
            | .list _ => g.history
          some ({ g with heap := heap, history := history }, { l with pc := .clearNext })
    | .clearNext =>
      match l.matching with
      | none => some (g.exit .segmentationFault, l)
      | some matching => some ({ g with heap := g.heap.setNext matching none },
          { l with pc := .clearPrev })
    | .clearPrev =>
      match l.matching with
      | none => some (g.exit .segmentationFault, l)
      | some matching => some ({ g with heap := g.heap.setPrev matching none },
          { l with n := l.n + 1, pc := .deleteLoop })
    | .returned => none

/-- The history once a node is unlinked. -/
def unlinked (history : ℕ → History) : Addr → ℕ → History
  | .elem m => Function.update history m .deleted
  | .list _ => history

/-- All that a step can do: `act` from the outside. -/
inductive Moves (id : Fin c.numThreads) (g : Shared) (l : Local) : Shared → Local → Prop
  | exitInsert (hpc : l.pc = .insertCs)
      (hins : sortedListInsert c.numElements g.heap (.list 0) (.elem l.n) = none) :
      Moves id g l (g.exit .segmentationFault) l
  | exitLookup (hpc : l.pc = .lookupCs)
      (hcrash : ∀ key, (g.heap (.elem l.n)).key = some key →
        sortedListLookup c.numElements g.heap (.list 0) key = none) :
      Moves id g l (g.exit .segmentationFault) l
  | exitUnmatched (hpc : l.pc = .deleteCs ∨ l.pc = .clearNext ∨ l.pc = .clearPrev)
      (hmat : l.matching = none) : Moves id g l (g.exit .segmentationFault) l
  | noMatch {key : CString} (hpc : l.pc = .lookupCs) (hkey : (g.heap (.elem l.n)).key = some key)
      (hnone : sortedListLookup c.numElements g.heap (.list 0) key = some none) :
      Moves id g l (g.exit .noMatch) l
  | refuse {matching : Addr} (hpc : l.pc = .deleteCs) (hmat : l.matching = some matching)
      (hcode : (deleteUnlink g.heap matching).2 = 1) : Moves id g l (g.exit .deleteCorrupted) l
  | enterInsert (hpc : l.pc = .insertLoop) (hn : (l.n : ℤ) ≤ endIndex c.numIterations id) :
      Moves id g l g { l with pc := .insertCs }
  | endInsert (hpc : l.pc = .insertLoop) (hn : ¬ (l.n : ℤ) ≤ endIndex c.numIterations id) :
      Moves id g l g { l with pc := .checkLength }
  | insert {heap : Heap Addr} (hpc : l.pc = .insertCs)
      (hins : sortedListInsert c.numElements g.heap (.list 0) (.elem l.n) = some heap) :
      Moves id g l { g with heap := heap, history := Function.update g.history l.n .inserted }
        { l with n := l.n + 1, pc := .insertLoop }
  | check (hpc : l.pc = .checkLength) :
      Moves id g l g { l with n := startIndex c.numIterations id, pc := .deleteLoop }
  | enterDelete (hpc : l.pc = .deleteLoop) (hn : (l.n : ℤ) ≤ endIndex c.numIterations id) :
      Moves id g l g { l with pc := .lookupCs }
  | endDelete (hpc : l.pc = .deleteLoop) (hn : ¬ (l.n : ℤ) ≤ endIndex c.numIterations id) :
      Moves id g l g { l with pc := .returned }
  | lookup {key : CString} {matching : Addr} (hpc : l.pc = .lookupCs)
      (hkey : (g.heap (.elem l.n)).key = some key)
      (hfound : sortedListLookup c.numElements g.heap (.list 0) key = some (some matching)) :
      Moves id g l g { l with matching := some matching, pc := .deleteCs }
  | unlink {matching : Addr} (hpc : l.pc = .deleteCs) (hmat : l.matching = some matching)
      (hcode : (deleteUnlink g.heap matching).2 ≠ 1) :
      Moves id g l
        { g with
          heap := (deleteUnlink g.heap matching).1
          history := unlinked g.history matching }
        { l with pc := .clearNext }
  | clearNext {matching : Addr} (hpc : l.pc = .clearNext) (hmat : l.matching = some matching) :
      Moves id g l { g with heap := g.heap.setNext matching none } { l with pc := .clearPrev }
  | clearPrev {matching : Addr} (hpc : l.pc = .clearPrev) (hmat : l.matching = some matching) :
      Moves id g l { g with heap := g.heap.setPrev matching none }
        { l with n := l.n + 1, pc := .deleteLoop }

variable {c} in
/-- **The cases of a step**, once for all invariants. The check of the length enforces nothing. -/
lemma act_moves {id : Fin c.numThreads} {g g' : Shared} {l l' : Local}
    (h : act c id () g l = some (g', l')) : g.exited = none ∧ Moves c id g l g' l' := by
  unfold act at h
  by_cases hex : g.exited.isSome = true
  · rw [if_pos hex] at h
    cases h
  rw [if_neg hex] at h
  refine ⟨by simpa using hex, ?_⟩
  obtain ⟨pc, n, matching⟩ := l
  cases pc with
  | insertLoop =>
    dsimp only at h
    split at h
    · next hn =>
      obtain ⟨rfl, rfl⟩ := by simpa using h
      exact .enterInsert rfl hn
    · next hn =>
      obtain ⟨rfl, rfl⟩ := by simpa using h
      exact .endInsert rfl hn
  | insertCs =>
    dsimp only at h
    cases hins : sortedListInsert c.numElements g.heap (.list 0) (.elem n) with
    | none =>
      obtain ⟨rfl, rfl⟩ := by simpa [hins] using h
      exact .exitInsert rfl hins
    | some heap =>
      obtain ⟨rfl, rfl⟩ := by simpa [hins] using h
      exact .insert rfl hins
  | checkLength =>
    obtain ⟨rfl, rfl⟩ := by simpa [checkCorrectListLength] using h
    exact .check rfl
  | deleteLoop =>
    dsimp only at h
    split at h
    · next hn =>
      obtain ⟨rfl, rfl⟩ := by simpa using h
      exact .enterDelete rfl hn
    · next hn =>
      obtain ⟨rfl, rfl⟩ := by simpa using h
      exact .endDelete rfl hn
  | lookupCs =>
    dsimp only at h
    cases hkey : (g.heap (.elem n)).key with
    | none =>
      obtain ⟨rfl, rfl⟩ := by simpa [hkey] using h
      exact .exitLookup rfl (by simp [hkey])
    | some key =>
      rcases hfound : sortedListLookup c.numElements g.heap (.list 0) key with _ | _ | m
      · obtain ⟨rfl, rfl⟩ := by simpa [hkey, hfound] using h
        refine .exitLookup rfl fun key' hkey' => ?_
        rw [← Option.some.inj (hkey.symm.trans hkey'), hfound]
      · obtain ⟨rfl, rfl⟩ := by simpa [hkey, hfound] using h
        exact .noMatch rfl hkey hfound
      · obtain ⟨rfl, rfl⟩ := by simpa [hkey, hfound] using h
        exact .lookup rfl hkey hfound
  | deleteCs =>
    cases matching with
    | none =>
      obtain ⟨rfl, rfl⟩ := by simpa using h
      exact .exitUnmatched (.inl rfl) rfl
    | some matching =>
      dsimp only at h
      split at h
      · next hcode =>
        obtain ⟨rfl, rfl⟩ := by simpa using h
        exact .refuse rfl rfl hcode
      · next hcode =>
        obtain ⟨rfl, rfl⟩ := Prod.mk.inj (Option.some.inj h)
        cases matching <;> exact .unlink rfl rfl hcode
  | clearNext =>
    cases matching with
    | none =>
      obtain ⟨rfl, rfl⟩ := by simpa using h
      exact .exitUnmatched (.inr (.inl rfl)) rfl
    | some matching =>
      obtain ⟨rfl, rfl⟩ := by simpa using h
      exact .clearNext rfl rfl
  | clearPrev =>
    cases matching with
    | none =>
      obtain ⟨rfl, rfl⟩ := by simpa using h
      exact .exitUnmatched (.inr (.inr rfl)) rfl
    | some matching =>
      obtain ⟨rfl, rfl⟩ := by simpa using h
      exact .clearPrev rfl rfl
  | returned => cases h

abbrev St := State (Fin c.numThreads) Shared Local

def init (heap : Heap Addr) : St c where
  shared := ⟨heap, fun _ => .fresh, none⟩
  locals id := ⟨.insertLoop, startIndex c.numIterations id, none⟩

/-- The memory the threads start from: an empty head, and elements with any keys. -/
structure Initial (h : Heap Addr) : Prop where
  head : h (.list 0) = ⟨none, none, none⟩
  keys : ∀ e < c.numElements, (h (.elem e)).key = some (h.keyOf (.elem e))

/-- No lookup has come back empty and no deletion has found corrupted links, either of which
ends the process; and once all threads have returned, the list is empty. -/
structure Safe (s : St c) : Prop where
  running : s.shared.exited = none
  emptied : (∀ id, (s.locals id).pc = .returned) → Represents s.shared.heap (.list 0) []

/-- The node `m` is the first of the list with the key `k`. -/
def FirstWith (h : Heap Addr) (k : CString) (m : Addr) : Prop :=
  ∃ xs, Represents h (.list 0) xs ∧ (xs.find? fun a => decide ((h a).key = some k)) = some m

/-- A thread is between the lookup and the deletion of the node `m`. -/
def Local.Holding (l : Local) (m : Addr) : Prop := l.pc = .deleteCs ∧ l.matching = some m

/-- The step is no lookup of a key whose first node another thread is about to delete. -/
def Unheld (s : St c) (a : Fin c.numThreads × Unit) : Prop :=
  (s.locals a.1).pc = .lookupCs → ∀ u, u ≠ a.1 → ∀ m k, (s.locals u).Holding m →
    (s.shared.heap (.elem (s.locals a.1).n)).key = some k → ¬ FirstWith s.shared.heap k m

/-! ### The invariant -/

/-- The elements the thread still accounts for start here, -/
def Local.first (id : ℕ) (l : Local) : ℕ :=
  match l.pc with
  | .deleteLoop | .lookupCs | .deleteCs => l.n
  | .clearNext | .clearPrev => l.n + 1
  | .returned => startIndex c.numIterations (id + 1)
  | _ => startIndex c.numIterations id

/-- and end before this one. -/
def Local.last (id : ℕ) (l : Local) : ℕ :=
  match l.pc with
  | .insertLoop | .insertCs => l.n
  | _ => startIndex c.numIterations (id + 1)

def Bounded (id : ℕ) (l : Local) : Prop :=
  match l.pc with
  | .insertLoop | .deleteLoop =>
    startIndex c.numIterations id ≤ l.n ∧ l.n ≤ startIndex c.numIterations (id + 1)
  | .insertCs | .lookupCs | .deleteCs | .clearNext | .clearPrev =>
    startIndex c.numIterations id ≤ l.n ∧ l.n < startIndex c.numIterations (id + 1)
  | _ => True

/-- What the thread has found: an element in the list with the wanted key, until it is
deleted. -/
def Targeted (key : ℕ → CString) (history : ℕ → History) (l : Local) : Prop :=
  match l.pc with
  | .deleteCs => ∃ m < c.numElements, l.matching = some (.elem m) ∧ history m = .inserted ∧
      key m = key l.n
  | .clearNext | .clearPrev => ∃ m, l.matching = some (.elem m) ∧ history m = .deleted
  | _ => True

structure Good (key : ℕ → CString) (id : ℕ) (history : ℕ → History) (l : Local) : Prop where
  bounded : Bounded c id l
  targeted : Targeted c key history l
  fresh : ∀ e, Owned c.numIterations id e → (history e = .fresh ↔ l.last c id ≤ e)

structure Sound (key : ℕ → CString) (g : Shared) : Prop where
  holds : Holds c.numElements 1 key (fun _ => 0) g.heap fun e => g.history e = .inserted
  running : g.exited = none

/-- The elements in the list with the key `k`. -/
def stored (key : ℕ → CString) (history : ℕ → History) (k : CString) : Finset ℕ :=
  (Finset.range c.numElements).filter fun e => history e = .inserted ∧ key e = k

/-- The deletions of a node with the key `k` that the thread has inserted for and not yet
made. -/
def pending (key : ℕ → CString) (k : CString) (id : ℕ) (l : Local) : Finset ℕ :=
  (Finset.Ico (l.first c id) (l.last c id)).filter fun e => key e = k

structure Inv (key : ℕ → CString) (s : St c) : Prop where
  sound : Sound c key s.shared
  good : ∀ id : Fin c.numThreads, Good c key id s.shared.history (s.locals id)
  exclusive : ∀ t u, t ≠ u → ¬ ∃ m, (s.locals t).Holding m ∧ (s.locals u).Holding m
  total : ∀ k, ((stored c key s.shared.history k).card : ℤ) =
    ∑ id : Fin c.numThreads, ((pending c key k id (s.locals id)).card : ℤ)

variable {c} {key : ℕ → CString}

lemma mem_stored {history : ℕ → History} {k : CString} {e : ℕ} :
    e ∈ stored c key history k ↔ e < c.numElements ∧ history e = .inserted ∧ key e = k := by
  simp [stored]

/-- The lookup of a key that some element in the list has finds the first node with it. -/
lemma Sound.lookup_eq {g : Shared} {k : CString} (hs : Sound c key g)
    (hne : (stored c key g.history k).Nonempty) :
    ∃ m < c.numElements, g.history m = .inserted ∧ key m = k ∧
      sortedListLookup c.numElements g.heap (.list 0) k = some (some (.elem m)) ∧
      FirstWith g.heap k (.elem m) := by
  obtain ⟨xs, hr, hm⟩ := hs.holds.lists 0 one_pos
  obtain ⟨e, he⟩ := hne
  obtain ⟨hlt, hin, hkey⟩ := mem_stored.mp he
  rw [hs.holds.lookup hr hm]
  cases hf : xs.find? fun e => decide (key e = k) with
  | none =>
    have := List.find?_eq_none.mp hf e ((hm e).mpr ⟨hlt, hin, rfl⟩)
    exact absurd (by simpa using hkey) this
  | some m =>
    obtain ⟨hmlt, hmin, -⟩ := (hm m).mp (List.mem_of_find?_eq_some hf)
    refine ⟨m, hmlt, hmin, by simpa using List.find?_some hf, rfl, xs.map .elem, hr, ?_⟩
    have hcongr : xs.find? ((fun a => decide ((g.heap a).key = some k)) ∘ Addr.elem) =
        xs.find? fun e => decide (key e = k) := by
      refine List.find?_congr fun e' he' => ?_
      simp [hs.holds.keys e' ((hm e').mp he').1]
    rw [List.find?_map, hcongr, hf]
    rfl

lemma FirstWith.unique {h : Heap Addr} {k : CString} {m m' : Addr} (hm : FirstWith h k m)
    (hm' : FirstWith h k m') : m = m' := by
  obtain ⟨xs, hr, hf⟩ := hm
  obtain ⟨ys, hr', hf'⟩ := hm'
  obtain rfl := hr.unique hr'
  exact Option.some.inj (hf.symm.trans hf')

/-- What a step of the thread `id` does to the elements and to what the thread accounts for. -/
inductive Change (c : Config) (key : ℕ → CString) (id : ℕ) (g : Shared) (l : Local) (g' : Shared)
    (l' : Local) : Prop
  | quiet (history : g'.history = g.history) (first : l'.first c id = l.first c id)
      (last : l'.last c id = l.last c id) (holding : ∀ m, ¬ l'.Holding m)
  | lookup (m : ℕ) (shared : g' = g) (first : l'.first c id = l.first c id)
      (last : l'.last c id = l.last c id) (pc : l.pc = .lookupCs)
      (keyed : (g.heap (.elem l.n)).key = some (key l.n))
      (found : FirstWith g.heap (key l.n) (.elem m)) (matching : l'.matching = some (.elem m))
  | insert (owned : Owned c.numIterations id l.n) (fresh : g.history l.n = .fresh)
      (history : g'.history = Function.update g.history l.n .inserted)
      (first : l'.first c id = l.first c id) (below : l.first c id ≤ l.n)
      (last : l.last c id = l.n) (last' : l'.last c id = l.n + 1) (holding : ∀ m, ¬ l'.Holding m)
  | delete (m : ℕ) (held : l.Holding (.elem m)) (inserted : g.history m = .inserted)
      (lt : m < c.numElements) (same : key m = key l.n)
      (history : g'.history = Function.update g.history m .deleted)
      (first : l.first c id = l.n) (first' : l'.first c id = l.n + 1)
      (above : l.n < l.last c id) (last : l'.last c id = l.last c id)
      (holding : ∀ m, ¬ l'.Holding m)

section Step

variable {id : Fin c.numThreads} {g g' : Shared} {l l' : Local}

lemma Moves.bounded (h : Moves c id g l g' l') (hb : Bounded c id l) : Bounded c id l' := by
  have hstart := startIndex_succ c.numIterations id
  obtain ⟨pc, n, matching⟩ := l
  cases h with
  | exitInsert | exitLookup | exitUnmatched | noMatch | refuse => exact hb
  | enterInsert hpc hn | enterDelete hpc hn =>
    cases hpc
    exact ⟨hb.1, le_endIndex_iff.mp hn⟩
  | endInsert | endDelete => trivial
  | insert hpc | clearPrev hpc =>
    cases hpc
    obtain ⟨hb1, hb2⟩ : Owned c.numIterations id n := hb
    exact ⟨by dsimp only; omega, hb2⟩
  | check => exact ⟨le_rfl, by dsimp only; omega⟩
  | lookup hpc | unlink hpc | clearNext hpc =>
    cases hpc
    exact hb

/-- The elements that are still to be inserted are the fresh ones of the thread, if a thread only
deletes what has been inserted. -/
lemma Moves.fresh (h : Moves c id g l g' l') (hb : Bounded c id l)
    (hfound : ∀ m, l.pc = .deleteCs → l.matching = some (.elem m) → g.history m ≠ .fresh)
    (hf : ∀ e, Owned c.numIterations id e → (g.history e = .fresh ↔ l.last c id ≤ e)) :
    ∀ e, Owned c.numIterations id e → (g'.history e = .fresh ↔ l'.last c id ≤ e) := by
  obtain ⟨pc, n, matching⟩ := l
  cases h with
  | exitInsert | exitLookup | exitUnmatched | noMatch | refuse => exact hf
  | endInsert hpc hn =>
    cases hpc
    obtain rfl := eq_of_endIndex_lt hn hb.2
    exact hf
  | insert hpc =>
    cases hpc
    intro e hown
    have := hf e hown
    by_cases he : e = n
    · subst he
      simp [Local.last]
    · simp only [Local.last, Function.update_of_ne he] at this ⊢
      rw [this]
      omega
  | @unlink node hpc hmat =>
    cases hpc
    cases node with
    | list => exact hf
    | elem m =>
      -- the element was not fresh before either
      intro e hown
      have := hf e hown
      by_cases he : e = m
      · subst he
        simpa [unlinked, Local.last, hfound e rfl hmat] using this
      · simpa [unlinked, Local.last, Function.update_of_ne he] using this
  | enterInsert hpc | check hpc | enterDelete hpc | endDelete hpc | lookup hpc | clearNext hpc
  | clearPrev hpc =>
    cases hpc
    exact hf

/-- **The step of one thread** keeps what holds of the shared state and of the thread, and
changes the elements in one of four ways. -/
lemma Moves.good (hs : Sound c key g) (hl : Good c key id g.history l)
    (hne : l.pc = .lookupCs → (stored c key g.history (key l.n)).Nonempty)
    (h : Moves c id g l g' l') :
    Sound c key g' ∧ Good c key id g'.history l' ∧ Change c key id g l g' l' := by
  have hfound : ∀ m, l.pc = .deleteCs → l.matching = some (.elem m) → g.history m ≠ .fresh :=
    fun m hpc hmat => by
      have htarget := hl.targeted
      simp only [Targeted, hpc] at htarget
      obtain ⟨m', -, hmat', hin, -⟩ := htarget
      obtain rfl := Addr.elem_injective (Option.some.inj (hmat.symm.trans hmat'))
      simp [hin]
  suffices hmove : Sound c key g' ∧ Targeted c key g'.history l' ∧ Change c key id g l g' l' from
    ⟨hmove.1, ⟨h.bounded hl.bounded, hmove.2.1, h.fresh hl.bounded hfound hl.fresh⟩, hmove.2.2⟩
  obtain ⟨hb, ht, hf⟩ := hl
  have hend : startIndex c.numIterations (id + 1) ≤ c.numElements := startIndex_le id.2
  obtain ⟨pc, n, matching⟩ := l
  cases h with
  | exitInsert hpc hins =>
    cases hpc
    obtain ⟨heap, hins', -⟩ := hs.holds.insert (hb.2.trans_le hend) one_pos
      (by simp [(hf n hb).mpr le_rfl])
    cases hins.symm.trans hins'
  | exitLookup hpc hcrash =>
    cases hpc
    obtain ⟨m, -, -, -, hlook, -⟩ := hs.lookup_eq (hne rfl)
    cases (hcrash _ (hs.holds.keys n (hb.2.trans_le hend))).symm.trans hlook
  | noMatch hpc hkey hnone =>
    cases hpc
    obtain rfl := Option.some.inj (hkey.symm.trans (hs.holds.keys n (hb.2.trans_le hend)))
    obtain ⟨m, -, -, -, hlook, -⟩ := hs.lookup_eq (hne rfl)
    cases hnone.symm.trans hlook
  | exitUnmatched hpc hmat =>
    rcases hpc with hpc | hpc | hpc <;> cases hpc
    · obtain ⟨m, -, hmat', -⟩ := ht
      cases hmat.symm.trans hmat'
    · obtain ⟨m, hmat', -⟩ := ht
      cases hmat.symm.trans hmat'
    · obtain ⟨m, hmat', -⟩ := ht
      cases hmat.symm.trans hmat'
  | refuse hpc hmat hcode =>
    cases hpc
    obtain ⟨m, hm, hmat', hin, -⟩ := ht
    obtain rfl := Option.some.inj (hmat.symm.trans hmat')
    obtain ⟨heap, hdel, -⟩ := hs.holds.delete hm one_pos hin
    rw [hdel] at hcode
    cases hcode
  | enterInsert hpc | check hpc | enterDelete hpc =>
    cases hpc
    exact ⟨hs, trivial, .quiet rfl rfl rfl (by simp [Local.Holding])⟩
  | endInsert hpc hn | endDelete hpc hn =>
    cases hpc
    obtain rfl := eq_of_endIndex_lt hn hb.2
    exact ⟨hs, trivial, .quiet rfl rfl rfl (by simp [Local.Holding])⟩
  | insert hpc hins =>
    cases hpc
    obtain ⟨hb1, hb2⟩ : Owned c.numIterations id n := hb
    have hn : n < c.numElements := hb2.trans_le hend
    have hfresh : g.history n = .fresh := (hf n ⟨hb1, hb2⟩).mpr le_rfl
    obtain ⟨heap, hins', hholds⟩ := hs.holds.insert hn one_pos (by simp [hfresh])
    obtain rfl := Option.some.inj (hins.symm.trans hins')
    exact ⟨⟨hholds.congr fun e _ => update_inserted_iff, hs.running⟩, trivial,
      .insert ⟨hb1, hb2⟩ hfresh rfl rfl hb1 rfl rfl (by simp [Local.Holding])⟩
  | lookup hpc hkey hlook =>
    cases hpc
    have hkey' := hs.holds.keys n (hb.2.trans_le hend)
    obtain rfl := Option.some.inj (hkey.symm.trans hkey')
    obtain ⟨m, hm, hin, hkm, hlook', hfirst⟩ := hs.lookup_eq (hne rfl)
    obtain rfl := Option.some.inj (Option.some.inj (hlook.symm.trans hlook'))
    exact ⟨hs, ⟨m, hm, rfl, hin, hkm⟩, .lookup m rfl rfl rfl rfl hkey' hfirst rfl⟩
  | unlink hpc hmat hcode =>
    cases hpc
    obtain ⟨m, hm, hmat', hin, hkm⟩ : ∃ m < c.numElements, matching = some (.elem m) ∧
      g.history m = .inserted ∧ key m = key n := ht
    obtain rfl := Option.some.inj (hmat.symm.trans hmat')
    obtain ⟨heap, hdel, hholds⟩ := hs.holds.delete hm one_pos hin
    rw [hdel]
    exact ⟨⟨hholds.congr fun e _ => update_deleted_iff, hs.running⟩, ⟨m, hmat, by simp [unlinked]⟩,
      .delete m ⟨rfl, hmat⟩ hin hm hkm rfl rfl rfl hb.2 rfl (by simp [Local.Holding])⟩
  | clearNext hpc hmat =>
    cases hpc
    obtain ⟨m, hmat', hdel⟩ : ∃ m, matching = some (.elem m) ∧ g.history m = .deleted := ht
    obtain rfl := Option.some.inj (hmat.symm.trans hmat')
    exact ⟨⟨hs.holds.setNext (by simp [hdel]) none, hs.running⟩, ⟨m, hmat, hdel⟩,
      .quiet rfl rfl rfl (by simp [Local.Holding])⟩
  | clearPrev hpc hmat =>
    cases hpc
    obtain ⟨m, hmat', hdel⟩ : ∃ m, matching = some (.elem m) ∧ g.history m = .deleted := ht
    obtain rfl := Option.some.inj (hmat.symm.trans hmat')
    exact ⟨⟨hs.holds.setPrev (by simp [hdel]) none, hs.running⟩, trivial,
      .quiet rfl rfl rfl (by simp [Local.Holding])⟩

end Step

/-! ### Counting -/

lemma card_stored_insert {history : ℕ → History} {n : ℕ} (hn : n < c.numElements)
    (hf : history n = .fresh) (k : CString) :
    (stored c key (Function.update history n .inserted) k).card =
      (stored c key history k).card + if key n = k then 1 else 0 := by
  have hnot : n ∉ stored c key history k := fun h => by simp [mem_stored, hf] at h
  by_cases hk : key n = k
  · have : stored c key (Function.update history n .inserted) k =
        insert n (stored c key history k) := by
      ext e
      by_cases he : e = n
      · subst he; simp [mem_stored, hn, hk]
      · simp [mem_stored, he]
    rw [this, Finset.card_insert_of_notMem hnot, if_pos hk]
  · have : stored c key (Function.update history n .inserted) k = stored c key history k := by
      ext e
      by_cases he : e = n
      · subst he; simp [mem_stored, hk]
      · simp [mem_stored, he]
    rw [this, if_neg hk, Nat.add_zero]

lemma card_stored_delete {history : ℕ → History} {m : ℕ} (hm : m < c.numElements)
    (hin : history m = .inserted) (k : CString) :
    (stored c key (Function.update history m .deleted) k).card + (if key m = k then 1 else 0) =
      (stored c key history k).card := by
  by_cases hk : key m = k
  · have : stored c key (Function.update history m .deleted) k =
        (stored c key history k).erase m := by
      ext e
      by_cases he : e = m
      · subst he; simp [mem_stored]
      · simp [mem_stored, he]
    rw [this, if_pos hk, Finset.card_erase_add_one (mem_stored.mpr ⟨hm, hin, hk⟩)]
  · have : stored c key (Function.update history m .deleted) k = stored c key history k := by
      ext e
      by_cases he : e = m
      · subst he; simp [mem_stored, hk]
      · simp [mem_stored, he]
    rw [this, if_neg hk, Nat.add_zero]

lemma card_pending_congr {id : ℕ} {l l' : Local} (hfirst : l'.first c id = l.first c id)
    (hlast : l'.last c id = l.last c id) (k : CString) :
    (pending c key k id l').card = (pending c key k id l).card := by
  rw [pending, pending, hfirst, hlast]

lemma card_pending_insert {id n : ℕ} {l l' : Local} (hfirst : l'.first c id = l.first c id)
    (hle : l.first c id ≤ n) (hlast : l.last c id = n) (hlast' : l'.last c id = n + 1)
    (k : CString) :
    (pending c key k id l').card =
      (pending c key k id l).card + if key n = k then 1 else 0 := by
  have hnot : n ∉ Finset.Ico (l.first c id) n := by simp
  rw [pending, pending, hfirst, hlast, hlast', ← Finset.insert_Ico_right_eq_Ico_add_one hle,
    Finset.filter_insert]
  split
  · rw [Finset.card_insert_of_notMem fun h => hnot (Finset.mem_filter.mp h).1]
  · rfl

lemma card_pending_delete {id n : ℕ} {l l' : Local} (hfirst : l.first c id = n)
    (hfirst' : l'.first c id = n + 1) (hlt : n < l.last c id) (hlast : l'.last c id = l.last c id)
    (k : CString) :
    (pending c key k id l').card + (if key n = k then 1 else 0) =
      (pending c key k id l).card := by
  have hnot : n ∉ Finset.Ico (n + 1) (l.last c id) := by simp
  rw [pending, pending, hfirst, hfirst', hlast, ← Finset.insert_Ico_add_one_left_eq_Ico hlt,
    Finset.filter_insert]
  split
  · rw [Finset.card_insert_of_notMem fun h => hnot (Finset.mem_filter.mp h).1]
  · rfl

/-- A thread that looks up the key of its element finds one: not all are deleted yet. -/
lemma Inv.stored_nonempty {s : St c} (hi : Inv c key s) {t : Fin c.numThreads}
    (hpc : (s.locals t).pc = .lookupCs) :
    (stored c key s.shared.history (key (s.locals t).n)).Nonempty := by
  have hb : (s.locals t).n < startIndex c.numIterations (t + 1) := by
    have := (hi.good t).bounded
    simp only [Bounded, hpc] at this
    exact this.2
  have hmem : (s.locals t).n ∈ pending c key (key (s.locals t).n) t (s.locals t) := by
    simp [pending, Local.first, Local.last, hpc, hb]
  have hpos : 0 < ∑ id : Fin c.numThreads,
      ((pending c key (key (s.locals t).n) id (s.locals id)).card : ℤ) := by
    refine Finset.sum_pos' (fun _ _ => Int.natCast_nonneg _) ⟨t, Finset.mem_univ t, ?_⟩
    exact_mod_cast Finset.card_pos.mpr ⟨_, hmem⟩
  rw [← hi.total] at hpos
  exact Finset.card_pos.mp (by exact_mod_cast hpos)

/-! ### The steps of a run -/

/-- The step of another thread keeps what holds of a thread, unless it deletes the node the
thread holds. -/
lemma Good.of_change {id id' : ℕ} (hne : id ≠ id') {g g' : Shared} {l l' lu : Local}
    (hu : Good c key id g.history lu) (hexcl : ¬ ∃ m, lu.Holding m ∧ l.Holding m)
    (hch : Change c key id' g l g' l') : Good c key id g'.history lu := by
  obtain ⟨hb, ht, hf⟩ := hu
  cases hch with
  | quiet hist => exact hist ▸ ⟨hb, ht, hf⟩
  | lookup m hg => exact hg ▸ ⟨hb, ht, hf⟩
  | insert howned hfresh hist =>
    rw [hist]
    refine ⟨hb, ?_, fun e he => ?_⟩
    · -- what the thread has found is not a fresh element
      obtain ⟨pc, n, matching⟩ := lu
      cases pc with
      | deleteCs =>
        obtain ⟨m, hm, hmat, hin, hkm⟩ := ht
        have : m ≠ l.n := by rintro rfl; simp [hfresh] at hin
        exact ⟨m, hm, hmat, by rwa [Function.update_of_ne this], hkm⟩
      | clearNext | clearPrev =>
        obtain ⟨m, hmat, hdel⟩ := ht
        have : m ≠ l.n := by rintro rfl; simp [hfresh] at hdel
        exact ⟨m, hmat, by rwa [Function.update_of_ne this]⟩
      | insertLoop | insertCs | checkLength | deleteLoop | lookupCs | returned => trivial
    · have : e ≠ l.n := by
        rintro rfl
        exact hne (owned_unique he howned)
      rw [Function.update_of_ne this]
      exact hf e he
  | delete m hheld hin hlt hsame hist =>
    rw [hist]
    refine ⟨hb, ?_, fun e he => ?_⟩
    · obtain ⟨pc, n, matching⟩ := lu
      cases pc with
      | deleteCs =>
        obtain ⟨m', hm', hmat, hin', hkm⟩ := ht
        have : m' ≠ m := by
          rintro rfl
          exact hexcl ⟨_, ⟨rfl, hmat⟩, hheld⟩
        exact ⟨m', hm', hmat, by rwa [Function.update_of_ne this], hkm⟩
      | clearNext | clearPrev =>
        obtain ⟨m', hmat, hdel⟩ := ht
        have : m' ≠ m := by rintro rfl; simp [hin] at hdel
        exact ⟨m', hmat, by rwa [Function.update_of_ne this]⟩
      | insertLoop | insertCs | checkLength | deleteLoop | lookupCs | returned => trivial
    · have := hf e he
      by_cases hem : e = m
      · subst hem
        simpa [hin] using this
      · rwa [Function.update_of_ne hem]

/-- **The step lemma.** A step that is no lookup of a held node keeps the invariant. -/
lemma inv_step (s : St c) (a : Fin c.numThreads × Unit) (s' : St c) (hi : Inv c key s)
    (hun : Unheld c s a) (h : step (act c) s a = some s') : Inv c key s' := by
  obtain ⟨t, u⟩ := a
  obtain ⟨g', l', hact, rfl⟩ := step_cases h
  obtain ⟨hsound, hgood, hch⟩ :=
    (act_moves hact).2.good hi.sound (hi.good t) hi.stored_nonempty
  refine ⟨hsound, ?_, ?_, fun k => ?_⟩
  · refine forall_update (P := fun (id : Fin c.numThreads) l => Good c key id g'.history l)
      hgood fun v hv => ?_
    exact (hi.good v).of_change (fun e => hv (Fin.ext e)) (hi.exclusive v t hv) hch
  · refine forall_pair_update (P := fun a b : Local => ¬ ∃ m, a.Holding m ∧ b.Holding m)
      (fun a b hab ⟨m, hb, ha⟩ => hab ⟨m, ha, hb⟩) ?_ hi.exclusive
    rintro v hv ⟨m, hl', hm⟩
    cases hch with
    | quiet _ _ _ hno | insert _ _ _ _ _ _ _ hno | delete _ _ _ _ _ _ _ _ _ _ hno =>
      exact hno m hl'
    | lookup m' hg _ _ hpc hkey hfound hmat =>
      obtain rfl : Addr.elem m' = m := Option.some.inj (hmat.symm.trans hl'.2)
      exact hun hpc v hv _ _ hm hkey hfound
  · have hsum := sum_update
      (fun (id : Fin c.numThreads) l => ((pending c key k id l).card : ℤ)) s.locals t l'
    have htotal := hi.total k
    dsimp only at hsum ⊢
    rw [hsum, ← htotal]
    cases hch with
    | quiet hist hfirst hlast => rw [hist, card_pending_congr hfirst hlast]; omega
    | lookup m hg hfirst hlast => rw [hg, card_pending_congr hfirst hlast]; omega
    | insert howned hfresh hist hfirst hbelow hlast hlast' =>
      have hn := howned.2.trans_le (startIndex_le t.2)
      rw [hist, card_stored_insert hn hfresh,
        card_pending_insert hfirst hbelow hlast hlast']
      push_cast
      ring
    | delete m _ hin hlt hsame hist hfirst hfirst' habove hlast =>
      have h1 := @card_stored_delete c key _ _ hlt hin k
      have h2 := @card_pending_delete c key t _ _ _ hfirst hfirst' habove hlast k
      rw [hist]
      rw [hsame] at h1
      omega

variable {h : Heap Addr}

lemma inv_init (hi : Initial c h) : Inv c (fun e => h.keyOf (.elem e)) (init c h) where
  sound := by
    refine ⟨⟨hi.keys, fun b hb => ⟨[], ?_, fun e => by simp [init]⟩⟩, rfl⟩
    obtain rfl : b = 0 := by omega
    exact ⟨by simp [Chain.Linked, Heap.links, init, hi.head], by simp, by simp, by simp⟩
  good id := by
    have := startIndex_succ c.numIterations id
    refine ⟨⟨le_rfl, by dsimp only [init]; omega⟩, trivial, fun e he => ?_⟩
    exact iff_of_true rfl he.1
  exclusive t u _ := by
    rintro ⟨m, ⟨hpc, -⟩, -⟩
    cases hpc
  total k := by simp [init, stored, pending, Local.first, Local.last]

lemma Inv.safe {s : St c} (hi : Inv c key s) : Safe c s where
  running := hi.sound.running
  emptied hall := by
    obtain ⟨xs, hr, hm⟩ := hi.sound.holds.lists 0 one_pos
    have hempty : xs = [] := by
      refine List.eq_nil_iff_forall_not_mem.mpr fun e he => ?_
      obtain ⟨hlt, hin, -⟩ := (hm e).mp he
      -- no thread has a deletion left for the key of the element
      have hzero : (stored c key s.shared.history (key e)).card = 0 := by
        have htotal := hi.total (key e)
        have : ∀ id : Fin c.numThreads, pending c key (key e) id (s.locals id) = ∅ := fun id => by
          simp [pending, Local.first, Local.last, hall id]
        simpa [this] using htotal
      rw [Finset.card_eq_zero] at hzero
      have : e ∈ stored c key s.shared.history (key e) := mem_stored.mpr ⟨hlt, hin, rfl⟩
      rw [hzero] at this
      exact Finset.notMem_empty e this
    rwa [hempty] at hr

/-- A lookup of a held node can be followed by the two deletions, and the second one exits. -/
lemma Inv.exits {s : St c} (hi : Inv c key s) {t u : Fin c.numThreads} (hut : u ≠ t)
    (hpc : (s.locals t).pc = .lookupCs) {m : Addr} {k : CString} (hheld : (s.locals u).Holding m)
    (hkey : (s.shared.heap (.elem (s.locals t).n)).key = some k)
    (hfirst : FirstWith s.shared.heap k m) :
    ∃ s', run (step (act c)) s [(t, ()), (u, ()), (t, ())] = some s' ∧
      s'.shared.exited = some .deleteCorrupted := by
  have hrunning := hi.sound.running
  -- the lookup finds the held node
  have hn : key (s.locals t).n = k := by
    have hb := (hi.good t).bounded
    simp only [Bounded, hpc] at hb
    have := hi.sound.holds.keys _ (hb.2.trans_le (startIndex_le t.2))
    exact Option.some.inj (this.symm.trans hkey)
  obtain ⟨e, -, -, -, hlook, hfound⟩ := hi.sound.lookup_eq (hi.stored_nonempty hpc)
  rw [hn] at hlook hfound
  obtain rfl := hfirst.unique hfound
  -- the other thread unlinks it
  have htarget := (hi.good u).targeted
  simp only [Targeted, hheld.1] at htarget
  obtain ⟨m, hm, hmat, hin, -⟩ := htarget
  obtain rfl : e = m := Addr.elem_injective (Option.some.inj (hheld.2.symm.trans hmat))
  obtain ⟨xs, hr, hmem⟩ := hi.sound.holds.lists 0 one_pos
  obtain ⟨heap, hdel, hdel'⟩ :=
    deleteUnlink_twice hr (mem_map_elem.mpr ((hmem e).mpr ⟨hm, hin, rfl⟩))
  set l₁ : Local := { s.locals t with matching := some (.elem e), pc := .deleteCs } with hl₁
  set g₂ : Shared := ⟨heap, Function.update s.shared.history e .deleted, none⟩ with hg₂
  have h₁ : act c t () s.shared (s.locals t) = some (s.shared, l₁) := by
    simp [act, hrunning, hpc, hkey, hlook, hl₁]
  have h₂ : act c u () s.shared (Function.update s.locals t l₁ u) =
      some (g₂, { s.locals u with pc := .clearNext }) := by
    rw [Function.update_of_ne hut]
    simp [act, hrunning, hheld.1, hmat, hdel, hg₂]
  -- and is refused to the first
  have h₃ : act c t () g₂ (Function.update (Function.update s.locals t l₁) u
      { s.locals u with pc := .clearNext } t) = some (g₂.exit .deleteCorrupted, l₁) := by
    rw [Function.update_of_ne hut.symm, Function.update_self]
    simp [act, hg₂, hl₁, hdel']
  rw [run_cons_of_step (step_of_act h₁), run_cons_of_step (step_of_act h₂),
    run_cons_of_step (step_of_act h₃)]
  exact ⟨_, rfl, rfl⟩

/-! ### The result -/

/-- **When the list with equal keys is safe.** For any keys, a run in which no thread looks up
a key whose first node another thread has found and not yet deleted is safe in every state it
reaches. The first lookup that breaks this can be followed by the deletions of the two
threads, and the program exits although nothing is wrong with the list. -/
theorem safe_of_unheld (c : Config) (h : Heap Addr) (hi : Initial c h)
    (schedule : List (Fin c.numThreads × Unit)) (s : St c)
    (hok : Always (step (act c)) (Unheld c) (init c h) schedule)
    (hrun : run (step (act c)) (init c h) schedule = some s) :
    Safe c s ∧ ∀ a, ¬ Unheld c s a →
      ∃ rest s', run (step (act c)) (init c h) (schedule ++ a :: rest) = some s' ∧
        s'.shared.exited = some .deleteCorrupted := by
  have hinv := invariant_of_always inv_step (inv_init hi) hok hrun
  refine ⟨hinv.safe, fun ⟨t, _⟩ hun => ?_⟩
  simp only [Unheld, not_forall, not_not] at hun
  obtain ⟨hpc, u, hut, m, k, hheld, hkey, hfirst⟩ := hun
  obtain ⟨s', hs', hex⟩ := hinv.exits hut hpc hheld hkey hfirst
  exact ⟨[(u, ()), (t, ())], s', by rw [run_append_of_run hrun]; exact hs', hex⟩

/-- Two threads with one element each and the same key. -/
def sampleConfig : Config := ⟨2, 1⟩

def sampleHeap : Heap Addr
  | .list _ => ⟨none, none, none⟩
  | .elem _ => ⟨none, none, some (.ofBuffer [65])⟩

lemma sampleHeap_initial : Initial sampleConfig sampleHeap := ⟨rfl, fun _ _ => rfl⟩

/-- Both threads insert, then one thread after the other looks up and deletes. -/
def sampleSchedule : List (Fin sampleConfig.numThreads × Unit) :=
  ([0, 1, 0, 1] ++ List.replicate 8 0 ++ List.replicate 8 1).map fun n => (ofTwo n, ())

/-- No thread holds a node when another one looks up its key. -/
def NoneHeld (s : St sampleConfig) (a : Fin sampleConfig.numThreads × Unit) : Prop :=
  (s.locals a.1).pc = .lookupCs → ∀ u : Fin 2, (s.locals u).pc ≠ .deleteCs

instance (s : St sampleConfig) (a : Fin sampleConfig.numThreads × Unit) :
    Decidable (NoneHeld s a) :=
  inferInstanceAs (Decidable (_ → ∀ _ : Fin 2, _))

theorem safe_of_unheld_sample :
    ∃ s, run (step (act sampleConfig)) (init sampleConfig sampleHeap) sampleSchedule = some s ∧
      Represents s.shared.heap (.list 0) [] := by
  have hok : Always (step (act sampleConfig)) NoneHeld (init sampleConfig sampleHeap)
      sampleSchedule := by decide +kernel
  have hall : ((run (step (act sampleConfig)) (init sampleConfig sampleHeap) sampleSchedule).map
      fun s => decide (∀ t : Fin 2, (s.locals t).pc = .returned)) = some true := by decide +kernel
  rw [Option.map_eq_some_iff] at hall
  obtain ⟨s, hs, hret⟩ := hall
  have hsafe := (safe_of_unheld sampleConfig sampleHeap sampleHeap_initial sampleSchedule s
    (hok.imp fun s a hnone hpc u _ m k hheld => absurd hheld.1 (hnone hpc u)) hs).1
  exact ⟨s, hs, hsafe.emptied (of_decide_eq_true hret)⟩

/-- Both threads look up the same node before either deletes it: the second deletion finds
the links of the removed node corrupted. -/
theorem equal_keys_exit :
    ∃ s, run (step (act sampleConfig)) (init sampleConfig sampleHeap)
        ((List.replicate 7 ([0, 1] : List (Fin 2))).flatten.map (·, ())) = some s ∧
      s.shared.exited = some .deleteCorrupted ∧ ¬ Safe sampleConfig s := by
  have hexit : ((run (step (act sampleConfig)) (init sampleConfig sampleHeap)
      ((List.replicate 7 ([0, 1] : List (Fin 2))).flatten.map (·, ()))).map
      fun s => s.shared.exited) = some (some .deleteCorrupted) := by decide +kernel
  rw [Option.map_eq_some_iff] at hexit
  obtain ⟨s, hs, hex⟩ := hexit
  exact ⟨s, hs, hex, fun hsafe => by simp [hsafe.running] at hex⟩

end LowLevelTasks.Lab2ListA
