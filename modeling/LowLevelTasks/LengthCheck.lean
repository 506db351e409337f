import LowLevelTasks.Loops
import LowLevelTasks.SortedListSpec
import Mathlib.Algebra.Ring.Int.Defs
import Mathlib.Algebra.Ring.Nat

/-!
The loops of `SortedList.c` on arbitrary heaps. The counter of each loop is an `int` that is
compared with `num_elements` before it grows, so every walk is cut short, also one that never
meets a NULL. The loop of the length tells the well formed lists from all other ones.
-/

namespace LowLevelTasks.LengthCheck

open LowLevelTasks.Chain LowLevelTasks.Loops LowLevelTasks.SortedList
open LowLevelTasks.SortedListSpec LowLevelTasks.Strings

/-- Where a loop is, and how far it has come. -/
structure Cursor (α : Type) where
  it : α
  limiter : ℤ

/-- `++` of an `int`. -/
def increment (n : ℤ) : ℤ := Int.bmod (n + 1) (2 ^ 32)

section

variable {α : Type} [DecidableEq α]

/-- A round of the loop of `SortedList_length`, together with the heap. -/
def lengthRound (numElements : ℤ) (s : Heap α × Cursor α) :
    (Heap α × Cursor α) ⊕ (Heap α × ℤ) :=
  match (s.1 s.2.it).next with
  | none => .inr (s.1, s.2.limiter)
  | some nx =>
    if (s.1 nx).prev ≠ some s.2.it then .inr (s.1, -1)
    else if numElements ≤ s.2.limiter then .inr (s.1, -1)
    else .inl (s.1, ⟨nx, increment s.2.limiter⟩)

/-- A round of the loop that insertion and lookup share. Comparing with a NULL key is a crash,
which leaves the loop without a cursor. -/
def searchRound (numElements : ℤ) (h : Heap α) (goOn : CString → Option Bool) (c : Cursor α) :
    Cursor α ⊕ Option (Cursor α) :=
  match (h c.it).next with
  | none => .inr (some c)
  | some nx =>
    match (h nx).key.bind goOn with
    | none => .inr none
    | some false => .inr (some c)
    | some true =>
      if numElements ≤ c.limiter then .inr (some c) else .inl ⟨nx, increment c.limiter⟩

/-- From the head `next` visits exactly `n` nodes and ends, and `prev` of each visited node is
the node before it. -/
def WellLinked (h : Heap α) (list : α) (n : ℕ) : Prop :=
  ∃ xs, (list :: xs).Nodup ∧ Linked h.links list xs ∧ xs.length = n

/-- The loop is left within `num_elements` rounds, and without a crash unless it comes to a node
whose key cannot be compared. -/
def Stops (numElements : ℤ) (h : Heap α) (goOn : CString → Option Bool) (list : α) : Prop :=
  ∃ rounds r, Leaves (searchRound numElements h goOn) ⟨list, 0⟩ rounds r ∧
    (rounds : ℤ) ≤ numElements ∧
      (r = none → ∃ a x, (h a).next = some x ∧ (h x).key.bind goOn = none)

variable {h : Heap α} {list it : α} {left limiter n : ℕ} {goOn : CString → Option Bool}

/-! ### One round -/

lemma increment_natCast (hn : n < 2 ^ 31 - 1) : increment n = (n + 1 : ℕ) := by
  unfold increment
  rw [Int.bmod_eq_of_le (by omega) (by omega)]
  omega

omit [DecidableEq α] in
lemma searchLoop_none (hnext : (h it).next = none) :
    searchLoop h goOn left it limiter = some (it, limiter) := by
  rw [searchLoop.eq_def]
  simp only [hnext]

omit [DecidableEq α] in
lemma searchLoop_some {nx : α} (hnext : (h it).next = some nx) :
    searchLoop h goOn left it limiter = ((h nx).key.bind goOn).bind fun b =>
      if b then
        match left with
        | 0 => some (it, limiter)
        | left + 1 => searchLoop h goOn left nx (limiter + 1)
      else some (it, limiter) := by
  rw [Option.bind_assoc]
  cases left <;>
  · rw [searchLoop]
    simp only [hnext]
    rfl

lemma lengthLoop_none (hnext : (h it).next = none) : lengthLoop h left it limiter = limiter := by
  rw [lengthLoop.eq_def]
  simp only [hnext]

lemma lengthLoop_some {nx : α} (hnext : (h it).next = some nx) :
    lengthLoop h left it limiter =
      if (h nx).prev ≠ some it then -1
      else
        match left with
        | 0 => -1
        | left + 1 => lengthLoop h left nx (limiter + 1) := by
  cases left <;>
  · rw [lengthLoop]
    simp only [hnext]

/-- **The recursion of the length** is the loop. -/
theorem leaves_lengthLoop (h : Heap α) (left limiter : ℕ) (it : α)
    (hmax : left + limiter ≤ 2 ^ 31 - 1) :
    ∃ rounds ≤ left, Leaves (lengthRound (left + limiter : ℕ)) (h, ⟨it, limiter⟩) rounds
      (h, lengthLoop h left it limiter) := by
  cases hnext : (h it).next with
  | none =>
    refine ⟨0, by omega, .done ?_⟩
    unfold lengthRound
    simp only [hnext, lengthLoop_none hnext]
  | some nx =>
    rw [lengthLoop_some hnext]
    by_cases hprev : (h nx).prev = some it
    swap
    · refine ⟨0, by omega, .done ?_⟩
      unfold lengthRound
      simp only [hnext, hprev, ne_eq, not_false_eq_true, if_true]
    simp only [hprev, ne_eq, not_true_eq_false, if_false]
    cases left with
    | zero =>
      refine ⟨0, le_rfl, .done ?_⟩
      unfold lengthRound
      simp only [hnext, hprev, ne_eq, not_true_eq_false, if_false]
      rw [if_pos (by omega)]
    | succ left =>
      have hround : lengthRound (left + 1 + limiter : ℕ) (h, ⟨it, limiter⟩) =
          .inl (h, ⟨nx, (limiter + 1 : ℕ)⟩) := by
        unfold lengthRound
        simp only [hnext, hprev, ne_eq, not_true_eq_false, if_false]
        rw [if_neg (by omega), increment_natCast (by omega)]
      obtain ⟨rounds, hle, hleaves⟩ := leaves_lengthLoop h left (limiter + 1) nx (by omega)
      rw [show left + (limiter + 1) = left + 1 + limiter by omega] at hleaves
      exact ⟨rounds + 1, by omega, .more hround hleaves⟩

omit [DecidableEq α] in
/-- **The recursion of the search** is the loop. -/
theorem leaves_searchLoop (h : Heap α) (goOn : CString → Option Bool) (left limiter : ℕ)
    (it : α) (hmax : left + limiter ≤ 2 ^ 31 - 1) :
    ∃ rounds ≤ left, Leaves (searchRound (left + limiter : ℕ) h goOn) ⟨it, limiter⟩ rounds
      ((searchLoop h goOn left it limiter).map fun p => ⟨p.1, (p.2 : ℕ)⟩) := by
  cases hnext : (h it).next with
  | none =>
    refine ⟨0, by omega, .done ?_⟩
    unfold searchRound
    simp only [hnext, searchLoop_none hnext, Option.map_some]
  | some nx =>
    rw [searchLoop_some hnext]
    cases hcmp : (h nx).key.bind goOn with
    | none =>
      refine ⟨0, by omega, .done ?_⟩
      unfold searchRound
      simp only [hnext, hcmp, Option.bind_none, Option.map_none]
    | some b =>
      rw [Option.bind_some]
      cases b with
      | false =>
        refine ⟨0, by omega, .done ?_⟩
        unfold searchRound
        simp only [hnext, hcmp]
        rfl
      | true =>
        rw [if_pos rfl]
        cases left with
        | zero =>
          refine ⟨0, le_rfl, .done ?_⟩
          unfold searchRound
          simp only [hnext, hcmp]
          rw [if_pos (by omega)]
          rfl
        | succ left =>
          have hround : searchRound (left + 1 + limiter : ℕ) h goOn ⟨it, limiter⟩ =
              .inl ⟨nx, (limiter + 1 : ℕ)⟩ := by
            unfold searchRound
            simp only [hnext, hcmp]
            rw [if_neg (by omega), increment_natCast (by omega)]
          obtain ⟨rounds, hle, hleaves⟩ := leaves_searchLoop h goOn left (limiter + 1) nx (by omega)
          rw [show left + (limiter + 1) = left + 1 + limiter by omega] at hleaves
          exact ⟨rounds + 1, by omega, .more hround hleaves⟩

/-! ### Results -/

/-- The length is negative, or that of a well formed list. -/
lemma lengthLoop_cases (left limiter : ℕ) (it : α) : lengthLoop h left it limiter = -1 ∨
    ∃ xs, Linked h.links it xs ∧ xs.length ≤ left := by
  cases hnext : (h it).next with
  | none => exact Or.inr ⟨[], hnext, by simp⟩
  | some nx =>
    rw [lengthLoop_some hnext]
    by_cases hprev : (h nx).prev = some it
    swap
    · simp [hprev]
    simp only [hprev, ne_eq, not_true_eq_false, if_false]
    cases left with
    | zero => exact Or.inl rfl
    | succ left =>
      refine (lengthLoop_cases left (limiter + 1) nx).imp_right ?_
      rintro ⟨xs, hlinked, hlength⟩
      exact ⟨nx :: xs, ⟨hnext, hprev, hlinked⟩, by simpa using hlength⟩

omit [DecidableEq α] in
lemma wellLinked_iff : WellLinked h list n ↔ ∃ xs, Linked h.links list xs ∧ xs.length = n :=
  ⟨fun ⟨xs, _, hlinked, hlength⟩ => ⟨xs, hlinked, hlength⟩,
    fun ⟨xs, hlinked, hlength⟩ => ⟨xs, hlinked.nodup, hlinked, hlength⟩⟩

omit [DecidableEq α] in
/-- A search that fails has come to a node whose key cannot be compared. -/
lemma searchLoop_crash (left limiter : ℕ) (it : α)
    (hnone : searchLoop h goOn left it limiter = none) :
    ∃ a x, (h a).next = some x ∧ (h x).key.bind goOn = none := by
  cases hnext : (h it).next with
  | none =>
    rw [searchLoop_none hnext] at hnone
    cases hnone
  | some nx =>
    rw [searchLoop_some hnext] at hnone
    cases hcmp : (h nx).key.bind goOn with
    | none => exact ⟨it, nx, hnext, hcmp⟩
    | some b =>
      rw [hcmp, Option.bind_some] at hnone
      split at hnone
      · cases left with
        | zero => cases hnone
        | succ left => exact searchLoop_crash left (limiter + 1) nx hnone
      · cases hnone

/-- **The length finds every corruption**, and no loop runs for ever. -/
theorem length_exact {numElements : ℤ} (h0 : 0 ≤ numElements) (hmax : numElements ≤ 2 ^ 31 - 1)
    (h : Heap α) (list : α) :
    (∃ rounds r, Leaves (lengthRound numElements) (h, ⟨list, 0⟩) rounds (h, r) ∧
      (rounds : ℤ) ≤ numElements ∧
      (∀ n : ℕ, r = n ↔ WellLinked h list n ∧ n ≤ numElements) ∧
      ((∀ n : ℕ, ¬ (WellLinked h list n ∧ n ≤ numElements)) → r = -1)) ∧
    (∀ key, Stops numElements h (lookupGoOn key) list) ∧
    ∀ element, Stops numElements h (insertGoOn h element) list := by
  obtain ⟨left, rfl⟩ := Int.eq_ofNat_of_zero_le h0
  have hstops : ∀ goOn, Stops left h goOn list := by
    intro goOn
    obtain ⟨rounds, hle, hleaves⟩ := leaves_searchLoop h goOn left 0 list (by omega)
    refine ⟨rounds, _, hleaves, by omega, fun hnone => ?_⟩
    exact searchLoop_crash left 0 list (Option.map_eq_none_iff.mp hnone)
  refine ⟨?_, fun key => hstops _, fun element => hstops _⟩
  obtain ⟨rounds, hle, hleaves⟩ := leaves_lengthLoop h left 0 list (by omega)
  have hlength : ∀ n : ℕ, lengthLoop h left list 0 = n ↔
      WellLinked h list n ∧ (n : ℤ) ≤ left := by
    intro n
    rw [wellLinked_iff]
    constructor
    · intro hn
      obtain ⟨xs, hlinked, hlen⟩ := (lengthLoop_cases left 0 list).resolve_left fun hneg => by
        rw [hneg] at hn
        omega
      rw [lengthLoop_eq hlinked hlen] at hn
      exact ⟨⟨xs, hlinked, by omega⟩, by omega⟩
    · rintro ⟨⟨xs, hlinked, rfl⟩, hlen⟩
      rw [lengthLoop_eq hlinked (by omega), Nat.zero_add]
  refine ⟨rounds, _, hleaves, by omega, hlength, fun hnone => ?_⟩
  refine (lengthLoop_cases left 0 list).resolve_right ?_
  rintro ⟨xs, hlinked, hlen⟩
  exact hnone xs.length ⟨wellLinked_iff.mpr ⟨xs, hlinked, rfl⟩, by omega⟩

end

/-! ### A ring -/

/-- Two nodes that point at each other in both directions. -/
def ring : Heap Bool := fun a => ⟨some !a, some !a, none⟩

/-- The walk around the ring is cut short. -/
theorem length_exact_ring :
    ∃ rounds, Leaves (lengthRound 3) (ring, ⟨false, 0⟩) rounds (ring, -1) := by
  obtain ⟨⟨rounds, r, hleaves, -, -, hnone⟩, -⟩ :=
    length_exact (show (0 : ℤ) ≤ 3 by decide) (by decide) ring false
  refine ⟨rounds, ?_⟩
  rw [← hnone]
  · exact hleaves
  · rintro n ⟨⟨xs, -, hlinked, -⟩, -⟩
    cases hlinked.next_last

end LowLevelTasks.LengthCheck
