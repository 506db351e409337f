import Mathlib.Data.List.Nodup
import Mathlib.Logic.Function.Basic
import Mathlib.Tactic.Common

/-!
Doubly linked chains.

A chain is read off two partial maps, the forward and the backward links. Splicing a node in
after another and unlinking a node are the two pointer surgeries; each one acts on the chain
as an insertion into, or a removal from, the list of its nodes.
-/

namespace LowLevelTasks.Chain

/-- The forward and the backward links of a set of nodes. -/
structure Links (α : Type*) where
  next : α → Option α
  prev : α → Option α

variable {α : Type*}

/-- Following `next` from `a` visits exactly `xs` and stops; every back link is exact. -/
def Linked (L : Links α) : α → List α → Prop
  | a, [] => L.next a = none
  | a, x :: xs => L.next a = some x ∧ L.prev x = some a ∧ Linked L x xs

/-- Following `next` from `a` visits `xs` first; the back links on the way are exact. -/
def Path (L : Links α) : α → List α → Prop
  | _, [] => True
  | a, x :: xs => L.next a = some x ∧ L.prev x = some a ∧ Path L x xs

/-- The node at which a walk from `a` along `xs` ends. -/
def lastOf : α → List α → α
  | a, [] => a
  | _, x :: xs => lastOf x xs

@[simp] lemma lastOf_nil (a : α) : lastOf a [] = a := rfl
@[simp] lemma lastOf_cons (a x : α) (xs : List α) : lastOf a (x :: xs) = lastOf x xs := rfl

lemma lastOf_mem (a : α) (xs : List α) : lastOf a xs ∈ a :: xs := by
  induction xs generalizing a with
  | nil => simp
  | cons x xs ih => exact List.mem_cons_of_mem a (ih x)

lemma lastOf_append (a : α) (xs ys : List α) :
    lastOf a (xs ++ ys) = lastOf (lastOf a xs) ys := by
  induction xs generalizing a with
  | nil => rfl
  | cons x xs ih => exact ih x

lemma linked_append {L : Links α} {a : α} {xs ys : List α} :
    Linked L a (xs ++ ys) ↔ Path L a xs ∧ Linked L (lastOf a xs) ys := by
  induction xs generalizing a with
  | nil => simp [Path]
  | cons x xs ih => simp [Linked, Path, ih, and_assoc]

lemma Linked.next_eq_head? {L : Links α} {a : α} {xs : List α} (h : Linked L a xs) :
    L.next a = xs.head? := by
  cases xs with
  | nil => exact h
  | cons x xs => exact h.1

/-- The links around a node in the middle of a chain. -/
lemma Linked.around {L : Links α} {a x : α} {xs ys : List α} (h : Linked L a (xs ++ x :: ys)) :
    L.next (lastOf a xs) = some x ∧ L.prev x = some (lastOf a xs) ∧ L.next x = ys.head? := by
  obtain ⟨-, hn, hp, htail⟩ := linked_append.mp h
  exact ⟨hn, hp, htail.next_eq_head?⟩

/-- The back link of the first node after `ys` starts, seen from the node before it. -/
lemma Linked.prev_head {L : Links α} {a x : α} {xs ys : List α} (h : Linked L a (xs ++ ys))
    (hx : ys.head? = some x) : L.prev x = some (lastOf a xs) := by
  cases ys with
  | nil => simp at hx
  | cons y ys =>
    obtain rfl : y = x := by simpa using hx
    exact h.around.2.1

lemma Linked.unique {L : Links α} {a : α} {xs ys : List α} (hx : Linked L a xs)
    (hy : Linked L a ys) : xs = ys := by
  induction xs generalizing a ys with
  | nil =>
    cases ys with
    | nil => rfl
    | cons y ys => exact absurd (hy.1.symm.trans hx) (by simp)
  | cons x xs ih =>
    cases ys with
    | nil => exact absurd (hx.1.symm.trans hy) (by simp)
    | cons y ys =>
      obtain rfl : x = y := by simpa using hx.1.symm.trans hy.1
      rw [ih hx.2.2 hy.2.2]

/-- A chain ends where there is no next node. -/
lemma Linked.next_last {L : Links α} {a : α} {xs : List α} (h : Linked L a xs) :
    L.next (lastOf a xs) = none := by
  rw [← List.append_nil xs] at h
  exact (linked_append.mp h).2

/-- A chain that ends meets no node twice. -/
theorem Linked.nodup {L : Links α} {a : α} {xs : List α} (h : Linked L a xs) :
    (a :: xs).Nodup := by
  induction xs generalizing a with
  | nil => simp
  | cons x xs ih =>
    refine List.nodup_cons.mpr ⟨fun hmem => ?_, ih h.2.2⟩
    -- from `a` on the chain would be as long as its own tail
    obtain ⟨us, vs, heq⟩ := List.append_of_mem hmem
    have hsplit : Linked L a ((us ++ [a]) ++ vs) := by
      rw [List.append_assoc, List.singleton_append, ← heq]
      exact h
    have htail : Linked L a vs := by
      have := (linked_append.mp hsplit).2
      rwa [lastOf_append] at this
    have hlength := congrArg List.length (h.unique htail)
    have := congrArg List.length heq
    simp only [List.length_append, List.length_cons] at hlength this
    omega

/-- **The frame rule.** A chain only depends on the links of its own nodes. -/
theorem Linked.congr {L L' : Links α} {a : α} {xs : List α} (h : Linked L a xs)
    (hn : ∀ b ∈ a :: xs, L'.next b = L.next b) (hp : ∀ b ∈ xs, L'.prev b = L.prev b) :
    Linked L' a xs := by
  induction xs generalizing a with
  | nil => exact (hn a (by simp)).trans h
  | cons x xs ih =>
    refine ⟨(hn a (by simp)).trans h.1, (hp x (by simp)).trans h.2.1, ih h.2.2 ?_ ?_⟩
    · exact fun b hb => hn b (List.mem_cons_of_mem a hb)
    · exact fun b hb => hp b (List.mem_cons_of_mem x hb)

section Surgery

variable [DecidableEq α]

/-- Splice the node `x` in directly after the node `a`. -/
def Links.splice (L : Links α) (a x : α) : Links α where
  next b := if b = a then some x else if b = x then L.next a else L.next b
  prev b := if b = x then some a else if L.next a = some b then some x else L.prev b

/-- Make the two neighbours of the node `x` point at each other. -/
def Links.unlink (L : Links α) (x : α) : Links α where
  next b := if L.prev x = some b then L.next x else L.next b
  prev b := if L.next x = some b then L.prev x else L.prev b

lemma Links.splice_next_of_ne (L : Links α) {a x b : α} (ha : b ≠ a) (hx : b ≠ x) :
    (L.splice a x).next b = L.next b := by
  simp [Links.splice, ha, hx]

lemma Links.splice_prev_of_ne (L : Links α) {a x b : α} (hx : b ≠ x) (hb : L.next a ≠ some b) :
    (L.splice a x).prev b = L.prev b := by
  simp [Links.splice, hx, hb]

lemma Links.unlink_next_of_ne (L : Links α) {x b : α} (hb : L.prev x ≠ some b) :
    (L.unlink x).next b = L.next b := by
  simp [Links.unlink, hb]

lemma Links.unlink_prev_of_ne (L : Links α) {x b : α} (hb : L.next x ≠ some b) :
    (L.unlink x).prev b = L.prev b := by
  simp [Links.unlink, hb]

/-- Splicing directly after the start of a chain. -/
lemma linked_splice_head {L : Links α} {a x : α} {ys : List α} (h : Linked L a ys)
    (hnd : (a :: ys).Nodup) (hx : x ∉ a :: ys) : Linked (L.splice a x) a (x :: ys) := by
  have hxa : x ≠ a := fun e => hx (by simp [e])
  refine ⟨by simp [Links.splice], by simp [Links.splice], ?_⟩
  cases ys with
  | nil =>
    have hnone : L.next a = none := h
    simp [Linked, Links.splice, hxa, hnone]
  | cons y ys =>
    obtain ⟨hn, -, htail⟩ := h
    have hyx : y ≠ x := fun e => hx (by simp [e])
    refine ⟨by simp [Links.splice, hxa, hn], by simp [Links.splice, hn, hyx], ?_⟩
    refine htail.congr (fun b hb => ?_) (fun b hb => ?_)
    · refine L.splice_next_of_ne ?_ ?_
      · rintro rfl; exact (List.nodup_cons.mp hnd).1 hb
      · rintro rfl; exact hx (List.mem_cons_of_mem a hb)
    · refine L.splice_prev_of_ne ?_ ?_
      · rintro rfl; exact hx (by simp [hb])
      · rw [hn]; rintro ⟨⟩
        exact (List.nodup_cons.mp (List.nodup_cons.mp hnd).2).1 hb

/-- **Splicing inserts.** Splicing a fresh node in after the walk `xs` puts it between `xs`
and the rest of the chain. -/
theorem linked_splice {L : Links α} {a x : α} {xs ys : List α} (h : Linked L a (xs ++ ys))
    (hnd : (a :: (xs ++ ys)).Nodup) (hx : x ∉ a :: (xs ++ ys)) :
    Linked (L.splice (lastOf a xs) x) a (xs ++ x :: ys) := by
  induction xs generalizing a with
  | nil => exact linked_splice_head h hnd hx
  | cons z xs ih =>
    obtain ⟨hn, hp, htail⟩ := h
    have hnd' := (List.nodup_cons.mp hnd).2
    have hlast : lastOf z xs ∈ z :: (xs ++ ys) := by
      rcases List.mem_cons.mp (lastOf_mem z xs) with hz | hz
      · simp [hz]
      · simp [hz]
    refine ⟨?_, ?_, ih htail hnd' (fun hm => hx (List.mem_cons_of_mem a hm))⟩
    · rw [lastOf_cons, L.splice_next_of_ne ?_ ?_, hn]
      · rintro rfl; exact (List.nodup_cons.mp hnd).1 hlast
      · rintro rfl; exact hx (by simp)
    · rw [lastOf_cons, L.splice_prev_of_ne ?_ ?_, hp]
      · rintro rfl; exact hx (by simp)
      · -- the node after the walk lies in `ys`, so it is not `z`
        rw [(linked_append.mp htail).2.next_eq_head?]
        intro hz
        have : z ∈ ys := List.mem_of_mem_head? hz
        exact (List.nodup_cons.mp hnd').1 (List.mem_append_right xs this)

/-- Unlinking the first node of a chain. -/
lemma linked_unlink_head {L : Links α} {a x : α} {ys : List α} (h : Linked L a (x :: ys))
    (hnd : (a :: x :: ys).Nodup) : Linked (L.unlink x) a ys := by
  obtain ⟨hn, hp, htail⟩ := h
  have hxa : x ≠ a := fun e => (List.nodup_cons.mp hnd).1 (by simp [e])
  cases ys with
  | nil =>
    have hnone : L.next x = none := htail
    simp [Linked, Links.unlink, hp, hnone]
  | cons y ys =>
    obtain ⟨hn', hp', htail'⟩ := htail
    refine ⟨by simp [Links.unlink, hp, hn'], by simp [Links.unlink, hp, hn'], ?_⟩
    refine htail'.congr (fun b hb => L.unlink_next_of_ne ?_) (fun b hb => L.unlink_prev_of_ne ?_)
    · rw [hp]; rintro ⟨⟩
      exact (List.nodup_cons.mp hnd).1 (List.mem_cons_of_mem x hb)
    · rw [hn']; rintro ⟨⟩
      exact (List.nodup_cons.mp (List.nodup_cons.mp (List.nodup_cons.mp hnd).2).2).1 hb

/-- **Unlinking removes.** Unlinking a node of a chain leaves the chain of the others. -/
theorem linked_unlink {L : Links α} {a x : α} {xs ys : List α}
    (h : Linked L a (xs ++ x :: ys)) (hnd : (a :: (xs ++ x :: ys)).Nodup) :
    Linked (L.unlink x) a (xs ++ ys) := by
  induction xs generalizing a with
  | nil => exact linked_unlink_head h hnd
  | cons z xs ih =>
    obtain ⟨hn, hp, htail⟩ := h
    have hnd' := (List.nodup_cons.mp hnd).2
    obtain ⟨-, hpx, hnx⟩ := htail.around
    refine ⟨?_, ?_, ih htail hnd'⟩
    · rw [L.unlink_next_of_ne, hn]
      rw [hpx]
      intro he
      have hmem := lastOf_mem z xs
      rw [Option.some.inj he] at hmem
      refine (List.nodup_cons.mp hnd).1 ?_
      rcases List.mem_cons.mp hmem with rfl | hm
      · simp
      · simp [hm]
    · rw [L.unlink_prev_of_ne, hp]
      rw [hnx]
      intro hz
      have : z ∈ ys := List.mem_of_mem_head? hz
      exact (List.nodup_cons.mp hnd').1 (by simp [this])

end Surgery

end LowLevelTasks.Chain
