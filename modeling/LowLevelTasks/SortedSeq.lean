import Mathlib.Data.List.Basic
import Mathlib.Data.List.Perm.Basic
import Mathlib.Data.List.TakeWhile
import Mathlib.Order.Lattice
import Mathlib.Tactic.Common

/-!
Sequences kept ascending by a key.

The abstract view of a sorted container that may hold equal keys: insertion goes directly
before the first entry whose key is not smaller, removal erases one entry, a search returns
the first entry with the key. A monotone function of the key cuts such a sequence into
consecutive bins.
-/

namespace LowLevelTasks.SortedSeq

variable {α K : Type*} [LinearOrder K]

/-- Insert `x` directly before the first entry whose key is at least the key of `x`. -/
def insertSorted (κ : α → K) (x : α) (xs : List α) : List α :=
  xs.takeWhile (fun y => decide (κ y < κ x)) ++ x :: xs.dropWhile (fun y => decide (κ y < κ x))

/-- Ascending by key, equal keys allowed. -/
def Ascending (κ : α → K) (xs : List α) : Prop := xs.Pairwise fun a b => κ a ≤ κ b

lemma insertSorted_nil (κ : α → K) (x : α) : insertSorted κ x [] = [x] := rfl

lemma insertSorted_cons (κ : α → K) (x y : α) (ys : List α) :
    insertSorted κ x (y :: ys) =
      if κ y < κ x then y :: insertSorted κ x ys else x :: y :: ys := by
  by_cases h : κ y < κ x <;> simp [insertSorted, h]

lemma insertSorted_perm (κ : α → K) (x : α) (xs : List α) :
    (insertSorted κ x xs).Perm (x :: xs) := by
  have h := @List.perm_middle _ x (xs.takeWhile fun y => decide (κ y < κ x))
    (xs.dropWhile fun y => decide (κ y < κ x))
  rwa [List.takeWhile_append_dropWhile] at h

@[simp] lemma mem_insertSorted {κ : α → K} {x y : α} {xs : List α} :
    y ∈ insertSorted κ x xs ↔ y = x ∨ y ∈ xs := by
  rw [(insertSorted_perm κ x xs).mem_iff, List.mem_cons]

@[simp] lemma length_insertSorted (κ : α → K) (x : α) (xs : List α) :
    (insertSorted κ x xs).length = xs.length + 1 := by
  rw [(insertSorted_perm κ x xs).length_eq, List.length_cons]

/-- Insertion keeps a sequence ascending. -/
theorem Ascending.insertSorted {κ : α → K} {xs : List α} (h : Ascending κ xs) (x : α) :
    Ascending κ (insertSorted κ x xs) := by
  induction xs with
  | nil => simp [SortedSeq.insertSorted, Ascending]
  | cons y ys ih =>
    obtain ⟨hy, hys⟩ := List.pairwise_cons.mp h
    rw [insertSorted_cons]
    split
    · next hlt =>
      refine List.pairwise_cons.mpr ⟨fun z hz => ?_, ih hys⟩
      rcases mem_insertSorted.mp hz with rfl | hz
      · exact hlt.le
      · exact hy z hz
    · next hge =>
      refine List.pairwise_cons.mpr ⟨fun z hz => ?_, h⟩
      have hxy : κ x ≤ κ y := not_lt.mp hge
      rcases List.mem_cons.mp hz with rfl | hz
      · exact hxy
      · exact hxy.trans (hy z hz)

lemma Ascending.sublist {κ : α → K} {xs ys : List α} (h : Ascending κ ys) (hs : xs.Sublist ys) :
    Ascending κ xs :=
  List.Pairwise.sublist hs h

/-- A list without its one entry `x`. -/
lemma erase_middle [DecidableEq α] {x : α} {l r : List α} (h : x ∉ l) :
    (l ++ x :: r).erase x = l ++ r := by
  rw [List.erase_append_right _ h, List.erase_cons_head]

lemma insertSorted_map {γ : Type*} (f : γ → α) (κ : α → K) (x : γ) (xs : List γ) :
    insertSorted κ (f x) (xs.map f) = (insertSorted (fun y => κ (f y)) x xs).map f := by
  induction xs with
  | nil => rfl
  | cons y ys ih =>
    rw [List.map_cons, insertSorted_cons, insertSorted_cons, ih]
    split <;> rfl

/-- Keeping only some of the entries commutes with insertion. -/
lemma filter_insertSorted {κ : α → K} {xs : List α} (h : Ascending κ xs) (p : α → Bool) (x : α) :
    (insertSorted κ x xs).filter p =
      if p x then insertSorted κ x (xs.filter p) else xs.filter p := by
  induction xs with
  | nil => by_cases hp : p x <;> simp [insertSorted_nil, hp]
  | cons y ys ih =>
    obtain ⟨hy, hys⟩ := List.pairwise_cons.mp h
    rw [insertSorted_cons]
    by_cases hlt : κ y < κ x
    · rw [if_pos hlt, List.filter_cons, ih hys, List.filter_cons]
      by_cases hpy : p y <;> by_cases hpx : p x <;> simp [hpy, hpx, insertSorted_cons, hlt]
    · rw [if_neg hlt, List.filter_cons]
      by_cases hpx : p x
      · -- every entry that stays has a key no smaller than `x`
        have hxy : κ x ≤ κ y := not_lt.mp hlt
        have hge : ∀ z ∈ (y :: ys).filter p, ¬ κ z < κ x := fun z hz => by
          rcases List.mem_cons.mp (List.mem_filter.mp hz).1 with rfl | hz
          · exact hlt
          · exact not_lt.mpr (hxy.trans (hy z hz))
        rw [if_pos hpx, if_pos hpx]
        cases hf : (y :: ys).filter p with
        | nil => rw [insertSorted_nil]
        | cons z zs =>
          rw [hf] at hge
          rw [insertSorted_cons, if_neg (hge z (by simp))]
      · rw [if_neg hpx, if_neg hpx]

/-! ### Bins -/

/-- The entries of one bin, in order. -/
def binPart (bin : α → ℕ) (b : ℕ) (xs : List α) : List α := xs.filter fun x => decide (bin x = b)

@[simp] lemma mem_binPart {bin : α → ℕ} {b : ℕ} {xs : List α} {x : α} :
    x ∈ binPart bin b xs ↔ x ∈ xs ∧ bin x = b := by
  simp [binPart]

lemma binPart_cons (bin : α → ℕ) (b : ℕ) (x : α) (xs : List α) :
    binPart bin b (x :: xs) = if bin x = b then x :: binPart bin b xs else binPart bin b xs := by
  simp [binPart, List.filter_cons]

/-- Putting the first entry in front of its own bin, which is not behind any other. -/
lemma flatMap_binPart_cons {bin : α → ℕ} {x : α} {xs : List α} {m n : ℕ}
    (hm : m ≤ bin x) (hn : bin x < m + n) (hle : ∀ y ∈ xs, bin x ≤ bin y) :
    (List.range' m n).flatMap (fun b => binPart bin b (x :: xs)) =
      x :: (List.range' m n).flatMap fun b => binPart bin b xs := by
  induction n generalizing m with
  | zero => omega
  | succ n ih =>
    rw [List.range'_succ, List.flatMap_cons, List.flatMap_cons, binPart_cons]
    by_cases hb : bin x = m
    · -- the later bins do not see `x`
      have hrest : (List.range' (m + 1) n).flatMap (fun b => binPart bin b (x :: xs)) =
          (List.range' (m + 1) n).flatMap fun b => binPart bin b xs := by
        refine List.flatMap_congr fun b hb' => ?_
        have := List.left_le_of_mem_range' hb'
        rw [binPart_cons, if_neg (by omega)]
      rw [if_pos hb, hrest, List.cons_append]
    · have hempty : binPart bin m xs = [] := by
        refine List.filter_eq_nil_iff.mpr fun y hy => ?_
        have := hle y hy
        simp only [decide_eq_true_eq]
        omega
      rw [if_neg hb, ih (by omega) (by omega), hempty, List.nil_append, List.nil_append]

/-- **Bins of an ascending sequence.** If the bin grows with the key, the bins one after the
other are the sequence. -/
theorem flatMap_binPart {κ : α → K} {bin : α → ℕ} {xs : List α} {n : ℕ} (h : Ascending κ xs)
    (hmono : ∀ x ∈ xs, ∀ y ∈ xs, κ x ≤ κ y → bin x ≤ bin y) (hlt : ∀ x ∈ xs, bin x < n) :
    (List.range n).flatMap (fun b => binPart bin b xs) = xs := by
  induction xs with
  | nil => simp [binPart]
  | cons x xs ih =>
    obtain ⟨hx, hxs⟩ := List.pairwise_cons.mp h
    have hrec := ih hxs
      (fun y hy z hz => hmono y (List.mem_cons_of_mem x hy) z (List.mem_cons_of_mem x hz))
      (fun y hy => hlt y (List.mem_cons_of_mem x hy))
    rw [List.range_eq_range'] at hrec ⊢
    have hn := hlt x (by simp)
    rw [flatMap_binPart_cons (Nat.zero_le _) (by omega)
      (fun y hy => hmono x (by simp) y (List.mem_cons_of_mem x hy) (hx y hy)), hrec]

end LowLevelTasks.SortedSeq
