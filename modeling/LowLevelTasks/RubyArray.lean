import Mathlib.Data.Int.Basic
import Mathlib.Data.List.Basic

/-!
Arrays of Ruby: an index from the end may be negative, a read outside the array is `nil`, and
a write behind the end fills the gap with `nil`. A cell that is `none` holds `nil`.
-/

namespace LowLevelTasks.RubyArray

variable {α : Type}

/-- The place an index stands for, if it does not lie before the first element. -/
def position (length : ℕ) (i : ℤ) : Option ℕ :=
  if 0 ≤ i then some i.toNat
  else if 0 ≤ length + i then some (length + i).toNat
  else none

def get (xs : List (Option α)) (i : ℤ) : Option α :=
  (position xs.length i).bind fun n => (xs[n]?).join

/-- A write, which fails where the index lies before the first element. -/
def put (xs : List (Option α)) (i : ℤ) (x : α) : Option (List (Option α)) :=
  (position xs.length i).map fun n =>
    if n < xs.length then xs.set n (some x)
    else xs ++ List.replicate (n - xs.length) none ++ [some x]

/-- The most elements an array can have: `LONG_MAX / sizeof(VALUE)`. `put` does not look at it. -/
def maxLength : ℤ := 9223372036854775807 / 8

/-- `fetch`, which fails outside the array. -/
def fetch (xs : List α) (i : ℤ) : Option α := (position xs.length i).bind fun n => xs[n]?

@[simp] lemma position_natCast (length n : ℕ) : position length n = some n := by
  simp [position]

@[simp] lemma get_natCast (xs : List (Option α)) (n : ℕ) : get xs n = (xs[n]?).join := by
  simp [get]

lemma get_replicate (length n : ℕ) (x : α) :
    get (List.replicate length (some x)) n = if n < length then some x else none := by
  rw [get_natCast, List.getElem?_replicate]
  split <;> rfl

/-- A write to a proper index succeeds and changes the one cell only. -/
lemma put_natCast (xs : List (Option α)) (n : ℕ) (x : α) :
    ∃ ys, put xs n x = some ys ∧ ∀ m : ℕ, get ys m = if m = n then some x else get xs m := by
  unfold put
  rw [position_natCast]
  refine ⟨_, rfl, fun m => ?_⟩
  rw [get_natCast, get_natCast]
  dsimp only
  split
  · next hn =>
    rw [List.getElem?_set]
    by_cases hm : m = n
    · subst hm
      simp [hn]
    · rw [if_neg (Ne.symm hm), if_neg hm]
  · next hn =>
    by_cases hm : m = n
    · subst hm
      rw [List.getElem?_append_right (by simp; omega)]
      simp [show m - (xs.length + (m - xs.length)) = 0 by omega]
    · rw [if_neg hm]
      rcases Nat.lt_or_ge m xs.length with hlt | hge
      · rw [List.append_assoc, List.getElem?_append_left hlt]
      · rw [List.append_assoc, List.getElem?_append_right hge, List.getElem?_eq_none hge]
        rcases Nat.lt_or_ge (m - xs.length) (n - xs.length) with h | h
        · rw [List.getElem?_append_left (by simpa using h), List.getElem?_replicate, if_pos h]
          rfl
        · rw [List.getElem?_eq_none (by simp; omega)]

/-! ### Indices from either end -/

/-- The length after a write. -/
def grow (length : ℕ) (i : ℤ) : ℕ := max length (i + 1).toNat

lemma position_eq_none_iff {length : ℕ} {i : ℤ} : position length i = none ↔ i < -length := by
  unfold position
  split_ifs <;> simp <;> omega

lemma exists_position {length : ℕ} {i : ℤ} (h : -length ≤ i) : ∃ n, position length i = some n :=
  Option.ne_none_iff_exists'.mp fun hnone => by
    have := position_eq_none_iff.mp hnone
    omega

/-- An index stands for a place in the array after a write to it. -/
lemma grow_eq {length n : ℕ} {i : ℤ} (h : position length i = some n) :
    grow length i = max length (n + 1) := by
  unfold position at h
  unfold grow
  split_ifs at h with h1 h2
  · obtain rfl := Option.some.inj h
    omega
  · obtain rfl := Option.some.inj h
    omega

lemma get_eq_bind (xs : List (Option α)) (i : ℤ) :
    get xs i = (position xs.length i).bind fun n => get xs n := by
  unfold get
  simp

/-- A read that finds something is one of a proper index. -/
lemma exists_position_of_get {xs : List (Option α)} {i : ℤ} {x : α} (h : get xs i = some x) :
    ∃ n, position xs.length i = some n ∧ get xs n = some x := by
  rw [get_eq_bind] at h
  exact Option.bind_eq_some_iff.mp h

lemma put_eq_none_iff {xs : List (Option α)} {i : ℤ} {x : α} :
    put xs i x = none ↔ i < -xs.length := by
  unfold put
  rw [Option.map_eq_none_iff, position_eq_none_iff]

/-- **A write** that does not fail changes the one cell only. -/
lemma put_position {xs : List (Option α)} {i : ℤ} {n : ℕ} (x : α)
    (h : position xs.length i = some n) : ∃ ys, put xs i x = some ys ∧
      ys.length = grow xs.length i ∧
        ∀ m : ℕ, get ys m = if m = n then some x else get xs m := by
  obtain ⟨ys, hys, hget⟩ := put_natCast xs n x
  have hput : put xs i x = put xs n x := by
    unfold put
    rw [h, position_natCast]
  refine ⟨ys, hput.trans hys, ?_, hget⟩
  rw [grow_eq h]
  unfold put at hys
  rw [position_natCast, Option.map_some, Option.some.injEq] at hys
  rw [← hys]
  split
  · rw [List.length_set]
    omega
  · simp only [List.length_append, List.length_replicate, List.length_singleton]
    omega

end LowLevelTasks.RubyArray
