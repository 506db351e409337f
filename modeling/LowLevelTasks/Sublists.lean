import LowLevelTasks.SortedList
import Mathlib.Tactic.Linarith

/-!
The addresses of the list programs, and how `lab2_list.c` of project 2b assigns keys to its
sublists.

`getBin` cuts the visible characters into runs of equal length; it subtracts the number of
visible characters from the first character of the key where the offset of the first visible
one is meant, so every key lands in the low bins. It is still monotone, and total on visible
characters.
-/

namespace LowLevelTasks.Sublists

open LowLevelTasks.Strings

/-- The memory of the list programs: the heads and the elements. -/
inductive Addr
  | list (bin : ℕ)
  | elem (n : ℕ)
  deriving DecidableEq

lemma Addr.elem_injective : Function.Injective Addr.elem := fun _ _ => Addr.elem.inj

/-- The argument of the operations in project 2b: a head or an element, and its sublist. -/
structure ListInfo where
  listObj : Addr
  timer : ℤ
  bin : ℕ

def setUpListInfo (listObj : Addr) (bin : ℕ) : ListInfo := ⟨listObj, 0, bin⟩

def visibleAsciiChars : ℕ := 95

def binSize (numLists : ℕ) : ℕ :=
  if visibleAsciiChars % numLists ≠ 0 then visibleAsciiChars / numLists + 1
  else visibleAsciiChars / numLists

/-- The loop of `get_bin` from `bin`, with the number of bins left to try. -/
def getBinLoop (c : ℤ) (size : ℕ) : ℕ → ℕ → Option ℕ
  | 0, _ => none
  | left + 1, bin =>
    if c - visibleAsciiChars < ((bin + 1) * size : ℕ) then some bin
    else getBinLoop c size left (bin + 1)

/-- The sublist of a key; `none` is the exit with status 2. -/
def getBin (numLists : ℕ) (key : CString) : Option ℕ :=
  getBinLoop (deref key) (binSize numLists) numLists 0

lemma getBinLoop_bounds {c : ℤ} {size left bin b : ℕ} (h : getBinLoop c size left bin = some b) :
    bin ≤ b ∧ b < bin + left := by
  induction left generalizing bin with
  | zero => simp [getBinLoop] at h
  | succ left ih =>
    rw [getBinLoop] at h
    split at h
    · obtain rfl : bin = b := by simpa using h
      omega
    · have := ih h
      omega

lemma getBinLoop_mono {c c' : ℤ} {size left bin b b' : ℕ} (hc : c ≤ c')
    (h : getBinLoop c size left bin = some b) (h' : getBinLoop c' size left bin = some b') :
    b ≤ b' := by
  induction left generalizing bin with
  | zero => simp [getBinLoop] at h
  | succ left ih =>
    have hle := (getBinLoop_bounds h').1
    rw [getBinLoop] at h h'
    by_cases hlt : c - visibleAsciiChars < ((bin + 1) * size : ℕ)
    · rw [if_pos hlt] at h
      obtain rfl : bin = b := by simpa using h
      exact hle
    · rw [if_neg hlt] at h
      rw [if_neg (by omega)] at h'
      exact ih h h'

/-- The loop finds a bin if the last one is large enough. -/
lemma getBinLoop_isSome {c : ℤ} {size left bin : ℕ} (hleft : 0 < left)
    (hlast : c - visibleAsciiChars < ((bin + left) * size : ℕ)) :
    (getBinLoop c size left bin).isSome := by
  induction left generalizing bin with
  | zero => omega
  | succ left ih =>
    rw [getBinLoop]
    split
    · rfl
    · next hge =>
      rcases Nat.eq_zero_or_pos left with rfl | hpos
      · exact absurd hlast hge
      · exact ih hpos (by rwa [show bin + 1 + left = bin + (left + 1) by omega])

/-- The bins together cover all visible characters. -/
lemma visible_le_binSize {numLists : ℕ} (h : 0 < numLists) :
    visibleAsciiChars ≤ numLists * binSize numLists := by
  have hdiv := Nat.div_add_mod visibleAsciiChars numLists
  have hmod := Nat.mod_lt visibleAsciiChars h
  unfold binSize
  split
  · rw [Nat.mul_add]; omega
  · omega

/-- **`get_bin` is total** on keys that start with a visible character, or are empty. -/
theorem getBin_isSome {numLists : ℕ} (h : 0 < numLists) {key : CString} (hk : deref key ≤ 126) :
    ∃ b, getBin numLists key = some b ∧ b < numLists := by
  have hcover := visible_le_binSize h
  have hlast : deref key - visibleAsciiChars < ((0 + numLists) * binSize numLists : ℕ) := by
    rw [Nat.zero_add]
    have : ((numLists * binSize numLists : ℕ) : ℤ) ≥ visibleAsciiChars := by exact_mod_cast hcover
    unfold visibleAsciiChars at this ⊢
    omega
  have hsome := getBinLoop_isSome h hlast
  obtain ⟨b, hb⟩ := Option.isSome_iff_exists.mp hsome
  exact ⟨b, hb, by have := (getBinLoop_bounds hb).2; omega⟩

/-- **`get_bin` is monotone** in the first character of the key. -/
theorem getBin_mono {numLists : ℕ} {k k' : CString} {b b' : ℕ} (hk : deref k ≤ deref k')
    (h : getBin numLists k = some b) (h' : getBin numLists k' = some b') : b ≤ b' :=
  getBinLoop_mono hk h h'

/-- All characters of the key are visible ones. -/
def Visible (key : CString) : Prop := ∀ c ∈ key.bytes, 32 ≤ c.toNat ∧ c.toNat ≤ 126

lemma Visible.deref_le {key : CString} (h : Visible key) : deref key ≤ 126 := by
  obtain ⟨bytes, hb⟩ := key
  cases bytes with
  | nil => simp [deref]
  | cons c cs =>
    have := h c (by simp)
    simp only [deref]
    split <;> omega

lemma Visible.deref_mono {k k' : CString} (h : Visible k) (h' : Visible k') (hle : k ≤ k') :
    deref k ≤ deref k' :=
  deref_le_of_le (fun b hb => by have := h b hb; omega) (fun b hb => by have := h' b hb; omega)
    hle

end LowLevelTasks.Sublists
