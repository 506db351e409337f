import LowLevelTasks.Sublists
import Mathlib.Algebra.Order.Floor.Semiring
import Mathlib.Data.Finset.Card
import Mathlib.Data.Rat.Floor

/-!
The shares of the sublists in project 2b. `get_bin` subtracts the number of the visible
characters where it means the offset of the first one, so that the first sublist gets two thirds
of the characters before the runs begin to count.
-/

namespace LowLevelTasks.BinShares

open LowLevelTasks.Strings LowLevelTasks.Sublists

/-- The sublist of the keys that begin with this character. -/
def binOfChar (numLists : ℕ) (c : ℤ) : Option ℕ := getBinLoop c (binSize numLists) numLists 0

lemma getBin_eq_binOfChar (numLists : ℕ) (key : CString) :
    getBin numLists key = binOfChar numLists (deref key) := rfl

/-- The visible characters that go to a sublist, by their distance from the first one. -/
def received (numLists bin : ℕ) : Finset ℕ :=
  (Finset.range visibleAsciiChars).filter fun i => binOfChar numLists (32 + i) = some bin

/-- Keys that begin with a visible character have a sublist, and no sublist gets more characters
than its share, rounded up. -/
structure Spread (numLists : ℕ) : Prop where
  total : ∀ key, 32 ≤ deref key → deref key ≤ 126 →
    ∃ bin < numLists, getBin numLists key = some bin
  share : ∀ bin < numLists,
    (received numLists bin).card ≤ ⌈(visibleAsciiChars / numLists : ℚ)⌉₊

variable {numLists : ℕ} {c : ℤ}

lemma binSize_pos (hL : 0 < numLists) : 0 < binSize numLists := by
  have hcover := visible_le_binSize hL
  by_contra hzero
  rw [Nat.eq_zero_of_not_pos hzero, Nat.mul_zero] at hcover
  exact absurd hcover (by decide)

/-- **The first sublist** gets every character that is not behind the number of the visible
characters. -/
lemma binOfChar_eq_zero (hL : 0 < numLists) (hc : c ≤ visibleAsciiChars) :
    binOfChar numLists c = some 0 := by
  obtain ⟨left, rfl⟩ := Nat.exists_eq_succ_of_ne_zero hL.ne'
  have hsize := binSize_pos hL
  unfold binOfChar
  rw [getBinLoop, if_pos]
  push_cast
  omega

lemma le_card_received (hL : 0 < numLists) : 64 ≤ (received numLists 0).card := by
  have hsub : Finset.range 64 ⊆ received numLists 0 := by
    intro i hi
    rw [Finset.mem_range] at hi
    refine Finset.mem_filter.mpr ⟨Finset.mem_range.mpr (hi.trans (by decide)), ?_⟩
    refine binOfChar_eq_zero hL ?_
    unfold visibleAsciiChars
    omega
  calc 64 = (Finset.range 64).card := (Finset.card_range 64).symm
    _ ≤ (received numLists 0).card := Finset.card_le_card hsub

/-- **The keys are spread** if there is one sublist only. -/
theorem spread_iff (hL : 0 < numLists) : Spread numLists ↔ numLists = 1 := by
  constructor
  · intro hs
    by_contra hone
    have hceil : ⌈(visibleAsciiChars / numLists : ℚ)⌉₊ ≤ 48 := by
      have htwo : (2 : ℚ) ≤ numLists := by exact_mod_cast (show 2 ≤ numLists by omega)
      refine Nat.ceil_le.mpr ((div_le_iff₀ (by linarith)).mpr ?_)
      unfold visibleAsciiChars
      push_cast
      linarith
    have hcard := le_card_received hL
    have := hs.share 0 hL
    omega
  · rintro rfl
    refine ⟨fun key _ hk => ?_, fun bin _ => ?_⟩
    · obtain ⟨bin, hbin, hlt⟩ := getBin_isSome hL hk
      exact ⟨bin, hlt, hbin⟩
    · calc (received 1 bin).card ≤ (Finset.range visibleAsciiChars).card :=
          Finset.card_filter_le _ _
        _ = 95 := Finset.card_range 95
        _ = ⌈(visibleAsciiChars / (1 : ℕ) : ℚ)⌉₊ := by simp [visibleAsciiChars]

theorem spread_iff_one : Spread 1 := (spread_iff Nat.one_pos).mpr rfl

/-- Of two sublists the first one gets all characters. -/
theorem two_unspread : (received 2 0).card = 95 ∧ ⌈(visibleAsciiChars / (2 : ℕ) : ℚ)⌉₊ = 48 ∧
    ¬ Spread 2 := by
  have hcard : (received 2 0).card = 95 := by decide +kernel
  have hceil : ⌈(visibleAsciiChars / (2 : ℕ) : ℚ)⌉₊ = 48 := by
    rw [Nat.ceil_eq_iff (by decide)]
    unfold visibleAsciiChars
    norm_num
  refine ⟨hcard, hceil, fun hs => ?_⟩
  have := hs.share 0 (by decide)
  omega

end LowLevelTasks.BinShares
