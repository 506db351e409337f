import LowLevelTasks.Buffers
import LowLevelTasks.Strings

/-!
The argument of `--yield` in projects 2a and 2b.

The loop over it stops at the end of the string or after three characters, and the counter never
gets past three: the test for strings that are too long finds none.
-/

namespace LowLevelTasks.YieldOptions

open LowLevelTasks.Strings

def insertYield : BitVec 32 := 0x01
def deleteYield : BitVec 32 := 0x02
def lookupYield : BitVec 32 := 0x04

/-- The bit of a character in `opt_yield`. -/
def yieldBit (c : UInt8) : Option (BitVec 32) :=
  if c = 105 then some insertYield
  else if c = 100 then some deleteYield
  else if c = 108 then some lookupYield
  else none

/-- The loop, at the character with the number `t`: the number it stops at, unless it comes to a
character without a bit, and `opt_yield`. -/
def yieldLoop (t : ℕ) (optYield : BitVec 32) : List UInt8 → Option ℕ × BitVec 32
  | [] => (some t, optYield)
  | c :: s =>
    if t < 3 then
      match yieldBit c with
      | some bit => yieldLoop (t + 1) (optYield ||| bit) s
      | none => (none, optYield)
    else (some t, optYield)

/-- What `yield_by` returns, and `opt_yield` afterwards. -/
def yieldBy (optYield : BitVec 32) (yield : CString) : ℤ × BitVec 32 :=
  match yieldLoop 0 optYield yield.bytes with
  | (none, optYield) => (1, optYield)
  | (some t, optYield) => (if t > 3 then 1 else 0, optYield)

/-! ### The language -/

def letters : List UInt8 := [105, 100, 108]

def InLanguage (s : List UInt8) : Prop := s.length ≤ 3 ∧ ∀ c ∈ s, c ∈ letters

/-- The bits of the characters that occur. -/
def bitsOf (s : List UInt8) : BitVec 32 :=
  (if 105 ∈ s then insertYield else 0) ||| (if 100 ∈ s then deleteYield else 0) |||
    (if 108 ∈ s then lookupYield else 0)

/-- Zero is returned exactly for the strings of the language, and then their bits are added. -/
structure Exact (optYield : BitVec 32) (yield : CString) : Prop where
  accepts : (yieldBy optYield yield).1 = 0 ↔ InLanguage yield.bytes
  adds : (yieldBy optYield yield).1 = 0 → (yieldBy optYield yield).2 =
    optYield ||| bitsOf yield.bytes

variable {c : UInt8} {s : List UInt8} {bit optYield : BitVec 32} {t : ℕ}

lemma yieldBit_isSome : (yieldBit c).isSome ↔ c ∈ letters := by
  unfold yieldBit letters
  split_ifs <;> simp_all

@[simp] lemma bitsOf_nil : bitsOf [] = 0 := rfl

/-- A bit that is there already is added once more. -/
lemma bitsOf_cons (h : yieldBit c = some bit) : bitsOf (c :: s) = bit ||| bitsOf s := by
  have hletter : c = 105 ∨ c = 100 ∨ c = 108 := by
    have := yieldBit_isSome.mp (Option.isSome_of_eq_some h)
    simpa [letters] using this
  obtain rfl | rfl | rfl := hletter
  all_goals
    obtain rfl := Option.some.inj h
    by_cases hi : 105 ∈ s <;> by_cases hd : 100 ∈ s <;> by_cases hl : 108 ∈ s <;>
      simp [bitsOf, hi, hd, hl, insertYield, deleteYield, lookupYield]

/-- **What the loop does** with characters that have a bit: it reads up to three of them. -/
lemma yieldLoop_eq (ht : t ≤ 3) (h : ∀ c ∈ s.take (3 - t), c ∈ letters) :
    yieldLoop t optYield s =
      (some (min 3 (t + s.length)), optYield ||| bitsOf (s.take (3 - t))) := by
  induction s generalizing t optYield with
  | nil => simp [yieldLoop, ht]
  | cons c s ih =>
    rw [yieldLoop]
    by_cases hlt : t < 3
    · have htake : (c :: s).take (3 - t) = c :: s.take (3 - (t + 1)) := by
        rw [show 3 - t = 3 - (t + 1) + 1 by omega, List.take_succ_cons]
      rw [htake, List.forall_mem_cons] at h
      obtain ⟨bit, hbit⟩ := Option.isSome_iff_exists.mp (yieldBit_isSome.mpr h.1)
      rw [if_pos hlt, hbit, htake, bitsOf_cons hbit]
      dsimp only
      rw [ih (by omega) h.2, List.length_cons, BitVec.or_assoc, Nat.add_right_comm, Nat.add_assoc]
    · obtain rfl : t = 3 := by omega
      simp

lemma yieldLoop_fst_eq_none (h : ¬ ∀ c ∈ s.take (3 - t), c ∈ letters) :
    (yieldLoop t optYield s).1 = none := by
  induction s generalizing t optYield with
  | nil => simp at h
  | cons c s ih =>
    by_cases hlt : t < 3
    · have htake : (c :: s).take (3 - t) = c :: s.take (3 - (t + 1)) := by
        rw [show 3 - t = 3 - (t + 1) + 1 by omega, List.take_succ_cons]
      rw [htake, List.forall_mem_cons] at h
      rw [yieldLoop, if_pos hlt]
      cases hbit : yieldBit c with
      | none => rfl
      | some bit =>
        have hc : c ∈ letters := yieldBit_isSome.mp (Option.isSome_of_eq_some hbit)
        exact ih fun hrest => h ⟨hc, hrest⟩
    · simp [Nat.sub_eq_zero_of_le (Nat.le_of_not_lt hlt)] at h

/-! ### The result -/

/-- Only the first three characters count. -/
lemma yieldBy_eq (optYield : BitVec 32) (yield : CString)
    (h : ∀ c ∈ yield.bytes.take 3, c ∈ letters) :
    yieldBy optYield yield = (0, optYield ||| bitsOf (yield.bytes.take 3)) := by
  rw [yieldBy, yieldLoop_eq (Nat.zero_le 3) h]
  exact Prod.ext (if_neg (by omega)) rfl

lemma yieldBy_fst (optYield : BitVec 32) (yield : CString)
    (h : ¬ ∀ c ∈ yield.bytes.take 3, c ∈ letters) : (yieldBy optYield yield).1 = 1 := by
  have hnone : (yieldLoop 0 optYield yield.bytes).1 = none := yieldLoop_fst_eq_none h
  rw [yieldBy]
  cases hloop : yieldLoop 0 optYield yield.bytes with
  | mk result opt =>
    rw [hloop] at hnone
    obtain rfl : result = none := hnone
    rfl

/-- **When `yield_by` accepts its language.** For all strings but those of more than three
characters whose first three are letters of the language. -/
theorem yieldBy_exact_iff (optYield : BitVec 32) (yield : CString) : Exact optYield yield ↔
    ¬ (3 < yield.bytes.length ∧ ∀ c ∈ yield.bytes.take 3, c ∈ letters) := by
  constructor
  · rintro h ⟨hlong, hletters⟩
    have haccepts := h.accepts.mp (by rw [yieldBy_eq optYield yield hletters])
    exact absurd haccepts.1 (Nat.not_le_of_lt hlong)
  · intro h
    by_cases hletters : ∀ c ∈ yield.bytes.take 3, c ∈ letters
    · have hshort : yield.bytes.length ≤ 3 := Nat.not_lt.mp fun hlong => h ⟨hlong, hletters⟩
      have htake : yield.bytes.take 3 = yield.bytes := List.take_of_length_le hshort
      have heq := yieldBy_eq optYield yield hletters
      rw [htake] at heq hletters
      exact ⟨iff_of_true (by rw [heq]) ⟨hshort, hletters⟩, fun _ => by rw [heq]⟩
    · have hone := yieldBy_fst optYield yield hletters
      have hother : ¬ InLanguage yield.bytes := fun hlang =>
        hletters fun c hc => hlang.2 c (List.mem_of_mem_take hc)
      exact ⟨iff_of_false (by rw [hone]; decide) hother, fun hzero => by simp [hone] at hzero⟩

/-- A fourth character is not looked at. -/
theorem fourth_character_accepted : ¬ Exact 0 (.ofBuffer [105, 100, 108, 120]) := fun h =>
  absurd (h.accepts.mp (by decide)).1 (by decide)

/-- The field that the callers copy the string to has five bytes: a string that fills it is
printed without a terminator. -/
theorem strYield_terminated_iff (yield : CString) :
    0 ∈ Buffers.strncpy 5 yield.bytes ↔ yield.bytes.length ≤ 4 := by
  have hnul : ∀ b ∈ yield.bytes.take 5, b ≠ 0 := fun b hb =>
    ne_of_mem_of_not_mem (List.mem_of_mem_take hb) yield.noNul
  have hword : 0 ∉ yield.bytes.take 5 := fun h => hnul 0 h rfl
  rw [Buffers.strncpy_of_noNul hnul, List.mem_append, or_iff_right hword, List.mem_replicate,
    List.length_take, and_iff_left rfl]
  omega

end LowLevelTasks.YieldOptions
