import Mathlib.Data.List.Basic
import Mathlib.Data.List.Lex
import Mathlib.Data.List.TakeWhile
import Mathlib.Order.Lattice
import Mathlib.Tactic.Common

/-!
NUL-terminated strings and `strcmp`.

A string is the list of its bytes before the terminator, so none of them is zero. `strcmp`
compares as the C library does, byte by byte as unsigned characters; on such strings its sign
is the lexicographic order.
-/

namespace LowLevelTasks.Strings

/-- The bytes of a string up to its terminating NUL. -/
structure CString where
  bytes : List UInt8
  noNul : (0 : UInt8) ∉ bytes
  deriving DecidableEq

/-- The string at the start of a buffer. -/
def CString.ofBuffer (buf : List UInt8) : CString :=
  ⟨buf.takeWhile (· ≠ 0), fun h => by simpa using List.mem_takeWhile_imp h⟩

/-- `strcmp` on the bytes: the difference at the first place where the strings differ, the
terminator counting as zero. -/
def strcmpBytes : List UInt8 → List UInt8 → ℤ
  | [], [] => 0
  | [], b :: _ => -(b.toNat : ℤ)
  | a :: _, [] => a.toNat
  | a :: as, b :: bs => if a = b then strcmpBytes as bs else (a.toNat : ℤ) - b.toNat

def strcmp (s t : CString) : ℤ := strcmpBytes s.bytes t.bytes

/-- The value of `*s`: the first byte as a signed `char`, zero for the empty string. -/
def deref (s : CString) : ℤ :=
  match s.bytes with
  | [] => 0
  | b :: _ => if b.toNat < 128 then b.toNat else (b.toNat : ℤ) - 256

instance : LinearOrder CString :=
  LinearOrder.lift' (fun s => s.bytes.map UInt8.toNat) <| by
    rintro ⟨s, hs⟩ ⟨t, ht⟩ h
    have : s = t := List.map_injective_iff.mpr (fun _ _ => UInt8.toNat_inj.mp) h
    subst this; rfl

lemma lt_iff {s t : CString} : s < t ↔ s.bytes.map UInt8.toNat < t.bytes.map UInt8.toNat :=
  Iff.rfl

lemma toNat_pos {b : UInt8} (h : b ≠ 0) : 0 < b.toNat := by
  have : b.toNat ≠ (0 : UInt8).toNat := fun e => h (UInt8.toNat_inj.mp e)
  simpa [Nat.pos_iff_ne_zero] using this

lemma strcmpBytes_lt_zero {s t : List UInt8} (hs : 0 ∉ s) (ht : 0 ∉ t) :
    strcmpBytes s t < 0 ↔ s.map UInt8.toNat < t.map UInt8.toNat := by
  induction s, t using strcmpBytes.induct with
  | case1 => simp [strcmpBytes]
  | case2 b bs =>
    have : 0 < b.toNat := toNat_pos (by rintro rfl; simp at ht)
    simp [strcmpBytes, this]
  | case3 a as => simp [strcmpBytes]
  | case4 as a bs ih =>
    simp only [List.mem_cons, not_or] at hs ht
    simp [strcmpBytes, ih hs.2 ht.2]
  | case5 a as b bs hne =>
    have : a.toNat ≠ b.toNat := fun e => hne (UInt8.toNat_inj.mp e)
    simp only [strcmpBytes, hne, if_false, List.map_cons, List.cons_lt_cons_iff, this, false_and,
      or_false]
    omega

lemma strcmpBytes_eq_zero {s t : List UInt8} (hs : 0 ∉ s) (ht : 0 ∉ t) :
    strcmpBytes s t = 0 ↔ s = t := by
  induction s, t using strcmpBytes.induct with
  | case1 => simp [strcmpBytes]
  | case2 b bs =>
    have : 0 < b.toNat := toNat_pos (by rintro rfl; simp at ht)
    simp [strcmpBytes]; omega
  | case3 a as =>
    have : 0 < a.toNat := toNat_pos (by rintro rfl; simp at hs)
    simp [strcmpBytes]; omega
  | case4 as a bs ih =>
    simp only [List.mem_cons, not_or] at hs ht
    simp [strcmpBytes, ih hs.2 ht.2]
  | case5 a as b bs hne =>
    have : a.toNat ≠ b.toNat := fun e => hne (UInt8.toNat_inj.mp e)
    simp [strcmpBytes, hne]; omega

/-- `strcmp` is negative exactly on ascending pairs. -/
@[simp] lemma strcmp_lt_zero {s t : CString} : strcmp s t < 0 ↔ s < t :=
  (strcmpBytes_lt_zero s.noNul t.noNul).trans lt_iff.symm

@[simp] lemma strcmp_eq_zero {s t : CString} : strcmp s t = 0 ↔ s = t := by
  rw [strcmp, strcmpBytes_eq_zero s.noNul t.noNul]
  exact ⟨fun h => by cases s; cases t; simp_all, fun h => by rw [h]⟩

/-- Only the empty string starts with its terminator. -/
lemma deref_eq_zero {s : CString} : deref s = 0 ↔ s.bytes = [] := by
  obtain ⟨bytes, hb⟩ := s
  cases bytes with
  | nil => simp [deref]
  | cons b bs =>
    have hpos : 0 < b.toNat := toNat_pos (by rintro rfl; simp at hb)
    have hlt := b.toNat_lt
    simp only [deref, reduceCtorEq, iff_false]
    split <;> omega

/-- A string that starts with a smaller 7-bit character is smaller. -/
lemma deref_le_of_le {s t : CString} (hs : ∀ b ∈ s.bytes, b.toNat < 128)
    (ht : ∀ b ∈ t.bytes, b.toNat < 128) (h : s ≤ t) : deref s ≤ deref t := by
  obtain ⟨s, hs0⟩ := s
  obtain ⟨t, ht0⟩ := t
  cases s with
  | nil =>
    cases t with
    | nil => simp [deref]
    | cons b bs =>
      have := ht b (by simp)
      simp [deref, this]
  | cons a as =>
    have ha := hs a (by simp)
    cases t with
    | nil =>
      rw [← not_lt, lt_iff] at h
      simp at h
    | cons b bs =>
      have hb := ht b (by simp)
      rw [← not_lt, lt_iff] at h
      simp only [List.map_cons, List.cons_lt_cons_iff, not_or, not_lt] at h
      simp only [deref, if_pos ha, if_pos hb]
      exact_mod_cast h.1

end LowLevelTasks.Strings
