import Mathlib.Data.Fin.Tuple.Basic
import Mathlib.Tactic.Common

/-!
Cipher feedback with one byte of feedback, over an arbitrary block function.

The register holds one block. A byte is combined with the first byte of the encrypted
register, and the resulting cipher byte is shifted into the register.
-/

namespace LowLevelTasks.Cfb

/-- A block of `m + 1` bytes. -/
abbrev Block (m : ℕ) := Fin (m + 1) → UInt8

variable {m : ℕ} (f : Block m → Block m)

/-- Drop the first byte of the register and put `c` behind the others. -/
def shift (r : Block m) (c : UInt8) : Block m := @Fin.snoc m (fun _ => UInt8) (Fin.tail r) c

/-- The byte the next plain or cipher byte is combined with. -/
def mask (r : Block m) : UInt8 := f r 0

def encrypt (r : Block m) : List UInt8 → List UInt8
  | [] => []
  | p :: ps => (p ^^^ mask f r) :: encrypt (shift r (p ^^^ mask f r)) ps

def decrypt (r : Block m) : List UInt8 → List UInt8
  | [] => []
  | c :: cs => (c ^^^ mask f r) :: decrypt (shift r c) cs

/-- The bytes that a plain text is combined with. -/
def keyStream (r : Block m) : List UInt8 → List UInt8
  | [] => []
  | p :: ps => mask f r :: keyStream (shift r (p ^^^ mask f r)) ps

@[simp] lemma shift_last (r : Block m) (c : UInt8) : shift r c (Fin.last m) = c := by
  simp [shift]

@[simp] lemma length_encrypt (r : Block m) (ps : List UInt8) :
    (encrypt f r ps).length = ps.length := by
  induction ps generalizing r with
  | nil => rfl
  | cons p ps ih => simp [encrypt, ih]

/-- A cipher text fixes the key stream of its plain text. -/
lemma encrypt_eq_iff (r : Block m) {ps cs : List UInt8} (hlen : ps.length = cs.length) :
    encrypt f r ps = cs ↔ keyStream f r ps = List.zipWith (· ^^^ ·) ps cs := by
  induction ps generalizing r cs with
  | nil =>
    obtain rfl : cs = [] := List.length_eq_zero_iff.mp hlen.symm
    exact iff_of_true rfl rfl
  | cons p ps ih =>
    obtain ⟨c, cs, rfl⟩ := List.exists_cons_of_length_eq_add_one hlen.symm
    have hbyte : p ^^^ mask f r = c ↔ mask f r = p ^^^ c := by
      rw [← UInt8.xor_right_inj p, ← UInt8.xor_assoc, UInt8.xor_self, UInt8.zero_xor]
    rw [encrypt, keyStream, List.zipWith_cons_cons, List.cons_eq_cons, List.cons_eq_cons,
      ih _ (Nat.succ_inj.mp hlen), hbyte]

/-- The bytes behind a message do not change its cipher text. -/
lemma take_encrypt (r : Block m) (ps : List UInt8) (n : ℕ) :
    (encrypt f r ps).take n = encrypt f r (ps.take n) := by
  induction ps generalizing r n with
  | nil => simp [encrypt]
  | cons p ps ih => cases n <;> simp [encrypt, ih]

lemma take_decrypt (r : Block m) (cs : List UInt8) (n : ℕ) :
    (decrypt f r cs).take n = decrypt f r (cs.take n) := by
  induction cs generalizing r n with
  | nil => simp [decrypt]
  | cons c cs ih => cases n <;> simp [decrypt, ih]

end LowLevelTasks.Cfb
