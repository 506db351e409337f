import LowLevelTasks.Buffers
import LowLevelTasks.Cfb
import LowLevelTasks.Strings
import Mathlib.Data.List.SplitLengths

/-!
What the programs of project 1b do to the bytes on the socket.

The sender encrypts every message from the initial register, the receiver decrypts every read
from the initial register, and both copy the bytes with `strncpy`, which stops at the first
zero. They do not test for a key in the same way: the sender asks for its length, the receiver
for the sign of its first `char`.
-/

namespace LowLevelTasks.Encryption

open LowLevelTasks.Cfb LowLevelTasks.Strings

/-- The `n` bytes that `strncpy` stores: the source up to its first zero, and zeros. -/
def strncpy : List UInt8 → ℕ → List UInt8
  | _, 0 => []
  | [], n + 1 => 0 :: strncpy [] n
  | b :: src, n + 1 => if b = 0 then List.replicate (n + 1) 0 else b :: strncpy src n

variable {m : ℕ}

/-- The next multiple of the block size, which is `m + 1`. -/
def calculateBlock (m size : ℕ) : ℕ :=
  let result := if size % (m + 1) = 0 then size / (m + 1) else size / (m + 1) + 1
  result * (m + 1)

def IV : Block m := fun _ => 0

/-- The key of the session, empty if none is given, and the block function of the cipher
under it. -/
structure Key (m : ℕ) where
  text : CString
  block : Block m → Block m

/-- Without a key the block function is never called. -/
def noKey : Key m := ⟨.ofBuffer [], id⟩

/-- The bytes that `write_to_socket` writes. -/
def writeToSocket (key : Key m) (buf : List UInt8) (count : ℕ) : List UInt8 :=
  let hasKey : Bool := 0 < key.text.bytes.length
  let block := calculateBlock m count
  let bufCopy := strncpy buf count ++ List.replicate (block - count) 0
  let bufCopy := if hasKey then encrypt key.block IV bufCopy else bufCopy
  bufCopy.take count

/-- The buffer of `poll_inputs` after a read from the socket has been decrypted. -/
def decryptRead (key : Key m) (buf : List UInt8) : List UInt8 :=
  let hasKey : Bool := deref key.text > 0
  let numChars := buf.length
  if hasKey ∧ 0 < numChars then
    let block := calculateBlock m numChars
    let bufCopy := strncpy buf numChars ++ List.replicate (block - numChars) 0
    strncpy (decrypt key.block IV bufCopy) numChars
  else buf

/-- Byte by byte this is the copy of a string into a buffer. -/
lemma strncpy_eq (src : List UInt8) (n : ℕ) : strncpy src n = Buffers.strncpy n src := by
  induction n generalizing src with
  | zero => cases src <;> rfl
  | succ n ih =>
    cases src with
    | nil =>
      rw [strncpy, ih]
      simp [Buffers.strncpy, List.replicate_succ]
    | cons b src =>
      rw [strncpy]
      split
      · next hb => simp [Buffers.strncpy, hb]
      · next hb =>
        rw [ih]
        simp [Buffers.strncpy, hb]

@[simp] lemma length_strncpy (src : List UInt8) (n : ℕ) : (strncpy src n).length = n := by
  rw [strncpy_eq, Buffers.length_strncpy]

/-- Only the first `n` bytes of the source count. -/
lemma strncpy_take (src : List UInt8) (n : ℕ) : strncpy (src.take n) n = strncpy src n := by
  rw [strncpy_eq, strncpy_eq, Buffers.strncpy_take]

variable {key : Key m}

/-- The padding to whole blocks is not sent. -/
lemma writeToSocket_of_ne_nil (hkey : key.text.bytes ≠ []) (buf : List UInt8) (count : ℕ) :
    writeToSocket key buf count = encrypt key.block IV (strncpy buf count) := by
  have hlen : 0 < key.text.bytes.length := List.length_pos_of_ne_nil hkey
  simp only [writeToSocket, hlen, decide_true, if_true]
  rw [take_encrypt, List.take_append_of_le_length (by simp), List.take_of_length_le (by simp)]

lemma writeToSocket_of_eq_nil (hkey : key.text.bytes = []) (buf : List UInt8) (count : ℕ) :
    writeToSocket key buf count = strncpy buf count := by
  simp only [writeToSocket, hkey, List.length_nil, lt_irrefl, decide_false, Bool.false_eq_true,
    if_false]
  rw [List.take_append_of_le_length (by simp), List.take_of_length_le (by simp)]

/-- Nor does it matter to the receiver. -/
lemma decryptRead_of_pos (hkey : 0 < deref key.text) (buf : List UInt8) :
    decryptRead key buf = strncpy (decrypt key.block IV (strncpy buf buf.length)) buf.length := by
  simp only [decryptRead, gt_iff_lt, hkey, decide_true, true_and]
  split
  · rw [← strncpy_take, take_decrypt, List.take_append_of_le_length (by simp),
      List.take_of_length_le (by simp)]
  · next h =>
    obtain rfl : buf = [] := by simpa using h
    rfl

lemma decryptRead_of_nonpos (hkey : deref key.text ≤ 0) (buf : List UInt8) :
    decryptRead key buf = buf := by
  simp [decryptRead, not_lt.mpr hkey]

lemma length_writeToSocket (key : Key m) (buf : List UInt8) (count : ℕ) :
    (writeToSocket key buf count).length = count := by
  by_cases hkey : key.text.bytes = []
  · rw [writeToSocket_of_eq_nil hkey, length_strncpy]
  · rw [writeToSocket_of_ne_nil hkey, length_encrypt, length_strncpy]

lemma length_decryptRead (key : Key m) (buf : List UInt8) :
    (decryptRead key buf).length = buf.length := by
  rcases le_or_gt (deref key.text) 0 with hkey | hkey
  · rw [decryptRead_of_nonpos hkey]
  · rw [decryptRead_of_pos hkey, length_strncpy]

@[simp] lemma writeToSocket_noKey (buf : List UInt8) (count : ℕ) :
    writeToSocket (noKey : Key m) buf count = strncpy buf count :=
  writeToSocket_of_eq_nil rfl buf count

end LowLevelTasks.Encryption
