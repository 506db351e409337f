import LowLevelTasks.Encryption
import Mathlib.Algebra.Ring.Nat
import Mathlib.Data.Fintype.Pi

/-!
One message of project 1b that one read returns whole.

The payload is copied up to its first zero before it is encrypted, the cipher text up to its
first zero before it is decrypted, and the plain text once more behind that. Nothing but zeros
can take the place of what a copy leaves out, so a payload arrives only if it has nothing but
zeros there itself.
-/

namespace LowLevelTasks.PayloadRoundTrip

open LowLevelTasks.Cfb LowLevelTasks.Strings LowLevelTasks.Encryption

variable {m : ℕ}

/-- The receiver's buffer holds the payload. -/
def Survives (key : Key m) (payload : List UInt8) : Prop :=
  decryptRead key (writeToSocket key payload payload.length) = payload

/-- Nothing but zeros follows the first zero. -/
def ZeroTailed (bytes : List UInt8) : Prop := bytes.Pairwise fun a b => a = 0 → b = 0

/-- The bytes up to the first zero, and that zero if there is one. -/
def throughNul (bytes : List UInt8) : List UInt8 :=
  bytes.take ((bytes.takeWhile (· ≠ 0)).length + 1)

variable (f : Block m → Block m)

/-- Through the first zero of the payload, no byte differs from its byte of the key stream
behind one that is equal to it. -/
def CipherKept (payload : List UInt8) : Prop :=
  ((throughNul payload).zip (keyStream f IV payload)).Pairwise fun a b => a.1 = a.2 → b.1 = b.2

/-- When the payload survives under a key. A receiver that finds the first `char` of the key
negative does not decrypt what the sender encrypts: there the key stream has to make up for the
difference between the payload and its copy. -/
def Kept (key : Key m) (payload : List UInt8) : Prop :=
  if 0 < deref key.text then ZeroTailed payload ∧ CipherKept key.block payload
  else if key.text.bytes = [] then ZeroTailed payload
  else keyStream key.block IV (strncpy payload payload.length) =
    List.zipWith (· ^^^ ·) (strncpy payload payload.length) payload

lemma strncpy_length_iff {bytes : List UInt8} :
    strncpy bytes bytes.length = bytes ↔ ZeroTailed bytes := by
  rw [strncpy_eq]
  exact Buffers.strncpy_eq_self_iff

/-! ### Copies that stop at a zero -/

variable {f} {b : UInt8} {bytes : List UInt8}

@[simp] lemma throughNul_zero_cons : throughNul (0 :: bytes) = [0] := by simp [throughNul]

lemma throughNul_cons (hb : b ≠ 0) : throughNul (b :: bytes) = b :: throughNul bytes := by
  simp [throughNul, hb]

lemma exists_throughNul_cons (b : UInt8) (bytes : List UInt8) :
    ∃ rest, throughNul (b :: bytes) = b :: rest := ⟨_, List.take_succ_cons⟩

lemma zeroTailed_cons :
    ZeroTailed (b :: bytes) ↔ (b = 0 → ∀ c ∈ bytes, c = 0) ∧ ZeroTailed bytes := by
  rw [ZeroTailed, List.pairwise_cons, ZeroTailed]
  exact and_congr_left fun _ => ⟨fun h hb c hc => h c hc hb, fun h c hc hb => h hb c hc⟩

/-- A copy is the payload when its first byte is right and, behind a byte that is not zero, the
others are. -/
lemma strncpy_cons_iff {c : UInt8} {cs : List UInt8} (hzero : ZeroTailed (b :: bytes)) :
    strncpy (c :: cs) (bytes.length + 1) = b :: bytes ↔
      c = b ∧ (b ≠ 0 → strncpy cs bytes.length = bytes) := by
  by_cases hc : c = 0
  · subst hc
    rw [strncpy, if_pos rfl, List.replicate_succ, List.cons_eq_cons]
    refine and_congr_right fun hb => ?_
    subst hb
    exact iff_of_true (List.eq_replicate_iff.mpr ⟨rfl, (zeroTailed_cons.mp hzero).1 rfl⟩).symm
      fun h => absurd rfl h
  · rw [strncpy, if_neg hc, List.cons_eq_cons]
    refine and_congr_right fun hb => ?_
    subst hb
    exact ⟨fun h _ => h, fun h => h hc⟩

/-- A receiver that has only zeros left makes its key stream of them. -/
lemma decrypt_zeros_iff (r : Block m) (hzero : ZeroTailed bytes) :
    strncpy (decrypt f r (List.replicate bytes.length 0)) bytes.length = bytes ↔
      ∀ x ∈ (throughNul bytes).zip (keyStream f r bytes), x.1 = x.2 := by
  induction bytes generalizing r with
  | nil => exact iff_of_true rfl (by simp [throughNul])
  | cons b bytes ih =>
    rw [List.length_cons, List.replicate_succ, decrypt, UInt8.zero_xor, strncpy_cons_iff hzero,
      keyStream]
    by_cases hb : b = 0
    · subst hb
      simp [eq_comm]
    · rw [throughNul_cons hb, List.zip_cons_cons, List.forall_mem_cons]
      constructor
      · rintro ⟨hmask, h⟩
        refine ⟨hmask.symm, ?_⟩
        rw [hmask, UInt8.xor_self, ← ih _ (zeroTailed_cons.mp hzero).2]
        exact h hb
      · rintro ⟨hmask, h⟩
        have hmask : b = mask f r := hmask
        rw [hmask, UInt8.xor_self, ← ih _ (zeroTailed_cons.mp hzero).2] at h
        exact ⟨hmask.symm, fun _ => h⟩

/-- The receiver loses a byte where it meets the first zero of the cipher text before the first
zero of the payload. -/
lemma decrypt_encrypt_iff (r : Block m) (hzero : ZeroTailed bytes) :
    strncpy (decrypt f r (strncpy (encrypt f r bytes) bytes.length)) bytes.length = bytes ↔
      ((throughNul bytes).zip (keyStream f r bytes)).Pairwise
        fun a b => a.1 = a.2 → b.1 = b.2 := by
  induction bytes generalizing r with
  | nil => exact iff_of_true rfl (by simp [throughNul])
  | cons b bytes ih =>
    have htail := (zeroTailed_cons.mp hzero).2
    rw [List.length_cons, encrypt, keyStream]
    by_cases hcipher : b ^^^ mask f r = 0
    · -- from here on the receiver has zeros
      have hmask : b = mask f r := UInt8.xor_eq_zero_iff.mp hcipher
      rw [hcipher, strncpy, if_pos rfl, List.replicate_succ, decrypt, UInt8.zero_xor, ← hmask,
        strncpy_cons_iff hzero, decrypt_zeros_iff _ htail]
      by_cases hb : b = 0
      · subst hb
        simp
      · rw [throughNul_cons hb, List.zip_cons_cons, List.pairwise_cons]
        constructor
        · rintro ⟨-, h⟩
          refine ⟨fun x hx _ => h hb x hx, List.pairwise_of_forall_mem_list ?_⟩
          exact fun _ _ x hx _ => h hb x hx
        · exact fun h => ⟨rfl, fun _ x hx => h.1 x hx rfl⟩
    · have hmask : b ≠ mask f r := fun h => hcipher (UInt8.xor_eq_zero_iff.mpr h)
      rw [strncpy, if_neg hcipher, decrypt, UInt8.xor_assoc, UInt8.xor_self, UInt8.xor_zero,
        strncpy_cons_iff hzero, ih _ htail]
      by_cases hb : b = 0
      · subst hb
        simp
      · rw [throughNul_cons hb, List.zip_cons_cons, List.pairwise_cons]
        simp [hb, hmask]

lemma zeroTailed_strncpy (src : List UInt8) (n : ℕ) : ZeroTailed (strncpy src n) := by
  rw [strncpy_eq, Buffers.strncpy, ZeroTailed, List.pairwise_append]
  have hzeros : ∀ b ∈ List.replicate (n - ((src.take n).takeWhile (· ≠ 0)).length) (0 : UInt8),
      b = 0 := fun b hb => List.eq_of_mem_replicate hb
  have hword : ∀ b ∈ (src.take n).takeWhile (· ≠ 0), b ≠ 0 := fun b hb => by
    simpa using List.mem_takeWhile_imp hb
  refine ⟨?_, ?_, fun a ha b hb _ => hzeros b hb⟩
  · exact List.pairwise_of_forall_mem_list fun a ha _ _ h => absurd h (hword a ha)
  · exact List.pairwise_of_forall_mem_list fun _ _ b hb _ => hzeros b hb

/-! ### The three ways to treat a key -/

section

variable {key : Key m} {payload : List UInt8}

lemma survives_of_pos (hkey : 0 < deref key.text) :
    Survives key payload ↔ ZeroTailed payload ∧ CipherKept key.block payload := by
  have hne : key.text.bytes ≠ [] := fun h => hkey.ne' (deref_eq_zero.mpr h)
  rw [Survives, decryptRead_of_pos hkey, length_writeToSocket, writeToSocket_of_ne_nil hne]
  constructor
  · intro h
    have hzero : ZeroTailed payload := h ▸ zeroTailed_strncpy _ _
    rw [strncpy_length_iff.mpr hzero] at h
    exact ⟨hzero, (decrypt_encrypt_iff IV hzero).mp h⟩
  · rintro ⟨hzero, h⟩
    rw [strncpy_length_iff.mpr hzero]
    exact (decrypt_encrypt_iff IV hzero).mpr h

lemma survives_of_eq_nil (hkey : key.text.bytes = []) :
    Survives key payload ↔ ZeroTailed payload := by
  rw [Survives, decryptRead_of_nonpos (deref_eq_zero.mpr hkey).le, writeToSocket_of_eq_nil hkey,
    strncpy_length_iff]

lemma survives_of_nonpos (hne : key.text.bytes ≠ []) (hkey : deref key.text ≤ 0) :
    Survives key payload ↔ keyStream key.block IV (strncpy payload payload.length) =
      List.zipWith (· ^^^ ·) (strncpy payload payload.length) payload := by
  rw [Survives, decryptRead_of_nonpos hkey, writeToSocket_of_ne_nil hne]
  exact encrypt_eq_iff _ _ (length_strncpy _ _)

lemma survives_iff_kept : Survives key payload ↔ Kept key payload := by
  rw [Kept]
  split
  · next hkey => exact survives_of_pos hkey
  · next hkey =>
    split
    · next hnil => exact survives_of_eq_nil hnil
    · next hnil => exact survives_of_nonpos hnil (not_lt.mp hkey)

end

/-! ### Every block function at once -/

/-- The payloads that no block function spoils. -/
def Clean (text : CString) (payload : List UInt8) : Prop :=
  if 0 < deref text then
    (∀ b ∈ payload, b = 0) ∨ payload.length ≤ 1 ∨ ∃ b, payload = [b, b]
  else if text.bytes = [] then ZeroTailed payload
  else payload = []

/-- The block function with the mask `a` in the register `r₁` and `c` in all others. -/
def maskAt (r₁ : Block m) (a c : UInt8) (r : Block m) : Block m := fun _ => if r = r₁ then a else c

lemma mask_maskAt (r₁ : Block m) (a c : UInt8) (r : Block m) :
    mask (maskAt r₁ a c) r = if r = r₁ then a else c := rfl

@[simp] lemma shift_IV_zero : shift (IV : Block m) 0 = IV := by
  funext i
  refine Fin.lastCases ?_ (fun i => ?_) i
  · rw [shift_last]
    rfl
  · simp [shift, IV, Fin.tail]

lemma cipherKept_of_clean (h : (∀ b ∈ bytes, b = 0) ∨ bytes.length ≤ 1 ∨ ∃ b, bytes = [b, b]) :
    ZeroTailed bytes ∧ CipherKept f bytes := by
  obtain hzeros | hlen | ⟨b, rfl⟩ := h
  · refine ⟨List.pairwise_of_forall_mem_list fun _ _ b hb _ => hzeros b hb, ?_⟩
    cases bytes with
    | nil => simp [CipherKept, throughNul]
    | cons b bytes =>
      obtain rfl : b = 0 := hzeros b List.mem_cons_self
      simp [CipherKept, keyStream]
  · rcases bytes with - | ⟨b, - | ⟨c, bytes⟩⟩
    · simp [ZeroTailed, CipherKept, throughNul]
    · simp [ZeroTailed, CipherKept, throughNul, keyStream]
    · simp at hlen
  · refine ⟨by simp [ZeroTailed], ?_⟩
    by_cases hb : b = 0
    · simp [CipherKept, keyStream, hb]
    · simp only [CipherKept, throughNul_cons hb, keyStream]
      -- a byte that equals its mask leaves the register as it was
      have hmask : b = mask f IV → b = mask f (shift IV (b ^^^ mask f IV)) := fun h => by
        rw [← h, UInt8.xor_self, shift_IV_zero, ← h]
      simpa [throughNul] using hmask

/-- A mask that equals the first byte fixes the second one. -/
lemma eq_of_cipherKept {a : UInt8} (ha : a ≠ 0) (h : CipherKept (fun _ : Block m => fun _ => a)
    (a :: b :: bytes)) : b = a := by
  obtain ⟨rest, hrest⟩ := exists_throughNul_cons b bytes
  rw [CipherKept, throughNul_cons ha, hrest, keyStream, keyStream, List.zip_cons_cons,
    List.zip_cons_cons, List.pairwise_cons] at h
  exact h.1 _ List.mem_cons_self rfl

/-- A third byte is lost behind two equal ones when the mask equals the second of them only. -/
lemma not_cipherKept_three {a c d : UInt8} (ha : a ≠ 0) (hca : c ≠ a) (hcd : c ≠ d) :
    ¬ CipherKept (maskAt (shift (IV : Block m) (a ^^^ c)) a c) (a :: a :: d :: bytes) := by
  intro h
  have hcipher : a ^^^ c ≠ 0 := fun h => hca (UInt8.xor_eq_zero_iff.mp h).symm
  have hlast {r : Block m} (hr : r (Fin.last m) = 0) : r ≠ shift IV (a ^^^ c) := fun h =>
    hcipher (by rw [← shift_last (IV : Block m) (a ^^^ c), ← h, hr])
  obtain ⟨rest, hrest⟩ := exists_throughNul_cons d bytes
  have hfirst : mask (maskAt (shift (IV : Block m) (a ^^^ c)) a c) IV = c := by
    rw [mask_maskAt, if_neg (hlast rfl)]
  have hsecond : mask (maskAt (shift (IV : Block m) (a ^^^ c)) a c) (shift IV (a ^^^ c)) = a := by
    rw [mask_maskAt, if_pos rfl]
  have hthird : mask (maskAt (shift (IV : Block m) (a ^^^ c)) a c)
      (shift (shift IV (a ^^^ c)) 0) = c := by
    rw [mask_maskAt, if_neg (hlast (shift_last _ _))]
  rw [CipherKept, throughNul_cons ha, throughNul_cons ha, hrest, keyStream, hfirst, keyStream,
    hsecond, UInt8.xor_self, keyStream, hthird] at h
  rw [List.zip_cons_cons, List.zip_cons_cons, List.zip_cons_cons, List.pairwise_cons,
    List.pairwise_cons] at h
  exact hcd (h.2.1 _ List.mem_cons_self rfl).symm

lemma exists_ne_ne (a d : UInt8) : ∃ c : UInt8, c ≠ a ∧ c ≠ d := by
  by_cases h0 : 0 ≠ a ∧ 0 ≠ d
  · exact ⟨0, h0⟩
  · by_cases h1 : 1 ≠ a ∧ 1 ≠ d
    · exact ⟨1, h1⟩
    · refine ⟨2, ?_, ?_⟩
      · rintro rfl
        have hd : (0 : UInt8) = d ∧ (1 : UInt8) = d := ⟨by simpa using h0, by simpa using h1⟩
        exact absurd (hd.1.trans hd.2.symm) (by decide)
      · rintro rfl
        have ha : (0 : UInt8) = a ∧ (1 : UInt8) = a := ⟨by simpa using h0, by simpa using h1⟩
        exact absurd (ha.1.trans ha.2.symm) (by decide)

lemma clean_of_cipherKept (h : ∀ f : Block m → Block m, ZeroTailed bytes ∧ CipherKept f bytes) :
    (∀ b ∈ bytes, b = 0) ∨ bytes.length ≤ 1 ∨ ∃ b, bytes = [b, b] := by
  rcases bytes with - | ⟨a, - | ⟨b, bytes⟩⟩
  · simp
  · simp
  · by_cases ha : a = 0
    · exact .inl (List.forall_mem_cons.mpr ⟨ha, (zeroTailed_cons.mp (h id).1).1 ha⟩)
    · obtain rfl : b = a := eq_of_cipherKept ha (h _).2
      cases bytes with
      | nil => exact .inr (.inr ⟨b, rfl⟩)
      | cons d bytes =>
        obtain ⟨c, hcb, hcd⟩ := exists_ne_ne b d
        exact absurd (h _).2 (not_cipherKept_three ha hcb hcd)

/-- With a mask of one, a message does not cross as it is. -/
lemma eq_nil_of_keyStream (h : ∀ f : Block m → Block m,
    keyStream f IV (strncpy bytes bytes.length) =
      List.zipWith (· ^^^ ·) (strncpy bytes bytes.length) bytes) : bytes = [] := by
  cases bytes with
  | nil => rfl
  | cons b bytes =>
    have hfirst : ∃ rest, strncpy (b :: bytes) (bytes.length + 1) = b :: rest := by
      by_cases hb : b = 0
      · exact ⟨List.replicate bytes.length 0, by rw [strncpy, if_pos hb, hb, List.replicate_succ]⟩
      · exact ⟨_, by rw [strncpy, if_neg hb]⟩
    obtain ⟨rest, hrest⟩ := hfirst
    have h1 := h fun _ _ => 1
    rw [List.length_cons, hrest, keyStream, List.zipWith_cons_cons, UInt8.xor_self] at h1
    exact absurd (List.cons_eq_cons.mp h1).1 (by simp [mask])

/-! ### The result -/

/-- **When a payload survives its encryption.** Under a key that both sides see, exactly if
nothing but zeros follows the first zero of the payload and if, through that zero, the bytes
behind one that is equal to its byte of the key stream are equal to theirs. Whatever the block
function, exactly if the payload is zero throughout, has at most one byte, or is one byte
twice. -/
theorem payload_survives_iff (key : Key m) (payload : List UInt8) :
    (Survives key payload ↔ Kept key payload) ∧
    ((∀ f : Block m → Block m, Survives ⟨key.text, f⟩ payload) ↔ Clean key.text payload) := by
  refine ⟨survives_iff_kept, ?_⟩
  simp only [survives_iff_kept, Kept, Clean]
  split
  · exact ⟨clean_of_cipherKept, fun h f => cipherKept_of_clean h⟩
  · split
    · exact ⟨fun h => h id, fun h _ => h⟩
    · constructor
      · exact eq_nil_of_keyStream
      · rintro rfl f
        rfl

/-- The block function that gives the letter 'A' as its first byte. -/
def sampleKey : Key 7 := ⟨.ofBuffer [107], fun _ _ => 65⟩

/-- A zero cuts off the letter behind it, and under this key a letter 'A' the letter 'B'. -/
theorem payload_cut_off : ¬ Survives (noKey : Key 7) [0, 66] ∧ ¬ Survives sampleKey [0, 66] ∧
    ¬ Survives sampleKey [65, 66] := by
  unfold Survives
  decide

end LowLevelTasks.PayloadRoundTrip
