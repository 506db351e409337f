import LowLevelTasks.Encryption
import Mathlib.Algebra.Ring.Nat
import Mathlib.Data.Fintype.Pi

/-!
Encrypted messages over a byte stream.

The socket keeps the order of the bytes and nothing else: one read of the receiver may return
several messages, or a part of one. Sender and receiver both start from the initial register,
the sender with every message and the receiver with every read.
-/

namespace LowLevelTasks.MessageStream

open LowLevelTasks.Cfb LowLevelTasks.Strings LowLevelTasks.Encryption

/-- A call of `write_to_socket` in `poll_inputs`: with the byte `input` and the count 1, or with
the literal newline and the count 2. -/
inductive Message
  | char (input : UInt8)
  | newline
  deriving DecidableEq

def Message.buf : Message → List UInt8
  | .char input => [input]
  | .newline => [10]

def Message.count : Message → ℕ
  | .char _ => 1
  | .newline => 2

/-- The bytes that are to arrive. -/
def Message.plaintext (msg : Message) : List UInt8 := strncpy msg.buf msg.count

def plaintexts (msgs : List Message) : List UInt8 := msgs.flatMap Message.plaintext

variable {m : ℕ}

section Session

variable (key : Key m)

/-- The bytes on the socket. -/
def stream (msgs : List Message) : List UInt8 :=
  msgs.flatMap fun msg => writeToSocket key msg.buf msg.count

/-- The buffers of the receiver, when its reads return as many bytes as `ns` says. -/
def received (msgs : List Message) (ns : List ℕ) : List (List UInt8) :=
  (ns.splitLengths (stream key msgs)).map (decryptRead key)

def RoundTrip (msgs : List Message) (ns : List ℕ) : Prop :=
  (received key msgs ns).flatten = plaintexts msgs

end Session

/-! ### The bytes of the messages -/

/-- A byte on the socket: the first of a message, or the zero behind a newline. -/
inductive Sent
  | first (b : UInt8)
  | nul
  deriving DecidableEq

def Message.sent : Message → List Sent
  | .char b => [.first b]
  | .newline => [.first 10, .nul]

def sent (msgs : List Message) : List Sent := msgs.flatMap Message.sent

def Sent.plain : Sent → UInt8
  | .first b => b
  | .nul => 0

variable (f : Block m → Block m)

/-- What the sender combines the byte with. -/
def Sent.mask : Sent → UInt8
  | .first _ => Cfb.mask f IV
  | .nul => Cfb.mask f (shift IV (10 ^^^ Cfb.mask f IV))

def Sent.cipher (t : Sent) : UInt8 := t.plain ^^^ t.mask f

lemma plaintexts_eq (msgs : List Message) : plaintexts msgs = (sent msgs).map Sent.plain := by
  induction msgs with
  | nil => rfl
  | cons msg msgs ih =>
    rw [plaintexts, sent, List.flatMap_cons, List.flatMap_cons, List.map_append]
    refine congr_arg₂ _ ?_ ih
    cases msg with
    | char b => by_cases hb : b = 0 <;> simp [Message.plaintext, Message.buf, Message.count,
        Message.sent, Sent.plain, strncpy, hb]
    | newline => rfl

section Stream

variable {key : Key m}

lemma stream_eq (hkey : key.text.bytes ≠ []) (msgs : List Message) :
    stream key msgs = (sent msgs).map (Sent.cipher key.block) := by
  induction msgs with
  | nil => rfl
  | cons msg msgs ih =>
    rw [stream, sent, List.flatMap_cons, List.flatMap_cons, List.map_append]
    refine congr_arg₂ _ ?_ ih
    rw [writeToSocket_of_ne_nil hkey]
    cases msg with
    | char b => by_cases hb : b = 0 <;> simp [Message.buf, Message.count, Message.sent,
        Sent.cipher, Sent.plain, Sent.mask, strncpy, encrypt, hb]
    | newline => simp [Message.buf, Message.count, Message.sent, Sent.cipher, Sent.plain,
        Sent.mask, strncpy, encrypt]

lemma stream_eq_plaintexts (hkey : key.text.bytes = []) (msgs : List Message) :
    stream key msgs = plaintexts msgs := by
  simp only [stream, plaintexts, writeToSocket_of_eq_nil hkey]
  rfl

lemma length_stream (msgs : List Message) : (stream key msgs).length = (sent msgs).length := by
  by_cases hkey : key.text.bytes = []
  · rw [stream_eq_plaintexts hkey, plaintexts_eq, List.length_map]
  · rw [stream_eq hkey, List.length_map]

/-- A receiver that does not decrypt gets the bytes on the socket, however they are cut. -/
lemma roundTrip_of_nonpos (hkey : deref key.text ≤ 0) {msgs : List Message} {ns : List ℕ}
    (hns : ns.sum = (sent msgs).length) :
    RoundTrip key msgs ns ↔ stream key msgs = plaintexts msgs := by
  have hsum : (stream key msgs).length ≤ ns.sum := by rw [length_stream, hns]
  have hid : decryptRead key = id := funext fun buf => decryptRead_of_nonpos hkey buf
  rw [RoundTrip, received, hid, List.map_id, List.flatten_splitLengths _ _ hsum]

end Stream

/-- A byte goes over the socket as it is when its mask is zero. -/
lemma Sent.cipher_eq_plain (t : Sent) : t.cipher f = t.plain ↔ t.mask f = 0 := by
  have h := @UInt8.xor_right_inj (t.mask f) 0 t.plain
  rwa [UInt8.xor_zero] at h

/-! ### The reads, one by one -/

lemma map_splitLengths {α β : Type*} (g : α → β) (ns : List ℕ) (xs : List α) :
    ns.splitLengths (xs.map g) = (ns.splitLengths xs).map (List.map g) := by
  induction ns generalizing xs with
  | nil => rfl
  | cons n ns ih => simp [List.splitLengths_cons, ← ih]

/-- Two ways to fill the same pieces agree as a whole when they agree on each piece. -/
lemma flatMap_eq_flatMap {α β : Type*} {g h : α → List β} {xs : List α}
    (hlen : ∀ x, (g x).length = (h x).length) :
    xs.flatMap g = xs.flatMap h ↔ ∀ x ∈ xs, g x = h x := by
  induction xs with
  | nil => simp
  | cons x xs ih =>
    rw [List.flatMap_cons, List.flatMap_cons, List.forall_mem_cons, ← ih]
    constructor
    · exact fun h => List.append_inj h (hlen x)
    · rintro ⟨h₁, h₂⟩
      rw [h₁, h₂]

/-- The round trip is one of every read. -/
lemma roundTrip_iff_forall {key : Key m} (hkey : key.text.bytes ≠ []) (msgs : List Message)
    {ns : List ℕ} (hns : ns.sum = (sent msgs).length) :
    RoundTrip key msgs ns ↔ ∀ seg ∈ ns.splitLengths (sent msgs),
      decryptRead key (seg.map (Sent.cipher key.block)) = seg.map Sent.plain := by
  have hflat : (ns.splitLengths (sent msgs)).flatten = sent msgs :=
    List.flatten_splitLengths _ _ hns.ge
  have hplain : plaintexts msgs = (ns.splitLengths (sent msgs)).flatMap (List.map Sent.plain) := by
    rw [plaintexts_eq, List.flatMap_def, ← List.map_flatten, hflat]
  rw [RoundTrip, received, hplain, stream_eq hkey, map_splitLengths, List.map_map,
    ← List.flatMap_def, flatMap_eq_flatMap]
  · rfl
  · intro seg
    simp [length_decryptRead]

/-- When the receiver recovers the bytes of one read, from the register `r`: byte after byte
its mask has to be the one of the sender, up to the first plain zero, behind which only zeros
may come. Once a cipher byte was zero (`cut`), `strncpy` has replaced the rest of the read by
zeros, and the masks themselves have to be the plain bytes. -/
def Agrees : Bool → Block m → List Sent → Prop
  | _, _, [] => True
  | false, r, t :: seg =>
    t.mask f = Cfb.mask f r ∧
      if t.plain = 0 then ∀ u ∈ seg, u.plain = 0
      else Agrees (t.cipher f = 0) (shift r (t.cipher f)) seg
  | true, r, t :: seg =>
    t.plain = Cfb.mask f r ∧
      if t.plain = 0 then ∀ u ∈ seg, u.plain = 0
      else Agrees true (shift r 0) seg

lemma strncpy_zero_cons (src : List UInt8) (n : ℕ) :
    strncpy (0 :: src) (n + 1) = List.replicate (n + 1) 0 := by simp [strncpy]

lemma map_plain_eq_replicate {seg : List Sent} :
    seg.map Sent.plain = List.replicate seg.length 0 ↔ ∀ t ∈ seg, t.plain = 0 := by
  rw [List.eq_replicate_iff]
  simp

/-- The first byte of a read: it is recovered when the receiver finds the plain byte, and then
the others are, unless it is zero and they have to be zeros too. -/
lemma strncpy_cons_eq {b : UInt8} {bs : List UInt8} {t : Sent} {seg : List Sent} :
    strncpy (b :: bs) (seg.length + 1) = (t :: seg).map Sent.plain ↔
      b = t.plain ∧ if t.plain = 0 then ∀ u ∈ seg, u.plain = 0
        else strncpy bs seg.length = seg.map Sent.plain := by
  by_cases hb : b = 0
  · subst hb
    rw [strncpy_zero_cons, List.replicate_succ, List.map_cons, List.cons_eq_cons,
      ← map_plain_eq_replicate]
    refine and_congr_right fun h0 => ?_
    rw [if_pos h0.symm]
    exact eq_comm
  · rw [strncpy, if_neg hb, List.map_cons, List.cons_eq_cons]
    refine and_congr_right fun h => ?_
    rw [if_neg (h ▸ hb)]

lemma agrees_cut_iff (r : Block m) (seg : List Sent) :
    strncpy (decrypt f r (List.replicate seg.length 0)) seg.length = seg.map Sent.plain ↔
      Agrees f true r seg := by
  induction seg generalizing r with
  | nil => simp [Agrees, strncpy]
  | cons t seg ih =>
    rw [List.length_cons, List.replicate_succ, decrypt, strncpy_cons_eq, Agrees, UInt8.zero_xor,
      ih]
    exact and_congr_left fun _ => eq_comm

lemma agrees_iff (r : Block m) (seg : List Sent) :
    strncpy (decrypt f r (strncpy (seg.map (Sent.cipher f)) seg.length)) seg.length =
      seg.map Sent.plain ↔ Agrees f false r seg := by
  induction seg generalizing r with
  | nil => simp [Agrees, strncpy]
  | cons t seg ih =>
    have hmask : t.cipher f ^^^ Cfb.mask f r = t.plain ↔ t.mask f = Cfb.mask f r := by
      have h := @UInt8.xor_right_inj (t.mask f ^^^ Cfb.mask f r) 0 t.plain
      rw [UInt8.xor_zero, ← UInt8.xor_assoc, UInt8.xor_eq_zero_iff] at h
      exact h
    rw [List.length_cons, List.map_cons, Agrees]
    by_cases hc : t.cipher f = 0
    · rw [hc] at hmask
      rw [hc, strncpy_zero_cons, List.replicate_succ, decrypt, strncpy_cons_eq, hmask,
        agrees_cut_iff]
      simp
    · rw [strncpy, if_neg hc, decrypt, strncpy_cons_eq, hmask, ih]
      simp [hc]

/-- When the messages arrive under a key. A receiver that finds the first `char` of the key
negative decrypts nothing, although the sender encrypts. -/
def Recovered (key : Key m) (msgs : List Message) (ns : List ℕ) : Prop :=
  if 0 < deref key.text then
    ∀ seg ∈ ns.splitLengths (sent msgs), Agrees key.block false IV seg
  else key.text.bytes = [] ∨ ∀ t ∈ sent msgs, t.mask key.block = 0

lemma roundTrip_iff_recovered (key : Key m) {msgs : List Message} {ns : List ℕ}
    (hns : ns.sum = (sent msgs).length) : RoundTrip key msgs ns ↔ Recovered key msgs ns := by
  rw [Recovered]
  split
  · next hkey =>
    have hne : key.text.bytes ≠ [] := fun h => hkey.ne' (deref_eq_zero.mpr h)
    rw [roundTrip_iff_forall hne msgs hns]
    refine forall₂_congr fun seg _ => ?_
    rw [decryptRead_of_pos hkey, List.length_map]
    exact agrees_iff key.block IV seg
  · next hkey =>
    rw [roundTrip_of_nonpos (not_lt.mp hkey) hns]
    by_cases hnil : key.text.bytes = []
    · exact iff_of_true (stream_eq_plaintexts hnil msgs) (.inl hnil)
    · rw [stream_eq hnil, plaintexts_eq, List.map_inj_left]
      simp only [Sent.cipher_eq_plain, hnil, false_or]

/-! ### Every block function at once -/

/-- The cuts that no block function spoils: without a key all of them; with one, every message
is one byte, and a read that returns more than one byte returns only messages with the byte
zero; with a key the receiver overlooks, only those of nothing. -/
def Clean (text : CString) (msgs : List Message) (ns : List ℕ) : Prop :=
  if 0 < deref text then
    Message.newline ∉ msgs ∧
      ∀ seg ∈ ns.splitLengths (sent msgs), seg.length ≤ 1 ∨ ∀ t ∈ seg, t.plain = 0
  else text.bytes = [] ∨ msgs = []

lemma nul_mem_sent {msgs : List Message} : Sent.nul ∈ sent msgs ↔ Message.newline ∈ msgs := by
  simp only [sent, List.mem_flatMap]
  constructor
  · rintro ⟨msg, hmem, hnul⟩
    cases msg with
    | char b => simp [Message.sent] at hnul
    | newline => exact hmem
  · exact fun h => ⟨_, h, by simp [Message.sent]⟩

/-- A zero of a newline message comes directly behind its newline. -/
lemma newline_before_nul {msgs : List Message} {xs ys : List Sent}
    (h : sent msgs = xs ++ .nul :: ys) : ∃ xs', xs = xs' ++ [.first 10] := by
  induction msgs generalizing xs with
  | nil => simp [sent] at h
  | cons msg msgs ih =>
    cases msg with
    | char b =>
      rw [sent, List.flatMap_cons, ← sent] at h
      cases xs with
      | nil => simp [Message.sent] at h
      | cons x xs =>
        obtain ⟨-, h⟩ : Sent.first b = x ∧ sent msgs = xs ++ .nul :: ys := by
          simpa [Message.sent] using h
        obtain ⟨xs', rfl⟩ := ih h
        exact ⟨x :: xs', rfl⟩
    | newline =>
      rw [sent, List.flatMap_cons, ← sent] at h
      rcases xs with - | ⟨x, - | ⟨y, xs⟩⟩
      · simp [Message.sent] at h
      · obtain ⟨rfl, -⟩ : Sent.first 10 = x ∧ sent msgs = ys := by
          simpa [Message.sent] using h
        exact ⟨[], rfl⟩
      · obtain ⟨-, -, h⟩ : Sent.first 10 = x ∧ Sent.nul = y ∧ sent msgs = xs ++ .nul :: ys := by
          simpa [Message.sent] using h
        obtain ⟨xs', rfl⟩ := ih h
        exact ⟨x :: y :: xs', rfl⟩

/-- The block function with the mask `a` in the initial register and `b` in all others. -/
def twoMasks (a b : UInt8) (r : Block m) : Block m := fun _ => if r = IV then a else b

lemma mask_twoMasks (a b : UInt8) (r : Block m) :
    Cfb.mask (twoMasks a b) r = if r = IV then a else b := rfl

lemma shift_ne_IV (r : Block m) {c : UInt8} (hc : c ≠ 0) : shift r c ≠ IV := fun h => by
  have := congrFun h (Fin.last m)
  rw [shift_last] at this
  exact hc this

/-- With this key the cipher byte of a newline is zero, and no mask is: the zero behind a
newline is lost in every read that holds both. -/
lemma not_agrees_newline (cut : Bool) (r : Block m) (xs ys : List Sent) :
    ¬ Agrees (twoMasks 10 1) cut r (xs ++ .first 10 :: .nul :: ys) := by
  induction xs generalizing cut r with
  | nil =>
    have hmask : ∀ r : Block m, (0 : UInt8) ≠ Cfb.mask (twoMasks 10 1) r := fun r => by
      rw [mask_twoMasks]; split <;> decide
    have hcipher : Sent.cipher (twoMasks (m := m) 10 1) (.first 10) = 0 := by
      simp [Sent.cipher, Sent.plain, Sent.mask, mask_twoMasks]
    cases cut with
    | false =>
      rw [List.nil_append, Agrees, hcipher]
      rintro ⟨-, h⟩
      exact hmask _ h.1
    | true =>
      rw [List.nil_append, Agrees]
      rintro ⟨-, h⟩
      exact hmask _ h.1
  | cons x xs ih =>
    cases cut with
    | false =>
      rw [List.cons_append, Agrees]
      rintro ⟨-, h⟩
      split at h
      · exact absurd (h (.first 10) (by simp)) (by decide)
      · exact ih _ _ h
    | true =>
      rw [List.cons_append, Agrees]
      rintro ⟨-, h⟩
      split at h
      · exact absurd (h (.first 10) (by simp)) (by decide)
      · exact ih _ _ h

/-- With this key the mask changes with the first byte of a message or of a read. -/
lemma not_agrees_nul_first (ys : List Sent) :
    ¬ Agrees (twoMasks (m := m) 0 1) false IV (.nul :: ys) := by
  rw [Agrees]
  rintro ⟨h, -⟩
  have : shift (IV : Block m) 10 ≠ IV := shift_ne_IV _ (by decide)
  simp [Sent.mask, mask_twoMasks, this] at h

lemma not_agrees_two {a b : UInt8} {ys : List Sent} (ha : a ≠ 0) :
    ¬ Agrees (twoMasks (m := m) 0 1) false IV (.first a :: .first b :: ys) := by
  rw [Agrees]
  rintro ⟨-, h⟩
  have hcipher : Sent.cipher (twoMasks (m := m) 0 1) (.first a) = a := by
    simp [Sent.cipher, Sent.plain, Sent.mask, mask_twoMasks]
  rw [if_neg (by exact ha), hcipher, decide_eq_false ha, Agrees] at h
  have := h.1
  simp [Sent.mask, mask_twoMasks, shift_ne_IV _ ha] at this

lemma agrees_of_clean {seg : List Sent} (hnul : Sent.nul ∉ seg)
    (h : seg.length ≤ 1 ∨ ∀ t ∈ seg, t.plain = 0) : Agrees f false IV seg := by
  cases seg with
  | nil => trivial
  | cons t seg =>
    cases t with
    | nul => simp at hnul
    | first b =>
      refine ⟨rfl, ?_⟩
      rcases h with h | h
      · obtain rfl : seg = [] := by simpa using h
        split <;> simp [Agrees]
      · rw [if_pos (h _ (by simp))]
        exact fun u hu => h u (by simp [hu])

lemma clean_of_forall {msgs : List Message} {ns : List ℕ}
    (hflat : (ns.splitLengths (sent msgs)).flatten = sent msgs)
    (h : ∀ f : Block m → Block m, ∀ seg ∈ ns.splitLengths (sent msgs), Agrees f false IV seg) :
    Message.newline ∉ msgs ∧
      ∀ seg ∈ ns.splitLengths (sent msgs), seg.length ≤ 1 ∨ ∀ t ∈ seg, t.plain = 0 := by
  have hnul : Sent.nul ∉ sent msgs := by
    intro hmem
    rw [← hflat, List.mem_flatten] at hmem
    obtain ⟨seg, hseg, hmem⟩ := hmem
    obtain ⟨u, v, rfl⟩ := List.append_of_mem hmem
    obtain ⟨segs, segs', hsegs⟩ := List.append_of_mem hseg
    -- the newline is in the same read, or the first key spoils the zero
    have hsent : sent msgs = (segs.flatten ++ u) ++ .nul :: (v ++ segs'.flatten) := by
      rw [← hflat, hsegs]; simp
    obtain ⟨xs', hxs'⟩ := newline_before_nul hsent
    rcases List.eq_nil_or_concat u with rfl | ⟨u', x, rfl⟩
    · exact not_agrees_nul_first v (h _ _ hseg)
    · rw [List.concat_eq_append, ← List.append_assoc] at hxs'
      obtain rfl : x = .first 10 := by simpa using (List.append_inj' hxs' rfl).2
      have := h (twoMasks 10 1) _ hseg
      rw [List.concat_eq_append, List.append_assoc] at this
      exact not_agrees_newline _ _ u' v this
  refine ⟨fun hmem => hnul (nul_mem_sent.mpr hmem), fun seg hseg => ?_⟩
  have hseg' : Sent.nul ∉ seg := fun hmem => hnul (by
    rw [← hflat]
    exact List.mem_flatten.mpr ⟨seg, hseg, hmem⟩)
  rcases seg with - | ⟨t, - | ⟨u, seg⟩⟩
  · simp
  · simp
  · right
    cases t with
    | nul => simp at hseg'
    | first a =>
      cases u with
      | nul => simp at hseg'
      | first b =>
        by_cases ha : a = 0
        · -- behind a zero only zeros arrive
          have := h (twoMasks 0 1) _ hseg
          rw [Agrees, if_pos (by exact ha)] at this
          exact List.forall_mem_cons.mpr ⟨ha, this.2⟩
        · exact absurd (h (twoMasks 0 1) _ hseg) (not_agrees_two ha)

/-- With this block function every message is changed by its encryption. -/
lemma eq_nil_of_masks {msgs : List Message}
    (h : ∀ t ∈ sent msgs, t.mask (twoMasks (m := m) 1 1) = 0) : msgs = [] := by
  cases msgs with
  | nil => rfl
  | cons msg msgs =>
    have hmem : ∃ b, Sent.first b ∈ sent (msg :: msgs) := by
      cases msg with
      | char b => exact ⟨b, by simp [sent, Message.sent]⟩
      | newline => exact ⟨10, by simp [sent, Message.sent]⟩
    obtain ⟨b, hb⟩ := hmem
    have := h _ hb
    simp [Sent.mask, mask_twoMasks] at this

/-! ### The result -/

/-- **When the stream survives the reads.** Under a key that both sides see, the receiver
recovers the messages exactly if in every read the masks of the two sides agree, byte after
byte, up to the first plain zero. Whatever the block function, it does exactly if every read
that returns more than one byte returns nothing but messages with the byte zero, and the
message of two bytes is never sent. Under a key that starts with a negative `char` the receiver
sees the cipher text. -/
theorem roundTrip_iff (key : Key m) (msgs : List Message) (ns : List ℕ)
    (hns : ns.sum = (sent msgs).length) :
    (RoundTrip key msgs ns ↔ Recovered key msgs ns) ∧
    ((∀ f : Block m → Block m, RoundTrip ⟨key.text, f⟩ msgs ns) ↔ Clean key.text msgs ns) := by
  have hflat : (ns.splitLengths (sent msgs)).flatten = sent msgs :=
    List.flatten_splitLengths _ _ hns.ge
  refine ⟨roundTrip_iff_recovered key hns, ?_⟩
  simp only [roundTrip_iff_recovered _ hns, Recovered, Clean]
  split
  · refine ⟨clean_of_forall hflat, fun h f seg hseg => agrees_of_clean f (fun hmem => ?_)
      (h.2 seg hseg)⟩
    have hmem' : Sent.nul ∈ sent msgs := by
      rw [← hflat]
      exact List.mem_flatten.mpr ⟨seg, hseg, hmem⟩
    exact h.1 (nul_mem_sent.mp hmem')
  · constructor
    · exact fun h => (h (twoMasks 1 1)).imp_right eq_nil_of_masks
    · rintro (h | rfl) f
      · exact .inl h
      · exact .inr (by simp [sent])

/-- A block function that repeats the last byte of the register. -/
def sampleKey : Key 7 := ⟨.ofBuffer [107], fun r _ => r (Fin.last 7)⟩

/-- Two messages, read one at a time. -/
theorem roundTrip_iff_sample : RoundTrip sampleKey [.char 97, .char 98] [1, 1] :=
  (roundTrip_iff sampleKey [.char 97, .char 98] [1, 1] rfl).2.mpr
    (by rw [Clean, if_pos (by decide)]; exact ⟨by decide, by decide⟩) _

/-- The same two messages, returned by one read: the receiver is one byte ahead of the sender's
register when it comes to the second. -/
theorem coalesced_messages_garbled : ¬ RoundTrip sampleKey [.char 97, .char 98] [2] := by
  unfold RoundTrip
  decide

end LowLevelTasks.MessageStream
