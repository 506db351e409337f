import LowLevelTasks.Lab4c

/-!
The bounds of the line buffer.

A line that has filled the buffer is thrown away before the next chunk, and only then. A chunk
finds up to 127 characters and may bring 128 more, so the buffer overflows exactly where so many
are pending before its first newline.
-/

namespace LowLevelTasks.LineBuffer

open LowLevelTasks.Buffers LowLevelTasks.LineEditing LowLevelTasks.Outcomes
open LowLevelTasks.SensorProgram LowLevelTasks.SensorWalks

variable {F ω : Type}

/-! ### Runs -/

/-- A chunk that is delivered, and what the main loop does before it arrives. That does not
touch the line. -/
structure Delivery (F ω : Type) where
  idle : St F ω → St F ω
  lineBuf_idle : ∀ s, (idle s).lineBuf = s.lineBuf
  lineMarker_idle : ∀ s, (idle s).lineMarker = s.lineMarker
  input : Input F

section

variable (P : Program ω) (fl : Floats F)

def deliver (s : St F ω) (d : Delivery F ω) : Run F ω (St F ω) :=
  storeBuffer P fl d.input (d.idle s) d.input.chunk

/-- The places of the line buffer that the next byte writes. -/
def writtenIndices (s : St F ω) (b : UInt8) : List ℕ :=
  if b = 127 then if 0 < s.lineMarker then [s.lineMarker - 1] else []
  else if b = 10 then List.range s.lineMarker
  else if b = 3 then []
  else if 32 ≤ b ∧ b ≤ 126 then [s.lineMarker]
  else []

/-- In every state between two chunks or between two bytes the marker is at most the size of the
buffer, and the next byte is written inside of it. -/
structure Bounded (s : St F ω) (ds : List (Delivery F ω)) : Prop where
  between : ∀ ds₁ ds₂ s₁, ds = ds₁ ++ ds₂ → ds₁.foldlM (deliver P fl) s = .ok s₁ →
    s₁.lineMarker ≤ 128
  within : ∀ ds₁ d ds₂ s₁ u v s₂, ds = ds₁ ++ d :: ds₂ →
    ds₁.foldlM (deliver P fl) s = .ok s₁ → d.input.chunk = u ++ v →
    u.foldlM (storeByte P fl d.input) (startChunk (d.idle s₁)) = .ok s₂ →
    s₂.lineMarker ≤ 128 ∧ ∀ b ∈ v.head?, ∀ i ∈ writtenIndices s₂ b, i < 128

end

/-! ### The condition -/

/-- The number of pending characters after the byte. -/
def markerStep (n : ℕ) (b : UInt8) : ℕ :=
  if b = 127 then n - 1
  else if b = 10 then 0
  else if 32 ≤ b ∧ b ≤ 126 then n + 1
  else n

def markerAfter (n : ℕ) (u : List UInt8) : ℕ := u.foldl markerStep n

/-- The characters that a chunk finds, of the `n` that are pending. -/
def kept (n : ℕ) : ℕ := if 127 < n then 0 else n

/-- Before the first newline or ^C of the chunk, fewer than 128 characters are pending wherever
one more comes. -/
def Fits (n : ℕ) (chunk : List UInt8) : Prop :=
  ∀ u b v, chunk = u ++ b :: v → 32 ≤ b ∧ b ≤ 126 → 10 ∉ u → 3 ∉ u →
    markerAfter (kept n) u < 128

/-- Every chunk that is delivered fits behind what is pending. -/
def AllFit (P : Program ω) (fl : Floats F) (s : St F ω) (ds : List (Delivery F ω)) : Prop :=
  ∀ ds₁ d ds₂ s₁, ds = ds₁ ++ d :: ds₂ → ds₁.foldlM (deliver P fl) s = .ok s₁ →
    Fits s₁.lineMarker d.input.chunk

variable {P : Program ω} {fl : Floats F} {x : Input F} {s s' : St F ω} {b : UInt8}
  {u v : List UInt8} {n : ℕ}

@[simp] lemma markerAfter_nil : markerAfter n [] = n := rfl

@[simp] lemma markerAfter_cons : markerAfter n (b :: u) = markerAfter (markerStep n b) u := rfl

lemma markerAfter_snoc : markerAfter n (u ++ [b]) = markerStep (markerAfter n u) b := by
  simp [markerAfter]

lemma markerStep_le : markerStep n b ≤ n + 1 := by
  unfold markerStep
  split_ifs <;> omega

lemma markerAfter_le : markerAfter n u ≤ n + u.length := by
  induction u generalizing n with
  | nil => simp
  | cons b u ih =>
    calc markerAfter (markerStep n b) u ≤ markerStep n b + u.length := ih
      _ ≤ n + 1 + u.length := Nat.add_le_add_right markerStep_le _
      _ = n + (b :: u).length := by rw [List.length_cons]; omega

/-- A newline in a part of a chunk makes room for the rest of it. -/
lemma markerAfter_lt_of_newline (h : 10 ∈ u) : markerAfter n u < u.length := by
  obtain ⟨u₁, u₂, rfl⟩ := List.append_of_mem h
  have hreset : markerAfter n (u₁ ++ 10 :: u₂) = markerAfter 0 u₂ := by
    simp [markerAfter, markerStep]
  rw [hreset, List.length_append, List.length_cons]
  have := markerAfter_le (n := 0) (u := u₂)
  omega

/-! ### One byte -/

lemma lineMarker_startChunk : (startChunk s).lineMarker = kept s.lineMarker := by
  unfold startChunk kept
  split <;> rfl

lemma kept_le : kept n ≤ 127 := by
  unfold kept
  split <;> omega

lemma lineMarker_completeLine (h : completeLine P fl x s = .ok s') : s'.lineMarker = 0 := by
  unfold completeLine at h
  split at h
  · cases hprocess : processCommand P fl x (format P (ascii "\r") s) with
    | ok s₁ =>
      rw [hprocess] at h
      obtain rfl := Except.ok.inj h
      rfl
    | error halt =>
      rw [hprocess] at h
      cases h
  · next hzero =>
    obtain rfl := Except.ok.inj h
    omega

lemma lineMarker_deleteLast : (deleteLast s).lineMarker = s.lineMarker - 1 := by
  unfold deleteLast
  split
  · rfl
  · next hzero =>
    rw [Nat.eq_zero_of_not_pos hzero]

lemma lineMarker_appendByte (h : appendByte b s = .ok s') :
    s.lineMarker < 128 ∧ s'.lineMarker = s.lineMarker + 1 := by
  unfold appendByte at h
  split at h
  · next hlt =>
    obtain rfl := Except.ok.inj h
    exact ⟨hlt, rfl⟩
  · cases h

/-- **What a byte does to the marker.** -/
lemma lineMarker_storeByte (h : storeByte P fl x s b = .ok s') :
    s'.lineMarker = markerStep s.lineMarker b ∧ b ≠ 3 := by
  unfold storeByte at h
  unfold markerStep
  split_ifs at h with hdel hnl hend hvis
  · obtain rfl := Except.ok.inj h
    rw [if_pos hdel, lineMarker_deleteLast]
    exact ⟨rfl, by rw [hdel]; decide⟩
  · rw [if_neg hdel, if_pos hnl, lineMarker_completeLine h]
    exact ⟨rfl, by rw [hnl]; decide⟩
  · rw [if_neg hdel, if_neg hnl, if_pos hvis]
    exact ⟨(lineMarker_appendByte h).2, hend⟩
  · rw [if_neg hdel, if_neg hnl, if_neg hvis]
    obtain rfl := Except.ok.inj h
    exact ⟨rfl, hend⟩

/-- A byte that neither completes a line nor ends the program is stored, if there is place. -/
lemma exists_storeByte (hnl : b ≠ 10) (hend : b ≠ 3)
    (hfits : ∀ i ∈ writtenIndices s b, i < 128) : ∃ s', storeByte P fl x s b = .ok s' := by
  unfold storeByte
  by_cases hdel : b = 127
  · exact ⟨_, if_pos hdel⟩
  · rw [if_neg hdel, if_neg hnl, if_neg hend]
    by_cases hvis : 32 ≤ b ∧ b ≤ 126
    · have hplace : s.lineMarker < 128 :=
        hfits s.lineMarker (by simp [writtenIndices, hdel, hnl, hend, hvis])
      rw [if_pos hvis, appendByte]
      exact ⟨_, if_pos hplace⟩
    · exact ⟨_, if_neg hvis⟩

/-- A command does not touch the line. -/
lemma processCommand_line : Ends (fun s' => s'.lineBuf = s.lineBuf ∧ s'.lineMarker = s.lineMarker)
    (fun _ => True) (processCommand P fl x s) := by
  have hexecute : Ends (Aside (copyLine s)) (fun _ => True) (execute fl (copyLine s)) := by
    unfold execute
    split
    · split
      · exact ⟨rfl, rfl, rfl, rfl, rfl⟩
      · trivial
    · exact Ends.ite (fun _ => ⟨rfl, rfl, rfl, rfl, rfl⟩) fun _ => trivial
    · exact ⟨rfl, rfl, rfl, rfl, rfl⟩
    · exact ⟨rfl, rfl, rfl, rfl, rfl⟩
    · exact ⟨rfl, rfl, rfl, rfl, rfl⟩
    · exact Aside.refl _
  have hreport : ∀ s₁, Aside (copyLine s) s₁ →
      Ends (Aside (copyLine s)) (fun _ => True) (report P fl x s₁) := fun s₁ h₁ =>
    (h₁.ends report_aside).mono (fun _ h => h) fun _ _ => trivial
  exact ends_processCommand hexecute (fun _ h₁ => h₁.trans logCommand_aside)
    (fun s₁ h₁ _ => hreport s₁ h₁) (fun _ h₁ _ => h₁) fun _ h₁ => ⟨h₁.lineBuf, h₁.lineMarker⟩

lemma lineBuf_completeLine (h : completeLine P fl x s = .ok s') :
    s'.lineBuf = memset s.lineMarker s.lineBuf := by
  unfold completeLine at h
  split at h
  · cases hprocess : processCommand P fl x (format P (ascii "\r") s) with
    | ok s₁ =>
      obtain ⟨hbuf, hmarker⟩ := (ends_iff.mp processCommand_line).1 s₁ hprocess
      rw [hprocess] at h
      obtain rfl := Except.ok.inj h
      exact congrArg₂ memset hmarker hbuf
    | error halt =>
      rw [hprocess] at h
      cases h
  · next hzero =>
    obtain rfl := Except.ok.inj h
    rw [Nat.eq_zero_of_not_pos hzero]
    simp [memset, overwrite]

/-- **A byte writes no other place of the buffer.** -/
theorem lineBuf_storeByte (h : storeByte P fl x s b = .ok s') {i : ℕ}
    (hi : i ∉ writtenIndices s b) : s'.lineBuf[i]? = s.lineBuf[i]? := by
  unfold writtenIndices at hi
  unfold storeByte at h
  by_cases hdel : b = 127
  · rw [if_pos hdel] at h hi
    obtain rfl := Except.ok.inj h
    unfold deleteLast
    split
    · next hpos =>
      rw [if_pos hpos, List.mem_singleton] at hi
      exact List.getElem?_set_ne (Ne.symm hi)
    · rfl
  by_cases hnl : b = 10
  · rw [if_neg hdel, if_pos hnl] at h hi
    rw [lineBuf_completeLine h, memset, overwrite, List.length_replicate]
    rw [List.mem_range, Nat.not_lt] at hi
    rw [List.getElem?_append_right (by simpa using hi), List.getElem?_drop, List.length_replicate,
      Nat.add_sub_cancel' hi]
  by_cases hend : b = 3
  · rw [if_neg hdel, if_neg hnl, if_pos hend] at h
    cases h
  by_cases hvis : 32 ≤ b ∧ b ≤ 126
  · rw [if_neg hdel, if_neg hnl, if_neg hend, if_pos hvis] at h hi
    rw [List.mem_singleton] at hi
    unfold appendByte at h
    split at h
    · obtain rfl := Except.ok.inj h
      exact List.getElem?_set_ne (Ne.symm hi)
    · cases h
  · rw [if_neg hdel, if_neg hnl, if_neg hend, if_neg hvis] at h
    obtain rfl := Except.ok.inj h
    rfl

/-- The indices of a byte are inside of the buffer if the marker is, and there is place for a
character. -/
lemma writtenIndices_lt (hmarker : s.lineMarker ≤ 128)
    (hvis : 32 ≤ b ∧ b ≤ 126 → s.lineMarker < 128) : ∀ i ∈ writtenIndices s b, i < 128 := by
  intro i hi
  unfold writtenIndices at hi
  split_ifs at hi with hdel hpos hnl hend hb
  · obtain rfl := List.mem_singleton.mp hi
    omega
  · cases hi
  · exact (List.mem_range.mp hi).trans_le hmarker
  · cases hi
  · obtain rfl := List.mem_singleton.mp hi
    exact hvis hb
  · cases hi

/-! ### One chunk -/

/-- The marker after a part of a chunk. -/
lemma lineMarker_foldlM (h : u.foldlM (storeByte P fl x) s = .ok s') :
    s'.lineMarker = markerAfter s.lineMarker u ∧ 3 ∉ u := by
  induction u generalizing s with
  | nil =>
    obtain rfl := Except.ok.inj h
    exact ⟨rfl, by simp⟩
  | cons b u ih =>
    rw [List.foldlM_cons] at h
    cases hstep : storeByte P fl x s b with
    | error halt =>
      rw [hstep] at h
      cases h
    | ok s₁ =>
      rw [hstep] at h
      obtain ⟨hmarker, hend⟩ := lineMarker_storeByte hstep
      obtain ⟨hrest, hmem⟩ := ih h
      exact ⟨by rw [hrest, hmarker, markerAfter_cons], by simp [hend.symm, hmem]⟩

/-- Up to its first newline a chunk that fits fills the buffer at most. -/
lemma markerAfter_le_of_fits {chunk : List UInt8} (hfits : Fits n chunk) (hchunk : chunk = u ++ v)
    (hnl : 10 ∉ u) (hend : 3 ∉ u) : markerAfter (kept n) u ≤ 128 := by
  induction u using List.reverseRecOn generalizing v with
  | nil => exact kept_le.trans (by decide)
  | append_singleton u b ih =>
    rw [List.append_assoc, List.singleton_append] at hchunk
    rw [List.mem_append, not_or] at hnl hend
    have hbefore := ih hchunk hnl.1 hend.1
    rw [markerAfter_snoc]
    by_cases hvis : 32 ≤ b ∧ b ≤ 126
    · exact markerStep_le.trans (hfits u b v hchunk hvis hnl.1 hend.1)
    · unfold markerStep
      rw [if_neg hvis]
      split_ifs <;> omega

/-- In a chunk that fits every state is bounded. -/
lemma within_of_fits {chunk : List UInt8} (hle : chunk.length ≤ 128)
    (hfits : Fits n chunk) (hchunk : chunk = u ++ v) (hs : s.lineMarker = kept n)
    (h : u.foldlM (storeByte P fl x) s = .ok s') :
    s'.lineMarker ≤ 128 ∧ ∀ b ∈ v.head?, ∀ i ∈ writtenIndices s' b, i < 128 := by
  obtain ⟨hmarker, hend⟩ := lineMarker_foldlM h
  rw [hs] at hmarker
  by_cases hnl : 10 ∈ u
  · -- behind a newline there is place for what is left of the chunk
    have hlen : u.length ≤ 128 := (hchunk ▸ hle).trans' (by simp)
    have hlt := markerAfter_lt_of_newline (n := kept n) hnl
    exact ⟨by omega, fun b hb => writtenIndices_lt (by omega) fun _ => by omega⟩
  · have hfull : s'.lineMarker ≤ 128 := hmarker ▸ markerAfter_le_of_fits hfits hchunk hnl hend
    refine ⟨hfull, fun b hb => writtenIndices_lt hfull fun hvis => ?_⟩
    obtain ⟨v', rfl⟩ : ∃ v', v = b :: v' := ⟨v.tail, List.eq_cons_of_mem_head? hb⟩
    exact hmarker ▸ hfits u b v' hchunk hvis hnl hend

/-- If all writes are inside of the buffer, the part of the chunk before its first newline is
stored. -/
lemma exists_foldlM {chunk : List UInt8} (hbound : ∀ u v s', chunk = u ++ v →
      u.foldlM (storeByte P fl x) s = .ok s' → ∀ b ∈ v.head?, ∀ i ∈ writtenIndices s' b, i < 128)
    (hchunk : chunk = u ++ v) (hnl : 10 ∉ u) (hend : 3 ∉ u) :
    ∃ s', u.foldlM (storeByte P fl x) s = .ok s' := by
  induction u using List.reverseRecOn generalizing v with
  | nil => exact ⟨s, rfl⟩
  | append_singleton u b ih =>
    rw [List.append_assoc, List.singleton_append] at hchunk
    rw [List.mem_append, List.mem_singleton, not_or] at hnl hend
    obtain ⟨s₁, hs₁⟩ := ih hchunk hnl.1 hend.1
    have hplace := hbound u (b :: v) s₁ hchunk hs₁ b rfl
    obtain ⟨s₂, hs₂⟩ := @exists_storeByte F ω P fl x _ _ (Ne.symm hnl.2)
      (Ne.symm hend.2) hplace
    refine ⟨s₂, ?_⟩
    have hlast : [b].foldlM (storeByte P fl x) s₁ = .ok s₂ := by
      rw [List.foldlM_cons, hs₂]
      rfl
    rw [List.foldlM_append, hs₁]
    exact hlast

/-- If all writes are inside of the buffer, the chunk fits. -/
lemma fits_of_within {chunk : List UInt8} (hs : s.lineMarker = kept n)
    (hbound : ∀ u v s', chunk = u ++ v → u.foldlM (storeByte P fl x) s = .ok s' →
      ∀ b ∈ v.head?, ∀ i ∈ writtenIndices s' b, i < 128) : Fits n chunk := by
  intro u b v hchunk hvis hnl hend
  obtain ⟨s', hs'⟩ := exists_foldlM hbound hchunk hnl hend
  obtain ⟨hmarker, -⟩ := lineMarker_foldlM hs'
  have hwrites : s'.lineMarker ∈ writtenIndices s' b := by
    have hdel : b ≠ 127 := fun h => absurd (h ▸ hvis.2) (by decide)
    have hline : b ≠ 10 := fun h => absurd (h ▸ hvis.1) (by decide)
    have hleave : b ≠ 3 := fun h => absurd (h ▸ hvis.1) (by decide)
    simp [writtenIndices, hdel, hline, hleave, hvis]
  rw [← hs, ← hmarker]
  exact hbound u (b :: v) s' hchunk hs' b rfl _ hwrites

/-! ### The result -/

lemma lineMarker_start (d : Delivery F ω) :
    (startChunk (d.idle s)).lineMarker = kept s.lineMarker := by
  rw [lineMarker_startChunk, d.lineMarker_idle]

/-- **When the line buffer does not overflow.** In a run over chunks the marker stays within the
buffer, and so does everything that is written, exactly if every chunk fits: before its first
newline or ^C fewer than 128 characters are pending wherever one more comes, those included
that earlier chunks have left. -/
theorem bounded_iff_allFit (P : Program ω) (fl : Floats F) (scale : Scale) (period : F) (out : ω)
    (ds : List (Delivery F ω)) :
    Bounded P fl (initVars scale period out) ds ↔
      AllFit P fl (initVars scale period out) ds := by
  constructor
  · intro h ds₁ d ds₂ s₁ hds hs₁
    refine @fits_of_within F ω P fl d.input _ _ _ (lineMarker_start d) ?_
    intro u v s₂ hchunk hs₂
    exact (h.within ds₁ d ds₂ s₁ u v s₂ hds hs₁ hchunk hs₂).2
  · intro h
    refine ⟨fun ds₁ ds₂ s₁ hds hs₁ => ?_, fun ds₁ d ds₂ s₁ u v s₂ hds hs₁ hchunk hs₂ =>
      within_of_fits d.input.chunk_le (h ds₁ d ds₂ s₁ hds hs₁) hchunk (lineMarker_start d) hs₂⟩
    -- the last chunk decides
    rcases List.eq_nil_or_concat ds₁ with rfl | ⟨ds₀, d, rfl⟩
    · obtain rfl := Except.ok.inj hs₁
      exact Nat.zero_le _
    · rw [List.concat_eq_append] at hds hs₁
      rw [List.foldlM_append] at hs₁
      cases hs₀ : ds₀.foldlM (deliver P fl) (initVars scale period out) with
      | error halt =>
        rw [hs₀] at hs₁
        cases hs₁
      | ok s₀ =>
        rw [hs₀] at hs₁
        have hlast : deliver P fl s₀ d = .ok s₁ := by
          rw [← hs₁]
          exact (bind_pure (deliver P fl s₀ d)).symm
        have hfits := h ds₀ d ds₂ s₀ (by simp [hds]) hs₀
        exact (within_of_fits (v := []) d.input.chunk_le hfits (List.append_nil _).symm
          (lineMarker_start d) hlast).1

/-- A chunk that arrives without anything before it. -/
def typed (chunk : List UInt8) (h : chunk.length ≤ 128) : Delivery ℕ Lab4c.Out :=
  ⟨id, fun _ => rfl, fun _ => rfl, Lab4c.typed chunk h⟩

def overflowing : List (Delivery ℕ Lab4c.Out) :=
  [typed [97] (by decide), typed (List.replicate 128 97) (by rw [List.length_replicate])]

/-- Behind one letter there is no place for a chunk of letters. -/
theorem second_chunk_overflows : ¬ Bounded (Lab4c.program true) Lab4c.hundredths
    (initVars .fahrenheit 100 ⟨[], [], [], []⟩) overflowing := by
  intro h
  obtain ⟨s₁, hs₁, hmarker⟩ : ∃ s₁, [typed [97] (by decide)].foldlM
      (deliver (Lab4c.program true) Lab4c.hundredths)
      (initVars .fahrenheit 100 ⟨[], [], [], []⟩) = .ok s₁ ∧ s₁.lineMarker = 1 := ⟨_, rfl, rfl⟩
  have hfits : Fits s₁.lineMarker (List.replicate 128 97) :=
    @fits_of_within _ _ (Lab4c.program true) Lab4c.hundredths _ _ _ _ (lineMarker_start _)
      fun u v s₂ hchunk hs₂ => (h.within [_] _ [] s₁ u v s₂ rfl hs₁ hchunk hs₂).2
  rw [hmarker] at hfits
  have hfull := hfits (List.replicate 127 97) 97 [] rfl (by decide) (by simp) (by simp)
  exact absurd hfull (by decide +kernel)

end LowLevelTasks.LineBuffer
