import LowLevelTasks.LineEditing

/-!
The argument of `PERIOD=`.

The loop that copies it goes up to the end of the line, and the array it copies to has ten
bytes, the last of which is to stay zero.
-/

namespace LowLevelTasks.PeriodBuffer

open LowLevelTasks.Buffers LowLevelTasks.SensorProgram

variable {F ω : Type}

/-- A line is complete, and the buffer of `process_command` has been cleared behind the one
before it. -/
structure Completes (s : St F ω) (line : List UInt8) : Prop where
  lineBuf : s.lineBuf.take s.lineMarker = line
  lineMarker : s.lineMarker = line.length
  procBuf : s.procBuf = List.replicate 128 0

/-- The bytes that the loop copies, each with its place in the array `period`. -/
def periodWrites (s : St F ω) : List (ℕ × UInt8) :=
  (List.range' 7 (s.lineMarker - 7)).map fun i => (i - 7, s.procBuf.getD i 0)

/-- The array after the loop. -/
def periodArray (s : St F ω) : List UInt8 :=
  (periodWrites s).foldl (fun period w => period.set w.1 w.2) (List.replicate 10 0)

/-- The loop stays within the array, a zero is left in it, and the string in front of the zero
is the argument. -/
structure PeriodRead (s : St F ω) (arg : List UInt8) : Prop where
  inside : ∀ w ∈ periodWrites s, w.1 < 10
  terminated : 0 ∈ periodArray s
  text : (periodArray s).takeWhile (· ≠ 0) = arg

variable {s : St F ω} {line arg : List UInt8} {n : ℕ}

/-! ### The line in the buffer -/

lemma strncpy_of_take {src : List UInt8} (h : src.take line.length = line) (hzero : 0 ∉ line) :
    strncpy line.length src = line := by
  rw [strncpy_of_noNul (by rw [h]; exact fun b hb => ne_of_mem_of_not_mem hb hzero), h]
  simp

/-- `process_command` finds the line, and zeros behind it. -/
lemma procBuf_copyLine (h : Completes s line) (hzero : 0 ∉ line) :
    (copyLine s).procBuf = padded 128 line := by
  have hcopy := strncpy_of_take (h.lineMarker ▸ h.lineBuf) hzero
  change overwrite (strncpy s.lineMarker s.lineBuf) s.procBuf = padded 128 line
  rw [h.lineMarker, hcopy, h.procBuf, overwrite, List.drop_replicate, padded]

lemma lineMarker_copyLine (s : St F ω) : (copyLine s).lineMarker = s.lineMarker := rfl

/-! ### The loop -/

lemma periodWrites_eq (hproc : s.procBuf = padded 128 (ascii "PERIOD=" ++ arg))
    (hmarker : s.lineMarker = 7 + arg.length) :
    periodWrites s = arg.zipIdx.map Prod.swap := by
  rw [periodWrites, hmarker, Nat.add_sub_cancel_left, hproc]
  refine List.ext_getElem (by simp) fun i hi _ => ?_
  have hi : i < arg.length := by simpa using hi
  have hword : (ascii "PERIOD=").length = 7 := rfl
  have hbyte : (padded 128 (ascii "PERIOD=" ++ arg))[7 + i]? = some arg[i] := by
    rw [padded, List.append_assoc, List.getElem?_append_right (by omega), hword,
      Nat.add_sub_cancel_left, List.getElem?_append_left hi, List.getElem?_eq_getElem hi]
  simp [List.getD_eq_getElem?_getD, hbyte]

/-- An argument that fits stands at the start of the array. -/
lemma foldl_set_eq_padded (h : arg.length ≤ n) :
    (arg.zipIdx.map Prod.swap).foldl (fun period w => period.set w.1 w.2) (List.replicate n 0) =
      padded n arg := by
  induction arg using List.reverseRecOn with
  | nil => rfl
  | append_singleton arg b ih =>
    rw [List.length_append, List.length_singleton] at h
    rw [List.zipIdx_append, List.map_append, List.foldl_append, ih (by omega)]
    simpa using padded_snoc (by omega)

lemma periodRead_of_le (hwrites : periodWrites s = arg.zipIdx.map Prod.swap)
    (hzero : 0 ∉ arg) (h : arg.length ≤ 9) : PeriodRead s arg := by
  have harray : periodArray s = padded 10 arg := by
    rw [periodArray, hwrites, foldl_set_eq_padded (by omega)]
  refine ⟨fun w hw => ?_, ?_, ?_⟩
  · rw [hwrites, List.mem_map] at hw
    obtain ⟨⟨b, i⟩, hb, rfl⟩ := hw
    have := (List.mem_zipIdx hb).2.1
    simp only [Prod.swap_prod_mk]
    omega
  · rw [harray, padded_of_lt (by omega)]
    simp
  · rw [harray, padded_of_lt (by omega), List.takeWhile_append_of_pos fun b hb => by
      simpa using ne_of_mem_of_not_mem hb hzero]
    simp

/-- An argument of ten bytes takes the place of the zero, and a longer one is written behind the
array. -/
lemma not_periodRead_of_lt (hwrites : periodWrites s = arg.zipIdx.map Prod.swap)
    (hzero : 0 ∉ arg) (h : 9 < arg.length) : ¬ PeriodRead s arg := by
  intro hread
  rcases Nat.lt_or_eq_of_le (Nat.succ_le_of_lt h) with hlong | hten
  · have hmem : ((10 : ℕ), arg[10]) ∈ periodWrites s := by
      rw [hwrites, List.mem_map]
      exact ⟨(arg[10], 10), List.mk_mem_zipIdx_iff_getElem?.mpr (by simp), rfl⟩
    exact absurd (hread.inside _ hmem) (Nat.lt_irrefl 10)
  · have harray : periodArray s = arg := by
      rw [periodArray, hwrites, foldl_set_eq_padded hten.ge, padded, ← hten]
      simp
    exact hzero (harray ▸ hread.terminated)

lemma kindOf_period (hproc : s.procBuf = padded 128 (ascii "PERIOD=" ++ arg)) :
    kindOf s.procBuf = .period := by
  have hprefix : ascii "PERIOD=" <+: s.procBuf := by
    rw [hproc, padded, List.append_assoc]
    exact List.prefix_append _ _
  obtain ⟨rest, hrest⟩ := hprefix
  rw [← hrest]
  simp [kindOf, ascii]

lemma zero_notMem_period (hzero : 0 ∉ arg) : 0 ∉ ascii "PERIOD=" ++ arg :=
  List.mem_append.not.mpr (not_or.mpr ⟨by decide, hzero⟩)

/-- What the loop finds. -/
lemma periodWrites_copyLine (h : Completes s (ascii "PERIOD=" ++ arg)) (hzero : 0 ∉ arg) :
    periodWrites (copyLine s) = arg.zipIdx.map Prod.swap := by
  have hproc := procBuf_copyLine h (zero_notMem_period hzero)
  exact periodWrites_eq hproc (h.lineMarker.trans (List.length_append ..))

/-- What the command does with it. -/
lemma execute_period (fl : Floats F) (h : Completes s (ascii "PERIOD=" ++ arg)) (hzero : 0 ∉ arg) :
    execute fl (copyLine s) =
      if arg.length ≤ 9 then .ok { copyLine s with period := fl.atof arg }
      else .error (.undefined (copyLine s)) := by
  have hproc := procBuf_copyLine h (zero_notMem_period hzero)
  have htext : ((copyLine s).procBuf.take (copyLine s).lineMarker).drop 7 = arg := by
    have hword : (ascii "PERIOD=").length = 7 := rfl
    rw [hproc, lineMarker_copyLine, h.lineMarker, take_padded, ← hword, List.drop_left]
  have hatof : arg.takeWhile (· ≠ 0) = arg :=
    List.takeWhile_eq_self_iff.mpr fun b hb => by simpa using ne_of_mem_of_not_mem hb hzero
  rw [execute, kindOf_period hproc]
  simp only [htext, hatof, Nat.lt_succ_iff]

/-! ### The result -/

/-- **When the argument of `PERIOD=` is read.** Exactly if it has at most nine characters; then
it is the text that `atof` gets, and otherwise what the program does is not defined. -/
theorem periodRead_iff (fl : Floats F) (s : St F ω) (arg : List UInt8)
    (h : Completes s (ascii "PERIOD=" ++ arg)) (hprint : ∀ b ∈ arg, 32 ≤ b ∧ b ≤ 126) :
    (PeriodRead (copyLine s) arg ↔ arg.length ≤ 9) ∧
    execute fl (copyLine s) =
      if arg.length ≤ 9 then .ok { copyLine s with period := fl.atof arg }
      else .error (.undefined (copyLine s)) := by
  have hzero : 0 ∉ arg := fun hmem => absurd (hprint 0 hmem).1 (by decide)
  have hwrites := periodWrites_copyLine h hzero
  refine ⟨⟨fun hread => ?_, periodRead_of_le hwrites hzero⟩, execute_period fl h hzero⟩
  by_contra hlong
  exact not_periodRead_of_lt hwrites hzero (Nat.lt_of_not_le hlong) hread

/-- The state in which a line is complete, at the start of a program. -/
def typedLine (line : List UInt8) : St ℕ Unit :=
  { initVars .fahrenheit 0 () with lineBuf := padded 128 line, lineMarker := line.length }

lemma completes_typedLine (line : List UInt8) : Completes (typedLine line) line :=
  ⟨take_padded, rfl, rfl⟩

/-- The number of characters in the argument. -/
def lengths : Floats ℕ := ⟨List.length, fun a b => b ≤ a, 75, fun _ _ => []⟩

theorem periodRead_iff_sample :
    (PeriodRead (copyLine (typedLine (ascii "PERIOD=" ++ ascii "0.5"))) (ascii "0.5") ↔
      (ascii "0.5").length ≤ 9) ∧
    execute lengths (copyLine (typedLine (ascii "PERIOD=" ++ ascii "0.5"))) =
      .ok { copyLine (typedLine (ascii "PERIOD=" ++ ascii "0.5")) with period := 3 } :=
  periodRead_iff lengths _ (ascii "0.5") (completes_typedLine _) (by decide +kernel)

/-- Ten characters leave no zero in the array. -/
theorem ten_characters_unterminated :
    Completes (typedLine (ascii "PERIOD=1.00000000")) (ascii "PERIOD=1.00000000") ∧
    ¬ PeriodRead (copyLine (typedLine (ascii "PERIOD=1.00000000"))) (ascii "1.00000000") :=
  ⟨completes_typedLine _, not_periodRead_of_lt
    (periodWrites_copyLine (completes_typedLine _) (by decide)) (by decide) (by decide)⟩

end LowLevelTasks.PeriodBuffer
