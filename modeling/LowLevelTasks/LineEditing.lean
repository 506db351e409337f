import Mathlib.Data.List.Induction
import Mathlib.Data.List.Infix
import LowLevelTasks.SensorWalks

/-!
What a sensor program makes of its input. The editor is the rule for a stream of bytes, one
byte after the other; it knows neither buffers nor chunks. The program hands exactly the
lines of the editor to `process_command`, which finds each of them followed by zeros only.
-/

namespace LowLevelTasks.LineEditing

open LowLevelTasks.Buffers LowLevelTasks.Outcomes LowLevelTasks.SensorProgram
open LowLevelTasks.SensorWalks

/-! ### The editor -/

/-- The line that is typed, the lines that are complete, and whether the end was asked for. -/
structure Editor where
  pending : List UInt8
  lines : List (List UInt8)
  ended : Bool
deriving DecidableEq

def Editor.start : Editor := ⟨[], [], false⟩

def Editor.step (e : Editor) (b : UInt8) : Editor :=
  if e.ended then e
  else if b = 127 then { e with pending := e.pending.dropLast }
  else if b = 10 then
    if e.pending = [] then e else { e with pending := [], lines := e.lines ++ [e.pending] }
  else if b = 3 then { e with ended := true }
  else if 32 ≤ b ∧ b ≤ 126 then { e with pending := e.pending ++ [b] }
  else e

def edit (w : List UInt8) : Editor := w.foldl Editor.step .start

/-- The lines fit into the buffers of the program, and so do the arguments of `PERIOD=`. -/
def Tame (w : List UInt8) : Prop :=
  (∀ u, u <+: w → (edit u).pending.length ≤ 127) ∧
  ∀ line ∈ (edit w).lines, ascii "PERIOD=" <+: line → line.length ≤ 16

lemma tame_iff (w : List UInt8) :
    ((∀ u ∈ w.inits, (edit u).pending.length ≤ 127) ∧
      ∀ line ∈ (edit w).lines, ascii "PERIOD=" <+: line → line.length ≤ 16) ↔ Tame w := by
  simp only [List.mem_inits, Tame]

instance (w : List UInt8) : Decidable (Tame w) := decidable_of_iff _ (tame_iff w)

/-- The lines of the editor, each with what `process_command` has to find in its buffer. -/
def commands (w : List UInt8) : List (List UInt8 × List UInt8) :=
  (edit w).lines.map fun line => (line, padded 128 line)

variable {e : Editor} {w u : List UInt8} {b : UInt8}

lemma step_delete (h : e.ended = false) :
    e.step 127 = { e with pending := e.pending.dropLast } := by
  simp [Editor.step, h]

lemma step_newline (h : e.ended = false) (hne : e.pending ≠ []) :
    e.step 10 = { e with pending := [], lines := e.lines ++ [e.pending] } := by
  simp [Editor.step, h, hne]

lemma step_newline_nil (h : e.pending = []) : e.step 10 = e := by
  simp [Editor.step, h]

lemma step_end (h : e.ended = false) : e.step 3 = { e with ended := true } := by
  simp [Editor.step, h]

lemma step_append (h : e.ended = false) (hb : 32 ≤ b ∧ b ≤ 126) :
    e.step b = { e with pending := e.pending ++ [b] } := by
  have hdelete : b ≠ 127 := fun heq => absurd (heq ▸ hb.2) (by decide)
  have hnewline : b ≠ 10 := fun heq => absurd (heq ▸ hb.1) (by decide)
  have hend : b ≠ 3 := fun heq => absurd (heq ▸ hb.1) (by decide)
  simp [Editor.step, h, hdelete, hnewline, hend, hb]

lemma step_ignore (hdelete : b ≠ 127) (hnewline : b ≠ 10) (hend : b ≠ 3)
    (hb : ¬ (32 ≤ b ∧ b ≤ 126)) : e.step b = e := by
  simp only [Editor.step, hdelete, hnewline, hend, hb, if_false, ite_self]

lemma edit_snoc (w : List UInt8) (b : UInt8) : edit (w ++ [b]) = (edit w).step b := by
  simp [edit]

lemma lines_step : e.lines <+: (e.step b).lines := by
  unfold Editor.step
  split_ifs <;> simp

/-- Complete lines stay. -/
lemma lines_append (u v : List UInt8) : (edit u).lines <+: (edit (u ++ v)).lines := by
  induction v using List.reverseRecOn with
  | nil => exact (List.append_nil u).symm ▸ List.prefix_rfl
  | append_singleton v b ih =>
    rw [← List.append_assoc, edit_snoc]
    exact ih.trans lines_step

lemma Tame.of_prefix (h : Tame w) (hu : u <+: w) : Tame u := by
  obtain ⟨v, rfl⟩ := hu
  exact ⟨fun u' hu' => h.1 u' (hu'.trans (List.prefix_append _ _)), fun line hline =>
    h.2 line ((lines_append u v).subset hline)⟩

/-- What is typed is printable. -/
lemma printable_of_mem_pending (hb : b ∈ (edit w).pending) : 32 ≤ b ∧ b ≤ 126 := by
  induction w using List.reverseRecOn with
  | nil => simp [edit, Editor.start] at hb
  | append_singleton w c ih =>
    rw [edit_snoc] at hb
    unfold Editor.step at hb
    split_ifs at hb with h₁ h₂ h₃ h₄ h₅ h₆
    · exact ih hb
    · exact ih (List.dropLast_subset _ hb)
    · exact ih hb
    · simp at hb
    · exact ih hb
    · rcases List.mem_append.mp hb with hb | hb
      · exact ih hb
      · exact List.mem_singleton.mp hb ▸ h₆
    · exact ih hb

lemma zero_notMem_pending : 0 ∉ (edit w).pending := fun h =>
  absurd (printable_of_mem_pending h).1 (by decide)

/-! ### The lines of a program -/

section

variable {F ω : Type}

def command : Event → Option (List UInt8 × List UInt8)
  | .command line procBuf => some (line, procBuf)
  | _ => none

/-- The lines handed to `process_command`, each with what stands in its buffer. -/
def handed (t : List Event) : List (List UInt8 × List UInt8) := t.filterMap command

/-- The program exits in a state with `p`. -/
def Exits (p : St F ω → Prop) : Halt F ω → Prop
  | .exit _ s => p s
  | .undefined _ => False

/-- What lies between two states does not touch the input. -/
structure Aside (s s' : St F ω) : Prop where
  lineBuf : s'.lineBuf = s.lineBuf
  procBuf : s'.procBuf = s.procBuf
  lineMarker : s'.lineMarker = s.lineMarker
  consumed : s'.consumed = s.consumed
  handed : handed s'.trace = handed s.trace

variable {P : Program ω} {fl : Floats F} {x : Input F} {s s' s'' : St F ω}

lemma Exits.mono {p q : St F ω → Prop} {halt : Halt F ω} (h : Exits p halt)
    (hpq : ∀ s, p s → q s) : Exits q halt := by
  cases halt with
  | exit status s => exact hpq s h
  | undefined s => exact h

lemma Aside.refl (s : St F ω) : Aside s s := ⟨rfl, rfl, rfl, rfl, rfl⟩

lemma Aside.trans (h : Aside s s') (h' : Aside s' s'') : Aside s s'' :=
  ⟨h'.lineBuf.trans h.lineBuf, h'.procBuf.trans h.procBuf, h'.lineMarker.trans h.lineMarker,
    h'.consumed.trans h.consumed, h'.handed.trans h.handed⟩

/-- What happens behind a state that is aside is aside. -/
lemma Aside.ends (h : Aside s s') {r : Run F ω (St F ω)}
    (hr : Ends (Aside s') (Exits (Aside s')) r) : Ends (Aside s) (Exits (Aside s)) r :=
  hr.mono (fun _ => h.trans) fun _ hhalt => hhalt.mono fun _ => h.trans

lemma aside_format (bytes : List UInt8) : Aside s (format P bytes s) := ⟨rfl, rfl, rfl, rfl, rfl⟩

/-- An event that is no command. -/
lemma aside_event {out : ω} {e : Event} (he : command e = none) :
    Aside s ({ s with out }.event e) := by
  refine ⟨rfl, rfl, rfl, rfl, ?_⟩
  simp [handed, St.event, List.filterMap_append, he]

lemma aside_reported (line : ReportLine) : Aside s (reported P x line s) :=
  (aside_event rfl).trans (aside_format _)

lemma sendReport_aside (line : ReportLine) :
    Ends (Continues (Aside s) (Exits (Aside s))) (Exits (Aside s)) (sendReport P x line s) :=
  ends_sendReport ⟨fun _ => aside_reported line, fun _ => aside_reported line⟩
    fun _ => aside_reported line

lemma report_aside : Ends (Aside s) (Exits (Aside s)) (report P fl x s) :=
  ends_report (Aside.refl s) (fun _ => sendReport_aside _) (fun _ _ => sendReport_aside _)
    fun _ => Aside.refl s

/-- The commands do not touch the input either, if the argument of `PERIOD=` fits. -/
lemma execute_aside (hperiod : kindOf s.procBuf = .period →
    ((s.procBuf.take s.lineMarker).drop 7).length < 10) :
    Ends (Aside s) (Exits (Aside s)) (execute fl s) := by
  unfold execute
  split
  · split
    · exact ⟨rfl, rfl, rfl, rfl, rfl⟩
    · exact Aside.refl s
  · next hkind => exact (if_pos (hperiod hkind)) ▸ ⟨rfl, rfl, rfl, rfl, rfl⟩
  · exact ⟨rfl, rfl, rfl, rfl, rfl⟩
  · exact ⟨rfl, rfl, rfl, rfl, rfl⟩
  · exact ⟨rfl, rfl, rfl, rfl, rfl⟩
  · exact Aside.refl s

lemma logCommand_aside : Aside s (logCommand P s) := by
  unfold logCommand
  split
  · exact Aside.refl s
  · exact ⟨rfl, rfl, rfl, rfl, rfl⟩

lemma processCommand_aside (hperiod : kindOf (copyLine s).procBuf = .period →
    (((copyLine s).procBuf.take s.lineMarker).drop 7).length < 10) :
    Ends (fun s' => ∃ s₁, Aside (copyLine s) s₁ ∧
        s' = { s₁ with procBuf := memset s₁.lineMarker s₁.procBuf })
      (Exits (Aside (copyLine s))) (processCommand P fl x s) :=
  ends_processCommand (execute_aside hperiod) (fun _ h₁ => h₁.trans logCommand_aside)
    (fun _ h₁ _ => h₁.ends report_aside) (fun _ h₁ _ => h₁) fun s₁ h₁ => ⟨s₁, h₁, rfl⟩

/-- The buffers agree with the editor. -/
structure Editing (s : St F ω) : Prop where
  lineMarker : s.lineMarker = (edit s.consumed).pending.length
  lineBuf : s.lineBuf = padded 128 (edit s.consumed).pending
  procBuf : s.procBuf = List.replicate 128 0
  handed : handed s.trace = commands s.consumed
  going : (edit s.consumed).ended = false

/-- A part of the input has been consumed, and its lines are handed over. -/
def Stopped (w : List UInt8) (s : St F ω) : Prop :=
  s.consumed <+: w ∧ handed s.trace = commands s.consumed

lemma Editing.aside (h : Editing s) (ha : Aside s s') : Editing s' := by
  refine ⟨?_, ?_, ?_, ?_, ?_⟩
  · rw [ha.lineMarker, ha.consumed, h.lineMarker]
  · rw [ha.lineBuf, ha.consumed, h.lineBuf]
  · rw [ha.procBuf, h.procBuf]
  · rw [ha.handed, ha.consumed, h.handed]
  · rw [ha.consumed, h.going]

lemma Editing.stopped (h : Editing s) (hw : s.consumed <+: w) : Stopped w s := ⟨hw, h.handed⟩

lemma editing_initVars {scale : Scale} {period : F} {out : ω} :
    Editing (initVars scale period out) := ⟨rfl, rfl, rfl, rfl, rfl⟩

/-- A line of the editor is handed to `process_command`. -/
lemma copyLine_eq {line : List UInt8} (hmarker : s.lineMarker = line.length)
    (hline : s.lineBuf = padded 128 line) (hproc : s.procBuf = List.replicate 128 0)
    (hzero : 0 ∉ line) : (copyLine s).procBuf = padded 128 line ∧
      handed (copyLine s).trace = handed s.trace ++ [(line, padded 128 line)] := by
  have hcopy : overwrite (strncpy s.lineMarker s.lineBuf) s.procBuf = padded 128 line := by
    rw [hmarker, hline, hproc, overwrite_padded hzero]
  refine ⟨hcopy, ?_⟩
  unfold copyLine
  rw [hcopy, hmarker, hline, take_padded]
  simp [handed, St.event, List.filterMap_append, command]

/-- The test for `PERIOD=` sees no more than the line. -/
lemma prefix_of_kindOf {line : List UInt8} (h : kindOf (padded 128 line) = .period) :
    ascii "PERIOD=" <+: line := by
  rw [← prefix_padded (n := 128) (by decide), ← List.isPrefixOf_iff_prefix]
  unfold kindOf at h
  split_ifs at h
  assumption

lemma commands_newline (hgoing : (edit u).ended = false) (hne : (edit u).pending ≠ []) :
    commands (u ++ [10]) =
      commands u ++ [((edit u).pending, padded 128 (edit u).pending)] := by
  unfold commands
  rw [edit_snoc, step_newline hgoing hne, List.map_append]
  rfl

/-- A byte that leaves the buffers as the editor says, and hands over no line. -/
lemma Editing.byte (h : Editing s) (hs : s'.consumed = s.consumed ++ [b])
    (hmarker : s'.lineMarker = ((edit s.consumed).step b).pending.length)
    (hline : s'.lineBuf = padded 128 ((edit s.consumed).step b).pending)
    (hproc : s'.procBuf = s.procBuf) (htrace : s'.trace = s.trace)
    (hlines : ((edit s.consumed).step b).lines = (edit s.consumed).lines)
    (hgoing : ((edit s.consumed).step b).ended = false) : Editing s' := by
  refine ⟨?_, ?_, ?_, ?_, ?_⟩
  · rw [hs, edit_snoc, hmarker]
  · rw [hs, edit_snoc, hline]
  · rw [hproc, h.procBuf]
  · rw [htrace, h.handed, hs]
    unfold commands
    rw [edit_snoc, hlines]
  · rw [hs, edit_snoc, hgoing]

/-- A byte that is ignored. -/
lemma Editing.ignored (h : Editing s) (hstep : (edit s.consumed).step b = edit s.consumed) :
    Editing { s with consumed := s.consumed ++ [b] } :=
  h.byte rfl (h.lineMarker.trans (by rw [hstep])) (h.lineBuf.trans (by rw [hstep])) rfl rfl
    (by rw [hstep]) (by rw [hstep, h.going])

variable (P fl x) in
/-- One line is handed over. If the program goes on, the buffer of `process_command` is
zero again. -/
lemma processCommand_hands {line : List UInt8} (hmarker : s.lineMarker = line.length)
    (hline : s.lineBuf = padded 128 line) (hproc : s.procBuf = List.replicate 128 0)
    (hzero : 0 ∉ line) (hfits : line.length ≤ 128)
    (hperiod : ascii "PERIOD=" <+: line → line.length ≤ 16) :
    Ends (fun s' => s'.procBuf = List.replicate 128 0 ∧ s'.lineBuf = s.lineBuf ∧
        s'.lineMarker = s.lineMarker ∧ s'.consumed = s.consumed ∧
        handed s'.trace = handed s.trace ++ [(line, padded 128 line)])
      (Exits fun s' => s'.consumed = s.consumed ∧
        handed s'.trace = handed s.trace ++ [(line, padded 128 line)])
      (processCommand P fl x s) := by
  obtain ⟨hcopy, hhanded⟩ := copyLine_eq hmarker hline hproc hzero
  refine (processCommand_aside ?_).mono ?_ fun _ h => h.mono fun s₁ ha => ?_
  · intro hkind
    rw [hcopy] at hkind ⊢
    have hlong := hperiod (prefix_of_kindOf hkind)
    rw [hmarker, take_padded, List.length_drop]
    omega
  · rintro _ ⟨s₁, ha, rfl⟩
    refine ⟨?_, ha.lineBuf, ha.lineMarker, ha.consumed, ha.handed.trans hhanded⟩
    change memset s₁.lineMarker s₁.procBuf = _
    rw [ha.lineMarker.trans hmarker, ha.procBuf.trans hcopy, memset_padded hfits]
  · exact ⟨ha.consumed, ha.handed.trans hhanded⟩

/-- A newline: what is pending is handed over, and both buffers are zero again. -/
lemma completeLine_edits (h : Editing s) (htame : Tame w) (hw : s.consumed ++ [10] <+: w) :
    Ends (fun s' => Editing s' ∧ s'.consumed = s.consumed ++ [10]) (Exits (Stopped w))
      (completeLine P fl x { s with consumed := s.consumed ++ [10] }) := by
  by_cases hne : (edit s.consumed).pending = []
  · have hmarker : s.lineMarker = 0 := by rw [h.lineMarker, hne, List.length_nil]
    exact Ends.ite (fun hpos => absurd hpos (by simp [hmarker])) fun _ =>
      ⟨h.ignored (step_newline_nil hne), rfl⟩
  · have htame' := htame.of_prefix hw
    have hedit : edit (s.consumed ++ [10]) = { edit s.consumed with
        pending := [], lines := (edit s.consumed).lines ++ [(edit s.consumed).pending] } := by
      rw [edit_snoc, step_newline h.going hne]
    have hfits : (edit s.consumed).pending.length ≤ 127 :=
      htame'.1 _ (List.prefix_append _ _)
    have hperiod := htame'.2 (edit s.consumed).pending (by simp [hedit])
    have hcommands := commands_newline h.going hne
    have hprocess := processCommand_hands P fl x
      (s := format P (ascii "\r") { s with consumed := s.consumed ++ [10] })
      h.lineMarker h.lineBuf h.procBuf zero_notMem_pending (by omega) hperiod
    refine ends_completeLine (fun hzero => absurd (h.lineMarker.symm.trans hzero)
      (List.length_pos_iff.mpr hne).ne') (fun _ => hprocess.mono (fun _ h₁ => h₁) fun _ h₁ => ?_) ?_
    · refine h₁.mono ?_
      rintro s₁ ⟨hconsumed, hhanded⟩
      refine ⟨hconsumed ▸ hw, ?_⟩
      rw [hhanded, hconsumed]
      exact h.handed ▸ hcommands.symm
    · rintro s₁ ⟨hproc, hline, hmarker, hconsumed, hhanded⟩
      refine ⟨⟨?_, ?_, hproc, ?_, ?_⟩, hconsumed⟩
      · change 0 = (edit s₁.consumed).pending.length
        rw [hconsumed]
        exact (congrArg (·.pending.length) hedit).symm
      · change memset s₁.lineMarker s₁.lineBuf = padded 128 (edit s₁.consumed).pending
        rw [hconsumed, hline, hmarker]
        refine Eq.trans ?_ (congrArg (padded 128 ·.pending) hedit).symm
        exact h.lineMarker ▸ h.lineBuf ▸ memset_padded (by omega)
      · change handed s₁.trace = commands s₁.consumed
        rw [hhanded, hconsumed]
        exact h.handed ▸ hcommands.symm
      · change (edit s₁.consumed).ended = false
        rw [hconsumed]
        exact (congrArg (·.ended) hedit).trans h.going

/-- **One byte.** -/
lemma storeByte_edits (h : Editing s) (htame : Tame w) (hw : s.consumed ++ [b] <+: w) :
    Ends (fun s' => Editing s' ∧ s'.consumed = s.consumed ++ [b]) (Exits (Stopped w))
      (storeByte P fl x s b) := by
  have hfits : (edit s.consumed).pending.length ≤ 127 :=
    htame.1 _ ((List.prefix_append _ _).trans hw)
  refine ends_storeByte (fun hdelete => ?_) (fun hnewline => ?_) (fun hend => ?_) (fun hb => ?_)
    fun hdelete hnewline hend hb => ?_
  · subst hdelete
    have hstep := step_delete h.going
    refine ⟨?_, by unfold deleteLast; split <;> rfl⟩
    by_cases hne : (edit s.consumed).pending = []
    · have hmarker : s.lineMarker = 0 := by rw [h.lineMarker, hne, List.length_nil]
      have hnone : deleteLast { s with consumed := s.consumed ++ [127] } =
          { s with consumed := s.consumed ++ [127] } := if_neg (by simp [hmarker])
      rw [hne, List.dropLast_nil, ← hne] at hstep
      rw [hnone]
      exact h.ignored hstep
    · have hpos : 0 < s.lineMarker := h.lineMarker ▸ List.length_pos_iff.mpr hne
      unfold deleteLast
      rw [if_pos hpos]
      refine h.byte rfl ?_ ?_ rfl rfl (by rw [hstep]) (by rw [hstep]; exact h.going)
      · rw [hstep, List.length_dropLast, ← h.lineMarker]
      · rw [hstep, ← padded_dropLast hne (by omega), ← h.lineMarker, ← h.lineBuf]
  · subst hnewline
    exact completeLine_edits h htame hw
  · subst hend
    refine ⟨hw, h.handed.trans ?_⟩
    change commands s.consumed = commands (s.consumed ++ [3])
    unfold commands
    rw [edit_snoc, step_end h.going]
  · have hstep := step_append h.going hb
    have hlt : s.lineMarker < 128 := by
      rw [h.lineMarker]
      omega
    unfold appendByte
    rw [if_pos hlt]
    refine ⟨h.byte rfl ?_ ?_ rfl rfl (by rw [hstep]) (by rw [hstep]; exact h.going), rfl⟩
    · rw [hstep, List.length_append, List.length_singleton, ← h.lineMarker]
    · rw [hstep, ← padded_snoc (by omega), ← h.lineMarker, ← h.lineBuf]
  · exact ⟨h.ignored (step_ignore hdelete hnewline hend hb), rfl⟩

/-- A line that is pending has not filled the buffer. -/
lemma Editing.startChunk (h : Editing s) (htame : Tame w) (hw : s.consumed <+: w) :
    startChunk s = s := by
  refine if_neg ?_
  rw [h.lineMarker]
  exact Nat.not_lt.mpr (htame.1 _ hw)

lemma checkButton_aside : Ends (Aside s) (Exits (Aside s)) (checkButton x s) := by
  have hpressed : Aside s { s with pressed := true, interrupt := true } :=
    ⟨rfl, rfl, rfl, rfl, rfl⟩
  exact ends_checkButton (Aside.refl s) (hpressed.trans (aside_event rfl))
    ⟨rfl, rfl, rfl, rfl, rfl⟩

/-- What does not touch the input leaves the editor where it is. -/
lemma Editing.ends (h : Editing s) (hw : s.consumed <+: w) {r : Run F ω (St F ω)}
    (hr : Ends (Aside s) (Exits (Aside s)) r) :
    Ends (fun s' => Editing s' ∧ s'.consumed = s.consumed) (Exits (Stopped w)) r :=
  hr.mono (fun _ ha => ⟨h.aside ha, ha.consumed⟩) fun _ hhalt => hhalt.mono fun _ ha =>
    (h.aside ha).stopped (ha.consumed ▸ hw)

variable (P fl) in
/-- Every part of the main loop edits the bytes that it reads. -/
lemma walk_edits (htame : Tame w) : Walk P fl (fun _ => True) w
    (fun u s => Editing s ∧ s.consumed = u) (Exits (Stopped w)) where
  receive _ _ _ h := ⟨h.1.aside ⟨rfl, rfl, rfl, rfl, rfl⟩, h.2⟩
  format _ _ _ h := ⟨h.1.aside (aside_format _), h.2⟩
  startChunk := by
    rintro _ s hw ⟨h, rfl⟩
    rw [h.startChunk htame hw]
    exact ⟨h, rfl⟩
  storeByte := by
    rintro _ b s x - hw ⟨h, rfl⟩
    exact storeByte_edits h htame hw
  report := by
    rintro _ s x - hw ⟨h, rfl⟩
    exact h.ends hw report_aside
  checkButton := by
    rintro _ s x hw ⟨h, rfl⟩
    exact h.ends hw checkButton_aside

/-- **A run**: the stream, however it is cut into chunks, is edited byte by byte. -/
theorem run_edits {scale : Scale} {period : F} {out : ω} {first : Input F} {xs : List (Input F)}
    (htame : Tame (xs.flatMap (·.chunk))) (hzero : ∀ x ∈ xs, 0 ∉ x.chunk) :
    Ends (fun s => Editing s ∧ s.consumed = xs.flatMap (·.chunk))
      (Exits (Stopped (xs.flatMap (·.chunk))))
      (run P fl (initVars scale period out) first xs) := by
  rw [← flatMap_bytesRead hzero] at htame ⊢
  exact (walk_edits P fl htame).run trivial (fun _ _ => trivial) (List.prefix_refl _)
    ⟨editing_initVars, rfl⟩

end

end LowLevelTasks.LineEditing
