import LowLevelTasks.Loops
import LowLevelTasks.SensorWalks

/-!
What a sensor program reports. The flags say what has happened so far: whether something has
interrupted the program, and whether the last of the commands that switch reporting off and
on has switched it on. So no temperature is reported behind an interruption, and the one
`SHUTDOWN` line is the last event of a run that ends with status 0.
-/

namespace LowLevelTasks.SensorReports

open LowLevelTasks.Buffers LowLevelTasks.Outcomes LowLevelTasks.SensorProgram
open LowLevelTasks.SensorWalks
open LowLevelTasks.Loops (ok_bind)

/-! ### Events -/

/-- The commands that switch reporting off and on. -/
def switch : Event → Option Bool
  | .command _ procBuf =>
    match kindOf procBuf with
    | .stop => some false
    | .start => some true
    | _ => none
  | _ => none

def Interrupts : Event → Prop
  | .command _ procBuf => kindOf procBuf = .off
  | .button => True
  | .report _ => False

def Interrupted (t : List Event) : Prop := ∃ e ∈ t, Interrupts e

/-- No `STOP` or `START` has been processed yet, or the last one is a `START`. -/
def Generating (t : List Event) : Prop :=
  (t.filterMap switch).getLast? = none ∨ (t.filterMap switch).getLast? = some true

def reportLine : Event → Option ReportLine
  | .report line => some line
  | _ => none

def reports (t : List Event) : List ReportLine := t.filterMap reportLine

/-- The text of all lines reported. -/
def reportText (t : List Event) : List UInt8 := (reports t).flatMap ReportLine.bytes

def HasShutdown (t : List Event) : Prop := ∃ time, .report (.shutdown time) ∈ t

/-- A temperature is reported only while nothing has interrupted the program and reporting is
switched on; `SHUTDOWN` is reported behind an interruption, as the last event. -/
structure Lawful (t : List Event) : Prop where
  temperature : ∀ t₁ time text t₂, t = t₁ ++ .report (.temperature time text) :: t₂ →
    ¬ Interrupted t₁ ∧ Generating t₁
  shutdown : ∀ t₁ time t₂, t = t₁ ++ .report (.shutdown time) :: t₂ → Interrupted t₁ ∧ t₂ = []

variable {t : List Event} {e : Event}

lemma interrupted_snoc : Interrupted (t ++ [e]) ↔ Interrupted t ∨ Interrupts e := by
  simp [Interrupted, or_and_right, exists_or]

lemma generating_snoc : Generating (t ++ [e]) ↔
    match switch e with
    | some b => b = true
    | none => Generating t := by
  unfold Generating
  cases h : switch e <;> simp [List.filterMap_append, h]

lemma reportText_snoc : reportText (t ++ [e]) =
    reportText t ++ ((reportLine e).map ReportLine.bytes).getD [] := by
  unfold reportText reports
  cases h : reportLine e <;> simp [List.filterMap_append, h]

lemma lawful_nil : Lawful [] := ⟨by simp, by simp⟩

/-- One more event, where `SHUTDOWN` has not been reported. -/
lemma Lawful.snoc (h : Lawful t) (hnot : ¬ HasShutdown t)
    (htemperature : ∀ time text, e = .report (.temperature time text) →
      ¬ Interrupted t ∧ Generating t)
    (hshutdown : ∀ time, e = .report (.shutdown time) → Interrupted t) : Lawful (t ++ [e]) := by
  have hsplit : ∀ t₁ a t₂, t ++ [e] = t₁ ++ a :: t₂ →
      (t₁ = t ∧ a = e ∧ t₂ = []) ∨ ∃ t₃, t = t₁ ++ a :: t₃ := by
    intro t₁ a t₂ heq
    rcases List.eq_nil_or_concat t₂ with rfl | ⟨t₃, b, rfl⟩
    · obtain ⟨rfl, hsingle⟩ := List.append_inj' heq rfl
      exact Or.inl ⟨rfl, (List.cons.inj hsingle).1.symm, rfl⟩
    · rw [List.concat_eq_append, ← List.cons_append, ← List.append_assoc] at heq
      exact Or.inr ⟨t₃, (List.append_inj' heq rfl).1⟩
  constructor
  · intro t₁ time text t₂ heq
    rcases hsplit _ _ _ heq with ⟨rfl, he, -⟩ | ⟨t₃, rfl⟩
    · exact htemperature time text he.symm
    · exact h.temperature t₁ time text t₃ rfl
  · intro t₁ time t₂ heq
    rcases hsplit _ _ _ heq with ⟨rfl, he, rfl⟩ | ⟨t₃, rfl⟩
    · exact ⟨hshutdown time he.symm, rfl⟩
    · exact absurd ⟨time, by simp⟩ hnot

/-! ### The invariant -/

section

variable {F ω : Type}

/-- The program writes its report lines, and nothing else, where `view` looks; no line fails. -/
structure Prints (P : Program ω) (view : ω → List UInt8) : Prop where
  receive : ∀ bytes out, view (P.receive bytes out) = view out
  format : ∀ bytes out, view (P.format bytes out) = view out
  log : ∀ bytes out, view (P.log bytes out) = view out
  send : ∀ up line out, view (P.send up line out).1 = view out ++ line.bytes
  sent : ∀ up line out, (P.send up line out).2 = true

/-- The flags agree with the events, which are lawful and go on from `t₀`. -/
structure Inv (view : ω → List UInt8) (t₀ : List Event) (s : St F ω) : Prop where
  interrupt : s.interrupt = true ↔ Interrupted s.trace
  generate : s.generateReports = true ↔ Generating s.trace
  lawful : Lawful s.trace
  printed : view s.out = reportText s.trace
  grows : t₀ <+: s.trace

def Running (view : ω → List UInt8) (t₀ : List Event) (s : St F ω) : Prop :=
  Inv view t₀ s ∧ ¬ HasShutdown s.trace

/-- The program has ended, with status 0 if it has reported `SHUTDOWN`. -/
def Over (view : ω → List UInt8) (t₀ : List Event) : Halt F ω → Prop
  | .exit status s => Inv view t₀ s ∧ (status = 0 ↔ HasShutdown s.trace)
  | .undefined s => Running view t₀ s

variable {P : Program ω} {view : ω → List UInt8} {fl : Floats F} {x : Input F}
  {t₀ : List Event} {s s' : St F ω}

lemma Running.congr (h : Running view t₀ s) (htrace : s'.trace = s.trace)
    (hinterrupt : s'.interrupt = s.interrupt) (hgenerate : s'.generateReports = s.generateReports)
    (hview : view s'.out = view s.out) : Running view t₀ s' := by
  obtain ⟨hinv, hnot⟩ := h
  refine ⟨⟨?_, ?_, ?_, ?_, ?_⟩, ?_⟩
  · rw [hinterrupt, htrace, hinv.interrupt]
  · rw [hgenerate, htrace, hinv.generate]
  · exact htrace ▸ hinv.lawful
  · rw [hview, htrace, hinv.printed]
  · exact htrace ▸ hinv.grows
  · rwa [htrace]

/-- An exit that is no shutdown. -/
lemma Running.over (h : Running view t₀ s) {status : ℕ} (hne : status ≠ 0) :
    Over view t₀ (.exit status s) := ⟨h.1, iff_of_false hne h.2⟩

lemma Running.since (h : Running view t₀ s) : Running view s.trace s :=
  ⟨{ h.1 with grows := List.prefix_rfl }, h.2⟩

lemma Over.inv {halt : Halt F ω} (h : Over view t₀ halt) : Inv view t₀ halt.state := by
  cases halt with
  | exit status s => exact h.1
  | undefined s => exact h.1

section

variable {r : Run F ω (St F ω)}

lemma inv_finalState (h : Ends (Running view t₀) (Over view t₀) r) :
    Inv view t₀ (finalState r) := by
  cases r with
  | ok s => exact h.1
  | error halt => exact Over.inv h

/-- Status 0 goes with `SHUTDOWN`. -/
lemma exitStatus_eq_zero_iff (h : Ends (Running view t₀) (Over view t₀) r) :
    exitStatus r = some 0 ↔ HasShutdown (finalState r).trace := by
  cases r with
  | ok s => exact iff_of_false (by simp [exitStatus]) h.2
  | error halt =>
    cases halt with
    | exit status s => simpa [exitStatus, finalState, Halt.state] using h.2
    | undefined s => exact iff_of_false (by simp [exitStatus]) h.2

end

/-- An event that is no report, with the flags that it stands for. -/
lemma Running.event (h : Running view t₀ s) (hreport : reportLine e = none)
    (htrace : s'.trace = s.trace ++ [e])
    (hinterrupt : s'.interrupt = true ↔ s.interrupt = true ∨ Interrupts e)
    (hgenerate : s'.generateReports = (switch e).getD s.generateReports)
    (hview : view s'.out = view s.out) : Running view t₀ s' := by
  obtain ⟨hinv, hnot⟩ := h
  refine ⟨⟨?_, ?_, ?_, ?_, ?_⟩, ?_⟩
  · rw [hinterrupt, htrace, interrupted_snoc, hinv.interrupt]
  · rw [hgenerate, htrace, generating_snoc]
    cases switch e with
    | none => exact hinv.generate
    | some b => rfl
  · rw [htrace]
    refine hinv.lawful.snoc hnot ?_ ?_
    · rintro time text rfl
      cases hreport
    · rintro time rfl
      cases hreport
  · rw [hview, htrace, reportText_snoc, hreport, hinv.printed]
    simp
  · exact htrace ▸ hinv.grows.trans (List.prefix_append _ _)
  · rintro ⟨time, hmem⟩
    rw [htrace, List.mem_append, List.mem_singleton] at hmem
    rcases hmem with hmem | rfl
    · exact hnot ⟨time, hmem⟩
    · cases hreport

/-! ### Reports -/

@[simp] lemma trace_reported (line : ReportLine) :
    (reported P x line s).trace = s.trace ++ [.report line] := rfl

section

variable (hP : Prints P view)
include hP

lemma sendReport_eq (line : ReportLine) (s : St F ω) :
    sendReport P x line s = .ok (reported P x line s) := by
  unfold sendReport reported
  simp only [hP.sent, if_true]

lemma view_reported (line : ReportLine) (s : St F ω) :
    view (reported P x line s).out = view s.out ++ line.bytes := by
  unfold reported format St.event
  rw [hP.format, hP.send]

/-- A report changes none of the flags. -/
lemma Running.reported (h : Running view t₀ s) {line : ReportLine}
    (htemperature : ∀ time text, line = .temperature time text →
      ¬ Interrupted s.trace ∧ Generating s.trace)
    (hshutdown : ∀ time, line = .shutdown time → Interrupted s.trace) :
    Inv view t₀ (reported P x line s) := by
  obtain ⟨hinv, hnot⟩ := h
  refine ⟨hinv.interrupt.trans ?_, hinv.generate.trans ?_, ?_, ?_, ?_⟩
  · simp [interrupted_snoc, Interrupts]
  · simp [generating_snoc, switch]
  · refine hinv.lawful.snoc hnot ?_ ?_
    · rintro time text heq
      exact htemperature time text (Event.report.inj heq)
    · rintro time heq
      exact hshutdown time (Event.report.inj heq)
  · rw [view_reported hP, hinv.printed, trace_reported, reportText_snoc]
    rfl
  · exact hinv.grows.trans (List.prefix_append _ _)

/-- A report is an event, and the end of an interrupted program. -/
lemma report_keeps (h : Running view t₀ s) :
    Ends (Running view t₀) (Over view t₀) (report P fl x s) := by
  refine ends_report (h.over (by decide)) (fun hinterrupt => ?_)
    (fun hinterrupt hgenerate => ?_) fun _ => h
  · have hinv : Inv view t₀ (reported P x (.shutdown x.time) s) :=
      h.reported hP (by simp) fun _ _ => h.1.interrupt.mp hinterrupt
    rw [sendReport_eq hP]
    exact ⟨fun _ => ⟨hinv, iff_of_true rfl ⟨x.time, by simp⟩⟩, fun hc => absurd hinterrupt hc⟩
  · have hinv : Inv view t₀
        (reported P x (.temperature x.time (fl.temperatureText x.sensor s.scale)) s) :=
      h.reported hP (fun _ _ _ => ⟨fun hi => hinterrupt (h.1.interrupt.mpr hi),
        h.1.generate.mp hgenerate⟩) (by simp)
    have hnot : ¬ HasShutdown
        (reported P x (.temperature x.time (fl.temperatureText x.sensor s.scale)) s).trace := by
      rintro ⟨time, hmem⟩
      exact h.2 ⟨time, by simpa using hmem⟩
    rw [sendReport_eq hP]
    exact ⟨fun hc => absurd hc hinterrupt, fun _ => ⟨hinv, hnot⟩⟩

/-- An interrupted program ends with its next report. -/
lemma report_of_interrupt (hs : s.interrupt = true) (hsensor : x.sensor ≠ -1) :
    report P fl x s = .error (.exit 0 (reported P x (.shutdown x.time) s)) := by
  unfold report
  rw [if_neg hsensor, if_pos hs, sendReport_eq hP]
  exact if_pos hs

lemma exists_report_error (hs : s.interrupt = true) : ∃ e, report P fl x s = .error e := by
  by_cases hsensor : x.sensor = -1
  · exact ⟨_, if_pos hsensor⟩
  · exact ⟨_, report_of_interrupt hP hs hsensor⟩

/-! ### Passes -/

lemma format_keeps (bytes : List UInt8) (h : Running view t₀ s) :
    Running view t₀ (format P bytes s) := h.congr rfl rfl rfl (hP.format _ _)

omit hP in
/-- What a command does to the flags is what its event stands for. -/
lemma execute_keeps (h : Running view t₀ s) :
    Ends (Running view t₀) (Over view t₀) (execute fl (copyLine s)) := by
  have hevent : ∀ s' : St F ω, s'.trace = (copyLine s).trace →
      (s'.interrupt = true ↔ s.interrupt = true ∨ kindOf (copyLine s).procBuf = .off) →
      s'.generateReports = (switch (.command (s.lineBuf.take s.lineMarker)
        (copyLine s).procBuf)).getD s.generateReports →
      view s'.out = view s.out → Running view t₀ s' := fun s' => h.event rfl
  have hsame : kindOf (copyLine s).procBuf ∈ [.scale, .period, .other] → ∀ s' : St F ω,
      s'.trace = (copyLine s).trace → s'.interrupt = s.interrupt →
      s'.generateReports = s.generateReports → s'.out = s.out → Running view t₀ s' := by
    intro hkind s' htrace hinterrupt hgenerate hout
    simp only [List.mem_cons, List.not_mem_nil, or_false] at hkind
    rcases hkind with hkind | hkind | hkind
    all_goals
      exact hevent s' htrace (by simp [hinterrupt, hkind]) (by simp [hgenerate, switch, hkind])
        (by rw [hout])
  unfold execute
  split
  · next hkind =>
    split
    · exact hsame (by simp [hkind]) _ rfl rfl rfl rfl
    · exact (hsame (by simp [hkind]) _ rfl rfl rfl rfl).over (by decide)
  · next hkind =>
    exact Ends.ite (fun _ => hsame (by simp [hkind]) _ rfl rfl rfl rfl) fun _ =>
      hsame (by simp [hkind]) _ rfl rfl rfl rfl
  · next hkind => exact hevent _ rfl (by simp [hkind]) (by simp [switch, hkind]) rfl
  · next hkind => exact hevent _ rfl (by simp [hkind]) (by simp [switch, hkind]) rfl
  · next hkind => exact hevent _ rfl (by simp [hkind]) (by simp [switch, hkind]) rfl
  · next hkind => exact hsame (by simp [hkind]) _ rfl rfl rfl rfl

lemma logCommand_keeps (h : Running view t₀ s) : Running view t₀ (logCommand P s) := by
  unfold logCommand
  split
  · exact h
  · exact h.congr rfl rfl rfl (hP.log _ _)

lemma processCommand_keeps (h : Running view t₀ s) :
    Ends (Running view t₀) (Over view t₀) (processCommand P fl x s) := by
  refine ends_processCommand (execute_keeps h) (fun _ => logCommand_keeps hP)
    (fun _ h₁ _ => report_keeps hP h₁) (fun _ h₁ _ => h₁) fun _ h₁ => ?_
  exact h₁.congr rfl rfl rfl rfl

lemma storeByte_keeps (b : UInt8) (h : Running view t₀ s) :
    Ends (Running view t₀) (Over view t₀) (storeByte P fl x s b) := by
  have hconsumed : Running view t₀ { s with consumed := s.consumed ++ [b] } :=
    h.congr rfl rfl rfl rfl
  refine ends_storeByte (fun _ => ?_) (fun _ => ?_) (fun _ => ?_) (fun _ => ?_)
    fun _ _ _ _ => hconsumed
  · unfold deleteLast
    split
    · exact hconsumed.congr rfl rfl rfl rfl
    · exact hconsumed
  · refine ends_completeLine (fun _ => hconsumed)
      (fun _ => processCommand_keeps hP (format_keeps hP _ hconsumed)) fun _ h₁ => ?_
    exact h₁.congr rfl rfl rfl rfl
  · exact (format_keeps hP _ hconsumed).over (by decide)
  · exact Ends.ite (fun _ => hconsumed.congr rfl rfl rfl rfl) fun _ => hconsumed

variable (P fl) in
lemma walk_keeps (w : List UInt8) :
    Walk P fl (fun _ => True) w (fun _ => Running view t₀) (Over view t₀) where
  receive _ _ _ h := h.congr rfl rfl rfl (hP.receive _ _)
  format _ _ bytes h := format_keeps hP bytes h
  startChunk _ s _ h := by
    unfold startChunk
    split
    · exact h.congr rfl rfl rfl rfl
    · exact h
  storeByte _ b _ _ _ _ h := storeByte_keeps hP b h
  report _ _ _ _ _ h := report_keeps hP h
  checkButton _ _ _ _ h := ends_checkButton (h.over (by decide))
    (h.event (e := .button) rfl rfl (by simp [St.event, Interrupts]) rfl rfl)
    (h.congr rfl rfl rfl rfl)

/-- **A run** of the main loop. -/
theorem passes_keep (xs : List (Input F)) (h : Running view t₀ s) :
    Ends (Running view t₀) (Over view t₀) (xs.foldlM (fun s x => pass P fl x s) s) :=
  (walk_keeps P fl hP _).passes (u := []) (fun _ _ => trivial) (List.prefix_refl _) h

omit hP in
lemma running_initVars {scale : Scale} {period : F} {out : ω} (hout : view out = []) :
    Running view [] (initVars scale period out) :=
  ⟨⟨by simp [initVars, Interrupted], by simp [initVars, Generating], lawful_nil,
    by simp [initVars, hout, reportText, reports], List.prefix_rfl⟩,
    by simp [initVars, HasShutdown]⟩

omit hP in
lemma kindOf_copyLine_off (h : ascii "OFF" <+: s.lineBuf.take s.lineMarker) :
    kindOf (copyLine s).procBuf = .off := by
  obtain ⟨rest, hrest⟩ := h
  have hoff : ∀ l, kindOf (ascii "OFF" ++ l) = .off := fun _ => rfl
  have htake : (ascii "OFF" ++ rest).takeWhile (· ≠ 0) = ascii "OFF" ++ rest.takeWhile (· ≠ 0) :=
    rfl
  unfold copyLine strncpy overwrite
  rw [← hrest, htake]
  simp only [St.event, List.append_assoc]
  exact hoff _

/-- The line `OFF` ends the program. -/
lemma completeLine_off (h : ascii "OFF" <+: s.lineBuf.take s.lineMarker) :
    ∃ e, completeLine P fl x s = .error e := by
  have hmarker : 0 < s.lineMarker := by
    rcases Nat.eq_zero_or_pos s.lineMarker with hzero | hpos
    · rw [hzero] at h
      exact absurd (List.prefix_nil.mp h) (by decide)
    · exact hpos
  have hkind := kindOf_copyLine_off (s := format P (ascii "\r") s) h
  have hexecute : execute fl (copyLine (format P (ascii "\r") s)) =
      .ok { copyLine (format P (ascii "\r") s) with interrupt := true } := by
    unfold execute
    rw [hkind]
  have hinterrupt : (logCommand P
      { copyLine (format P (ascii "\r") s) with interrupt := true }).interrupt = true := by
    unfold logCommand
    split <;> rfl
  obtain ⟨e, he⟩ : ∃ e, report P fl x (logCommand P
      { copyLine (format P (ascii "\r") s) with interrupt := true }) = .error e :=
    exists_report_error hP hinterrupt
  have hprocess : processCommand P fl x (format P (ascii "\r") s) = .error e := by
    unfold processCommand
    rw [hexecute, ok_bind]
    simp only [hinterrupt, if_true, he]
    rfl
  refine ⟨e, ?_⟩
  unfold completeLine
  rw [if_pos hmarker, hprocess]
  rfl

/-- Bytes behind the line `OFF` have no effect. -/
theorem storeBuffer_off {u : List UInt8} {s₁ : St F ω} (hu : storeBuffer P fl x s u = .ok s₁)
    (h : ascii "OFF" <+: s₁.lineBuf.take s₁.lineMarker) :
    ∃ e, ∀ v, storeBuffer P fl x s (u ++ 10 :: v) = .error e := by
  obtain ⟨e, he⟩ : ∃ e, completeLine P fl x { s₁ with consumed := s₁.consumed ++ [10] } =
      .error e := completeLine_off hP h
  have hbyte : storeByte P fl x s₁ 10 = .error e := he
  refine ⟨e, fun v => ?_⟩
  unfold storeBuffer at hu ⊢
  rw [List.foldlM_append, hu, ok_bind, List.foldlM_cons, hbyte]
  rfl

theorem run_keeps (first : Input F) (xs : List (Input F)) (h : Running view t₀ s) :
    Ends (Running view t₀) (Over view t₀) (run P fl s first xs) :=
  (walk_keeps P fl hP _).run trivial (fun _ _ => trivial) (List.prefix_refl _) h

end

end

end LowLevelTasks.SensorReports
