import LowLevelTasks.Lab4b
import LowLevelTasks.PeriodBuffer
import Mathlib.Logic.Nontrivial.Defs

/-!
The commands of the sensor programs.

The grammar says which lines are commands and what each of them sets. `process_command` compares
the start of a line only, takes any argument of `PERIOD=`, and exits when the one of `SCALE=` is
none of the four letters.
-/

namespace LowLevelTasks.Commands

open LowLevelTasks.Buffers LowLevelTasks.Outcomes LowLevelTasks.PeriodBuffer
open LowLevelTasks.SensorProgram LowLevelTasks.SensorWalks
open LowLevelTasks.LineEditing (Exits)

variable {F ω : Type}

/-! ### The grammar -/

inductive Command where
  | stop | start | off
  | scale (x : UInt8)
  | period (number : List UInt8)
deriving DecidableEq

def Command.text : Command → List UInt8
  | .stop => ascii "STOP"
  | .start => ascii "START"
  | .off => ascii "OFF"
  | .scale x => ascii "SCALE=" ++ [x]
  | .period number => ascii "PERIOD=" ++ number

def isDigit (b : UInt8) : Bool := 48 ≤ b ∧ b ≤ 57

/-- Digits, with one point among them or none. -/
def isUnsigned (text : List UInt8) : Bool :=
  text.any isDigit && text.all (fun b => isDigit b || b = 46) && text.count 46 ≤ 1

/-- A decimal number, which may have a sign. -/
def isDecimal (text : List UInt8) : Bool :=
  isUnsigned (if text.head? = some 43 ∨ text.head? = some 45 then text.tail else text)

/-- The arguments that the grammar has. -/
def Command.Legal : Command → Prop
  | .scale x => x = 70 ∨ x = 102 ∨ x = 67 ∨ x = 99
  | .period number => isDecimal number
  | _ => True

/-- The argument fits into the array it is copied to. -/
def Command.Fits : Command → Prop
  | .period number => number.length ≤ 9
  | _ => True

structure Settings (F : Type) where
  scale : Scale
  period : F
  generateReports : Bool
  interrupt : Bool

def settings (s : St F ω) : Settings F := ⟨s.scale, s.period, s.generateReports, s.interrupt⟩

/-- What a command sets. -/
def Command.apply (fl : Floats F) (st : Settings F) : Command → Settings F
  | .stop => { st with generateReports := false }
  | .start => { st with generateReports := true }
  | .off => { st with interrupt := true }
  | .scale x => { st with scale := if x = 70 ∨ x = 102 then .fahrenheit else .celsius }
  | .period number => { st with period := fl.atof number }

/-! ### What is asked of a line -/

section

variable (P : Program ω) (fl : Floats F) (x : Input F)

/-- The program ends, if at all, with an exit and these settings. -/
def EndsWith (st : Settings F) (r : Run F ω (St F ω)) : Prop :=
  settings (finalState r) = st ∧ ∀ s, r ≠ .error (.undefined s)

/-- A command sets what it is to set; any other line changes no setting, does not end the
program, and nothing is written for it. -/
structure ObeysAt (s : St F ω) (line : List UInt8) : Prop where
  command : ∀ c : Command, c.Legal → line = c.text →
    EndsWith (c.apply fl (settings s)) (processCommand P fl x s)
  other : (∀ c : Command, c.Legal → line ≠ c.text) → ∃ s',
    processCommand P fl x s = .ok s' ∧ settings s' = settings s ∧ s'.out = s.out

/-- The line is treated so in every state in which it is complete, with the flag of the
interrupt set or not. -/
def Obeys (interrupt : Bool) (line : List UInt8) : Prop :=
  ∀ s : St F ω, Completes s line → s.interrupt = interrupt → ObeysAt P fl x s line

end

def words : List (List UInt8) :=
  [ascii "SCALE=", ascii "PERIOD=", ascii "STOP", ascii "START", ascii "OFF"]

/-- The line is a command whose argument fits, or begins with none of the words while no
interrupt is pending. -/
def Clean (interrupt : Bool) (line : List UInt8) : Prop :=
  (∃ c : Command, c.Legal ∧ c.Fits ∧ line = c.text) ∨
    interrupt = false ∧ ∀ word ∈ words, ¬ word <+: line

variable {P : Program ω} {fl : Floats F} {x : Input F} {s s' : St F ω} {line : List UInt8}
  {c c' : Command} {interrupt : Bool}

/-! ### Prefixes -/

lemma kindOf_padded (line : List UInt8) : kindOf (padded 128 line) = kindOf line := by
  have hword (word : List UInt8) (hzero : 0 ∉ word) :
      word.isPrefixOf (padded 128 line) = word.isPrefixOf line := by
    rw [Bool.eq_iff_iff, List.isPrefixOf_iff_prefix, List.isPrefixOf_iff_prefix,
      prefix_padded hzero]
  unfold kindOf
  rw [hword _ (by decide), hword _ (by decide), hword _ (by decide), hword _ (by decide),
    hword _ (by decide)]

lemma kindOf_eq_other_iff : kindOf line = .other ↔ ∀ word ∈ words, ¬ word <+: line := by
  unfold kindOf words
  simp only [List.isPrefixOf_iff_prefix, List.forall_mem_cons, List.not_mem_nil, false_imp_iff,
    implies_true, and_true]
  split_ifs <;> simp_all

lemma text_injective (h : c.text = c'.text) : c = c' := by
  cases c <;> cases c' <;> simp_all [Command.text, ascii]

lemma kindOf_text_ne_other : kindOf c.text ≠ .other := by
  cases c <;> simp [Command.text, kindOf, ascii]

/-! ### Behind the command -/

/-- A report changes no setting, and ends the program if an interrupt is pending. -/
lemma report_settings : Ends (fun s' => settings s' = settings s ∧ s'.interrupt = false)
    (Exits fun s' => settings s' = settings s) (report P fl x s) := by
  have hsend (line : ReportLine) :
      Ends (Continues (fun s' => settings s' = settings s ∧ s'.interrupt = false)
          (Exits fun s' => settings s' = settings s))
        (Exits fun s' => settings s' = settings s) (sendReport P x line s) :=
    ends_sendReport ⟨fun _ => rfl, fun hno => ⟨rfl, by simpa using hno⟩⟩ fun _ => rfl
  exact ends_report rfl (fun _ => hsend _) (fun _ _ => hsend _) fun hno =>
    ⟨rfl, by simpa using hno⟩

lemma settings_logCommand (s : St F ω) : settings (logCommand P s) = settings s := by
  unfold logCommand
  split <;> rfl

/-- What follows the command leaves the settings as they are. -/
lemma ends_of_execute {s₁ : St F ω} (h : execute fl (copyLine s) = .ok s₁) :
    Ends (fun s' => settings s' = settings s₁ ∧ s'.interrupt = false)
      (Exits fun s' => settings s' = settings s₁) (processCommand P fl x s) := by
  have hexecute : Ends (fun s => s = s₁) (Exits fun s' => settings s' = settings s₁)
      (execute fl (copyLine s)) := by
    rw [h]
    exact rfl
  have hreport : ∀ s₂ : St F ω, settings s₂ = settings s₁ →
      Ends (fun s' => settings s' = settings s₁ ∧ s'.interrupt = false)
        (Exits fun s' => settings s' = settings s₁) (report P fl x s₂) :=
    fun s₂ h₂ => h₂ ▸ report_settings
  refine ends_processCommand hexecute ?_ (fun s₂ h₂ _ => hreport s₂ h₂)
    (fun s₂ h₂ hno => ⟨h₂, by simpa using hno⟩) fun _ h₂ => h₂
  rintro _ rfl
  exact settings_logCommand _

lemma endsWith_of_execute {s₁ : St F ω} (h : execute fl (copyLine s) = .ok s₁) :
    EndsWith (settings s₁) (processCommand P fl x s) := by
  have hends := ends_of_execute (P := P) (x := x) h
  cases hr : processCommand P fl x s with
  | ok s' =>
    rw [hr] at hends
    exact ⟨hends.1, fun _ => by simp⟩
  | error halt =>
    rw [hr] at hends
    cases halt with
    | exit status s' => exact ⟨hends, fun _ => by simp⟩
    | undefined s' => exact hends.elim

/-- If the program goes on, no interrupt is pending, and the command has left its settings. -/
lemma execute_of_ok (h : processCommand P fl x s = .ok s') :
    s'.interrupt = false ∧ ∃ s₁, execute fl (copyLine s) = .ok s₁ ∧ settings s' = settings s₁ := by
  cases hexecute : execute fl (copyLine s) with
  | ok s₁ =>
    obtain ⟨hsettings, hno⟩ := (ends_iff.mp (ends_of_execute hexecute)).1 s' h
    exact ⟨hno, s₁, rfl, hsettings⟩
  | error halt =>
    have hfail : processCommand P fl x s = .error halt := by
      rw [processCommand, hexecute]
      rfl
    rw [hfail] at h
    cases h

/-! ### Commands and other lines -/

/-- A command whose argument fits sets what it is to set. -/
lemma execute_command (hc : c.Legal) (hfits : c.Fits) (h : Completes s c.text)
    (hzero : 0 ∉ c.text) : ∃ s₁, execute fl (copyLine s) = .ok s₁ ∧
      settings s₁ = c.apply fl (settings s) := by
  have hproc := procBuf_copyLine h hzero
  have hkind : kindOf (copyLine s).procBuf = kindOf c.text := by rw [hproc, kindOf_padded]
  cases c with
  | stop =>
    have hstop : kindOf (copyLine s).procBuf = .stop := hkind
    exact ⟨_, by rw [execute, hstop], rfl⟩
  | start =>
    have hstart : kindOf (copyLine s).procBuf = .start := hkind
    exact ⟨_, by rw [execute, hstart], rfl⟩
  | off =>
    have hoff : kindOf (copyLine s).procBuf = .off := hkind
    exact ⟨_, by rw [execute, hoff], rfl⟩
  | scale y =>
    have hscale : kindOf (copyLine s).procBuf = .scale := hkind.trans (by
      simp [kindOf, Command.text, ascii])
    have hletter : (copyLine s).procBuf.getD 6 0 = y := by
      rw [hproc]
      rfl
    have hset : setScale y =
        some (if y = 70 ∨ y = 102 then Scale.fahrenheit else .celsius) := by
      unfold setScale
      rcases hc with rfl | rfl | rfl | rfl <;> rfl
    exact ⟨_, by rw [execute, hscale, hletter, hset], rfl⟩
  | period number =>
    have hnumber : 0 ∉ number := fun hmem => hzero (List.mem_append_right _ hmem)
    have hle : number.length ≤ 9 := hfits
    exact ⟨_, by rw [execute_period fl h hnumber, if_pos hle], rfl⟩

/-- A line that begins with none of the words is passed over. -/
lemma processCommand_other (h : Completes s line) (hzero : 0 ∉ line)
    (hother : kindOf line = .other) (hno : s.interrupt = false) :
    ∃ s', processCommand P fl x s = .ok s' ∧ settings s' = settings s ∧ s'.out = s.out := by
  have hkind : kindOf (copyLine s).procBuf = .other := by
    rw [procBuf_copyLine h hzero, kindOf_padded, hother]
  have hexecute : execute fl (copyLine s) = .ok (copyLine s) := by rw [execute, hkind]
  have hlog : logCommand P (copyLine s) = copyLine s := if_pos hkind
  refine ⟨{ copyLine s with procBuf := memset s.lineMarker (copyLine s).procBuf }, ?_, rfl, rfl⟩
  rw [processCommand, hexecute]
  change (do
    let s₁ ← if (logCommand P (copyLine s)).interrupt then
        report P fl x (logCommand P (copyLine s)) else .ok (logCommand P (copyLine s))
    Except.ok { s₁ with procBuf := memset s₁.lineMarker s₁.procBuf }) = _
  rw [hlog, copyLine_interrupt, hno]
  rfl

lemma obeys_of_clean (hzero : 0 ∉ line) (h : Clean interrupt line) :
    Obeys P fl x interrupt line := by
  intro s hs hinterrupt
  rcases h with ⟨c, hlegal, hfits, rfl⟩ | ⟨rfl, hwords⟩
  · refine ⟨fun c' _ heq => ?_, fun hnone => absurd rfl (hnone c hlegal)⟩
    obtain rfl := text_injective heq
    obtain ⟨s₁, hexecute, hset⟩ := @execute_command F ω fl _ _ hlegal hfits hs hzero
    exact hset ▸ endsWith_of_execute hexecute
  · have hother := kindOf_eq_other_iff.mpr hwords
    refine ⟨fun c' _ heq => ?_, fun _ => processCommand_other hs hzero hother hinterrupt⟩
    exact absurd (heq ▸ hother) kindOf_text_ne_other

/-! ### Lines that are treated as asked -/

/-- The state with these settings in which a line is complete. -/
def completed (st : Settings F) (out : ω) (line : List UInt8) : St F ω :=
  { initVars st.scale st.period out with
    generateReports := st.generateReports
    interrupt := st.interrupt
    lineBuf := padded 128 line
    lineMarker := line.length }

lemma completes_completed (st : Settings F) (out : ω) (line : List UInt8) :
    Completes (completed st out line) line := ⟨take_padded, rfl, rfl⟩

lemma kindOf_copyLine (h : Completes s line) (hzero : 0 ∉ line) :
    kindOf (copyLine s).procBuf = kindOf line := by
  rw [procBuf_copyLine h hzero, kindOf_padded]

section

variable [Inhabited ω] [Nontrivial F]

/-- A line that changes no setting in any state begins with none of the words. -/
lemma kindOf_eq_other (hzero : 0 ∉ line)
    (h : ∀ st : Settings F, st.interrupt = false →
      ∃ s₁, execute fl (copyLine (completed st (default : ω) line)) = .ok s₁ ∧ settings s₁ = st) :
    kindOf line = .other := by
  have hkind (st : Settings F) :
      kindOf (copyLine (completed st (default : ω) line)).procBuf = kindOf line :=
    kindOf_copyLine (completes_completed st default line) hzero
  have hproc (st : Settings F) :
      (copyLine (completed st (default : ω) line)).procBuf = padded 128 line :=
    procBuf_copyLine (completes_completed st default line) hzero
  obtain ⟨p, q, hpq⟩ := exists_pair_ne F
  by_contra hne
  cases hk : kindOf line with
  | other => exact hne hk
  | stop =>
    obtain ⟨s₁, hs₁, hset⟩ := h ⟨.fahrenheit, p, true, false⟩ rfl
    rw [execute, hkind, hk] at hs₁
    obtain rfl := Except.ok.inj hs₁
    exact absurd (congrArg Settings.generateReports hset) (by simp [settings])
  | start =>
    obtain ⟨s₁, hs₁, hset⟩ := h ⟨.fahrenheit, p, false, false⟩ rfl
    rw [execute, hkind, hk] at hs₁
    obtain rfl := Except.ok.inj hs₁
    exact absurd (congrArg Settings.generateReports hset) (by simp [settings])
  | off =>
    obtain ⟨s₁, hs₁, hset⟩ := h ⟨.fahrenheit, p, false, false⟩ rfl
    rw [execute, hkind, hk] at hs₁
    obtain rfl := Except.ok.inj hs₁
    exact absurd (congrArg Settings.interrupt hset) (by simp [settings])
  | scale =>
    -- the letter decides, whatever the scale was
    have hscale : ∀ scale, setScale ((padded 128 line).getD 6 0) = some scale := fun scale => by
      obtain ⟨s₁, hs₁, hset⟩ := h ⟨scale, p, false, false⟩ rfl
      rw [execute, hkind, hk] at hs₁
      simp only [hproc] at hs₁
      split at hs₁
      · next scale' heq =>
        obtain rfl := Except.ok.inj hs₁
        rw [heq]
        exact congrArg some (congrArg Settings.scale hset)
      · cases hs₁
    exact absurd ((hscale .fahrenheit).symm.trans (hscale .celsius)) (by decide)
  | period =>
    have hperiod : ∀ period, fl.atof ((((padded 128 line).take line.length).drop 7).takeWhile
        (· ≠ 0)) = period := fun period => by
      obtain ⟨s₁, hs₁, hset⟩ := h ⟨.fahrenheit, period, false, false⟩ rfl
      rw [execute, hkind, hk] at hs₁
      simp only [hproc, lineMarker_copyLine] at hs₁
      split at hs₁
      · obtain rfl := Except.ok.inj hs₁
        exact congrArg Settings.period hset
      · cases hs₁
    exact hpq ((hperiod p).symm.trans (hperiod q))

lemma clean_of_obeys (hzero : 0 ∉ line) (h : Obeys P fl x interrupt line) :
    Clean interrupt line := by
  by_cases hcmd : ∃ c : Command, c.Legal ∧ line = c.text
  · obtain ⟨c, hlegal, rfl⟩ := hcmd
    refine .inl ⟨c, hlegal, ?_, rfl⟩
    by_contra hfits
    cases c with
    | stop | start | off | scale => exact hfits trivial
    | period number =>
      -- the argument is written behind its array
      obtain ⟨p, -⟩ := exists_pair_ne F
      set s : St F ω := completed ⟨.fahrenheit, p, true, interrupt⟩ default
        (ascii "PERIOD=" ++ number)
      have hcompletes : Completes s (ascii "PERIOD=" ++ number) := completes_completed _ _ _
      have hnumber : 0 ∉ number := fun hmem => hzero (List.mem_append_right _ hmem)
      have hfail : execute fl (copyLine s) = .error (.undefined (copyLine s)) :=
        (execute_period fl hcompletes hnumber).trans (if_neg hfits)
      refine ((h s hcompletes rfl).command (.period number) hlegal rfl).2 (copyLine s) ?_
      rw [processCommand, hfail]
      rfl
  · have hnone : ∀ c : Command, c.Legal → line ≠ c.text := fun c hc heq => hcmd ⟨c, hc, heq⟩
    have hok (st : Settings F) (hst : st.interrupt = interrupt) : interrupt = false ∧
        ∃ s₁, execute fl (copyLine (completed st (default : ω) line)) = .ok s₁ ∧
          settings s₁ = st := by
      obtain ⟨s', hs', hset, -⟩ :=
        (h _ (completes_completed st default line) hst).other hnone
      obtain ⟨hno, s₁, hs₁, hset₁⟩ := execute_of_ok hs'
      refine ⟨?_, s₁, hs₁, hset₁.symm.trans hset⟩
      rw [← hno, ← hst]
      exact (congrArg Settings.interrupt hset).symm
    obtain ⟨p, -⟩ := exists_pair_ne F
    have hno := (hok ⟨.fahrenheit, p, true, interrupt⟩ rfl).1
    refine .inr ⟨hno, kindOf_eq_other_iff.mp (@kindOf_eq_other F ω fl _ _ _ hzero ?_)⟩
    exact fun st hst => (hok st (hst.trans hno.symm)).2

/-! ### The result -/

/-- **Which lines are treated as they should be.** The commands of the grammar, the argument of
`PERIOD=` in at most nine characters; and, as long as no interrupt is pending, the lines that do
not even begin with one of the words. -/
theorem obeys_iff_clean (P : Program ω) (fl : Floats F) (x : Input F) (interrupt : Bool)
    (line : List UInt8) (hprint : ∀ b ∈ line, 32 ≤ b ∧ b ≤ 126) :
    Obeys P fl x interrupt line ↔ Clean interrupt line := by
  have hzero : 0 ∉ line := fun hmem => absurd (hprint 0 hmem).1 (by decide)
  exact ⟨clean_of_obeys hzero, obeys_of_clean hzero⟩

end

/-- A pass that finds nothing but the line. -/
def idle : Input ℕ := ⟨[], by decide, 0, 0, 0, ascii "12:30:00", 500, true⟩

theorem obeys_iff_clean_sample :
    Obeys (ω := Unit) ⟨fun _ o => o, fun _ o => o, fun _ o => o, fun _ _ o => (o, true)⟩
      lengths idle false (ascii "SCALE=c") :=
  (obeys_iff_clean _ lengths idle false (ascii "SCALE=c") (by decide +kernel)).mpr
    (.inl ⟨.scale 99, by simp [Command.Legal], trivial, rfl⟩)

instance : Inhabited Lab4b.Out := ⟨⟨[], [], []⟩⟩

/-- A line that goes on behind the word is obeyed, and a scale that does not exist ends the
program. -/
theorem near_misses : ¬ Obeys (Lab4b.program true) lengths idle false (ascii "STOPX") ∧
    ¬ Obeys (Lab4b.program true) lengths idle false (ascii "SCALE=K") := by
  constructor
  · intro h
    rcases clean_of_obeys (by decide) h with ⟨c, -, -, heq⟩ | ⟨-, hwords⟩
    · cases c <;> simp [Command.text, ascii] at heq
    · exact hwords (ascii "STOP") (by decide) (by decide)
  · intro h
    rcases clean_of_obeys (by decide) h with ⟨c, hlegal, -, heq⟩ | ⟨-, hwords⟩
    · cases c with
      | scale y =>
        obtain rfl : 75 = y := by simpa [Command.text, ascii] using heq
        exact absurd hlegal (by simp [Command.Legal])
      | stop | start | off | period => simp [Command.text, ascii] at heq
    · exact hwords (ascii "SCALE=") (by decide) (by decide)

end LowLevelTasks.Commands
