import LowLevelTasks.Commands
import LowLevelTasks.Lab4c
import Mathlib.Data.List.GetD

/-!
A session with a sensor program, from what is typed to what is written.

The lines that are typed, the presses of the button and the reports are all there is to a session:
the settings at any time follow from the lines and the presses before, a report follows from the
settings and from the sensor, and the files hold the lines and the reports in their order. There
are no buffers and no chunks in this account.
-/

namespace LowLevelTasks.SensorSessions

open LowLevelTasks.Buffers LowLevelTasks.Commands LowLevelTasks.LineEditing
open LowLevelTasks.Outcomes LowLevelTasks.SensorProgram LowLevelTasks.SensorWalks
open LowLevelTasks.SensorReports (reports)

variable {F ω : Type}

/-! ### Lines and settings -/

/-- What a line sets. A scale that there is not is not set. -/
def obey (fl : Floats F) (st : Settings F) (line : List UInt8) : Settings F :=
  match kindOf line with
  | .scale => { st with scale := (setScale (line.getD 6 0)).getD st.scale }
  | .period => { st with period := fl.atof (line.drop 7) }
  | .stop => { st with generateReports := false }
  | .start => { st with generateReports := true }
  | .off => { st with interrupt := true }
  | .other => st

/-- The line begins with one of the words, and its scale exists. -/
def isObeyed (line : List UInt8) : Bool :=
  match kindOf line with
  | .scale => (setScale (line.getD 6 0)).isSome
  | .other => false
  | _ => true

def Event.set (fl : Floats F) (st : Settings F) : Event → Settings F
  | .command line _ => obey fl st line
  | .button => { st with interrupt := true }
  | .report _ => st

/-- The settings behind these events. -/
def settingsAfter (fl : Floats F) (st : Settings F) (t : List Event) : Settings F :=
  t.foldl (Event.set fl) st

/-- What is reported with these settings. -/
def reportOf (fl : Floats F) (x : Input F) (st : Settings F) : Option ReportLine :=
  if st.interrupt then some (.shutdown x.time)
  else if st.generateReports then
    some (.temperature x.time (fl.temperatureText x.sensor st.scale))
  else none

/-- The text of an event in a file that has the lines, the reports, or both. -/
def Event.text (lines reports : Bool) : Event → List UInt8
  | .command line _ => if lines && isObeyed line then line ++ ascii "\n" else []
  | .button => []
  | .report line => if reports then line.bytes else []

def text (lines reports : Bool) (t : List Event) : List UInt8 :=
  t.flatMap (Event.text lines reports)

variable {fl : Floats F} {x : Input F} {st : Settings F} {t : List Event} {e : Event}
variable {line : List UInt8}

/-- A command of the grammar sets what it is to set. -/
lemma obey_text {c : Command} (hc : c.Legal) : obey fl st c.text = c.apply fl st := by
  cases c with
  | stop | start | off => rfl
  | scale y =>
    have hset : setScale y = some (if y = 70 ∨ y = 102 then Scale.fahrenheit else .celsius) := by
      unfold setScale
      rcases hc with rfl | rfl | rfl | rfl <;> rfl
    change { st with scale := (setScale y).getD st.scale } = _
    rw [hset]
    rfl
  | period number => rfl

lemma settingsAfter_concat :
    settingsAfter fl st (t ++ [e]) = Event.set fl (settingsAfter fl st t) e := by
  simp [settingsAfter]

lemma text_concat {lines reports : Bool} :
    text lines reports (t ++ [e]) = text lines reports t ++ Event.text lines reports e := by
  simp [text]

/-! ### The account -/

/-- What is written to a file: obeyed lines, report lines, or both. No report fails. -/
structure Writes (P : Program ω) (view : ω → List UInt8) (lines reports : Bool) : Prop where
  receive : ∀ bytes out, view (P.receive bytes out) = view out
  format : ∀ bytes out, view (P.format bytes out) = view out
  log : ∀ bytes out, view (P.log bytes out) = view out ++ if lines then bytes else []
  send : ∀ up line out,
    view (P.send up line out).1 = view out ++ if reports then line.bytes else []
  sent : ∀ up line out, (P.send up line out).2 = true

/-- The events account for the settings, for the reports, each of which is one of these passes,
and for what is written. -/
structure Accounts (P : Program ω) (fl : Floats F) (st : Settings F) (out : ω)
    (xs : List (Input F)) (s : St F ω) : Prop where
  set : settings s = settingsAfter fl st s.trace
  explained : ∀ t₁ line t₂, s.trace = t₁ ++ .report line :: t₂ →
    ∃ x ∈ xs, reportOf fl x (settingsAfter fl st t₁) = some line
  written : ∀ view lines reports, Writes P view lines reports →
    view s.out = view out ++ text lines reports s.trace

variable {P : Program ω} {out : ω} {xs : List (Input F)} {s s' : St F ω}
variable {w : List UInt8} {b : UInt8}

lemma Accounts.congr (h : Accounts P fl st out xs s) (hset : settings s' = settings s)
    (htrace : s'.trace = s.trace)
    (hout : ∀ view lines reports, Writes P view lines reports → view s'.out = view s.out) :
    Accounts P fl st out xs s' := by
  refine ⟨by rw [hset, htrace, h.set], htrace ▸ h.explained, fun view lines reports hw => ?_⟩
  rw [hout view lines reports hw, htrace, h.written view lines reports hw]

lemma Accounts.aside (h : Accounts P fl st out xs s) (hset : settings s' = settings s)
    (htrace : s'.trace = s.trace) (hout : s'.out = s.out) : Accounts P fl st out xs s' :=
  h.congr hset htrace fun _ _ _ _ => by rw [hout]

lemma Accounts.formatted (h : Accounts P fl st out xs s) (bytes : List UInt8) :
    Accounts P fl st out xs (format P bytes s) :=
  h.congr rfl rfl fun _ _ _ hw => hw.format _ _

/-- One more event, with what it sets and what is written for it. -/
lemma Accounts.event (h : Accounts P fl st out xs s) (htrace : s'.trace = s.trace ++ [e])
    (hset : settings s' = Event.set fl (settings s) e)
    (hreport : ∀ line, e = .report line → ∃ x ∈ xs, reportOf fl x (settings s) = some line)
    (hout : ∀ view lines reports, Writes P view lines reports →
      view s'.out = view s.out ++ Event.text lines reports e) : Accounts P fl st out xs s' := by
  refine ⟨?_, fun t₁ line t₂ hsplit => ?_, fun view lines reports hw => ?_⟩
  · rw [hset, htrace, settingsAfter_concat, h.set]
  · rw [htrace] at hsplit
    rcases List.eq_nil_or_concat t₂ with rfl | ⟨t₃, a, rfl⟩
    · obtain ⟨rfl, hlast⟩ := List.append_inj' hsplit rfl
      rw [← h.set]
      exact hreport line (List.cons.inj hlast).1
    · rw [List.concat_eq_append, ← List.cons_append, ← List.append_assoc] at hsplit
      exact h.explained t₁ line t₃ (List.append_inj' hsplit rfl).1
  · rw [hout view lines reports hw, htrace, text_concat, h.written view lines reports hw,
      List.append_assoc]

/-! ### Reports -/

lemma sendReport_accounts (h : Accounts P fl st out xs s) (hx : x ∈ xs) {line : ReportLine}
    (hline : reportOf fl x (settings s) = some line) :
    Ends (Continues (Accounts P fl st out xs) (Exits (Accounts P fl st out xs)))
      (Exits (Accounts P fl st out xs)) (sendReport P x line s) := by
  have hevent : Accounts P fl st out xs
      ({ s with out := (P.send x.hostUp line s.out).1 }.event (.report line)) := by
    refine h.event rfl rfl ?_ fun view lines reports hw => hw.send _ _ _
    rintro _ ⟨⟩
    exact ⟨x, hx, hline⟩
  have hsent : Accounts P fl st out xs (reported P x line s) := hevent.formatted _
  exact ends_sendReport ⟨fun _ => hsent, fun _ => hsent⟩ fun _ => hsent

lemma report_accounts (h : Accounts P fl st out xs s) (hx : x ∈ xs) :
    Ends (Accounts P fl st out xs) (Exits (Accounts P fl st out xs)) (report P fl x s) :=
  ends_report h (fun hi => sendReport_accounts h hx (if_pos hi))
    (fun hi hg => sendReport_accounts h hx ((if_neg hi).trans (if_pos hg))) fun _ => h

/-! ### Commands -/

lemma getD_padded (n k : ℕ) (line : List UInt8) : (padded n line).getD k 0 = line.getD k 0 := by
  unfold padded
  rcases Nat.lt_or_ge k line.length with hk | hk
  · rw [List.getD_append _ _ _ _ hk]
  · rw [List.getD_append_right _ _ _ _ hk, List.getD_eq_default _ _ hk,
      List.getD_eq_getElem?_getD, List.getElem?_getD_replicate_default_eq]

/-- What a line does, once it stands in the buffer. -/
lemma execute_obeys (hmarker : s.lineMarker = line.length)
    (hproc : s.procBuf = padded 128 line) (hzero : 0 ∉ line)
    (hperiod : ascii "PERIOD=" <+: line → line.length ≤ 16) :
    Ends (fun s₁ => settings s₁ = obey fl (settings s) line ∧ s₁.trace = s.trace ∧
        s₁.out = s.out ∧ s₁.procBuf = s.procBuf ∧ s₁.lineMarker = s.lineMarker ∧
        isObeyed line = decide (kindOf line ≠ .other))
      (Exits fun s₁ => s₁ = s ∧ settings s = obey fl (settings s) line ∧ isObeyed line = false)
      (execute fl s) := by
  have hkind : kindOf s.procBuf = kindOf line := by rw [hproc, kindOf_padded]
  have hletter : s.procBuf.getD 6 0 = line.getD 6 0 := by rw [hproc, getD_padded]
  have harg : (s.procBuf.take s.lineMarker).drop 7 = line.drop 7 := by
    rw [hproc, hmarker, take_padded]
  unfold execute obey isObeyed
  rw [hkind]
  cases hk : kindOf line with
  | scale =>
    dsimp only
    rw [hletter]
    cases setScale (line.getD 6 0) with
    | none => exact ⟨rfl, rfl, rfl⟩
    | some scale => exact ⟨rfl, rfl, rfl, rfl, rfl, rfl⟩
  | period =>
    have hlength : (line.drop 7).length < 10 := by
      have := hperiod (prefix_of_kindOf ((kindOf_padded line).trans hk))
      rw [List.length_drop]
      omega
    have hnumber : (line.drop 7).takeWhile (· ≠ 0) = line.drop 7 :=
      List.takeWhile_eq_self_iff.mpr fun b hb => by
        simpa using ne_of_mem_of_not_mem (List.mem_of_mem_drop hb) hzero
    dsimp only
    rw [harg, if_pos hlength, hnumber]
    exact ⟨rfl, rfl, rfl, rfl, rfl, rfl⟩
  | stop | start | off | other => exact ⟨rfl, rfl, rfl, rfl, rfl, rfl⟩

lemma processCommand_accounts (h : Accounts P fl st out xs s) (hx : x ∈ xs)
    (hmarker : s.lineMarker = line.length) (hline : s.lineBuf = padded 128 line)
    (hproc : s.procBuf = List.replicate 128 0) (hzero : 0 ∉ line)
    (hperiod : ascii "PERIOD=" <+: line → line.length ≤ 16) :
    Ends (Accounts P fl st out xs) (Exits (Accounts P fl st out xs)) (processCommand P fl x s) := by
  obtain ⟨hcopy, -⟩ := copyLine_eq hmarker hline hproc hzero
  have htrace : (copyLine s).trace = s.trace ++ [.command line (padded 128 line)] := by
    change s.trace ++ [.command (s.lineBuf.take s.lineMarker) (copyLine s).procBuf] = _
    rw [hcopy, hline, hmarker, take_padded]
  refine ends_processCommand
    ((execute_obeys (s := copyLine s) hmarker hcopy hzero hperiod).mono (fun _ h₁ => h₁)
      fun _ hexit => hexit.mono ?_) ?_ (fun _ h₁ _ => report_accounts h₁ hx)
    (fun _ h₁ _ => h₁) fun _ h₁ => h₁.aside rfl rfl rfl
  · rintro s₁ ⟨rfl, hset, hobeyed⟩
    refine h.event htrace hset (fun _ he => nomatch he) fun view lines reports _ => ?_
    simp [Event.text, hobeyed]
    rfl
  · rintro s₁ ⟨hset, htrace₁, hout₁, hproc₁, hmarker₁, hobeyed⟩
    refine h.event (e := .command line (padded 128 line)) ?_ ?_ (fun _ he => nomatch he)
      fun view lines reports hw => ?_
    · rw [← htrace, ← htrace₁]
      unfold logCommand
      split <;> rfl
    · rw [settings_logCommand, hset]
      rfl
    · have hkind : kindOf s₁.procBuf = kindOf line := by rw [hproc₁, hcopy, kindOf_padded]
      have htext : s₁.procBuf.take s₁.lineMarker = line := by
        rw [hproc₁, hcopy, hmarker₁]
        change (padded 128 line).take s.lineMarker = line
        rw [hmarker, take_padded]
      have hout : s₁.out = s.out := hout₁
      unfold logCommand
      rw [hkind, htext]
      by_cases hother : kindOf line = .other
      · rw [if_pos hother, hout]
        simp [Event.text, hobeyed, hother]
      · rw [if_neg hother, hw.log, hout]
        simp [Event.text, hobeyed, hother]

/-! ### Input -/

lemma completeLine_accounts (h : Accounts P fl st out xs s) (hx : x ∈ xs) (he : Editing s)
    (htame : Tame w) (hw : s.consumed ++ [10] <+: w) :
    Ends (Accounts P fl st out xs) (Exits (Accounts P fl st out xs))
      (completeLine P fl x { s with consumed := s.consumed ++ [10] }) := by
  have hread : Accounts P fl st out xs { s with consumed := s.consumed ++ [10] } :=
    h.aside rfl rfl rfl
  have hclear : ∀ s₁, Accounts P fl st out xs s₁ → Accounts P fl st out xs
      { s₁ with lineBuf := memset s₁.lineMarker s₁.lineBuf, lineMarker := 0 } :=
    fun s₁ h₁ => h₁.aside rfl rfl rfl
  refine ends_completeLine (fun _ => hread) (fun hpos => ?_) hclear
  have hne : (edit s.consumed).pending ≠ [] :=
    List.length_pos_iff.mp (he.lineMarker ▸ hpos)
  have hperiod := (htame.of_prefix hw).2 (edit s.consumed).pending
    (by rw [edit_snoc, step_newline he.going hne]; simp)
  exact processCommand_accounts (hread.formatted (ascii "\r")) hx he.lineMarker he.lineBuf
    he.procBuf zero_notMem_pending hperiod

lemma storeByte_accounts (h : Accounts P fl st out xs s) (hx : x ∈ xs) (he : Editing s)
    (htame : Tame w) (hw : s.consumed ++ [b] <+: w) :
    Ends (Accounts P fl st out xs) (Exits (Accounts P fl st out xs)) (storeByte P fl x s b) := by
  have hread : Accounts P fl st out xs { s with consumed := s.consumed ++ [b] } :=
    h.aside rfl rfl rfl
  refine ends_storeByte (fun hdelete => ?_) (fun hnewline => ?_) (fun _ => hread.formatted _)
    (fun _ => ?_) fun _ _ _ _ => hread
  · unfold deleteLast
    split
    · exact h.aside rfl rfl rfl
    · exact hread
  · subst hnewline
    exact completeLine_accounts h hx he htame hw
  · have hlt : s.lineMarker < 128 := by
      have := htame.1 _ ((List.prefix_append _ _).trans hw)
      rw [he.lineMarker]
      omega
    unfold appendByte
    rw [if_pos hlt]
    exact h.aside rfl rfl rfl

/-! ### Passes and runs -/

lemma checkButton_accounts (h : Accounts P fl st out xs s) :
    Ends (Accounts P fl st out xs) (Exits (Accounts P fl st out xs)) (checkButton x s) := by
  refine ends_checkButton h ?_ (h.aside rfl rfl rfl)
  refine h.event (e := .button) rfl rfl (fun _ he => nomatch he) fun _ _ _ _ => ?_
  exact (List.append_nil _).symm

/-- Every part of the main loop keeps the account, next to the editor. -/
lemma walk_accounts (htame : Tame w) : Walk P fl (· ∈ xs) w
    (fun u s => (Editing s ∧ s.consumed = u) ∧ Accounts P fl st out xs s)
    (fun halt => Exits (Stopped w) halt ∧ Exits (Accounts P fl st out xs) halt) where
  receive u s bytes h := ⟨(walk_edits P fl htame).receive u s bytes h.1,
    h.2.congr rfl rfl fun _ _ _ hw => hw.receive _ _⟩
  format u s bytes h := ⟨(walk_edits P fl htame).format u s bytes h.1, h.2.formatted bytes⟩
  startChunk u s hw h := by
    rw [h.1.1.startChunk htame (h.1.2 ▸ hw)]
    exact h
  storeByte u b s x hx hw h := ((walk_edits P fl htame).storeByte u b s x trivial hw h.1).and
    (storeByte_accounts h.2 hx h.1.1 htame (h.1.2 ▸ hw))
  report u s x hx hw h := ((walk_edits P fl htame).report u s x trivial hw h.1).and
    (report_accounts h.2 hx)
  checkButton u s x hw h := ((walk_edits P fl htame).checkButton u s x hw h.1).and
    (checkButton_accounts h.2)

/-- The account of a run. -/
lemma run_accounts {scale : Scale} {period : F} {first : Input F}
    (htame : Tame (xs.flatMap (·.chunk))) (hzero : ∀ x ∈ xs, 0 ∉ x.chunk) :
    Ends (fun s => (Editing s ∧ s.consumed = xs.flatMap (·.chunk)) ∧
        Accounts P fl ⟨scale, period, true, false⟩ out (first :: xs) s)
      (fun halt => Exits (Stopped (xs.flatMap (·.chunk))) halt ∧
        Exits (Accounts P fl ⟨scale, period, true, false⟩ out (first :: xs)) halt)
      (run P fl (initVars scale period out) first xs) := by
  have hstart : Accounts P fl ⟨scale, period, true, false⟩ out (first :: xs)
      (initVars scale period out) := by
    refine ⟨rfl, fun t₁ line t₂ hsplit => ?_, fun _ _ _ _ => (List.append_nil _).symm⟩
    exact absurd hsplit.symm (by simp [initVars])
  rw [← flatMap_bytesRead hzero] at htame ⊢
  exact (walk_accounts htame).run List.mem_cons_self (fun _ => List.mem_cons_of_mem _)
    (List.prefix_refl _) ⟨⟨editing_initVars, rfl⟩, hstart⟩

/-! ### The programs -/

lemma writes_stdout (logging : Bool) :
    Writes (Lab4b.program logging) Lab4b.Out.stdout false true where
  receive _ _ := rfl
  format _ _ := rfl
  log bytes out := (Lab4b.stdout_writeLog logging bytes out).trans (List.append_nil _).symm
  send _ _ _ := Lab4b.stdout_writeLog logging _ _
  sent _ _ _ := rfl

lemma writes_log (logging : Bool) :
    Writes (Lab4b.program logging) Lab4b.Out.log logging logging := by
  cases logging with
  | true => exact ⟨fun _ _ => rfl, fun _ _ => rfl, fun _ _ => rfl, fun _ _ _ => rfl,
      fun _ _ _ => rfl⟩
  | false => exact ⟨fun _ _ => rfl, fun _ _ => rfl, fun _ _ => (List.append_nil _).symm,
      fun _ _ _ => (List.append_nil _).symm, fun _ _ _ => rfl⟩

/-- What there is to know of a state in which these bytes have been read. -/
structure Told (fl : Floats F) (st : Settings F) (xs : List (Input F)) (u : List UInt8)
    (s : St F ω) : Prop where
  handed : handed s.trace = commands u
  set : settings s = settingsAfter fl st s.trace
  explained : ∀ t₁ line t₂, s.trace = t₁ ++ .report line :: t₂ →
    ∃ x ∈ xs, reportOf fl x (settingsAfter fl st t₁) = some line

/-- The standard output has the reports; the log has the reports and the lines obeyed. -/
def Written (logging : Bool) (s : St F Lab4b.Out) : Prop :=
  s.out.stdout = text false true s.trace ∧ s.out.log = text logging logging s.trace

lemma run_told {scale : Scale} {period : F} {first : Input F}
    (htame : Tame (xs.flatMap (·.chunk))) (hzero : ∀ x ∈ xs, 0 ∉ x.chunk) :
    Ends (fun s => Told fl ⟨scale, period, true, false⟩ (first :: xs) (xs.flatMap (·.chunk)) s ∧
        Accounts P fl ⟨scale, period, true, false⟩ out (first :: xs) s)
      (Exits fun s => ∃ u, u <+: xs.flatMap (·.chunk) ∧
        Told fl ⟨scale, period, true, false⟩ (first :: xs) u s ∧
        Accounts P fl ⟨scale, period, true, false⟩ out (first :: xs) s)
      (run P fl (initVars scale period out) first xs) := by
  refine (run_accounts htame hzero).mono ?_ ?_
  · rintro s ⟨⟨he, hconsumed⟩, h⟩
    exact ⟨⟨hconsumed ▸ he.handed, h.set, h.explained⟩, h⟩
  · rintro (⟨status, s⟩ | s) ⟨hstopped, h⟩
    · exact ⟨s.consumed, hstopped.1, ⟨hstopped.2, h.set, h.explained⟩, h⟩
    · exact h

/-- **A session.** What is read goes to the commands line by line, as the editor has it; from
the lines and from the button follow the settings at any time, and from these and from a pass
each report. The program that reads its standard input writes nothing but these: to the standard
output the reports, to the log the reports and the lines obeyed, in the order in which they
happen. -/
theorem session_told (logging : Bool) (fl : Floats F) (scale : Scale) (period : F)
    (studentId : List UInt8) (first : Input F) (xs : List (Input F))
    (htame : Tame (xs.flatMap (·.chunk))) (hzero : ∀ x ∈ xs, 0 ∉ x.chunk) :
    Ends (fun s => Told fl ⟨scale, period, true, false⟩ (first :: xs) (xs.flatMap (·.chunk)) s ∧
        Written logging s)
      (Exits fun s => ∃ u, u <+: xs.flatMap (·.chunk) ∧
        Told fl ⟨scale, period, true, false⟩ (first :: xs) u s ∧ Written logging s)
      (Lab4b.main logging fl scale period first xs) ∧
    Ends (Told fl ⟨.fahrenheit, period, true, false⟩ (first :: xs) (xs.flatMap (·.chunk)))
      (Exits fun s => ∃ u, u <+: xs.flatMap (·.chunk) ∧
        Told fl ⟨.fahrenheit, period, true, false⟩ (first :: xs) u s)
      (Lab4c.main logging fl studentId period first xs) := by
  have hwritten : ∀ s : St F Lab4b.Out, Accounts (Lab4b.program logging) fl
      ⟨scale, period, true, false⟩ ⟨[], [], []⟩ (first :: xs) s → Written logging s :=
    fun s h => ⟨h.written _ _ _ (writes_stdout logging), h.written _ _ _ (writes_log logging)⟩
  constructor
  · refine (run_told htame hzero).mono (fun s h => ⟨h.1, hwritten s h.2⟩) fun _ hhalt =>
      hhalt.mono ?_
    rintro s ⟨u, hu, htold, h⟩
    exact ⟨u, hu, htold, hwritten s h⟩
  · refine (run_told htame hzero).mono (fun _ h => h.1) fun _ hhalt => hhalt.mono ?_
    rintro s ⟨u, hu, htold, -⟩
    exact ⟨u, hu, htold⟩

open Lab4c (hundredths typed session) in
theorem session_told_stopped :
    Ends (fun s => Told hundredths ⟨.fahrenheit, 100, true, false⟩
        (typed [] (by decide) :: session) (session.flatMap (·.chunk)) s ∧ Written true s)
      (Exits fun s => ∃ u, u <+: session.flatMap (·.chunk) ∧
        Told hundredths ⟨.fahrenheit, 100, true, false⟩ (typed [] (by decide) :: session) u s ∧
        Written true s)
      (Lab4b.main true hundredths .fahrenheit 100 (typed [] (by decide)) session) ∧
    Ends (Told hundredths ⟨.fahrenheit, 100, true, false⟩ (typed [] (by decide) :: session)
        (session.flatMap (·.chunk)))
      (Exits fun s => ∃ u, u <+: session.flatMap (·.chunk) ∧
        Told hundredths ⟨.fahrenheit, 100, true, false⟩ (typed [] (by decide) :: session) u s)
      (Lab4c.main true hundredths (ascii "123456789") 100 (typed [] (by decide)) session) :=
  session_told true hundredths .fahrenheit 100 (ascii "123456789") (typed [] (by decide)) session
    (by decide) (by decide)

end LowLevelTasks.SensorSessions
