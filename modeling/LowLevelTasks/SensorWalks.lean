import LowLevelTasks.Outcomes
import LowLevelTasks.SensorProgram

/-!
The way through a sensor program, for any property of its states. Each function has one rule,
which asks only for what the function itself does; and a property that reports, bytes and the
button keep is kept by chunks, passes and runs.
-/

namespace LowLevelTasks.SensorWalks

open LowLevelTasks.Buffers LowLevelTasks.Outcomes LowLevelTasks.SensorProgram

variable {F ω : Type} {P : Program ω} {fl : Floats F} {x : Input F} {s : St F ω} {b : UInt8}
variable {p p₀ p₁ p₂ : St F ω → Prop} {q : Halt F ω → Prop}

/-! ### Reports -/

/-- The state behind a line that is sent. -/
def reported (P : Program ω) (x : Input F) (line : ReportLine) (s : St F ω) : St F ω :=
  format P (ascii "\r") ({ s with out := (P.send x.hostUp line s.out).1 }.event (.report line))

/-- What has to hold behind a report: an interrupted program ends there. -/
def Continues (p : St F ω → Prop) (q : Halt F ω → Prop) (s : St F ω) : Prop :=
  (s.interrupt = true → q (.exit 0 s)) ∧ (¬ s.interrupt = true → p s)

lemma ends_sendReport {line : ReportLine} (hsent : p (reported P x line s))
    (hfail : (P.send x.hostUp line s.out).2 = false → q (.exit 2 (reported P x line s))) :
    Ends p q (sendReport P x line s) :=
  Ends.ite (fun _ => hsent) fun hnot => hfail (by simpa using hnot)

lemma ends_report (hnone : q (.exit 1 s))
    (hshutdown : s.interrupt = true →
      Ends (Continues p q) q (sendReport P x (.shutdown x.time) s))
    (htemperature : ¬ s.interrupt = true → s.generateReports = true → Ends (Continues p q) q
      (sendReport P x (.temperature x.time (fl.temperatureText x.sensor s.scale)) s))
    (hsilent : ¬ s.interrupt = true → p s) : Ends p q (report P fl x s) := by
  have hend : ∀ s₁, Continues p q s₁ → Ends p q
      (if s₁.interrupt then Except.error (Halt.exit 0 s₁) else Except.ok s₁) :=
    fun s₁ h₁ => Ends.ite h₁.1 h₁.2
  refine Ends.ite (fun _ => hnone) fun _ => Ends.ite (fun hi => ?_) fun hi =>
    Ends.ite (fun hg => ?_) fun _ => hend s ⟨fun hc => absurd hc hi, fun _ => hsilent hi⟩
  · exact (hshutdown hi).bind hend
  · exact (htemperature hi hg).bind hend

/-! ### Commands and bytes -/

lemma ends_processCommand (hexecute : Ends p₀ q (execute fl (copyLine s)))
    (hlog : ∀ s₁, p₀ s₁ → p₁ (logCommand P s₁))
    (hreport : ∀ s₁, p₁ s₁ → s₁.interrupt = true → Ends p₂ q (report P fl x s₁))
    (hsilent : ∀ s₁, p₁ s₁ → ¬ s₁.interrupt = true → p₂ s₁)
    (hclear : ∀ s₁, p₂ s₁ → p { s₁ with procBuf := memset s₁.lineMarker s₁.procBuf }) :
    Ends p q (processCommand P fl x s) :=
  hexecute.bind fun s₁ h₁ => Ends.ite (fun hi => (hreport _ (hlog s₁ h₁) hi).bind hclear)
    fun hi => hclear _ (hsilent _ (hlog s₁ h₁) hi)

lemma ends_completeLine (hempty : s.lineMarker = 0 → p s)
    (hline : 0 < s.lineMarker → Ends p₀ q (processCommand P fl x (format P (ascii "\r") s)))
    (hclear : ∀ s₁, p₀ s₁ →
      p { s₁ with lineBuf := memset s₁.lineMarker s₁.lineBuf, lineMarker := 0 }) :
    Ends p q (completeLine P fl x s) :=
  Ends.ite (fun hpos => (hline hpos).bind hclear) fun hnot => hempty (Nat.eq_zero_of_not_pos hnot)

lemma ends_storeByte (hdelete : b = 127 → p (deleteLast { s with consumed := s.consumed ++ [b] }))
    (hnewline : b = 10 →
      Ends p q (completeLine P fl x { s with consumed := s.consumed ++ [b] }))
    (hend : b = 3 →
      q (.exit 2 (format P (ascii "\r") { s with consumed := s.consumed ++ [b] })))
    (happend : 32 ≤ b ∧ b ≤ 126 → Ends p q (appendByte b { s with consumed := s.consumed ++ [b] }))
    (hother : b ≠ 127 → b ≠ 10 → b ≠ 3 → ¬ (32 ≤ b ∧ b ≤ 126) →
      p { s with consumed := s.consumed ++ [b] }) : Ends p q (storeByte P fl x s b) :=
  Ends.ite hdelete fun h127 => Ends.ite hnewline fun h10 => Ends.ite hend fun h3 =>
    Ends.ite happend fun hvisible => hother h127 h10 h3 hvisible

lemma ends_checkButton (hfail : q (.exit 1 s))
    (hpressed : p ({ s with pressed := true, interrupt := true }.event .button))
    (hreleased : p { s with pressed := false }) : Ends p q (checkButton x s) := by
  unfold checkButton
  split
  · exact hfail
  · exact hpressed
  · exact hreleased

/-! ### Passes and runs -/

/-- The bytes of a chunk that counts. -/
def bytesRead (x : Input F) : List UInt8 := if x.chunk.head? = some 0 then [] else x.chunk

/-- What the parts of the main loop keep: `p` holds of the states in which these bytes have been
read, which are a part of `w`, if what the passes find is `ok`. -/
structure Walk (P : Program ω) (fl : Floats F) (ok : Input F → Prop) (w : List UInt8)
    (p : List UInt8 → St F ω → Prop) (q : Halt F ω → Prop) : Prop where
  receive : ∀ u s bytes, p u s → p u { s with out := P.receive bytes s.out }
  format : ∀ u s bytes, p u s → p u (format P bytes s)
  startChunk : ∀ u s, u <+: w → p u s → p u (startChunk s)
  storeByte : ∀ u b s x, ok x → u ++ [b] <+: w → p u s →
    Ends (p (u ++ [b])) q (storeByte P fl x s b)
  report : ∀ u s x, ok x → u <+: w → p u s → Ends (p u) q (report P fl x s)
  checkButton : ∀ u s x, u <+: w → p u s → Ends (p u) q (checkButton x s)

section

variable {ok : Input F → Prop} {w u : List UInt8} {p : List UInt8 → St F ω → Prop}

lemma Walk.storeBuffer (h : Walk P fl ok w p q) (hx : ok x) {chunk : List UInt8}
    (hw : u ++ chunk <+: w) (hs : p u s) :
    Ends (p (u ++ chunk)) q (storeBuffer P fl x s chunk) := by
  have hstart := h.startChunk u s ((List.prefix_append _ _).trans hw) hs
  refine ends_foldlM (p := fun done => p (u ++ done)) ?_ (by rwa [List.append_nil])
  rintro done b rest rfl s₁ h₁
  have hw₁ : (u ++ done) ++ [b] <+: w := List.IsPrefix.trans ⟨rest, by simp⟩ hw
  rw [← List.append_assoc]
  exact h.storeByte _ b s₁ x hx hw₁ h₁

lemma Walk.readInput (h : Walk P fl ok w p q) (hx : ok x) (hw : u ++ bytesRead x <+: w)
    (hs : p u s) : Ends (p (u ++ bytesRead x)) q (readInput P fl x s) := by
  have hreceive := h.receive u s x.chunk hs
  refine Ends.ite (fun _ => (h.storeBuffer hx hw hreceive).bind fun s₁ h₁ =>
    h.format _ s₁ _ h₁) fun hnot => ?_
  have hnil : bytesRead x = [] := List.eq_nil_of_length_eq_zero (Nat.eq_zero_of_not_pos hnot)
  rw [hnil, List.append_nil]
  exact hreceive

lemma Walk.writeReport (h : Walk P fl ok w p q) (hx : ok x) (hw : u <+: w) (hs : p u s) :
    Ends (p u) q (writeReport P fl x s) :=
  h.report u _ x hx hw (h.format u s _ hs)

lemma Walk.checkTimers (h : Walk P fl ok w p q) (hx : ok x) (hw : u <+: w) (hs : p u s) :
    Ends (p u) q (checkTimers P fl x s) := by
  have hinput : p u (if fl.ge x.inputElapsed fl.responsiveness then writeInput P s else s) := by
    split
    · exact h.format u s _ hs
    · exact hs
  exact Ends.ite (fun _ => (h.writeReport hx hw hinput).bind fun s₁ h₁ => h.format u s₁ _ h₁)
    fun _ => hinput

/-- **One pass** of the main loop. -/
theorem Walk.pass (h : Walk P fl ok w p q) (hx : ok x) (hw : u ++ bytesRead x <+: w)
    (hs : p u s) : Ends (p (u ++ bytesRead x)) q (pass P fl x s) :=
  (h.readInput hx hw hs).bind fun s₁ h₁ =>
    (h.checkButton _ s₁ x hw h₁).bind fun _ h₂ => h.checkTimers hx hw h₂

/-- **The main loop.** -/
theorem Walk.passes {xs : List (Input F)} (h : Walk P fl ok w p q) (hxs : ∀ x ∈ xs, ok x)
    (hw : u ++ xs.flatMap bytesRead <+: w) (hs : p u s) :
    Ends (p (u ++ xs.flatMap bytesRead)) q
      (xs.foldlM (fun s x => SensorProgram.pass P fl x s) s) := by
  refine ends_foldlM (p := fun (done : List (Input F)) => p (u ++ done.flatMap bytesRead)) ?_
    (by rwa [List.flatMap_nil, List.append_nil])
  rintro done x rest rfl s₁ h₁
  have hw₁ : (u ++ done.flatMap bytesRead) ++ bytesRead x <+: w :=
    List.IsPrefix.trans ⟨rest.flatMap bytesRead, by simp⟩ hw
  rw [List.flatMap_append, List.flatMap_singleton, ← List.append_assoc]
  exact h.pass (hxs x (by simp)) hw₁ h₁

/-- **A run**, from the first report on. -/
theorem Walk.run {first : Input F} {xs : List (Input F)} (h : Walk P fl ok w p q)
    (hfirst : ok first) (hxs : ∀ x ∈ xs, ok x) (hw : xs.flatMap bytesRead <+: w) (hs : p [] s) :
    Ends (p (xs.flatMap bytesRead)) q (run P fl s first xs) :=
  (h.writeReport hfirst List.nil_prefix hs).bind fun _ h₁ => h.passes hxs hw h₁

lemma flatMap_bytesRead {xs : List (Input F)} (hzero : ∀ x ∈ xs, 0 ∉ x.chunk) :
    xs.flatMap bytesRead = xs.flatMap (·.chunk) :=
  List.flatMap_congr fun x hx => if_neg fun hhead => hzero x hx (List.mem_of_head? hhead)

end

end LowLevelTasks.SensorWalks
