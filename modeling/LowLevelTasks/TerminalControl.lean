import LowLevelTasks.Lab1a
import Mathlib.Algebra.Ring.Nat

/-!
Who controls the session of project 1a.

The branches for ^C and ^D do not ask where the byte comes from. As long as the shell prints
neither of them only the keyboard interrupts or ends the session, and everything the shell
prints is shown.
-/

namespace LowLevelTasks.TerminalControl

open LowLevelTasks.Runs LowLevelTasks.Lab1a
open LowLevelTasks.PollLoop (Revents Result)

/-! ### What is asked of the calls -/

def Controls : Action → Prop
  | .kill | .shellStatus | .exit => True
  | .writeTerminal _ | .writeShell _ => False

instance : DecidablePred Controls := fun a => by
  cases a <;> unfold Controls <;> infer_instance

/-- A byte of the shell is written to the terminal as it is. -/
def ShownAsIs (c : Call) : Prop :=
  ∀ b, c.cause = .byte .shell b → b ≠ 13 → b ≠ 10 → c.action = .writeTerminal [b]

/-- The control actions of the loop over the bytes. -/
def control : Event → Option Action
  | .call ⟨.byte _ _, a⟩ _ => if Controls a then some a else none
  | _ => none

def controls (es : List Event) : List Action := es.filterMap control

def Event.input (n : Source) : Event → List UInt8
  | .read n' buf => if n' = n then buf else []
  | _ => []

/-- The bytes that are read from `n`. -/
def inputOf (n : Source) (es : List Event) : List UInt8 := es.flatMap (Event.input n)

/-- What a call writes to the terminal for a byte of the shell. -/
def Call.shown : Call → List UInt8
  | ⟨.byte .shell _, .writeTerminal buf⟩ => buf
  | _ => []

def Event.shown : Event → List UInt8
  | .call c _ => Call.shown c
  | _ => []

/-- What is written to the terminal for the bytes of the shell. -/
def shellOutput (es : List Event) : List UInt8 := es.flatMap Event.shown

/-- The end of a line is written with both characters. -/
def translate (b : UInt8) : List UInt8 := if b = 13 ∨ b = 10 then [13, 10] else [b]

/-- The shell prints neither ^C nor ^D. -/
def Quiet (es : List Event) : Prop := 3 ∉ inputOf .shell es ∧ 4 ∉ inputOf .shell es

/-- What a run is to look like that ends in `p`. -/
structure KeyboardOnly (es : List Event) (p : Proc) : Prop where
  interrupt : ∀ c r, .call c r ∈ es → c.action = .kill → c.cause = .byte .keyboard 3
  leave : ∀ c r n b, .call c r ∈ es → c.cause = .byte n b →
    c.action = .shellStatus ∨ c.action = .exit → n = .keyboard ∧ b = 4
  shown : ∀ c r, .call c r ∈ es → ShownAsIs c
  output : p.phase ≠ .exited → p.calls = [] →
    shellOutput es = (inputOf .shell es).flatMap translate

variable {passShell : Bool} {p p' : Proc} {es : List Event}

@[simp] lemma inputOf_nil (n : Source) : inputOf n [] = [] := rfl

lemma inputOf_cons (n : Source) (e : Event) (es : List Event) :
    inputOf n (e :: es) = Event.input n e ++ inputOf n es := List.flatMap_cons

lemma mem_inputOf {n : Source} {buf : List UInt8} {b : UInt8} (h : .read n buf ∈ es)
    (hb : b ∈ buf) : b ∈ inputOf n es :=
  List.mem_flatMap.mpr ⟨_, h, by rwa [Event.input, if_pos rfl]⟩

/-! ### One byte -/

lemma mem_readCalls {n : Source} {buf : List UInt8} {c : Call} :
    c ∈ readCalls passShell n buf ↔ ∃ b ∈ buf, c.cause = .byte n b ∧
      c.action ∈ handleInput passShell n b := by
  obtain ⟨cause, action⟩ := c
  simp only [readCalls, List.mem_flatMap, List.mem_map, Call.mk.injEq]
  constructor
  · rintro ⟨b, hb, a, ha, rfl, rfl⟩
    exact ⟨b, hb, rfl, ha⟩
  · rintro ⟨b, hb, rfl, ha⟩
    exact ⟨b, hb, action, ha, rfl, rfl⟩

/-- A byte of the shell that does not control the session is shown. -/
lemma handleInput_shell {b : UInt8} (h3 : b ≠ 3) (h4 : b ≠ 4) :
    handleInput passShell .shell b = [.writeTerminal (translate b)] := by
  by_cases hnl : b = 13 ∨ b = 10
  · simp [handleInput, translate, hnl]
  · by_cases h127 : b = 127
    · subst h127
      rfl
    · simp [handleInput, translate, hnl, h3, h4, h127]

lemma handleInput_interrupt (n : Source) : handleInput passShell n 3 =
    .writeTerminal [94, 67] :: if passShell then [.kill] else [] := rfl

lemma handleInput_leave (n : Source) : handleInput passShell n 4 =
    [.writeTerminal [94, 68], if passShell then .shellStatus else .exit] := rfl

/-- The bytes that control the session. -/
lemma controls_handleInput {n : Source} {b : UInt8} {a : Action}
    (ha : a ∈ handleInput passShell n b) (hc : Controls a) :
    a = .kill ∧ b = 3 ∨ (a = .shellStatus ∨ a = .exit) ∧ b = 4 := by
  by_cases h3 : b = 3
  · subst h3
    rw [handleInput_interrupt] at ha
    cases passShell with
    | false =>
      obtain rfl : a = .writeTerminal [94, 67] := by simpa using ha
      exact hc.elim
    | true =>
      obtain rfl | rfl : a = .writeTerminal [94, 67] ∨ a = .kill := by simpa using ha
      · exact hc.elim
      · exact .inl ⟨rfl, rfl⟩
  by_cases h4 : b = 4
  · subst h4
    rw [handleInput_leave] at ha
    rcases List.mem_cons.mp ha with rfl | ha
    · exact hc.elim
    · refine .inr ⟨?_, rfl⟩
      cases passShell with
      | false => exact .inr (by simpa using ha)
      | true => exact .inl (by simpa using ha)
  · -- all other bytes are only written
    have hwrite : ∀ a ∈ handleInput passShell n b, ¬ Controls a := by
      unfold handleInput
      split_ifs <;> simp [Controls]
    exact absurd hc (hwrite a ha)

/-! ### The calls of a run -/

/-- What is known of a call: it obeys the keyboard, and its byte was read. -/
structure Known (es : List Event) (c : Call) : Prop where
  control : ∀ n b, c.cause = .byte n b → Controls c.action →
    n = .keyboard ∧ (c.action = .kill ∧ b = 3 ∨
      (c.action = .shellStatus ∨ c.action = .exit) ∧ b = 4)
  shown : ShownAsIs c
  origin : ∀ n b, c.cause = .byte n b → b ∈ inputOf n es
  kill : c.action = .kill → ∃ n b, c.cause = .byte n b

lemma known_read (hq : Quiet es) {n : Source} {buf : List UInt8} (h : .read n buf ∈ es) {c : Call}
    (hc : c ∈ readCalls passShell n buf) : Known es c := by
  obtain ⟨b, hb, hcause, haction⟩ := mem_readCalls.mp hc
  have hmem := mem_inputOf h hb
  have hsame : ∀ n' b', c.cause = .byte n' b' → n' = n ∧ b' = b := fun n' b' h' => by
    rw [hcause, Cause.byte.injEq] at h'
    exact ⟨h'.1.symm, h'.2.symm⟩
  have hplain : n = .shell → b ≠ 3 ∧ b ≠ 4 := by
    rintro rfl
    exact ⟨fun h3 => hq.1 (h3 ▸ hmem), fun h4 => hq.2 (h4 ▸ hmem)⟩
  refine ⟨fun n' b' h' hcontrols => ?_, fun b' h' h13 h10 => ?_, fun n' b' h' => ?_,
    fun _ => ⟨n, b, hcause⟩⟩
  · obtain ⟨rfl, rfl⟩ := hsame n' b' h'
    have hbyte := controls_handleInput haction hcontrols
    refine ⟨?_, hbyte⟩
    cases n' with
    | keyboard => rfl
    | shell =>
      obtain ⟨h3, h4⟩ := hplain rfl
      exact absurd hbyte (by simp [h3, h4])
  · obtain ⟨rfl, rfl⟩ := hsame .shell b' h'
    obtain ⟨h3, h4⟩ := hplain rfl
    rw [handleInput_shell h3 h4, List.mem_singleton] at haction
    rw [haction, translate, if_neg (not_or.mpr ⟨h13, h10⟩)]
  · obtain ⟨rfl, rfl⟩ := hsame n' b' h'
    exact hmem

lemma known_end {cause : Cause} (h : ∀ n b, cause ≠ .byte n b) : Known es ⟨cause, .shellStatus⟩ :=
  ⟨fun n b hb => absurd hb (h n b), fun b hb => absurd hb (h _ b),
    fun n b hb => absurd hb (h n b), fun hk => by cases hk⟩

lemma known_of_run (h : run (step passShell) .init es = some p) (hq : Quiet es) (c : Call)
    (r : Result) (hc : .call c r ∈ es) : Known es c :=
  forall_call_of_run (fun _ _ hread _ hc => known_read hq hread hc) (fun _ => known_end)
    (by simp [Proc.init]) h c r hc

/-- A keyboard without ^C and ^D has the loop take no control action. -/
lemma controls_eq_nil (h : run (step passShell) .init es = some p) (hq : Quiet es)
    (h3 : 3 ∉ inputOf .keyboard es) (h4 : 4 ∉ inputOf .keyboard es) : controls es = [] := by
  rw [controls, List.filterMap_eq_nil_iff]
  intro e he
  cases e with
  | poll | read | pass => rfl
  | call c r =>
    obtain ⟨cause, action⟩ := c
    cases cause with
    | hangup | sigpipe => rfl
    | byte n b =>
      have hknown := known_of_run h hq _ r he
      refine if_neg fun hcontrols => ?_
      obtain ⟨rfl, ⟨-, rfl⟩ | ⟨-, rfl⟩⟩ := hknown.control n b rfl hcontrols
      · exact h3 (hknown.origin _ _ rfl)
      · exact h4 (hknown.origin _ _ rfl)

/-! ### What is shown -/

def pending (p : Proc) : List UInt8 := p.calls.flatMap Call.shown

/-- The session has ended, or nothing else is left to do. -/
def Leaving (p : Proc) : Prop :=
  p.phase = .exited ∧ p.calls = [] ∨ ∃ cause, p.calls = [⟨cause, .shellStatus⟩]

lemma leaving_step {e : Event} (hp : Leaving p) (h : step passShell p e = some p') :
    Leaving p' := by
  have hidle : p.calls = [] → p.phase = .exited := fun hnil => by
    rcases hp with ⟨hphase, -⟩ | ⟨cause, hcalls⟩
    · exact hphase
    · simp [hnil] at hcalls
  cases moves_of_step h with
  | quiet _ before phase | read _ _ before phase | pass _ _ before phase =>
    exact absurd ((hidle before).symm.trans phase) (by simp)
  | done c r rest before stays after =>
    rcases hp with ⟨-, hcalls⟩ | ⟨cause, hcalls⟩
    · simp [before] at hcalls
    · obtain ⟨rfl, -⟩ := List.cons_eq_cons.mp (before.symm.trans hcalls)
      exact absurd rfl stays
  | gone c r rest before after => exact .inl (after ▸ ⟨rfl, rfl⟩)
  | broken c r rest before after => exact .inr ⟨.sigpipe, after ▸ rfl⟩

lemma leaving_run (hp : Leaving p) (h : run (step passShell) p es = some p') : Leaving p' :=
  invariant (fun _ _ _ => leaving_step) hp h

lemma shown_readCalls_keyboard (buf : List UInt8) :
    (readCalls passShell .keyboard buf).flatMap Call.shown = [] := by
  rw [List.flatMap_eq_nil_iff]
  rintro ⟨cause, action⟩ hc
  obtain ⟨b, -, hcause, -⟩ := mem_readCalls.mp hc
  obtain rfl : cause = .byte .keyboard b := hcause
  rfl

lemma shown_readCalls_shell {buf : List UInt8} (h3 : 3 ∉ buf) (h4 : 4 ∉ buf) :
    (readCalls passShell .shell buf).flatMap Call.shown = buf.flatMap translate := by
  rw [readCalls, List.flatMap_assoc]
  refine List.flatMap_congr fun b hb => ?_
  rw [handleInput_shell (ne_of_mem_of_not_mem hb h3) (ne_of_mem_of_not_mem hb h4)]
  simp [Call.shown]

/-- A step that does not end the session writes what it takes from the pending bytes. -/
lemma shown_step {e : Event} (h3 : 3 ∉ Event.input .shell e) (h4 : 4 ∉ Event.input .shell e)
    (h : step passShell p e = some p') : Leaving p' ∨
      Event.shown e ++ pending p' = pending p ++ (Event.input .shell e).flatMap translate := by
  cases moves_of_step h with
  | quiet revents before phase after =>
    right
    simp [after, pending, Event.shown, Event.input]
  | read n buf before phase after =>
    right
    have hnone : Event.shown (.read n buf) = [] := rfl
    rw [after, pending, pending, before, List.flatMap_nil, List.nil_append, hnone,
      List.nil_append]
    cases n with
    | keyboard => exact shown_readCalls_keyboard buf
    | shell => exact shown_readCalls_shell h3 h4
  | pass n calls before phase hcalls after =>
    obtain rfl | rfl := hcalls
    · right
      simp [after, pending, before, Event.shown, Event.input]
    · exact .inl (.inr ⟨.hangup n, after ▸ rfl⟩)
  | done c r rest before stays after =>
    right
    simp [after, pending, before, Event.shown, Event.input]
  | gone c r rest before after => exact .inl (.inl (after ▸ ⟨rfl, rfl⟩))
  | broken c r rest before after => exact .inl (.inr ⟨.sigpipe, after ▸ rfl⟩)

lemma shown_run (hq : Quiet es) (h : run (step passShell) p es = some p') : Leaving p' ∨
    shellOutput es ++ pending p' = pending p ++ (inputOf .shell es).flatMap translate := by
  induction es generalizing p with
  | nil =>
    obtain rfl : p = p' := Option.some.inj h
    right
    simp [shellOutput]
  | cons e es ih =>
    obtain ⟨q, hq', hrest⟩ := run_cons_some h
    rw [Quiet, inputOf_cons, List.mem_append, List.mem_append, not_or, not_or] at hq
    rcases shown_step hq.1.1 hq.2.1 hq' with hleave | hstep
    · exact .inl (leaving_run hleave hrest)
    · refine (ih ⟨hq.1.2, hq.2.2⟩ hrest).imp_right fun htail => ?_
      rw [shellOutput, List.flatMap_cons, List.append_assoc, ← shellOutput, htail,
        ← List.append_assoc, hstep, inputOf_cons, List.flatMap_append, List.append_assoc]

lemma keyboardOnly_of_quiet (h : run (step passShell) .init es = some p) (hq : Quiet es) :
    KeyboardOnly es p := by
  refine ⟨fun c r hc hkill => ?_, fun c r n b hc hcause hleave => ?_,
    fun c r hc => (known_of_run h hq c r hc).shown, fun hphase hcalls => ?_⟩
  · have hknown := known_of_run h hq c r hc
    obtain ⟨n, b, hcause⟩ := hknown.kill hkill
    obtain ⟨rfl, ⟨-, rfl⟩ | ⟨hother, -⟩⟩ := hknown.control n b hcause (by rw [hkill]; trivial)
    · exact hcause
    · simp [hkill] at hother
  · have hcontrols : Controls c.action := by rcases hleave with h | h <;> rw [h] <;> trivial
    obtain ⟨hn, ⟨hkill, -⟩ | ⟨-, hb⟩⟩ := (known_of_run h hq c r hc).control n b hcause hcontrols
    · simp [hkill] at hleave
    · exact ⟨hn, hb⟩
  · rcases shown_run hq h with (⟨hexit, -⟩ | ⟨cause, hleave⟩) | hshown
    · exact absurd hexit hphase
    · simp [hcalls] at hleave
    · simpa [pending, hcalls, Proc.init] using hshown

/-! ### A shell that takes control -/

/-- The shell is only polled when there is one. -/
lemma passShell_of_run (h : run (step passShell) .init es = some p)
    (hphase : p.phase = .input .shell) : passShell = true := by
  refine invariant (P := fun p => p.phase = .input .shell → passShell = true) ?_ ?_ h hphase
  · intro q e q' hq hstep hphase
    cases moves_of_step hstep with
    | quiet _ _ _ after => simp [after] at hphase
    | read n _ _ _ after | pass n _ _ _ _ after =>
      rw [after] at hphase
      cases n with
      | keyboard => simpa [nextPhase] using hphase
      | shell => simp [nextPhase] at hphase
    | done _ _ _ _ _ after | broken _ _ _ _ after => exact hq (by simpa [after] using hphase)
    | gone _ _ _ _ after => simp [after, Proc.exit] at hphase
  · simp [Proc.init]

lemma exists_first {buf : List UInt8} (h : 3 ∈ buf ∨ 4 ∈ buf) :
    ∃ before b after, buf = before ++ b :: after ∧ (b = 3 ∨ b = 4) ∧
      ∀ c ∈ before, c ≠ 3 ∧ c ≠ 4 := by
  induction buf with
  | nil => simp at h
  | cons b buf ih =>
    by_cases hb : b = 3 ∨ b = 4
    · exact ⟨[], b, buf, rfl, hb, by simp⟩
    · have hrest : 3 ∈ buf ∨ 4 ∈ buf := by
        rw [not_or] at hb
        simpa [Ne.symm hb.1, Ne.symm hb.2] using h
      obtain ⟨before, c, after, rfl, hc, hbefore⟩ := ih hrest
      exact ⟨b :: before, c, after, rfl, hc, List.forall_mem_cons.mpr ⟨not_or.mp hb, hbefore⟩⟩

lemma readCalls_stay {buf : List UInt8} (h : ∀ b ∈ buf, b ≠ 3 ∧ b ≠ 4) :
    ∀ c ∈ readCalls passShell .shell buf, c.action ≠ .shellStatus ∧ c.action ≠ .exit := by
  intro c hc
  obtain ⟨b, hb, -, haction⟩ := mem_readCalls.mp hc
  rw [handleInput_shell (h b hb).1 (h b hb).2, List.mem_singleton] at haction
  rw [haction]
  exact ⟨by simp, by simp⟩

/-- The first ^C or ^D in what the shell prints is obeyed. -/
lemma obeys_shell {buf : List UInt8} {q : Proc}
    (hread : step true p (.read .shell buf) = some q) (hbuf : 3 ∈ buf ∨ 4 ∈ buf) :
    ∃ es' q' c, run (step true) q es' = some q' ∧ .call c .ok ∈ es' ∧
      (c = ⟨.byte .shell 3, .kill⟩ ∨ c = ⟨.byte .shell 4, .shellStatus⟩) := by
  obtain ⟨before, b, after, rfl, hb, hbefore⟩ := exists_first hbuf
  have hq : q.calls = readCalls true .shell before ++
      ((handleInput true .shell b).map fun a => ⟨.byte .shell b, a⟩) ++
        readCalls true .shell after := by
    cases moves_of_step hread with
    | read n buf _ _ hafter => simp [hafter, readCalls]
  have hstay := @readCalls_stay true _ hbefore
  obtain rfl | rfl := hb
  · -- the signal is sent, and the loop goes on
    rw [handleInput_interrupt] at hq
    refine ⟨_, _, ⟨.byte .shell 3, .kill⟩, run_calls _ _ hq ?_, by simp, .inl rfl⟩
    intro c hc
    rcases List.mem_append.mp hc with hc | hc
    · exact hstay c hc
    · obtain rfl | rfl : c = ⟨.byte .shell 3, .writeTerminal [94, 67]⟩ ∨
        c = ⟨.byte .shell 3, .kill⟩ := by simpa using hc
      · exact ⟨by simp, by simp⟩
      · exact ⟨by simp, by simp⟩
  · -- the session ends with the call
    rw [handleInput_leave] at hq
    set last : Call := ⟨.byte .shell 4, .shellStatus⟩
    have hsplit : q.calls = (readCalls true .shell before ++
        [⟨.byte .shell 4, .writeTerminal [94, 68]⟩]) ++
          (last :: readCalls true .shell after) := by
      rw [hq]
      simp [last]
    have hrun := @run_calls true q _ _ hsplit fun c hc => by
      rcases List.mem_append.mp hc with hc | hc
      · exact hstay c hc
      · obtain rfl := List.mem_singleton.mp hc
        exact ⟨by simp, by simp⟩
    have hlast : step true { q with calls := last :: readCalls true .shell after }
        (.call last .ok) = some q.exit := by
      simp [step, callStep, last, Proc.exit]
    have hall := (run_append_of_run hrun [.call last .ok]).trans (run_cons_of_step hlast [])
    exact ⟨_, _, last, hall, by simp, .inr rfl⟩

/-! ### The result -/

/-- **When only the keyboard controls the session.** In every run in which the shell prints
neither ^C nor ^D it does, and two such runs with the same keyboard input, without these two
characters, take the same control actions; a shell that prints one of them is obeyed. -/
theorem keyboardOnly_unless_shell (h : run (step passShell) .init es = some p) (hq : Quiet es) :
    KeyboardOnly es p ∧
    (∀ es' p', run (step passShell) .init es' = some p' → Quiet es' →
      inputOf .keyboard es' = inputOf .keyboard es → 3 ∉ inputOf .keyboard es →
      4 ∉ inputOf .keyboard es → controls es' = controls es) ∧
    ∀ buf q, step passShell p (.read .shell buf) = some q → 3 ∈ buf ∨ 4 ∈ buf →
      ∃ es' q' c, run (step passShell) q es' = some q' ∧ .call c .ok ∈ es' ∧
        (c = ⟨.byte .shell 3, .kill⟩ ∨ c = ⟨.byte .shell 4, .shellStatus⟩) := by
  refine ⟨keyboardOnly_of_quiet h hq, fun es' p' h' hq' hkeys h3 h4 => ?_,
    fun buf q hread hbuf => ?_⟩
  · rw [controls_eq_nil h hq h3 h4, controls_eq_nil h' hq' (hkeys ▸ h3) (hkeys ▸ h4)]
  · have hphase : p.phase = .input .shell := by
      cases moves_of_step hread with
      | read _ _ _ phase _ => exact phase
    obtain rfl := passShell_of_run h hphase
    exact obeys_shell hread hbuf

/-- What `poll` reports: input on the two descriptors. -/
def revents (keyboard shell : Bool) : Source → Revents
  | .keyboard => ⟨keyboard, false, false⟩
  | .shell => ⟨shell, false, false⟩

/-- The shell prints a letter while ^C is typed. -/
def interrupted : List Event :=
  [.poll (revents true true), .read .keyboard [3],
    .call ⟨.byte .keyboard 3, .writeTerminal [94, 67]⟩ .ok, .call ⟨.byte .keyboard 3, .kill⟩ .ok,
    .read .shell [97], .call ⟨.byte .shell 97, .writeTerminal [97]⟩ .ok]

theorem keyboardOnly_unless_shell_sample :
    ∃ p, run (step true) .init interrupted = some p ∧ KeyboardOnly interrupted p :=
  ⟨_, rfl, (@keyboardOnly_unless_shell true _ _ rfl ⟨by decide, by decide⟩).1⟩

/-- Nothing is typed, and a ^D that the shell prints ends the session. -/
def printed : List Event :=
  [.poll (revents false true), .pass .keyboard, .read .shell [4],
    .call ⟨.byte .shell 4, .writeTerminal [94, 68]⟩ .ok, .call ⟨.byte .shell 4, .shellStatus⟩ .ok]

theorem shell_ends_session : ∃ p, run (step true) .init printed = some p ∧
    p.phase = .exited ∧ ¬ KeyboardOnly printed p :=
  ⟨_, rfl, rfl, fun h => absurd (h.leave ⟨.byte .shell 4, .shellStatus⟩ .ok .shell 4
    (by simp [printed]) rfl (.inl rfl)).1 (by decide)⟩

end LowLevelTasks.TerminalControl
