import LowLevelTasks.PollInputs
import LowLevelTasks.Runs

/-!
The loop of `poll_inputs`, one system call at a time.

The environment answers the calls: what `poll` reports, what `read` returns, whether a write
succeeds. An event is a call with its answer, and the process is a partial function of its
state and the next event.
-/

namespace LowLevelTasks.PollLoop

open LowLevelTasks.Encryption LowLevelTasks.PollInputs

structure Revents where
  pollin : Bool
  pollhup : Bool
  pollerr : Bool

/-- Where the process is once the calls for the last buffer are made: at the top of the loop,
or about to look at an input. -/
inductive Phase
  | top
  | input (n : Input)
  | exited
  deriving DecidableEq

structure Proc where
  phase : Phase
  revents : Input → Revents
  exitTriggered : Bool
  calls : List Action

inductive Result
  | ok | sigpipe | error
  deriving DecidableEq

inductive Event
  /-- The client shuts down at the top of the loop. -/
  | leave
  | poll (revents : Input → Revents)
  | read (n : Input) (buf : List UInt8)
  | readError (n : Input)
  /-- No input is pending on the descriptor. -/
  | pass (n : Input)
  | call (a : Action) (r : Result)

def Proc.init : Proc := ⟨.top, fun _ => ⟨false, false, false⟩, false, []⟩

def Proc.exit (p : Proc) : Proc := { p with phase := .exited, calls := [] }

def nextPhase : Input → Phase
  | .initial => .input .redirect
  | .redirect => .top

variable {m : ℕ} (key : Key m) (role : Role)

/-- The first of the pending calls, with its result. -/
def callStep (p : Proc) (a : Action) (rest : List Action) : Result → Option Proc
  | .ok =>
    match a with
    | .initiateShutdown => some p.exit
    | _ => some { p with calls := rest }
  | .sigpipe =>
    match a with
    | .write .. | .writeToSocket .. => some { p with calls := sighandler role }
    | _ => none
  | .error =>
    match a with
    | .write .. => some { p with calls := rest }
    | .writeToSocket .. | .kill => some p.exit
    | _ => none

def step (p : Proc) : Event → Option Proc
  | .leave =>
    if p.phase = .top ∧ p.calls = [] ∧ role = .client ∧ p.exitTriggered then
      some { p with calls := [.initiateShutdown] }
    else none
  | .poll revents =>
    if p.phase = .top ∧ p.calls = [] ∧ ¬ (role = .client ∧ p.exitTriggered) then
      some { p with phase := .input .initial, revents := revents }
    else none
  | .read n buf =>
    if p.phase = .input n ∧ p.calls = [] ∧ (p.revents n).pollin then
      let (calls, exitTriggered) := readActions key role n p.exitTriggered buf
      some { p with phase := nextPhase n, exitTriggered := exitTriggered, calls := calls }
    else none
  | .readError n =>
    if p.phase = .input n ∧ p.calls = [] ∧ (p.revents n).pollin then some p.exit else none
  | .pass n =>
    if p.phase = .input n ∧ p.calls = [] ∧ ¬ (p.revents n).pollin then
      let hangup := (p.revents n).pollhup ∨ (p.revents n).pollerr
      some { p with
        phase := nextPhase n
        calls := if hangup ∧ role = .server then [.initiateShutdown] else [] }
    else none
  | .call a r =>
    match p.calls with
    | [] => none
    | a' :: rest => if a' = a then callStep role p a rest r else none

variable {key role} {p p' : Proc}

/-! ### What a step can be -/

lemma step_leave (h : step key role p .leave = some p') :
    p.phase = .top ∧ p.calls = [] ∧ role = .client ∧ p.exitTriggered ∧
      p' = { p with calls := [.initiateShutdown] } := by
  simp only [step, Option.ite_none_right_eq_some, Option.some.injEq] at h
  exact ⟨h.1.1, h.1.2.1, h.1.2.2.1, h.1.2.2.2, h.2.symm⟩

lemma step_poll {revents : Input → Revents} (h : step key role p (.poll revents) = some p') :
    p.phase = .top ∧ p.calls = [] ∧ ¬ (role = .client ∧ p.exitTriggered) ∧
      p' = { p with phase := .input .initial, revents := revents } := by
  simp only [step, Option.ite_none_right_eq_some, Option.some.injEq] at h
  exact ⟨h.1.1, h.1.2.1, h.1.2.2, h.2.symm⟩

lemma step_read {n : Input} {buf : List UInt8} (h : step key role p (.read n buf) = some p') :
    p.phase = .input n ∧ p.calls = [] ∧ (p.revents n).pollin ∧
      p' = { p with
        phase := nextPhase n
        exitTriggered := (readActions key role n p.exitTriggered buf).2
        calls := (readActions key role n p.exitTriggered buf).1 } := by
  simp only [step, Option.ite_none_right_eq_some, Option.some.injEq] at h
  exact ⟨h.1.1, h.1.2.1, h.1.2.2, h.2.symm⟩

lemma step_readError {n : Input} (h : step key role p (.readError n) = some p') :
    p.phase = .input n ∧ p.calls = [] ∧ p' = p.exit := by
  simp only [step, Option.ite_none_right_eq_some, Option.some.injEq] at h
  exact ⟨h.1.1, h.1.2.1, h.2.symm⟩

lemma step_pass {n : Input} (h : step key role p (.pass n) = some p') :
    p.phase = .input n ∧ p.calls = [] ∧
      p' = { p with
        phase := nextPhase n
        calls := if ((p.revents n).pollhup ∨ (p.revents n).pollerr) ∧ role = .server then
          [.initiateShutdown] else [] } := by
  simp only [step, Option.ite_none_right_eq_some, Option.some.injEq] at h
  exact ⟨h.1.1, h.1.2.1, h.2.symm⟩

lemma step_call {a : Action} {r : Result} (h : step key role p (.call a r) = some p') :
    ∃ rest, p.calls = a :: rest ∧ callStep role p a rest r = some p' := by
  simp only [step] at h
  split at h
  · cases h
  · next a' rest hcalls =>
    rw [Option.ite_none_right_eq_some] at h
    obtain ⟨rfl, h⟩ := h
    exact ⟨rest, hcalls, h⟩

/-- As long as calls are pending, the next event is the first of them. -/
lemma step_of_calls {e : Event} {a : Action} {rest : List Action} (hcalls : p.calls = a :: rest)
    (h : step key role p e = some p') :
    ∃ r, e = .call a r ∧ callStep role p a rest r = some p' := by
  cases e with
  | leave => have := (step_leave h).2.1; simp [hcalls] at this
  | poll revents => have := (step_poll h).2.1; simp [hcalls] at this
  | read n buf => have := (step_read h).2.1; simp [hcalls] at this
  | readError n => have := (step_readError h).2.1; simp [hcalls] at this
  | pass n => have := (step_pass h).2.1; simp [hcalls] at this
  | call a' r =>
    obtain ⟨rest', hrest, hstep⟩ := step_call h
    obtain ⟨rfl, rfl⟩ : a = a' ∧ rest = rest' := by simpa using hcalls.symm.trans hrest
    exact ⟨r, rfl, hstep⟩

/-- Nothing happens after the exit. -/
lemma not_step_exit (e : Event) : step key role p.exit e = none := by
  cases e <;> simp [step, Proc.exit]

/-- The events at the top of the loop. -/
def Event.AtTop : Event → Prop
  | .leave | .poll _ => True
  | _ => False

def Proc.AtTop (p : Proc) : Prop := p.phase = .top ∧ p.calls = []

lemma atTop_of_step {e : Event} (hp : p.AtTop) (h : step key role p e = some p') : e.AtTop := by
  obtain ⟨hphase, hcalls⟩ := hp
  cases e with
  | leave | poll => trivial
  | read n => have := (step_read h).1; simp [hphase] at this
  | readError n => have := (step_readError h).1; simp [hphase] at this
  | pass n => have := (step_pass h).1; simp [hphase] at this
  | call a r =>
    obtain ⟨rest, hrest, -⟩ := step_call h
    simp [hcalls] at hrest

end LowLevelTasks.PollLoop
