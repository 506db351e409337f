import LowLevelTasks.PollLoop

/-!
The terminal of project 1a.

With `--shell` the program stands between the keyboard and a shell: it polls both, and one loop
goes over the bytes that it reads from either. The environment answers its calls, so an event is
a call with its result, and each call keeps what it was made for.
-/

namespace LowLevelTasks.Lab1a

open LowLevelTasks.Runs
open LowLevelTasks.PollLoop (Revents Result)

inductive Source
  | keyboard | shell
  deriving DecidableEq

/-- `kill` sends SIGINT to the shell; `shellStatus` waits for the shell and exits. -/
inductive Action
  | writeTerminal (buf : List UInt8)
  | writeShell (buf : List UInt8)
  | kill
  | shellStatus
  | exit
  deriving DecidableEq

/-- What a call is made for: a byte of a read, the end of an input, or the signal SIGPIPE. -/
inductive Cause
  | byte (n : Source) (b : UInt8)
  | hangup (n : Source)
  | sigpipe
  deriving DecidableEq

structure Call where
  cause : Cause
  action : Action
  deriving DecidableEq

inductive Phase
  | top
  | input (n : Source)
  | exited
  deriving DecidableEq

structure Proc where
  phase : Phase
  revents : Source → Revents
  calls : List Call

inductive Event
  | poll (revents : Source → Revents)
  /-- A read that fails is one without bytes. -/
  | read (n : Source) (buf : List UInt8)
  /-- No input is pending on the descriptor. -/
  | pass (n : Source)
  | call (c : Call) (r : Result)

def Proc.init : Proc := ⟨.top, fun _ => ⟨false, false, false⟩, []⟩

def Proc.exit (p : Proc) : Proc := { p with phase := .exited, calls := [] }

variable (passShell : Bool)

/-- The calls for the byte `input`. -/
def handleInput (n : Source) (input : UInt8) : List Action :=
  if input = 13 ∨ input = 10 then
    .writeTerminal [13, 10] :: if n = .keyboard ∧ passShell then [.writeShell [10]] else []
  else if input = 3 then .writeTerminal [94, 67] :: if passShell then [.kill] else []
  else if input = 4 then [.writeTerminal [94, 68], if passShell then .shellStatus else .exit]
  else if input = 127 then [.writeTerminal [input]]
  else .writeTerminal [input] :: if n = .keyboard ∧ passShell then [.writeShell [input]] else []

/-- The loop over the buffer. -/
def readCalls (n : Source) (buf : List UInt8) : List Call :=
  buf.flatMap fun b => (handleInput passShell n b).map fun a => ⟨.byte n b, a⟩

/-- Without a shell the keyboard is the only process that is polled. -/
def nextPhase : Source → Phase
  | .keyboard => if passShell then .input .shell else .top
  | .shell => .top

/-- The first of the pending calls, with its result. Errors of `write` are not looked at. -/
def callStep (p : Proc) (c : Call) (rest : List Call) : Result → Option Proc
  | .ok =>
    match c.action with
    | .shellStatus | .exit => some p.exit
    | _ => some { p with calls := rest }
  | .sigpipe =>
    match c.action with
    | .writeTerminal _ | .writeShell _ => some { p with calls := [⟨.sigpipe, .shellStatus⟩] }
    | _ => none
  | .error =>
    match c.action with
    | .writeTerminal _ | .writeShell _ => some { p with calls := rest }
    | .kill | .shellStatus => some p.exit
    | .exit => none

def step (p : Proc) : Event → Option Proc
  | .poll revents =>
    if p.phase = .top ∧ p.calls = [] then
      some { p with phase := .input .keyboard, revents := revents }
    else none
  | .read n buf =>
    if p.phase = .input n ∧ p.calls = [] ∧ (p.revents n).pollin then
      some { p with phase := nextPhase passShell n, calls := readCalls passShell n buf }
    else none
  | .pass n =>
    if p.phase = .input n ∧ p.calls = [] ∧ ¬ (p.revents n).pollin then
      let hangup := (p.revents n).pollhup ∨ (p.revents n).pollerr
      some { p with
        phase := nextPhase passShell n
        calls := if hangup then [⟨.hangup n, .shellStatus⟩] else [] }
    else none
  | .call c r =>
    match p.calls with
    | [] => none
    | c' :: rest => if c' = c then callStep p c rest r else none

variable {passShell} {p p' : Proc}

/-! ### What a step can be -/

/-- The calls of the next state: those that were pending but the first, none, those of a read,
or the end of the session. -/
inductive Moves (passShell : Bool) (p p' : Proc) : Event → Prop
  | quiet (revents : Source → Revents) (before : p.calls = []) (phase : p.phase = .top)
      (after : p' = { p with phase := .input .keyboard, revents := revents }) :
      Moves passShell p p' (.poll revents)
  | read (n : Source) (buf : List UInt8) (before : p.calls = []) (phase : p.phase = .input n)
      (after : p' = { p with
        phase := nextPhase passShell n, calls := readCalls passShell n buf }) :
      Moves passShell p p' (.read n buf)
  | pass (n : Source) (calls : List Call) (before : p.calls = []) (phase : p.phase = .input n)
      (hcalls : calls = [] ∨ calls = [⟨.hangup n, .shellStatus⟩])
      (after : p' = { p with phase := nextPhase passShell n, calls := calls }) :
      Moves passShell p p' (.pass n)
  | done (c : Call) (r : Result) (rest : List Call) (before : p.calls = c :: rest)
      (stays : c.action ≠ .shellStatus) (after : p' = { p with calls := rest }) :
      Moves passShell p p' (.call c r)
  | gone (c : Call) (r : Result) (rest : List Call) (before : p.calls = c :: rest)
      (after : p' = p.exit) : Moves passShell p p' (.call c r)
  | broken (c : Call) (r : Result) (rest : List Call) (before : p.calls = c :: rest)
      (after : p' = { p with calls := [⟨.sigpipe, .shellStatus⟩] }) :
      Moves passShell p p' (.call c r)

lemma callStep_cases {c : Call} {rest : List Call} {r : Result}
    (h : callStep p c rest r = some p') :
    c.action ≠ .shellStatus ∧ p' = { p with calls := rest } ∨ p' = p.exit ∨
      p' = { p with calls := [⟨.sigpipe, .shellStatus⟩] } := by
  obtain ⟨cause, action⟩ := c
  cases r with
  | ok =>
    cases action with
    | writeTerminal | writeShell | kill => exact .inl ⟨by simp, (Option.some.inj h).symm⟩
    | shellStatus | exit => exact .inr (.inl (Option.some.inj h).symm)
  | sigpipe =>
    cases action with
    | writeTerminal | writeShell => exact .inr (.inr (Option.some.inj h).symm)
    | kill | shellStatus | exit => cases h
  | error =>
    cases action with
    | writeTerminal | writeShell => exact .inl ⟨by simp, (Option.some.inj h).symm⟩
    | kill | shellStatus => exact .inr (.inl (Option.some.inj h).symm)
    | exit => cases h

/-- **What a step can do.** -/
theorem moves_of_step {e : Event} (h : step passShell p e = some p') :
    Moves passShell p p' e := by
  cases e with
  | poll revents =>
    simp only [step, Option.ite_none_right_eq_some, Option.some.injEq] at h
    exact .quiet revents h.1.2 h.1.1 h.2.symm
  | read n buf =>
    simp only [step, Option.ite_none_right_eq_some, Option.some.injEq] at h
    exact .read n buf h.1.2.1 h.1.1 h.2.symm
  | pass n =>
    simp only [step, Option.ite_none_right_eq_some, Option.some.injEq] at h
    refine .pass n _ h.1.2.1 h.1.1 ?_ h.2.symm
    split
    · exact .inr rfl
    · exact .inl rfl
  | call c r =>
    simp only [step] at h
    split at h
    · cases h
    · next c' rest hcalls =>
      rw [Option.ite_none_right_eq_some] at h
      obtain ⟨rfl, h⟩ := h
      obtain ⟨hstays, h⟩ | h | h := callStep_cases h
      · exact .done c' r rest hcalls hstays h
      · exact .gone c' r rest hcalls h
      · exact .broken c' r rest hcalls h

/-! ### Where the calls come from -/

/-- What holds of the calls of every read and of the end of the session holds of every call that
is made. -/
lemma forall_call_of_run {O : Call → Prop} {es : List Event}
    (hread : ∀ n buf, .read n buf ∈ es → ∀ c ∈ readCalls passShell n buf, O c)
    (hend : ∀ cause, (∀ n b, cause ≠ .byte n b) → O ⟨cause, .shellStatus⟩)
    (hp : ∀ c ∈ p.calls, O c) (h : run (step passShell) p es = some p') :
    ∀ c r, .call c r ∈ es → O c := by
  have hstep : ∀ p e q, (∀ c ∈ p.calls, O c) → e ∈ es → step passShell p e = some q →
      (∀ c ∈ q.calls, O c) ∧ ∀ c r, e = .call c r → O c := by
    intro p e q hp he hq
    cases moves_of_step hq with
    | quiet revents before phase after => exact ⟨after ▸ hp, by simp⟩
    | read n buf before phase after => exact ⟨after ▸ hread n buf he, by simp⟩
    | pass n calls before phase hcalls after =>
      rw [after]
      obtain rfl | rfl := hcalls
      · simp
      · simpa using hend (.hangup n) (by simp)
    | done c r rest before stays after =>
      rw [before, List.forall_mem_cons] at hp
      exact ⟨after ▸ hp.2, by simpa using hp.1⟩
    | gone c r rest before after =>
      rw [before, List.forall_mem_cons] at hp
      exact ⟨by simp [after, Proc.exit], by simpa using hp.1⟩
    | broken c r rest before after =>
      rw [before, List.forall_mem_cons] at hp
      exact ⟨by simpa [after] using hend .sigpipe (by simp), by simpa using hp.1⟩
  exact fun c r hc => (forall_of_allowed hstep hp (fun _ he => he) h).2 _ hc c r rfl

/-- Calls that succeed and do not end the process are made one after the other. -/
lemma run_calls (calls rest : List Call) (hcalls : p.calls = calls ++ rest)
    (hgo : ∀ c ∈ calls, c.action ≠ .shellStatus ∧ c.action ≠ .exit) :
    run (step passShell) p (calls.map fun c => .call c .ok) = some { p with calls := rest } := by
  have hstep : ∀ c rest, c.action ≠ .shellStatus ∧ c.action ≠ .exit →
      step passShell { p with calls := c :: rest } (.call c .ok) =
        some { p with calls := rest } := by
    rintro ⟨cause, action⟩ rest ⟨hstatus, hexit⟩
    cases action with
    | writeTerminal | writeShell | kill => simp [step, callStep]
    | shellStatus => exact absurd rfl hstatus
    | exit => exact absurd rfl hexit
  have hrun := run_queue (fun cs => { p with calls := cs }) (Event.call · .ok) hstep hgo rest
  rwa [← hcalls] at hrun

end LowLevelTasks.Lab1a
