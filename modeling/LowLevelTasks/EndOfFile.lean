import LowLevelTasks.PollLoop

/-!
What the loop of `poll_inputs` does at the end of a file.

A read that returns no bytes makes no call, and the loop goes on as it would without input.
The shut-down is only reached by way of the handler of SIGPIPE, when the server, having read
the end of its socket, goes on to forward output of the shell to it.
-/

namespace LowLevelTasks.EndOfFile

open LowLevelTasks.Runs LowLevelTasks.Encryption LowLevelTasks.PollInputs
open LowLevelTasks.PollLoop

variable {m : ℕ} {key : Key m} {role : Role} {p p' : Proc}

/-- The inputs that come from another process: all but the terminal. -/
def Peer : Role → Input → Prop
  | .client, .initial => False
  | _, _ => True

/-- One pass of the outer loop: from its top, until the process is there again or has ended. -/
structure Iteration (key : Key m) (role : Role) (p : Proc) (es : List Event) (p' : Proc) :
    Prop where
  start : p.AtTop
  run : run (step key role) p es = some p'
  single : ∃ e rest, es = e :: rest ∧ e.AtTop ∧ ∀ e' ∈ rest, ¬ e'.AtTop
  stop : p'.AtTop ∨ p'.phase = .exited

/-- One iteration after the other. -/
def Iterations (key : Key m) (role : Role) : Proc → List (List Event) → Prop
  | _, [] => True
  | p, es :: ess => ∃ p', Iteration key role p es p' ∧ Iterations key role p' ess

/-- The process shuts down; the server has closed its pipes before, when its socket ended. -/
def ShutsDown (role : Role) (n : Input) (es : List Event) : Prop :=
  if role = .server ∧ n = .initial then
    ∃ u v, es = u ++ .call .closePipes .ok :: v ∧ .call .initiateShutdown .ok ∈ v
  else .call .initiateShutdown .ok ∈ es

/-- Every end of file of a peer ends the session before the iteration does. -/
def EofEnds (role : Role) (es : List Event) : Prop :=
  ∀ n us vs, Peer role n → es = us ++ .read n [] :: vs → ShutsDown role n vs

/-- Every end of file of a peer is that of the socket of the server, and one of the writes the
server makes after it in the same iteration raises SIGPIPE. -/
def EofBreaks (role : Role) (es : List Event) : Prop :=
  ∀ n us vs, Peer role n → es = us ++ .read n [] :: vs →
    role = .server ∧ n = .initial ∧ ∃ a, .call a .sigpipe ∈ vs

/-- An iteration ends where it comes to the top of the loop. -/
lemma eq_nil_of_atTop {es : List Event} (hp : p.AtTop) (hrun : run (step key role) p es = some p')
    (hes : ∀ e ∈ es, ¬ e.AtTop) : es = [] := by
  cases es with
  | nil => rfl
  | cons e es =>
    obtain ⟨q, hq, -⟩ := run_cons_some hrun
    exact absurd (atTop_of_step hp hq) (hes e (by simp))

lemma eq_nil_of_exit {es : List Event} (hrun : run (step key role) p.exit es = some p') :
    es = [] := by
  cases es with
  | nil => rfl
  | cons e es =>
    obtain ⟨q, hq, -⟩ := run_cons_some hrun
    rw [not_step_exit] at hq
    cases hq

/-- An iteration does not end with calls pending. -/
lemma run_of_calls {es : List Event} {a : Action} {rest : List Action}
    (hcalls : p.calls = a :: rest) (hphase : p.phase ≠ .exited)
    (hrun : run (step key role) p es = some p') (hstop : p'.AtTop ∨ p'.phase = .exited) :
    ∃ r es' q, es = .call a r :: es' ∧ callStep role p a rest r = some q ∧
      run (step key role) q es' = some p' := by
  cases es with
  | nil =>
    obtain rfl : p = p' := by simpa using hrun
    rcases hstop with h | h
    · simp [h.2] at hcalls
    · exact absurd h hphase
  | cons e es =>
    obtain ⟨q, hq, hrest⟩ := run_cons_some hrun
    obtain ⟨r, rfl, hcall⟩ := step_of_calls hcalls hq
    exact ⟨r, es, q, rfl, hcall, hrest⟩

lemma run_initiateShutdown {es : List Event} (hcalls : p.calls = [.initiateShutdown])
    (hphase : p.phase ≠ .exited) (hrun : run (step key role) p es = some p')
    (hstop : p'.AtTop ∨ p'.phase = .exited) : es = [.call .initiateShutdown .ok] := by
  obtain ⟨r, es', q, rfl, hcall, hrest⟩ := run_of_calls hcalls hphase hrun hstop
  cases r with
  | ok =>
    obtain rfl : p.exit = q := by simpa [callStep] using hcall
    rw [eq_nil_of_exit hrest]
  | sigpipe | error => simp [callStep] at hcall

/-- The handler of SIGPIPE in the server. -/
lemma run_sighandler {es : List Event} (hcalls : p.calls = sighandler .server)
    (hphase : p.phase ≠ .exited) (hrun : run (step key role) p es = some p')
    (hstop : p'.AtTop ∨ p'.phase = .exited) :
    es = [.call .closePipes .ok, .call .initiateShutdown .ok] := by
  obtain ⟨r, es', q, rfl, hcall, hrest⟩ := run_of_calls hcalls hphase hrun hstop
  cases r with
  | ok =>
    obtain rfl : { p with calls := [.initiateShutdown] } = q := by simpa [callStep] using hcall
    rw [run_initiateShutdown (p := { p with calls := [.initiateShutdown] }) rfl hphase hrest hstop]
  | sigpipe | error => simp [callStep] at hcall

lemma shutsDown_socket {es : List Event} : ShutsDown .server .initial es ↔
    ∃ u v, es = u ++ .call .closePipes .ok :: v ∧ .call .initiateShutdown .ok ∈ v := by
  simp [ShutsDown]

lemma ShutsDown.cons {es : List Event} (e : Event) (h : ShutsDown .server .initial es) :
    ShutsDown .server .initial (e :: es) := by
  rw [shutsDown_socket] at h ⊢
  obtain ⟨u, v, rfl, hv⟩ := h
  exact ⟨e :: u, v, rfl, hv⟩

lemma ShutsDown.of_cons {es : List Event} {e : Event} (h : ShutsDown .server .initial (e :: es))
    (he : e ≠ .call .closePipes .ok) : ShutsDown .server .initial es := by
  rw [shutsDown_socket] at h ⊢
  obtain ⟨u, v, heq, hv⟩ := h
  cases u with
  | nil =>
    rw [List.nil_append, List.cons_eq_cons] at heq
    exact absurd heq.1 he
  | cons e' u =>
    rw [List.cons_append, List.cons_eq_cons] at heq
    exact ⟨u, v, heq.2, hv⟩

lemma not_shutsDown_nil : ¬ ShutsDown .server .initial [] := by
  simp [shutsDown_socket]

/-- From the calls that forward the output of the shell, the server comes to the shut-down
exactly if one of them raises SIGPIPE. -/
lemma shutsDown_iff_of_forwards {es : List Event} (hphase : p.phase = .top)
    (hcalls : ∀ a ∈ p.calls, a.Forwards) (hrun : run (step key .server) p es = some p')
    (hes : ∀ e ∈ es, ¬ e.AtTop) (hstop : p'.AtTop ∨ p'.phase = .exited) :
    ShutsDown .server .initial es ↔ ∃ a, .call a .sigpipe ∈ es := by
  induction hc : p.calls generalizing p es with
  | nil =>
    rw [eq_nil_of_atTop ⟨hphase, hc⟩ hrun hes]
    simp [not_shutsDown_nil]
  | cons a rest ih =>
    rw [hc, List.forall_mem_cons] at hcalls
    obtain ⟨ha, hrest⟩ := hcalls
    obtain ⟨r, es, q, rfl, hcall, hrun'⟩ :=
      run_of_calls hc (by simp [hphase]) hrun hstop
    have hcons : ∀ r', ShutsDown .server .initial (.call a r' :: es) ↔
        ShutsDown .server .initial es := fun r' =>
      ⟨fun h => h.of_cons (by rintro ⟨⟩; exact ha.elim), fun h => h.cons _⟩
    have hnext : ∀ q : Proc, q.phase = .top → q.calls = rest →
        run (step key .server) q es = some p' →
        (ShutsDown .server .initial es ↔ ∃ a, .call a .sigpipe ∈ es) := fun q hq hqc hqrun =>
      ih hq (by rwa [hqc]) hqrun (fun e he => hes e (by simp [he])) hqc
    cases r with
    | ok =>
      obtain rfl : { p with calls := rest } = q := by
        cases a with
        | write fd buf | writeToSocket fd buf => simpa [callStep] using hcall
        | kill | closePipes | initiateShutdown => exact ha.elim
      rw [hcons, hnext { p with calls := rest } hphase rfl hrun']
      simp
    | sigpipe =>
      -- the handler closes the pipes and shuts down
      obtain rfl : { p with calls := sighandler .server } = q := by
        cases a with
        | write fd buf | writeToSocket fd buf => simpa [callStep] using hcall
        | kill | closePipes | initiateShutdown => exact ha.elim
      rw [run_sighandler rfl (by simp [hphase]) hrun' hstop]
      refine iff_of_true (shutsDown_socket.mpr ⟨[.call a .sigpipe], _, rfl, by simp⟩)
        ⟨a, by simp⟩
    | error =>
      cases a with
      | write fd buf =>
        -- the result of `write` is not looked at
        obtain rfl : { p with calls := rest } = q := by simpa [callStep] using hcall
        rw [hcons, hnext { p with calls := rest } hphase rfl hrun']
        simp
      | writeToSocket fd buf =>
        obtain rfl : p.exit = q := by simpa [callStep] using hcall
        rw [hcons, eq_nil_of_exit hrun']
        simp [not_shutsDown_nil]
      | kill | closePipes | initiateShutdown => exact ha.elim

/-- After the end of its socket, the server looks at the pipe from the shell. -/
lemma shutsDown_iff_of_redirect {es : List Event} (hphase : p.phase = .input .redirect)
    (hcalls : p.calls = []) (hrun : run (step key .server) p es = some p')
    (hes : ∀ e ∈ es, ¬ e.AtTop) (hstop : p'.AtTop ∨ p'.phase = .exited) :
    ShutsDown .server .initial es ↔ ∃ a, .call a .sigpipe ∈ es := by
  cases es with
  | nil => simp [not_shutsDown_nil]
  | cons e es =>
    obtain ⟨q, hq, hrun'⟩ := run_cons_some hrun
    rw [List.forall_mem_cons] at hes
    have hcons : e ≠ .call .closePipes .ok → (∀ a, e ≠ .call a .sigpipe) →
        (ShutsDown .server .initial es ↔ ∃ a, .call a .sigpipe ∈ es) →
        (ShutsDown .server .initial (e :: es) ↔ ∃ a, .call a .sigpipe ∈ e :: es) := by
      intro hne hsig h
      rw [show ShutsDown .server .initial (e :: es) ↔ ShutsDown .server .initial es from
        ⟨fun h => h.of_cons hne, fun h => h.cons _⟩, h]
      refine exists_congr fun a => ?_
      rw [List.mem_cons, or_iff_right (hsig a).symm]
    cases e with
    | leave | poll => exact absurd trivial hes.1
    | read n buf =>
      obtain ⟨hn, -, -, rfl⟩ := step_read hq
      obtain rfl : .redirect = n := by simpa [hphase] using hn
      obtain ⟨hact, hfwd, -⟩ := readActions_redirect key .server p.exitTriggered buf
      refine hcons (by simp) (by simp) (shutsDown_iff_of_forwards rfl ?_ hrun' hes.2 hstop)
      rw [hact]
      exact hfwd
    | readError n =>
      obtain ⟨-, -, rfl⟩ := step_readError hq
      refine hcons (by simp) (by simp) ?_
      rw [eq_nil_of_exit hrun']
      simp [not_shutsDown_nil]
    | pass n =>
      obtain ⟨hn, -, rfl⟩ := step_pass hq
      obtain rfl : .redirect = n := by simpa [hphase] using hn
      refine hcons (by simp) (by simp) ?_
      by_cases hhup : (p.revents .redirect).pollhup ∨ (p.revents .redirect).pollerr
      · -- a hang-up shuts down without closing the pipes
        rw [run_initiateShutdown (by simp [hhup]) (by simp [nextPhase]) hrun' hstop]
        refine iff_of_false (fun h => ?_) (by simp)
        exact not_shutsDown_nil (h.of_cons (by simp))
      · rw [eq_nil_of_atTop ⟨rfl, by simp [hhup]⟩ hrun' hes.2]
        simp [not_shutsDown_nil]
    | call a r =>
      obtain ⟨rest, hrest, -⟩ := step_call hq
      simp [hcalls] at hrest

/-- **One iteration.** -/
lemma Iteration.eofEnds_iff {es : List Event} (hi : Iteration key role p es p') :
    EofEnds role es ↔ EofBreaks role es := by
  refine forall₅_congr fun n us vs hpeer hes => ?_
  obtain ⟨e, rest, rfl, he, hrest⟩ := hi.single
  -- the read is not the first event
  obtain ⟨us, rfl⟩ : ∃ us', us = e :: us' := by
    cases us with
    | nil =>
      rw [List.nil_append, List.cons_eq_cons] at hes
      rw [hes.1] at he
      exact he.elim
    | cons e' us =>
      rw [List.cons_append, List.cons_eq_cons] at hes
      exact ⟨us, by rw [hes.1]⟩
  rw [List.cons_append, List.cons_eq_cons] at hes
  obtain ⟨-, rfl⟩ := hes
  have hvs : ∀ e' ∈ vs, ¬ e'.AtTop := fun e' he' => hrest e' (by simp [he'])
  have hrun := hi.run
  rw [← List.cons_append, run_append, Option.bind_eq_some_iff] at hrun
  obtain ⟨q, -, hrun⟩ := hrun
  obtain ⟨q', hq', hrun⟩ := run_cons_some hrun
  obtain ⟨hphase, hcalls, -, rfl⟩ := step_read hq'
  rw [readActions_nil] at hrun
  cases n with
  | redirect =>
    rw [eq_nil_of_atTop ⟨rfl, rfl⟩ hrun hvs]
    simp [ShutsDown]
  | initial =>
    cases role with
    | client => exact hpeer.elim
    | server =>
      rw [shutsDown_iff_of_redirect rfl rfl hrun hvs hi.stop]
      simp

/-- **When the end of a file ends the session.** In every run of the loop, under every answer
of the environment: each end of file of a peer leads to the shut-down in its iteration exactly
if each is the end of the server's socket and, later in the iteration, a write of the server
raises SIGPIPE. In all other iterations the loop goes on to poll. -/
theorem eofEnds_iff_eofBreaks (key : Key m) (role : Role) (ess : List (List Event))
    (h : Iterations key role Proc.init ess) :
    (∀ es ∈ ess, EofEnds role es) ↔ ∀ es ∈ ess, EofBreaks role es := by
  suffices ∀ p, Iterations key role p ess →
      ((∀ es ∈ ess, EofEnds role es) ↔ ∀ es ∈ ess, EofBreaks role es) from this _ h
  clear h
  intro p h
  induction ess generalizing p with
  | nil => simp
  | cons es ess ih =>
    obtain ⟨p', hi, hrest⟩ := h
    rw [List.forall_mem_cons, List.forall_mem_cons, hi.eofEnds_iff, ih p' hrest]

/-- Input is pending on `n`, and nothing happens on the other descriptor. -/
def pending (n : Input) : Input → Revents := fun n' => ⟨n' = n, false, false⟩

/-- An iteration of the client whose socket has ended. -/
def clientEof : List Event := [.poll (pending .redirect), .pass .initial, .read .redirect []]

/-- An iteration of the server whose socket has ended. -/
def serverEof : List Event := [.poll (pending .initial), .read .initial [], .pass .redirect]

lemma iteration_clientEof (p : Proc) (hp : p.AtTop) (het : p.exitTriggered = false) :
    Iteration (noKey : Key 7) .client p clientEof { p with revents := pending .redirect } where
  start := hp
  run := by
    obtain ⟨phase, revents, et, calls⟩ := p
    obtain ⟨rfl, rfl⟩ : phase = .top ∧ calls = [] := hp
    obtain rfl : et = false := het
    rfl
  single := ⟨_, _, rfl, trivial, by simp [Event.AtTop]⟩
  stop := Or.inl hp

theorem eofEnds_iff_eofBreaks_sample : ¬ ∀ es ∈ [clientEof], EofEnds .client es := by
  have hiter : Iterations (noKey : Key 7) .client Proc.init [clientEof] :=
    ⟨_, iteration_clientEof Proc.init ⟨rfl, rfl⟩ rfl, trivial⟩
  intro h
  have := (eofEnds_iff_eofBreaks noKey .client [clientEof] hiter).mp h clientEof (by simp)
    .redirect [.poll (pending .redirect), .pass .initial] [] trivial rfl
  cases this.1

/-- Both roles come to a cycle in which they read no bytes from the same closed socket: the
iteration ends in the state it started from. -/
theorem eof_cycle :
    (∃ p, run (step (noKey : Key 7) .client) Proc.init clientEof = some p ∧
        Iteration (noKey : Key 7) .client p clientEof p ∧ ¬ EofEnds .client clientEof) ∧
      ∃ p, run (step (noKey : Key 7) .server) Proc.init serverEof = some p ∧
        Iteration (noKey : Key 7) .server p serverEof p ∧ ¬ EofEnds .server serverEof := by
  refine ⟨⟨⟨.top, pending .redirect, false, []⟩, rfl, iteration_clientEof _ ⟨rfl, rfl⟩ rfl, ?_⟩,
    ⟨⟨.top, pending .initial, false, []⟩, rfl, ⟨⟨rfl, rfl⟩, rfl, ⟨_, _, rfl, trivial, ?_⟩,
      Or.inl ⟨rfl, rfl⟩⟩, ?_⟩⟩
  · intro h
    have := h .redirect [.poll (pending .redirect), .pass .initial] [] trivial rfl
    simp [ShutsDown] at this
  · simp [Event.AtTop]
  · intro h
    have := h .initial [.poll (pending .initial)] [.pass .redirect] trivial rfl
    rw [shutsDown_socket] at this
    obtain ⟨u, v, heq, -⟩ := this
    rcases u with - | ⟨e, u⟩ <;> simp at heq

end LowLevelTasks.EndOfFile
