import LowLevelTasks.PollLoop

/-!
Client, server and shell of project 1b, up to the end of the session.

The three processes exchange bytes over first-in first-out channels: the socket both ways and
the two pipes. The shell is any process; it reads, writes and exits as it likes. A byte on the
socket to the client carries a mark whether it comes from the shell, since the server also
answers the DEL of the client there.
-/

namespace LowLevelTasks.Shutdown

open LowLevelTasks.Runs LowLevelTasks.Encryption LowLevelTasks.PollInputs
open LowLevelTasks.PollLoop

/-- `keys` is what is still to be typed. The last fields are histories: what the shell wrote,
the reads of the server from it, the reads of the client from the socket, what the client
wrote to its standard output for them, and what the server could not send any more. -/
structure St where
  keys : List UInt8
  c2s : List UInt8
  s2c : List (UInt8 × Bool)
  wr : List UInt8
  rw : List UInt8
  client : Proc
  server : Proc
  pipesOpen : Bool
  shellExited : Bool
  shellOut : List UInt8
  srvReads : List (List UInt8)
  cliReads : List (List (UInt8 × Bool))
  shown : List UInt8
  dropped : List UInt8

inductive Label
  | client (e : Event)
  | server (e : Event)
  | shellRead (count : ℕ)
  | shellWrite (buf : List UInt8)
  | shellExit

def bufSize : ℕ := 512

/-- What `poll` may report of a channel: input is pending if there is some, or if the other
end is closed. -/
def Reports {α : Type} (chan : List α) (closed : Bool) (r : Revents) : Prop :=
  (chan ≠ [] → r.pollin = true) ∧ (r.pollin = true → chan ≠ [] ∨ closed = true) ∧
    (r.pollhup = true ∨ r.pollerr = true → closed = true)

instance {α : Type} [DecidableEq α] (chan : List α) (closed : Bool) (r : Revents) :
    Decidable (Reports chan closed r) :=
  inferInstanceAs (Decidable (_ ∧ _ ∧ _))

/-- What `read` may return from a channel: some bytes from its front, at least one unless the
other end is closed. -/
def Returns (chan : List UInt8) (closed : Bool) (buf : List UInt8) : Prop :=
  buf.length < bufSize ∧ chan.take buf.length = buf ∧ (buf = [] → chan = [] ∧ closed = true)

instance (chan : List UInt8) (closed : Bool) (buf : List UInt8) :
    Decidable (Returns chan closed buf) :=
  inferInstanceAs (Decidable (_ ∧ _ ∧ _))

def exited (p : Proc) : Bool := p.phase = .exited

/-- The calls pending in a process are those for its last read from `REDIRECT_INPUT`. -/
def redirecting (p : Proc) : Bool := p.phase = .top

variable {m : ℕ} (key : Key m)

/-- The bytes that the pending calls write for a read from `REDIRECT_INPUT`. -/
def pendingOut (p : Proc) : List UInt8 := if redirecting p then written .out1 p.calls else []

/-- The bytes that a call of the client writes. -/
def clientWrite (s : St) (p : Proc) (buf : List UInt8) : Output → St
  | .out1 => { s with
      client := p
      shown := if redirecting s.client then s.shown ++ buf else s.shown }
  | .out2 => { s with client := p, c2s := s.c2s ++ buf }

/-- A call of the client, which is now `p`. A write fails once the other end is closed. -/
def clientCall (s : St) (p : Proc) (a : Action) : Result → Option St
  | .ok =>
    match a with
    | .write fd buf | .writeToSocket fd buf => some (clientWrite s p buf fd)
    | .kill | .closePipes | .initiateShutdown => some { s with client := p }
  | .sigpipe =>
    match a with
    | .write .out2 _ | .writeToSocket .out2 _ =>
      if exited s.server then some { s with client := p } else none
    | _ => none
  | .error => none

/-- A step of the client, which is now `p`. -/
def clientStep (s : St) (p : Proc) : Event → Option St
  | .leave | .pass _ => some { s with client := p }
  | .poll revents =>
    if Reports s.keys false (revents .initial) ∧
        Reports s.s2c (exited s.server) (revents .redirect) then
      some { s with client := p }
    else none
  | .read .initial buf =>
    if Returns s.keys false buf then
      some { s with client := p, keys := s.keys.drop buf.length }
    else none
  | .read .redirect buf =>
    if Returns (s.s2c.map Prod.fst) (exited s.server) buf then
      some { s with
        client := p
        s2c := s.s2c.drop buf.length
        cliReads := s.cliReads ++ [s.s2c.take buf.length] }
    else none
  | .readError _ => none
  | .call a r => clientCall s p a r

def serverWrite (s : St) (p : Proc) (buf : List UInt8) : Output → St
  | .out1 => { s with server := p, s2c := s.s2c ++ buf.map (·, redirecting s.server) }
  | .out2 => { s with server := p, wr := s.wr ++ buf }

/-- A call of the server, which is now `p`. -/
def serverCall (s : St) (p : Proc) (a : Action) : Result → Option St
  | .ok =>
    match a with
    | .write fd buf | .writeToSocket fd buf => some (serverWrite s p buf fd)
    | .kill => some { s with server := p }
    | .closePipes => some { s with server := p, pipesOpen := false }
    | .initiateShutdown =>
      -- `waitpid`
      if s.shellExited then some { s with server := p } else none
  | .sigpipe =>
    match a with
    | .write fd _ | .writeToSocket fd _ =>
      if (match fd with | .out1 => exited s.client | .out2 => s.shellExited) then
        some { s with server := p, dropped := s.dropped ++ pendingOut s.server }
      else none
    | _ => none
  | .error => none

/-- A step of the server, which is now `p`. -/
def serverStep (s : St) (p : Proc) : Event → Option St
  | .leave | .pass _ => some { s with server := p }
  | .poll revents =>
    if Reports s.c2s (exited s.client) (revents .initial) ∧
        Reports s.rw s.shellExited (revents .redirect) then
      some { s with server := p }
    else none
  | .read .initial buf =>
    if Returns s.c2s (exited s.client) buf then
      some { s with server := p, c2s := s.c2s.drop buf.length }
    else none
  | .read .redirect buf =>
    if Returns s.rw s.shellExited buf then
      some { s with
        server := p
        rw := s.rw.drop buf.length
        srvReads := s.srvReads ++ [buf] }
    else none
  | .readError _ => none
  | .call a r => serverCall s p a r

def step (s : St) : Label → Option St
  | .client e => (PollLoop.step key .client s.client e).bind fun p => clientStep s p e
  | .server e => (PollLoop.step key .server s.server e).bind fun p => serverStep s p e
  | .shellRead count => if s.shellExited then none else some { s with wr := s.wr.drop count }
  | .shellWrite buf =>
    if s.shellExited ∨ ¬ s.pipesOpen ∨ exited s.server then none
    else some { s with rw := s.rw ++ buf, shellOut := s.shellOut ++ buf }
  | .shellExit => if s.shellExited then none else some { s with shellExited := true }

def init (keys : List UInt8) : St where
  keys := keys
  c2s := []
  s2c := []
  wr := []
  rw := []
  client := Proc.init
  server := Proc.init
  pipesOpen := true
  shellExited := false
  shellOut := []
  srvReads := []
  cliReads := []
  shown := []
  dropped := []

/-- The marked bytes. -/
def shellBytes (bytes : List (UInt8 × Bool)) : List UInt8 := (bytes.filter Prod.snd).map Prod.fst

/-- The bytes a process writes to `out1` for a read from `REDIRECT_INPUT`. -/
def translated (role : Role) (buf : List UInt8) : List UInt8 :=
  written .out1 (redirected key role buf)

/-- **Nothing is lost.** The server has read all that the shell wrote, the client has read all
that the server has to send for it, and has written all that it has to write for what it
read. -/
structure Delivered (s : St) : Prop where
  read : s.srvReads.flatten = s.shellOut
  sent : shellBytes s.cliReads.flatten = s.srvReads.flatMap (translated key .server)
  shown : s.shown = s.cliReads.flatMap fun buf => translated key .client (buf.map Prod.fst)

/-- Bytes of the shell are on the way: in the pipe, in the buffer of the server or in the
socket. -/
def InFlight (s : St) : Prop := s.rw ≠ [] ∨ pendingOut s.server ≠ [] ∨ shellBytes s.s2c ≠ []

def isShutdown : Event → Bool
  | .call .initiateShutdown _ => true
  | _ => false

/-- The client shuts down with no byte of the shell on the way, the server with none left in
the pipe, and the shell writes only while the client is there. -/
def Orderly (s : St) : Label → Prop
  | .client e => isShutdown e → ¬ InFlight s
  | .server e => isShutdown e → s.rw = []
  | .shellWrite buf => buf = [] ∨ exited s.client = false
  | .shellRead _ | .shellExit => True

instance (s : St) : Decidable (InFlight s) := inferInstanceAs (Decidable (_ ∨ _ ∨ _))

instance (s : St) : (a : Label) → Decidable (Orderly s a)
  | .client _ | .server _ => inferInstanceAs (Decidable (_ → _))
  | .shellWrite _ => inferInstanceAs (Decidable (_ ∨ _))
  | .shellRead _ | .shellExit => inferInstanceAs (Decidable True)

/-! ### The calls pending in a process -/

/-- The process is in the handler of SIGPIPE or past it, or shuts down for another reason with
nothing else to do. -/
def Leaving (p : Proc) : Prop :=
  p.calls = [.closePipes, .initiateShutdown] ∨ p.calls = [.initiateShutdown] ∨ p.phase = .exited

/-- The calls for a read from `REDIRECT_INPUT` forward bytes, and after the exit none is left. -/
structure Ready (p : Proc) : Prop where
  forwards : p.phase = .top → (∀ a ∈ p.calls, a.Forwards) ∨ Leaving p
  gone : p.phase = .exited → p.calls = []

variable {key} {role : Role} {p p' : Proc} {s s' : St}

lemma leaving_exit : Leaving p.exit := Or.inr (Or.inr rfl)

lemma leaving_sighandler (role : Role) : Leaving { p with calls := sighandler role } := by
  cases role with
  | client => exact Or.inr (Or.inl rfl)
  | server => exact Or.inl rfl

/-- What is done with the first of the pending calls. -/
lemma callStep_cases {a : Action} {rest : List Action} {r : Result}
    (h : callStep role p a rest r = some p') :
    p' = { p with calls := rest } ∧ a ≠ .initiateShutdown ∨ p' = p.exit ∨
      p' = { p with calls := sighandler role } := by
  cases r with
  | ok =>
    cases a with
    | initiateShutdown => exact Or.inr (Or.inl (by simpa [callStep] using h.symm))
    | write | writeToSocket | kill | closePipes =>
      exact Or.inl ⟨by simpa [callStep] using h.symm, by simp⟩
  | sigpipe =>
    cases a with
    | write | writeToSocket => exact Or.inr (Or.inr (by simpa [callStep] using h.symm))
    | kill | closePipes | initiateShutdown => simp [callStep] at h
  | error =>
    cases a with
    | write => exact Or.inl ⟨by simpa [callStep] using h.symm, by simp⟩
    | writeToSocket | kill => exact Or.inr (Or.inl (by simpa [callStep] using h.symm))
    | closePipes | initiateShutdown => simp [callStep] at h

lemma ready_exit : Ready p.exit := ⟨fun _ => Or.inr leaving_exit, fun _ => rfl⟩

lemma ready_step {e : Event} (hr : Ready p) (h : PollLoop.step key role p e = some p') :
    Ready p' := by
  cases e with
  | leave =>
    obtain ⟨hphase, -, -, -, rfl⟩ := step_leave h
    exact ⟨fun _ => Or.inr (Or.inr (Or.inl rfl)), fun hex => by simp [hphase] at hex⟩
  | poll revents =>
    obtain ⟨-, -, -, rfl⟩ := step_poll h
    exact ⟨fun hphase => by simp at hphase, fun hex => by simp at hex⟩
  | read n buf =>
    obtain ⟨-, -, -, rfl⟩ := step_read h
    cases n with
    | initial =>
      exact ⟨fun hphase => by simp [nextPhase] at hphase, fun hex => by simp [nextPhase] at hex⟩
    | redirect =>
      obtain ⟨hact, hfwd, -⟩ := readActions_redirect key role p.exitTriggered buf
      refine ⟨fun _ => Or.inl ?_, fun hex => by simp [nextPhase] at hex⟩
      dsimp only
      rw [hact]
      exact hfwd
  | readError n =>
    obtain ⟨-, -, rfl⟩ := step_readError h
    exact ready_exit
  | pass n =>
    obtain ⟨-, -, rfl⟩ := step_pass h
    refine ⟨fun _ => ?_, fun hex => by cases n <;> simp [nextPhase] at hex⟩
    dsimp only [Leaving]
    split_ifs
    · exact Or.inr (Or.inr (Or.inl rfl))
    · exact Or.inl (by simp)
  | call a r =>
    obtain ⟨rest, hcalls, hcall⟩ := step_call h
    have hgone : p.phase ≠ .exited := fun hex => by simp [hr.gone hex] at hcalls
    rcases callStep_cases hcall with ⟨rfl, hne⟩ | rfl | rfl
    · refine ⟨fun hphase => ?_, fun hex => absurd hex hgone⟩
      rcases hr.forwards hphase with hfwd | h2 | h1 | hex
      · exact Or.inl fun a' ha' => hfwd a' (by rw [hcalls]; exact List.mem_cons_of_mem a ha')
      · obtain ⟨-, rfl⟩ : a = .closePipes ∧ rest = [.initiateShutdown] := by
          simpa using hcalls.symm.trans h2
        exact Or.inr (Or.inr (Or.inl rfl))
      · exact absurd (by simpa using hcalls.symm.trans h1 : _ ∧ _).1 hne
      · exact absurd hex hgone
    · exact ready_exit
    · exact ⟨fun _ => Or.inr (leaving_sighandler role), fun hex => absurd hex hgone⟩

lemma pendingOut_of_phase (h : p.phase ≠ .top) : pendingOut p = [] := by
  simp [pendingOut, redirecting, h]

lemma pendingOut_of_calls (h : written .out1 p.calls = []) : pendingOut p = [] := by
  simp [pendingOut, h]

lemma pendingOut_of_leaving (h : Leaving p) : pendingOut p = [] := by
  rcases h with h | h | h
  · exact pendingOut_of_calls (by rw [h]; rfl)
  · exact pendingOut_of_calls (by rw [h]; rfl)
  · exact pendingOut_of_phase (by simp [h])

lemma not_leaving_of_calls (hcalls : p.calls = []) (hphase : p.phase ≠ .exited) :
    ¬ Leaving p := by
  rintro (h | h | h)
  · simp [hcalls] at h
  · simp [hcalls] at h
  · exact hphase h

/-- The bytes a call writes to `out1` leave the pending ones. -/
lemma pendingOut_cons {a : Action} {rest : List Action} (hcalls : p.calls = a :: rest) :
    pendingOut p = (if redirecting p then a.written .out1 else []) ++
      pendingOut { p with calls := rest } := by
  by_cases hphase : p.phase = .top
  · simp [pendingOut, redirecting, hcalls, hphase, written]
  · simp [pendingOut, redirecting, hphase]

section Calls

variable {a : Action} {rest : List Action} (hr : Ready p) (hcalls : p.calls = a :: rest)

include hr hcalls

lemma Ready.phase_ne_exited : p.phase ≠ .exited := fun hex => by simp [hr.gone hex] at hcalls

lemma Ready.not_leaving (h1 : a ≠ .closePipes) (h2 : a ≠ .initiateShutdown) : ¬ Leaving p := by
  rintro (h | h | h)
  · exact h1 (by simpa using hcalls.symm.trans h : _ ∧ _).1
  · exact h2 (by simpa using hcalls.symm.trans h : _ ∧ _).1
  · exact hr.phase_ne_exited hcalls h

/-- A call that does not forward is no answer to a read from `REDIRECT_INPUT`. -/
lemma Ready.pendingOut_eq_nil (ha : ¬ a.Forwards) : pendingOut p = [] := by
  by_cases hphase : p.phase = .top
  · rcases hr.forwards hphase with hfwd | hleave
    · exact absurd (hfwd a (by simp [hcalls])) ha
    · exact pendingOut_of_leaving hleave
  · exact pendingOut_of_phase hphase

end Calls

/-! ### What a step does to the bytes -/

/-- What a step of the server does to the bytes of the shell. -/
inductive ServerChange (key : Key m) (s s' : St) : Prop
  | quiet (rw : s'.rw = s.rw) (srvReads : s'.srvReads = s.srvReads)
      (pending : pendingOut s'.server = pendingOut s.server)
      (s2c : shellBytes s'.s2c = shellBytes s.s2c) (dropped : s'.dropped = s.dropped)
      (running : exited s'.server = false) (leaving : Leaving s.server → Leaving s'.server)
  | read (buf : List UInt8) (rw : s.rw = buf ++ s'.rw)
      (srvReads : s'.srvReads = s.srvReads ++ [buf])
      (before : pendingOut s.server = [])
      (pending : pendingOut s'.server = translated key .server buf)
      (s2c : s'.s2c = s.s2c) (dropped : s'.dropped = s.dropped)
      (running : exited s'.server = false) (staying : ¬ Leaving s.server)
  | sent (buf : List UInt8) (rw : s'.rw = s.rw) (srvReads : s'.srvReads = s.srvReads)
      (pending : pendingOut s.server = buf ++ pendingOut s'.server)
      (s2c : shellBytes s'.s2c = shellBytes s.s2c ++ buf) (dropped : s'.dropped = s.dropped)
      (running : exited s'.server = false) (staying : ¬ Leaving s.server)
  | broken (closed : exited s.client = true) (rw : s'.rw = s.rw)
      (srvReads : s'.srvReads = s.srvReads) (pending : pendingOut s'.server = [])
      (s2c : s'.s2c = s.s2c) (dropped : s'.dropped = s.dropped ++ pendingOut s.server)
      (running : exited s'.server = false) (leaving : Leaving s'.server)
      (staying : ¬ Leaving s.server)
  | exit (rw : s'.rw = s.rw) (srvReads : s'.srvReads = s.srvReads)
      (before : pendingOut s.server = []) (s2c : s'.s2c = s.s2c)
      (dropped : s'.dropped = s.dropped) (gone : exited s'.server = true)

@[simp] lemma shellBytes_append (xs ys : List (UInt8 × Bool)) :
    shellBytes (xs ++ ys) = shellBytes xs ++ shellBytes ys := by
  simp [shellBytes]

lemma shellBytes_mark (buf : List UInt8) (shell : Bool) :
    shellBytes (buf.map (·, shell)) = if shell then buf else [] := by
  cases shell <;> simp [shellBytes, List.filter_map, Function.comp_def]

@[simp] lemma exited_eq_true : exited p = true ↔ p.phase = .exited := by simp [exited]

@[simp] lemma exited_eq_false : exited p = false ↔ p.phase ≠ .exited := by simp [exited]

/-- The part of the state a step of the server leaves alone. -/
structure ClientSame (s s' : St) : Prop where
  client : s'.client = s.client
  cliReads : s'.cliReads = s.cliReads
  shown : s'.shown = s.shown
  shellOut : s'.shellOut = s.shellOut

/-- The bytes pending after a call that does not forward: none, as before. -/
lemma Ready.pendingOut_rest {a : Action} {rest : List Action} (hr : Ready p)
    (hcalls : p.calls = a :: rest) (ha : ¬ a.Forwards) :
    pendingOut { p with calls := rest } = [] := by
  have := pendingOut_cons hcalls
  rw [hr.pendingOut_eq_nil hcalls ha] at this
  exact (List.append_eq_nil_iff.mp this.symm).2

/-- A write of the server: bytes of the shell, the answer to a DEL, or input for the shell. -/
lemma serverWrite_change {a : Action} {rest : List Action} {buf : List UInt8} {fd : Output}
    (hr : Ready s.server) (hcalls : s.server.calls = a :: rest) (hl : ¬ Leaving s.server)
    (hout1 : a.written .out1 = if fd = .out1 then buf else [])
    (hout2 : fd = .out2 → ¬ a.Forwards) :
    ServerChange key s (serverWrite s { s.server with calls := rest } buf fd) := by
  have hphase := hr.phase_ne_exited hcalls
  cases fd with
  | out1 =>
    refine .sent (if redirecting s.server then buf else []) rfl rfl ?_ ?_ rfl (by simpa) hl
    · rw [pendingOut_cons hcalls, hout1]
      rfl
    · rw [serverWrite, shellBytes_append, shellBytes_mark]
  | out2 =>
    refine .quiet rfl rfl ?_ rfl rfl (by simpa) fun h => absurd h hl
    rw [hr.pendingOut_eq_nil hcalls (hout2 rfl)]
    exact hr.pendingOut_rest hcalls (hout2 rfl)

/-- A write of the server fails: the client is gone, or the shell that was to read it. -/
lemma serverBroken_change {a : Action} {rest : List Action} (fd : Output) (hr : Ready s.server)
    (hcalls : s.server.calls = a :: rest) (hl : ¬ Leaving s.server)
    (hout2 : fd = .out2 → ¬ a.Forwards) (hclosed : fd = .out1 → exited s.client = true) :
    ServerChange key s { s with
      server := { s.server with calls := sighandler .server }
      dropped := s.dropped ++ pendingOut s.server } := by
  have hphase := hr.phase_ne_exited hcalls
  have hafter : pendingOut { s.server with calls := sighandler .server } = [] :=
    pendingOut_of_leaving (leaving_sighandler .server)
  cases fd with
  | out1 =>
    exact .broken (hclosed rfl) rfl rfl hafter rfl rfl (by simpa) (leaving_sighandler .server) hl
  | out2 =>
    have hbefore := hr.pendingOut_eq_nil hcalls (hout2 rfl)
    refine .quiet rfl rfl (hafter.trans hbefore.symm) rfl ?_ (by simpa) fun h => absurd h hl
    rw [hbefore, List.append_nil]

lemma serverCall_change {a : Action} {rest : List Action} {r : Result} (hr : Ready s.server)
    (hcalls : s.server.calls = a :: rest) (hcall : callStep .server s.server a rest r = some p)
    (h : serverCall s p a r = some s') :
    ServerChange key s s' ∧ s'.server = p ∧ ClientSame s s' := by
  have hphase := hr.phase_ne_exited hcalls
  cases r with
  | error => cases h
  | ok =>
    cases a with
    | write fd buf | writeToSocket fd buf =>
      obtain rfl : { s.server with calls := rest } = p := by simpa [callStep] using hcall
      obtain rfl := Option.some.inj h
      refine ⟨serverWrite_change hr hcalls (hr.not_leaving hcalls (by simp) (by simp)) rfl ?_, ?_⟩
      · rintro rfl ⟨hfd, -⟩
        cases hfd
      · cases fd <;> exact ⟨rfl, rfl, rfl, rfl, rfl⟩
    | kill =>
      obtain rfl : { s.server with calls := rest } = p := by simpa [callStep] using hcall
      obtain rfl := Option.some.inj h
      have hl := hr.not_leaving hcalls (by simp) (by simp)
      refine ⟨.quiet rfl rfl ?_ rfl rfl (by simpa) fun h => absurd h hl, rfl,
        ⟨rfl, rfl, rfl, rfl⟩⟩
      rw [hr.pendingOut_rest hcalls id, hr.pendingOut_eq_nil hcalls id]
    | closePipes =>
      obtain rfl : { s.server with calls := rest } = p := by simpa [callStep] using hcall
      obtain rfl := Option.some.inj h
      refine ⟨.quiet rfl rfl ?_ rfl rfl (by simpa) ?_, rfl, ⟨rfl, rfl, rfl, rfl⟩⟩
      · rw [hr.pendingOut_rest hcalls id, hr.pendingOut_eq_nil hcalls id]
      · rintro (h | h | h)
        · exact Or.inr (Or.inl (by simpa using hcalls.symm.trans h))
        · simp [hcalls] at h
        · exact absurd h hphase
    | initiateShutdown =>
      obtain rfl : s.server.exit = p := by simpa [callStep] using hcall
      simp only [serverCall, Option.ite_none_right_eq_some, Option.some.injEq] at h
      obtain ⟨-, rfl⟩ := h
      exact ⟨.exit rfl rfl (hr.pendingOut_eq_nil hcalls id) rfl rfl rfl, rfl,
        ⟨rfl, rfl, rfl, rfl⟩⟩
  | sigpipe =>
    cases a with
    | write fd buf | writeToSocket fd buf =>
      obtain rfl : { s.server with calls := sighandler .server } = p := by
        simpa [callStep] using hcall
      simp only [serverCall, Option.ite_none_right_eq_some, Option.some.injEq] at h
      obtain ⟨hclosed, rfl⟩ := h
      refine ⟨serverBroken_change fd hr hcalls
        (hr.not_leaving hcalls (by simp) (by simp)) ?_ ?_, rfl, ⟨rfl, rfl, rfl, rfl⟩⟩
      · rintro rfl ⟨hfd, -⟩
        cases hfd
      · rintro rfl
        exact hclosed
    | kill | closePipes | initiateShutdown => cases h

lemma server_change {e : Event} (hr : Ready s.server)
    (hp : PollLoop.step key .server s.server e = some p) (h : serverStep s p e = some s') :
    ServerChange key s s' ∧ s'.server = p ∧ ClientSame s s' := by
  cases e with
  | leave => cases (step_leave hp).2.2.1
  | poll revents =>
    obtain ⟨hphase, hcalls, -, rfl⟩ := step_poll hp
    simp only [serverStep, Option.ite_none_right_eq_some, Option.some.injEq] at h
    obtain ⟨-, rfl⟩ := h
    refine ⟨.quiet rfl rfl ?_ rfl rfl (by simp) ?_, rfl, ⟨rfl, rfl, rfl, rfl⟩⟩
    · rw [pendingOut_of_phase (by simp), pendingOut_of_calls (by simp [hcalls])]
    · exact fun h => absurd h (not_leaving_of_calls hcalls (by simp [hphase]))
  | read n buf =>
    obtain ⟨hphase, hcalls, -, rfl⟩ := step_read hp
    have hstay : ¬ Leaving s.server := not_leaving_of_calls hcalls (by simp [hphase])
    have hbefore : pendingOut s.server = [] := pendingOut_of_calls (by simp [hcalls])
    cases n with
    | initial =>
      simp only [serverStep, Option.ite_none_right_eq_some, Option.some.injEq] at h
      obtain ⟨-, rfl⟩ := h
      refine ⟨.quiet rfl rfl ?_ rfl rfl (by simp [nextPhase]) fun h => absurd h hstay, rfl,
        ⟨rfl, rfl, rfl, rfl⟩⟩
      rw [hbefore, pendingOut_of_phase (by simp [nextPhase])]
    | redirect =>
      simp only [serverStep, Option.ite_none_right_eq_some, Option.some.injEq] at h
      obtain ⟨⟨-, htake, -⟩, rfl⟩ := h
      refine ⟨.read buf ?_ rfl hbefore ?_ rfl rfl (by simp [nextPhase]) hstay, rfl,
        ⟨rfl, rfl, rfl, rfl⟩⟩
      · nth_rewrite 1 [← List.take_append_drop buf.length s.rw]
        rw [htake]
      · have hact := (readActions_redirect key .server s.server.exitTriggered buf).1
        simp [pendingOut, redirecting, nextPhase, translated, hact]
  | readError n => cases h
  | pass n =>
    obtain ⟨hphase, hcalls, rfl⟩ := step_pass hp
    obtain rfl := Option.some.inj h
    have hstay : ¬ Leaving s.server := not_leaving_of_calls hcalls (by simp [hphase])
    refine ⟨.quiet rfl rfl ?_ rfl rfl (by cases n <;> simp [nextPhase]) fun h => absurd h hstay,
      rfl, ⟨rfl, rfl, rfl, rfl⟩⟩
    rw [pendingOut_of_calls (p := s.server) (by simp [hcalls]), pendingOut_of_calls]
    dsimp only
    split_ifs <;> rfl
  | call a r =>
    obtain ⟨rest, hcalls, hcall⟩ := step_call hp
    exact serverCall_change hr hcalls hcall h

/-- A step of the server is one of its process, by an event that is no error. -/
lemma server_step {e : Event} (hr : Ready s.server) (h : step key s (.server e) = some s') :
    ServerChange key s s' ∧ ClientSame s s' ∧
      PollLoop.step key .server s.server e = some s'.server ∧ (∀ n, e ≠ .readError n) ∧
      ∀ a, e ≠ .call a .error := by
  rw [step, Option.bind_eq_some_iff] at h
  obtain ⟨p, hp, h⟩ := h
  obtain ⟨hchange, rfl, hsame⟩ := server_change hr hp h
  refine ⟨hchange, hsame, hp, ?_, ?_⟩
  · rintro n rfl
    cases h
  · rintro a rfl
    cases h

/-- What a step of the client does to the bytes on the socket and on the screen. -/
inductive ClientChange (key : Key m) (s s' : St) : Prop
  | quiet (s2c : s'.s2c = s.s2c) (cliReads : s'.cliReads = s.cliReads)
      (shown : s'.shown ++ pendingOut s'.client = s.shown ++ pendingOut s.client)
      (running : exited s'.client = false)
  | read (chunk : List (UInt8 × Bool)) (s2c : s.s2c = chunk ++ s'.s2c)
      (cliReads : s'.cliReads = s.cliReads ++ [chunk]) (shown : s'.shown = s.shown)
      (before : pendingOut s.client = [])
      (pending : pendingOut s'.client = translated key .client (chunk.map Prod.fst))
      (running : exited s'.client = false)
  | exit (s2c : s'.s2c = s.s2c) (cliReads : s'.cliReads = s.cliReads) (shown : s'.shown = s.shown)
      (before : pendingOut s.client = []) (gone : exited s'.client = true)

/-- The part of the state a step of the client leaves alone. -/
structure ServerSame (s s' : St) : Prop where
  server : s'.server = s.server
  rw : s'.rw = s.rw
  srvReads : s'.srvReads = s.srvReads
  dropped : s'.dropped = s.dropped
  shellOut : s'.shellOut = s.shellOut

lemma clientWrite_change {a : Action} {rest : List Action} {buf : List UInt8} {fd : Output}
    (hr : Ready s.client) (hcalls : s.client.calls = a :: rest)
    (hout1 : a.written .out1 = if fd = .out1 then buf else [])
    (hout2 : fd = .out2 → ¬ a.Forwards) :
    ClientChange key s (clientWrite s { s.client with calls := rest } buf fd) := by
  have hphase := hr.phase_ne_exited hcalls
  cases fd with
  | out1 =>
    refine .quiet rfl rfl ?_ (by simpa)
    rw [pendingOut_cons hcalls, hout1]
    simp only [clientWrite]
    split_ifs <;> simp
  | out2 =>
    refine .quiet rfl rfl ?_ (by simpa)
    rw [hr.pendingOut_eq_nil hcalls (hout2 rfl)]
    exact congrArg _ (hr.pendingOut_rest hcalls (hout2 rfl))

lemma clientCall_change {a : Action} {rest : List Action} {r : Result} (hr : Ready s.client)
    (hcalls : s.client.calls = a :: rest) (hcall : callStep .client s.client a rest r = some p)
    (h : clientCall s p a r = some s') :
    ClientChange key s s' ∧ s'.client = p ∧ ServerSame s s' := by
  have hphase := hr.phase_ne_exited hcalls
  cases r with
  | error => cases h
  | ok =>
    cases a with
    | write fd buf | writeToSocket fd buf =>
      obtain rfl : { s.client with calls := rest } = p := by simpa [callStep] using hcall
      obtain rfl := Option.some.inj h
      refine ⟨clientWrite_change hr hcalls rfl ?_, ?_⟩
      · rintro rfl ⟨hfd, -⟩
        cases hfd
      · cases fd <;> exact ⟨rfl, rfl, rfl, rfl, rfl, rfl⟩
    | kill | closePipes =>
      obtain rfl : { s.client with calls := rest } = p := by simpa [callStep] using hcall
      obtain rfl := Option.some.inj h
      refine ⟨.quiet rfl rfl ?_ (by simpa), rfl, ⟨rfl, rfl, rfl, rfl, rfl⟩⟩
      rw [hr.pendingOut_rest hcalls id, hr.pendingOut_eq_nil hcalls id]
    | initiateShutdown =>
      obtain rfl : s.client.exit = p := by simpa [callStep] using hcall
      obtain rfl := Option.some.inj h
      exact ⟨.exit rfl rfl rfl (hr.pendingOut_eq_nil hcalls id) rfl, rfl,
        ⟨rfl, rfl, rfl, rfl, rfl⟩⟩
  | sigpipe =>
    cases a with
    | write fd buf | writeToSocket fd buf =>
      obtain rfl : { s.client with calls := sighandler .client } = p := by
        simpa [callStep] using hcall
      cases fd with
      | out1 => cases h
      | out2 =>
        simp only [clientCall, Option.ite_none_right_eq_some, Option.some.injEq] at h
        obtain ⟨-, rfl⟩ := h
        refine ⟨.quiet rfl rfl ?_ (by simpa), rfl, ⟨rfl, rfl, rfl, rfl, rfl⟩⟩
        rw [hr.pendingOut_eq_nil hcalls (by simp [Action.Forwards])]
        exact congrArg _ (pendingOut_of_leaving (leaving_sighandler .client))
    | kill | closePipes | initiateShutdown => cases h

lemma client_change {e : Event} (hr : Ready s.client)
    (hp : PollLoop.step key .client s.client e = some p) (h : clientStep s p e = some s') :
    ClientChange key s s' ∧ s'.client = p ∧ ServerSame s s' := by
  have hnil : ∀ {q : Proc}, pendingOut s.client = [] → pendingOut q = [] →
      s.shown ++ pendingOut q = s.shown ++ pendingOut s.client := fun h1 h2 => by rw [h1, h2]
  cases e with
  | leave =>
    obtain ⟨hphase, hcalls, -, -, rfl⟩ := step_leave hp
    obtain rfl := Option.some.inj h
    exact ⟨.quiet rfl rfl (hnil (pendingOut_of_calls (by simp [hcalls]))
      (pendingOut_of_calls rfl)) (by simp [hphase]), rfl, ⟨rfl, rfl, rfl, rfl, rfl⟩⟩
  | poll revents =>
    obtain ⟨hphase, hcalls, -, rfl⟩ := step_poll hp
    simp only [clientStep, Option.ite_none_right_eq_some, Option.some.injEq] at h
    obtain ⟨-, rfl⟩ := h
    exact ⟨.quiet rfl rfl (hnil (pendingOut_of_calls (by simp [hcalls]))
      (pendingOut_of_phase (by simp))) (by simp), rfl, ⟨rfl, rfl, rfl, rfl, rfl⟩⟩
  | read n buf =>
    obtain ⟨hphase, hcalls, -, rfl⟩ := step_read hp
    have hbefore : pendingOut s.client = [] := pendingOut_of_calls (by simp [hcalls])
    cases n with
    | initial =>
      simp only [clientStep, Option.ite_none_right_eq_some, Option.some.injEq] at h
      obtain ⟨-, rfl⟩ := h
      exact ⟨.quiet rfl rfl (hnil hbefore (pendingOut_of_phase (by simp [nextPhase])))
        (by simp [nextPhase]), rfl, ⟨rfl, rfl, rfl, rfl, rfl⟩⟩
    | redirect =>
      simp only [clientStep, Option.ite_none_right_eq_some, Option.some.injEq] at h
      obtain ⟨⟨-, htake, -⟩, rfl⟩ := h
      refine ⟨.read (s.s2c.take buf.length) (List.take_append_drop _ _).symm rfl rfl hbefore ?_
        (by simp [nextPhase]), rfl, ⟨rfl, rfl, rfl, rfl, rfl⟩⟩
      have hact := (readActions_redirect key .client s.client.exitTriggered buf).1
      rw [List.map_take, htake]
      simp [pendingOut, redirecting, nextPhase, translated, hact]
  | readError n => cases h
  | pass n =>
    obtain ⟨hphase, hcalls, rfl⟩ := step_pass hp
    obtain rfl := Option.some.inj h
    refine ⟨.quiet rfl rfl (hnil (pendingOut_of_calls (by simp [hcalls]))
      (pendingOut_of_calls ?_)) (by cases n <;> simp [nextPhase]), rfl,
      ⟨rfl, rfl, rfl, rfl, rfl⟩⟩
    dsimp only
    split_ifs <;> rfl
  | call a r =>
    obtain ⟨rest, hcalls, hcall⟩ := step_call hp
    exact clientCall_change hr hcalls hcall h

lemma client_step {e : Event} (hr : Ready s.client) (h : step key s (.client e) = some s') :
    ClientChange key s s' ∧ ServerSame s s' ∧
      PollLoop.step key .client s.client e = some s'.client ∧ (∀ n, e ≠ .readError n) ∧
      ∀ a, e ≠ .call a .error := by
  rw [step, Option.bind_eq_some_iff] at h
  obtain ⟨p, hp, h⟩ := h
  obtain ⟨hchange, rfl, hsame⟩ := client_change hr hp h
  refine ⟨hchange, hsame, hp, ?_, ?_⟩
  · rintro n rfl
    cases h
  · rintro a rfl
    cases h

/-- A process only ends by shutting down. -/
lemma exited_iff_initiateShutdown {e : Event} (hr : Ready p)
    (h : PollLoop.step key role p e = some p') (hread : ∀ n, e ≠ .readError n)
    (herror : ∀ a, e ≠ .call a .error) :
    exited p' = true ↔ ∃ r, e = .call .initiateShutdown r := by
  cases e with
  | leave =>
    obtain ⟨hphase, -, -, -, rfl⟩ := step_leave h
    simp [hphase]
  | poll revents =>
    obtain ⟨-, -, -, rfl⟩ := step_poll h
    simp
  | read n buf =>
    obtain ⟨-, -, -, rfl⟩ := step_read h
    cases n <;> simp [nextPhase]
  | readError n => exact absurd rfl (hread n)
  | pass n =>
    obtain ⟨-, -, rfl⟩ := step_pass h
    cases n <;> simp [nextPhase]
  | call a r =>
    obtain ⟨rest, hcalls, hcall⟩ := step_call h
    have hphase := hr.phase_ne_exited hcalls
    cases r with
    | error => exact absurd rfl (herror a)
    | ok =>
      cases a with
      | initiateShutdown =>
        obtain rfl : p.exit = p' := by simpa [callStep] using hcall
        simp [Proc.exit]
      | write | writeToSocket | kill | closePipes =>
        obtain rfl : { p with calls := rest } = p' := by simpa [callStep] using hcall
        simpa using hphase
    | sigpipe =>
      cases a with
      | write | writeToSocket =>
        obtain rfl : { p with calls := sighandler role } = p' := by simpa [callStep] using hcall
        simpa using hphase
      | kill | closePipes | initiateShutdown => simp [callStep] at hcall

lemma isShutdown_iff {e : Event} : isShutdown e = true ↔ ∃ r, e = .call .initiateShutdown r := by
  cases e with
  | call a r => cases a <;> simp [isShutdown]
  | leave | poll | read | readError | pass => simp [isShutdown]

lemma orderly_client {e : Event} (hr : Ready s.client) (h : step key s (.client e) = some s') :
    Orderly s (.client e) ↔ (exited s'.client = true → ¬ InFlight s) := by
  obtain ⟨-, -, hp, hread, herror⟩ := client_step hr h
  rw [exited_iff_initiateShutdown hr hp hread herror, ← isShutdown_iff, Orderly]

lemma orderly_server {e : Event} (hr : Ready s.server) (h : step key s (.server e) = some s') :
    Orderly s (.server e) ↔ (exited s'.server = true → s.rw = []) := by
  obtain ⟨-, -, hp, hread, herror⟩ := server_step hr h
  rw [exited_iff_initiateShutdown hr hp hread herror, ← isShutdown_iff, Orderly]

/-! ### The invariant -/

/-- No byte is lost on the way: what has been written is what has been read and what is still
there. -/
structure Inv (key : Key m) (s : St) : Prop where
  client : Ready s.client
  server : Ready s.server
  read : s.shellOut = s.srvReads.flatten ++ s.rw
  sent : s.srvReads.flatMap (translated key .server) =
    shellBytes s.cliReads.flatten ++ shellBytes s.s2c ++ pendingOut s.server ++ s.dropped
  shown : s.shown ++ pendingOut s.client =
    s.cliReads.flatMap fun buf => translated key .client (buf.map Prod.fst)
  dropped : s.dropped ≠ [] → exited s.client = true ∧ Leaving s.server

/-- Bytes of the shell will not be shown any more. -/
def Lost (s : St) : Prop :=
  exited s.client = true ∧ (InFlight s ∨ s.dropped ≠ []) ∨ exited s.server = true ∧ s.rw ≠ []

lemma inv_init (keys : List UInt8) : Inv key (init keys) where
  client := ⟨fun _ => Or.inl (by simp [init, Proc.init]), fun h => by cases h⟩
  server := ⟨fun _ => Or.inl (by simp [init, Proc.init]), fun h => by cases h⟩
  read := rfl
  sent := rfl
  shown := rfl
  dropped h := absurd rfl h

/-- A process that has ended takes no step. -/
lemma not_exited_of_step {e : Event} (hr : Ready p) (h : PollLoop.step key role p e = some p') :
    exited p = false := by
  rw [exited_eq_false]
  cases e with
  | leave => simp [(step_leave h).1]
  | poll => simp [(step_poll h).1]
  | read => simp [(step_read h).1]
  | readError => simp [(step_readError h).1]
  | pass => simp [(step_pass h).1]
  | call a r =>
    obtain ⟨rest, hcalls, -⟩ := step_call h
    exact hr.phase_ne_exited hcalls

lemma inv_client {e : Event} (hi : Inv key s) (h : step key s (.client e) = some s') :
    Inv key s' := by
  obtain ⟨hchange, hsame, hp, -⟩ := client_step hi.client h
  have hready := ready_step hi.client hp
  obtain ⟨hclient, hserver, hread, hsent, hshown, hdropped⟩ := hi
  have hexited : exited s.client = false := not_exited_of_step hclient hp
  have hnodrop : s.dropped = [] := by
    by_contra hne
    rw [(hdropped hne).1] at hexited
    cases hexited
  refine ⟨hready, by rw [hsame.server]; exact hserver, ?_, ?_, ?_, ?_⟩
  · rw [hsame.shellOut, hsame.srvReads, hsame.rw, hread]
  · rw [hsame.srvReads, hsame.server, hsame.dropped, hsent]
    cases hchange with
    | quiet hs2c hcli | exit hs2c hcli => rw [hs2c, hcli]
    | read chunk hs2c hcli =>
      rw [hs2c, hcli]
      simp
  · cases hchange with
    | quiet hs2c hcli hsh => rw [hsh, hcli, hshown]
    | read chunk hs2c hcli hsh hbefore hpending =>
      rw [hbefore, List.append_nil] at hshown
      rw [hsh, hcli, hpending, hshown]
      simp
    | exit hs2c hcli hsh hbefore hgone =>
      rw [hbefore, List.append_nil] at hshown
      rw [hsh, hcli, pendingOut_of_phase (by simp_all), List.append_nil, hshown]
  · rw [hsame.dropped, hnodrop]
    exact fun h => absurd rfl h

lemma inv_server {e : Event} (hi : Inv key s) (h : step key s (.server e) = some s') :
    Inv key s' := by
  obtain ⟨hchange, hsame, hp, -⟩ := server_step hi.server h
  have hready := ready_step hi.server hp
  obtain ⟨hclient, -, hread, hsent, hshown, hdropped⟩ := hi
  refine ⟨by rw [hsame.client]; exact hclient, hready, ?_, ?_, ?_, ?_⟩
  · rw [hsame.shellOut, hread]
    cases hchange with
    | quiet hrw hsrv | sent _ hrw hsrv | broken _ hrw hsrv | exit hrw hsrv => rw [hrw, hsrv]
    | read buf hrw hsrv => rw [hrw, hsrv]; simp
  · rw [hsame.cliReads]
    cases hchange with
    | quiet hrw hsrv hpending hs2c hdrop => rw [hsrv, hpending, hs2c, hdrop, hsent]
    | read buf hrw hsrv hbefore hpending hs2c hdrop _ hstay =>
      have hnodrop : s.dropped = [] := by
        by_contra hne
        exact hstay (hdropped hne).2
      rw [hsrv, hpending, hs2c, hdrop, hnodrop, List.flatMap_append, hsent, hbefore, hnodrop]
      simp
    | sent buf hrw hsrv hpending hs2c hdrop =>
      rw [hsrv, hs2c, hdrop, hsent, hpending]
      simp
    | broken hclosed hrw hsrv hpending hs2c hdrop _ _ hstay =>
      have hnodrop : s.dropped = [] := by
        by_contra hne
        exact hstay (hdropped hne).2
      rw [hsrv, hs2c, hdrop, hsent, hpending, hnodrop]
      simp
    | exit hrw hsrv hbefore hs2c hdrop hgone =>
      rw [hsrv, hs2c, hdrop, hsent, hbefore, pendingOut_of_phase (by simp_all)]
  · rw [hsame.shown, hsame.client, hsame.cliReads, hshown]
  · rw [hsame.client]
    cases hchange with
    | quiet _ _ _ _ hdrop _ hleave =>
      rw [hdrop]
      exact fun h => ⟨(hdropped h).1, hleave (hdropped h).2⟩
    | read buf _ _ _ _ _ hdrop _ hstay | sent buf _ _ _ _ hdrop _ hstay =>
      rw [hdrop]
      exact fun h => absurd (hdropped h).2 hstay
    | broken hclosed _ _ _ _ _ _ hleave => exact fun _ => ⟨hclosed, hleave⟩
    | exit _ _ _ _ hdrop hgone =>
      rw [hdrop]
      exact fun h => ⟨(hdropped h).1, Or.inr (Or.inr (by simpa using hgone))⟩

/-! ### Loss -/

lemma translated_ne_nil {buf : List UInt8} (h : buf ≠ []) : translated key role buf ≠ [] := by
  obtain ⟨-, hfwd, hne⟩ := readActions_redirect key role false buf
  have hcalls := hne h
  rw [translated]
  cases hred : redirected key role buf with
  | nil => exact absurd hred hcalls
  | cons a as =>
    have := (hfwd a (by simp [hred])).written_ne_nil
    simp [written, this]

lemma lost_client {e : Event} (hi : Inv key s) (h : step key s (.client e) = some s') :
    Lost s' ↔ Lost s ∨ ¬ Orderly s (.client e) := by
  obtain ⟨hchange, hsame, hp, -⟩ := client_step hi.client h
  have hexited : exited s.client = false := not_exited_of_step hi.client hp
  have hnodrop : s.dropped = [] := by
    by_contra hne
    rw [(hi.dropped hne).1] at hexited
    cases hexited
  rw [orderly_client hi.client h, Lost, Lost, hsame.rw, hsame.server, hsame.dropped, hnodrop,
    hexited]
  cases hchange with
  | quiet _ _ _ hrun | read _ _ _ _ _ _ hrun => simp [hrun]
  | exit hs2c _ _ _ hgone =>
    simp only [hgone, InFlight, hsame.rw, hsame.server, hs2c]
    grind

lemma lost_server {e : Event} (hi : Inv key s) (h : step key s (.server e) = some s') :
    Lost s' ↔ Lost s ∨ ¬ Orderly s (.server e) := by
  obtain ⟨hchange, hsame, hp, -⟩ := server_step hi.server h
  have hexited : exited s.server = false := not_exited_of_step hi.server hp
  rw [orderly_server hi.server h, Lost, Lost, hsame.client, hexited]
  cases hchange with
  | quiet hrw _ hpending hs2c hdrop hrun =>
    simp [hrun, InFlight, hrw, hpending, hs2c, hdrop]
  | read buf hrw hsrv hbefore hpending hs2c hdrop hrun =>
    -- the bytes move from the pipe to the buffer
    simp only [hrun, InFlight, hrw, hbefore, hpending, hs2c, hdrop]
    by_cases hbuf : buf = []
    · subst hbuf
      simp [translated, redirected]
    · simp [hbuf, translated_ne_nil hbuf]
  | sent buf hrw hsrv hpending hs2c hdrop hrun =>
    -- the bytes move from the buffer to the socket
    simp only [hrun, InFlight, hrw, hpending, hs2c, hdrop]
    simp only [ne_eq, List.append_eq_nil_iff, not_and_or]
    grind
  | broken hclosed hrw hsrv hpending hs2c hdrop hrun =>
    simp only [hrun, InFlight, hrw, hpending, hs2c, hdrop]
    simp only [ne_eq, List.append_eq_nil_iff, not_and_or]
    grind
  | exit hrw hsrv hbefore hs2c hdrop hgone =>
    have hafter : pendingOut s'.server = [] := pendingOut_of_phase (by simp_all)
    simp only [hgone, InFlight, hrw, hbefore, hafter, hs2c, hdrop]
    grind

/-- **The step lemma.** Bytes get lost exactly by the steps that are not orderly, and stay so. -/
lemma inv_step (s : St) (a : Label) (s' : St) (hi : Inv key s) (h : step key s a = some s') :
    Inv key s' ∧ (Lost s' ↔ Lost s ∨ ¬ Orderly s a) := by
  cases a with
  | client e => exact ⟨inv_client hi h, lost_client hi h⟩
  | server e => exact ⟨inv_server hi h, lost_server hi h⟩
  | shellRead count =>
    simp only [step, Option.ite_none_left_eq_some, Option.some.injEq] at h
    obtain ⟨-, rfl⟩ := h
    exact ⟨⟨hi.client, hi.server, hi.read, hi.sent, hi.shown, hi.dropped⟩,
      by simp [Lost, InFlight, Orderly]⟩
  | shellExit =>
    simp only [step, Option.ite_none_left_eq_some, Option.some.injEq] at h
    obtain ⟨-, rfl⟩ := h
    exact ⟨⟨hi.client, hi.server, hi.read, hi.sent, hi.shown, hi.dropped⟩,
      by simp [Lost, InFlight, Orderly]⟩
  | shellWrite buf =>
    simp only [step, Option.ite_none_left_eq_some, Option.some.injEq, not_or] at h
    obtain ⟨⟨-, -, hserver⟩, rfl⟩ := h
    refine ⟨⟨hi.client, hi.server, ?_, hi.sent, hi.shown, hi.dropped⟩, ?_⟩
    · simp [hi.read]
    · rw [Bool.not_eq_true] at hserver
      simp only [Lost, InFlight, Orderly, hserver, ne_eq, List.append_eq_nil_iff, not_and_or,
        not_or, Bool.not_eq_false]
      grind

/-- **When no output is lost.** In every run after which client and server have both exited,
everything the shell wrote has been written to the screen if and only if every step was
orderly: the client shut down with no byte of the shell on the way, the server with none left
in its pipe, and the shell wrote nothing once the client was gone. -/
theorem delivered_iff_orderly (key : Key m) (keys : List UInt8) (schedule : List Label) (s : St)
    (hrun : run (step key) (init keys) schedule = some s) (hclient : s.client.phase = .exited)
    (hserver : s.server.phase = .exited) :
    Delivered key s ↔ Always (step key) Orderly (init keys) schedule := by
  have hlost : ¬ Lost (init keys) := by simp [Lost, init, Proc.init, exited]
  have hi : Inv key s :=
    invariant (fun s a s' hs h => (inv_step s a s' hs h).1) (inv_init keys) hrun
  rw [always_iff_of_lasting inv_step (inv_init keys) hlost hrun]
  have hpending : pendingOut s.server = [] := pendingOut_of_phase (by simp [hserver])
  have hpending' : pendingOut s.client = [] := pendingOut_of_phase (by simp [hclient])
  have hread := hi.read
  have hsent := hi.sent
  have hshown := hi.shown
  rw [hpending, List.append_nil] at hsent
  rw [hpending', List.append_nil] at hshown
  have hread' : s.srvReads.flatten = s.shellOut ↔ s.rw = [] := by
    rw [hread, List.self_eq_append_right]
  have hsent' : shellBytes s.cliReads.flatten = s.srvReads.flatMap (translated key .server) ↔
      shellBytes s.s2c = [] ∧ s.dropped = [] := by
    rw [hsent, List.append_assoc, List.self_eq_append_right, List.append_eq_nil_iff]
  constructor
  · rintro ⟨h1, h2, -⟩
    rw [hread'] at h1
    rw [hsent'] at h2
    simp [Lost, InFlight, h1, h2, hpending]
  · intro hnot
    simp only [Lost, InFlight, hpending, exited_eq_true, hclient, hserver, true_and, ne_eq,
      not_true_eq_false, false_or, not_or, not_not] at hnot
    exact ⟨hread'.mpr hnot.2, hsent'.mpr ⟨hnot.1.1.2, hnot.1.2⟩, hshown⟩

/-- What `poll` reports: input on the two descriptors, and a hang-up on the second. -/
def revents (initial redirect hangup : Bool) : Input → Revents
  | .initial => ⟨initial, false, false⟩
  | .redirect => ⟨redirect, hangup, false⟩

/-- The shell writes a byte and exits, the server follows it, and only then the user types ^D:
the client reads both in one iteration. -/
def orderlySchedule : List Label :=
  [.shellWrite [104], .server (.poll (revents false true false)), .server (.pass .initial),
    .server (.read .redirect [104]), .server (.call (.writeToSocket .out1 [104]) .ok),
    .shellExit, .server (.poll (revents false false true)), .server (.pass .initial),
    .server (.pass .redirect), .server (.call .initiateShutdown .ok),
    .client (.poll (revents true true true)), .client (.read .initial [4]),
    .client (.call (.writeToSocket .out2 [4]) .ok), .client (.call (.write .out1 [94, 68]) .ok),
    .client (.read .redirect [104]), .client (.call (.write .out1 [104]) .ok),
    .client .leave, .client (.call .initiateShutdown .ok)]

/-- The client leaves after ^D, and the server closes the pipe with a byte in it. -/
def hastySchedule : List Label :=
  [.client (.poll (revents true false false)), .client (.read .initial [4]),
    .client (.call (.writeToSocket .out2 [4]) .ok), .client (.call (.write .out1 [94, 68]) .ok),
    .client (.pass .redirect), .client .leave,
    .server (.poll (revents true false false)), .shellWrite [104], .server (.read .initial [4]),
    .server (.call .closePipes .ok), .shellExit, .server (.call .initiateShutdown .ok),
    .client (.call .initiateShutdown .ok)]

theorem delivered_iff_orderly_sample :
    ∃ s, run (step (noKey : Key 7)) (init [4]) orderlySchedule = some s ∧
      Delivered (noKey : Key 7) s := by
  have hend : (run (step (noKey : Key 7)) (init [4]) orderlySchedule).map
      (fun s => (s.client.phase, s.server.phase)) = some (.exited, .exited) := by decide +kernel
  have horderly : Always (step (noKey : Key 7)) Orderly (init [4]) orderlySchedule := by
    decide +kernel
  rw [Option.map_eq_some_iff] at hend
  obtain ⟨s, hs, hphase⟩ := hend
  rw [Prod.mk.injEq] at hphase
  exact ⟨s, hs, (delivered_iff_orderly noKey [4] orderlySchedule s hs hphase.1 hphase.2).mpr
    horderly⟩

/-- Both processes have exited, and the byte of the shell is still in the pipe. -/
theorem hasty_shutdown_loses :
    ∃ s, run (step (noKey : Key 7)) (init [4]) hastySchedule = some s ∧
      s.client.phase = .exited ∧ s.server.phase = .exited ∧ s.shellOut = [104] ∧
      s.shown = [] ∧ ¬ Delivered (noKey : Key 7) s := by
  have hend : (run (step (noKey : Key 7)) (init [4]) hastySchedule).map
      (fun s => decide (s.client.phase = .exited ∧ s.server.phase = .exited ∧
        s.shellOut = [104] ∧ s.shown = [] ∧ s.srvReads = [])) = some true := by decide +kernel
  rw [Option.map_eq_some_iff] at hend
  obtain ⟨s, hs, hall⟩ := hend
  obtain ⟨hclient, hserver, hout, hshown, hreads⟩ := of_decide_eq_true hall
  refine ⟨s, hs, hclient, hserver, hout, hshown, fun h => ?_⟩
  have := h.read
  simp [hout, hreads] at this

end LowLevelTasks.Shutdown
