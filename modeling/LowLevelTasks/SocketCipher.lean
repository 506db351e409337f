import LowLevelTasks.Shutdown

/-!
What goes over the socket of project 1b in clear.

The socket is `out1` to the server and `out2` to the client. Of all the branches of the loop
only the one for DEL writes to `out1` in both roles alike, so it is the echo on the screen of
the client, and on the server a byte on the socket that nobody has encrypted.
-/

namespace LowLevelTasks.SocketCipher

open LowLevelTasks.Runs LowLevelTasks.Cfb LowLevelTasks.Encryption LowLevelTasks.PollInputs
open LowLevelTasks.PollLoop

/-- The descriptor of the socket. -/
def socket : Role → Output
  | .client => .out2
  | .server => .out1

/-- The bytes of a read that the server comes to before it shuts down. -/
def reached : Input → List UInt8 → List UInt8
  | .initial, buf => buf.takeWhile fun b => b ≠ 3 ∧ b ≠ 4
  | .redirect, buf => buf

/-- The calls of a list up to the one that ends the process. -/
def performed (calls : List Action) : List Action := calls.takeWhile (· ≠ .initiateShutdown)

/-- The newline that a carriage return takes along is left out. -/
def skipNewline (b : UInt8) (buf : List UInt8) : List UInt8 :=
  if b = 13 ∧ buf.head? = some 10 then buf.tail else buf

/-- The echo of a DEL. -/
def echo : Action := .write .out1 [127]

variable {m : ℕ} (key : Key m) (role : Role)

/-- Bytes that the call writes to the socket have gone through `mcrypt_generic` in
`write_to_socket`. -/
def Ciphered (a : Action) : Prop :=
  a.written (socket role) ≠ [] → ∃ buf count,
    a = .writeToSocket (socket role) (encrypt key.block IV (strncpy buf count))

/-- The server does not come to a DEL in this read. -/
def NoDel (n : Input) (buf : List UInt8) : Prop :=
  role = .server → 127 ∉ reached n (readBuffer key role n buf)

variable {key role}

lemma ciphered_of_written_eq_nil {a : Action} (h : a.written (socket role) = []) :
    Ciphered key role a := fun hne => absurd h hne

lemma ciphered_toSocket (hkey : key.text.bytes ≠ []) (buf : List UInt8) (count : ℕ) :
    Ciphered key role (toSocket key (socket role) buf count) := fun _ =>
  ⟨buf, count, by rw [toSocket, writeToSocket_of_ne_nil hkey]⟩

lemma not_ciphered_echo : ¬ Ciphered key .server echo := by
  intro h
  obtain ⟨buf, count, heq⟩ := h (List.cons_ne_nil _ _)
  cases heq

/-! ### One byte -/

lemma ciphered_client (hkey : key.text.bytes ≠ []) (n : Input) (exitTriggered : Bool) (b : UInt8) :
    ∀ a ∈ (handleInput key .client n exitTriggered b).1, Ciphered key .client a := by
  have hsent (buf : List UInt8) (count : ℕ) : Ciphered key .client (toSocket key .out2 buf count) :=
    ciphered_toSocket hkey buf count
  have hshown (buf : List UInt8) : Ciphered key .client (.write .out1 buf) :=
    ciphered_of_written_eq_nil rfl
  cases n with
  | initial =>
    unfold handleInput
    split_ifs <;> simp [hsent, hshown]
  | redirect =>
    rw [handleInput_redirect]
    exact List.forall_mem_singleton.mpr (hshown _)

/-- The server answers one byte with one call, unless it is told to end the session. -/
lemma handleInput_server (hkey : key.text.bytes ≠ []) (n : Input) (b : UInt8) :
    (∃ c, handleInput key .server n false b = ([c, .initiateShutdown], true) ∧
      c ≠ .initiateShutdown ∧ Ciphered key .server c ∧ c ≠ echo ∧ n = .initial ∧
      (b = 3 ∨ b = 4)) ∨
    ∃ c, handleInput key .server n false b = ([c], false) ∧ c ≠ .initiateShutdown ∧
      (c = echo ∨ Ciphered key .server c) ∧ (c = echo ↔ b = 127) ∧
      (n = .initial → b ≠ 3 ∧ b ≠ 4) := by
  have hsent (buf : List UInt8) (count : ℕ) : Ciphered key .server (toSocket key .out1 buf count) :=
    ciphered_toSocket hkey buf count
  cases n with
  | initial =>
    by_cases h3 : b = 3
    · subst h3
      exact .inl ⟨.kill, rfl, by decide, ciphered_of_written_eq_nil rfl, by decide, rfl, .inl rfl⟩
    by_cases h4 : b = 4
    · subst h4
      exact .inl ⟨.closePipes, rfl, by decide, ciphered_of_written_eq_nil rfl, by decide, rfl,
        .inr rfl⟩
    right
    by_cases hnl : b = 13 ∨ b = 10
    · refine ⟨.write .out2 [10], by rw [handleInput, if_pos hnl], by decide,
        .inr (ciphered_of_written_eq_nil rfl), ?_, fun _ => ⟨h3, h4⟩⟩
      obtain rfl | rfl := hnl <;> decide
    by_cases h127 : b = 127
    · subst h127
      exact ⟨echo, rfl, by decide, .inl rfl, by decide, fun _ => ⟨h3, h4⟩⟩
    · refine ⟨.write .out2 [b], by simp [handleInput, h3, h4, hnl, h127], by simp,
        .inr (ciphered_of_written_eq_nil rfl), ?_, fun _ => ⟨h3, h4⟩⟩
      exact iff_of_false (by simp [echo]) h127
  | redirect =>
    right
    refine ⟨redirectCall key .server b, handleInput_redirect key .server false b, ?_⟩
    rw [redirectCall]
    split_ifs with hnl h127
    · refine ⟨by simp [toSocket], .inr (hsent _ _), iff_of_false (by simp [echo, toSocket]) ?_,
        by simp⟩
      obtain rfl | rfl := hnl <;> decide
    · exact ⟨by simp, .inl (by rw [h127]; rfl), by simp [echo, h127], by simp⟩
    · exact ⟨by simp [toSocket], .inr (hsent _ _), iff_of_false (by simp [echo, toSocket]) h127,
        by simp⟩

/-! ### The loop over the buffer -/

lemma inputLoop_cons (n : Input) (exitTriggered : Bool) (b : UInt8) (buf : List UInt8) :
    inputLoop key role n exitTriggered (b :: buf) =
      ((handleInput key role n exitTriggered b).1 ++ (inputLoop key role n
          (handleInput key role n exitTriggered b).2 (skipNewline b buf)).1,
        (inputLoop key role n
          (handleInput key role n exitTriggered b).2 (skipNewline b buf)).2) := by
  cases buf with
  | nil => simp [inputLoop, skipNewline]
  | cons b' buf =>
    by_cases hcr : b = 13 ∧ b' = 10
    · simp [inputLoop, skipNewline, hcr]
    · have hskip : skipNewline b (b' :: buf) = b' :: buf := if_neg (by simpa using hcr)
      simp only [inputLoop, if_neg hcr, hskip]

lemma length_skipNewline_le (b : UInt8) (buf : List UInt8) :
    (skipNewline b buf).length ≤ buf.length := by
  rw [skipNewline]
  split
  · rw [List.length_tail]
    exact Nat.sub_le _ _
  · exact Nat.le_refl _

/-- What is left out is no DEL, and the server does not shut down for it. -/
lemma mem_reached_skipNewline (n : Input) (b : UInt8) (buf : List UInt8) :
    127 ∈ reached n (skipNewline b buf) ↔ 127 ∈ reached n buf := by
  rw [skipNewline]
  split
  · next h =>
    cases buf with
    | nil => exact Iff.rfl
    | cons b' buf =>
      obtain rfl : b' = 10 := by simpa using h.2
      cases n <;> simp [reached]
  · exact Iff.rfl

/-- All calls of the client on the socket are ciphered. -/
lemma ciphered_inputLoop_client (hkey : key.text.bytes ≠ []) (n : Input) (buf : List UInt8) :
    ∀ exitTriggered, ∀ a ∈ (inputLoop key .client n exitTriggered buf).1,
      Ciphered key .client a := by
  induction hlen : buf.length using Nat.strong_induction_on generalizing buf with
  | _ len ih =>
    subst hlen
    intro exitTriggered
    cases buf with
    | nil => simp [inputLoop]
    | cons b buf =>
      rw [inputLoop_cons]
      intro a ha
      rcases List.mem_append.mp ha with ha | ha
      · exact ciphered_client hkey n exitTriggered b a ha
      · exact ih _ (Nat.lt_succ_of_le (length_skipNewline_le b buf)) _ rfl _ a ha

/-- What the server does with a buffer before it shuts down: everything it writes to the socket
is ciphered but the echo, and the echo is written exactly if it comes to a DEL. -/
structure Serves (n : Input) (buf : List UInt8) (calls : List Action) (exitTriggered : Bool) :
    Prop where
  ciphered : ∀ a ∈ performed calls, a = echo ∨ Ciphered key .server a
  echoed : echo ∈ performed calls ↔ 127 ∈ reached n buf
  exit : exitTriggered = true → Action.initiateShutdown ∈ calls

lemma performed_cons {c : Action} (hc : c ≠ .initiateShutdown) (calls : List Action) :
    performed (c :: calls) = c :: performed calls := List.takeWhile_cons_of_pos (by simpa using hc)

lemma serves_inputLoop (hkey : key.text.bytes ≠ []) (n : Input) (buf : List UInt8) :
    @Serves _ key n buf (inputLoop key .server n false buf).1
      (inputLoop key .server n false buf).2 := by
  induction hlen : buf.length using Nat.strong_induction_on generalizing buf with
  | _ len ih =>
    subst hlen
    cases buf with
    | nil =>
      refine ⟨by simp [inputLoop, performed], ?_, by simp [inputLoop]⟩
      cases n <;> simp [inputLoop, performed, reached]
    | cons b buf =>
      have hrest := ih _ (Nat.lt_succ_of_le (length_skipNewline_le b buf)) _ rfl
      rw [inputLoop_cons]
      obtain ⟨c, hact, hc, hcipher, hecho, rfl, hb⟩ | ⟨c, hact, hc, hcipher, hecho, hb⟩ :=
        handleInput_server hkey n b
      · -- the rest of the buffer is not reached
        have hstop : reached .initial (b :: buf) = [] := by
          obtain rfl | rfl := hb <;> simp [reached]
        rw [hact]
        dsimp only
        have hperf (calls : List Action) : performed ([c, .initiateShutdown] ++ calls) = [c] := by
          rw [List.cons_append, performed_cons hc]
          simp [performed]
        refine ⟨?_, ?_, fun _ => by simp⟩
        · rw [hperf]
          exact List.forall_mem_singleton.mpr (.inr hcipher)
        · rw [hperf, hstop]
          simpa using hecho.symm
      · have hgo : 127 ∈ reached n (b :: buf) ↔ b = 127 ∨ 127 ∈ reached n buf := by
          cases n with
          | initial =>
            obtain ⟨h3, h4⟩ := hb rfl
            simp [reached, h3, h4, eq_comm]
          | redirect => simp [reached, eq_comm]
        rw [hact]
        dsimp only
        rw [List.singleton_append]
        refine ⟨?_, ?_, fun h => List.mem_cons_of_mem _ (hrest.exit h)⟩
        · rw [performed_cons hc, List.forall_mem_cons]
          exact ⟨hcipher, hrest.ciphered⟩
        · rw [performed_cons hc, List.mem_cons, hrest.echoed, hgo, mem_reached_skipNewline,
            ← hecho, eq_comm (a := echo)]

/-! ### Runs -/

/-- The pending calls up to a shutdown, and a shutdown among them once the server knows of the
end of the session. -/
structure Guarded (key : Key m) (role : Role) (p : Proc) : Prop where
  ciphered : ∀ a ∈ performed p.calls, Ciphered key role a
  triggered : role = .server → p.exitTriggered = true →
    Action.initiateShutdown ∈ p.calls ∨ p.phase = .exited

variable {p p' : Proc}

lemma guarded_init : Guarded key role .init := ⟨by simp [Proc.init, performed], by simp [Proc.init]⟩

lemma guarded_exit : Guarded key role p.exit :=
  ⟨by simp [Proc.exit, performed], fun _ _ => .inr rfl⟩

/-- A process that leaves, or goes on with nothing to do. -/
lemma guarded_shutdown (phase : Phase) (calls : List Action)
    (hcalls : calls = [.initiateShutdown] ∨
      calls = [] ∧ ¬ (role = .server ∧ p.exitTriggered = true)) :
    Guarded key role { p with phase := phase, calls := calls } := by
  obtain rfl | ⟨rfl, hp⟩ := hcalls
  · exact ⟨by simp [performed], fun _ _ => .inl List.mem_cons_self⟩
  · exact ⟨by simp [performed], fun hr ht => absurd ⟨hr, ht⟩ hp⟩

/-- A server without pending calls does not know of the end of the session. -/
lemma Guarded.not_triggered (hp : Guarded key role p) (hcalls : p.calls = [])
    (hphase : p.phase ≠ .exited) : ¬ (role = .server ∧ p.exitTriggered = true) := by
  rintro ⟨hr, ht⟩
  rcases hp.triggered hr ht with h | h
  · simp [hcalls] at h
  · exact hphase h

lemma guarded_read (hkey : key.text.bytes ≠ []) {n : Input} {buf : List UInt8}
    (hdel : NoDel key role n buf) (hp : ¬ (role = .server ∧ p.exitTriggered = true))
    (phase : Phase) :
    Guarded key role { p with
      phase := phase
      exitTriggered := (readActions key role n p.exitTriggered buf).2
      calls := (readActions key role n p.exitTriggered buf).1 } := by
  cases role with
  | client =>
    refine ⟨fun a ha => ?_, by simp⟩
    exact ciphered_inputLoop_client hkey n _ _ a ((List.takeWhile_prefix _).subset ha)
  | server =>
    have htrig : p.exitTriggered = false := by simpa using hp
    rw [htrig]
    have hserves := serves_inputLoop hkey n (readBuffer key .server n buf)
    refine ⟨fun a ha => ?_, fun _ h => .inl (hserves.exit h)⟩
    rcases hserves.ciphered a ha with rfl | h
    · exact absurd (hserves.echoed.mp ha) (hdel rfl)
    · exact h

lemma guarded_call {a : Action} {rest : List Action} {r : Result} (hp : Guarded key role p)
    (hcalls : p.calls = a :: rest) (h : callStep role p a rest r = some p') :
    Guarded key role p' := by
  rcases Shutdown.callStep_cases h with ⟨rfl, ha⟩ | rfl | rfl
  · refine ⟨fun c hc => hp.ciphered c ?_, fun hr ht => ?_⟩
    · rw [hcalls, performed_cons ha]
      exact List.mem_cons_of_mem a hc
    · rcases hp.triggered hr ht with h | h
      · rw [hcalls] at h
        exact .inl ((List.mem_cons.mp h).resolve_left (Ne.symm ha))
      · exact .inr h
  · exact guarded_exit
  · cases role with
    | client => exact guarded_shutdown _ _ (.inl rfl)
    | server =>
      refine ⟨?_, fun _ _ => .inl (by simp [sighandler])⟩
      rw [sighandler, performed_cons (by decide)]
      simpa [performed] using ciphered_of_written_eq_nil (a := Action.closePipes) rfl

/-- **The step lemma.** -/
lemma guarded_step (hkey : key.text.bytes ≠ []) {e : Event} (hp : Guarded key role p)
    (hdel : ∀ n buf, e = .read n buf → NoDel key role n buf)
    (h : step key role p e = some p') : Guarded key role p' := by
  cases e with
  | leave =>
    obtain ⟨-, -, -, -, rfl⟩ := step_leave h
    exact guarded_shutdown _ _ (.inl rfl)
  | poll revents =>
    obtain ⟨hphase, hcalls, -, rfl⟩ := step_poll h
    exact ⟨hp.ciphered, fun hr ht =>
      absurd ⟨hr, ht⟩ (hp.not_triggered hcalls (by simp [hphase]))⟩
  | read n buf =>
    obtain ⟨hphase, hcalls, -, rfl⟩ := step_read h
    exact guarded_read hkey (hdel n buf rfl) (hp.not_triggered hcalls (by simp [hphase])) _
  | readError n =>
    obtain ⟨-, -, rfl⟩ := step_readError h
    exact guarded_exit
  | pass n =>
    obtain ⟨hphase, hcalls, rfl⟩ := step_pass h
    refine guarded_shutdown _ _ ?_
    split
    · exact .inl rfl
    · exact .inr ⟨rfl, hp.not_triggered hcalls (by simp [hphase])⟩
  | call a r =>
    obtain ⟨rest, hcalls, hcall⟩ := step_call h
    exact guarded_call hp hcalls hcall

/-- A run of calls that succeed, without a shutdown among them. -/
lemma run_calls (calls rest : List Action) (hcalls : p.calls = calls ++ rest)
    (hgo : .initiateShutdown ∉ calls) :
    run (step key role) p (calls.map fun a => .call a .ok) = some { p with calls := rest } := by
  have hstep : ∀ a rest, a ≠ .initiateShutdown →
      step key role { p with calls := a :: rest } (.call a .ok) =
        some { p with calls := rest } := by
    intro a rest ha
    cases a with
    | initiateShutdown => exact absurd rfl ha
    | write | writeToSocket | kill | closePipes => simp [step, callStep]
  have hrun := run_queue (fun as => { p with calls := as }) (Event.call · .ok) hstep
    (fun a ha (h : a = .initiateShutdown) => hgo (h ▸ ha)) rest
  rwa [← hcalls] at hrun

/-- A run in which no DEL is come to. -/
lemma guarded_run (hkey : key.text.bytes ≠ []) {es : List Event}
    (hdel : ∀ n buf, .read n buf ∈ es → NoDel key role n buf) (hp : Guarded key role p)
    (h : run (step key role) p es = some p') :
    Guarded key role p' ∧ ∀ a r, .call a r ∈ es → Ciphered key role a := by
  have hstep : ∀ p e q, Guarded key role p → e ∈ es → step key role p e = some q →
      Guarded key role q ∧ ∀ a r, e = .call a r → Ciphered key role a := by
    intro p e q hp he hq
    refine ⟨guarded_step hkey hp (fun n buf hread => hdel n buf (hread ▸ he)) hq, ?_⟩
    rintro a r rfl
    obtain ⟨rest, hcalls, -⟩ := step_call hq
    by_cases ha : a = .initiateShutdown
    · exact ha ▸ ciphered_of_written_eq_nil rfl
    · exact hp.ciphered a (by rw [hcalls, performed_cons ha]; exact List.mem_cons_self)
  obtain ⟨hlast, hall⟩ := forall_of_allowed hstep hp (fun _ he => he) h
  exact ⟨hlast, fun a r he => hall _ he a r rfl⟩

/-- A server that comes to a DEL writes it to the socket. -/
lemma echo_of_read (hkey : key.text.bytes ≠ []) {n : Input} {buf : List UInt8}
    (htrig : p.exitTriggered = false) (hdel : ¬ NoDel key .server n buf)
    (h : step key .server p (.read n buf) = some p') :
    ∃ es q, run (step key .server) p' es = some q ∧ .call echo .ok ∈ es := by
  obtain ⟨-, -, -, rfl⟩ := step_read h
  rw [NoDel, Classical.not_imp, not_not, ← (serves_inputLoop hkey n _).echoed] at hdel
  set calls := (readActions key .server n p.exitTriggered buf).1 with hcalls
  have hperf : echo ∈ performed calls := by
    rw [hcalls, readActions, htrig]
    exact hdel.2
  have hsplit : performed calls ++ calls.dropWhile (· ≠ .initiateShutdown) = calls :=
    List.takeWhile_append_dropWhile
  have hgo : Action.initiateShutdown ∉ performed calls := fun hmem => by
    simpa using List.mem_takeWhile_imp hmem
  exact ⟨_, _, run_calls _ _ hsplit.symm hgo, List.mem_map.mpr ⟨echo, hperf, rfl⟩⟩

/-! ### The result -/

/-- **When the traffic is encrypted.** Under a key, in every run whose reads hold no DEL that
the server comes to, all that is written to the socket has gone through the cipher; after every
read that holds one, the server can go on to write it there in clear. -/
theorem ciphered_unless_del (key : Key m) (role : Role) (hkey : key.text.bytes ≠ [])
    (es : List Event) (p : Proc) (h : run (step key role) .init es = some p) :
    ((∀ n buf, .read n buf ∈ es → NoDel key role n buf) →
      ∀ a r, .call a r ∈ es → Ciphered key role a) ∧
    ∀ n buf p', (∀ n buf, .read n buf ∈ es → NoDel key role n buf) →
      step key role p (.read n buf) = some p' → ¬ NoDel key role n buf →
      ∃ es' q a, run (step key role) p' es' = some q ∧ .call a .ok ∈ es' ∧
        ¬ Ciphered key role a := by
  constructor
  · exact fun hdel => (guarded_run hkey hdel guarded_init h).2
  · intro n buf p' hbefore hread hdel
    have hp := (guarded_run hkey hbefore guarded_init h).1
    obtain rfl : role = .server := by
      by_contra hrole
      exact hdel fun hr => absurd hr hrole
    obtain ⟨hphase, hcalls, -, -⟩ := step_read hread
    have htrig := hp.not_triggered hcalls (by simp [hphase])
    obtain ⟨es', q, hq, hmem⟩ := echo_of_read hkey (by simpa using htrig) hdel hread
    exact ⟨es', q, echo, hq, hmem, not_ciphered_echo⟩

def sampleKey : Key 7 := ⟨.ofBuffer [107], fun _ _ => 65⟩

/-- The shell has written `buf`, and the server makes the call `a` for it. -/
def answer (buf : List UInt8) (a : Action) : List Event :=
  [.poll (Shutdown.revents false true false), .pass .initial, .read .redirect buf, .call a .ok]

theorem ciphered_unless_del_sample : Ciphered sampleKey .server (toSocket sampleKey .out1 [97] 1) :=
  (ciphered_unless_del sampleKey .server (by decide) (answer [97] (toSocket sampleKey .out1 [97] 1))
    _ rfl).1 (fun n buf h => by
      obtain ⟨rfl, rfl⟩ : n = .redirect ∧ buf = [97] := by simpa [answer] using h
      exact fun _ => (by decide)) _ .ok (by simp [answer])

/-- A DEL that the shell writes crosses the socket as it is. -/
theorem del_in_clear : ∃ p, run (step sampleKey .server) .init (answer [127] echo) = some p ∧
    .call echo .ok ∈ answer [127] echo ∧ ¬ Ciphered sampleKey .server echo :=
  ⟨_, rfl, by simp [answer], not_ciphered_echo⟩

end LowLevelTasks.SocketCipher
