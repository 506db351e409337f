import LowLevelTasks.Encryption

/-!
What `poll_inputs` of project 1b does with the bytes it reads.

Client and server are one program; the roles differ in the branches they take. The bytes of a
read turn into the system calls the loop over the buffer makes, in their order. The log file
of the client is left out.
-/

namespace LowLevelTasks.PollInputs

open LowLevelTasks.Encryption

inductive Role
  | client | server
  deriving DecidableEq

/-- `INITIAL_INPUT` is the terminal of the client and the socket of the server,
`REDIRECT_INPUT` the socket of the client and the pipe from the shell of the server. -/
inductive Input
  | initial | redirect
  deriving DecidableEq

/-- `out1` is the standard output of the client and the socket of the server, `out2` the
socket of the client and the pipe to the shell of the server. -/
inductive Output
  | out1 | out2
  deriving DecidableEq

/-- A call that the loop makes: `write` goes unchecked, `writeToSocket` ends the process when
it fails, and `kill` sends SIGINT to the shell. -/
inductive Action
  | write (fd : Output) (buf : List UInt8)
  | writeToSocket (fd : Output) (buf : List UInt8)
  | kill
  | closePipes
  | initiateShutdown
  deriving DecidableEq

variable {m : ℕ} (key : Key m)

def toSocket (fd : Output) (buf : List UInt8) (count : ℕ) : Action :=
  .writeToSocket fd (Encryption.writeToSocket key buf count)

/-- One pass of the loop over the buffer, for the byte `input`: the calls, and the flag
`exit_triggered` afterwards. -/
def handleInput (role : Role) (n : Input) (exitTriggered : Bool) (input : UInt8) :
    List Action × Bool :=
  if input = 13 ∨ input = 10 then
    match role, n with
    | .server, .initial => ([.write .out2 [10]], exitTriggered)
    | .server, .redirect => ([toSocket key .out1 [10] 2], exitTriggered)
    | .client, .initial => ([toSocket key .out2 [10] 1, .write .out1 [13, 10]], exitTriggered)
    | .client, .redirect => ([.write .out1 [13, 10]], exitTriggered)
  else if input = 3 then
    match role, n with
    | .server, .initial =>
      if exitTriggered then ([], exitTriggered) else ([.kill, .initiateShutdown], true)
    | .server, .redirect => ([toSocket key .out1 [input] 1], exitTriggered)
    | .client, .initial =>
      ((if exitTriggered then [] else [toSocket key .out2 [input] 1]) ++
        [.write .out1 [94, 67]], true)
    | .client, .redirect => ([.write .out1 [94, 67]], exitTriggered)
  else if input = 4 then
    match role, n with
    | .server, .initial =>
      if exitTriggered then ([], exitTriggered) else ([.closePipes, .initiateShutdown], true)
    | .server, .redirect => ([toSocket key .out1 [input] 1], exitTriggered)
    | .client, .initial =>
      ((if exitTriggered then [] else [toSocket key .out2 [input] 1]) ++
        [.write .out1 [94, 68]], true)
    | .client, .redirect => ([.write .out1 [94, 68]], exitTriggered)
  else if input = 127 then ([.write .out1 [input]], exitTriggered)
  else
    match role, n with
    | .server, .initial => ([.write .out2 [input]], exitTriggered)
    | .server, .redirect => ([toSocket key .out1 [input] 1], exitTriggered)
    | .client, .initial =>
      ([.write .out1 [input], toSocket key .out2 [input] 1], exitTriggered)
    | .client, .redirect => ([.write .out1 [input]], exitTriggered)

/-- The loop over the buffer; a carriage return takes the newline behind it along. -/
def inputLoop (role : Role) (n : Input) : Bool → List UInt8 → List Action × Bool
  | exitTriggered, [] => ([], exitTriggered)
  | exitTriggered, [b] => handleInput key role n exitTriggered b
  | exitTriggered, b :: b' :: buf =>
    let (actions, exitTriggered) := handleInput key role n exitTriggered b
    let (rest, exitTriggered) :=
      if b = 13 ∧ b' = 10 then inputLoop role n exitTriggered buf
      else inputLoop role n exitTriggered (b' :: buf)
    (actions ++ rest, exitTriggered)

/-- The buffer after the read: what comes over the socket is decrypted. -/
def readBuffer (role : Role) (n : Input) (buf : List UInt8) : List UInt8 :=
  match role, n with
  | .server, .initial | .client, .redirect => decryptRead key buf
  | _, _ => buf

/-- The calls that follow a read. -/
def readActions (role : Role) (n : Input) (exitTriggered : Bool) (buf : List UInt8) :
    List Action × Bool :=
  inputLoop key role n exitTriggered (readBuffer key role n buf)

/-- The handler of SIGPIPE. -/
def sighandler : Role → List Action
  | .server => [.closePipes, .initiateShutdown]
  | .client => [.initiateShutdown]

/-- The bytes that an action writes to `fd`. -/
def Action.written (fd : Output) : Action → List UInt8
  | .write fd' buf | .writeToSocket fd' buf => if fd' = fd then buf else []
  | .kill | .closePipes | .initiateShutdown => []

def written (fd : Output) (actions : List Action) : List UInt8 :=
  actions.flatMap (Action.written fd)

variable {key}

@[simp] lemma written_nil (fd : Output) : written fd [] = [] := rfl

/-! ### The loop without carriage returns -/

/-- The calls for the bytes one by one: what the loop makes of a buffer in which no newline is
taken along. -/
lemma inputLoop_eq_flatMap {role : Role} {n : Input} {exitTriggered : Bool} {buf : List UInt8}
    {g : UInt8 → List Action} (hcr : 13 ∉ buf)
    (h : ∀ b ∈ buf, handleInput key role n exitTriggered b = (g b, exitTriggered)) :
    inputLoop key role n exitTriggered buf = (buf.flatMap g, exitTriggered) := by
  induction buf with
  | nil => rfl
  | cons b buf ih =>
    have hb := h b (by simp)
    have hb13 : b ≠ 13 := fun e => hcr (by simp [e])
    have hrec := ih (fun hm => hcr (List.mem_cons_of_mem b hm))
      fun b' hb' => h b' (List.mem_cons_of_mem b hb')
    cases buf with
    | nil => simp [inputLoop, hb]
    | cons b' buf => simp [inputLoop, hb, hb13, hrec]

/-! ### What is read from `REDIRECT_INPUT` -/

variable (key)

lemma length_readBuffer (role : Role) (n : Input) (buf : List UInt8) :
    (readBuffer key role n buf).length = buf.length := by
  cases role <;> cases n <;> simp [readBuffer, length_decryptRead]

@[simp] lemma readActions_nil (role : Role) (n : Input) (exitTriggered : Bool) :
    readActions key role n exitTriggered [] = ([], exitTriggered) := by
  have hbuf : readBuffer key role n [] = [] :=
    List.eq_nil_of_length_eq_zero (length_readBuffer key role n [])
  rw [readActions, hbuf]
  rfl

/-- The call writes at least one byte to `out1`. -/
def Action.Forwards : Action → Prop
  | .write fd buf | .writeToSocket fd buf => fd = .out1 ∧ buf ≠ []
  | .kill | .closePipes | .initiateShutdown => False

lemma Action.Forwards.written_ne_nil {a : Action} (ha : a.Forwards) : a.written .out1 ≠ [] := by
  cases a with
  | write fd buf | writeToSocket fd buf => simp [Action.written, ha.1, ha.2]
  | kill | closePipes | initiateShutdown => exact ha.elim

lemma forwards_toSocket {buf : List UInt8} {count : ℕ} (hc : 0 < count) :
    (toSocket key .out1 buf count).Forwards := by
  refine ⟨rfl, fun h => ?_⟩
  have := length_writeToSocket key buf count
  rw [h] at this
  simp at this
  omega

/-- The call for one byte from `REDIRECT_INPUT`. -/
def redirectCall : Role → UInt8 → Action
  | .server, b =>
    if b = 13 ∨ b = 10 then toSocket key .out1 [10] 2
    else if b = 127 then .write .out1 [b]
    else toSocket key .out1 [b] 1
  | .client, b =>
    .write .out1 (if b = 13 ∨ b = 10 then [13, 10] else if b = 3 then [94, 67]
      else if b = 4 then [94, 68] else [b])

lemma handleInput_redirect (role : Role) (exitTriggered : Bool) (b : UInt8) :
    handleInput key role .redirect exitTriggered b =
      ([redirectCall key role b], exitTriggered) := by
  by_cases hnl : b = 13 ∨ b = 10
  · cases role <;> simp [handleInput, redirectCall, hnl]
  by_cases h3 : b = 3
  · subst h3; cases role <;> simp [handleInput, redirectCall]
  by_cases h4 : b = 4
  · subst h4; cases role <;> simp [handleInput, redirectCall]
  by_cases h127 : b = 127
  · subst h127; cases role <;> simp [handleInput, redirectCall]
  · cases role <;> simp [handleInput, redirectCall, hnl, h3, h4, h127]

lemma forwards_redirectCall (role : Role) (b : UInt8) : (redirectCall key role b).Forwards := by
  cases role with
  | server =>
    rw [redirectCall]
    split_ifs
    · exact forwards_toSocket key (by decide)
    · exact ⟨rfl, by simp⟩
    · exact forwards_toSocket key (by decide)
  | client =>
    refine ⟨rfl, ?_⟩
    split_ifs <;> simp

lemma inputLoop_redirect (role : Role) (buf : List UInt8) :
    ∃ as : List Action, (∀ a ∈ as, a.Forwards) ∧ (buf ≠ [] → as ≠ []) ∧
      ∀ exitTriggered, inputLoop key role .redirect exitTriggered buf = (as, exitTriggered) := by
  match buf with
  | [] => exact ⟨[], by simp, by simp, fun _ => rfl⟩
  | [b] =>
    refine ⟨[redirectCall key role b], ?_, by simp, fun _ => handleInput_redirect key role _ b⟩
    simpa using forwards_redirectCall key role b
  | b :: b' :: buf =>
    have ha := forwards_redirectCall key role b
    obtain ⟨as, has, -, hloop⟩ := inputLoop_redirect role buf
    obtain ⟨as', has', -, hloop'⟩ := inputLoop_redirect role (b' :: buf)
    refine ⟨redirectCall key role b :: if b = 13 ∧ b' = 10 then as else as', ?_, by simp,
      fun _ => ?_⟩
    · rw [List.forall_mem_cons]
      split
      · exact ⟨ha, has⟩
      · exact ⟨ha, has'⟩
    · simp only [inputLoop, handleInput_redirect, hloop, hloop']
      split <;> rfl

/-- The calls for a read from `REDIRECT_INPUT`. -/
def redirected (role : Role) (buf : List UInt8) : List Action :=
  (readActions key role .redirect false buf).1

/-- **Redirected input** is forwarded, all of it, and changes nothing else. -/
theorem readActions_redirect (role : Role) (exitTriggered : Bool) (buf : List UInt8) :
    readActions key role .redirect exitTriggered buf = (redirected key role buf, exitTriggered) ∧
      (∀ a ∈ redirected key role buf, a.Forwards) ∧
      (buf ≠ [] → redirected key role buf ≠ []) := by
  obtain ⟨as, has, hne, hloop⟩ :=
    inputLoop_redirect key role (readBuffer key role .redirect buf)
  have hred : redirected key role buf = as := by rw [redirected, readActions, hloop]
  rw [readActions, hloop, hred]
  refine ⟨rfl, has, fun hbuf => hne fun h => hbuf ?_⟩
  have := length_readBuffer key role .redirect buf
  rw [h] at this
  exact List.eq_nil_of_length_eq_zero this.symm

end LowLevelTasks.PollInputs
