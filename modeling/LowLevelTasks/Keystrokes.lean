import LowLevelTasks.Shutdown
import LowLevelTasks.SocketCipher

/-!
The way of the keystrokes in project 1b: from the keyboard through the client, the socket, the
server and the pipe to the shell. Nothing is encrypted. Whatever the order in which the three
processes act, and however their reads cut the stream, the shell gets the keys in their order, up
to the first ^C or ^D, and none is lost unless a write fails.
-/

namespace LowLevelTasks.Keystrokes

open LowLevelTasks.Runs LowLevelTasks.Encryption LowLevelTasks.PollInputs
open LowLevelTasks.PollLoop (Event Proc not_step_exit step_call step_leave step_pass step_poll
  step_read)
open LowLevelTasks.Shutdown
open LowLevelTasks.SocketCipher (inputLoop_cons length_skipNewline_le performed performed_cons
  skipNewline)

/-! ### What the keys mean -/

def Plain (b : UInt8) : Prop := b ≠ 3 ∧ b ≠ 4

instance : DecidablePred Plain := fun _ => inferInstanceAs (Decidable (_ ∧ _))

/-- The bytes of a read that the loop handles: no newline behind a carriage return. -/
def handled : List UInt8 → List UInt8
  | [] => []
  | [b] => [b]
  | b :: b' :: buf => b :: if b = 13 ∧ b' = 10 then handled buf else handled (b' :: buf)

/-- What the shell gets for a byte. -/
def keyByte (b : UInt8) : List UInt8 :=
  if b = 13 ∨ b = 10 then [10] else if b = 127 then [] else [b]

/-- What the shell gets for a stream: all up to the first ^C or ^D. -/
def served (bytes : List UInt8) : List UInt8 := (bytes.takeWhile Plain).flatMap keyByte

/-- What the shell is to get for the keys that are typed, in these reads. -/
def shellInput (reads : List (List UInt8)) : List UInt8 := served (reads.flatMap handled)

/-- What the client sends. Once it knows of the end it sends no other ^C or ^D. -/
def sent : Bool → List UInt8 → List UInt8
  | _, [] => []
  | exitTriggered, b :: bytes =>
    if Plain b then keyByte b ++ sent exitTriggered bytes
    else (if exitTriggered then [] else [b]) ++ sent true bytes

def Ends (bytes : List UInt8) : Prop := ∃ b ∈ bytes, ¬ Plain b

instance (bytes : List UInt8) : Decidable (Ends bytes) :=
  inferInstanceAs (Decidable (∃ b ∈ bytes, _))

variable {xs ys bytes : List UInt8} {b : UInt8} {et : Bool}

@[simp] lemma not_ends_nil : ¬ Ends [] := by simp [Ends]

lemma ends_append : Ends (xs ++ ys) ↔ Ends xs ∨ Ends ys := by
  simp [Ends, or_and_right, exists_or]

lemma ends_cons : Ends (b :: bytes) ↔ ¬ Plain b ∨ Ends bytes := by simp [Ends]

@[simp] lemma served_nil : served [] = [] := rfl

lemma served_cons_of_plain (hb : Plain b) : served (b :: bytes) = keyByte b ++ served bytes := by
  unfold served
  rw [List.takeWhile_cons_of_pos (by simpa using hb), List.flatMap_cons]

lemma served_cons_of_not (hb : ¬ Plain b) : served (b :: bytes) = [] := by
  unfold served
  rw [List.takeWhile_cons_of_neg (by simpa using hb), List.flatMap_nil]

/-- Nothing is served behind the end. -/
lemma served_append : served (xs ++ ys) = served xs ++ if Ends xs then [] else served ys := by
  induction xs with
  | nil => simp
  | cons b xs ih =>
    rw [List.cons_append]
    by_cases hb : Plain b
    · rw [served_cons_of_plain hb, served_cons_of_plain hb, ih, List.append_assoc]
      simp only [ends_cons, hb, not_true_eq_false, false_or]
    · rw [served_cons_of_not hb, served_cons_of_not hb, if_pos (ends_cons.mpr (Or.inl hb))]
      rfl

lemma sent_append : sent et (xs ++ ys) = sent et xs ++ sent (et || decide (Ends xs)) ys := by
  induction xs generalizing et with
  | nil => simp [sent]
  | cons b xs ih =>
    rw [List.cons_append, sent, sent]
    by_cases hb : Plain b
    · simp only [hb, if_true, ih, List.append_assoc, ends_cons, not_true_eq_false, false_or]
    · simp only [hb, if_false, ih, List.append_assoc, ends_cons, not_false_eq_true, true_or,
        decide_true, Bool.or_true, Bool.true_or]

lemma plain_of_mem_keyByte {c : UInt8} (hb : Plain b) (hc : c ∈ keyByte b) :
    Plain c ∧ c ≠ 13 ∧ keyByte c = [c] := by
  unfold keyByte at hc
  split at hc
  · obtain rfl := List.mem_singleton.mp hc
    decide
  · next hnl =>
    split at hc
    · cases hc
    · next hdel =>
      obtain rfl := List.mem_singleton.mp hc
      rw [keyByte, if_neg hnl, if_neg hdel]
      exact ⟨hb, fun h => hnl (Or.inl h), rfl⟩

lemma carriageReturn_notMem_sent : 13 ∉ sent et bytes := by
  induction bytes generalizing et with
  | nil => simp [sent]
  | cons b bytes ih =>
    rw [sent]
    split
    · next hb =>
      rw [List.mem_append, not_or]
      exact ⟨fun h => (plain_of_mem_keyByte hb h).2.1 rfl, ih⟩
    · next hb =>
      rw [List.mem_append, not_or]
      refine ⟨fun h => hb ?_, ih⟩
      split at h
      · cases h
      · rw [← List.mem_singleton.mp h]
        decide

lemma served_keyByte_append (hb : Plain b) : served (keyByte b ++ bytes) =
    keyByte b ++ served bytes := by
  have hserved : served (keyByte b) = keyByte b := by
    unfold keyByte
    split
    · rfl
    · next hnl =>
      split
      · rfl
      · next hdel => simp [served, hb, keyByte, hnl, hdel]
  have hends : ¬ Ends (keyByte b) := fun ⟨c, hc, hnot⟩ => hnot (plain_of_mem_keyByte hb hc).1
  rw [served_append, hserved, if_neg hends]

/-- **The server serves** what the client sends as it is typed. -/
lemma served_sent : served (sent false bytes) = served bytes := by
  induction bytes with
  | nil => rfl
  | cons b bytes ih =>
    rw [sent]
    by_cases hb : Plain b
    · rw [if_pos hb, served_keyByte_append hb, served_cons_of_plain hb, ih]
    · rw [if_neg hb, if_neg Bool.false_ne_true, List.singleton_append, served_cons_of_not hb,
        served_cons_of_not hb]

/-! ### The loop over a read -/

variable {m : ℕ} {key : Key m} {role : Role} {n : Input} {buf : List UInt8}

lemma handled_cons (b : UInt8) (buf : List UInt8) :
    handled (b :: buf) = b :: handled (skipNewline b buf) := by
  cases buf with
  | nil => simp [handled, skipNewline]
  | cons b' buf =>
    by_cases hcr : b = 13 ∧ b' = 10
    · simp [handled, skipNewline, hcr]
    · have hskip : skipNewline b (b' :: buf) = b' :: buf := if_neg (by simpa using hcr)
      rw [handled, if_neg hcr, hskip]

lemma handled_of_notMem (h : 13 ∉ buf) : handled buf = buf := by
  induction buf with
  | nil => rfl
  | cons b buf ih =>
    rw [List.mem_cons, not_or] at h
    have hskip : skipNewline b buf = buf := if_neg fun hcr => h.1 hcr.1.symm
    rw [handled_cons, hskip, ih h.2]

/-- The calls for the bytes one by one. -/
def handleAll (key : Key m) (role : Role) (n : Input) : Bool → List UInt8 → List Action × Bool
  | et, [] => ([], et)
  | et, b :: bytes =>
    ((handleInput key role n et b).1 ++
        (handleAll key role n (handleInput key role n et b).2 bytes).1,
      (handleAll key role n (handleInput key role n et b).2 bytes).2)

/-- The loop makes the calls for the bytes that it handles. -/
lemma inputLoop_eq_handleAll (buf : List UInt8) (et : Bool) :
    inputLoop key role n et buf = handleAll key role n et (handled buf) := by
  induction hlen : buf.length using Nat.strong_induction_on generalizing buf et with
  | _ len ih =>
    subst hlen
    cases buf with
    | nil => rfl
    | cons b buf =>
      have hrest := ih _ (Nat.lt_succ_of_le (length_skipNewline_le b buf)) (skipNewline b buf)
        (handleInput key role n et b).2 rfl
      rw [inputLoop_cons, handled_cons, handleAll, hrest]

@[simp] lemma written_append (fd : Output) (as bs : List Action) :
    written fd (as ++ bs) = written fd as ++ written fd bs := List.flatMap_append

lemma written_cons (fd : Output) (a : Action) (as : List Action) :
    written fd (a :: as) = a.written fd ++ written fd as := List.flatMap_cons

/-- What the client does with a byte of the keyboard. -/
lemma handleInput_client (et : Bool) (b : UInt8) :
    written .out2 (handleInput (noKey : Key m) .client .initial et b).1 = sent et [b] ∧
      (handleInput (noKey : Key m) .client .initial et b).2 = (et || decide (Ends [b])) ∧
      .initiateShutdown ∉ (handleInput (noKey : Key m) .client .initial et b).1 := by
  have hone : ∀ c : UInt8, Encryption.strncpy [c] 1 = [c] := fun c => by
    simp [Encryption.strncpy, eq_comm]
  by_cases hnl : b = 13 ∨ b = 10
  · have hb : Plain b := by rcases hnl with rfl | rfl <;> decide
    simp [handleInput, hnl, sent, hb, keyByte, written, Action.written, toSocket, hone, Ends]
  by_cases h3 : b = 3
  · subst h3
    cases et <;>
      simp [handleInput, sent, Plain, written, Action.written, toSocket, hone, Ends]
  by_cases h4 : b = 4
  · subst h4
    cases et <;>
      simp [handleInput, sent, Plain, written, Action.written, toSocket, hone, Ends]
  have hb : Plain b := ⟨h3, h4⟩
  by_cases h127 : b = 127
  · subst h127
    simp [handleInput, sent, hb, keyByte, written, Action.written, Ends]
  · simp [handleInput, hnl, h3, h4, h127, sent, hb, keyByte, written, Action.written, toSocket,
      hone, Ends]

lemma performed_of_notMem {calls : List Action} (h : .initiateShutdown ∉ calls) :
    performed calls = calls :=
  List.takeWhile_eq_self_iff.mpr fun a ha => by
    simpa using fun heq : a = .initiateShutdown => h (heq ▸ ha)

lemma handleAll_client (bytes : List UInt8) (et : Bool) :
    written .out2 (performed (handleAll (noKey : Key m) .client .initial et bytes).1) =
        sent et bytes ∧
      (handleAll (noKey : Key m) .client .initial et bytes).2 = (et || decide (Ends bytes)) ∧
      .initiateShutdown ∉ (handleAll (noKey : Key m) .client .initial et bytes).1 := by
  induction bytes generalizing et with
  | nil => simp [handleAll, sent, performed]
  | cons b bytes ih =>
    obtain ⟨hwritten, hflag, hstay⟩ := handleInput_client (m := m) et b
    obtain ⟨hrest, hflags, hstays⟩ := ih (handleInput (noKey : Key m) .client .initial et b).2
    have hnot : .initiateShutdown ∉
        (handleAll (noKey : Key m) .client .initial et (b :: bytes)).1 := by
      rw [handleAll, List.mem_append, not_or]
      exact ⟨hstay, hstays⟩
    rw [performed_of_notMem hstays] at hrest
    refine ⟨?_, ?_, hnot⟩
    · rw [performed_of_notMem hnot, handleAll, written_append, hwritten, hrest, hflag,
        ← List.singleton_append (l := bytes), sent_append]
    · rw [handleAll, hflags, hflag, Bool.or_assoc, ← List.singleton_append (l := bytes)]
      simp only [ends_append, Bool.decide_or]

/-- What the server does with a byte from the socket. -/
lemma handleInput_server (b : UInt8) :
    (Plain b → (handleInput (noKey : Key m) .server .initial false b).2 = false ∧
      written .out2 (handleInput (noKey : Key m) .server .initial false b).1 = keyByte b ∧
      .initiateShutdown ∉ (handleInput (noKey : Key m) .server .initial false b).1) ∧
    (¬ Plain b → ∃ a, handleInput (noKey : Key m) .server .initial false b =
      ([a, .initiateShutdown], true) ∧ a ≠ .initiateShutdown ∧ a.written .out2 = []) := by
  constructor
  · rintro ⟨h3, h4⟩
    by_cases hnl : b = 13 ∨ b = 10
    · simp [handleInput, hnl, keyByte, written, Action.written]
    by_cases h127 : b = 127
    · subst h127
      simp [handleInput, keyByte, written, Action.written]
    · simp [handleInput, hnl, h3, h4, h127, keyByte, written, Action.written]
  · intro hb
    obtain rfl | rfl : b = 3 ∨ b = 4 := by
      unfold Plain at hb
      tauto
    · exact ⟨.kill, rfl, by simp, rfl⟩
    · exact ⟨.closePipes, rfl, by simp, rfl⟩

/-- The server keeps in mind that the session is to end. -/
lemma handleAll_triggered (bytes : List UInt8) :
    (handleAll (noKey : Key m) .server .initial true bytes).2 = true := by
  have hone : ∀ b, (handleInput (noKey : Key m) .server .initial true b).2 = true := fun b => by
    unfold handleInput
    split_ifs <;> rfl
  induction bytes with
  | nil => rfl
  | cons b bytes ih => rw [handleAll, hone, ih]

lemma handleAll_server (bytes : List UInt8) :
    written .out2 (performed (handleAll (noKey : Key m) .server .initial false bytes).1) =
        served bytes ∧
      (handleAll (noKey : Key m) .server .initial false bytes).2 = decide (Ends bytes) ∧
      (Ends bytes → .initiateShutdown ∈
        (handleAll (noKey : Key m) .server .initial false bytes).1) := by
  induction bytes with
  | nil => simp [handleAll, performed]
  | cons b bytes ih =>
    obtain ⟨hplain, hend⟩ := handleInput_server (m := m) b
    simp only [ends_cons]
    by_cases hb : Plain b
    · obtain ⟨hflag, hwritten, hstay⟩ := hplain hb
      obtain ⟨hrest, hflags, hstop⟩ := ih
      have hperf : performed (handleAll (noKey : Key m) .server .initial false (b :: bytes)).1 =
          (handleInput (noKey : Key m) .server .initial false b).1 ++
            performed (handleAll (noKey : Key m) .server .initial false bytes).1 := by
        rw [handleAll, hflag]
        exact List.takeWhile_append_of_pos fun a ha => by
          simpa using fun heq : a = .initiateShutdown => hstay (heq ▸ ha)
      rw [hperf, written_append, hwritten, hrest, served_cons_of_plain hb, handleAll, hflag]
      simp only [hb, not_true_eq_false, false_or, List.mem_append]
      exact ⟨trivial, hflags, fun he => Or.inr (hstop he)⟩
    · obtain ⟨a, heq, hne, hnone⟩ := hend hb
      rw [handleAll, heq, served_cons_of_not hb, List.cons_append, performed_cons hne,
        handleAll_triggered]
      simp [hb, performed, written_cons, hnone]

/-! ### One process -/

/-- The bytes that the process is still to write to `out2`. -/
def pending (p : Proc) : List UInt8 := written .out2 (performed p.calls)

/-- The bytes that an event writes to `out2`. -/
def wrote : Event → List UInt8
  | .call a .ok => a.written .out2
  | _ => []

/-- The bytes that are read from `INITIAL_INPUT`. -/
def input : Event → List UInt8
  | .read .initial buf => buf
  | _ => []

/-- The bytes that the process has to write for an event. -/
def due (role : Role) (p : Proc) : Event → List UInt8
  | .read .initial buf =>
    written .out2 (performed (readActions (noKey : Key m) role .initial p.exitTriggered buf).1)
  | _ => []

def Breaks : Event → Prop
  | .call _ .sigpipe => True
  | _ => False

/-- What has been written and is to be written is what is due, but for what a failed write has
taken away. -/
structure Passes (p : Proc) (all out lost : List UInt8) : Prop where
  all_eq : all = out ++ pending p ++ lost
  leaving : lost ≠ [] → Leaving p
  ready : Ready p

variable {p p' : Proc} {e : Event} {all out lost : List UInt8}

lemma pending_of_calls (h : p.calls = []) : pending p = [] := by simp [pending, h, performed]

lemma pending_of_leaving (h : Leaving p) (hr : Ready p) : pending p = [] := by
  rcases h with h | h | h
  · simp [pending, h, performed, written, Action.written]
  · simp [pending, h, performed]
  · exact pending_of_calls (hr.gone h)

lemma written_out2_redirect (et : Bool) (buf : List UInt8) :
    written .out2 (performed (readActions (noKey : Key m) role .redirect et buf).1) = [] := by
  obtain ⟨hread, hforwards, -⟩ := readActions_redirect (noKey : Key m) role et buf
  rw [hread]
  refine List.flatMap_eq_nil_iff.mpr fun a ha => ?_
  have hout := hforwards a ((List.takeWhile_sublist _).mem ha)
  cases a with
  | write fd buf | writeToSocket fd buf => simp [Action.written, hout.1]
  | kill | closePipes | initiateShutdown => rfl

/-- **One event** passes bytes on. -/
lemma passes_step (hp : Passes p all out lost)
    (h : PollLoop.step (noKey : Key m) role p e = some p')
    (hread : ∀ n, e ≠ .readError n) (herror : ∀ a, e ≠ .call a .error) :
    ∃ lost', Passes p' (all ++ due (m := m) role p e) (out ++ wrote e) lost' ∧
      (¬ Breaks e → lost' = lost) := by
  obtain ⟨hall, hleaving, hr⟩ := hp
  have hready := ready_step hr h
  -- an event that finds no call pending, and leaves some to write these bytes
  have hquiet : p.calls = [] → p.phase ≠ .exited → wrote e = [] →
      pending p' = due (m := m) role p e →
      ∃ lost', Passes p' (all ++ due (m := m) role p e) (out ++ wrote e) lost' ∧
        (¬ Breaks e → lost' = lost) := by
    intro hcalls hphase hwrote hpending
    obtain rfl : lost = [] := by
      by_contra hne
      exact not_leaving_of_calls hcalls hphase (hleaving hne)
    refine ⟨[], ⟨?_, fun hne => absurd rfl hne, hready⟩, fun _ => rfl⟩
    rw [hall, pending_of_calls hcalls, hwrote, hpending]
    simp
  cases e with
  | leave =>
    obtain ⟨hphase, hcalls, -, -, rfl⟩ := step_leave h
    exact hquiet hcalls (by simp [hphase]) rfl (by simp [pending, performed, due])
  | poll revents =>
    obtain ⟨hphase, hcalls, -, rfl⟩ := step_poll h
    exact hquiet hcalls (by simp [hphase]) rfl (pending_of_calls hcalls)
  | read n buf =>
    obtain ⟨hphase, hcalls, -, rfl⟩ := step_read h
    cases n with
    | initial => exact hquiet hcalls (by simp [hphase]) rfl rfl
    | redirect =>
      exact hquiet hcalls (by simp [hphase]) rfl (written_out2_redirect _ buf)
  | readError n => exact absurd rfl (hread n)
  | pass n =>
    obtain ⟨hphase, hcalls, rfl⟩ := step_pass h
    refine hquiet hcalls (by simp [hphase]) rfl ?_
    dsimp only [pending]
    split <;> simp [performed, due]
  | call a r =>
    obtain ⟨rest, hcalls, hcall⟩ := step_call h
    have hphase := hr.phase_ne_exited hcalls
    have hdue : due (m := m) role p (.call a r) = [] := rfl
    rw [hdue, List.append_nil]
    cases r with
    | error => exact absurd rfl (herror a)
    | ok =>
      by_cases ha : a = .initiateShutdown
      · subst ha
        obtain rfl : p.exit = p' := by simpa [PollLoop.callStep] using hcall
        refine ⟨lost, ⟨?_, fun _ => leaving_exit, hready⟩, fun _ => rfl⟩
        have hnone : pending p = [] := by simp [pending, hcalls, performed]
        have hnone' : pending p.exit = [] := pending_of_calls rfl
        rw [hall, hnone, hnone']
        simp [wrote, Action.written]
      · obtain rfl : { p with calls := rest } = p' := by
          cases a <;> simp_all [PollLoop.callStep]
        have hpending : pending p = a.written .out2 ++ pending { p with calls := rest } := by
          rw [pending, hcalls, performed_cons ha, written_cons]
          rfl
        refine ⟨lost, ⟨?_, fun hne => ?_, hready⟩, fun _ => rfl⟩
        · rw [hall, hpending]
          simp [wrote]
        · rcases hleaving hne with hl | hl | hl
          · obtain rfl : rest = [.initiateShutdown] := by
              have := hcalls.symm.trans hl
              simp only [List.cons.injEq] at this
              exact this.2
            exact Or.inr (Or.inl rfl)
          · have := hcalls.symm.trans hl
            simp only [List.cons.injEq] at this
            exact absurd this.1 ha
          · exact absurd hl hphase
    | sigpipe =>
      obtain rfl : { p with calls := sighandler role } = p' := by
        cases a <;> simp_all [PollLoop.callStep]
      have hleft := leaving_sighandler (p := p) role
      refine ⟨pending p ++ lost, ⟨?_, fun _ => hleft, hready⟩, fun hb => absurd trivial hb⟩
      rw [hall, pending_of_leaving hleft hready]
      simp [wrote]

/-! ### The three processes -/

def Label.typed : Label → List (List UInt8)
  | .client (.read .initial buf) => [buf]
  | _ => []

def Label.fed : Label → List UInt8
  | .server e => wrote e
  | _ => []

def Label.taken : Label → List UInt8
  | .server e => input e
  | _ => []

def Label.crossed : Label → List UInt8
  | .client e => wrote e
  | _ => []

/-- A write fails since the other end is closed. -/
def Label.Breaks : Label → Prop
  | .client e | .server e => Keystrokes.Breaks e
  | _ => False

/-- The reads of the client from the keyboard. -/
def typed (as : List Label) : List (List UInt8) := as.flatMap Label.typed

/-- What the server has written to the shell. -/
def fed (as : List Label) : List UInt8 := as.flatMap Label.fed

/-- What the server has read from the socket. -/
def taken (as : List Label) : List UInt8 := as.flatMap Label.taken

/-- What the client has written to the socket. -/
def crossed (as : List Label) : List UInt8 := as.flatMap Label.crossed

def Unbroken (as : List Label) : Prop := ∀ a ∈ as, ¬ Label.Breaks a

/-- What is on its way to the shell. -/
def onTheWay (s : St) : List UInt8 :=
  pending s.server ++
    if s.server.exitTriggered then [] else served (s.c2s ++ pending s.client)

/-- The keys, from the keyboard to the shell. -/
structure Relayed (keys : List UInt8) (as : List Label) (s : St) : Prop where
  typed : (typed as).flatten ++ s.keys = keys
  flag : s.client.exitTriggered = decide (Ends ((Keystrokes.typed as).flatMap handled))
  client : ∃ lost, Passes s.client (sent false ((Keystrokes.typed as).flatMap handled))
    (crossed as) lost ∧ (Unbroken as → lost = [])
  socket : crossed as = taken as ++ s.c2s
  server : ∃ lost, Passes s.server (served (taken as)) (fed as) lost ∧ (Unbroken as → lost = [])
  ended : s.server.exitTriggered = decide (Ends (taken as))
  stops : s.server.exitTriggered = true →
    .initiateShutdown ∈ s.server.calls ∨ s.server.phase = .exited
  pipe : s.wr <:+ fed as

variable {keys : List UInt8} {as : List Label} {a : Label} {s s' : St}

lemma Unbroken.of_concat (h : Unbroken (as ++ [a])) : Unbroken as := fun x hx =>
  h x (List.mem_append_left _ hx)

lemma Unbroken.last (h : Unbroken (as ++ [a])) : ¬ Label.Breaks a := h a (by simp)

lemma typed_concat : typed (as ++ [a]) = typed as ++ Label.typed a := by simp [typed]

lemma fed_concat : fed (as ++ [a]) = fed as ++ Label.fed a := by simp [fed]

lemma taken_concat : taken (as ++ [a]) = taken as ++ Label.taken a := by simp [taken]

lemma crossed_concat : crossed (as ++ [a]) = crossed as ++ Label.crossed a := by simp [crossed]

/-- A step of the client takes from the keyboard and writes to the socket. -/
lemma client_flow (hr : Ready s.client) (h : step (noKey : Key m) s (.client e) = some s') :
    s'.server = s.server ∧ s.keys = input e ++ s'.keys ∧ s'.c2s = s.c2s ++ wrote e ∧
      s'.wr = s.wr := by
  obtain ⟨-, hsame, -, -, -⟩ := client_step hr h
  refine ⟨hsame.server, ?_⟩
  rw [step, Option.bind_eq_some_iff] at h
  obtain ⟨p, hp, h⟩ := h
  cases e with
  | leave | pass n =>
    obtain rfl := Option.some.inj h
    simp [input, wrote]
  | poll revents =>
    simp only [clientStep, Option.ite_none_right_eq_some, Option.some.injEq] at h
    obtain ⟨-, rfl⟩ := h
    simp [input, wrote]
  | read n buf =>
    cases n with
    | initial =>
      simp only [clientStep, Option.ite_none_right_eq_some, Option.some.injEq] at h
      obtain ⟨⟨-, htake, -⟩, rfl⟩ := h
      refine ⟨?_, by simp [wrote], rfl⟩
      nth_rewrite 1 [← List.take_append_drop buf.length s.keys]
      rw [htake]
      rfl
    | redirect =>
      simp only [clientStep, Option.ite_none_right_eq_some, Option.some.injEq] at h
      obtain ⟨-, rfl⟩ := h
      simp [input, wrote]
  | readError n => cases h
  | call a r =>
    cases r with
    | error => cases h
    | ok =>
      cases a with
      | write fd buf | writeToSocket fd buf =>
        obtain rfl := Option.some.inj h
        cases fd <;> simp [input, wrote, clientWrite, Action.written]
      | kill | closePipes | initiateShutdown =>
        obtain rfl := Option.some.inj h
        simp [input, wrote, Action.written]
    | sigpipe =>
      cases a with
      | write fd buf | writeToSocket fd buf =>
        cases fd with
        | out1 => cases h
        | out2 =>
          simp only [clientStep, clientCall, Option.ite_none_right_eq_some,
            Option.some.injEq] at h
          obtain ⟨-, rfl⟩ := h
          simp [input, wrote]
      | kill | closePipes | initiateShutdown => cases h

/-- A step of the server takes from the socket and writes to the pipe. -/
lemma server_flow (hr : Ready s.server) (h : step (noKey : Key m) s (.server e) = some s') :
    s'.client = s.client ∧ s'.keys = s.keys ∧ s.c2s = input e ++ s'.c2s ∧
      s'.wr = s.wr ++ wrote e := by
  obtain ⟨-, hsame, -, -, -⟩ := server_step hr h
  refine ⟨hsame.client, ?_⟩
  rw [step, Option.bind_eq_some_iff] at h
  obtain ⟨p, hp, h⟩ := h
  cases e with
  | leave | pass n =>
    obtain rfl := Option.some.inj h
    simp [input, wrote]
  | poll revents =>
    simp only [serverStep, Option.ite_none_right_eq_some, Option.some.injEq] at h
    obtain ⟨-, rfl⟩ := h
    simp [input, wrote]
  | read n buf =>
    cases n with
    | initial =>
      simp only [serverStep, Option.ite_none_right_eq_some, Option.some.injEq] at h
      obtain ⟨⟨-, htake, -⟩, rfl⟩ := h
      refine ⟨rfl, ?_, by simp [wrote]⟩
      nth_rewrite 1 [← List.take_append_drop buf.length s.c2s]
      rw [htake]
      rfl
    | redirect =>
      simp only [serverStep, Option.ite_none_right_eq_some, Option.some.injEq] at h
      obtain ⟨-, rfl⟩ := h
      simp [input, wrote]
  | readError n => cases h
  | call a r =>
    cases r with
    | error => cases h
    | ok =>
      cases a with
      | write fd buf | writeToSocket fd buf =>
        obtain rfl := Option.some.inj h
        cases fd <;> simp [input, wrote, serverWrite, Action.written]
      | kill | closePipes =>
        obtain rfl := Option.some.inj h
        simp [input, wrote, Action.written]
      | initiateShutdown =>
        simp only [serverStep, serverCall, Option.ite_none_right_eq_some,
          Option.some.injEq] at h
        obtain ⟨-, rfl⟩ := h
        simp [input, wrote, Action.written]
    | sigpipe =>
      cases a with
      | write fd buf | writeToSocket fd buf =>
        simp only [serverStep, serverCall, Option.ite_none_right_eq_some, Option.some.injEq] at h
        obtain ⟨-, rfl⟩ := h
        simp [input, wrote]
      | kill | closePipes | initiateShutdown => cases h

/-! ### What is due -/

lemma exitTriggered_step (h : PollLoop.step (noKey : Key m) role p e = some p') :
    p'.exitTriggered = match e with
      | .read .initial buf => (readActions (noKey : Key m) role .initial p.exitTriggered buf).2
      | _ => p.exitTriggered := by
  cases e with
  | leave =>
    obtain ⟨-, -, -, -, rfl⟩ := step_leave h
    rfl
  | poll revents =>
    obtain ⟨-, -, -, rfl⟩ := step_poll h
    rfl
  | read n buf =>
    obtain ⟨-, -, -, rfl⟩ := step_read h
    cases n with
    | initial => rfl
    | redirect => exact congrArg Prod.snd (readActions_redirect (noKey : Key m) role _ buf).1
  | readError n =>
    obtain ⟨-, -, rfl⟩ := PollLoop.step_readError h
    rfl
  | pass n =>
    obtain ⟨-, -, rfl⟩ := step_pass h
    rfl
  | call a r =>
    obtain ⟨rest, -, hcall⟩ := step_call h
    rcases callStep_cases hcall with ⟨rfl, -⟩ | rfl | rfl <;> rfl

lemma client_due (h : PollLoop.step (noKey : Key m) .client p e = some p') :
    due (m := m) .client p e = sent p.exitTriggered (handled (input e)) ∧
      p'.exitTriggered = (p.exitTriggered || decide (Ends (handled (input e)))) := by
  have hflag := exitTriggered_step h
  cases e with
  | read n buf =>
    cases n with
    | initial =>
      have hread : readActions (noKey : Key m) .client .initial p.exitTriggered buf =
          handleAll noKey .client .initial p.exitTriggered (handled buf) :=
        inputLoop_eq_handleAll buf _
      obtain ⟨hsent, hends, -⟩ := handleAll_client (m := m) (handled buf) p.exitTriggered
      dsimp only at hflag
      rw [hread] at hflag
      rw [due, hread]
      exact ⟨hsent, hflag.trans hends⟩
    | redirect => simpa [due, input, handled, sent] using hflag
  | leave | poll | readError | pass | call => simpa [due, input, handled, sent] using hflag

lemma server_due (h : PollLoop.step (noKey : Key m) .server p e = some p')
    (het : input e ≠ [] → p.exitTriggered = false) (hcr : 13 ∉ input e) :
    due (m := m) .server p e = served (input e) ∧
      p'.exitTriggered = (p.exitTriggered || decide (Ends (input e))) ∧
      (Ends (input e) → .initiateShutdown ∈ p'.calls) := by
  have hflag := exitTriggered_step h
  have hsame : (p.exitTriggered || decide (Ends [])) = p.exitTriggered := by simp
  cases e with
  | read n buf =>
    cases n with
    | initial =>
      by_cases hbuf : buf = []
      · subst hbuf
        have hnil := readActions_nil (noKey : Key m) .server .initial p.exitTriggered
        dsimp only at hflag
        rw [hnil] at hflag
        rw [due, hnil]
        exact ⟨rfl, hflag.trans hsame.symm, fun he => absurd he not_ends_nil⟩
      · have hread : readActions (noKey : Key m) .server .initial false buf =
            handleAll (noKey : Key m) .server .initial false buf := by
          have hbytes : 13 ∉ buf := hcr
          conv_rhs => rw [← handled_of_notMem hbytes]
          exact inputLoop_eq_handleAll buf false
        obtain ⟨hserved, hends, hstop⟩ := handleAll_server (m := m) buf
        obtain ⟨-, -, -, rfl⟩ := step_read h
        rw [due, het hbuf, hread]
        exact ⟨hserved, hends, hstop⟩
    | redirect => exact ⟨rfl, hflag.trans hsame.symm, fun he => absurd he not_ends_nil⟩
  | leave | poll | readError | pass | call =>
    exact ⟨rfl, hflag.trans hsame.symm, fun he => absurd he not_ends_nil⟩

/-- A server that has seen the end does not read any more. -/
lemma stops_step (h : PollLoop.step (noKey : Key m) .server p e = some p') (hr : Ready p)
    (hstop : .initiateShutdown ∈ p.calls ∨ p.phase = .exited) :
    input e = [] ∧ (.initiateShutdown ∈ p'.calls ∨ p'.phase = .exited) := by
  have hcalls : p.calls ≠ [] := fun hnil => by
    rcases hstop with hmem | hphase
    · simp [hnil] at hmem
    · have hexit : p = p.exit := by
        obtain ⟨phase, revents, et, calls⟩ := p
        simp only at hnil hphase
        rw [hnil, hphase]
        rfl
      rw [hexit, not_step_exit] at h
      cases h
  obtain ⟨a, rest, hcalls⟩ := List.exists_cons_of_ne_nil hcalls
  obtain ⟨r, rfl, hcall⟩ := PollLoop.step_of_calls hcalls h
  have hphase := hr.phase_ne_exited hcalls
  refine ⟨rfl, ?_⟩
  rcases callStep_cases hcall with ⟨rfl, hne⟩ | rfl | rfl
  · have hmem := hstop.resolve_right hphase
    rw [hcalls, List.mem_cons] at hmem
    exact Or.inl (hmem.resolve_left fun heq => hne heq.symm)
  · exact Or.inr rfl
  · exact Or.inl (by simp [sighandler])

/-! ### Runs -/

@[simp] lemma typed_client (e : Event) :
    (Label.typed (.client e)).flatMap handled = handled (input e) := by
  cases e with
  | read n buf => cases n <;> simp [Label.typed, input, handled]
  | leave | poll | readError | pass | call => rfl

@[simp] lemma flatten_typed_client (e : Event) : (Label.typed (.client e)).flatten = input e := by
  cases e with
  | read n buf => cases n <;> simp [Label.typed, input]
  | leave | poll | readError | pass | call => rfl

lemma relayed_init : Relayed keys [] (init keys) where
  typed := rfl
  flag := rfl
  client := ⟨[], ⟨rfl, fun h => absurd rfl h, by constructor <;> simp [init, Proc.init]⟩,
    fun _ => rfl⟩
  socket := rfl
  server := ⟨[], ⟨rfl, fun h => absurd rfl h, by constructor <;> simp [init, Proc.init]⟩,
    fun _ => rfl⟩
  ended := by simp [init, Proc.init, taken]
  stops h := Bool.noConfusion h
  pipe := List.suffix_rfl

lemma relayed_client (hi : Relayed keys as s) (h : step (noKey : Key m) s (.client e) = some s') :
    Relayed keys (as ++ [.client e]) s' := by
  obtain ⟨lost, hpasses, hlost⟩ := hi.client
  have hflow := client_flow hpasses.ready h
  obtain ⟨-, -, hp, hread, herror⟩ := client_step hpasses.ready h
  obtain ⟨hserver, hkeys, hc2s, hwr⟩ := hflow
  obtain ⟨hdue, hflag⟩ := client_due hp
  obtain ⟨lost', hpasses', hlost'⟩ := passes_step hpasses hp hread herror
  have hfed : fed (as ++ [.client e]) = fed as := by simp [fed_concat, Label.fed]
  have htaken : taken (as ++ [.client e]) = taken as := by simp [taken_concat, Label.taken]
  refine ⟨?_, ?_, ⟨lost', ?_, fun hun => ?_⟩, ?_, ?_, ?_, ?_, ?_⟩
  · rw [typed_concat, List.flatten_append, flatten_typed_client, List.append_assoc, ← hkeys,
      hi.typed]
  · rw [hflag, hi.flag, typed_concat, List.flatMap_append, typed_client]
    simp only [ends_append, Bool.decide_or]
  · rw [typed_concat, List.flatMap_append, typed_client, sent_append, crossed_concat,
      Bool.false_or, ← hi.flag, ← hdue]
    exact hpasses'
  · exact (hlost' hun.last).trans (hlost hun.of_concat)
  · rw [crossed_concat, htaken, hi.socket, hc2s, List.append_assoc]
    rfl
  · obtain ⟨gone, hgone, hnone⟩ := hi.server
    rw [hserver, hfed, htaken]
    exact ⟨gone, hgone, fun hun => hnone hun.of_concat⟩
  · rw [hserver, htaken]
    exact hi.ended
  · rw [hserver]
    exact hi.stops
  · rw [hwr, hfed]
    exact hi.pipe

lemma relayed_server (hi : Relayed keys as s) (h : step (noKey : Key m) s (.server e) = some s') :
    Relayed keys (as ++ [.server e]) s' := by
  obtain ⟨lost, hpasses, hlost⟩ := hi.server
  obtain ⟨hclient, hkeys, hc2s, hwr⟩ := server_flow hpasses.ready h
  obtain ⟨-, -, hp, hread, herror⟩ := server_step hpasses.ready h
  have htyped : typed (as ++ [.server e]) = typed as := by simp [typed_concat, Label.typed]
  have hcrossed : crossed (as ++ [.server e]) = crossed as := by
    simp [crossed_concat, Label.crossed]
  have htaken : taken (as ++ [.server e]) = taken as ++ input e := taken_concat
  have hstill : input e ≠ [] → s.server.exitTriggered = false := fun hne => by
    by_contra het
    rw [Bool.not_eq_false] at het
    exact hne (stops_step hp hpasses.ready (hi.stops het)).1
  -- the client does not send a carriage return
  have hcr : 13 ∉ input e := fun hmem => by
    obtain ⟨gone, hgone, -⟩ := hi.client
    refine @carriageReturn_notMem_sent ((typed as).flatMap handled) false ?_
    rw [hgone.all_eq, hi.socket, hc2s]
    simp [hmem]
  obtain ⟨hdue, hflag, hstop⟩ := server_due hp hstill hcr
  obtain ⟨lost', hpasses', hlost'⟩ := passes_step hpasses hp hread herror
  refine ⟨?_, ?_, ?_, ?_, ⟨lost', ?_, fun hun => ?_⟩, ?_, ?_, ?_⟩
  · rw [htyped, hkeys, hi.typed]
  · rw [hclient, htyped, hi.flag]
  · obtain ⟨gone, hgone, hnone⟩ := hi.client
    rw [hclient, htyped, hcrossed]
    exact ⟨gone, hgone, fun hun => hnone hun.of_concat⟩
  · rw [hcrossed, htaken, hi.socket, hc2s, List.append_assoc]
  · have hserved : served (taken (as ++ [.server e])) = served (taken as) ++ served (input e) := by
      rw [htaken, served_append]
      split
      · next hend =>
        have hnil : input e = [] := by
          by_contra hne
          have hflag := hi.ended.symm.trans (hstill hne)
          exact of_decide_eq_false hflag hend
        rw [hnil, served_nil]
      · rfl
    rw [hserved, fed_concat, ← hdue]
    exact hpasses'
  · exact (hlost' hun.last).trans (hlost hun.of_concat)
  · rw [hflag, htaken, hi.ended]
    simp only [ends_append, Bool.decide_or]
  · intro het
    rw [hflag, Bool.or_eq_true, decide_eq_true_eq] at het
    rcases het with het | hends
    · exact (stops_step hp hpasses.ready (hi.stops het)).2
    · exact Or.inl (hstop hends)
  · obtain ⟨got, hgot⟩ := hi.pipe
    rw [hwr, fed_concat, ← hgot, List.append_assoc]
    exact List.suffix_append got _

/-- **One step** of any of the processes. -/
lemma relayed_step (as : List Label) (s : St) (a : Label) (s' : St) (hi : Relayed keys as s)
    (h : step (noKey : Key m) s a = some s') : Relayed keys (as ++ [a]) s' := by
  -- the shell takes from the pipe, and moves no key otherwise
  have hshell : s'.keys = s.keys → s'.c2s = s.c2s → s'.client = s.client → s'.server = s.server →
      s'.wr <:+ s.wr → Label.typed a = [] → Label.fed a = [] → Label.taken a = [] →
      Label.crossed a = [] → Relayed keys (as ++ [a]) s' := by
    intro hkeys hc2s hclient hserver hwr htyped hfed htaken hcrossed
    obtain ⟨lost, hpasses, hlost⟩ := hi.client
    obtain ⟨gone, hgone, hnone⟩ := hi.server
    constructor
    · rw [typed_concat, htyped, List.append_nil, hkeys, hi.typed]
    · rw [hclient, typed_concat, htyped, List.append_nil, hi.flag]
    · rw [hclient, typed_concat, htyped, List.append_nil, crossed_concat, hcrossed,
        List.append_nil]
      exact ⟨lost, hpasses, fun hun => hlost hun.of_concat⟩
    · rw [crossed_concat, hcrossed, taken_concat, htaken, List.append_nil, List.append_nil, hc2s,
        hi.socket]
    · rw [hserver, taken_concat, htaken, List.append_nil, fed_concat, hfed, List.append_nil]
      exact ⟨gone, hgone, fun hun => hnone hun.of_concat⟩
    · rw [hserver, taken_concat, htaken, List.append_nil, hi.ended]
    · rw [hserver]
      exact hi.stops
    · rw [fed_concat, hfed, List.append_nil]
      exact hwr.trans hi.pipe
  cases a with
  | client e => exact relayed_client hi h
  | server e => exact relayed_server hi h
  | shellRead count =>
    simp only [step, Option.ite_none_left_eq_some, Option.some.injEq] at h
    obtain ⟨-, rfl⟩ := h
    exact hshell rfl rfl rfl rfl (List.drop_suffix _ _) rfl rfl rfl rfl
  | shellWrite buf =>
    simp only [step, Option.ite_none_left_eq_some, Option.some.injEq] at h
    obtain ⟨-, rfl⟩ := h
    exact hshell rfl rfl rfl rfl List.suffix_rfl rfl rfl rfl rfl
  | shellExit =>
    simp only [step, Option.ite_none_left_eq_some, Option.some.injEq] at h
    obtain ⟨-, rfl⟩ := h
    exact hshell rfl rfl rfl rfl List.suffix_rfl rfl rfl rfl rfl

lemma served_mono (xs ys : List UInt8) : served xs <+: served (xs ++ ys) := by
  rw [served_append]
  exact List.prefix_append _ _

/-- **The keystrokes reach the shell.** In every run without a key, whatever its schedule and
however its reads cut the stream: the keys are read in their order; the pipe has been given a
beginning of what the shell is to get for the keys read, and holds the end of that; and as long as
no write has failed, the rest is on its way. -/
theorem keystrokes_relayed (keys : List UInt8) (as : List Label) (s : St)
    (hrun : run (step (noKey : Key m)) (init keys) as = some s) :
    (typed as).flatten ++ s.keys = keys ∧ fed as <+: shellInput (typed as) ∧ s.wr <:+ fed as ∧
      (Unbroken as → fed as ++ onTheWay s = shellInput (typed as)) := by
  have hi : Relayed keys as s := by
    simpa using history (H := Relayed keys) relayed_step relayed_init hrun
  obtain ⟨lost, hclient, hlost⟩ := hi.client
  obtain ⟨gone, hserver, hnone⟩ := hi.server
  have hinput : shellInput (typed as) =
      served (taken as ++ (s.c2s ++ (pending s.client ++ lost))) := by
    rw [shellInput, ← served_sent, hclient.all_eq, hi.socket]
    simp only [List.append_assoc]
  refine ⟨hi.typed, ?_, hi.pipe, fun hun => ?_⟩
  · rw [hinput]
    refine List.IsPrefix.trans ?_ (served_mono (taken as) _)
    rw [hserver.all_eq, List.append_assoc]
    exact List.prefix_append _ _
  · rw [hinput, served_append, hserver.all_eq, hnone hun, hlost hun, List.append_nil,
      List.append_nil, List.append_assoc]
    unfold onTheWay
    simp only [hi.ended, decide_eq_true_eq]

/-- A letter and the end of the line are typed, and have come to the server. -/
def lineTyped : List Label :=
  [.client (.poll (revents true false false)), .client (.read .initial [97, 10]),
    .client (.call (.write .out1 [97]) .ok), .client (.call (.writeToSocket .out2 [97]) .ok),
    .client (.call (.writeToSocket .out2 [10]) .ok), .client (.call (.write .out1 [13, 10]) .ok),
    .server (.poll (revents true false false)), .server (.read .initial [97, 10]),
    .server (.call (.write .out2 [97]) .ok)]

theorem keystrokes_relayed_lineTyped :
    ∃ s, run (step (noKey : Key 7)) (init [97, 10, 4]) lineTyped = some s ∧
      fed lineTyped = [97] ∧ fed lineTyped ++ onTheWay s = [97, 10] := by
  obtain ⟨s, hs⟩ : ∃ s, run (step (noKey : Key 7)) (init [97, 10, 4]) lineTyped = some s :=
    Option.isSome_iff_exists.mp (by decide)
  have hunbroken : Unbroken lineTyped := by simp [Unbroken, lineTyped, Label.Breaks, Breaks]
  exact ⟨s, hs, rfl, (keystrokes_relayed [97, 10, 4] lineTyped s hs).2.2.2 hunbroken⟩

end LowLevelTasks.Keystrokes
