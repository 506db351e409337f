import LowLevelTasks.Lab1a

/-!
What the terminal of project 1a passes on.

Whatever is read is shown, in the order of the reads, and the shell gets the keys. A ^C becomes an
interrupt at its place among the keys, and the first ^D is the last byte that counts, whether it is
typed or printed by the shell. How the reads cut the two streams does not matter.
-/

namespace LowLevelTasks.TerminalRelay

open LowLevelTasks.Runs LowLevelTasks.Lab1a
open LowLevelTasks.PollLoop (Result)

/-! ### What a byte stands for -/

/-- What the shell gets through its pipe, and the signal SIGINT. -/
inductive Delivery
  | byte (b : UInt8)
  | interrupt
  deriving DecidableEq

/-- What is shown for a byte. -/
def echo (b : UInt8) : List UInt8 :=
  if b = 13 ∨ b = 10 then [13, 10]
  else if b = 3 then [94, 67]
  else if b = 4 then [94, 68]
  else [b]

/-- What the shell gets for a byte. A ^C interrupts it also if it has printed it itself. -/
def delivery (n : Source) (b : UInt8) : List Delivery :=
  if b = 3 then [.interrupt]
  else if n = .shell ∨ b = 4 ∨ b = 127 then []
  else [.byte (if b = 13 then 10 else b)]

/-- The bytes up to the first ^D, with it. -/
def throughEnd : List (Source × UInt8) → List (Source × UInt8)
  | [] => []
  | x :: bytes => x :: if x.2 = 4 then [] else throughEnd bytes

def screen (bytes : List (Source × UInt8)) : List UInt8 :=
  (throughEnd bytes).flatMap fun x => echo x.2

def shellInput (passShell : Bool) (bytes : List (Source × UInt8)) : List Delivery :=
  if passShell then (throughEnd bytes).flatMap fun x => delivery x.1 x.2 else []

/-! ### What a run has done -/

def Event.received : Event → List (Source × UInt8)
  | .read n buf => buf.map fun b => (n, b)
  | _ => []

/-- The bytes that are read, each with the descriptor it comes from. -/
def received (es : List Event) : List (Source × UInt8) := es.flatMap Event.received

def Ending : Action → Prop
  | .shellStatus | .exit => True
  | .writeTerminal _ | .writeShell _ | .kill => False

instance : DecidablePred Ending
  | .shellStatus | .exit => .isTrue trivial
  | .writeTerminal _ | .writeShell _ | .kill => .isFalse not_false

def shown : Action → List UInt8
  | .writeTerminal buf => buf
  | _ => []

def delivered : Action → List Delivery
  | .writeShell buf => buf.map .byte
  | .kill => [.interrupt]
  | _ => []

/-- The calls that do not end the session. -/
def Event.made : Event → List Action
  | .call c _ => if Ending c.action then [] else [c.action]
  | _ => []

def made (es : List Event) : List Action := es.flatMap Event.made

/-- The calls before the first one that ends the session. -/
def untilEnd (as : List Action) : List Action := as.takeWhile fun a => ¬ Ending a

/-- The calls that are still to be made. -/
def due (p : Proc) : List Action := untilEnd (p.calls.map Call.action)

variable (passShell : Bool)

/-- The calls for all bytes that are read. -/
def asked (es : List Event) : List Action :=
  (received es).flatMap fun x => handleInput passShell x.1 x.2

variable {passShell} {p p' : Proc} {es : List Event} {e : Event} {as bs : List Action}

lemma received_concat : received (es ++ [e]) = received es ++ Event.received e := by
  simp [received]

lemma made_concat : made (es ++ [e]) = made es ++ Event.made e := by simp [made]

lemma untilEnd_append (h : ∀ a ∈ as, ¬ Ending a) : untilEnd (as ++ bs) = as ++ untilEnd bs :=
  List.takeWhile_append_of_pos fun a ha => decide_eq_true (h a ha)

lemma untilEnd_eq_self (h : ∀ a ∈ as, ¬ Ending a) : untilEnd as = as :=
  List.takeWhile_eq_self_iff.mpr fun a ha => decide_eq_true (h a ha)

lemma asked_concat : asked passShell (es ++ [e]) = asked passShell es ++
    (Event.received e).flatMap fun x => handleInput passShell x.1 x.2 := by
  unfold asked
  rw [received_concat, List.flatMap_append]

/-! ### One byte -/

lemma handleInput_end (n : Source) : handleInput passShell n 4 =
    [.writeTerminal [94, 68], if passShell then .shellStatus else .exit] := rfl

/-- Only ^D ends the session. -/
lemma not_ending_handleInput {n : Source} {b : UInt8} (hb : b ≠ 4) :
    ∀ a ∈ handleInput passShell n b, ¬ Ending a := by
  unfold handleInput
  split_ifs <;> simp_all [Ending]

lemma shown_handleInput (n : Source) (b : UInt8) :
    (handleInput passShell n b).flatMap shown = echo b := by
  unfold handleInput echo
  split_ifs <;> simp [shown]

lemma delivered_handleInput (n : Source) (b : UInt8) :
    (handleInput passShell n b).flatMap delivered =
      if passShell then delivery n b else [] := by
  by_cases hnl : b = 13 ∨ b = 10
  · rcases hnl with rfl | rfl <;> cases n <;> cases passShell <;> rfl
  · obtain ⟨h13, h10⟩ := not_or.mp hnl
    unfold handleInput delivery
    rw [if_neg hnl, if_neg h13]
    cases n <;> cases passShell <;> split_ifs <;> simp_all [delivered]

/-- What is done for the bytes, of which those behind the end do not count. -/
lemma flatMap_untilEnd {β : Type} (g : Action → List β) (hstatus : g .shellStatus = [])
    (hexit : g .exit = []) (bytes : List (Source × UInt8)) :
    (untilEnd (bytes.flatMap fun x => handleInput passShell x.1 x.2)).flatMap g =
      (throughEnd bytes).flatMap fun x => (handleInput passShell x.1 x.2).flatMap g := by
  induction bytes with
  | nil => rfl
  | cons x bytes ih =>
    obtain ⟨n, b⟩ := x
    rw [List.flatMap_cons, throughEnd, List.flatMap_cons]
    by_cases hb : b = 4
    · subst hb
      rw [if_pos rfl, List.flatMap_nil, List.append_nil]
      cases passShell <;> simp [handleInput_end, untilEnd, Ending, hstatus, hexit]
    · rw [if_neg hb, untilEnd_append (not_ending_handleInput hb), List.flatMap_append, ih]

/-! ### The calls of a run -/

/-- No call fails. -/
def Succeeds : Event → Prop
  | .call _ r => r = .ok
  | _ => True

/-- The calls that are made and those that are due are those for the bytes up to the end. As long
as the session goes on there has been none. -/
structure Relays (passShell : Bool) (es : List Event) (p : Proc) : Prop where
  calls : made es ++ due p = untilEnd (asked passShell es)
  going : p.phase ≠ .exited → (∀ c ∈ p.calls, ¬ Ending c.action) →
    ∀ a ∈ asked passShell es, ¬ Ending a

lemma relays_init : Relays passShell [] .init := ⟨rfl, fun _ _ => by simp [asked, received]⟩

lemma callStep_ending {c : Call} {rest : List Call} (hend : Ending c.action)
    (h : callStep p c rest .ok = some p') : p' = p.exit := by
  obtain ⟨cause, action⟩ := c
  cases action with
  | shellStatus | exit => exact (Option.some.inj h).symm
  | writeTerminal | writeShell | kill => exact hend.elim

lemma callStep_going {c : Call} {rest : List Call} (hend : ¬ Ending c.action)
    (h : callStep p c rest .ok = some p') : p' = { p with calls := rest } := by
  obtain ⟨cause, action⟩ := c
  cases action with
  | writeTerminal | writeShell | kill => exact (Option.some.inj h).symm
  | shellStatus | exit => exact absurd trivial hend

/-- A step that makes no call and reads nothing. -/
lemma Relays.quiet (h : Relays passShell es p) (hreceived : Event.received e = [])
    (hmade : Event.made e = []) (hdue : due p' = due p)
    (hgoing : p'.phase ≠ .exited → (∀ c ∈ p'.calls, ¬ Ending c.action) →
      p.phase ≠ .exited ∧ ∀ c ∈ p.calls, ¬ Ending c.action) :
    Relays passShell (es ++ [e]) p' := by
  have hasked : asked passShell (es ++ [e]) = asked passShell es := by
    rw [asked_concat, hreceived, List.flatMap_nil, List.append_nil]
  refine ⟨?_, fun hphase hcalls => ?_⟩
  · rw [made_concat, hmade, List.append_nil, hdue, hasked, h.calls]
  · rw [hasked]
    exact h.going (hgoing hphase hcalls).1 (hgoing hphase hcalls).2

lemma map_action_readCalls (n : Source) (buf : List UInt8) :
    (readCalls passShell n buf).map Call.action =
      (Event.received (.read n buf)).flatMap fun x => handleInput passShell x.1 x.2 := by
  unfold readCalls Event.received
  rw [List.map_flatMap, List.flatMap_map]
  simp only [List.map_map, Function.comp_def, List.map_id']

/-- A read asks for the calls that are then due. -/
lemma Relays.read {n : Source} {buf : List UInt8} {phase : Phase} (h : Relays passShell es p)
    (hphase : p.phase ≠ .exited) (hnil : p.calls = []) :
    Relays passShell (es ++ [.read n buf])
      { p with phase := phase, calls := readCalls passShell n buf } := by
  have hgoing := h.going hphase (by simp [hnil])
  have hmade : made es = asked passShell es := by
    have hcalls := h.calls
    rwa [due, hnil, untilEnd_eq_self hgoing, List.map_nil, untilEnd, List.takeWhile_nil,
      List.append_nil] at hcalls
  refine ⟨?_, fun _ hcalls => ?_⟩
  · rw [made_concat, asked_concat, untilEnd_append hgoing, ← hmade, ← map_action_readCalls]
    simp [Event.made, due]
  · rw [asked_concat, List.forall_mem_append, ← map_action_readCalls]
    exact ⟨hgoing, by simpa using hcalls⟩

/-- The call that ends the session is none of those that were due. -/
lemma Relays.callEnding {c : Call} {rest : List Call} {r : Result} (h : Relays passShell es p)
    (hcalls : p.calls = c :: rest) (hend : Ending c.action) :
    Relays passShell (es ++ [.call c r]) p.exit := by
  have hdue : due p = [] := by
    unfold due
    rw [hcalls, List.map_cons, untilEnd, List.takeWhile_cons_of_neg (by simpa using hend)]
  exact h.quiet rfl (if_pos hend) (by rw [hdue]; rfl) fun hphase _ => absurd rfl hphase

/-- Another call is the first that was due. -/
lemma Relays.callGoing {c : Call} {rest : List Call} {r : Result} (h : Relays passShell es p)
    (hcalls : p.calls = c :: rest) (hend : ¬ Ending c.action) :
    Relays passShell (es ++ [.call c r]) { p with calls := rest } := by
  have hasked : asked passShell (es ++ [.call c r]) = asked passShell es := by
    rw [asked_concat]
    exact List.append_nil _
  have hdue : due p = c.action :: due { p with calls := rest } := by
    unfold due
    rw [hcalls, List.map_cons, untilEnd, List.takeWhile_cons_of_pos (by simpa using hend)]
    rfl
  refine ⟨?_, fun hphase hrest => ?_⟩
  · rw [made_concat, hasked, ← h.calls, hdue, Event.made, if_neg hend]
    simp
  · rw [hasked]
    refine h.going hphase ?_
    rw [hcalls, List.forall_mem_cons]
    exact ⟨hend, hrest⟩

/-- **One step.** -/
lemma relays_step (h : Relays passShell es p) (hok : Succeeds e)
    (hstep : step passShell p e = some p') : Relays passShell (es ++ [e]) p' := by
  cases e with
  | poll revents =>
    simp only [step, Option.ite_none_right_eq_some, Option.some.injEq] at hstep
    obtain ⟨⟨hphase, -⟩, rfl⟩ := hstep
    exact h.quiet rfl rfl rfl fun _ hcalls => ⟨by rw [hphase]; decide, hcalls⟩
  | read n buf =>
    simp only [step, Option.ite_none_right_eq_some, Option.some.injEq] at hstep
    obtain ⟨⟨hphase, hnil, -⟩, rfl⟩ := hstep
    exact h.read (by rw [hphase]; simp) hnil
  | pass n =>
    simp only [step, Option.ite_none_right_eq_some, Option.some.injEq] at hstep
    obtain ⟨⟨hphase, hnil, -⟩, rfl⟩ := hstep
    refine h.quiet rfl rfl ?_ fun _ _ => ⟨by rw [hphase]; simp, by simp [hnil]⟩
    -- a hangup leaves the end of the session to be made, and nothing before it
    unfold due
    dsimp only
    split <;> simp [hnil, untilEnd, Ending]
  | call c r =>
    obtain rfl : r = .ok := hok
    simp only [step] at hstep
    split at hstep
    · cases hstep
    next c' rest hcalls =>
    rw [Option.ite_none_right_eq_some] at hstep
    obtain ⟨rfl, hcall⟩ := hstep
    by_cases hend : Ending c'.action
    · obtain rfl : p' = p.exit := callStep_ending hend hcall
      exact h.callEnding hcalls hend
    · obtain rfl : p' = { p with calls := rest } := callStep_going hend hcall
      exact h.callGoing hcalls hend

/-- **A run** in which no call fails. -/
lemma relays_run (h : run (step passShell) .init es = some p) (hok : ∀ e ∈ es, Succeeds e) :
    Relays passShell es p := by
  have hinv := history (H := fun es p => (∀ e ∈ es, Succeeds e) → Relays passShell es p)
    (fun pre s a s' hs hstep hall => relays_step (hs fun e he => hall e (List.mem_append_left _ he))
      (hall a (by simp)) hstep) (fun _ => relays_init) h
  exact hinv hok

/-! ### What is shown and what the shell gets -/

/-- What has been shown, and what the shell has got. -/
def shownBy (es : List Event) : List UInt8 := (made es).flatMap shown

def deliveredBy (es : List Event) : List Delivery := (made es).flatMap delivered

variable (passShell) in
lemma screen_eq (bytes : List (Source × UInt8)) :
    (untilEnd (bytes.flatMap fun x => handleInput passShell x.1 x.2)).flatMap shown =
      screen bytes := by
  rw [flatMap_untilEnd shown rfl rfl]
  exact List.flatMap_congr fun x _ => shown_handleInput x.1 x.2

lemma shellInput_eq (bytes : List (Source × UInt8)) :
    (untilEnd (bytes.flatMap fun x => handleInput passShell x.1 x.2)).flatMap delivered =
      shellInput passShell bytes := by
  rw [flatMap_untilEnd delivered rfl rfl]
  unfold shellInput
  simp only [delivered_handleInput]
  cases passShell <;> simp

variable (passShell) in
/-- The calls that are due can be made. -/
lemma exists_run_due (p : Proc) : ∃ es' p', run (step passShell) p es' = some p' ∧
    (∀ e ∈ es', ∃ c, e = .call c .ok) ∧ made es' = due p := by
  set calls := p.calls.takeWhile fun c => ¬ Ending c.action with hcalls
  have hgo : ∀ c ∈ calls, ¬ Ending c.action := fun c hc => by
    simpa using List.mem_takeWhile_imp hc
  have hrun : run (step passShell) p (calls.map fun c => .call c .ok) =
      some { p with calls := p.calls.dropWhile fun c => ¬ Ending c.action } :=
    run_calls calls _ List.takeWhile_append_dropWhile.symm fun c hc => by
      have hnot := hgo c hc
      constructor <;> intro heq <;> rw [heq] at hnot <;> exact hnot trivial
  have hdue : due p = calls.map Call.action := by
    unfold due untilEnd
    rw [List.takeWhile_map]
    rfl
  refine ⟨_, _, hrun, fun e he => ?_, ?_⟩
  · obtain ⟨c, -, rfl⟩ := List.mem_map.mp he
    exact ⟨c, rfl⟩
  · rw [hdue, made, List.flatMap_map, ← List.flatMap_singleton' (calls.map Call.action),
      List.flatMap_map]
    exact List.flatMap_congr fun c hc => if_neg (hgo c hc)

/-- **The session is relayed.** As long as no call fails, what has been shown and what is still to
be shown is the echo of the bytes read, in the order in which they were read and up to the first
^D; the shell has got, or is going to get, the keys among them and an interrupt for each ^C; and
at any time all of it can be passed on without another read. -/
theorem session_relayed (passShell : Bool) (es : List Event) (p : Proc)
    (hrun : run (step passShell) .init es = some p) (hok : ∀ e ∈ es, Succeeds e) :
    shownBy es ++ (due p).flatMap shown = screen (received es) ∧
    deliveredBy es ++ (due p).flatMap delivered = shellInput passShell (received es) ∧
    ∃ es' p', run (step passShell) p es' = some p' ∧ (∀ e ∈ es', ∃ c, e = .call c .ok) ∧
      shownBy (es ++ es') = screen (received es) ∧
      deliveredBy (es ++ es') = shellInput passShell (received es) := by
  have hcalls := (relays_run hrun hok).calls
  have hshown : shownBy es ++ (due p).flatMap shown = screen (received es) := by
    rw [← screen_eq passShell, shownBy, ← List.flatMap_append, hcalls, asked]
  have hdelivered : deliveredBy es ++ (due p).flatMap delivered =
      shellInput passShell (received es) := by
    rw [← shellInput_eq, deliveredBy, ← List.flatMap_append, hcalls, asked]
  refine ⟨hshown, hdelivered, ?_⟩
  obtain ⟨es', p', hrun', hall, hmade⟩ := exists_run_due passShell p
  have happend : made (es ++ es') = made es ++ due p := by
    rw [← hmade]
    exact List.flatMap_append
  refine ⟨es', p', hrun', hall, ?_, ?_⟩
  · rw [← hshown, shownBy, happend, List.flatMap_append]
    rfl
  · rw [← hdelivered, deliveredBy, happend, List.flatMap_append]
    rfl

/-- A letter and ^C are typed and shown, the letter goes to the shell, and the interrupt is still
to be sent. -/
def interrupted : List Event :=
  [.poll fun _ => ⟨true, false, false⟩, .read .keyboard [108, 3],
    .call ⟨.byte .keyboard 108, .writeTerminal [108]⟩ .ok,
    .call ⟨.byte .keyboard 108, .writeShell [108]⟩ .ok,
    .call ⟨.byte .keyboard 3, .writeTerminal [94, 67]⟩ .ok]

theorem session_relayed_interrupted : ∃ p, run (step true) .init interrupted = some p ∧
    deliveredBy interrupted ++ (due p).flatMap delivered = [.byte 108, .interrupt] := by
  obtain ⟨p, hp⟩ : ∃ p, run (step true) .init interrupted = some p := ⟨_, rfl⟩
  have hok : ∀ e ∈ interrupted, Succeeds e := by simp [interrupted, Succeeds]
  exact ⟨p, hp, (session_relayed true interrupted p hp hok).2.1⟩

end LowLevelTasks.TerminalRelay
