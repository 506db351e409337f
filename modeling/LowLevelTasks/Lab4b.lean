import LowLevelTasks.SensorReports

/-!
The program that reads commands from its standard input. It writes its report lines to the
standard output and, with the valid commands, to a log file if there is one; what it shows on
the console goes elsewhere.
-/

namespace LowLevelTasks.Lab4b

open LowLevelTasks.SensorProgram LowLevelTasks.SensorReports

structure Out where
  stdout : List UInt8
  log : List UInt8
  format : List UInt8
deriving DecidableEq

variable (logging : Bool)

def Out.writeLog (bytes : List UInt8) (out : Out) : Out :=
  if logging then { out with log := out.log ++ bytes } else out

def program : Program Out where
  receive _ out := out
  format bytes out := { out with format := out.format ++ bytes }
  log bytes out := out.writeLog logging bytes
  send _ line out :=
    ({ out with stdout := out.stdout ++ line.bytes }.writeLog logging line.bytes, true)

variable {F : Type} (fl : Floats F)

def report := SensorProgram.report (program logging) fl

def storeBuffer := SensorProgram.storeBuffer (program logging) fl

/-- The program with its options, from the first report on. -/
def main (scale : Scale) (period : F) (first : Input F) (xs : List (Input F)) :
    Run F Out (St F Out) :=
  run (program logging) fl (initVars scale period ⟨[], [], []⟩) first xs

lemma stdout_writeLog (bytes : List UInt8) (out : Out) :
    (out.writeLog logging bytes).stdout = out.stdout := by
  unfold Out.writeLog
  split <;> rfl

lemma prints : Prints (program logging) Out.stdout where
  receive _ _ := rfl
  format _ _ := rfl
  log := stdout_writeLog logging
  send _ _ _ := stdout_writeLog logging _ _
  sent _ _ _ := rfl

/-- A longer run goes on from where a shorter one is. -/
lemma main_append (scale : Scale) (period : F) (first : Input F) (xs ys : List (Input F)) :
    main logging fl scale period first (xs ++ ys) = (main logging fl scale period first xs >>=
      fun s => ys.foldlM (fun s x => pass (program logging) fl x s) s) := by
  unfold main run
  simp only [List.foldlM_append, bind_assoc]

/-- **The reports of a run.** Temperatures are reported only while nothing has interrupted the
program and reporting is switched on. The flag says whether something has interrupted it, and
stays set; with it the next report is `SHUTDOWN`, which is the last event and goes with the
status 0. What is written is the lines reported, and a line `OFF` ends the program whatever
stands behind it in the chunk. -/
theorem main_reports (scale : Scale) (period : F) (first : Input F) (xs : List (Input F)) :
    Lawful (finalState (main logging fl scale period first xs)).trace ∧
    ((finalState (main logging fl scale period first xs)).interrupt = true ↔
      Interrupted (finalState (main logging fl scale period first xs)).trace) ∧
    (∀ ys, (finalState (main logging fl scale period first xs)).trace <+:
      (finalState (main logging fl scale period first (xs ++ ys))).trace) ∧
    (∀ (s : St F Out) (x : Input F), s.interrupt = true → x.sensor ≠ -1 →
      ∃ s', report logging fl x s = .error (.exit 0 s') ∧
        s'.trace = s.trace ++ [.report (.shutdown x.time)]) ∧
    (exitStatus (main logging fl scale period first xs) = some 0 ↔
      HasShutdown (finalState (main logging fl scale period first xs)).trace) ∧
    (finalState (main logging fl scale period first xs)).out.stdout =
      reportText (finalState (main logging fl scale period first xs)).trace ∧
    ∀ (s s₁ : St F Out) (x : Input F) (u : List UInt8), storeBuffer logging fl x s u = .ok s₁ →
      ascii "OFF" <+: s₁.lineBuf.take s₁.lineMarker →
        ∃ halt, ∀ v, storeBuffer logging fl x s (u ++ 10 :: v) = .error halt := by
  have hP := prints logging
  have hrun : Outcomes.Ends (Running Out.stdout []) (Over Out.stdout [])
      (main logging fl scale period first xs) := run_keeps hP first xs (running_initVars rfl)
  have hinv := inv_finalState hrun
  refine ⟨hinv.lawful, hinv.interrupt, fun ys => ?_, fun s x hs hsensor => ?_,
    exitStatus_eq_zero_iff hrun, hinv.printed, fun s s₁ x u hu h => storeBuffer_off hP hu h⟩
  · rw [main_append]
    cases hr : main logging fl scale period first xs with
    | ok s =>
      rw [hr] at hrun
      have hmore : Outcomes.Ends (Running Out.stdout s.trace) (Over Out.stdout s.trace)
          (ys.foldlM (fun s x => pass (program logging) fl x s) s) :=
        passes_keep hP ys (Running.since hrun)
      exact (inv_finalState hmore).grows
    | error halt => exact List.prefix_rfl
  · exact ⟨_, report_of_interrupt hP hs hsensor, rfl⟩

end LowLevelTasks.Lab4b
