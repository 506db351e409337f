import LowLevelTasks.Lab4b
import LowLevelTasks.LineEditing

/-!
The program that reads commands from a host. What it reads goes to the standard output and to
the log file; a report line goes to the host as well, and the program ends if the host does
not take it.
-/

namespace LowLevelTasks.Lab4c

open LowLevelTasks.LineEditing LowLevelTasks.Outcomes LowLevelTasks.SensorProgram

structure Out where
  stdout : List UInt8
  log : List UInt8
  format : List UInt8
  host : List UInt8
deriving DecidableEq

variable (logging : Bool)

def Out.writeLog (bytes : List UInt8) (out : Out) : Out :=
  if logging then { out with log := out.log ++ bytes } else out

def Out.writeHost (bytes : List UInt8) (out : Out) : Out :=
  let out := out.writeLog logging bytes
  { out with host := out.host ++ bytes }

def program : Program Out where
  receive bytes out :=
    let out := out.writeLog logging bytes
    { out with stdout := out.stdout ++ bytes }
  format bytes out := { out with format := out.format ++ bytes }
  log _ out := out
  send hostUp line out :=
    let out := { out with stdout := out.stdout ++ line.bytes }
    if hostUp then (out.writeHost logging line.bytes, true)
    else (out.writeLog logging line.bytes, false)

variable {F : Type} (fl : Floats F)

/-- The program behind `process_args`, which has sent the id to the host and has set the scale
and the period. -/
def main (studentId : List UInt8) (period : F) (first : Input F) (xs : List (Input F)) :
    Run F Out (St F Out) :=
  run (program logging) fl
    (initVars .fahrenheit period
      ((⟨[], [], [], []⟩ : Out).writeHost logging (ascii "ID=" ++ studentId ++ ascii "\n")))
    first xs

/-- The lines that a run hands over are those of the editor: all of them, if the program still
runs, and those of the bytes consumed, if it has exited. -/
def Edits {ω : Type} (w : List UInt8) (r : Run F ω (St F ω)) : Prop :=
  Ends (fun s => s.consumed = w ∧ (edit w).ended = false ∧ handed s.trace = commands w)
    (Exits fun s => s.consumed <+: w ∧ handed s.trace = commands s.consumed) r

lemma run_edited {ω : Type} {P : Program ω} {scale : Scale} {period : F} {out : ω}
    {first : Input F} {xs : List (Input F)} (htame : Tame (xs.flatMap (·.chunk)))
    (hzero : ∀ x ∈ xs, 0 ∉ x.chunk) :
    Edits (xs.flatMap (·.chunk)) (run P fl (initVars scale period out) first xs) := by
  refine (run_edits htame hzero).mono ?_ fun _ h => h
  rintro s ⟨h, hconsumed⟩
  exact ⟨hconsumed, hconsumed ▸ h.going, hconsumed ▸ h.handed⟩

/-- **Lines and commands.** In both programs the lines handed to `process_command` depend on
the stream only, not on how it is cut into chunks, and its buffer holds the line with zeros
behind it. -/
theorem main_commands (studentId : List UInt8) (scale : Scale) (period : F) (first : Input F)
    (xs : List (Input F)) (htame : Tame (xs.flatMap (·.chunk)))
    (hzero : ∀ x ∈ xs, 0 ∉ x.chunk) :
    Edits (xs.flatMap (·.chunk)) (main logging fl studentId period first xs) ∧
    Edits (xs.flatMap (·.chunk)) (Lab4b.main logging fl scale period first xs) :=
  ⟨run_edited fl htame hzero, run_edited fl htame hzero⟩

/-- Seconds in hundredths, and the text of 500 in Fahrenheit. -/
def hundredths : Floats ℕ where
  atof _ := 0
  ge a b := b ≤ a
  responsiveness := 75
  temperatureText _ _ := ascii "75.3"

/-- A pass that finds some bytes and nothing else. -/
def typed (chunk : List UInt8) (h : chunk.length ≤ 128) : Input ℕ :=
  ⟨chunk, h, 0, 0, 0, ascii "12:30:00", 500, true⟩

/-- The lines `STOP` and `OFF` in three chunks, with an `X` that is deleted. -/
def session : List (Input ℕ) :=
  [typed (ascii "STOX") (by decide), typed (127 :: ascii "P\nO") (by decide),
    typed (ascii "FF\nSTART") (by decide)]

theorem main_commands_session :
    Edits (session.flatMap (·.chunk))
      (main true hundredths (ascii "123456789") 100 (typed [] (by decide)) session) ∧
    Edits (session.flatMap (·.chunk))
      (Lab4b.main true hundredths .fahrenheit 100 (typed [] (by decide)) session) :=
  main_commands true hundredths (ascii "123456789") .fahrenheit 100 (typed [] (by decide)) session
    (by decide) (by decide)

end LowLevelTasks.Lab4c
