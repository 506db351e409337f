import LowLevelTasks.Buffers
import LowLevelTasks.Outcomes

/-!
The sensor programs. Both read commands in chunks, edit lines byte by byte and report the
temperature whenever the period is over; they differ in where they write. Each pass of the
main loop answers to what it finds: input, the button and the two timers.
-/

namespace LowLevelTasks.SensorProgram

open LowLevelTasks.Buffers

def ascii (s : String) : List UInt8 := s.toList.map fun c => .ofNat c.toNat

/-! ### The sensors -/

inductive Scale where
  | fahrenheit | celsius
deriving DecidableEq

/-- `none` stands for the exit with status 1. -/
def setScale (tempScale : UInt8) : Option Scale :=
  if tempScale = 70 ∨ tempScale = 102 then some .fahrenheit
  else if tempScale = 67 ∨ tempScale = 99 then some .celsius
  else none

/-- The button stays pressed. A failed read ends the program with status 1. -/
def readButton (read : ℤ) (pressed : Bool) : Option Bool :=
  if read = 1 then some true
  else if read = -1 then none
  else some pressed

/-- The arithmetic on `float`, and the text of the temperature that a value of the sensor
stands for. -/
structure Floats (F : Type) where
  atof : List UInt8 → F
  ge : F → F → Bool
  responsiveness : F
  temperatureText : ℤ → Scale → List UInt8

/-! ### States -/

inductive ReportLine where
  | temperature (time text : List UInt8)
  | shutdown (time : List UInt8)
deriving DecidableEq

def ReportLine.bytes : ReportLine → List UInt8
  | .temperature time text => time ++ ascii " " ++ text ++ ascii "\n"
  | .shutdown time => time ++ ascii " SHUTDOWN" ++ ascii "\n"

/-- What happens in a run: a line is handed to `process_command`, which finds a text in its
buffer; the button sets the flag; a line is reported. -/
inductive Event where
  | command (line procBuf : List UInt8)
  | button
  | report (line : ReportLine)
deriving DecidableEq

/-- The state of a program; `out` is what it has written. The bytes that are consumed and the
events are kept for the sake of the statements only. -/
structure St (F ω : Type) where
  lineBuf : List UInt8
  procBuf : List UInt8
  lineMarker : ℕ
  interrupt : Bool
  generateReports : Bool
  pressed : Bool
  scale : Scale
  period : F
  out : ω
  consumed : List UInt8
  trace : List Event
deriving DecidableEq

/-- The end of a program: it exits, or it goes on in a way that is not defined. -/
inductive Halt (F ω : Type) where
  | exit (status : ℕ) (s : St F ω)
  | undefined (s : St F ω)
deriving DecidableEq

def Halt.state {F ω : Type} : Halt F ω → St F ω
  | .exit _ s => s
  | .undefined s => s

abbrev Run (F ω : Type) := Except (Halt F ω)

/-- The last state of a run. -/
def finalState {F ω : Type} : Run F ω (St F ω) → St F ω
  | .ok s => s
  | .error halt => halt.state

def exitStatus {F ω : Type} : Run F ω (St F ω) → Option ℕ
  | .error (.exit status _) => some status
  | _ => none

/-- What a pass of the main loop finds. The bytes are those that `read` yields, if any; the
time and the sensor are asked for in a report only, the host if there is one. -/
structure Input (F : Type) where
  chunk : List UInt8
  chunk_le : chunk.length ≤ 128
  button : ℤ
  inputElapsed : F
  periodElapsed : F
  time : List UInt8
  sensor : ℤ
  hostUp : Bool

/-- Where a program writes to: what it does with the bytes read, with the console, with a
valid command and with a report line. If a line cannot be sent, the program exits. -/
structure Program (ω : Type) where
  receive : List UInt8 → ω → ω
  format : List UInt8 → ω → ω
  log : List UInt8 → ω → ω
  send : Bool → ReportLine → ω → ω × Bool

variable {F ω : Type}

/-- The state behind `init_vars`. -/
def initVars (scale : Scale) (period : F) (out : ω) : St F ω where
  lineBuf := List.replicate 128 0
  procBuf := List.replicate 128 0
  lineMarker := 0
  interrupt := false
  generateReports := true
  pressed := false
  scale := scale
  period := period
  out := out
  consumed := []
  trace := []

variable (P : Program ω) (fl : Floats F) (x : Input F)

def format (bytes : List UInt8) (s : St F ω) : St F ω := { s with out := P.format bytes s.out }

def St.event (s : St F ω) (e : Event) : St F ω := { s with trace := s.trace ++ [e] }

/-! ### Reports -/

def sendReport (line : ReportLine) (s : St F ω) : Run F ω (St F ω) :=
  let sent := P.send x.hostUp line s.out
  let s := format P (ascii "\r") ({ s with out := sent.1 }.event (.report line))
  if sent.2 then .ok s else .error (.exit 2 s)

def report (s : St F ω) : Run F ω (St F ω) :=
  if x.sensor = -1 then .error (.exit 1 s)
  else do
    let text := fl.temperatureText x.sensor s.scale
    let s ←
      if s.interrupt then sendReport P x (.shutdown x.time) s
      else if s.generateReports then sendReport P x (.temperature x.time text) s
      else .ok s
    if s.interrupt then .error (.exit 0 s) else .ok s

def clearConsoleLine : List UInt8 := 27 :: ascii "[2K\r"

def writeInput (s : St F ω) : St F ω :=
  format P (clearConsoleLine ++ s.lineBuf.take s.lineMarker) s

def writeReport (s : St F ω) : Run F ω (St F ω) := report P fl x (format P clearConsoleLine s)

/-! ### Commands -/

inductive Kind where
  | scale | period | stop | start | off | other
deriving DecidableEq

/-- The prefix tests. -/
def kindOf (procBuf : List UInt8) : Kind :=
  if (ascii "SCALE=").isPrefixOf procBuf then .scale
  else if (ascii "PERIOD=").isPrefixOf procBuf then .period
  else if (ascii "STOP").isPrefixOf procBuf then .stop
  else if (ascii "START").isPrefixOf procBuf then .start
  else if (ascii "OFF").isPrefixOf procBuf then .off
  else .other

/-- What a command does. The argument of `PERIOD=` is copied into ten bytes, of which the last
has to stay zero. -/
def execute (s : St F ω) : Run F ω (St F ω) :=
  match kindOf s.procBuf with
  | .scale =>
    match setScale (s.procBuf.getD 6 0) with
    | some scale => .ok { s with scale }
    | none => .error (.exit 1 s)
  | .period =>
    let period := (s.procBuf.take s.lineMarker).drop 7
    if period.length < 10 then .ok { s with period := fl.atof (period.takeWhile (· ≠ 0)) }
    else .error (.undefined s)
  | .stop => .ok { s with generateReports := false }
  | .start => .ok { s with generateReports := true }
  | .off => .ok { s with interrupt := true }
  | .other => .ok s

def logCommand (s : St F ω) : St F ω :=
  if kindOf s.procBuf = .other then s
  else { s with out := P.log (s.procBuf.take s.lineMarker ++ ascii "\n") s.out }

/-- The line is copied over what the buffer holds. -/
def copyLine (s : St F ω) : St F ω :=
  let procBuf := overwrite (strncpy s.lineMarker s.lineBuf) s.procBuf
  { s with procBuf }.event (.command (s.lineBuf.take s.lineMarker) procBuf)

@[simp] lemma copyLine_interrupt (s : St F ω) : (copyLine s).interrupt = s.interrupt := rfl

@[simp] lemma copyLine_generateReports (s : St F ω) :
    (copyLine s).generateReports = s.generateReports := rfl

def processCommand (s : St F ω) : Run F ω (St F ω) := do
  let s ← execute fl (copyLine s)
  let s := logCommand P s
  let s ← if s.interrupt then report P fl x s else .ok s
  .ok { s with procBuf := memset s.lineMarker s.procBuf }

/-! ### Input -/

/-- The last pending character is removed. -/
def deleteLast (s : St F ω) : St F ω :=
  if 0 < s.lineMarker then
    { s with lineMarker := s.lineMarker - 1, lineBuf := s.lineBuf.set (s.lineMarker - 1) 0 }
  else s

/-- A line that is not empty is complete. -/
def completeLine (s : St F ω) : Run F ω (St F ω) :=
  if 0 < s.lineMarker then do
    let s ← processCommand P fl x (format P (ascii "\r") s)
    .ok { s with lineBuf := memset s.lineMarker s.lineBuf, lineMarker := 0 }
  else .ok s

/-- There is no place behind the 128 bytes of the buffer. -/
def appendByte (b : UInt8) (s : St F ω) : Run F ω (St F ω) :=
  if s.lineMarker < 128 then
    .ok { s with lineBuf := s.lineBuf.set s.lineMarker b, lineMarker := s.lineMarker + 1 }
  else .error (.undefined s)

/-- One byte. Those from 128 on are negative as `char`, and ignored. -/
def storeByte (s : St F ω) (b : UInt8) : Run F ω (St F ω) :=
  let s := { s with consumed := s.consumed ++ [b] }
  if b = 127 then .ok (deleteLast s)
  else if b = 10 then completeLine P fl x s
  else if b = 3 then .error (.exit 2 (format P (ascii "\r") s))
  else if 32 ≤ b ∧ b ≤ 126 then appendByte b s
  else .ok s

/-- A line that has filled the buffer is thrown away before the next chunk. -/
def startChunk (s : St F ω) : St F ω :=
  if 127 < s.lineMarker then { s with lineBuf := memset 128 s.lineBuf, lineMarker := 0 } else s

def storeBuffer (s : St F ω) (newBuf : List UInt8) : Run F ω (St F ω) :=
  newBuf.foldlM (storeByte P fl x) (startChunk s)

/-! ### The main loop -/

/-- A chunk that begins with a zero counts as no input. -/
def readInput (s : St F ω) : Run F ω (St F ω) :=
  let newBuf := if x.chunk.head? = some 0 then [] else x.chunk
  let s := { s with out := P.receive x.chunk s.out }
  if 0 < newBuf.length then do
    let s ← storeBuffer P fl x s newBuf
    .ok (writeInput P s)
  else .ok s

def checkButton (s : St F ω) : Run F ω (St F ω) :=
  match readButton x.button s.pressed with
  | none => .error (.exit 1 s)
  | some true => .ok ({ s with pressed := true, interrupt := true }.event .button)
  | some false => .ok { s with pressed := false }

def checkTimers (s : St F ω) : Run F ω (St F ω) := do
  let s := if fl.ge x.inputElapsed fl.responsiveness then writeInput P s else s
  if fl.ge x.periodElapsed s.period then do
    let s ← writeReport P fl x s
    .ok (writeInput P s)
  else .ok s

def pass (s : St F ω) : Run F ω (St F ω) := do
  let s ← readInput P fl x s
  let s ← checkButton x s
  checkTimers P fl x s

/-- The program from its first report on; `xs` is what the passes find. -/
def run (s : St F ω) (first : Input F) (xs : List (Input F)) : Run F ω (St F ω) := do
  let s ← writeReport P fl first s
  xs.foldlM (fun s x => pass P fl x s) s

end LowLevelTasks.SensorProgram
