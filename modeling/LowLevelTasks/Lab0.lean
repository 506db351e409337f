import LowLevelTasks.FileDescriptors
import LowLevelTasks.Loops

/-!
The program that copies its input to its output.

It learns from `lseek` how much there is to copy, and makes room for all of it. What `read` and
`write` return is not looked at.
-/

namespace LowLevelTasks.Lab0

open LowLevelTasks.FileDescriptors LowLevelTasks.Loops

/-! ### Options -/

/-- What `getopt_long` returns for an option. -/
inductive Opt (ν : Type)
  | input (name : ν) | output (name : ν) | segfault | catch | unknown

structure Args (ν : Type) where
  inFile : Option ν
  outFile : Option ν
  segOption : Bool
  caught : Bool

/-- How the program ends. -/
inductive Ending
  | exit (status : ℕ) | segmentationFault
  deriving DecidableEq

variable {ν : Type}

/-- `switch (opt)`; `--catch` is obeyed at once. -/
def switch (a : Args ν) : Opt ν → Except Ending (Args ν)
  | .input name => .ok { a with inFile := some name }
  | .output name => .ok { a with outFile := some name }
  | .segfault => .ok { a with segOption := true }
  | .catch => .ok { a with caught := true }
  | .unknown => .error (.exit 1)

def processArgs (opts : List (Opt ν)) (operands : ℕ) : Except Ending (Args ν) := do
  let a ← opts.foldlM switch ⟨none, none, false, false⟩
  if 0 < operands then .error (.exit 1) else .ok a

/-! ### The program -/

variable [DecidableEq ν] (sys : System ν)

/-- If there is an option `--input`, the file takes the place of the standard input. -/
def redirectInput (a : Args ν) (p : Process ν) : Option (Process ν) :=
  match a.inFile with
  | some inFile => (p.openRead sys inFile).map fun opened => Process.redirected opened 0
  | none => some p

def redirectOutput (a : Args ν) (p : Process ν) : Option (Process ν) :=
  match a.outFile with
  | some outFile => (p.creat sys outFile).map fun opened => Process.redirected opened 1
  | none => some p

/-- Without a size no buffer is big enough: `malloc` fails, and so do `read` and `write`. What
stands in a buffer before it is read to comes from the heap. -/
def copy (heap : ℕ → UInt8) (p : Process ν) : Process ν :=
  match p.lseekEnd 0 with
  | none => p
  | some (fileSize, p) =>
    let p := p.lseekStart 0
    let buf := (List.range fileSize).map heap
    let (buf, p) := match p.read sys 0 fileSize with
      | some (bytes, p) => (bytes ++ buf.drop bytes.length, p)
      | none => (buf, p)
    (p.write sys 1 buf).getD p

def main (heap : ℕ → UInt8) (opts : List (Opt ν)) (operands : ℕ) (p : Process ν) :
    Ending × Process ν :=
  match processArgs opts operands with
  | .error ending => (ending, p)
  | .ok a =>
    match redirectInput sys a p with
    | none => (.exit 2, p)
    | some p =>
      match redirectOutput sys a p with
      | none => (.exit 3, p)
      | some p =>
        if a.segOption then (if a.caught then .exit 4 else .segmentationFault, p)
        else (.exit 0, copy sys heap p)

/-! ### Options in any order -/

def inputs (opts : List (Opt ν)) : List ν :=
  opts.filterMap fun
    | .input name => some name
    | _ => none

def outputs (opts : List (Opt ν)) : List ν :=
  opts.filterMap fun
    | .output name => some name
    | _ => none

omit [DecidableEq ν] in
/-- Of each option the last one counts. -/
lemma processArgs_eq {opts : List (Opt ν)} (h : ∀ o ∈ opts, o ≠ .unknown ∧ o ≠ .segfault) :
    ∃ a, processArgs opts 0 = .ok a ∧ a.inFile = (inputs opts).getLast? ∧
      a.outFile = (outputs opts).getLast? ∧ a.segOption = false := by
  suffices ∀ opts : List (Opt ν), (∀ o ∈ opts, o ≠ .unknown ∧ o ≠ .segfault) →
      ∃ a, opts.foldlM switch ⟨none, none, false, false⟩ = .ok a ∧
        a.inFile = (inputs opts).getLast? ∧ a.outFile = (outputs opts).getLast? ∧
        a.segOption = false by
    obtain ⟨a, ha, hrest⟩ := this opts h
    exact ⟨a, by rw [processArgs, ha]; rfl, hrest⟩
  intro opts
  induction opts using List.reverseRecOn with
  | nil => exact fun _ => ⟨_, rfl, rfl, rfl, rfl⟩
  | append_singleton opts o ih =>
    intro h
    rw [List.forall_mem_append, List.forall_mem_singleton] at h
    obtain ⟨a, ha, hin, hout, hseg⟩ := ih h.1
    rw [List.foldlM_append, ha, ok_bind]
    unfold inputs at hin ⊢
    unfold outputs at hout ⊢
    rw [List.filterMap_append, List.filterMap_append]
    cases o with
    | input name => exact ⟨_, rfl, by simp, by simpa using hout, hseg⟩
    | output name => exact ⟨_, rfl, by simpa using hin, by simp, hseg⟩
    | «catch» => exact ⟨_, rfl, by simpa using hin, by simpa using hout, hseg⟩
    | segfault => exact absurd rfl h.2.2
    | unknown => exact absurd rfl h.2.1

/-! ### Copying -/

variable {sys} {p : Process ν} {source sink : OpenFile} {i o : ℕ}

omit [DecidableEq ν] in
/-- The bytes that come from the heap are never written. -/
lemma take_buffer (count : ℕ) (heap : ℕ → UInt8) (content : List UInt8) :
    (content.take (min content.length count) ++ ((List.range content.length).map heap).drop
      (content.take (min content.length count)).length).take count = content.take count := by
  rw [List.length_take, Nat.min_eq_left (Nat.min_le_left _ _)]
  rcases Nat.le_total content.length count with h | h
  · have hnone : ((List.range content.length).map heap).drop content.length = [] :=
      List.drop_eq_nil_of_le (by simp)
    rw [Nat.min_eq_left h, List.take_length, hnone, List.append_nil]
  · rw [Nat.min_eq_right h]
    exact List.take_left' (by rw [List.length_take, Nat.min_eq_left h])

lemma overwriteAt_nil (data : List UInt8) : overwriteAt 0 data [] = data := by
  unfold overwriteAt
  split_ifs with hnil
  · exact hnil.symm
  · simp

omit [DecidableEq ν] in
/-- **The files behind a copy.** The sink has the bytes of the source, as many as a single call
writes. -/
lemma copy_disk (sys : System ν) (heap : ℕ → UInt8) (h : Wired p source sink)
    (hseek : source.seekable) (hread : source.readable) (hwrite : sink.writable) :
    (copy sys heap p).disk = p.disk.setContent sink.inode (overwriteAt
      (if sink.appends then (p.disk.content sink.inode).length else sink.offset)
      ((p.disk.content source.inode).take sys.maxCount) (p.disk.content sink.inode)) := by
  have hend := h.setOffset (p.disk.content source.inode).length
  have hstart := hend.setOffset 0
  have hdone := hstart.setOffset
    (0 + ((p.disk.content source.inode).take
      (min (p.disk.content source.inode).length sys.maxCount)).length)
  have hlseek : p.lseekEnd 0 = some ((p.disk.content source.inode).length,
      p.setOffset 0 (p.disk.content source.inode).length) := by
    simp only [Process.lseekEnd, h.source, hseek, if_true]
  have hrewind : (p.setOffset 0 (p.disk.content source.inode).length).lseekStart 0 =
      (p.setOffset 0 (p.disk.content source.inode).length).setOffset 0 0 := by
    simp only [Process.lseekStart, hend.source, hseek, if_true]
  simp only [copy, hlseek, hrewind, Process.read, hstart.source, hread, if_true,
    Process.setOffset_disk, List.drop_zero, Process.write, hdone.sink, hwrite, Option.getD_some,
    take_buffer]

variable {stdin stdout : OpenFile} {a : Args ν}

/-- The file that is copied, if it can be read and has a size. -/
def sourceInode (sys : System ν) (disk : Disk ν) (stdin : OpenFile) : Option ν → Option ℕ
  | some inFile => (disk.inode inFile).filter sys.mayRead
  | none => if stdin.seekable ∧ stdin.readable then some stdin.inode else none

omit [DecidableEq ν] in
lemma redirectInput_wired (sys : System ν) (h : Wired p stdin stdout)
    (hi : sourceInode sys p.disk stdin a.inFile = some i) :
    ∃ p' source, redirectInput sys a p = some p' ∧ Wired p' source stdout ∧ p'.disk = p.disk ∧
      source.inode = i ∧ source.seekable ∧ source.readable := by
  unfold redirectInput
  cases hin : a.inFile with
  | some inFile =>
    rw [hin, sourceInode, Option.filter_eq_some_iff] at hi
    obtain ⟨hinode, hmay⟩ := hi
    refine ⟨_, ⟨i, 0, true, true, false, false⟩, ?_, h.redirectSource _, rfl, rfl, rfl, rfl⟩
    simp only [Process.openRead, hinode, hmay, if_true, Option.map_some]
  | none =>
    rw [hin, sourceInode] at hi
    split at hi
    · next hfile => exact ⟨p, stdin, rfl, h, rfl, Option.some.inj hi, hfile.1, hfile.2⟩
    · cases hi

lemma redirectOutput_wired {outFile : ν} (h : Wired p source stdout)
    (hout : a.outFile = some outFile) (ho : p.creatable sys outFile = some o) :
    ∃ p', redirectOutput sys a p = some p' ∧ Wired p' source ⟨o, 0, true, false, true, false⟩ ∧
      p'.disk = { Disk.setContent p.disk o [] with
        inode := Function.update p.disk.inode outFile (some o) } := by
  unfold redirectOutput
  rw [hout]
  refine ⟨_, ?_, (h.setDisk _).redirectSink _, rfl⟩
  simp only [Process.creat, ho, Option.map_some]

omit [DecidableEq ν] in
/-- A file that has just been created gets what a single call reads of the source. Nothing is left
to be read if it is the source. -/
lemma copy_created (sys : System ν) (heap : ℕ → UInt8) {old : ℕ → List UInt8}
    (h : Wired p source ⟨o, 0, true, false, true, false⟩) (hseek : source.seekable)
    (hread : source.readable) (hcontent : ∀ j, p.disk.content j = if j = o then [] else old j) :
    (copy sys heap p).disk.inode = p.disk.inode ∧
      (∀ j, j ≠ o → (copy sys heap p).disk.content j = old j) ∧
      ((copy sys heap p).disk.content o = old source.inode ↔
        (source.inode = o → old source.inode = []) ∧
          (old source.inode).length ≤ sys.maxCount) := by
  have hcopy : (copy sys heap p).disk = p.disk.setContent o
      ((p.disk.content source.inode).take sys.maxCount) := by
    rw [copy_disk sys heap h hseek hread rfl, hcontent o, if_pos rfl]
    exact congrArg _ (overwriteAt_nil _)
  rw [hcopy]
  refine ⟨rfl, fun j hj => ?_, ?_⟩
  · refine (Function.update_of_ne hj _ _).trans ?_
    rw [hcontent, if_neg hj]
  · refine Eq.congr_left (Function.update_self o _ _) |>.trans ?_
    rw [hcontent]
    split_ifs with heq
    · rw [List.take_nil, eq_comm]
      exact ⟨fun hnil => ⟨fun _ => hnil, by simp [hnil]⟩, fun hboth => hboth.1 heq⟩
    · rw [List.take_eq_self_iff]
      exact ⟨fun hle => ⟨fun h => absurd h heq, hle⟩, And.right⟩

/-- The file 0 may be read, and nothing stands in the way of others. Calls that read or write
more than the limit of Linux are cut off there. -/
def sampleSystem : System ℕ := ⟨fun _ => true, fun _ => true, fun _ => true, 7, 0x7ffff000⟩

/-- A process on a terminal, with one file that has a name. -/
def sampleProcess : Process ℕ where
  disk := ⟨fun name => if name = 0 then some 5 else none, fun i => if i = 5 then [104, 105] else []⟩
  files := [⟨1, 0, false, true, false, false⟩, ⟨2, 0, false, false, true, true⟩]
  fds := [some 0, some 1, some 1]

end LowLevelTasks.Lab0
