import Mathlib.Data.List.Basic
import Mathlib.Data.List.GetD
import Mathlib.Order.Lattice
import Mathlib.Tactic.Common

/-!
The descriptors of a process and the files behind them.

A descriptor stands for an open file, which has an offset of its own; descriptors made by `dup`
share their open file. `open` and `dup` take the lowest descriptor that is free.
-/

namespace LowLevelTasks.FileDescriptors

/-! ### Descriptors -/

/-- The open file of each descriptor that is in use. -/
abbrev Table := List (Option ℕ)

def lookup (t : Table) (fd : ℕ) : Option ℕ := t.getD fd none

def lowest (t : Table) : ℕ := t.findIdx Option.isNone

/-- The lowest descriptor that is free stands for a file. -/
def place (t : Table) (file : ℕ) : Table := (t ++ [none]).set (lowest t) (some file)

def close (t : Table) (fd : ℕ) : Table := t.set fd none

/-- A descriptor that is not in use cannot be duplicated. -/
def dup (t : Table) (fd : ℕ) : Table :=
  match lookup t fd with
  | some file => place t file
  | none => t

variable {t : Table} {fd i k : ℕ}

lemma lookup_eq_none_of_le (h : t.length ≤ i) : lookup t i = none := List.getD_eq_default _ _ h

lemma lookup_set (t : Table) (fd i : ℕ) (d : Option ℕ) (h : fd < t.length) :
    lookup (t.set fd d) i = if i = fd then d else lookup t i := by
  unfold lookup
  rw [List.getD_eq_getElem?_getD, List.getD_eq_getElem?_getD, List.getElem?_set]
  split_ifs with heq hne hne
  · rfl
  · exact absurd heq.symm hne
  · exact absurd ‹i = fd›.symm heq
  · rfl

@[simp] lemma lookup_close (t : Table) (fd i : ℕ) :
    lookup (close t fd) i = if i = fd then none else lookup t i := by
  rcases Nat.lt_or_ge fd t.length with h | h
  · exact lookup_set t fd i none h
  · rw [close, List.set_eq_of_length_le h]
    split_ifs with heq
    · exact heq ▸ lookup_eq_none_of_le h
    · rfl

lemma lowest_le_length (t : Table) : lowest t ≤ t.length := List.findIdx_le_length

lemma lookup_lowest (t : Table) : lookup t (lowest t) = none := by
  rcases (lowest_le_length t).lt_or_eq with h | h
  · have hnone := List.findIdx_getElem (w := h)
    unfold lookup
    rw [List.getD_eq_getElem _ _ h]
    exact Option.isNone_iff_eq_none.mp hnone
  · exact lookup_eq_none_of_le h.ge

lemma lookup_of_lt_lowest (h : i < lowest t) : lookup t i ≠ none := by
  have hsome := List.not_of_lt_findIdx h
  unfold lookup
  rw [List.getD_eq_getElem _ _ (h.trans_le (lowest_le_length t))]
  rw [Option.isNone_eq_false_iff] at hsome
  exact Option.isSome_iff_ne_none.mp hsome

lemma lowest_le (h : lookup t fd = none) : lowest t ≤ fd := by
  by_contra hlt
  exact lookup_of_lt_lowest (Nat.not_le.mp hlt) h

@[simp] lemma lookup_place (t : Table) (file i : ℕ) :
    lookup (place t file) i = if i = lowest t then some file else lookup t i := by
  have hlt : lowest t < (t ++ [none]).length := by
    rw [List.length_append, List.length_singleton]
    exact Nat.lt_succ_of_le (lowest_le_length t)
  have hnone : lookup (t ++ [none]) i = lookup t i := by
    unfold lookup
    rcases Nat.lt_or_ge i t.length with h | h
    · exact List.getD_append _ _ _ _ h
    · rw [List.getD_append_right _ _ _ _ h, List.getD_eq_default t _ h]
      cases i - t.length <;> rfl
  rw [place, lookup_set _ _ _ _ hlt, hnone]

/-- The descriptor 0 or 1 is closed and another one moved to it. -/
def redirect (t : Table) (fd other : ℕ) : Table := close (dup (close t fd) other) other

/-- A file that has been opened while `fd` was in use is what `fd` stands for afterwards, and
nothing else has changed. -/
theorem lookup_redirect (hfd : fd = 0 ∨ fd = 1) (h : lookup t fd ≠ none) (file i : ℕ) :
    lookup (redirect (place t file) fd (lowest t)) i =
      if i = fd then some file else lookup t i := by
  have hother : lowest t ≠ fd := fun heq => h (heq ▸ lookup_lowest t)
  have hfile : lookup (close (place t file) fd) (lowest t) = some file := by
    rw [lookup_close, if_neg hother, lookup_place, if_pos rfl]
  have hlowest : lowest (close (place t file) fd) = fd := by
    refine le_antisymm (lowest_le (by rw [lookup_close, if_pos rfl])) ?_
    rcases hfd with rfl | rfl
    · exact Nat.zero_le _
    · -- the descriptor 0 is in use, perhaps as the one that is moved
      refine Nat.one_le_iff_ne_zero.mpr fun hzero => ?_
      have hfree := lookup_lowest (close (place t file) 1)
      rw [hzero, lookup_close, if_neg (by decide), lookup_place] at hfree
      split_ifs at hfree with hfirst
      have := lowest_le hfree
      omega
  unfold redirect dup
  rw [hfile, lookup_close, lookup_place, hlowest, lookup_close, lookup_place]
  split_ifs with h1 h2 h3 <;> simp_all [lookup_lowest]

/-! ### Files -/

/-- An open file. A pipe or a terminal cannot be searched, and is always appended to. -/
structure OpenFile where
  inode : ℕ
  offset : ℕ
  seekable : Bool
  readable : Bool
  writable : Bool
  appends : Bool

/-- The files, by their numbers, and their names. -/
structure Disk (ν : Type) where
  inode : ν → Option ℕ
  content : ℕ → List UInt8

structure Process (ν : Type) where
  disk : Disk ν
  files : List OpenFile
  fds : Table

/-- What the process may do, the number of the next new file, and how many bytes a single call
reads or writes at most. -/
structure System (ν : Type) where
  mayRead : ℕ → Bool
  mayWrite : ℕ → Bool
  mayCreate : ν → Bool
  fresh : ℕ
  maxCount : ℕ

/-- What a write of some bytes leaves. Behind the end of the file it is preceded by zeros, and
nothing happens if there are no bytes. -/
def overwriteAt (offset : ℕ) (data content : List UInt8) : List UInt8 :=
  if data = [] then content
  else content.take offset ++ List.replicate (offset - content.length) 0 ++ data ++
    content.drop (offset + data.length)

variable {ν : Type} (sys : System ν)

def Disk.setContent (disk : Disk ν) (i : ℕ) (content : List UInt8) : Disk ν :=
  { disk with content := Function.update disk.content i content }

namespace Process

variable (p : Process ν)

def openFile (fd : ℕ) : Option OpenFile := (lookup p.fds fd).bind (p.files[·]?)

/-- A file is opened, and gets a descriptor. -/
def opened (f : OpenFile) : ℕ × Process ν :=
  (lowest p.fds, { p with files := p.files ++ [f], fds := place p.fds p.files.length })

/-- `open(name, O_RDONLY)` -/
def openRead (name : ν) : Option (ℕ × Process ν) :=
  match p.disk.inode name with
  | some i => if sys.mayRead i then some (p.opened ⟨i, 0, true, true, false, false⟩) else none
  | none => none

/-- The file that `creat` empties or makes. -/
def creatable (name : ν) : Option ℕ :=
  match p.disk.inode name with
  | some i => if sys.mayWrite i then some i else none
  | none => if sys.mayCreate name then some sys.fresh else none

def creat [DecidableEq ν] (name : ν) : Option (ℕ × Process ν) :=
  (p.creatable sys name).map fun i =>
    opened { p with disk := { Disk.setContent p.disk i [] with
      inode := Function.update p.disk.inode name (some i) } } ⟨i, 0, true, false, true, false⟩

def setOffset (fd offset : ℕ) : Process ν :=
  match lookup p.fds fd with
  | some k => { p with files := p.files.modify k fun f => { f with offset } }
  | none => p

/-- `lseek(fd, 0, SEEK_END)`: the new offset. -/
def lseekEnd (fd : ℕ) : Option (ℕ × Process ν) :=
  match p.openFile fd with
  | some f =>
    if f.seekable then
      some ((p.disk.content f.inode).length, p.setOffset fd (p.disk.content f.inode).length)
    else none
  | none => none

/-- `lseek(fd, 0, SEEK_SET)` -/
def lseekStart (fd : ℕ) : Process ν :=
  match p.openFile fd with
  | some f => if f.seekable then p.setOffset fd 0 else p
  | none => p

def read (fd count : ℕ) : Option (List UInt8 × Process ν) :=
  match p.openFile fd with
  | some f =>
    if f.readable then
      let bytes := ((p.disk.content f.inode).drop f.offset).take (min count sys.maxCount)
      some (bytes, p.setOffset fd (f.offset + bytes.length))
    else none
  | none => none

def write (fd : ℕ) (bytes : List UInt8) : Option (Process ν) :=
  match p.openFile fd with
  | some f =>
    if f.writable then
      let data := bytes.take sys.maxCount
      let content := p.disk.content f.inode
      let offset := if f.appends then content.length else f.offset
      some (setOffset { p with disk := p.disk.setContent f.inode (overwriteAt offset data content) }
        fd (offset + data.length))
    else none
  | none => none

/-- The descriptor `fd` is closed, and the one of a file just opened is moved to it. -/
def redirected (opened : ℕ × Process ν) (fd : ℕ) : Process ν :=
  { opened.2 with fds := redirect opened.2.fds fd opened.1 }

variable {p} {fd' offset : ℕ}

@[simp] lemma setOffset_fds : (p.setOffset fd offset).fds = p.fds := by
  unfold setOffset
  split <;> rfl

@[simp] lemma setOffset_disk : (p.setOffset fd offset).disk = p.disk := by
  unfold setOffset
  split <;> rfl

lemma openFile_setOffset_self :
    (p.setOffset fd offset).openFile fd = (p.openFile fd).map fun f => { f with offset } := by
  unfold openFile
  rw [setOffset_fds]
  unfold setOffset
  cases hk : lookup p.fds fd with
  | none => rfl
  | some k => simp

/-- Other open files keep their offset. -/
lemma openFile_setOffset_of_ne (h : lookup p.fds fd ≠ lookup p.fds fd') :
    (p.setOffset fd offset).openFile fd' = p.openFile fd' := by
  unfold openFile
  rw [setOffset_fds]
  unfold setOffset
  cases hk : lookup p.fds fd with
  | none => rfl
  | some k =>
    cases hk' : lookup p.fds fd' with
    | none => rfl
    | some k' =>
      have hne : k ≠ k' := fun heq => h (by rw [hk, hk', heq])
      simp [hne]

end Process

/-- Two descriptors and the files they stand for, which are opened separately. -/
structure Wired (p : Process ν) (source sink : OpenFile) : Prop where
  source : p.openFile 0 = some source
  sink : p.openFile 1 = some sink
  apart : lookup p.fds 0 ≠ lookup p.fds 1

variable {sys} {p : Process ν} {f source sink : OpenFile}

lemma Wired.setOffset (h : Wired p source sink) (offset : ℕ) :
    Wired (p.setOffset 0 offset) { source with offset } sink where
  source := by rw [Process.openFile_setOffset_self, h.source, Option.map_some]
  sink := by rw [Process.openFile_setOffset_of_ne h.apart, h.sink]
  apart := by
    rw [Process.setOffset_fds]
    exact h.apart

lemma Wired.setDisk (h : Wired p source sink) (disk : Disk ν) :
    Wired { p with disk } source sink := ⟨h.source, h.sink, h.apart⟩

lemma lookup_ne_of_openFile (h : p.openFile i = some f) : lookup p.fds i ≠ none := fun hnone => by
  rw [Process.openFile, hnone] at h
  cases h

lemma lookup_lt_of_openFile (h : p.openFile i = some f) (hk : lookup p.fds i = some k) :
    k < p.files.length := by
  rw [Process.openFile, hk] at h
  exact (List.getElem?_eq_some_iff.mp h).choose

lemma openFile_redirected (hfd : fd = 0 ∨ fd = 1) (h : lookup p.fds fd ≠ none) (f : OpenFile) :
    (Process.redirected (p.opened f) fd).openFile fd = some f := by
  unfold Process.redirected Process.openFile Process.opened
  dsimp only
  rw [lookup_redirect hfd h, if_pos rfl]
  simp

/-- The other descriptor stands for what it stood for before. -/
lemma openFile_redirected_of_ne {g : OpenFile} (hfd : fd = 0 ∨ fd = 1)
    (h : lookup p.fds fd ≠ none) (f : OpenFile) (hne : i ≠ fd) (hg : p.openFile i = some g) :
    (Process.redirected (p.opened f) fd).openFile i = some g ∧
      lookup (Process.redirected (p.opened f) fd).fds i ≠
        lookup (Process.redirected (p.opened f) fd).fds fd := by
  obtain ⟨k, hk⟩ := Option.ne_none_iff_exists'.mp (lookup_ne_of_openFile hg)
  have hlt := lookup_lt_of_openFile hg hk
  unfold Process.redirected Process.opened
  constructor
  · unfold Process.openFile at hg ⊢
    dsimp only
    rw [lookup_redirect hfd h, if_neg hne, hk, Option.bind_some, List.getElem?_append_left hlt]
    rwa [hk, Option.bind_some] at hg
  · dsimp only
    rw [lookup_redirect hfd h, lookup_redirect hfd h, if_pos rfl, if_neg hne, hk]
    exact fun heq => absurd (Option.some.inj heq) hlt.ne

lemma Wired.redirectSource (h : Wired p source sink) (f : OpenFile) :
    Wired (Process.redirected (p.opened f) 0) f sink := by
  have hopen := lookup_ne_of_openFile h.source
  have hother := openFile_redirected_of_ne (.inl rfl) hopen f Nat.one_ne_zero h.sink
  exact ⟨openFile_redirected (.inl rfl) hopen f, hother.1, hother.2.symm⟩

lemma Wired.redirectSink (h : Wired p source sink) (f : OpenFile) :
    Wired (Process.redirected (p.opened f) 1) source f := by
  have hopen := lookup_ne_of_openFile h.sink
  have hother := openFile_redirected_of_ne (.inr rfl) hopen f Nat.zero_ne_one h.source
  exact ⟨hother.1, openFile_redirected (.inr rfl) hopen f, hother.2⟩

end LowLevelTasks.FileDescriptors
