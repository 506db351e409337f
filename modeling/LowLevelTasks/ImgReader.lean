import LowLevelTasks.Buffers
import LowLevelTasks.Loops
import Mathlib.Algebra.Order.Ring.Int

/-!
Reading an image of a file system: the file, the C integers its addresses are computed with,
and the records found in it. A record at an address is decoded from the bytes there; behind
the end of the file the cleared buffers of the reader hold zeros.
-/

namespace LowLevelTasks.ImgReader

open LowLevelTasks.Buffers

/-! ### Runs -/

/-- Why a scan gives no result: the program ended with a status, an arithmetic operation had
no defined result, or the scan has not come to its end yet. -/
inductive Stop where
  | exit (status : ℕ) | undefined | running
deriving DecidableEq

/-- The values of an `int`. -/
def IsInt (x : ℤ) : Prop := -2 ^ 31 ≤ x ∧ x < 2 ^ 31

instance (x : ℤ) : Decidable (IsInt x) := inferInstanceAs (Decidable (_ ∧ _))

/-- The result of an operation on `int`. -/
def int (x : ℤ) : Except Stop ℤ := if IsInt x then .ok x else .error .undefined

/-- An unsigned field assigned to an `int`. -/
def toInt (x : UInt32) : ℤ := if x.toNat < 2 ^ 31 then x.toNat else x.toNat - 2 ^ 32

lemma int_ok {x : ℤ} (h : IsInt x) : int x = .ok x := if_pos h

lemma int_eq_ok_iff {x y : ℤ} : int x = .ok y ↔ IsInt x ∧ y = x := by
  unfold int
  split <;> simp_all [eq_comm]

lemma toInt_of_lt {x : UInt32} (h : x.toNat < 2 ^ 31) : toInt x = x.toNat := if_pos h

lemma toInt_neg {x : UInt32} (h : 2 ^ 31 ≤ x.toNat) : toInt x < 0 := by
  have := x.toNat_lt
  unfold toInt
  split <;> omega

lemma toInt_pos_iff {x : UInt32} : 0 < toInt x ↔ 0 < x.toNat ∧ x.toNat < 2 ^ 31 := by
  have := x.toNat_lt
  unfold toInt
  split <;> omega

/-! ### The file -/

structure ImageFile where
  size : ℕ
  byte : ℕ → UInt8
  beyond : ∀ a, size ≤ a → byte a = 0

namespace ImageFile

/-- A file given by the bytes that are not zero. -/
def ofCells (size : ℕ) (cells : List (ℕ × UInt8)) : ImageFile where
  size := size
  byte a :=
    if a < size then cells.foldr (fun c rest => if c.1 = a then c.2 else rest) 0 else 0
  beyond _ h := if_neg (by omega)

lemma byte_ofCells_eq_zero {size a : ℕ} {cells : List (ℕ × UInt8)} (h : ∀ c ∈ cells, c.1 ≠ a) :
    (ofCells size cells).byte a = 0 := by
  have hnone : cells.foldr (fun c rest => if c.1 = a then c.2 else rest) 0 = 0 := by
    induction cells with
    | nil => rfl
    | cons c cells ih =>
      rw [List.forall_mem_cons] at h
      rw [List.foldr_cons, if_neg h.1, ih h.2]
  unfold ofCells
  dsimp only
  rw [hnone, ite_self]

variable (f : ImageFile)

def u16 (a : ℕ) : UInt16 := .ofNat ((f.byte a).toNat + 256 * (f.byte (a + 1)).toNat)

def u32 (a : ℕ) : UInt32 :=
  .ofNat ((f.byte a).toNat + 256 * (f.byte (a + 1)).toNat + 65536 * (f.byte (a + 2)).toNat +
    16777216 * (f.byte (a + 3)).toNat)

end ImageFile

/-! ### The records -/

structure SuperBlock where
  sInodesCount : UInt32
  sBlocksCount : UInt32
  sLogBlockSize : UInt32
  sBlocksPerGroup : UInt32
  sInodesPerGroup : UInt32
  sMagic : UInt16
  sFirstIno : UInt32
  sInodeSize : UInt16
deriving DecidableEq

structure GroupDesc where
  bgBlockBitmap : UInt32
  bgInodeBitmap : UInt32
  bgInodeTable : UInt32
  bgFreeBlocksCount : UInt16
  bgFreeInodesCount : UInt16
deriving DecidableEq, Inhabited

structure Inode where
  iMode : UInt16
  iUid : UInt16
  iSize : UInt32
  iAtime : UInt32
  iCtime : UInt32
  iMtime : UInt32
  iGid : UInt16
  iLinksCount : UInt16
  iBlocks : UInt32
  iBlock : Vector UInt32 15
deriving DecidableEq

/-- The bytes of the name are those the reader has copied. -/
structure DirEntry where
  inode : UInt32
  recLen : UInt16
  nameLen : UInt8
  name : List UInt8
deriving DecidableEq

structure Indirect where
  inode : UInt32
  indirectLevel : UInt16
  blockOffset : UInt32
  indirectBlock : UInt32
  referencedBlock : UInt32
deriving DecidableEq

namespace ImageFile

variable (f : ImageFile)

def superBlock (a : ℕ) : SuperBlock where
  sInodesCount := f.u32 a
  sBlocksCount := f.u32 (a + 4)
  sLogBlockSize := f.u32 (a + 24)
  sBlocksPerGroup := f.u32 (a + 32)
  sInodesPerGroup := f.u32 (a + 40)
  sMagic := f.u16 (a + 56)
  sFirstIno := f.u32 (a + 84)
  sInodeSize := f.u16 (a + 88)

def groupDesc (a : ℕ) : GroupDesc where
  bgBlockBitmap := f.u32 a
  bgInodeBitmap := f.u32 (a + 4)
  bgInodeTable := f.u32 (a + 8)
  bgFreeBlocksCount := f.u16 (a + 12)
  bgFreeInodesCount := f.u16 (a + 14)

def inode (a : ℕ) : Inode where
  iMode := f.u16 a
  iUid := f.u16 (a + 2)
  iSize := f.u32 (a + 4)
  iAtime := f.u32 (a + 8)
  iCtime := f.u32 (a + 12)
  iMtime := f.u32 (a + 16)
  iGid := f.u16 (a + 24)
  iLinksCount := f.u16 (a + 26)
  iBlocks := f.u32 (a + 28)
  iBlock := .ofFn fun k => f.u32 (a + 40 + 4 * k)

/-- An entry before its name is read. -/
def dirEntry (a : ℕ) : DirEntry where
  inode := f.u32 a
  recLen := f.u16 (a + 4)
  nameLen := f.byte (a + 6)
  name := []

/-- The bytes of a string, as many as the file has of them. -/
def bytes (n a : ℕ) : List UInt8 :=
  let buf := (List.range (min n (f.size - a))).map fun k => f.byte (a + k)
  strncpy buf.length buf

end ImageFile

/-! ### Reading -/

def blockSize : ℤ := 1024

def groupDescSize : ℤ := 32

def inodeSize : ℤ := 128

def direntSize : ℤ := 8

/-- `img_read` for one of its types. Reading before the start of the file is the one error
of `pread`. -/
def imgRead {α : Type} (read : ℕ → α) (blockOffset offset : ℤ) : Except Stop α := do
  let a ← int (blockOffset + offset)
  if a < 0 then .error (.exit 2) else .ok (read a.toNat)

/-- The address of a block, as the code computes it. -/
def setBlock (block : ℤ) : Except Stop ℤ := int (block * blockSize)

/-- Where a block lies in the file. -/
def blockAddress (b : UInt32) : ℕ := b.toNat * 1024

lemma blockAddress_add_lt {b : UInt32} {i : ℕ} (h : blockAddress b < 2 ^ 31) (hi : i < 1024) :
    blockAddress b + i < 2 ^ 31 := by
  unfold blockAddress at *
  rw [Nat.mul_comm] at *
  omega

section

variable {α : Type} {read : ℕ → α} {o k : ℤ} {b : UInt32}

lemma imgRead_eq_ok_iff {v : α} :
    imgRead read o k = .ok v ↔ IsInt (o + k) ∧ 0 ≤ o + k ∧ read (o + k).toNat = v := by
  unfold imgRead int
  by_cases h : IsInt (o + k)
  · by_cases h0 : o + k < 0
    · simp [h, h0, bind, Except.bind, not_le.mpr h0]
    · simp [h, h0, bind, Except.bind, not_lt.mp h0]
  · simp [h, bind, Except.bind]

lemma imgRead_ok {a : ℕ} (h : o + k = a) (ha : a < 2 ^ 31) : imgRead read o k = .ok (read a) :=
  imgRead_eq_ok_iff.mpr ⟨by unfold IsInt; omega, by omega, by rw [h, Int.toNat_natCast]⟩

lemma setBlock_ok (h : blockAddress b < 2 ^ 31) :
    setBlock (toInt b) = .ok (blockAddress b : ℤ) := by
  unfold blockAddress at h
  unfold setBlock blockSize blockAddress
  rw [toInt_of_lt (by omega), int_ok (by unfold IsInt; omega), Nat.cast_mul]
  rfl

/-- How reading a block ends whose address is no `int`, or negative. -/
def blockError (b : UInt32) : Stop :=
  if IsInt (toInt b * blockSize) then .exit 2 else .undefined

lemma setBlock_error {β : Type} {g : ℤ → α → Except Stop β} (h : 2 ^ 31 ≤ blockAddress b) :
    (setBlock (toInt b) >>= fun o => imgRead read o 0 >>= g o) = .error (blockError b) := by
  unfold blockAddress at h
  unfold setBlock blockError int
  have hb := b.toNat_lt
  by_cases hint : IsInt (toInt b * blockSize)
  · have hneg : toInt b * blockSize < 0 := by
      by_contra hnot
      unfold toInt IsInt blockSize at *
      split at hint <;> omega
    have hread : imgRead read (toInt b * blockSize) 0 = .error (.exit 2) := by
      unfold imgRead
      rw [add_zero, int_ok hint]
      exact if_pos hneg
    rw [if_pos hint, if_pos hint]
    simp only [bind, Except.bind, hread]
  · rw [if_neg hint, if_neg hint]
    rfl

end

/-- A scanned inode with its number. -/
structure NumberedInode where
  inodeNum : ℤ
  inode : Inode
deriving DecidableEq

/-- A directory entry with the number of its directory. -/
structure Dirent where
  direntParent : ℤ
  entry : DirEntry
deriving DecidableEq

def readSuperblock (f : ImageFile) : Except Stop SuperBlock := do
  let blockOffset := blockSize
  imgRead f.superBlock blockOffset 0

/-- Division by zero has no result. The number of groups is kept in an `int`. -/
def numGroups (s : SuperBlock) : Except Stop ℤ :=
  if s.sBlocksPerGroup = 0 then .error .undefined
  else .ok (toInt (1 + (s.sBlocksCount - 1) / s.sBlocksPerGroup))

def readGroup (f : ImageFile) (s : SuperBlock) : Except Stop (List GroupDesc) := do
  let numGroups ← numGroups s
  Loops.collect (fun i : ℕ => do
    let blockOffset ← int (2 * blockSize + i * groupDescSize)
    let g ← imgRead f.groupDesc blockOffset 0
    .ok [g]) (List.range numGroups.toNat)

def groupAt (group : List GroupDesc) (i : ℕ) : GroupDesc := group.getD i default

end LowLevelTasks.ImgReader
