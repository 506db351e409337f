import LowLevelTasks.RubyText
import LowLevelTasks.ScanImage

/-!
The writer of the report. Each record is written as one line; the numbers are written as
`int`, so that unsigned fields from `2 ^ 31` on come out negative. The lines of an inode, of
its directory entries and of its indirect records follow each other.
-/

namespace LowLevelTasks.CsvWriter

open LowLevelTasks.Buffers LowLevelTasks.ImgReader LowLevelTasks.Loops LowLevelTasks.RubyText
  LowLevelTasks.ScanImage

/-- The text of an unsigned field written with `%d`. -/
def unsignedText (x : UInt32) : Text := intText (toInt x)

/-- A line that is written as the format says, commas between the fields. -/
def line (fields : List Text) : List UInt8 := encode (csv fields ++ ['\n'])

/-- `1024 << x`. -/
def shiftLeft (x : ℤ) (k : UInt32) : Except Stop ℤ :=
  if k.toNat < 32 then int (x * 2 ^ k.toNat) else .error .undefined

def printSuperblock (img : Image) : Except Stop (List UInt8) := do
  let size ← shiftLeft 1024 img.sblock.sLogBlockSize
  .ok (line ["SUPERBLOCK".toList, unsignedText img.sblock.sBlocksCount,
    unsignedText img.sblock.sInodesCount, intText size, decimal img.sblock.sInodeSize.toNat,
    unsignedText img.sblock.sBlocksPerGroup, unsignedText img.sblock.sInodesPerGroup,
    unsignedText img.sblock.sFirstIno])

/-- The blocks and inodes that are left for the groups to come, and what is written. -/
structure GroupState where
  nBlocks : ℤ
  nInodes : ℤ
  out : List UInt8

def printGroupLine (s : SuperBlock) (st : GroupState) (g : GroupDesc × ℕ) :
    Except Stop GroupState := do
  let blocksPer := toInt s.sBlocksPerGroup
  let inodesPer := toInt s.sInodesPerGroup
  let currentBlocks := if blocksPer ≤ st.nBlocks then blocksPer else st.nBlocks
  let currentInodes := if inodesPer ≤ st.nInodes then inodesPer else st.nInodes
  let nBlocks ← int (st.nBlocks - blocksPer)
  let nInodes ← int (st.nInodes - inodesPer)
  .ok ⟨nBlocks, nInodes, st.out ++ line ["GROUP".toList, decimal g.2, intText currentBlocks,
    intText currentInodes, decimal g.1.bgFreeBlocksCount.toNat,
    decimal g.1.bgFreeInodesCount.toNat, unsignedText g.1.bgBlockBitmap,
    unsignedText g.1.bgInodeBitmap, unsignedText g.1.bgInodeTable]⟩

def printGroup (img : Image) : Except Stop (List UInt8) := do
  let st ← img.group.zipIdx.foldlM (printGroupLine img.sblock)
    ⟨toInt img.sblock.sBlocksCount, toInt img.sblock.sInodesCount, []⟩
  .ok st.out

def printBfree (img : Image) : List UInt8 :=
  img.bfree.flatMap fun n => line ["BFREE".toList, intText n]

def printIfree (img : Image) : List UInt8 :=
  img.ifree.flatMap fun n => line ["IFREE".toList, intText n]

def formatSymbol (mode : UInt16) : Char :=
  let format := mode &&& 0xF000
  if format = 0x4000 then 'd'
  else if format = 0x8000 then 'f'
  else if format = 0xA000 then 's'
  else '?'

/-- What stands in memory behind the bytes that were copied to the name of an entry, and behind
the buffer that the name is written from. -/
structure Memory where
  heap : List UInt8
  stack : List UInt8

/-- The pointers that are written for an inode: a symbolic link has its first one only. -/
def printedPointers (x : Inode) : List UInt32 :=
  if formatSymbol x.iMode = 's' then x.iBlock.toList.take 1 else x.iBlock.toList

section

-- the time as `strftime` writes it, and the memory where an entry is written
variable (strftime : UInt32 → Text) (memory : ℕ → Memory)

def printInode (img : Image) (inode : ℤ) : List UInt8 :=
  img.inodes.flatMap fun x =>
    if x.inodeNum = inode then
      line (["INODE".toList, intText x.inodeNum, [formatSymbol x.inode.iMode],
        Nat.toDigits 8 (x.inode.iMode.toNat % 4096), decimal x.inode.iUid.toNat,
        decimal x.inode.iGid.toNat, decimal x.inode.iLinksCount.toNat,
        strftime x.inode.iCtime, strftime x.inode.iMtime, strftime x.inode.iAtime,
        unsignedText x.inode.iSize, unsignedText x.inode.iBlocks] ++
          (printedPointers x.inode).map unsignedText)
    else []

/-- The name as the string that is written. A name of 255 bytes leaves no zero in the buffer. -/
def file (entry : DirEntry) (memory : Memory) : List UInt8 :=
  (padded 255 (strncpy entry.nameLen.toNat (entry.name ++ memory.heap)) ++
    memory.stack).takeWhile (· ≠ 0)

/-- An entry of the directory `inode`; the state is the offset and what is written. -/
def printDirentLine (inode : ℤ) (st : ℤ × List UInt8) (d : Dirent × ℕ) :
    Except Stop (ℤ × List UInt8) :=
  if d.1.direntParent = inode then do
    let offset ← int (st.1 + d.1.entry.recLen.toNat)
    .ok (offset, st.2 ++ encode (csv ["DIRENT".toList, intText d.1.direntParent, intText st.1,
      unsignedText d.1.entry.inode, decimal d.1.entry.recLen.toNat,
      decimal d.1.entry.nameLen.toNat] ++ ",'".toList) ++ file d.1.entry (memory d.2) ++
        encode "'\n".toList)
  else .ok st

def printDirent (img : Image) (inode : ℤ) : Except Stop (List UInt8) := do
  let st ← img.dirents.zipIdx.foldlM (printDirentLine memory inode) (0, [])
  .ok st.2

def printIndirect (img : Image) (inode : ℤ) : List UInt8 :=
  img.indirects.flatMap fun r =>
    if r.inode = .ofInt inode then
      line ["INDIRECT".toList, unsignedText r.inode, decimal r.indirectLevel.toNat,
        unsignedText r.blockOffset, unsignedText r.indirectBlock,
        unsignedText r.referencedBlock]
    else []

def printCsv (img : Image) : Except Stop (List UInt8) := do
  let superblock ← printSuperblock img
  let group ← printGroup img
  let records ← collect (fun i : ℕ => do
    let dirent ← printDirent memory img i
    .ok (printInode strftime img i ++ dirent ++ printIndirect img i))
    (List.range' 1 img.sblock.sInodesCount.toNat)
  .ok (superblock ++ group ++ printBfree img ++ printIfree img ++ records)

end

lemma toNat_ofInt {n : ℤ} (h : 0 ≤ n) (hn : n < 2 ^ 31) : (UInt32.ofInt n).toNat = n.toNat := by
  unfold UInt32.ofInt
  rw [Int.emod_eq_of_lt h (by omega), UInt32.toNat_ofNat_of_lt' (by unfold UInt32.size; omega)]

lemma flatMap_filter {α β : Type} (p : α → Prop) [DecidablePred p] (g : α → List β)
    (l : List α) : (l.filter (p ·)).flatMap g = l.flatMap fun a => if p a then g a else [] := by
  induction l with
  | nil => rfl
  | cons a l ih =>
    by_cases ha : p a
    · rw [List.filter_cons_of_pos (by simpa), List.flatMap_cons, List.flatMap_cons, ih, if_pos ha]
    · rw [List.filter_cons_of_neg (by simpa), List.flatMap_cons, ih, if_neg ha, List.nil_append]

end LowLevelTasks.CsvWriter
