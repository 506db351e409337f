import LowLevelTasks.ImgReader
import Mathlib.Logic.Relation

/-!
The scan of directory blocks. The records of a block are chained by their lengths, and the
loop over a block goes on while the record at hand names an inode. So it stops at the first
record without one, and it stays for ever at a record without a length.
-/

namespace LowLevelTasks.DirectoryBlocks

open LowLevelTasks.ImgReader LowLevelTasks.Loops

/-- The state of the loop over one block, with the entries appended so far. -/
structure BlockScan where
  offset : ℤ
  blockOffset : ℤ
  feeler : UInt32
  dirents : List Dirent
deriving DecidableEq

variable (f : ImageFile)

/-- One round of the loop. The feeler is read before the offset of the block is moved. -/
def entryRound (parent readBlock : ℤ) (st : BlockScan) : Except Stop (ForInStep BlockScan) :=
  if st.feeler ≠ 0 ∧ st.offset < blockSize then do
    let entry ← imgRead f.dirEntry st.blockOffset 0
    let name ← imgRead (f.bytes entry.nameLen.toNat) st.blockOffset direntSize
    let offset ← int (st.offset + entry.recLen.toNat)
    let feeler ← imgRead f.u32 st.blockOffset entry.recLen.toNat
    let base ← setBlock readBlock
    let blockOffset ← int (base + offset)
    .ok (.yield ⟨offset, blockOffset, feeler, st.dirents ++ [⟨parent, { entry with name }⟩]⟩)
  else .ok (.done st)

def blockStart (readBlock : ℤ) : Except Stop BlockScan := do
  let blockOffset ← setBlock readBlock
  let feeler ← imgRead f.u32 blockOffset 0
  .ok ⟨0, blockOffset, feeler, []⟩

def readDirBlock (fuel : ℕ) (parent readBlock : ℤ) : Except Stop (List Dirent) := do
  let st ← blockStart f readBlock
  let st ← whileLoop (entryRound f parent readBlock) .running fuel st
  .ok st.dirents

/-- One of the direct blocks of a directory; zero stands for no block. -/
def directBlock (fuel : ℕ) (parent : ℤ) (block : UInt32) : Except Stop (List Dirent) :=
  if 0 < toInt block then readDirBlock f fuel parent (toInt block) else .ok []

def readDirent (fuel : ℕ) (inodes : List NumberedInode) : Except Stop (List Dirent) :=
  collect (fun x =>
    if x.inode.iMode &&& 0xF000 = 0x4000 then
      collect (directBlock f fuel x.inodeNum) (x.inode.iBlock.toList.take 12)
    else .ok []) inodes

/-! ### The records of a block -/

variable (block : UInt32) {o : ℕ}

/-- The record at an offset of a block. -/
def recordAt (o : ℕ) : DirEntry := f.dirEntry (blockAddress block + o)

def recLen (o : ℕ) : ℕ := (recordAt f block o).recLen.toNat

/-- The bytes of its name, whatever they are. -/
def nameAt (o : ℕ) : List UInt8 :=
  (List.range (recordAt f block o).nameLen.toNat).map fun k =>
    f.byte (blockAddress block + o + 8 + k)

/-- The entry as it stands in the block. -/
def entryAt (parent : ℤ) (o : ℕ) : Dirent :=
  ⟨parent, { recordAt f block o with name := nameAt f block o }⟩

/-- The entry as the scan takes it over. -/
def scannedAt (parent : ℤ) (o : ℕ) : Dirent :=
  ⟨parent, { recordAt f block o with
    name := f.bytes (recordAt f block o).nameLen.toNat (blockAddress block + o + 8) }⟩

/-- The state of the loop at an offset of the block. -/
def At (o : ℕ) (st : BlockScan) : Prop :=
  st.offset = o ∧ st.blockOffset = (blockAddress block + o : ℕ) ∧
    st.feeler = (recordAt f block o).inode

variable {f block} {parent : ℤ} {st st' : BlockScan}

lemma recordAt_inode : (recordAt f block o).inode = f.u32 (blockAddress block + o) := rfl

variable (parent) in
lemma entryRound_done (hat : At f block o st)
    (h : ¬ ((recordAt f block o).inode ≠ 0 ∧ o < 1024)) :
    entryRound f parent (toInt block) st = .ok (.done st) := by
  obtain ⟨ho, -, hfeeler⟩ := hat
  unfold entryRound blockSize
  rw [ho, hfeeler, if_neg fun hgo => h ⟨hgo.1, by omega⟩]

variable (parent) in
/-- A record that lies in range is appended, and the loop goes on behind it. -/
lemma entryRound_yield (hat : At f block o st) (hinode : (recordAt f block o).inode ≠ 0)
    (ho : o < 1024) (hname : blockAddress block + o + 8 < 2 ^ 31)
    (hnext : blockAddress block + o + recLen f block o < 2 ^ 31) :
    ∃ st', entryRound f parent (toInt block) st = .ok (.yield st') ∧
      At f block (o + recLen f block o) st' ∧
      st'.dirents = st.dirents ++ [scannedAt f block parent o] := by
  obtain ⟨hoffset, hblock, hfeeler⟩ := hat
  have hentry : imgRead f.dirEntry st.blockOffset 0 = .ok (recordAt f block o) :=
    imgRead_ok (a := blockAddress block + o) (by rw [hblock, add_zero]) (by omega)
  have hread : imgRead (f.bytes (recordAt f block o).nameLen.toNat) st.blockOffset direntSize =
      .ok (f.bytes (recordAt f block o).nameLen.toNat (blockAddress block + o + 8)) :=
    imgRead_ok (by rw [hblock]; unfold direntSize; omega) hname
  have hfeel : imgRead f.u32 st.blockOffset (recLen f block o) =
      .ok (recordAt f block (o + recLen f block o)).inode := by
    rw [recordAt_inode]
    exact imgRead_ok (a := blockAddress block + (o + recLen f block o)) (by rw [hblock]; omega)
      (by omega)
  have hint : int (st.offset + recLen f block o) = .ok ((o + recLen f block o : ℕ) : ℤ) := by
    rw [hoffset, ← Nat.cast_add]
    exact int_ok (by unfold IsInt; omega)
  have hmove : int ((blockAddress block : ℕ) + (o + recLen f block o : ℕ)) =
      .ok ((blockAddress block + (o + recLen f block o) : ℕ) : ℤ) := by
    rw [← Nat.cast_add]
    exact int_ok (by unfold IsInt; omega)
  refine ⟨⟨(o + recLen f block o : ℕ), (blockAddress block + (o + recLen f block o) : ℕ),
    (recordAt f block (o + recLen f block o)).inode,
    st.dirents ++ [scannedAt f block parent o]⟩, ?_, ⟨rfl, rfl, rfl⟩, rfl⟩
  unfold entryRound
  rw [if_pos ⟨by rwa [hfeeler], by unfold blockSize; omega⟩, hentry, ok_bind, hread, ok_bind]
  have hlen : (recordAt f block o).recLen.toNat = recLen f block o := rfl
  rw [hlen, hint, ok_bind, hfeel, ok_bind, setBlock_ok (by omega), ok_bind, hmove, ok_bind]
  rfl

end LowLevelTasks.DirectoryBlocks
