import LowLevelTasks.FreeList
import LowLevelTasks.IndirectBlocks
import LowLevelTasks.DirectoryBlocks

/-!
The byte addresses of blocks and of inodes. The superblock says how large they are, but the
reader computes all addresses with fixed sizes, as an `int`. So they are right for blocks of
1024 bytes and inodes of 128 bytes only, and only below byte `2 ^ 31`.
-/

namespace LowLevelTasks.ByteAddresses

open LowLevelTasks.ImgReader LowLevelTasks.InodeTable LowLevelTasks.Loops

/-! ### The addresses of the reader -/

def verifyValidImage (f : ImageFile) : Except Stop Unit := do
  let blockOffset := blockSize
  let magic ← imgRead f.u16 blockOffset 56
  if magic ≠ 0xEF53 then .error (.exit 2) else .ok ()

/-- What is set as the offset before a slot of an inode table is read. -/
def setSlot (table : UInt32) (j : ℕ) : Except Stop ℤ := do
  let table ← setBlock (toInt table)
  let place ← int (j * inodeSize)
  int (table + place)

/-- Where a read at the offset that is set begins in the file. -/
def pread (offset : Except Stop ℤ) : Except Stop ℕ := do
  let blockOffset ← offset
  imgRead (fun a => a) blockOffset 0

section

variable (f : ImageFile) (s : SuperBlock) (group : List GroupDesc)

lemma slot_eq (i j : ℕ) : slot f s group i j = (do
    let n ← int (i * inodesPerTable s + j)
    if n < inodeCount s then do
      let blockOffset ← setSlot (groupAt group i).bgInodeTable j
      let mode ← imgRead f.u16 blockOffset 0
      let linkCount ← imgRead f.u16 blockOffset 26
      if 0 < mode ∧ 0 < linkCount then do
        let inode ← imgRead f.inode blockOffset 0
        .ok [⟨j + 1, inode⟩]
      else .ok []
    else .ok []) := by
  simp only [slot, setSlot, bind_assoc]

end

variable {f : ImageFile} {b table : UInt32} {a j : ℕ}

lemma pread_eq_ok_iff {offset : Except Stop ℤ} :
    pread offset = .ok a ↔ offset = .ok (a : ℤ) ∧ a < 2 ^ 31 := by
  unfold pread
  simp only [bind_eq_ok_iff, imgRead_eq_ok_iff, add_zero]
  constructor
  · rintro ⟨o, ho, ⟨-, hlt⟩, hnonneg, rfl⟩
    exact ⟨by rw [ho, Int.toNat_of_nonneg hnonneg], by omega⟩
  · rintro ⟨ho, hlt⟩
    exact ⟨a, ho, by unfold IsInt; omega, by omega, Int.toNat_natCast a⟩

/-- **The address of a block**, which is right below byte `2 ^ 31`. -/
theorem pread_setBlock_iff :
    pread (setBlock (toInt b)) = .ok a ↔ a = blockAddress b ∧ blockAddress b < 2 ^ 31 := by
  rw [pread_eq_ok_iff]
  unfold setBlock
  rw [int_eq_ok_iff]
  have hb := b.toNat_lt
  unfold toInt blockSize blockAddress IsInt
  split <;> omega

/-- The address of the first slot of a table is that of its block. -/
lemma pread_setSlot_zero : pread (setSlot table 0) = pread (setBlock (toInt table)) := by
  unfold setSlot
  have hplace : int ((0 : ℕ) * inodeSize) = .ok 0 := by decide
  rw [hplace]
  cases h : setBlock (toInt table) with
  | error e => rfl
  | ok o =>
    obtain ⟨hint, rfl⟩ := int_eq_ok_iff.mp h
    simp only [ok_bind, add_zero, int_ok hint]

lemma pread_setSlot_iff (htable : table.toNat < 2 ^ 31) :
    pread (setSlot table j) = .ok a ↔
      a = blockAddress table + j * 128 ∧ blockAddress table + j * 128 < 2 ^ 31 := by
  rw [pread_eq_ok_iff]
  unfold setSlot setBlock
  simp only [bind_eq_ok_iff, int_eq_ok_iff]
  unfold blockSize inodeSize blockAddress IsInt
  rw [toInt_of_lt htable]
  constructor
  · rintro ⟨⟨_, ⟨h, rfl⟩, _, ⟨h', rfl⟩, h'', ha⟩, hlt⟩
    omega
  · rintro ⟨rfl, hlt⟩
    exact ⟨⟨_, ⟨by omega, rfl⟩, _, ⟨by omega, rfl⟩, by omega, by omega⟩, hlt⟩

/-! ### The addresses of the file system -/

section

variable (f)

/-- One of the descriptors that are read. -/
def Described (g : GroupDesc) : Prop :=
  ∃ n, numGroups (f.superBlock 1024) = .ok n ∧
    ∃ i : ℕ, (i : ℤ) < n ∧ g = f.groupDesc (2048 + 32 * i)

/-- The size of a block, as the superblock declares it. -/
def declaredBlockSize : ℕ := 1024 * 2 ^ (f.superBlock 1024).sLogBlockSize.toNat

/-- Every block and every slot of every inode table is read where it is. -/
structure Addressed : Prop where
  block : ∀ b : UInt32, b.toNat < (f.superBlock 1024).sBlocksCount.toNat →
    pread (setBlock (toInt b)) = .ok (b.toNat * declaredBlockSize f)
  slot : ∀ g, Described f g → ∀ j < (f.superBlock 1024).sInodesPerGroup.toNat,
    pread (setSlot g.bgInodeTable j) = .ok (g.bgInodeTable.toNat * declaredBlockSize f +
      j * (f.superBlock 1024).sInodeSize.toNat)

/-- The sizes declared are those the reader computes with, where it makes a difference, and
the last block and the last slot of every table lie below byte `2 ^ 31`. -/
structure FixedSizes : Prop where
  block : (f.superBlock 1024).sBlocksCount.toNat ≤ 1 ∨
    (f.superBlock 1024).sLogBlockSize.toNat = 0 ∧
      (f.superBlock 1024).sBlocksCount.toNat ≤ 2 ^ 21
  slot : ∀ g, Described f g → 0 < (f.superBlock 1024).sInodesPerGroup.toNat →
    (g.bgInodeTable.toNat = 0 ∨ (f.superBlock 1024).sLogBlockSize.toNat = 0) ∧
    ((f.superBlock 1024).sInodesPerGroup.toNat = 1 ∨
      (f.superBlock 1024).sInodeSize.toNat = 128) ∧
    g.bgInodeTable.toNat * 1024 + ((f.superBlock 1024).sInodesPerGroup.toNat - 1) * 128 < 2 ^ 31

end

lemma declaredBlockSize_eq_iff :
    declaredBlockSize f = 1024 ↔ (f.superBlock 1024).sLogBlockSize.toNat = 0 := by
  unfold declaredBlockSize
  rw [Nat.mul_eq_left (by decide), Nat.pow_eq_one]
  simp

lemma mul_declaredBlockSize_iff {n : ℕ} : n * 1024 = n * declaredBlockSize f ↔
    n = 0 ∨ (f.superBlock 1024).sLogBlockSize.toNat = 0 := by
  rw [← declaredBlockSize_eq_iff, mul_eq_mul_left_iff, or_comm, @eq_comm ℕ 1024]

/-- The blocks are addressed right exactly if they have the fixed size and end in range. -/
lemma blocks_addressed_iff {blocks : ℕ} (hsmall : blocks ≤ 2 ^ 32) :
    (∀ b : UInt32, b.toNat < blocks →
      pread (setBlock (toInt b)) = .ok (b.toNat * declaredBlockSize f)) ↔
    blocks ≤ 1 ∨ (f.superBlock 1024).sLogBlockSize.toNat = 0 ∧ blocks ≤ 2 ^ 21 := by
  simp only [pread_setBlock_iff]
  unfold blockAddress
  constructor
  · intro h
    rcases Nat.lt_or_ge 1 blocks with hlt | hle
    · right
      have hlast : (UInt32.ofNat (blocks - 1)).toNat = blocks - 1 :=
        UInt32.toNat_ofNat_of_lt' (by unfold UInt32.size; omega)
      obtain ⟨hone, -⟩ := h 1 hlt
      obtain ⟨-, hbound⟩ := h (.ofNat (blocks - 1)) (by omega)
      rw [hlast] at hbound
      have hzero := (mul_declaredBlockSize_iff.mp hone.symm).resolve_left (by decide)
      exact ⟨hzero, by omega⟩
    · exact Or.inl hle
  · intro h b hb
    rcases h with h | ⟨hzero, hbound⟩
    · obtain hb0 : b.toNat = 0 := by omega
      simp [hb0]
    · exact ⟨(mul_declaredBlockSize_iff.mpr (Or.inr hzero)).symm, by omega⟩

/-- The slots of a table are addressed right exactly if table and slots have the fixed sizes
and end in range. -/
lemma slots_addressed_iff {per size : ℕ} :
    (∀ j < per, pread (setSlot table j) =
      .ok (table.toNat * declaredBlockSize f + j * size)) ↔
    (0 < per → (table.toNat = 0 ∨ (f.superBlock 1024).sLogBlockSize.toNat = 0) ∧
      (per = 1 ∨ size = 128) ∧ table.toNat * 1024 + (per - 1) * 128 < 2 ^ 31) := by
  constructor
  · intro h hper
    have hfirst := h 0 hper
    rw [pread_setSlot_zero, pread_setBlock_iff, zero_mul, add_zero] at hfirst
    obtain ⟨htable, hlt⟩ := hfirst
    unfold blockAddress at *
    have hlast := h (per - 1) (by omega)
    rw [pread_setSlot_iff (by omega)] at hlast
    refine ⟨mul_declaredBlockSize_iff.mp htable.symm, ?_, hlast.2⟩
    by_cases hone : per = 1
    · exact Or.inl hone
    · have hsecond := h 1 (by omega)
      rw [pread_setSlot_iff (by omega)] at hsecond
      unfold blockAddress at hsecond
      omega
  · intro h j hj
    obtain ⟨htable, hsize, hbound⟩ := h (by omega)
    have heq := mul_declaredBlockSize_iff.mpr htable
    have hplace : j * size = j * 128 := by
      rcases hsize with rfl | rfl
      · obtain rfl : j = 0 := by omega
        rw [zero_mul, zero_mul]
      · rfl
    rw [pread_setSlot_iff (by omega), hplace, ← heq]
    exact ⟨rfl, by unfold blockAddress; omega⟩

/-- **Blocks and inodes are read where they are** exactly if they have the fixed sizes and lie
below byte `2 ^ 31`. -/
theorem addressed_iff_fixedSizes : Addressed f ↔ FixedSizes f := by
  constructor
  · rintro ⟨hblock, hslot⟩
    exact ⟨(blocks_addressed_iff (UInt32.toNat_lt _).le).mp hblock,
      fun g hg => slots_addressed_iff.mp (hslot g hg)⟩
  · rintro ⟨hblock, hslot⟩
    exact ⟨(blocks_addressed_iff (UInt32.toNat_lt _).le).mpr hblock,
      fun g hg => slots_addressed_iff.mpr (hslot g hg)⟩

/-- A file system with blocks of 2048 bytes. -/
def largeBlocks : ImageFile :=
  .ofCells 4096 [(1024, 8), (1028, 8), (1048, 1), (1057, 64), (1064, 8), (1080, 0x53),
    (1081, 0xEF), (1112, 128), (2048, 3), (2052, 4), (2056, 5)]

/-- A file system with one block more than `2 ^ 21`. -/
def manyBlocks : ImageFile :=
  .ofCells 4096 [(1024, 8), (1028, 1), (1030, 32), (1058, 64), (1064, 8), (1080, 0x53),
    (1081, 0xEF), (1112, 128), (2048, 3), (2052, 4), (2056, 5)]

/-- Block 1 is read at the wrong place, and the address of block `2 ^ 21` overflows. -/
theorem largeBlocks_misread :
    verifyValidImage largeBlocks = .ok () ∧ declaredBlockSize largeBlocks = 2048 ∧
    pread (setBlock (toInt 1)) = .ok 1024 ∧ ¬ Addressed largeBlocks ∧
    verifyValidImage manyBlocks = .ok () ∧
    (manyBlocks.superBlock 1024).sBlocksCount.toNat = 2 ^ 21 + 1 ∧
    pread (setBlock (toInt 2097152)) = .error .undefined ∧ ¬ Addressed manyBlocks := by
  have hone : pread (setBlock (toInt 1)) = .ok 1024 := by decide +kernel
  have hlast : pread (setBlock (toInt 2097152)) = .error .undefined := by decide +kernel
  refine ⟨by decide +kernel, by decide +kernel, hone, fun h => ?_, by decide +kernel,
    by decide +kernel, hlast, fun h => ?_⟩
  · have heq := Except.ok.inj (hone.symm.trans (h.block 1 (by decide +kernel)))
    exact absurd heq (by decide +kernel)
  · have heq := hlast.symm.trans (h.block 2097152 (by decide +kernel))
    cases heq

end LowLevelTasks.ByteAddresses
