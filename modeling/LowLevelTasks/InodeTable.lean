import LowLevelTasks.ImgReader

/-!
The scan of the inode tables. The slots of every group are read in turn, and an inode is in
use if neither its mode nor its link count is zero. The number it is given is that of its
slot in the table, so that it is right in the first group only.
-/

namespace LowLevelTasks.InodeTable

open LowLevelTasks.ImgReader LowLevelTasks.Loops

variable (f : ImageFile) (s : SuperBlock) (group : List GroupDesc)

def inodesPerTable : ℤ := toInt s.sInodesPerGroup

def inodeCount : ℤ := toInt s.sInodesCount

/-- One slot. None of the terms of the number compared is negative. -/
def slot (i j : ℕ) : Except Stop (List NumberedInode) := do
  let n ← int (i * inodesPerTable s + j)
  if n < inodeCount s then do
    let table ← setBlock (toInt (groupAt group i).bgInodeTable)
    let place ← int (j * inodeSize)
    let blockOffset ← int (table + place)
    let mode ← imgRead f.u16 blockOffset 0
    let linkCount ← imgRead f.u16 blockOffset 26
    if 0 < mode ∧ 0 < linkCount then do
      let inode ← imgRead f.inode blockOffset 0
      .ok [⟨j + 1, inode⟩]
    else .ok []
  else .ok []

def readInode : Except Stop (List NumberedInode) :=
  collect (fun i => collect (slot f s group i) (List.range (inodesPerTable s).toNat))
    (List.range group.length)

/-! ### The inodes in use -/

def slotAddress (i j : ℕ) : ℕ := blockAddress (groupAt group i).bgInodeTable + j * 128

def InUse (i j : ℕ) : Prop :=
  0 < f.u16 (slotAddress group i j) ∧ 0 < f.u16 (slotAddress group i j + 26)

instance (i j : ℕ) : Decidable (InUse f group i j) := inferInstanceAs (Decidable (_ ∧ _))

/-- A slot whose inode exists and is in use. -/
def Allocated (i j : ℕ) : Prop :=
  i < group.length ∧ j < s.sInodesPerGroup.toNat ∧
    i * s.sInodesPerGroup.toNat + j + 1 ≤ s.sInodesCount.toNat ∧ InUse f group i j

/-- The scan looks into a slot. -/
def Visited (i j : ℕ) : Prop := (i : ℤ) * inodesPerTable s + j < inodeCount s

instance (i j : ℕ) : Decidable (Visited s i j) := inferInstanceAs (Decidable (_ < _))

/-- What is computed for a slot fits into an `int`. -/
def InRange (i j : ℕ) : Prop :=
  IsInt (i * inodesPerTable s + j) ∧ (Visited s i j → slotAddress group i j + 26 < 2 ^ 31)

instance (i j : ℕ) : Decidable (InRange s group i j) := inferInstanceAs (Decidable (_ ∧ _))

variable {f s group} {i j : ℕ}

def slotResult (f : ImageFile) (s : SuperBlock) (group : List GroupDesc) (i j : ℕ) :
    List NumberedInode :=
  if Visited s i j ∧ InUse f group i j then [⟨j + 1, f.inode (slotAddress group i j)⟩] else []

lemma slot_of_not_visited (hint : IsInt (i * inodesPerTable s + j)) (h : ¬ Visited s i j) :
    slot f s group i j = .ok [] := by
  unfold slot
  rw [int_ok hint]
  exact if_neg h

/-- A slot in range is read. -/
lemma slot_of_inRange (h : InRange s group i j) :
    slot f s group i j = .ok (slotResult f s group i j) := by
  obtain ⟨hint, haddr⟩ := h
  by_cases hv : Visited s i j
  · replace haddr := haddr hv
    unfold slotAddress at haddr
    have hplace : int (j * inodeSize) = .ok ((j * 128 : ℕ) : ℤ) := by
      unfold inodeSize
      rw [int_ok (by unfold IsInt; omega), Nat.cast_mul]
      rfl
    have hoffset : int (blockAddress (groupAt group i).bgInodeTable + (j * 128 : ℕ)) =
        .ok ((slotAddress group i j : ℕ) : ℤ) := by
      rw [int_ok (by unfold IsInt; omega), slotAddress, Nat.cast_add]
    have hread : ∀ {α : Type} (read : ℕ → α) (k : ℕ), k ≤ 26 →
        imgRead read (slotAddress group i j) k = .ok (read (slotAddress group i j + k)) :=
      fun read k hk => imgRead_ok (by push_cast; rfl) (by unfold slotAddress; omega)
    have h0 := fun {α : Type} (read : ℕ → α) => hread read 0 (by omega)
    have h26 := hread f.u16 26 (by omega)
    simp only [Nat.cast_zero, Nat.add_zero, Nat.cast_ofNat] at h0 h26
    unfold slot
    unfold Visited at hv
    rw [int_ok hint, ok_bind, if_pos hv, setBlock_ok (by omega)]
    rw [ok_bind, hplace, ok_bind, hoffset, ok_bind, h0, ok_bind, h26, ok_bind, h0]
    unfold slotResult InUse Visited
    split
    · rw [if_pos ⟨hv, ‹_›⟩, ok_bind]
    · rw [if_neg fun h => absurd h.2 ‹_›]
  · rw [slot_of_not_visited hint hv, slotResult, if_neg fun h => hv h.1]

/-- What a slot that was read tells of its offset. -/
lemma offset_of_slot {l : List NumberedInode} (h : slot f s group i j = .ok l)
    (hv : Visited s i j) :
    0 ≤ toInt (groupAt group i).bgInodeTable * 1024 + j * 128 ∧
      toInt (groupAt group i).bgInodeTable * 1024 + j * 128 + 26 < 2 ^ 31 := by
  unfold Visited at hv
  obtain ⟨n, hn, h⟩ := bind_eq_ok_iff.mp h
  obtain ⟨-, rfl⟩ := int_eq_ok_iff.mp hn
  rw [if_pos hv] at h
  obtain ⟨table, htable, h⟩ := bind_eq_ok_iff.mp h
  obtain ⟨place, hplace, h⟩ := bind_eq_ok_iff.mp h
  obtain ⟨offset, hoffset, h⟩ := bind_eq_ok_iff.mp h
  obtain ⟨mode, hmode, h⟩ := bind_eq_ok_iff.mp h
  obtain ⟨linkCount, hlink, -⟩ := bind_eq_ok_iff.mp h
  obtain ⟨-, rfl⟩ := int_eq_ok_iff.mp htable
  obtain ⟨-, rfl⟩ := int_eq_ok_iff.mp hplace
  obtain ⟨-, rfl⟩ := int_eq_ok_iff.mp hoffset
  obtain ⟨-, hmode, -⟩ := imgRead_eq_ok_iff.mp hmode
  obtain ⟨hlink, -, -⟩ := imgRead_eq_ok_iff.mp hlink
  unfold IsInt at hlink
  unfold blockSize inodeSize at *
  omega

/-- The slots of a table are all read exactly if they are all in range. -/
lemma slots_ok_iff {m : ℕ} :
    (∀ j < m, ∃ l, slot f s group i j = .ok l) ↔ ∀ j < m, InRange s group i j := by
  refine ⟨fun h j hj => ?_, fun h j hj => ⟨_, slot_of_inRange (h j hj)⟩⟩
  obtain ⟨l, hl⟩ := h j hj
  refine ⟨?_, fun hv => ?_⟩
  · obtain ⟨n, hn, -⟩ := bind_eq_ok_iff.mp hl
    exact (int_eq_ok_iff.mp hn).1
  · -- the first slot of the table is read too, so that the table does not lie before the file
    obtain ⟨l₀, hl₀⟩ := h 0 (by omega)
    have hv₀ : Visited s i 0 := by
      unfold Visited at hv ⊢
      omega
    have htable := (offset_of_slot hl₀ hv₀).1
    have hplace := (offset_of_slot hl hv).2
    have hnonneg : (groupAt group i).bgInodeTable.toNat < 2 ^ 31 := by
      by_contra h
      have := toInt_neg (not_lt.mp h)
      omega
    rw [toInt_of_lt hnonneg] at hplace
    unfold slotAddress blockAddress
    omega

lemma readInode_eq_ok_iff {l : List NumberedInode} :
    readInode f s group = .ok l ↔
      (∀ i < group.length, ∀ j < (inodesPerTable s).toNat, InRange s group i j) ∧
      l = (List.range group.length).flatMap fun i =>
        (List.range (inodesPerTable s).toNat).flatMap (slotResult f s group i) := by
  have htable : ∀ i, (∃ l, collect (slot f s group i) (List.range (inodesPerTable s).toNat) =
      .ok l) ↔ ∀ j < (inodesPerTable s).toNat, InRange s group i j := fun i => by
    simp only [collect_eq_ok_iff, exists_and_left, exists_eq, and_true, List.mem_range]
    exact slots_ok_iff
  unfold readInode
  rw [collect_eq_ok_iff]
  simp only [htable, List.mem_range]
  refine and_congr_right fun h => ?_
  have hfinds : ∀ i ∈ List.range group.length,
      finds (collect (slot f s group i) (List.range (inodesPerTable s).toNat)) =
        (List.range (inodesPerTable s).toNat).flatMap (slotResult f s group i) := by
    intro i hi
    rw [collect_ok fun j hj =>
      slot_of_inRange (h i (List.mem_range.mp hi) j (List.mem_range.mp hj)), finds_ok]
  rw [List.flatMap_congr hfinds]

variable (f s group) in
/-- All that is computed lies in range, and the inodes in use are in the first group, where
both counts are positive as an `int`. -/
def FirstGroupOnly : Prop :=
  (∀ i < group.length, ∀ j < (inodesPerTable s).toNat, InRange s group i j) ∧
    ∀ i j, Allocated f s group i j →
      i = 0 ∧ s.sInodesPerGroup.toNat < 2 ^ 31 ∧ s.sInodesCount.toNat < 2 ^ 31

/-- In the first group the scan looks into the slots of all inodes that exist. -/
lemma visited_zero_iff (hcount : s.sInodesCount.toNat < 2 ^ 31) :
    Visited s 0 j ↔ j + 1 ≤ s.sInodesCount.toNat := by
  unfold Visited inodeCount
  rw [toInt_of_lt hcount]
  omega

/-- A slot the scan looks into exists. -/
lemma allocated_of_visited (hi : i < group.length) (hj : j < (inodesPerTable s).toNat)
    (hv : Visited s i j) (hu : InUse f group i j) :
    Allocated f s group i j ∧ s.sInodesPerGroup.toNat < 2 ^ 31 ∧
      s.sInodesCount.toNat < 2 ^ 31 := by
  have hper : s.sInodesPerGroup.toNat < 2 ^ 31 := by
    by_contra h
    have := toInt_neg (not_lt.mp h)
    unfold inodesPerTable at hj
    omega
  have hcount : s.sInodesCount.toNat < 2 ^ 31 := by
    by_contra h
    have := toInt_neg (not_lt.mp h)
    unfold Visited inodeCount at hv
    have : 0 ≤ (i : ℤ) * inodesPerTable s := by
      unfold inodesPerTable
      rw [toInt_of_lt hper]
      exact Int.mul_nonneg (by omega) (by omega)
    omega
  unfold Visited inodesPerTable inodeCount at *
  rw [toInt_of_lt hper] at hj hv
  rw [toInt_of_lt hcount] at hv
  refine ⟨⟨hi, by omega, ?_, hu⟩, hper, hcount⟩
  have : ((i * s.sInodesPerGroup.toNat + j : ℕ) : ℤ) < s.sInodesCount.toNat := by
    push_cast
    exact hv
  omega

lemma mem_slotResult_iff {x : NumberedInode} : x ∈ slotResult f s group i j ↔
    (Visited s i j ∧ InUse f group i j) ∧ x = ⟨j + 1, f.inode (slotAddress group i j)⟩ := by
  unfold slotResult
  split <;> simp [*]

lemma mem_scanned_iff {x : NumberedInode} :
    (x ∈ (List.range group.length).flatMap fun i =>
      (List.range (inodesPerTable s).toNat).flatMap (slotResult f s group i)) ↔
    ∃ i < group.length, ∃ j < (inodesPerTable s).toNat, (Visited s i j ∧ InUse f group i j) ∧
      x = ⟨j + 1, f.inode (slotAddress group i j)⟩ := by
  simp only [List.mem_flatMap, List.mem_range, mem_slotResult_iff]

/-- The scan of one table numbers the slots upwards. -/
lemma pairwise_table {m : ℕ} : ((List.range m).flatMap (slotResult f s group i)).Pairwise
    fun x y => x.inodeNum < y.inodeNum := by
  rw [List.pairwise_flatMap]
  constructor
  · intro j _
    unfold slotResult
    split <;> simp
  · refine List.pairwise_lt_range.imp fun hjj' x hx y hy => ?_
    obtain ⟨-, rfl⟩ := mem_slotResult_iff.mp hx
    obtain ⟨-, rfl⟩ := mem_slotResult_iff.mp hy
    exact Int.add_lt_add_right (by omega) 1

/-- **The scan is right about all inodes** in use exactly if they are in the first group. -/
theorem readInode_exact_iff :
    (∃ l, readInode f s group = .ok l ∧ l.Pairwise (fun x y => x.inodeNum < y.inodeNum) ∧
      ∀ x, x ∈ l ↔ ∃ i j, Allocated f s group i j ∧
        x = ⟨(i * s.sInodesPerGroup.toNat + j + 1 : ℕ), f.inode (slotAddress group i j)⟩) ↔
    FirstGroupOnly f s group := by
  simp only [readInode_eq_ok_iff, and_assoc, exists_and_left, exists_eq_left]
  unfold FirstGroupOnly
  refine and_congr_right fun _ => ?_
  constructor
  · rintro ⟨-, hmem⟩ i j halloc
    obtain ⟨i', hi', j', hj', ⟨hv, hu⟩, heq⟩ :=
      mem_scanned_iff.mp ((hmem _).mpr ⟨i, j, halloc, rfl⟩)
    obtain ⟨⟨-, hj'', -⟩, hper, hcount⟩ := allocated_of_visited hi' hj' hv hu
    -- the number of the slot in its own table is that of an inode of the first group
    have hnum := congrArg NumberedInode.inodeNum heq
    have hi0 : i * s.sInodesPerGroup.toNat < s.sInodesPerGroup.toNat := by
      push_cast at hnum
      omega
    refine ⟨?_, hper, hcount⟩
    by_contra hne
    exact absurd (Nat.le_mul_of_pos_left _ (Nat.pos_of_ne_zero hne)) (not_le.mpr hi0)
  · intro h
    have hzero : ∀ i < group.length, ∀ j < (inodesPerTable s).toNat, Visited s i j →
        InUse f group i j → i = 0 := fun i hi j hj hv hu => by
      obtain ⟨halloc, -⟩ := allocated_of_visited hi hj hv hu
      exact (h i j halloc).1
    constructor
    · rw [List.pairwise_flatMap]
      refine ⟨fun i _ => pairwise_table, ?_⟩
      refine List.pairwise_lt_range.imp_of_mem fun {i i'} _ hi' hii' x _ y hy => ?_
      obtain ⟨j, hj, hy⟩ := List.mem_flatMap.mp hy
      obtain ⟨⟨hv, hu⟩, -⟩ := mem_slotResult_iff.mp hy
      have := hzero i' (List.mem_range.mp hi') j (List.mem_range.mp hj) hv hu
      omega
    · intro x
      rw [mem_scanned_iff]
      constructor
      · rintro ⟨i, hi, j, hj, ⟨hv, hu⟩, rfl⟩
        obtain ⟨halloc, -⟩ := allocated_of_visited hi hj hv hu
        obtain rfl := hzero i hi j hj hv hu
        exact ⟨0, j, halloc, by simp⟩
      · rintro ⟨i, j, halloc, rfl⟩
        obtain ⟨rfl, hper, hcount⟩ := h i j halloc
        refine ⟨0, halloc.1, j, ?_, ⟨(visited_zero_iff hcount).mpr ?_, halloc.2.2.2⟩, by simp⟩
        · unfold inodesPerTable
          rw [toInt_of_lt hper, Int.toNat_natCast]
          exact halloc.2.1
        · have := halloc.2.2.1
          omega

/-- The first inode of the second group, number 9, is in use. -/
def secondGroup : ImageFile :=
  .ofCells 16384 [(1024, 16), (1028, 16), (1056, 8), (1064, 8), (1080, 0x53), (1081, 0xEF),
    (2048, 3), (2052, 4), (2056, 5), (2080, 6), (2084, 7), (2088, 8), (8192, 0xA4),
    (8193, 0x81), (8218, 1)]

theorem secondGroup_misnumbered :
    readSuperblock secondGroup = .ok (secondGroup.superBlock 1024) ∧
    readGroup secondGroup (secondGroup.superBlock 1024) =
      .ok [secondGroup.groupDesc 2048, secondGroup.groupDesc 2080] ∧
    readInode secondGroup (secondGroup.superBlock 1024)
      [secondGroup.groupDesc 2048, secondGroup.groupDesc 2080] =
        .ok [⟨1, secondGroup.inode 8192⟩] ∧
    ¬ ∃ l, readInode secondGroup (secondGroup.superBlock 1024)
        [secondGroup.groupDesc 2048, secondGroup.groupDesc 2080] = .ok l ∧
      l.Pairwise (fun x y => x.inodeNum < y.inodeNum) ∧
      ∀ x, x ∈ l ↔ ∃ i j, Allocated secondGroup (secondGroup.superBlock 1024)
          [secondGroup.groupDesc 2048, secondGroup.groupDesc 2080] i j ∧
        x = ⟨(i * (secondGroup.superBlock 1024).sInodesPerGroup.toNat + j + 1 : ℕ),
          secondGroup.inode
            (slotAddress [secondGroup.groupDesc 2048, secondGroup.groupDesc 2080] i j)⟩ := by
  have hrun : readInode secondGroup (secondGroup.superBlock 1024)
      [secondGroup.groupDesc 2048, secondGroup.groupDesc 2080] =
        .ok [⟨1, secondGroup.inode 8192⟩] := by decide +kernel
  refine ⟨by decide +kernel, by decide +kernel, hrun, ?_⟩
  rintro ⟨l, hl, -, hmem⟩
  obtain rfl := Except.ok.inj (hrun.symm.trans hl)
  have halloc : Allocated secondGroup (secondGroup.superBlock 1024)
      [secondGroup.groupDesc 2048, secondGroup.groupDesc 2080] 1 0 := by
    unfold Allocated
    decide +kernel
  have hnine := (hmem _).mpr ⟨1, 0, halloc, rfl⟩
  have hnum := congrArg NumberedInode.inodeNum (List.mem_singleton.mp hnine)
  exact absurd hnum (by decide +kernel)

end LowLevelTasks.InodeTable
