import LowLevelTasks.CsvWriter
import Mathlib.Algebra.Order.Floor.Div

/-!
The groups of a file system. Their number follows from the blocks behind the first data
block, but the reader counts all blocks, and so it takes one group too many where the blocks
of the groups come out even. The writer takes the blocks and the inodes of the groups off the
totals one group after the other.
-/

namespace LowLevelTasks.GroupCount

open LowLevelTasks.CsvWriter LowLevelTasks.ImgReader LowLevelTasks.Loops LowLevelTasks.RubyText
  LowLevelTasks.ScanImage

/-! ### The descriptors that are read -/

variable (f : ImageFile)

/-- The first block of the first group, which nothing reads. -/
def sFirstDataBlock : UInt32 := f.u32 (1024 + 20)

/-- The groups that the blocks of the file system make up. -/
def groupCount : ℕ :=
  ((f.superBlock 1024).sBlocksCount.toNat - (sFirstDataBlock f).toNat) ⌈/⌉
    (f.superBlock 1024).sBlocksPerGroup.toNat

variable {f} {s : SuperBlock} {img : Image} {n : ℕ}

lemma numGroups_eq (hper : 0 < s.sBlocksPerGroup.toNat) (hblocks : 0 < s.sBlocksCount.toNat)
    (hsmall : s.sBlocksCount.toNat < 2 ^ 31) :
    numGroups s = .ok ((1 + (s.sBlocksCount.toNat - 1) / s.sBlocksPerGroup.toNat : ℕ) : ℤ) := by
  have hle : (s.sBlocksCount.toNat - 1) / s.sBlocksPerGroup.toNat ≤ s.sBlocksCount.toNat - 1 :=
    Nat.div_le_self _ _
  have hsub : (s.sBlocksCount - 1).toNat = s.sBlocksCount.toNat - 1 :=
    UInt32.toNat_sub_of_le _ _ (UInt32.le_iff_toNat_le.mpr hblocks)
  have hvalue : (1 + (s.sBlocksCount - 1) / s.sBlocksPerGroup).toNat =
      1 + (s.sBlocksCount.toNat - 1) / s.sBlocksPerGroup.toNat := by
    rw [UInt32.toNat_add, UInt32.toNat_div, hsub]
    exact Nat.mod_eq_of_lt (by change 1 + _ < _; omega)
  have hne : s.sBlocksPerGroup ≠ 0 := fun h => by simp [h] at hper
  unfold numGroups
  rw [if_neg hne, toInt_of_lt (by rw [hvalue]; omega), hvalue]

/-- The descriptors are read as long as their places fit into an `int`. -/
lemma readGroup_eq_ok_iff (hn : numGroups s = .ok (n : ℤ)) {group : List GroupDesc} :
    readGroup f s = .ok group ↔ (∀ i < n, 2048 + 32 * i < 2 ^ 31) ∧
      group = (List.range n).map fun i => f.groupDesc (2048 + 32 * i) := by
  have hplace : ∀ i : ℕ, 2 * blockSize + i * groupDescSize = ((2048 + 32 * i : ℕ) : ℤ) := by
    intro i
    unfold blockSize groupDescSize
    omega
  have hread : ∀ (i : ℕ) (l : List GroupDesc), (do
      let blockOffset ← int (2 * blockSize + i * groupDescSize)
      let g ← imgRead f.groupDesc blockOffset 0
      .ok [g] : Except Stop (List GroupDesc)) = .ok l ↔
        2048 + 32 * i < 2 ^ 31 ∧ l = [f.groupDesc (2048 + 32 * i)] := by
    intro i l
    simp only [hplace, bind_eq_ok_iff, int_eq_ok_iff, imgRead_eq_ok_iff, Except.ok.injEq]
    constructor
    · rintro ⟨o, ⟨hint, rfl⟩, g, ⟨-, -, rfl⟩, rfl⟩
      refine ⟨?_, by rw [add_zero, Int.toNat_natCast]⟩
      unfold IsInt at hint
      omega
    · rintro ⟨hlt, rfl⟩
      have hint : IsInt ((2048 + 32 * i : ℕ) : ℤ) := by
        unfold IsInt
        omega
      exact ⟨_, ⟨hint, rfl⟩, _, ⟨by rwa [add_zero], by omega, rfl⟩,
        by rw [add_zero, Int.toNat_natCast]⟩
  unfold readGroup
  rw [hn, ok_bind, Int.toNat_natCast, collect_eq_ok_iff]
  simp only [hread, exists_and_left, exists_eq, and_true, List.mem_range]
  refine and_congr_right fun h => ?_
  have hfinds : ∀ i ∈ List.range n, finds (do
      let blockOffset ← int (2 * blockSize + i * groupDescSize)
      let g ← imgRead f.groupDesc blockOffset 0
      .ok [g] : Except Stop (List GroupDesc)) = [f.groupDesc (2048 + 32 * i)] := by
    intro i hi
    rw [(hread i _).mpr ⟨h i (List.mem_range.mp hi), rfl⟩, finds_ok]
  rw [List.flatMap_congr hfinds, List.map_eq_flatMap]

/-- One group more than there are is read exactly where the first data block is block 1 and
the blocks behind it fill whole groups. -/
lemma count_eq_iff {first blocks per : ℕ} (hper : 0 < per) (hfirst : first = 0 ∨ first = 1)
    (hless : first < blocks) :
    1 + (blocks - 1) / per = (blocks - first) ⌈/⌉ per ↔ first = 0 ∨ ¬ per ∣ blocks - 1 := by
  rw [Nat.ceilDiv_eq_add_pred_div]
  rcases hfirst with rfl | rfl
  · have : blocks - 0 + per - 1 = blocks - 1 + per := by omega
    rw [this, Nat.add_div_right _ hper]
    simp [Nat.add_comm]
  · obtain ⟨m, rfl⟩ : ∃ m, blocks = m + 2 := ⟨blocks - 2, by omega⟩
    have hsum : m + 2 - 1 + per - 1 = m + per := by omega
    rw [hsum, Nat.add_div_right _ hper, Nat.add_one_sub_one, Nat.succ_div]
    split
    · next hdvd => simp [hdvd]
    · next hdvd => simp [hdvd, Nat.add_comm]

/-! ### The lines that are written -/

/-- What is left for a group, or as much of it as a group has. -/
def current (total per : ℤ) (i : ℕ) : ℤ := min per (total - i * per)

def currentBlocks (s : SuperBlock) : ℕ → ℤ :=
  current (toInt s.sBlocksCount) (toInt s.sBlocksPerGroup)

def currentInodes (s : SuperBlock) : ℕ → ℤ :=
  current (toInt s.sInodesCount) (toInt s.sInodesPerGroup)

def groupLine (s : SuperBlock) (g : GroupDesc × ℕ) : List UInt8 :=
  line ["GROUP".toList, decimal g.2, intText (currentBlocks s g.2), intText (currentInodes s g.2),
    decimal g.1.bgFreeBlocksCount.toNat, decimal g.1.bgFreeInodesCount.toNat,
    unsignedText g.1.bgBlockBitmap, unsignedText g.1.bgInodeBitmap, unsignedText g.1.bgInodeTable]

/-- What is left behind `i` groups. -/
def leftFrom (s : SuperBlock) (i : ℕ) (out : List UInt8) : GroupState :=
  ⟨toInt s.sBlocksCount - i * toInt s.sBlocksPerGroup,
    toInt s.sInodesCount - i * toInt s.sInodesPerGroup, out⟩

/-- The differences that are computed for a group fit into an `int`. -/
def LeftFits (s : SuperBlock) (i : ℕ) : Prop :=
  IsInt (toInt s.sBlocksCount - (i + 1 : ℕ) * toInt s.sBlocksPerGroup) ∧
    IsInt (toInt s.sInodesCount - (i + 1 : ℕ) * toInt s.sInodesPerGroup)

instance (s : SuperBlock) (i : ℕ) : Decidable (LeftFits s i) :=
  inferInstanceAs (Decidable (_ ∧ _))

lemma printGroupLine_eq_ok_iff {g : GroupDesc} {i : ℕ} {out : List UInt8} {st : GroupState} :
    printGroupLine s (leftFrom s i out) (g, i) = .ok st ↔
      LeftFits s i ∧ st = leftFrom s (i + 1) (out ++ groupLine s (g, i)) := by
  have hleft : ∀ total per : ℤ, total - i * per - per = total - (i + 1 : ℕ) * per := by
    intro total per
    rw [Nat.cast_add_one, add_one_mul, Int.sub_sub]
  have hmin : ∀ total per : ℤ, (if per ≤ total - i * per then per else total - i * per) =
      current total per i := fun _ _ => (min_def _ _).symm
  unfold printGroupLine leftFrom
  simp only [hleft, hmin, bind_eq_ok_iff, int_eq_ok_iff, Except.ok.injEq]
  unfold LeftFits
  constructor
  · rintro ⟨_, ⟨hblocks, rfl⟩, _, ⟨hinodes, rfl⟩, rfl⟩
    exact ⟨⟨hblocks, hinodes⟩, rfl⟩
  · rintro ⟨⟨hblocks, hinodes⟩, rfl⟩
    exact ⟨_, ⟨hblocks, rfl⟩, _, ⟨hinodes, rfl⟩, rfl⟩

lemma printGroupLines_eq_ok_iff {gs : List GroupDesc} {i : ℕ} {out : List UInt8}
    {st : GroupState} :
    (gs.zipIdx i).foldlM (printGroupLine s) (leftFrom s i out) = .ok st ↔
      (∀ k < gs.length, LeftFits s (i + k)) ∧
        st = leftFrom s (i + gs.length) (out ++ (gs.zipIdx i).flatMap (groupLine s)) := by
  induction gs generalizing i out with
  | nil =>
    change Except.ok _ = Except.ok st ↔ _
    simp [eq_comm]
  | cons g gs ih =>
    rw [List.zipIdx_cons, List.foldlM_cons, bind_eq_ok_iff]
    simp only [printGroupLine_eq_ok_iff, List.flatMap_cons]
    constructor
    · rintro ⟨_, ⟨hfits, rfl⟩, hrest⟩
      obtain ⟨hall, rfl⟩ := ih.mp hrest
      refine ⟨fun k hk => ?_, ?_⟩
      · cases k with
        | zero => exact hfits
        | succ k => exact Nat.add_right_comm i 1 k ▸ hall k (by simpa using hk)
      · rw [List.append_assoc, List.length_cons, Nat.add_assoc, Nat.add_comm 1]
    · rintro ⟨hall, rfl⟩
      refine ⟨_, ⟨hall 0 (by simp), rfl⟩, ih.mpr ⟨fun k hk => ?_, ?_⟩⟩
      · have := hall (k + 1) (by simpa using hk)
        rwa [Nat.add_assoc, Nat.add_comm 1]
      · rw [List.append_assoc, List.length_cons, Nat.add_assoc, Nat.add_comm 1]

/-- **The lines of the groups** are written as long as the differences fit into an `int`. -/
theorem printGroup_eq_ok_iff {out : List UInt8} :
    printGroup img = .ok out ↔ (∀ i < img.group.length, LeftFits img.sblock i) ∧
      out = img.group.zipIdx.flatMap (groupLine img.sblock) := by
  have hstart : (⟨toInt img.sblock.sBlocksCount, toInt img.sblock.sInodesCount, []⟩ :
      GroupState) = leftFrom img.sblock 0 [] := by simp [leftFrom]
  unfold printGroup
  rw [hstart, bind_eq_ok_iff]
  simp only [printGroupLines_eq_ok_iff, Nat.zero_add, List.nil_append, Except.ok.injEq]
  constructor
  · rintro ⟨_, ⟨hall, rfl⟩, rfl⟩
    exact ⟨hall, rfl⟩
  · rintro ⟨hall, rfl⟩
    exact ⟨_, ⟨hall, rfl⟩, rfl⟩

/-! ### All groups of an image -/

/-- The groups read and written are those of the file system. If the inodes fill them, every
group has blocks and inodes, and all inodes are in one of them. -/
structure Grouped (f : ImageFile) (group : List GroupDesc) : Prop where
  read : readGroup f (f.superBlock 1024) = .ok group
  length : group.length = groupCount f
  written : ∀ img : Image, img.sblock = f.superBlock 1024 → img.group = group →
    printGroup img = .ok (group.zipIdx.flatMap (groupLine (f.superBlock 1024)))
  positive : (f.superBlock 1024).sInodesCount.toNat =
      groupCount f * (f.superBlock 1024).sInodesPerGroup.toNat → ∀ i < group.length,
    0 < currentBlocks (f.superBlock 1024) i ∧ 0 < currentInodes (f.superBlock 1024) i
  sum : (f.superBlock 1024).sInodesCount.toNat =
      groupCount f * (f.superBlock 1024).sInodesPerGroup.toNat →
    ((List.range group.length).map (currentInodes (f.superBlock 1024))).sum =
      (f.superBlock 1024).sInodesCount.toNat

/-- The first group begins with block 0, or the blocks behind block 0 do not fill whole
groups; and all that is computed fits into an `int`. -/
structure Countable (f : ImageFile) : Prop where
  first : (sFirstDataBlock f).toNat = 0 ∨
    ¬ (f.superBlock 1024).sBlocksPerGroup.toNat ∣ (f.superBlock 1024).sBlocksCount.toNat - 1
  table : ∀ i < groupCount f, 2048 + 32 * i < 2 ^ 31
  left : ∀ i < groupCount f, LeftFits (f.superBlock 1024) i
  full : (f.superBlock 1024).sInodesCount.toNat =
      groupCount f * (f.superBlock 1024).sInodesPerGroup.toNat →
    0 < (f.superBlock 1024).sInodesPerGroup.toNat ∧
      (f.superBlock 1024).sInodesCount.toNat < 2 ^ 31 ∧
      (f.superBlock 1024).sBlocksPerGroup.toNat < 2 ^ 31

/-- Groups that are filled have all the inodes of a group. -/
lemma current_of_full {per i : ℕ} (hi : i < n) : current ((n * per : ℕ) : ℤ) per i = per := by
  have hle : (i + 1) * per ≤ n * per := Nat.mul_le_mul_right per hi
  rw [Nat.add_one_mul] at hle
  unfold current
  refine min_eq_left ?_
  push_cast
  have : ((i * per + per : ℕ) : ℤ) ≤ ((n * per : ℕ) : ℤ) := by exact_mod_cast hle
  push_cast at this
  omega

lemma currentInodes_of_full {i : ℕ} (hfull : s.sInodesCount.toNat = n * s.sInodesPerGroup.toNat)
    (hpos : 0 < n) (hsmall : s.sInodesCount.toNat < 2 ^ 31) (hi : i < n) :
    currentInodes s i = s.sInodesPerGroup.toNat := by
  have hper : s.sInodesPerGroup.toNat ≤ s.sInodesCount.toNat :=
    hfull ▸ Nat.le_mul_of_pos_left _ hpos
  unfold currentInodes
  rw [toInt_of_lt hsmall, toInt_of_lt (by omega), hfull]
  exact current_of_full hi

/-- The groups that are counted all have a block. -/
lemma current_pos {total per i : ℕ} (hper : 0 < per) (htotal : 0 < total)
    (hi : i ≤ (total - 1) / per) : 0 < current (total : ℤ) per i := by
  have hle : i * per ≤ total - 1 := (Nat.le_div_iff_mul_le hper).mp hi
  unfold current
  refine lt_min (by omega) ?_
  have : ((i * per : ℕ) : ℤ) < total := by omega
  push_cast at this
  omega

lemma Grouped.first_group {group : List GroupDesc} (h : Grouped f group)
    (hpos : 0 < groupCount f) (hfull : (f.superBlock 1024).sInodesCount.toNat =
      groupCount f * (f.superBlock 1024).sInodesPerGroup.toNat) :
    0 < (f.superBlock 1024).sInodesPerGroup.toNat ∧
      (f.superBlock 1024).sInodesCount.toNat < 2 ^ 31 ∧
      (f.superBlock 1024).sBlocksPerGroup.toNat < 2 ^ 31 := by
  obtain ⟨hblocks, hinodes⟩ := h.positive hfull 0 (by rw [h.length]; exact hpos)
  unfold currentBlocks currentInodes current at *
  rw [lt_min_iff] at hblocks hinodes
  rw [Nat.cast_zero, zero_mul, sub_zero] at hblocks hinodes
  exact ⟨(toInt_pos_iff.mp hinodes.1).1, (toInt_pos_iff.mp hinodes.2).2,
    (toInt_pos_iff.mp hblocks.1).2⟩

/-- **The groups are those of the file system** exactly if the first data block is block 0 or
the blocks behind it do not come out even, and nothing computed leaves the range of `int`. -/
theorem grouped_iff_countable (hper : 0 < (f.superBlock 1024).sBlocksPerGroup.toNat)
    (hfirst : (sFirstDataBlock f).toNat = 0 ∨ (sFirstDataBlock f).toNat = 1)
    (hless : (sFirstDataBlock f).toNat < (f.superBlock 1024).sBlocksCount.toNat)
    (hsmall : (f.superBlock 1024).sBlocksCount.toNat < 2 ^ 31) :
    (∃ group, Grouped f group) ↔ Countable f := by
  have hblocks : 0 < (f.superBlock 1024).sBlocksCount.toNat := by omega
  have hcount := numGroups_eq hper hblocks hsmall
  have hiff := count_eq_iff hper hfirst hless
  have hpos : 0 < groupCount f := by
    rw [Nat.pos_iff_ne_zero]
    intro hzero
    have hle := (ceilDiv_le_iff_le_mul hper).mp (le_of_eq hzero)
    omega
  constructor
  · rintro ⟨group, h⟩
    obtain ⟨htable, hgroup⟩ := (readGroup_eq_ok_iff hcount).mp h.read
    have hlength : group.length = 1 + ((f.superBlock 1024).sBlocksCount.toNat - 1) /
        (f.superBlock 1024).sBlocksPerGroup.toNat := by rw [hgroup]; simp
    have heq := hlength.symm.trans h.length
    have hwritten := h.written ⟨f.superBlock 1024, group, [], [], [], [], []⟩ rfl rfl
    rw [heq] at htable
    refine ⟨hiff.mp heq, htable, ?_, h.first_group hpos⟩
    rw [← h.length]
    exact (printGroup_eq_ok_iff.mp hwritten).1
  · intro h
    have heq : _ = groupCount f := hiff.mpr h.first
    rw [heq] at hcount
    have hlength : ((List.range (groupCount f)).map fun i =>
        f.groupDesc (2048 + 32 * i)).length = groupCount f := by simp
    refine ⟨_, (readGroup_eq_ok_iff hcount).mpr ⟨h.table, rfl⟩, hlength, ?_, ?_, ?_⟩
    · intro img hs hg
      refine printGroup_eq_ok_iff.mpr ⟨?_, by rw [hs, hg]⟩
      rw [hs, hg, hlength]
      exact h.left
    · intro hfull i hi
      obtain ⟨hper', hinodes, hblocksPer⟩ := h.full hfull
      rw [hlength] at hi
      have hle : i ≤ ((f.superBlock 1024).sBlocksCount.toNat - 1) /
          (f.superBlock 1024).sBlocksPerGroup.toNat := by omega
      unfold currentBlocks
      rw [toInt_of_lt hsmall, toInt_of_lt hblocksPer, currentInodes_of_full hfull hpos hinodes hi]
      exact ⟨current_pos hper hblocks hle, by omega⟩
    · intro hfull
      obtain ⟨-, hinodes, -⟩ := h.full hfull
      rw [hlength, List.map_congr_left fun i hi =>
        currentInodes_of_full hfull hpos hinodes (List.mem_range.mp hi)]
      rw [List.map_const', List.sum_replicate, List.length_range, hfull, nsmul_eq_mul,
        Nat.cast_mul]

/-- A file system with block 1 as its first data block, groups of 8192 blocks, and `extra`
blocks more than one of them. Its inodes fill one group. -/
def evenGroups (extra : UInt8) : ImageFile :=
  .ofCells 3072 [(1024, 8), (1028, extra), (1029, 32), (1044, 1), (1057, 32), (1064, 8),
    (1080, 0x53), (1081, 0xEF), (2048, 3), (2052, 4), (2056, 5)]

/-- Behind block 0 there is just one group, but two are read. -/
theorem evenGroups_miscounted :
    0 < ((evenGroups 1).superBlock 1024).sBlocksPerGroup.toNat ∧
    (sFirstDataBlock (evenGroups 1)).toNat = 1 ∧
    ((evenGroups 1).superBlock 1024).sBlocksCount.toNat = 8193 ∧
    groupCount (evenGroups 1) = 1 ∧
    readGroup (evenGroups 1) ((evenGroups 1).superBlock 1024) =
      .ok [(evenGroups 1).groupDesc 2048, (evenGroups 1).groupDesc 2080] ∧
    ¬ ∃ group, Grouped (evenGroups 1) group := by
  have hread : readGroup (evenGroups 1) ((evenGroups 1).superBlock 1024) =
      .ok [(evenGroups 1).groupDesc 2048, (evenGroups 1).groupDesc 2080] := by decide +kernel
  have hcount : groupCount (evenGroups 1) = 1 := by decide +kernel
  refine ⟨by decide +kernel, by decide +kernel, by decide +kernel, hcount, hread, ?_⟩
  rintro ⟨group, h⟩
  obtain rfl := Except.ok.inj (hread.symm.trans h.read)
  exact absurd (h.length.trans hcount) (by decide)

/-- With one block less the group is counted once. -/
theorem grouped_iff_countable_evenGroups : ∃ group, Grouped (evenGroups 0) group := by
  have hinodes : ((evenGroups 0).superBlock 1024).sInodesCount.toNat = 8 ∧
      ((evenGroups 0).superBlock 1024).sInodesPerGroup.toNat = 8 ∧
      ((evenGroups 0).superBlock 1024).sBlocksPerGroup.toNat = 8192 := by decide +kernel
  have hcount : groupCount (evenGroups 0) = 1 := by decide +kernel
  refine (grouped_iff_countable (by decide +kernel) (by decide +kernel) (by decide +kernel)
    (by decide +kernel)).mpr ⟨by decide +kernel, ?_, ?_, by omega⟩
  · rw [hcount]
    omega
  · rw [hcount]
    intro i hi
    obtain rfl : i = 0 := by omega
    decide +kernel

end LowLevelTasks.GroupCount
