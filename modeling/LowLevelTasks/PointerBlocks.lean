import LowLevelTasks.IndirectBlocks

/-!
Which pointer blocks the records of an inode come from. The pointer blocks of an inode are
those it points to and those that these point to. The scan keeps to them only if it has none
of the three blocks to leave out, or finds nothing in block 0.
-/

namespace LowLevelTasks.PointerBlocks

open LowLevelTasks.ImgReader LowLevelTasks.InodeTable LowLevelTasks.Loops
  LowLevelTasks.IndirectBlocks

/-- The pointer blocks of an inode, with their levels. -/
inductive PointerBlock (f : ImageFile) (x : Inode) : ℕ → UInt32 → Prop
  | top {level : ℕ} {root : UInt32} (hmem : (level, root) ∈ topBlocks x) (hne : root ≠ 0) :
    PointerBlock f x level root
  | child {level : ℕ} {root : UInt32} {k : ℕ} (hroot : PointerBlock f x (level + 2) root)
    (hk : k < 256) (hne : pointer f root k ≠ 0) :
    PointerBlock f x (level + 1) (pointer f root k)

variable (f : ImageFile) (x : NumberedInode)

/-- A pointer block of the inode holds the pointer. -/
def Stored (level : ℕ) (root ref : UInt32) : Prop :=
  PointerBlock f x.inode level root ∧ ref ≠ 0 ∧ ∃ k < 256, pointer f root k = ref

/-- An inode that leaves a block out finds no pointer in block 0, and all its pointer blocks
and the pointers in them are in range. -/
def OwnBlocksOnly : Prop :=
  ((∃ level, (level, 0) ∈ topBlocks x.inode) → ∀ k < 256, ¬ 0 < toInt (pointer f 0 k)) ∧
    ∀ level root, PointerBlock f x.inode level root →
      blockAddress root < 2 ^ 31 ∧ ∀ k < 256, (pointer f root k).toNat < 2 ^ 31

variable {f x} {level logical k : ℕ} {root ref : UInt32} {inode : ℤ}

lemma pos_iff {b : UInt32} : 0 < toInt b ↔ b ≠ 0 ∧ b.toNat < 2 ^ 31 := by
  rw [toInt_pos_iff, Nat.pos_iff_ne_zero, ne_eq, ← UInt32.toNat_zero, UInt32.toNat_inj]

lemma level_of_mem_topBlocks {y : Inode} (h : (level, root) ∈ topBlocks y) :
    1 ≤ level ∧ level ≤ 3 := by
  simp only [topBlocks, List.mem_cons, Prod.mk.injEq, List.not_mem_nil, or_false] at h
  omega

lemma toNat_ofNat_level (h : level ≤ 3) : (UInt16.ofNat level).toNat = level :=
  UInt16.toNat_ofNat_of_lt' (by unfold UInt16.size; omega)

lemma PointerBlock.level_le {y : Inode} (h : PointerBlock f y level root) :
    1 ≤ level ∧ level ≤ 3 := by
  induction h with
  | top hmem => exact level_of_mem_topBlocks hmem
  | child _ _ _ ih => omega

lemma PointerBlock.ne_zero {y : Inode} (h : PointerBlock f y level root) : root ≠ 0 := by
  cases h with
  | top _ hne => exact hne
  | child _ _ hne => exact hne

/-! ### The records of a scan -/

/-- A record is made for a slot of the block, or below one. -/
lemma mem_records_iff {r : Indirect} : r ∈ records f inode level root logical ↔
    ∃ k < 256, 0 < toInt (pointer f root k) ∧
      (r = ⟨.ofInt inode, .ofNat level, .ofNat (logical + k), root, pointer f root k⟩ ∨
        2 ≤ level ∧ r ∈ records f inode (level - 1) (pointer f root k) (logical + k)) := by
  match level with
  | 0 | 1 =>
    simp only [records, List.mem_flatMap, List.mem_range]
    refine exists_congr fun k => and_congr_right fun _ => ?_
    split <;> simp [*]
  | level + 2 =>
    simp only [records, List.mem_flatMap, List.mem_range]
    refine exists_congr fun k => and_congr_right fun _ => ?_
    split <;> simp [*]

lemma pos_of_mem_records {r : Indirect} (h : r ∈ records f inode level root logical) :
    0 < toInt r.referencedBlock := by
  induction level generalizing root logical with
  | zero =>
    obtain ⟨k, -, hpos, rfl | ⟨hlevel, -⟩⟩ := mem_records_iff.mp h
    · exact hpos
    · omega
  | succ level ih =>
    obtain ⟨k, -, hpos, rfl | ⟨-, hbelow⟩⟩ := mem_records_iff.mp h
    · exact hpos
    · exact ih hbelow

/-- A pointer block yields records of pointers that its inode has. -/
lemma stored_of_mem_records {r : Indirect} (hblock : PointerBlock f x.inode level root)
    (h : r ∈ records f inode level root logical) :
    r.inode = .ofInt inode ∧
      Stored f x r.indirectLevel.toNat r.indirectBlock r.referencedBlock := by
  induction level generalizing root logical with
  | zero => exact absurd hblock.level_le.1 (by omega)
  | succ level ih =>
    obtain ⟨k, hk, hpos, rfl | ⟨hlevel, hbelow⟩⟩ := mem_records_iff.mp h
    · refine ⟨rfl, ?_⟩
      simp only [toNat_ofNat_level hblock.level_le.2]
      exact ⟨hblock, (pos_iff.mp hpos).1, k, hk, rfl⟩
    · obtain ⟨level, rfl⟩ : ∃ m, level = m + 1 := ⟨level - 1, by omega⟩
      exact ih (.child hblock hk (pos_iff.mp hpos).1) hbelow

lemma indirectRecursive_eq_ok_iff {out : List Indirect} :
    indirectRecursive f inode level root 0 = .ok out ↔
      TreeInRange f level root ∧ out = records f inode level root (startLogical level 0) := by
  have hpos : 0 < startLogical level 0 := startLogical_pos
  rw [indirectRecursive_zero]
  constructor
  · intro h
    have htree := treeInRange_of_ok hpos h
    rw [indirectRecursive_ok htree hpos] at h
    exact ⟨htree, (Except.ok.inj h).symm⟩
  · rintro ⟨htree, rfl⟩
    exact indirectRecursive_ok htree hpos

lemma inodeIndirect_eq_ok_iff {out : List Indirect} : inodeIndirect f x = .ok out ↔
    (∀ top ∈ topBlocks x.inode, TreeInRange f top.1 top.2) ∧
      out = (topBlocks x.inode).flatMap fun top =>
        records f x.inodeNum top.1 top.2 (startLogical top.1 0) := by
  unfold inodeIndirect
  rw [collect_eq_ok_iff]
  simp only [indirectRecursive_eq_ok_iff, exists_and_left, exists_eq, and_true]
  refine and_congr_right fun h => ?_
  rw [List.flatMap_congr fun top htop => ?_]
  rw [indirectRecursive_eq_ok_iff.mpr ⟨h top htop, rfl⟩, finds_ok]

/-! ### Own blocks only -/

/-- A scan that keeps to blocks in range reads all of them. -/
lemma treeInRange_of_pointerBlock
    (h : ∀ level root, PointerBlock f x.inode level root → blockAddress root < 2 ^ 31)
    (hblock : PointerBlock f x.inode level root) : TreeInRange f level root := by
  induction level using Nat.twoStepInduction generalizing root with
  | zero | one => exact h _ root hblock
  | more level _ ih =>
    exact ⟨h _ root hblock, fun k hk hpos => ih (hblock.child hk (pos_iff.mp hpos).1)⟩

/-- The records of a pointer block of the inode are among those of the inode. -/
lemma exists_records_subset {out : List Indirect} (hout : inodeIndirect f x = .ok out)
    (hsmall : ∀ level root, PointerBlock f x.inode level root → ∀ k < 256,
      (pointer f root k).toNat < 2 ^ 31) (hblock : PointerBlock f x.inode level root) :
    ∃ logical, ∀ r ∈ records f x.inodeNum level root logical, r ∈ out := by
  induction hblock with
  | @top level root hmem _ =>
    obtain ⟨-, rfl⟩ := inodeIndirect_eq_ok_iff.mp hout
    exact ⟨_, fun r hr => List.mem_flatMap.mpr ⟨(level, root), hmem, hr⟩⟩
  | @child level root k hroot hk hne ih =>
    obtain ⟨logical, hsub⟩ := ih
    have hpos := pos_iff.mpr ⟨hne, hsmall _ _ hroot k hk⟩
    exact ⟨logical + k, fun r hr => hsub r (mem_records_iff.mpr
      ⟨k, hk, hpos, Or.inr ⟨by omega, hr⟩⟩)⟩

/-- A scan that comes to its end has read the pointer blocks of the inode. -/
lemma treeInRange_of_scanned (htop : ∀ top ∈ topBlocks x.inode, TreeInRange f top.1 top.2)
    (hsmall : ∀ level root, PointerBlock f x.inode level root → ∀ k < 256,
      (pointer f root k).toNat < 2 ^ 31) (hblock : PointerBlock f x.inode level root) :
    TreeInRange f level root := by
  induction hblock with
  | top hmem _ => exact htop _ hmem
  | child hroot hk hne ih => exact ih.2 _ hk (pos_iff.mpr ⟨hne, hsmall _ _ hroot _ hk⟩)

lemma treeInRange_zero (h : ∀ k < 256, ¬ 0 < toInt (pointer f 0 k)) : TreeInRange f level 0 := by
  match level with
  | 0 | 1 => exact Nat.two_pow_pos 31
  | level + 2 => exact ⟨Nat.two_pow_pos 31, fun k hk hpos => absurd hpos (h k hk)⟩

lemma mem_of_top {out : List Indirect} (hout : inodeIndirect f x = .ok out)
    (hmem : (level, root) ∈ topBlocks x.inode) (hk : k < 256)
    (hpos : 0 < toInt (pointer f root k)) :
    ∃ r ∈ out, r.indirectLevel.toNat = level ∧ r.indirectBlock = root ∧
      r.referencedBlock = pointer f root k := by
  obtain ⟨-, rfl⟩ := inodeIndirect_eq_ok_iff.mp hout
  exact ⟨_, List.mem_flatMap.mpr ⟨(level, root), hmem,
    mem_records_iff.mpr ⟨k, hk, hpos, Or.inl rfl⟩⟩,
      toNat_ofNat_level (level_of_mem_topBlocks hmem).2, rfl, rfl⟩

/-- **The records of an inode come from its own pointer blocks**, and from all of them,
exactly if block 0 has nothing to find or is not looked into. -/
theorem inodeIndirect_own_iff :
    (∃ out, inodeIndirect f x = .ok out ∧ (∀ r ∈ out, r.inode = .ofInt x.inodeNum) ∧
      ∀ level root ref, (∃ r ∈ out, r.indirectLevel.toNat = level ∧ r.indirectBlock = root ∧
        r.referencedBlock = ref) ↔ Stored f x level root ref) ↔
    OwnBlocksOnly f x := by
  constructor
  · rintro ⟨out, hout, -, hrecords⟩
    have hpos : ∀ r ∈ out, 0 < toInt r.referencedBlock := fun r hr => by
      obtain ⟨-, rfl⟩ := inodeIndirect_eq_ok_iff.mp hout
      obtain ⟨top, -, hr⟩ := List.mem_flatMap.mp hr
      exact pos_of_mem_records hr
    have hsmall : ∀ level root, PointerBlock f x.inode level root → ∀ k < 256,
        (pointer f root k).toNat < 2 ^ 31 := by
      intro level root hblock k hk
      by_cases hne : pointer f root k = 0
      · rw [hne]
        decide
      · obtain ⟨r, hr, -, -, href⟩ := (hrecords level root _).mpr ⟨hblock, hne, k, hk, rfl⟩
        exact (pos_iff.mp (href ▸ hpos r hr)).2
    refine ⟨?_, fun level root hblock => ⟨?_, hsmall level root hblock⟩⟩
    · rintro ⟨level, hmem⟩ k hk hpos
      have hstored := (hrecords level 0 (pointer f 0 k)).mp (mem_of_top hout hmem hk hpos)
      exact hstored.1.ne_zero rfl
    · have htop := (inodeIndirect_eq_ok_iff.mp hout).1
      exact (treeInRange_of_scanned htop hsmall hblock).blockAddress_lt
  · rintro ⟨hzero, hown⟩
    have haddr := fun level root h => (hown level root h).1
    have hsmall := fun level root h => (hown level root h).2
    have htree : ∀ top ∈ topBlocks x.inode, TreeInRange f top.1 top.2 := by
      rintro ⟨level, root⟩ hmem
      by_cases hne : root = 0
      · subst hne
        exact treeInRange_zero (hzero ⟨level, hmem⟩)
      · exact treeInRange_of_pointerBlock haddr (.top hmem hne)
    have hout := inodeIndirect_eq_ok_iff.mpr ⟨htree, rfl⟩
    have hown : ∀ r ∈ (topBlocks x.inode).flatMap fun top =>
        records f x.inodeNum top.1 top.2 (startLogical top.1 0), r.inode = .ofInt x.inodeNum ∧
          Stored f x r.indirectLevel.toNat r.indirectBlock r.referencedBlock := by
      intro r hr
      obtain ⟨⟨level, root⟩, hmem, hr⟩ := List.mem_flatMap.mp hr
      by_cases hne : root = 0
      · subst hne
        obtain ⟨k, hk, hpos, -⟩ := mem_records_iff.mp hr
        exact absurd hpos (hzero ⟨level, hmem⟩ k hk)
      · exact stored_of_mem_records (.top hmem hne) hr
    refine ⟨_, hout, fun r hr => (hown r hr).1, fun level root ref => ⟨?_, ?_⟩⟩
    · rintro ⟨r, hr, rfl, rfl, rfl⟩
      exact (hown r hr).2
    · rintro ⟨hblock, hne, k, hk, rfl⟩
      obtain ⟨logical, hsub⟩ := exists_records_subset hout hsmall hblock
      have hpos := pos_iff.mpr ⟨hne, hsmall _ _ hblock k hk⟩
      exact ⟨_, hsub _ (mem_records_iff.mpr ⟨k, hk, hpos, Or.inl rfl⟩),
        toNat_ofNat_level hblock.level_le.2, rfl, rfl⟩

/-- A boot block that is not empty, and an inode without indirect blocks. -/
def bootBlock : ImageFile :=
  .ofCells 8192 [(0, 9), (1024, 8), (1028, 8), (1056, 8), (1064, 8), (1080, 0x53), (1081, 0xEF),
    (2048, 3), (2052, 4), (2056, 5), (5376, 0xA4), (5377, 0x81), (5402, 1)]

theorem bootBlock_recorded :
    readInode bootBlock (bootBlock.superBlock 1024) [bootBlock.groupDesc 2048] =
      .ok [⟨3, bootBlock.inode 5376⟩] ∧
    topBlocks (bootBlock.inode 5376) = [(1, 0), (2, 0), (3, 0)] ∧
    inodeIndirect bootBlock ⟨3, bootBlock.inode 5376⟩ =
      .ok [⟨3, 1, 12, 0, 9⟩, ⟨3, 2, 268, 0, 9⟩, ⟨3, 3, 65804, 0, 9⟩] ∧
    ¬ ∃ out, inodeIndirect bootBlock ⟨3, bootBlock.inode 5376⟩ = .ok out ∧
      (∀ r ∈ out, r.inode = .ofInt 3) ∧
      ∀ level root ref, (∃ r ∈ out, r.indirectLevel.toNat = level ∧ r.indirectBlock = root ∧
        r.referencedBlock = ref) ↔
          Stored bootBlock ⟨3, bootBlock.inode 5376⟩ level root ref := by
  have hrun : inodeIndirect bootBlock ⟨3, bootBlock.inode 5376⟩ =
      .ok [⟨3, 1, 12, 0, 9⟩, ⟨3, 2, 268, 0, 9⟩, ⟨3, 3, 65804, 0, 9⟩] := by decide +kernel
  refine ⟨by decide +kernel, by decide +kernel, hrun, ?_⟩
  rintro ⟨out, hout, -, hrecords⟩
  obtain rfl := Except.ok.inj (hrun.symm.trans hout)
  have hstored := (hrecords 1 0 9).mp ⟨_, List.mem_cons_self, rfl, rfl, rfl⟩
  exact hstored.1.ne_zero rfl

end LowLevelTasks.PointerBlocks
