import LowLevelTasks.InodeTable

/-!
The scan of indirect blocks. A pointer block holds 256 pointers, and the blocks below it are
scanned depth first, with one counter for the logical offset that moves by one in every slot
of every level. The three blocks of an inode are scanned whether the inode has them or not.
-/

namespace LowLevelTasks.IndirectBlocks

open LowLevelTasks.ImgReader LowLevelTasks.InodeTable LowLevelTasks.Loops

variable (f : ImageFile)

/-- One slot of a pointer block. The pointers are compared as `int`, so that those from
`2 ^ 31` on count as negative; the counters stay far below that. -/
def slotRound (descend : UInt32 → ℕ → Except Stop (List Indirect)) (level : ℕ) (root : UInt32)
    (inode : ℤ) (logical k : ℕ) : Except Stop (List Indirect) := do
  let blockOffset ← setBlock (toInt root)
  let block ← imgRead f.u32 blockOffset (4 * k : ℕ)
  if 0 < toInt block then do
    let below ← descend block (logical + k)
    .ok (⟨.ofInt inode, .ofNat level, .ofNat (logical + k), root, block⟩ :: below)
  else .ok []

/-- Where the counter starts if it has not been started yet. -/
def startLogical (level logical : ℕ) : ℕ :=
  if logical = 0 then
    (if level = 3 then 256 * 256 + 256 else if level = 2 then 256 else 0) + 12
  else logical

def scanPointers (descend : UInt32 → ℕ → Except Stop (List Indirect)) (level : ℕ)
    (root : UInt32) (inode : ℤ) (logical : ℕ) : Except Stop (List Indirect) :=
  collect (slotRound f descend level root inode (startLogical level logical)) (List.range 256)

/-- Only levels above one have pointer blocks below them. -/
def indirectRecursive (inode : ℤ) : ℕ → UInt32 → ℕ → Except Stop (List Indirect)
  | level + 2, block, logical =>
    scanPointers f (indirectRecursive inode (level + 1)) (level + 2) block inode logical
  | level, block, logical => scanPointers f (fun _ _ => .ok []) level block inode logical

/-- The last three pointers of an inode, with the levels of the blocks they stand for. -/
def topBlocks (x : Inode) : List (ℕ × UInt32) :=
  [(1, x.iBlock[12]), (2, x.iBlock[13]), (3, x.iBlock[14])]

def inodeIndirect (x : NumberedInode) : Except Stop (List Indirect) :=
  collect (fun top => indirectRecursive f x.inodeNum top.1 top.2 0) (topBlocks x.inode)

def readIndirect (inodes : List NumberedInode) : Except Stop (List Indirect) :=
  collect (inodeIndirect f) inodes

/-! ### What a scan records -/

/-- A pointer of a block. -/
def pointer (root : UInt32) (k : ℕ) : UInt32 := f.u32 (blockAddress root + 4 * k)

/-- The records of the blocks below a pointer block, with the counter of the code. -/
def records (inode : ℤ) : ℕ → UInt32 → ℕ → List Indirect
  | level + 2, root, logical => (List.range 256).flatMap fun k =>
    if 0 < toInt (pointer f root k) then
      ⟨.ofInt inode, .ofNat (level + 2), .ofNat (logical + k), root, pointer f root k⟩ ::
        records inode (level + 1) (pointer f root k) (logical + k)
    else []
  | level, root, logical => (List.range 256).flatMap fun k =>
    if 0 < toInt (pointer f root k) then
      [⟨.ofInt inode, .ofNat level, .ofNat (logical + k), root, pointer f root k⟩]
    else []

/-- All pointer blocks that the scan descends to lie in range. -/
def TreeInRange : ℕ → UInt32 → Prop
  | level + 2, root => blockAddress root < 2 ^ 31 ∧
    ∀ k < 256, 0 < toInt (pointer f root k) → TreeInRange (level + 1) (pointer f root k)
  | _, root => blockAddress root < 2 ^ 31

variable {f} {inode : ℤ} {level logical k : ℕ} {root : UInt32}
  {descend : UInt32 → ℕ → Except Stop (List Indirect)}

lemma TreeInRange.blockAddress_lt (h : TreeInRange f level root) :
    blockAddress root < 2 ^ 31 := by
  unfold TreeInRange at h
  split at h
  · exact h.1
  · exact h

lemma slotRound_eq (h : blockAddress root < 2 ^ 31) (hk : k < 256) :
    slotRound f descend level root inode logical k =
      if 0 < toInt (pointer f root k) then do
        let below ← descend (pointer f root k) (logical + k)
        .ok (⟨.ofInt inode, .ofNat level, .ofNat (logical + k), root, pointer f root k⟩ :: below)
      else .ok [] := by
  have hread : imgRead f.u32 (blockAddress root : ℤ) (4 * k : ℕ) = .ok (pointer f root k) :=
    imgRead_ok (a := blockAddress root + 4 * k) (by rw [Nat.cast_add])
      (blockAddress_add_lt h (by omega))
  unfold slotRound
  rw [setBlock_ok h, ok_bind, hread, ok_bind]

/-- A scan succeeds if the block lies in range and the scans below succeed. -/
lemma scanPointers_ok (below : UInt32 → ℕ → List Indirect) (hlogical : 0 < logical)
    (h : blockAddress root < 2 ^ 31)
    (hdescend : ∀ k < 256, 0 < toInt (pointer f root k) →
      descend (pointer f root k) (logical + k) = .ok (below (pointer f root k) (logical + k))) :
    scanPointers f descend level root inode logical = .ok ((List.range 256).flatMap fun k =>
      if 0 < toInt (pointer f root k) then
        ⟨.ofInt inode, .ofNat level, .ofNat (logical + k), root, pointer f root k⟩ ::
          below (pointer f root k) (logical + k)
      else []) := by
  have hstart : startLogical level logical = logical := if_neg hlogical.ne'
  unfold scanPointers
  rw [hstart]
  refine collect_ok fun k hk => ?_
  rw [List.mem_range] at hk
  rw [slotRound_eq h hk]
  by_cases hpos : 0 < toInt (pointer f root k)
  · rw [if_pos hpos, if_pos hpos, hdescend k hk hpos, ok_bind]
  · rw [if_neg hpos, if_neg hpos]

/-- A block without pointers. -/
lemma indirectRecursive_of_zero (h : blockAddress root < 2 ^ 31)
    (hzero : ∀ k < 256, pointer f root k = 0) :
    indirectRecursive f inode level root logical = .ok [] := by
  have hscan : ∀ descend, scanPointers f descend level root inode logical = .ok [] := by
    intro descend
    have hround : ∀ k ∈ List.range 256,
        slotRound f descend level root inode (startLogical level logical) k = .ok [] := by
      intro k hk
      rw [List.mem_range] at hk
      rw [slotRound_eq h hk, hzero k hk]
      rfl
    unfold scanPointers
    rw [collect_ok hround]
    simp
  unfold indirectRecursive
  split <;> exact hscan _

lemma pointer_ofCells_eq_zero {size : ℕ} {cells : List (ℕ × UInt8)}
    (h : ∀ c ∈ cells, c.1 < blockAddress root ∨ blockAddress root + 1024 ≤ c.1) (hk : k < 256) :
    pointer (.ofCells size cells) root k = 0 := by
  have hbyte : ∀ i < 4,
      (ImageFile.ofCells size cells).byte (blockAddress root + 4 * k + i) = 0 := by
    intro i hi
    refine ImageFile.byte_ofCells_eq_zero fun c hc => ?_
    rcases h c hc with hc | hc <;> omega
  have h0 := hbyte 0 (by omega)
  rw [Nat.add_zero] at h0
  unfold pointer ImageFile.u32
  rw [h0, hbyte 1 (by omega), hbyte 2 (by omega), hbyte 3 (by omega)]
  rfl

/-- An inode whose last pointers lead to blocks without pointers. -/
lemma inodeIndirect_ofCells {size : ℕ} {cells : List (ℕ × UInt8)} {x : NumberedInode}
    (h : ∀ top ∈ topBlocks x.inode, blockAddress top.2 < 2 ^ 31 ∧
      ∀ c ∈ cells, c.1 < blockAddress top.2 ∨ blockAddress top.2 + 1024 ≤ c.1) :
    inodeIndirect (.ofCells size cells) x = .ok [] := by
  have htop : ∀ top ∈ topBlocks x.inode,
      indirectRecursive (.ofCells size cells) x.inodeNum top.1 top.2 0 = .ok [] := fun top hmem =>
    indirectRecursive_of_zero (h top hmem).1 fun k hk => pointer_ofCells_eq_zero (h top hmem).2 hk
  unfold inodeIndirect
  rw [collect_ok htop]
  simp

lemma scanPointers_inv {out : List Indirect} (hlogical : 0 < logical)
    (h : scanPointers f descend level root inode logical = .ok out) :
    blockAddress root < 2 ^ 31 ∧ ∀ k < 256, 0 < toInt (pointer f root k) →
      ∃ below, descend (pointer f root k) (logical + k) = .ok below := by
  have hstart : startLogical level logical = logical := if_neg hlogical.ne'
  unfold scanPointers at h
  rw [hstart] at h
  have hround := fun k (hk : k < 256) => exists_of_collect h (List.mem_range.mpr hk)
  have haddr : blockAddress root < 2 ^ 31 := by
    by_contra hnot
    obtain ⟨found, hfound⟩ := hround 0 (by omega)
    have herror : slotRound f descend level root inode logical 0 = .error (blockError root) :=
      setBlock_error (not_lt.mp hnot)
    cases herror.symm.trans hfound
  refine ⟨haddr, fun k hk hpos => ?_⟩
  obtain ⟨found, hfound⟩ := hround k hk
  rw [slotRound_eq haddr hk, if_pos hpos] at hfound
  obtain ⟨below, hbelow, -⟩ := bind_eq_ok_iff.mp hfound
  exact ⟨below, hbelow⟩

/-- **The scan of a pointer block** records what is below it, if that lies in range. -/
theorem indirectRecursive_ok (h : TreeInRange f level root) (hlogical : 0 < logical) :
    indirectRecursive f inode level root logical = .ok (records f inode level root logical) := by
  induction level using Nat.twoStepInduction generalizing root logical with
  | zero => exact scanPointers_ok (fun _ _ => []) hlogical h fun _ _ _ => rfl
  | one => exact scanPointers_ok (fun _ _ => []) hlogical h fun _ _ _ => rfl
  | more level _ ih =>
    exact scanPointers_ok _ hlogical h.1 fun k hk hpos => ih (h.2 k hk hpos) (by omega)

theorem treeInRange_of_ok {out : List Indirect} (hlogical : 0 < logical)
    (h : indirectRecursive f inode level root logical = .ok out) : TreeInRange f level root := by
  induction level using Nat.twoStepInduction generalizing root logical out with
  | zero => exact (scanPointers_inv hlogical h).1
  | one => exact (scanPointers_inv hlogical h).1
  | more level _ ih =>
    obtain ⟨haddr, hbelow⟩ := scanPointers_inv hlogical h
    refine ⟨haddr, fun k hk hpos => ?_⟩
    obtain ⟨below, hk⟩ := hbelow k hk hpos
    exact ih (by omega) hk

lemma startLogical_pos : 0 < startLogical level 0 := by
  unfold startLogical
  split <;> omega

/-- The calls for an inode start the counter. -/
lemma indirectRecursive_zero : indirectRecursive f inode level root 0 =
    indirectRecursive f inode level root (startLogical level 0) := by
  have hstart : startLogical level (startLogical level 0) = startLogical level 0 :=
    if_neg startLogical_pos.ne'
  have hscan : ∀ d : UInt32 → ℕ → Except Stop (List Indirect),
      scanPointers f d level root inode 0 =
        scanPointers f d level root inode (startLogical level 0) := fun d => by
    unfold scanPointers
    rw [hstart]
  unfold indirectRecursive
  split <;> exact hscan _

/-! ### Logical offsets -/

variable (f) in
/-- The records of the blocks below a pointer block, each with the first data block it
covers: a slot of a block of this level covers `256 ^ (level - 1)` data blocks. -/
def covered (inode : ℤ) : ℕ → UInt32 → ℕ → List Indirect
  | level + 2, root, first => (List.range 256).flatMap fun k =>
    if 0 < toInt (pointer f root k) then
      ⟨.ofInt inode, .ofNat (level + 2), .ofNat (first + k * 256 ^ (level + 1)), root,
        pointer f root k⟩ ::
          covered inode (level + 1) (pointer f root k) (first + k * 256 ^ (level + 1))
    else []
  | level, root, first => (List.range 256).flatMap fun k =>
    if 0 < toInt (pointer f root k) then
      [⟨.ofInt inode, .ofNat level, .ofNat (first + k), root, pointer f root k⟩]
    else []

/-- The first data block below each of the three indirect blocks of an inode. -/
def firstCovered : ℕ → ℕ
  | 1 => 12
  | 2 => 268
  | _ => 65804

variable (f) in
/-- The pointer blocks of the upper levels have a pointer in their first slot only. -/
def FirstSlotOnly : ℕ → UInt32 → Prop
  | level + 2, root => blockAddress root < 2 ^ 31 ∧
    ∀ k < 256, 0 < toInt (pointer f root k) →
      k = 0 ∧ FirstSlotOnly (level + 1) (pointer f root k)
  | _, root => blockAddress root < 2 ^ 31

lemma flatMap_eq_iff {α β : Type} {l : List α} {g h : α → List β}
    (hlength : ∀ a ∈ l, (g a).length = (h a).length) :
    l.flatMap g = l.flatMap h ↔ ∀ a ∈ l, g a = h a := by
  induction l with
  | nil => simp
  | cons a l ih =>
    rw [List.forall_mem_cons] at hlength ⊢
    rw [List.flatMap_cons, List.flatMap_cons, ← ih hlength.2]
    refine ⟨fun heq => List.append_inj heq hlength.1, fun heq => ?_⟩
    rw [heq.1, heq.2]

lemma length_records (a b : ℕ) :
    (records f inode level root a).length = (covered f inode level root b).length := by
  induction level using Nat.twoStepInduction generalizing root a b with
  | zero | one =>
    unfold records covered
    rw [List.length_flatMap, List.length_flatMap]
    refine congrArg List.sum (List.map_congr_left fun k _ => ?_)
    split <;> rfl
  | more level _ ih =>
    unfold records covered
    rw [List.length_flatMap, List.length_flatMap]
    refine congrArg List.sum (List.map_congr_left fun k _ => ?_)
    split
    · rw [List.length_cons, List.length_cons, ih]
    · rfl

lemma ofNat_inj {a b : ℕ} (ha : a < 2 ^ 32) (hb : b < 2 ^ 32)
    (h : UInt32.ofNat a = UInt32.ofNat b) : a = b := by
  have := congrArg UInt32.toNat h
  rwa [UInt32.toNat_ofNat_of_lt' ha, UInt32.toNat_ofNat_of_lt' hb] at this

/-- The counter of the code is right where no pointer stands behind a first slot. -/
lemma records_eq_covered_iff {first : ℕ} (hbound : first + 256 ^ level ≤ 2 ^ 32)
    (htree : TreeInRange f level root) :
    records f inode level root first = covered f inode level root first ↔
      FirstSlotOnly f level root := by
  induction level using Nat.twoStepInduction generalizing root first with
  | zero | one => exact iff_of_true rfl htree
  | more level _ ih =>
    unfold records covered FirstSlotOnly
    rw [flatMap_eq_iff fun k _ => ?_, and_iff_right htree.1]
    · simp only [List.mem_range]
      refine forall_congr' fun k => forall_congr' fun hk => ?_
      by_cases hpos : 0 < toInt (pointer f root k)
      · rw [if_pos hpos, if_pos hpos]
        have htwo : 2 ≤ 256 ^ (level + 1) :=
          le_trans (by decide) (Nat.le_self_pow (by omega) 256)
        have hle : k * 2 ≤ k * 256 ^ (level + 1) := Nat.mul_le_mul_left k htwo
        have hlt : k * 256 ^ (level + 1) < 256 ^ (level + 2) := by
          rw [pow_succ _ (level + 1), mul_comm]
          exact Nat.mul_lt_mul_of_pos_left hk (by omega)
        have hchild := htree.2 k hk hpos
        have hbelow : first + 256 ^ (level + 1) ≤ 2 ^ 32 :=
          le_trans (Nat.add_le_add_left (Nat.pow_le_pow_right (by omega) (by omega)) _) hbound
        constructor
        · intro heq _
          obtain ⟨hhead, htail⟩ := List.cons.inj heq
          have hoffset := ofNat_inj (by omega) (by omega) (congrArg Indirect.blockOffset hhead)
          obtain rfl : k = 0 := by omega
          rw [Nat.zero_mul, Nat.add_zero] at htail
          exact ⟨rfl, (ih hbelow hchild).mp htail⟩
        · intro h
          obtain ⟨rfl, hslots⟩ := h hpos
          rw [Nat.zero_mul]
          exact congrArg _ ((ih hbelow hchild).mpr hslots)
      · simp [hpos]
    · split
      · rw [List.length_cons, List.length_cons, length_records]
      · rfl

lemma FirstSlotOnly.treeInRange (h : FirstSlotOnly f level root) : TreeInRange f level root := by
  induction level using Nat.twoStepInduction generalizing root with
  | zero | one => exact h
  | more level _ ih => exact ⟨h.1, fun k hk hpos => ih (h.2 k hk hpos).2⟩

/-- **The logical offsets are right** below the three indirect blocks of an inode exactly if
the upper levels use their first slots only. -/
theorem indirect_offsets_iff (j : Fin 3) :
    indirectRecursive f inode (j + 1) root 0 =
      .ok (covered f inode (j + 1) root (firstCovered (j + 1))) ↔
    FirstSlotOnly f (j + 1) root := by
  have hstart : startLogical (j + 1) 0 = firstCovered (j + 1) := by
    revert j
    decide
  have hpos : 0 < firstCovered (j + 1) := by
    revert j
    decide
  have hbound : firstCovered (j + 1) + 256 ^ (j.val + 1) ≤ 2 ^ 32 := by
    revert j
    decide
  rw [indirectRecursive_zero, hstart]
  constructor
  · intro h
    have htree := treeInRange_of_ok hpos h
    rw [indirectRecursive_ok htree hpos, Except.ok.injEq] at h
    exact (records_eq_covered_iff hbound htree).mp h
  · intro h
    rw [indirectRecursive_ok h.treeInRange hpos,
      (records_eq_covered_iff hbound h.treeInRange).mpr h]

/-- The second slot of a double indirect block is in use. It names a block behind the end. -/
def secondSlot : ImageFile :=
  .ofCells 8192 [(1024, 8), (1028, 8), (1056, 8), (1064, 8), (1080, 0x53), (1081, 0xEF),
    (2048, 3), (2052, 4), (2056, 5), (5376, 0xA4), (5377, 0x81), (5402, 1), (5468, 6),
    (6148, 9)]

theorem secondSlot_misplaced :
    readInode secondSlot (secondSlot.superBlock 1024) [secondSlot.groupDesc 2048] =
      .ok [⟨3, secondSlot.inode 5376⟩] ∧ (secondSlot.inode 5376).iBlock[13] = 6 ∧
    indirectRecursive secondSlot 3 2 6 0 = .ok [⟨3, 2, 269, 6, 9⟩] ∧
    ¬ indirectRecursive secondSlot 3 2 6 0 = .ok (covered secondSlot 3 2 6 268) := by
  decide +kernel

end LowLevelTasks.IndirectBlocks
