import LowLevelTasks.DirentLines
import LowLevelTasks.GroupCount
import Mathlib.Data.List.Perm.Basic

/-!
The records of a report, inode by inode. The writer goes through all scanned lists for each
number of an inode. With several groups the numbers come up again and again, in no order, but
every number recorded is that of an inode of the file system, and so each record has its turn
once.
-/

namespace LowLevelTasks.PrintedRecords

open List (Perm)
open LowLevelTasks.CsvWriter LowLevelTasks.DirectoryBlocks LowLevelTasks.DirentLines
  LowLevelTasks.FreeList LowLevelTasks.ImgReader LowLevelTasks.IndirectBlocks
  LowLevelTasks.InodeTable LowLevelTasks.Loops LowLevelTasks.RubyText LowLevelTasks.ScanImage

/-! ### Records with their numbers -/

/-- Taking the elements key by key neither loses nor duplicates one. -/
lemma perm_flatMap_filter {α : Type} {key : α → ℤ} {l : List α} {n : ℕ}
    (hkey : ∀ a ∈ l, 1 ≤ key a ∧ key a ≤ n) :
    ((List.range' 1 n).flatMap fun i : ℕ => l.filter (key · = i)).Perm l := by
  let sorted := l.mergeSort fun a b => decide (key a ≤ key b)
  have hperm : sorted.Perm l := List.mergeSort_perm _ _
  have hsorted : sorted.Pairwise fun a b => key a ≤ key b := by
    refine (List.pairwise_mergeSort ?_ ?_ l).imp of_decide_eq_true
    · intro a b c hab hbc
      exact decide_eq_true ((of_decide_eq_true hab).trans (of_decide_eq_true hbc))
    · intro a b
      rcases le_total (key a) (key b) with h | h <;> simp [h]
  have hall := flatMap_filter_key n hsorted fun a ha => hkey a (hperm.subset ha)
  have hgroups := Perm.flatMap_left (List.range' 1 n) fun i : ℕ => fun _ =>
    (hperm.filter (key · = i)).symm
  rw [hall] at hgroups
  exact hgroups.trans hperm

variable {f : ImageFile} {img : Image} {fuel : ℕ}

/-- What is scanned has numbers of inodes of the file system. -/
structure Numbered (img : Image) : Prop where
  inodes : ∀ x ∈ img.inodes, 1 ≤ x.inodeNum ∧ x.inodeNum ≤ img.sblock.sInodesCount.toNat
  dirents : ∀ d ∈ img.dirents,
    1 ≤ d.direntParent ∧ d.direntParent ≤ img.sblock.sInodesCount.toNat
  indirects : ∀ r ∈ img.indirects, ∃ x ∈ img.inodes, r.inode = .ofInt x.inodeNum

lemma numbered_of_scan (h : scanImage fuel f = .ok img) : Numbered img := by
  obtain ⟨sblock, -, h⟩ := bind_eq_ok_iff.mp h
  obtain ⟨group, -, h⟩ := bind_eq_ok_iff.mp h
  obtain ⟨bfree, -, h⟩ := bind_eq_ok_iff.mp h
  obtain ⟨ifree, -, h⟩ := bind_eq_ok_iff.mp h
  obtain ⟨inodes, hinodes, h⟩ := bind_eq_ok_iff.mp h
  obtain ⟨dirents, hdirents, h⟩ := bind_eq_ok_iff.mp h
  obtain ⟨indirects, hindirects, h⟩ := bind_eq_ok_iff.mp h
  obtain rfl := Except.ok.inj h
  have hrange := readInode_range hinodes
  refine ⟨hrange, fun d hd => ?_, fun r hr => ?_⟩
  · obtain ⟨found, rfl, hfound⟩ := readDirent_spec hdirents
    obtain ⟨x, hx, hd⟩ := List.mem_flatMap.mp hd
    rw [(hfound x hx).1 d hd]
    exact hrange x hx
  · obtain ⟨found, rfl, hfound⟩ := readIndirect_spec hindirects
    obtain ⟨x, hx, hr⟩ := List.mem_flatMap.mp hr
    exact ⟨x, hx, hfound x hx r hr⟩

/-! ### The lines of an inode -/

section

variable (strftime : UInt32 → Text) (memory : ℕ → Memory) (img : Image)

/-- The loop of the writer over the numbers of the inodes. -/
def printRecords : Except Stop (List UInt8) :=
  collect (fun i : ℕ => do
    let dirent ← printDirent memory img i
    .ok (printInode strftime img i ++ dirent ++ printIndirect img i))
    (List.range' 1 img.sblock.sInodesCount.toNat)

lemma printCsv_eq_printRecords : printCsv strftime memory img = (do
    let superblock ← printSuperblock img
    let group ← printGroup img
    let records ← printRecords strftime memory img
    .ok (superblock ++ group ++ printBfree img ++ printIfree img ++ records)) := rfl

def inodeLine (x : NumberedInode) : List UInt8 :=
  line (["INODE".toList, intText x.inodeNum, [formatSymbol x.inode.iMode],
    Nat.toDigits 8 (x.inode.iMode.toNat % 4096), decimal x.inode.iUid.toNat,
    decimal x.inode.iGid.toNat, decimal x.inode.iLinksCount.toNat,
    strftime x.inode.iCtime, strftime x.inode.iMtime, strftime x.inode.iAtime,
    unsignedText x.inode.iSize, unsignedText x.inode.iBlocks] ++
      (printedPointers x.inode).map unsignedText)

def indirectLine (r : Indirect) : List UInt8 :=
  line ["INDIRECT".toList, unsignedText r.inode, decimal r.indirectLevel.toNat,
    unsignedText r.blockOffset, unsignedText r.indirectBlock, unsignedText r.referencedBlock]

def inodesOf (inode : ℤ) : List NumberedInode := img.inodes.filter (·.inodeNum = inode)

def indirectsOf (inode : ℤ) : List Indirect := img.indirects.filter (·.inode = .ofInt inode)

/-- The lines of one number: those of inodes, of entries and of indirect records. -/
def numberLines (inode : ℤ) : List UInt8 :=
  (inodesOf img inode).flatMap (inodeLine strftime) ++
    entryLines memory 0 (entriesOf img inode) ++ (indirectsOf img inode).flatMap indirectLine

/-- The numbers of the inodes, upwards. -/
def numbers : List ℕ := List.range' 1 img.sblock.sInodesCount.toNat

def recordLines : List UInt8 :=
  (numbers img).flatMap fun i : ℕ => numberLines strftime memory img i

end

variable {strftime : UInt32 → Text} {memory : ℕ → Memory}

lemma printInode_eq (inode : ℤ) :
    printInode strftime img inode = (inodesOf img inode).flatMap (inodeLine strftime) := by
  unfold printInode inodesOf
  rw [flatMap_filter]
  rfl

lemma printIndirect_eq (inode : ℤ) :
    printIndirect img inode = (indirectsOf img inode).flatMap indirectLine := by
  unfold printIndirect indirectsOf
  rw [flatMap_filter]
  rfl

/-- The lines of a number are written as long as the offset of its entries is an `int`. -/
lemma printNumber_eq_ok_iff {inode : ℤ} {out : List UInt8} :
    (do
      let dirent ← printDirent memory img inode
      .ok (printInode strftime img inode ++ dirent ++ printIndirect img inode)) = .ok out ↔
    lengths (img.dirents.filter (·.direntParent = inode)) < 2 ^ 31 ∧
      out = numberLines strftime memory img inode := by
  rw [bind_eq_ok_iff, printInode_eq, printIndirect_eq, ← map_entriesOf]
  simp only [printDirent_eq_ok_iff, Except.ok.injEq]
  constructor
  · rintro ⟨_, ⟨hsmall, rfl⟩, rfl⟩
    exact ⟨hsmall, rfl⟩
  · rintro ⟨hsmall, rfl⟩
    exact ⟨_, ⟨hsmall, rfl⟩, rfl⟩

/-! ### All records -/

/-- Behind the lines of the head the report has the lines of each number, and each inode, entry
and indirect record is among those of just one number. -/
structure AllPrinted (strftime : UInt32 → Text) (memory : ℕ → Memory) (img : Image) : Prop where
  records : printRecords strftime memory img = .ok (recordLines strftime memory img)
  csv : ∀ superblock group, printSuperblock img = .ok superblock → printGroup img = .ok group →
    printCsv strftime memory img = .ok (superblock ++ group ++ printBfree img ++ printIfree img ++
      recordLines strftime memory img)
  ascending : (numbers img).Pairwise (· < ·)
  inodes : Perm ((numbers img).flatMap fun i : ℕ => inodesOf img i) img.inodes
  dirents : Perm ((numbers img).flatMap fun i : ℕ => entriesOf img i) img.dirents.zipIdx
  indirects : Perm ((numbers img).flatMap fun i : ℕ => indirectsOf img i) img.indirects

lemma perm_indirects (h : Numbered img) (hcount : img.sblock.sInodesCount.toNat < 2 ^ 31) :
    Perm ((numbers img).flatMap fun i : ℕ => indirectsOf img i) img.indirects := by
  have hkey : ∀ r ∈ img.indirects,
      1 ≤ (r.inode.toNat : ℤ) ∧ (r.inode.toNat : ℤ) ≤ img.sblock.sInodesCount.toNat := by
    intro r hr
    obtain ⟨x, hx, hinode⟩ := h.indirects r hr
    have := h.inodes x hx
    rw [hinode, toNat_ofInt (by omega) (by omega)]
    omega
  have hperm := perm_flatMap_filter hkey
  have hsame : ∀ i ∈ numbers img,
      indirectsOf img i = img.indirects.filter fun r => (r.inode.toNat : ℤ) = i := by
    intro i hi
    obtain ⟨-, hi⟩ := List.mem_range'_1.mp hi
    have hofInt : (UInt32.ofInt i).toNat = i := toNat_ofInt (by omega) (by omega)
    refine List.filter_congr fun r _ => decide_eq_decide.mpr ?_
    rw [← UInt32.toNat_inj, hofInt, Nat.cast_inj]
  rwa [List.flatMap_congr hsame]

lemma AllPrinted.lengths_lt (h : AllPrinted strftime memory img) {i : ℕ} (hi : i ∈ numbers img) :
    lengths (img.dirents.filter (·.direntParent = (i : ℤ))) < 2 ^ 31 := by
  obtain ⟨found, hfound⟩ := exists_of_collect h.records hi
  exact (printNumber_eq_ok_iff.mp hfound).1

/-- **Each record is printed once**, inode by inode, exactly if the lengths of the entries with
one number always add up to an `int`. -/
theorem allPrinted_iff (h : scanImage fuel f = .ok img)
    (hcount : img.sblock.sInodesCount.toNat < 2 ^ 31) :
    AllPrinted strftime memory img ↔
      ∀ n : ℤ, lengths (img.dirents.filter (·.direntParent = n)) < 2 ^ 31 := by
  have hnum := numbered_of_scan h
  constructor
  · intro hall n
    by_cases hn : 1 ≤ n ∧ n ≤ img.sblock.sInodesCount.toNat
    · obtain ⟨i, rfl⟩ := Int.eq_ofNat_of_zero_le (by omega : 0 ≤ n)
      exact hall.lengths_lt (List.mem_range'_1.mpr (by omega))
    · have hnone : img.dirents.filter (·.direntParent = n) = [] := by
        refine List.filter_eq_nil_iff.mpr fun d hd heq => hn ?_
        rw [← of_decide_eq_true heq]
        exact hnum.dirents d hd
      rw [hnone]
      decide
  · intro hsmall
    have hrecords : printRecords strftime memory img = .ok (recordLines strftime memory img) :=
      collect_ok fun i _ => printNumber_eq_ok_iff.mpr ⟨hsmall i, rfl⟩
    refine ⟨hrecords, fun superblock group hs hg => ?_, List.pairwise_lt_range',
      perm_flatMap_filter hnum.inodes, perm_flatMap_filter fun d hd =>
        hnum.dirents d.1 (List.fst_mem_of_mem_zipIdx hd), perm_indirects hnum hcount⟩
    rw [printCsv_eq_printRecords, hs, hg, hrecords]
    rfl

/-- What is found for one inode is found for it each time. -/
lemma collect_replicate {α β ε : Type} {g : α → Except ε (List β)} {a : α} {out : List β}
    (h : g a = .ok out) (n : ℕ) :
    collect g (List.replicate n a) = .ok (List.replicate n out).flatten := by
  have hall : ∀ b ∈ List.replicate n a, g b = .ok out := fun b hb => by
    rw [List.eq_of_mem_replicate hb, h]
  rw [collect_ok hall, List.flatMap_replicate]

/-- The one inode in use is in the table of the second group. -/
def secondGroupImage : Image where
  sblock := secondGroup.superBlock 1024
  group := [secondGroup.groupDesc 2048, secondGroup.groupDesc 2080]
  bfree := [1]
  ifree := [1]
  inodes := [⟨1, secondGroup.inode 8192⟩]
  dirents := []
  indirects := []

theorem allPrinted_secondGroup :
    AllPrinted (fun _ => "01/01/70 00:00:00".toList) (fun _ => ⟨[], []⟩) secondGroupImage := by
  have htop : topBlocks (secondGroup.inode 8192) = [(1, 0), (2, 0), (3, 0)] := by decide +kernel
  have hindirect : readIndirect secondGroup [⟨1, secondGroup.inode 8192⟩] = .ok [] := by
    refine collect_replicate (n := 1) (inodeIndirect_ofCells ?_)
    rw [htop]
    decide
  have hsblock : readSuperblock secondGroup = .ok secondGroupImage.sblock := by decide +kernel
  have hgroup : readGroup secondGroup secondGroupImage.sblock = .ok secondGroupImage.group := by
    decide +kernel
  have hfree : ∀ isBfree, readFreeList secondGroup secondGroupImage.sblock secondGroupImage.group
      isBfree = .ok ([1], 1) := by decide +kernel
  have hinodes : readInode secondGroup secondGroupImage.sblock secondGroupImage.group =
      .ok secondGroupImage.inodes := by decide +kernel
  have hdirents : readDirent secondGroup 1 secondGroupImage.inodes = .ok [] := by decide +kernel
  have hscan : scanImage 1 secondGroup = .ok secondGroupImage :=
    scanImage_ok hsblock hgroup (hfree true) (hfree false) hinodes hdirents hindirect
  have hnone : lengths [] < 2 ^ 31 := by decide
  exact (allPrinted_iff hscan (by decide +kernel)).mpr fun _ => hnone

/-! ### Many groups with one table -/

/-- A file system of 2731 groups with one inode each. All descriptors are zero, so that the
inode tables of the groups are the same one. Its inode is a directory of twelve blocks. -/
def manyGroupsCells : List (ℕ × UInt8) :=
  [(0, 0xED), (1, 0x41), (26, 2), (40, 88), (44, 88), (48, 88), (52, 88), (56, 88), (60, 88),
    (64, 88), (68, 88), (72, 88), (76, 88), (80, 88), (84, 88), (88, 3), (92, 3), (96, 3),
    (1024, 0xAB), (1025, 0x0A), (1028, 0xAB), (1029, 0x0A), (1056, 1), (1064, 1), (1080, 0x53),
    (1081, 0xEF), (90112, 1), (90116, 0xFF), (90117, 0xFF), (90118, 1), (90120, 97)]

def manyGroups : ImageFile := .ofCells 163840 manyGroupsCells

def manyGroupsInode : NumberedInode := ⟨1, manyGroups.inode 0⟩

/-- The entries of the directory: one record in each of its blocks, as long as a record can be. -/
def manyGroupsDirents : List Dirent := List.replicate 12 ⟨1, ⟨1, 65535, 1, [97]⟩⟩

def manyGroupsImage : Image where
  sblock := manyGroups.superBlock 1024
  group := List.replicate 2731 default
  bfree := []
  ifree := []
  inodes := List.replicate 2731 manyGroupsInode
  dirents := (List.replicate 2731 manyGroupsDirents).flatten
  indirects := []

lemma manyGroups_byte {a : ℕ} (h : 2048 ≤ a) (ha : a < 90112) : manyGroups.byte a = 0 := by
  have hcells : ∀ c ∈ manyGroupsCells, c.1 < 2048 ∨ 90112 ≤ c.1 := by decide
  refine ImageFile.byte_ofCells_eq_zero fun c hc => ?_
  have := hcells c hc
  omega

lemma manyGroups_readGroup :
    readGroup manyGroups (manyGroups.superBlock 1024) = .ok (List.replicate 2731 default) := by
  have hcount : numGroups (manyGroups.superBlock 1024) = .ok ((2731 : ℕ) : ℤ) := by
    decide +kernel
  have hdesc : ∀ i ∈ List.range 2731, manyGroups.groupDesc (2048 + 32 * i) = default := by
    intro i hi
    rw [List.mem_range] at hi
    have hbyte : ∀ k < 32, manyGroups.byte (2048 + 32 * i + k) = 0 := fun k hk =>
      manyGroups_byte (by omega) (by omega)
    have h0 := hbyte 0 (by omega)
    simp only [Nat.add_zero] at h0
    unfold ImageFile.groupDesc ImageFile.u32 ImageFile.u16
    simp only [Nat.add_assoc, Nat.reduceAdd] at *
    simp [hbyte, h0]
    rfl
  refine (GroupCount.readGroup_eq_ok_iff hcount).mpr ⟨fun i hi => by omega, ?_⟩
  rw [List.map_congr_left hdesc, List.map_const', List.length_range]

/-- Where nothing is free, the scan stops at the first bit of the first group. -/
lemma manyGroups_readFreeList (isBfree : Bool) :
    readFreeList manyGroups (manyGroups.superBlock 1024) (List.replicate 2731 default) isBfree =
      .ok ([], 0) := by
  have hfirst : groupRound manyGroups (manyGroups.superBlock 1024) (List.replicate 2731 default)
      isBfree ([], 0) 0 = .ok (.done ([], 0)) := by
    cases isBfree <;> rfl
  unfold readFreeList
  rw [List.length_replicate, List.range_succ_eq_map, loop_cons_done hfirst]
  rfl

lemma manyGroups_readInode :
    readInode manyGroups (manyGroups.superBlock 1024) (List.replicate 2731 default) =
      .ok (List.replicate 2731 manyGroupsInode) := by
  have hper : inodesPerTable (manyGroups.superBlock 1024) = 1 := by decide +kernel
  have hcount : inodeCount (manyGroups.superBlock 1024) = 2731 := by decide +kernel
  have haddress : ∀ i, slotAddress (List.replicate 2731 default) i 0 = 0 := by
    intro i
    have hgroup : groupAt (List.replicate 2731 default) i = default := by
      unfold groupAt
      rw [List.getD_eq_getElem?_getD, List.getElem?_replicate]
      split <;> rfl
    unfold slotAddress
    rw [hgroup]
    rfl
  have hslot : ∀ i ∈ List.range 2731, collect (slot manyGroups (manyGroups.superBlock 1024)
      (List.replicate 2731 default) i) (List.range 1) = .ok [manyGroupsInode] := by
    intro i hi
    rw [List.mem_range] at hi
    have hvisited : Visited (manyGroups.superBlock 1024) i 0 := by
      unfold Visited
      rw [hper, hcount]
      omega
    have hrange : InRange (manyGroups.superBlock 1024) (List.replicate 2731 default) i 0 := by
      refine ⟨?_, fun _ => by rw [haddress]; decide⟩
      rw [hper]
      unfold IsInt
      omega
    have huse : InUse manyGroups (List.replicate 2731 default) i 0 := by
      unfold InUse
      rw [haddress]
      decide +kernel
    rw [List.range_one, collect, slot_of_inRange hrange]
    unfold slotResult
    rw [if_pos ⟨hvisited, huse⟩, haddress]
    rfl
  unfold readInode
  rw [hper, Int.toNat_one, List.length_replicate, collect_ok hslot, ← List.map_eq_flatMap,
    List.map_const', List.length_range]

lemma manyGroups_scan : scanImage 2 manyGroups = .ok manyGroupsImage := by
  have hsblock : readSuperblock manyGroups = .ok (manyGroups.superBlock 1024) := by
    decide +kernel
  have hdirent : (if manyGroupsInode.inode.iMode &&& 0xF000 = 0x4000 then
      collect (directBlock manyGroups 2 manyGroupsInode.inodeNum)
        (manyGroupsInode.inode.iBlock.toList.take 12)
    else .ok []) = .ok manyGroupsDirents := by decide +kernel
  have htop : topBlocks manyGroupsInode.inode = [(1, 3), (2, 3), (3, 3)] := by decide +kernel
  have hindirect : inodeIndirect manyGroups manyGroupsInode = .ok [] := by
    refine inodeIndirect_ofCells ?_
    rw [htop]
    decide
  have hdirents : readDirent manyGroups 2 (List.replicate 2731 manyGroupsInode) =
      .ok (List.replicate 2731 manyGroupsDirents).flatten := by
    unfold readDirent
    refine collect_replicate ?_ 2731
    exact hdirent
  have hindirects : readIndirect manyGroups (List.replicate 2731 manyGroupsInode) =
      .ok (List.replicate 2731 ([] : List Indirect)).flatten := by
    unfold readIndirect
    exact collect_replicate hindirect 2731
  rw [List.flatten_replicate_nil] at hindirects
  exact scanImage_ok hsblock manyGroups_readGroup (manyGroups_readFreeList true)
    (manyGroups_readFreeList false) manyGroups_readInode hdirents hindirects

lemma lengths_flatten_replicate (n : ℕ) (ds : List Dirent) :
    lengths (List.replicate n ds).flatten = n * lengths ds := by
  induction n with
  | zero => rw [List.replicate_zero, List.flatten_nil, lengths_nil, Nat.zero_mul]
  | succ n ih =>
    rw [List.replicate_succ, List.flatten_cons, lengths_append, ih, Nat.add_one_mul, Nat.add_comm]

/-- The lengths of the entries with number 1 do not add up to an `int`. -/
theorem manyGroups_overflow :
    scanImage 2 manyGroups = .ok manyGroupsImage ∧
    manyGroupsImage.sblock.sInodesCount.toNat = 2731 ∧
    manyGroupsImage.group.length * manyGroupsImage.sblock.sInodesPerGroup.toNat = 2731 ∧
    ¬ AllPrinted (fun _ => []) (fun _ => ⟨[], []⟩) manyGroupsImage := by
  have hcount : manyGroupsImage.sblock.sInodesCount.toNat = 2731 := by decide +kernel
  have hper : manyGroupsImage.sblock.sInodesPerGroup.toNat = 1 := by decide +kernel
  refine ⟨manyGroups_scan, hcount, ?_, fun h => ?_⟩
  · have hgroup : manyGroupsImage.group = List.replicate 2731 default := rfl
    rw [hper, hgroup, List.length_replicate]
  have hone : 1 ∈ numbers manyGroupsImage := List.mem_range'_1.mpr (by omega)
  have hall : manyGroupsImage.dirents.filter (·.direntParent = ((1 : ℕ) : ℤ)) =
      (List.replicate 2731 manyGroupsDirents).flatten := by
    refine List.filter_eq_self.mpr fun d hd => ?_
    obtain ⟨ds, hds, hd⟩ := List.mem_flatten.mp hd
    rw [List.eq_of_mem_replicate hds] at hd
    rw [List.eq_of_mem_replicate hd]
    rfl
  have hlt := h.lengths_lt hone
  rw [hall, lengths_flatten_replicate] at hlt
  exact absurd hlt (by decide)

end LowLevelTasks.PrintedRecords
