import LowLevelTasks.BlockAllocation
import LowLevelTasks.CsvRoundTrip
import LowLevelTasks.Diagnoses
import LowLevelTasks.EntryNames
import LowLevelTasks.Findings
import LowLevelTasks.FreeNumbers

/-!
The two programs one after the other: an image is scanned, the report is written, and the report
is analysed. The messages that come out in the end are described by the bitmaps, the table of
inodes and the pointers of the image. Which lines there are in between does not matter.
-/

namespace LowLevelTasks.DiskFindings

open LowLevelTasks.BlockAllocation LowLevelTasks.BlockCells LowLevelTasks.BlockReports
open LowLevelTasks.ArraySizes (Narrow)
open LowLevelTasks.CsvRecords LowLevelTasks.CsvRoundTrip LowLevelTasks.CsvWriter
open LowLevelTasks.Diagnoses LowLevelTasks.DirentPass LowLevelTasks.Findings LowLevelTasks.FreeList
open LowLevelTasks.FreeNumbers LowLevelTasks.ImgReader LowLevelTasks.InodeCells
open LowLevelTasks.InodeReports LowLevelTasks.InodeTable LowLevelTasks.Lab3b
open LowLevelTasks.LineRuns LowLevelTasks.Loops LowLevelTasks.Messages
open LowLevelTasks.ParentMessages LowLevelTasks.PointerBlocks LowLevelTasks.Reports
open LowLevelTasks.RubyText LowLevelTasks.ScanImage
open LowLevelTasks.IndirectBlocks (pointer readIndirect topBlocks)
open LowLevelTasks.EntryNames (nameRead_eq shownName)
open LowLevelTasks.Passes (header mem_sortLines sortLines)

/-- The writer on an image file, and the analyser on what it has written. -/
def diagnose (strftime : UInt32 → Text) (memory : ℕ → Memory) (fuel : ℕ) (f : ImageFile) :
    Except Stop Outcome := do
  let img ← scanImage fuel f
  let bytes ← printCsv strftime memory img
  .ok (lab3bFile bytes)

/-- An image with one group whose report says what the scan has found. The group has as many
free blocks and free inodes as its descriptor says. -/
structure Legible (strftime : UInt32 → Text) (memory : ℕ → Memory) (fuel : ℕ) (f : ImageFile)
    (img : Image) : Prop where
  scanned : scanImage fuel f = .ok img
  group : img.group.length = 1
  fields : FieldsBelow img
  names : NamesValid memory img
  times : ∀ t, PlainText (strftime t)
  counts : ∀ isBfree, Consistent f img.sblock img.group isBfree

/-! ### What stands on the disk -/

section disk

variable (f : ImageFile) (img : Image)

/-- The bit of a block or of an inode is clear. -/
def Free (isBfree : Bool) (n : ℕ) : Prop := FreeNumber f img.sblock img.group isBfree n

/-- The inode exists and is in use, at this place in the table. -/
def UsedAt (n : ℕ) (x : Inode) : Prop :=
  ∃ j, Allocated f img.sblock img.group 0 j ∧ n = j + 1 ∧ x = f.inode (slotAddress img.group 0 j)

def Used (n : ℕ) : Prop := ∃ x, UsedAt f img n x

/-- The pointer blocks from this one down to level 1 hold a pointer, at a level and below. -/
inductive Below (b : UInt32) : ℕ → UInt32 → Prop
  | entry {level k : ℕ} {root : UInt32} (hk : k < 256) (hpos : 0 < toInt (pointer f root k))
    (hb : pointer f root k = b) : Below b level root
  | deeper {level k : ℕ} {root : UInt32} (hk : k < 256) (hpos : 0 < toInt (pointer f root k))
    (below : Below b (level + 1) (pointer f root k)) : Below b (level + 2) root

/-- This one of the 15 pointers of the inode, which is no symbolic link, leads to the block. -/
def PointerAt (n num b : ℕ) : Prop :=
  ∃ x, UsedAt f img n x ∧ formatSymbol x.iMode ≠ 's' ∧ b ≠ 0 ∧
    (x.iBlock.toList.map UInt32.toNat)[num]? = some b

def PointsTo (n b : ℕ) : Prop := ∃ num, PointerAt f img n num b

/-- A pointer in one of the pointer blocks of the inode. -/
def LeadsTo (n b : ℕ) : Prop :=
  ∃ x, UsedAt f img n x ∧ ∃ top ∈ topBlocks x, ∃ p, Below f p top.1 top.2 ∧ p.toNat = b

end disk

variable {strftime : UInt32 → Text} {memory : ℕ → Memory} {fuel : ℕ} {f : ImageFile} {img : Image}
variable {n b : ℕ}

lemma UsedAt.unique {x y : Inode} (hx : UsedAt f img n x) (hy : UsedAt f img n y) : x = y := by
  obtain ⟨j, -, rfl, rfl⟩ := hx
  obtain ⟨j', -, hj, rfl⟩ := hy
  obtain rfl : j = j' := by omega
  rfl

lemma UsedAt.le {x : Inode} (hx : UsedAt f img n x) : n ≤ img.sblock.sInodesCount.toNat := by
  obtain ⟨j, halloc, rfl, -⟩ := hx
  have := halloc.2.2.1
  omega

/-! ### What the scan finds -/

/-- What the steps of the scan have found. -/
lemma scanned_parts (h : scanImage fuel f = .ok img) :
    (∀ isBfree, ∃ l, readFreeList f img.sblock img.group isBfree = .ok l ∧
      l.1 = if isBfree then img.bfree else img.ifree) ∧
    readInode f img.sblock img.group = .ok img.inodes ∧
    readIndirect f img.inodes = .ok img.indirects := by
  obtain ⟨sblock, -, h⟩ := bind_eq_ok_iff.mp h
  obtain ⟨group, -, h⟩ := bind_eq_ok_iff.mp h
  obtain ⟨bfree, hbfree, h⟩ := bind_eq_ok_iff.mp h
  obtain ⟨ifree, hifree, h⟩ := bind_eq_ok_iff.mp h
  obtain ⟨inodes, hinodes, h⟩ := bind_eq_ok_iff.mp h
  obtain ⟨dirents, -, h⟩ := bind_eq_ok_iff.mp h
  obtain ⟨indirects, hindirects, h⟩ := bind_eq_ok_iff.mp h
  obtain rfl := Except.ok.inj h
  refine ⟨fun isBfree => ?_, hinodes, hindirects⟩
  cases isBfree
  · exact ⟨ifree, hifree, rfl⟩
  · exact ⟨bfree, hbfree, rfl⟩

lemma exists_record_iff {inode : ℤ} {p root : UInt32} {level logical : ℕ} :
    (∃ r ∈ IndirectBlocks.records f inode level root logical, r.referencedBlock = p) ↔
      Below f p level root := by
  constructor
  · rintro ⟨r, hr, rfl⟩
    induction level generalizing root logical with
    | zero =>
      obtain ⟨k, hk, hpos, rfl | ⟨hlevel, -⟩⟩ := mem_records_iff.mp hr
      · exact .entry hk hpos rfl
      · omega
    | succ level ih =>
      obtain ⟨k, hk, hpos, rfl | ⟨hlevel, hbelow⟩⟩ := mem_records_iff.mp hr
      · exact .entry hk hpos rfl
      · obtain ⟨level, rfl⟩ : ∃ m, level = m + 1 := ⟨level - 1, by omega⟩
        exact .deeper hk hpos (ih hbelow)
  · intro hbelow
    induction hbelow generalizing logical with
    | entry hk hpos hb => exact ⟨_, mem_records_iff.mpr ⟨_, hk, hpos, Or.inl rfl⟩, hb⟩
    | @deeper level k root hk hpos _ ih =>
      obtain ⟨r, hr, hp⟩ := @ih (logical + k)
      exact ⟨r, mem_records_iff.mpr ⟨k, hk, hpos, Or.inr ⟨by omega, hr⟩⟩, hp⟩

lemma level_of_mem_records {inode : ℤ} {root : UInt32} {level logical : ℕ} {r : Indirect}
    (hlow : 1 ≤ level) (hhigh : level ≤ 3)
    (hr : r ∈ IndirectBlocks.records f inode level root logical) :
    1 ≤ r.indirectLevel.toNat ∧ r.indirectLevel.toNat ≤ 3 := by
  induction level generalizing root logical with
  | zero => omega
  | succ level ih =>
    obtain ⟨k, -, -, rfl | ⟨hdeep, hbelow⟩⟩ := mem_records_iff.mp hr
    · rw [toNat_ofNat_level hhigh]
      exact ⟨hlow, hhigh⟩
    · exact ih (by omega) (by omega) hbelow

/-! ### The report between the programs -/

lemma readable_records (hnames : NamesValid memory img) (htime : ∀ t, PlainText (strftime t)) :
    ∀ x ∈ records strftime memory img, Readable x := by
  intro x hx
  simp only [records, inodeRecords, List.mem_append, List.mem_cons, List.mem_map,
    List.mem_flatMap] at hx
  rcases hx with (((rfl | ⟨g, -, rfl⟩) | ⟨n, -, rfl⟩) | ⟨n, -, rfl⟩) |
    ⟨i, -, (⟨q, -, rfl⟩ | ⟨e, he, rfl⟩) | ⟨r, -, rfl⟩⟩
  all_goals try exact trivial
  · exact plain_inodeRecord htime q
  · obtain ⟨d, hd, hname⟩ := name_of_mem_direntRecords he
    obtain ⟨name, hdecode, hnewline⟩ := hnames d (List.mem_filter.mp hd).1
    rw [hdecode, Option.getD_some] at hname
    change '\n' ∉ e.name
    rwa [hname]

lemma type_eq_symlink_iff {x : NumberedInode} :
    (inodeRecord strftime x).type = .symlink ↔ formatSymbol x.inode.iMode = 's' := by
  change fileType x.inode.iMode = .symlink ↔ _
  rw [formatSymbol_eq]
  cases fileType x.inode.iMode <;> decide

/-- The references in the line of an inode. -/
lemma mem_slotRefs_iff {x : NumberedInode} {y : Ref} :
    y ∈ slotRefs (inodeRecord strftime x) ↔ formatSymbol x.inode.iMode ≠ 's' ∧ y.block ≠ 0 ∧
      ∃ num, (x.inode.iBlock.toList.map UInt32.toNat)[num]? = some y.block ∧
        y = ⟨x.inodeNum.toNat, y.block, .slot num⟩ := by
  unfold slotRefs
  simp only [type_eq_symlink_iff]
  by_cases hsym : formatSymbol x.inode.iMode = 's'
  · simp [hsym]
  have hblock : (inodeRecord strftime x).iBlock = x.inode.iBlock.toList.map UInt32.toNat := by
    unfold inodeRecord printedPointers
    rw [if_neg hsym]
  have hnumber : (inodeRecord strftime x).number = x.inodeNum.toNat := rfl
  rw [if_neg hsym, hblock, hnumber, List.mem_filterMap]
  constructor
  · rintro ⟨q, hq, hslot⟩
    unfold slotRef at hslot
    split at hslot
    · cases hslot
    · next h0 =>
      obtain rfl := Option.some.inj hslot
      exact ⟨hsym, h0, q.2, List.mem_zipIdx_iff_getElem?.mp hq, rfl⟩
  · rintro ⟨-, h0, num, hnum, hy⟩
    refine ⟨(y.block, num), List.mem_zipIdx_iff_getElem?.mpr hnum, ?_⟩
    rw [slotRef, if_neg h0, ← hy]

/-- The name of an entry as it is written. -/
def nameIn (memory : ℕ → Memory) (d : Dirent × ℕ) : Text :=
  (decode (file d.1.entry (memory d.2))).getD []

/-- What the line of an entry says of it. -/
def told (e : DirentRecord) : ℕ × ℕ × Text := (e.dir, e.inode, e.name)

lemma map_told_direntRecords (offset : ℕ) (ds : List (Dirent × ℕ)) :
    (direntRecords memory offset ds).map told = ds.map fun d =>
      (d.1.direntParent.toNat, d.1.entry.inode.toNat, nameIn memory d) := by
  induction ds generalizing offset with
  | nil => rfl
  | cons d ds ih =>
    rw [direntRecords, List.map_cons, List.map_cons, ih]
    rfl

/-- The scan finds the entry in the directory, and its name is written so. -/
def EntryIn (memory : ℕ → Memory) (img : Image) (dir n : ℕ) (name : Text) : Prop :=
  ∃ d ∈ img.dirents.zipIdx,
    (d.1.direntParent.toNat, d.1.entry.inode.toNat, nameIn memory d) = (dir, n, name)

/-- What the analyser takes from the superblock and the group. -/
def headerOf (img : Image) : Header where
  blocks := img.sblock.sBlocksCount.toNat
  inodes := img.sblock.sInodesCount.toNat
  reservedBlocks := (groupAt img.group 0).bgInodeTable.toNat +
    ⌈((img.sblock.sInodesCount.toNat * img.sblock.sInodeSize.toNat : ℕ) /
      (1024 * 2 ^ img.sblock.sLogBlockSize.toNat : ℕ) : ℚ)⌉ - 1
  reservedInodes := img.sblock.sFirstIno.toNat - 1

/-- What is wrong with a direct pointer to the block. -/
def Fault (img : Image) (b : ℕ) (several : Prop) : Flag → Prop
  | .res => (b : ℤ) ≤ (headerOf img).reservedBlocks
  | .inv => (headerOf img).reservedBlocks < b ∧ img.sblock.sBlocksCount.toNat ≤ b
  | .dup => several

namespace Legible

variable (hr : Legible strftime memory fuel f img)
include hr

/-- The lines of the report. -/
def report : LineReport := ⟨records strftime memory img, readable_records hr.names hr.times⟩

lemma ordered : Ordered img := scanImage_ordered hr.scanned hr.group

lemma header_eq : hr.report.header? = some (headerOf img) := by
  obtain ⟨g, hg⟩ := hr.ordered.group
  have hinodes : img.sblock.sInodesCount.toNat < 2 ^ 31 := hr.fields.superblock _ (by simp)
  have hsize := img.sblock.sInodeSize.toNat_lt
  have hproduct : img.sblock.sInodesCount.toNat * img.sblock.sInodeSize.toNat < 2 ^ 53 :=
    (Nat.mul_le_mul hinodes.le hsize.le).trans_lt (by decide)
  have hpos : 0 < 1024 * 2 ^ img.sblock.sLogBlockSize.toNat := by positivity
  have hblock := hr.fields.blockSize
  have hceil := RubyFloat.fdivCeil_natCast hproduct hpos (by omega)
  unfold LineReport.header? report
  dsimp only
  rw [superblocks_records, groups_records, hg]
  simp only [List.head?_cons, List.map_singleton, Option.bind_eq_bind, Option.bind_some, header,
    superblockRecord, groupRecord]
  push_cast at hceil ⊢
  rw [hceil, Option.map_some, headerOf, hg]
  simp [groupAt]

lemma group_length : 0 < img.group.length := by
  rw [hr.group]
  exact Nat.one_pos

/-! ### Free numbers -/

/-- **The free lists** have the numbers of the clear bits. -/
lemma mem_freeList (isBfree : Bool) :
    (n : ℤ) ∈ (if isBfree then img.bfree else img.ifree) ↔ Free f img isBfree n := by
  obtain ⟨l, hl, heq⟩ := (scanned_parts hr.scanned).1 isBfree
  have hsmall : bits img.sblock isBfree < 2 ^ 31 := by
    unfold bits perGroupField
    split
    · exact hr.fields.superblock _ (by simp)
    · exact hr.fields.superblock _ (by simp)
  rw [← heq, Free]
  rcases Nat.eq_zero_or_pos (bits img.sblock isBfree) with hzero | hpos
  · have hnonpos : perGroup img.sblock isBfree ≤ 0 := by
      rw [perGroup_eq hsmall, hzero]
      rfl
    obtain ⟨-, rfl⟩ := (readFreeList_of_nonpos hnonpos).mp hl
    refine iff_of_false (by simp) ?_
    rintro ⟨i, -, b, hb, -⟩
    omega
  · obtain ⟨-, rfl⟩ := (readFreeList_eq_ok_iff hpos hsmall).mp hl
    have hone : ∀ i < img.group.length, 0 < i → NoneClear f img.sblock img.group isBfree i :=
      fun i hi hi0 => absurd hi (by rw [hr.group]; omega)
    exact (mem_found_iff_freeNumber hpos hr.group_length (hr.counts isBfree)).mpr hone n

lemma mem_bfrees : b ∈ hr.report.bfrees ↔ Free f img true b := by
  unfold LineReport.bfrees report
  dsimp only
  rw [bfrees_records, ← hr.mem_freeList true, if_pos rfl, List.mem_map]
  constructor
  · rintro ⟨m, hm, rfl⟩
    rwa [Int.toNat_of_nonneg (hr.ordered.bfree m hm).le]
  · exact fun hm => ⟨b, hm, Int.toNat_natCast b⟩

lemma mem_ifrees : n ∈ hr.report.ifrees ↔ Free f img false n := by
  unfold LineReport.ifrees report
  dsimp only
  rw [ifrees_records, ← hr.mem_freeList false, if_neg Bool.false_ne_true, List.mem_map]
  constructor
  · rintro ⟨m, hm, rfl⟩
    rwa [Int.toNat_of_nonneg (hr.ordered.ifree m hm).le]
  · exact fun hm => ⟨n, hm, Int.toNat_natCast n⟩

/-! ### Inodes in use -/

/-- **The inodes that are found** are those in use. -/
lemma mem_inodes {x : NumberedInode} : x ∈ img.inodes ↔
    ∃ n : ℕ, x.inodeNum = n ∧ UsedAt f img n x.inode := by
  have hcount : img.sblock.sInodesCount.toNat < 2 ^ 31 := hr.fields.superblock _ (by simp)
  have hper : img.sblock.sInodesPerGroup.toNat < 2 ^ 31 := hr.fields.superblock _ (by simp)
  have hscanned := (readInode_eq_ok_iff.mp (scanned_parts hr.scanned).2.1).2
  rw [hscanned, mem_scanned_iff]
  constructor
  · rintro ⟨i, hi, j, hj, ⟨hv, hu⟩, rfl⟩
    obtain rfl : i = 0 := by
      rw [hr.group] at hi
      omega
    exact ⟨j + 1, by push_cast; rfl, j, (allocated_of_visited hi hj hv hu).1, rfl, rfl⟩
  · rintro ⟨n, hnum, j, halloc, rfl, hinode⟩
    obtain ⟨hi, hj, hle, hu⟩ := id halloc
    refine ⟨0, hi, j, ?_, ⟨(visited_zero_iff hcount).mpr (by omega), hu⟩, ?_⟩
    · unfold inodesPerTable
      rwa [toInt_of_lt hper, Int.toNat_natCast]
    · obtain ⟨num, inode⟩ := x
      simp only at hnum hinode
      rw [hnum, hinode]
      push_cast
      rfl

lemma inodes_eq : hr.report.inodes = img.inodes.map (inodeRecord strftime) := by
  have hsorted : img.inodes.Pairwise fun x y => x.inodeNum ≤ y.inodeNum :=
    hr.ordered.inodes.pairwise.imp fun hlt => hlt.le
  unfold LineReport.inodes report
  dsimp only
  rw [inodes_records, ← List.map_flatMap, flatMap_filter_key _ hsorted hr.ordered.inodes.range]

lemma mem_report_inodes {q : InodeRecord} : q ∈ hr.report.inodes ↔
    ∃ n x, UsedAt f img n x ∧ q = inodeRecord strftime ⟨n, x⟩ := by
  rw [hr.inodes_eq, List.mem_map]
  constructor
  · rintro ⟨⟨num, x⟩, hmem, rfl⟩
    obtain ⟨n, rfl, hused⟩ := hr.mem_inodes.mp hmem
    exact ⟨n, x, hused, rfl⟩
  · rintro ⟨n, x, hused, rfl⟩
    exact ⟨⟨n, x⟩, hr.mem_inodes.mpr ⟨n, rfl, hused⟩, rfl⟩

lemma mem_numbers : n ∈ hr.report.numbers ↔ Used f img n := by
  unfold LineReport.numbers
  rw [List.mem_map]
  constructor
  · rintro ⟨q, hq, rfl⟩
    obtain ⟨n, x, hused, rfl⟩ := hr.mem_report_inodes.mp hq
    exact ⟨x, hused⟩
  · rintro ⟨x, hused⟩
    exact ⟨_, hr.mem_report_inodes.mpr ⟨n, x, hused, rfl⟩, rfl⟩

/-! ### Entries of directories -/

lemma map_report_dirents : hr.report.dirents.map (fun e => ((e.dir : ℤ), (e.inode : ℤ))) =
    img.dirents.map fun d => (d.direntParent, (d.entry.inode.toNat : ℤ)) := by
  unfold LineReport.dirents report
  dsimp only
  rw [dirents_records, map_dirents hr.ordered]

/-- The directory of an entry is an inode in use. -/
lemma dir_mem_numbers {e : DirentRecord} (he : e ∈ hr.report.dirents) :
    e.dir ∈ hr.report.numbers := by
  obtain ⟨found, hfound, hentries⟩ := hr.ordered.dirents
  have hpair := List.mem_map_of_mem (f := fun e : DirentRecord => ((e.dir : ℤ), (e.inode : ℤ))) he
  rw [hr.map_report_dirents] at hpair
  obtain ⟨d, hd, heq⟩ := List.mem_map.mp hpair
  rw [hfound] at hd
  obtain ⟨x, hx, hd⟩ := List.mem_flatMap.mp hd
  obtain ⟨n, hnum, hused⟩ := hr.mem_inodes.mp hx
  have hdir := congrArg Prod.fst heq
  dsimp only at hdir
  rw [(hentries x hx).1 d hd, hnum] at hdir
  exact hr.mem_numbers.mpr ⟨_, Int.ofNat_inj.mp hdir ▸ hused⟩

/-- **The lines of the entries** are those of the entries that the scan finds. -/
lemma mem_map_told {t : ℕ × ℕ × Text} : t ∈ hr.report.dirents.map told ↔
    ∃ d ∈ img.dirents.zipIdx,
      t = (d.1.direntParent.toNat, d.1.entry.inode.toNat, nameIn memory d) := by
  obtain ⟨found, hfound, hentries⟩ := hr.ordered.dirents
  have hrange := hr.ordered.inodes.range_flatMap fun x hx => (hentries x hx).1
  rw [← hfound] at hrange
  unfold LineReport.dirents report
  dsimp only
  rw [dirents_records, List.map_flatMap]
  simp only [map_told_direntRecords, List.mem_flatMap, List.mem_map, List.mem_filter,
    decide_eq_true_eq, List.mem_range'_1]
  constructor
  · rintro ⟨i, -, d, ⟨hd, -⟩, rfl⟩
    exact ⟨d, hd, rfl⟩
  · rintro ⟨d, hd, rfl⟩
    have := hrange d.1 (List.fst_mem_of_mem_zipIdx hd)
    exact ⟨d.1.direntParent.toNat, by omega, d, ⟨hd, by omega⟩, rfl⟩

/-- All numbers in the report come from fields of 32 bits. -/
lemma narrow : Narrow hr.report where
  free n hn := by
    have hfree : ∀ isBfree, Free f img isBfree n → n < 2 ^ 32 := by
      rintro isBfree ⟨i, hi, b, hb, hn, -⟩
      have hbits : bits img.sblock isBfree < 2 ^ 32 := by
        unfold bits
        exact UInt32.toNat_lt _
      rw [hr.group] at hi
      obtain rfl : i = 0 := by omega
      have hn : n = 0 * bits img.sblock isBfree + b + 1 := Int.ofNat_inj.mp hn
      omega
    rcases List.mem_append.mp hn with hn | hn
    · exact hfree true (hr.mem_bfrees.mp hn)
    · exact hfree false (hr.mem_ifrees.mp hn)
  inodes q hq := by
    obtain ⟨n, x, hused, rfl⟩ := hr.mem_report_inodes.mp hq
    refine ⟨hused.le.trans_lt (UInt32.toNat_lt _), fun b hb => ?_⟩
    obtain ⟨p, -, rfl⟩ := List.mem_map.mp hb
    exact UInt32.toNat_lt p
  dirents e he := by
    obtain ⟨d, -, htold⟩ := hr.mem_map_told.mp (List.mem_map_of_mem he)
    have hinode : e.inode = d.1.entry.inode.toNat := congrArg (fun t => t.2.1) htold
    rw [hinode]
    exact UInt32.toNat_lt _
  indirects x hx := by
    unfold LineReport.indirects report at hx
    dsimp only at hx
    rw [indirects_records] at hx
    obtain ⟨i, -, hx⟩ := List.mem_flatMap.mp hx
    obtain ⟨y, -, rfl⟩ := List.mem_map.mp hx
    exact UInt32.toNat_lt _

lemma diagnose_eq : diagnose strftime memory fuel f = .ok (lab3b hr.report.text) := by
  have hcount : ∀ n : UInt32, (n.toNat : ℤ) < 2 ^ 32 := fun n => by
    have := n.toNat_lt
    omega
  have hsized := hr.narrow.sized hr.header_eq (hcount _) (hcount _)
  unfold diagnose
  rw [hr.scanned, ok_bind, printCsv_eq hr.ordered hr.fields hr.names, ok_bind]
  exact congrArg Except.ok (lab3bFile_encode hsized)

lemma exists_dirent_iff {dir : ℕ} {p : Text → Prop} :
    (∃ e ∈ hr.report.dirents, e.dir = dir ∧ e.inode = n ∧ p e.name) ↔
      ∃ name, EntryIn memory img dir n name ∧ p name := by
  constructor
  · rintro ⟨e, he, rfl, rfl, hp⟩
    obtain ⟨d, hd, htold⟩ := hr.mem_map_told.mp (List.mem_map_of_mem he)
    exact ⟨e.name, ⟨d, hd, htold.symm⟩, hp⟩
  · rintro ⟨name, ⟨d, hd, htold⟩, hp⟩
    obtain ⟨e, he, heq⟩ := List.mem_map.mp (hr.mem_map_told.mpr ⟨d, hd, rfl⟩)
    obtain ⟨rfl, rfl, rfl⟩ : e.dir = dir ∧ e.inode = n ∧ e.name = name := by
      simpa [told] using heq.trans htold
    exact ⟨e, he, rfl, rfl, hp⟩

/-- How many entries of the directories name an inode. -/
lemma linksOf_eq (hn : n ≤ img.sblock.sInodesCount.toNat) :
    linksOf img.sblock.sInodesCount.toNat hr.report.dirents n =
      img.dirents.countP fun d => d.entry.inode.toNat = n := by
  have hcount := congrArg (List.countP fun p : ℤ × ℤ => p.2 = n) hr.map_report_dirents
  rw [List.countP_map, List.countP_map] at hcount
  unfold linksOf
  rw [← List.countP_eq_length_filter]
  calc hr.report.dirents.countP (fun e => e.inode = n ∧ e.inode ≤ img.sblock.sInodesCount.toNat)
      = hr.report.dirents.countP ((fun p : ℤ × ℤ => decide (p.2 = n)) ∘ fun e =>
          ((e.dir : ℤ), (e.inode : ℤ))) := by
        refine List.countP_congr fun e _ => ?_
        simp only [Function.comp_apply, decide_eq_true_eq]
        omega
    _ = _ := hcount
    _ = _ := by
        refine List.countP_congr fun d _ => ?_
        simp only [Function.comp_apply, decide_eq_true_eq]
        omega

/-! ### References -/

/-- The records of the pointer blocks of all inodes in use. -/
lemma mem_indirects {r : Indirect} : r ∈ img.indirects ↔ ∃ n : ℕ, ∃ x, UsedAt f img n x ∧
    ∃ top ∈ topBlocks x,
      r ∈ IndirectBlocks.records f n top.1 top.2 (IndirectBlocks.startLogical top.1 0) := by
  obtain ⟨hall, hindirects⟩ := collect_eq_ok_iff.mp (scanned_parts hr.scanned).2.2
  rw [hindirects, List.mem_flatMap]
  constructor
  · rintro ⟨x, hx, hmem⟩
    obtain ⟨out, hout⟩ := hall x hx
    rw [hout, finds_ok] at hmem
    obtain ⟨-, rfl⟩ := inodeIndirect_eq_ok_iff.mp hout
    obtain ⟨top, htop, hmem⟩ := List.mem_flatMap.mp hmem
    obtain ⟨n, hnum, hused⟩ := hr.mem_inodes.mp hx
    exact ⟨n, x.inode, hused, top, htop, hnum ▸ hmem⟩
  · rintro ⟨n, x, hused, top, htop, hmem⟩
    have hx : (⟨n, x⟩ : NumberedInode) ∈ img.inodes := hr.mem_inodes.mpr ⟨n, rfl, hused⟩
    obtain ⟨out, hout⟩ := hall _ hx
    refine ⟨_, hx, ?_⟩
    rw [hout, finds_ok]
    obtain ⟨-, rfl⟩ := inodeIndirect_eq_ok_iff.mp hout
    exact List.mem_flatMap.mpr ⟨top, htop, hmem⟩

lemma indirects_eq : hr.report.indirects = img.indirects.map indirectRecord := by
  unfold LineReport.indirects report
  dsimp only
  rw [indirects_records, ← List.map_flatMap,
    flatMap_indirects hr.ordered (hr.fields.superblock _ (by simp))]

lemma level_of_mem_pointers {x : Ref} (hx : x ∈ hr.report.pointers) :
    1 ≤ x.level ∧ x.level ≤ 3 := by
  unfold LineReport.pointers at hx
  rw [hr.indirects_eq, List.map_map] at hx
  obtain ⟨r, hmem, rfl⟩ := List.mem_map.mp hx
  obtain ⟨n, y, -, top, htop, hmem⟩ := hr.mem_indirects.mp hmem
  obtain ⟨hlow, hhigh⟩ := level_of_mem_topBlocks htop
  exact level_of_mem_records hlow hhigh hmem

lemma referencedBy_pointers :
    ReferencedBy hr.report.pointers b ↔ ∃ n, LeadsTo f img n b := by
  unfold ReferencedBy LineReport.pointers
  rw [hr.indirects_eq, List.map_map]
  constructor
  · rintro ⟨x, hx, rfl⟩
    obtain ⟨r, hmem, rfl⟩ := List.mem_map.mp hx
    obtain ⟨n, y, hused, top, htop, hmem⟩ := hr.mem_indirects.mp hmem
    exact ⟨n, y, hused, top, htop, r.referencedBlock, exists_record_iff.mp ⟨r, hmem, rfl⟩, rfl⟩
  · rintro ⟨n, y, hused, top, htop, p, hbelow, rfl⟩
    obtain ⟨r, hmem, rfl⟩ := exists_record_iff.mpr hbelow
    exact ⟨_, List.mem_map_of_mem (hr.mem_indirects.mpr ⟨n, y, hused, top, htop, hmem⟩), rfl⟩

lemma mem_slots {y : Ref} : y ∈ hr.report.slots ↔
    ∃ n num, PointerAt f img n num y.block ∧ y = ⟨n, y.block, .slot num⟩ := by
  unfold LineReport.slots
  rw [List.mem_flatMap]
  constructor
  · rintro ⟨q, hq, hy⟩
    obtain ⟨n, x, hused, rfl⟩ := hr.mem_report_inodes.mp hq
    obtain ⟨hsym, h0, num, hnum, heq⟩ := mem_slotRefs_iff.mp hy
    exact ⟨n, num, ⟨x, hused, hsym, h0, hnum⟩, heq⟩
  · rintro ⟨n, num, ⟨x, hused, hsym, h0, hnum⟩, heq⟩
    exact ⟨_, hr.mem_report_inodes.mpr ⟨n, x, hused, rfl⟩,
      mem_slotRefs_iff.mpr ⟨hsym, h0, num, hnum, heq⟩⟩

lemma referencedBy_slots : ReferencedBy hr.report.slots b ↔ ∃ n, PointsTo f img n b := by
  constructor
  · rintro ⟨y, hy, rfl⟩
    obtain ⟨n, num, hpointer, -⟩ := hr.mem_slots.mp hy
    exact ⟨n, num, hpointer⟩
  · rintro ⟨n, num, hpointer⟩
    exact ⟨⟨n, b, .slot num⟩, hr.mem_slots.mpr ⟨n, num, hpointer, rfl⟩, rfl⟩

/-! ### What is printed -/

/-- **The analyser comes to an end** if and only if the root directory is in use. -/
theorem completes_iff : Completes hr.report (headerOf img) ↔ Used f img 2 := by
  rw [← hr.mem_numbers]
  refine ⟨Completes.root, fun hroot => ⟨hroot, ?_, ?_⟩⟩
  · rintro ⟨e, he, hstray⟩
    exact hstray.dir (hr.dir_mem_numbers he)
  · rintro ⟨u, x, v, hsplit, -, hlevel⟩
    have hhigh := (hr.level_of_mem_pointers (x := x) (by simp [hsplit])).2
    omega

lemma mem_printed_allocatedInode : Err.free "all_ino".toList n ∈ printed hr.report ↔
    Used f img 2 ∧ Free f img false n ∧ Used f img n := by
  rw [InodeReports.mem_printed_allocatedInode hr.header_eq rfl, hr.completes_iff, hr.mem_ifrees,
    hr.mem_numbers]

lemma mem_printed_unallocatedInode : Err.free "unall_ino".toList n ∈ printed hr.report ↔
    Used f img 2 ∧ (img.sblock.sFirstIno.toNat ≤ n ∧ n ≤ img.sblock.sInodesCount.toNat) ∧
      ¬ Free f img false n ∧ ¬ Used f img n := by
  rw [InodeReports.mem_printed_unallocatedInode hr.header_eq rfl, hr.completes_iff,
    ← hr.mem_ifrees]
  have hreserved : (headerOf img).reservedInodes = img.sblock.sFirstIno.toNat - 1 := rfl
  refine and_congr_right fun _ => ⟨?_, ?_⟩
  · rintro ⟨habove, hle, hused, hline⟩
    exact ⟨⟨by omega, hle⟩, hused, hr.mem_numbers.not.mp hline⟩
  · rintro ⟨⟨habove, hle⟩, hused, hline⟩
    exact ⟨by omega, hle, hused, hr.mem_numbers.not.mpr hline⟩

lemma lineOf_eq_some_iff {q : InodeRecord} : lineOf hr.report.inodes n = some q ↔
    ∃ x, UsedAt f img n x ∧ q = inodeRecord strftime ⟨n, x⟩ := by
  constructor
  · intro hline
    obtain ⟨hmem, rfl⟩ := mem_of_lineOf hline
    obtain ⟨n, x, hused, rfl⟩ := hr.mem_report_inodes.mp hmem
    exact ⟨x, hused, rfl⟩
  · rintro ⟨x, hused, rfl⟩
    obtain ⟨q, hline⟩ := exists_lineOf (hr.mem_numbers.mpr ⟨x, hused⟩)
    rw [hline]
    obtain ⟨hmem, hn⟩ := mem_of_lineOf hline
    obtain ⟨m, y, hused', rfl⟩ := hr.mem_report_inodes.mp hmem
    obtain rfl : m = n := hn
    rw [hused'.unique hused]

lemma mem_printed_link (links linkCount : ℤ) : Err.link n links linkCount ∈ printed hr.report ↔
    Used f img 2 ∧ ∃ x, UsedAt f img n x ∧ linkCount = x.iLinksCount.toNat ∧
      links = (img.dirents.countP fun d => d.entry.inode.toNat = n : ℕ) ∧ links ≠ linkCount := by
  rw [InodeReports.mem_printed_link hr.header_eq rfl, hr.completes_iff]
  unfold Miscounted
  simp only [hr.lineOf_eq_some_iff]
  refine and_congr_right fun _ => ⟨?_, ?_⟩
  · rintro ⟨_, ⟨⟨x, hused, rfl⟩, hne⟩, rfl, rfl⟩
    rw [hr.linksOf_eq hused.le] at hne ⊢
    exact ⟨x, hused, rfl, rfl, fun heq => hne (Int.ofNat_inj.mp heq)⟩
  · rintro ⟨x, hused, rfl, rfl, hne⟩
    rw [← hr.linksOf_eq hused.le] at hne ⊢
    exact ⟨_, ⟨⟨x, hused, rfl⟩, fun heq => hne (congrArg Nat.cast heq)⟩, rfl, rfl⟩

lemma unallocated_iff (hn : ¬ Used f img n) :
    Unallocated img.sblock.sInodesCount.toNat hr.report.ifrees hr.report.inodes n ↔
      Free f img false n ∨ n ≤ img.sblock.sInodesCount.toNat := by
  unfold Unallocated
  rw [hr.mem_ifrees]
  exact and_iff_right (hr.mem_numbers.not.mpr hn)

lemma mem_printed_dir (b : Bool) (dir n : ℕ) (name : Text) :
    Err.dir (dirFlag b) dir n name ∈ printed hr.report ↔ Used f img 2 ∧ ¬ Used f img n ∧
      (b = true ↔ Free f img false n ∨ n ≤ img.sblock.sInodesCount.toNat) ∧
        ∃ full, EntryIn memory img dir n full ∧ shownName full = name := by
  rw [InodeReports.mem_printed_dir hr.header_eq rfl, hr.completes_iff]
  refine and_congr_right fun _ => ?_
  have hcounted : ∀ e : DirentRecord, Counted img.sblock.sInodesCount.toNat hr.report.inodes e ↔
      Used f img e.inode := fun e => by
    refine ⟨fun hc => hr.mem_numbers.mp hc.1, fun hu => ⟨hr.mem_numbers.mpr hu, ?_⟩⟩
    obtain ⟨x, hx⟩ := hu
    exact hx.le
  rw [← hr.exists_dirent_iff]
  constructor
  · rintro ⟨e, he, hnot, hflag, rfl, rfl, hname⟩
    rw [hcounted] at hnot
    rw [← hr.unallocated_iff hnot, ← hflag, decide_eq_true_iff]
    exact ⟨hnot, Iff.rfl, e, he, rfl, rfl, nameRead_eq e ▸ hname⟩
  · rintro ⟨hnot, hflag, e, he, rfl, rfl, hname⟩
    rw [← hr.unallocated_iff hnot] at hflag
    refine ⟨e, he, (hcounted e).not.mpr hnot, ?_, rfl, rfl, (nameRead_eq e).trans hname⟩
    rw [Bool.eq_iff_iff, decide_eq_true_iff, hflag]

/-- An entry `.` has to name the directory it stands in. -/
lemma mem_printed_self (dir n : ℕ) : Err.parent "self".toList dir n dir ∈ printed hr.report ↔
    Used f img 2 ∧ Used f img n ∧ n ≠ dir ∧
      ∃ full, EntryIn memory img dir n full ∧ shownName full = ".".toList := by
  rw [mem_printed_parents hr.header_eq ⟨_, _, _, _, rfl⟩, hr.completes_iff]
  refine and_congr_right fun _ => ?_
  have hlive : ∀ e : DirentRecord, Live hr.report (headerOf img) e ↔ Used f img e.inode :=
    fun e => by
      refine ⟨fun hl => hr.mem_numbers.mp hl.1, fun hu => ⟨hr.mem_numbers.mpr hu, ?_⟩⟩
      obtain ⟨x, hx⟩ := hu
      exact Int.ofNat_le.mpr hx.le
  rw [← hr.exists_dirent_iff (p := fun name => shownName name = ".".toList)]
  constructor
  · rintro ⟨u, e, v, hsplit, ⟨hself, hne, heq⟩ | ⟨c, -, heq⟩⟩
    · obtain ⟨hdir, hinode, -⟩ := parent_inj.mp heq
      have hmem : e ∈ readLive hr.report (headerOf img) (sortLines hr.report.dirents) := by
        rw [hsplit]
        simp
      obtain ⟨d, hd, rfl⟩ := List.mem_map.mp hmem
      obtain ⟨hd, hl⟩ := List.mem_filter.mp hd
      obtain rfl : dir = d.dir := Int.ofNat_inj.mp hdir
      obtain rfl : n = d.inode := Int.ofNat_inj.mp hinode
      refine ⟨(hlive d).mp (of_decide_eq_true hl), hne, d, mem_sortLines.mp hd, rfl, rfl, ?_⟩
      rw [← nameRead_eq]
      exact nameOf_eq_self.mp hself
    · exact absurd heq self_ne_parent
  · rintro ⟨hused, hne, d, hd, rfl, rfl, hname⟩
    have hmem : readEntry d ∈ readLive hr.report (headerOf img) (sortLines hr.report.dirents) :=
      List.mem_map_of_mem (List.mem_filter.mpr
        ⟨mem_sortLines.mpr hd, decide_eq_true ((hlive d).mpr hused)⟩)
    obtain ⟨u, v, hsplit⟩ := List.append_of_mem hmem
    refine ⟨u, readEntry d, v, hsplit, Or.inl ⟨?_, hne, rfl⟩⟩
    exact nameOf_eq_self.mpr ((nameRead_eq d).trans hname)

lemma mem_printed_allocatedBlock : Err.free "all_blk".toList b ∈ printed hr.report ↔
    Used f img 2 ∧ Free f img true b ∧ ∃ n, PointsTo f img n b := by
  rw [BlockReports.mem_printed hr.header_eq (Or.inr (Or.inr ⟨b, rfl⟩)), hr.completes_iff,
    said_allocated, hr.mem_bfrees, hr.referencedBy_slots]

lemma mem_printed_unreferenced : Err.unref b ∈ printed hr.report ↔
    Used f img 2 ∧ ((headerOf img).reservedBlocks < b ∧ b < img.sblock.sBlocksCount.toNat) ∧
      ¬ Free f img true b ∧ ¬ (∃ n, PointsTo f img n b) ∧ ¬ ∃ n, LeadsTo f img n b := by
  rw [BlockReports.mem_printed hr.header_eq (Or.inr (Or.inl ⟨b, rfl⟩)), hr.completes_iff,
    said_unreferenced, ← hr.mem_bfrees, ← hr.referencedBy_slots, ← hr.referencedBy_pointers,
    ← not_or, ← referencedBy_refs]
  have hblocks : (headerOf img).blocks = img.sblock.sBlocksCount.toNat := rfl
  refine and_congr_right fun _ => ⟨?_, ?_⟩
  · rintro ⟨habove, hbelow, hused, hunref⟩
    exact ⟨⟨habove, by omega⟩, hused, fun ⟨x, hx, hb⟩ => hunref x hx hb⟩
  · rintro ⟨⟨habove, hbelow⟩, hused, hunref⟩
    exact ⟨habove, by omega, hused, fun x hx hb => hunref ⟨x, hx, hb⟩⟩

/-! ### Direct pointers -/

/-- Two pointers to the same block have different places. -/
lemma nodup_slots : hr.report.slots.Nodup := by
  have hnumber : ∀ q, ∀ y ∈ slotRefs q, y.inode = q.number := by
    intro q y hy
    unfold slotRefs at hy
    split at hy
    · cases hy
    · obtain ⟨p, -, hslot⟩ := List.mem_filterMap.mp hy
      unfold slotRef at hslot
      split at hslot
      · cases hslot
      · exact Option.some.inj hslot ▸ rfl
  unfold LineReport.slots
  rw [List.nodup_flatMap]
  constructor
  · intro q _
    unfold slotRefs
    split
    · exact List.nodup_nil
    · refine (List.Nodup.of_map Prod.snd ?_).filterMap ?_
      · rw [List.zipIdx_map_snd]
        exact List.nodup_range'
      · rintro ⟨p, num⟩ ⟨p', num'⟩ y hp hp'
        unfold slotRef at hp hp'
        grind
  · rw [hr.inodes_eq, List.pairwise_map]
    refine hr.ordered.inodes.pairwise.imp_of_mem fun {x x'} hx hx' hlt y hy hy' => ?_
    have heq := (hnumber _ y hy).symm.trans (hnumber _ y hy')
    have hpos := (hr.ordered.inodes.range x hx).1
    change x.inodeNum.toNat = x'.inodeNum.toNat at heq
    omega

/-- Several references to the block, one of which is this. -/
lemma two_le_slotsTo_iff {n num : ℕ} (hpointer : PointerAt f img n num b) :
    2 ≤ (slotsTo hr.report b).length ↔
      ∃ n' num', (n', num') ≠ (n, num) ∧ PointerAt f img n' num' b := by
  have hmem : ∀ y, y ∈ slotsTo hr.report b ↔
      ∃ n' num', PointerAt f img n' num' b ∧ y = ⟨n', b, .slot num'⟩ := by
    intro y
    unfold slotsTo
    rw [List.mem_filter, hr.mem_slots, decide_eq_true_eq]
    constructor
    · rintro ⟨⟨n', num', hpointer', hy⟩, rfl⟩
      exact ⟨n', num', hpointer', hy⟩
    · rintro ⟨n', num', hpointer', rfl⟩
      exact ⟨⟨n', num', hpointer', rfl⟩, rfl⟩
  have hself := (hmem _).mpr ⟨n, num, hpointer, rfl⟩
  have hnodup : (slotsTo hr.report b).Nodup := hr.nodup_slots.filter _
  constructor
  · intro hlength
    obtain ⟨y, hy, hne⟩ : ∃ y ∈ slotsTo hr.report b, y ≠ ⟨n, b, .slot num⟩ := by
      by_contra hnot
      push Not at hnot
      have hsub := List.subperm_of_subset hnodup fun y hy => List.mem_singleton.mpr (hnot y hy)
      have := hsub.length_le
      rw [List.length_singleton] at this
      omega
    obtain ⟨n', num', hpointer', rfl⟩ := (hmem y).mp hy
    exact ⟨n', num', fun heq => hne (by simp_all), hpointer'⟩
  · rintro ⟨n', num', hne, hpointer'⟩
    have hother := (hmem _).mpr ⟨n', num', hpointer', rfl⟩
    have hpair : [(⟨n, b, .slot num⟩ : Ref), ⟨n', b, .slot num'⟩].Nodup := by
      simp only [List.nodup_cons, List.mem_singleton, Ref.mk.injEq, Origin.slot.injEq, true_and]
      grind
    exact (List.subperm_of_subset hpair (by simp [hself, hother])).length_le

/-- **The message about a direct pointer** does not say which one it is. -/
lemma mem_printed_direct (κ : Flag) : Err.block κ.symbol b n 0 ∈ printed hr.report ↔
    Used f img 2 ∧ ∃ num < 12, PointerAt f img n num b ∧
      Fault img b (∃ n' num', (n', num') ≠ (n, num) ∧ PointerAt f img n' num' b) κ := by
  have htext : Err.block κ.symbol b n 0 = Description.text ⟨0, n, 0, b⟩ κ := by
    unfold Description.text levelSymbol
    simp
  have hlevel : ∀ num : ℕ, Ref.level ⟨n, b, .slot num⟩ = 0 ↔ num < 12 := fun num => by
    unfold Ref.level
    dsimp only
    split <;> omega
  rw [htext, mem_printed_text hr.header_eq, hr.completes_iff]
  refine and_congr_right fun _ => ⟨?_, ?_⟩
  · rintro ⟨x, hx, hdescription⟩
    have hzero : x.level = 0 := by
      have hmin := congrArg (fun d : Description => (d.level : ℕ)) hdescription
      simp only [description, Fin.val_zero] at hmin
      omega
    obtain ⟨hmem, hfault⟩ := hx.resolve_right (by
      rintro ⟨u, y, v, hsplit, rfl, -⟩
      have hlow := (hr.level_of_mem_pointers (x := y) (by simp [hsplit])).1
      omega)
    obtain ⟨n', num, hpointer, heq⟩ := hr.mem_slots.mp hmem
    have hblock := block_of_description hdescription
    have hinode := congrArg Description.inode hdescription
    rw [heq] at hinode
    obtain rfl : n' = n := Int.ofNat_inj.mp hinode
    obtain rfl : x.block = b := hblock
    rw [heq] at hzero
    refine ⟨num, (hlevel num).mp hzero, hpointer, ?_⟩
    rcases hfault with hout | ⟨rfl, hlength⟩
    · cases κ with
      | res => exact hout
      | inv => exact ⟨hout.1, Int.ofNat_le.mp hout.2⟩
      | dup => exact hout.elim
    · exact (hr.two_le_slotsTo_iff hpointer).mp hlength
  · rintro ⟨num, hnum, hpointer, hfault⟩
    refine ⟨⟨n, b, .slot num⟩, Or.inl ⟨hr.mem_slots.mpr ⟨n, num, hpointer, rfl⟩, ?_⟩, ?_⟩
    · cases κ with
      | res => exact Or.inl hfault
      | inv => exact Or.inl ⟨hfault.1, Int.ofNat_le.mpr hfault.2⟩
      | dup => exact Or.inr ⟨rfl, (hr.two_le_slotsTo_iff hpointer).mpr hfault⟩
    · have hoffset : Ref.offset ⟨n, b, .slot num⟩ = 0 := if_pos (by omega)
      unfold description
      simp only [(hlevel num).mpr hnum, hoffset]
      rfl

end Legible

/-- **From the image to the messages about inodes.** The two programs together print nothing but
the status 1 if the root directory is not in use. If it is, they print which inodes are in use and
free in the bitmap, which ones are neither, and for which inodes in use the entries that the scan
finds do not name them as often as their link count says. -/
theorem diagnose_inodes (hr : Legible strftime memory fuel f img) :
    ∃ out, diagnose strftime memory fuel f = .ok out ∧ (out.status = 1 ↔ ¬ Used f img 2) ∧
      (¬ Used f img 2 → out.printed = []) ∧
      ∀ n : ℕ,
        (Err.free "all_ino".toList n ∈ out.printed ↔
          Used f img 2 ∧ Free f img false n ∧ Used f img n) ∧
        (Err.free "unall_ino".toList n ∈ out.printed ↔
          Used f img 2 ∧ (img.sblock.sFirstIno.toNat ≤ n ∧ n ≤ img.sblock.sInodesCount.toNat) ∧
            ¬ Free f img false n ∧ ¬ Used f img n) ∧
        ∀ links linkCount : ℤ, Err.link n links linkCount ∈ out.printed ↔
          Used f img 2 ∧ ∃ x, UsedAt f img n x ∧ linkCount = x.iLinksCount.toNat ∧
            links = (img.dirents.countP fun d => d.entry.inode.toNat = n : ℕ) ∧
            links ≠ linkCount := by
  have hstatus := (status_iff hr.header_eq).1
  rw [hr.completes_iff] at hstatus
  refine ⟨_, hr.diagnose_eq, hstatus, fun hroot => ?_, fun n => ⟨hr.mem_printed_allocatedInode,
    hr.mem_printed_unallocatedInode, hr.mem_printed_link⟩⟩
  refine List.eq_nil_iff_forall_not_mem.mpr fun m hm => hroot ?_
  exact hr.completes_iff.mp ((mem_printed_iff hr.header_eq m).mp hm).1

/-- **From the image to the messages about entries.** An entry that the scan finds is reported if
the inode it names is not in use: as unallocated if that inode exists or is free in the bitmap, as
invalid if not. An entry `.` is reported if it names another inode in use than its directory. Of a
name only what stands behind the last comma is shown, without quotes. -/
theorem diagnose_entries (hr : Legible strftime memory fuel f img) :
    ∃ out, diagnose strftime memory fuel f = .ok out ∧
      ∀ dir n : ℕ,
        (∀ (b : Bool) (name : Text), Err.dir (dirFlag b) dir n name ∈ out.printed ↔
          Used f img 2 ∧ ¬ Used f img n ∧
            (b = true ↔ Free f img false n ∨ n ≤ img.sblock.sInodesCount.toNat) ∧
            ∃ full, EntryIn memory img dir n full ∧ shownName full = name) ∧
        (Err.parent "self".toList dir n dir ∈ out.printed ↔
          Used f img 2 ∧ Used f img n ∧ n ≠ dir ∧
            ∃ full, EntryIn memory img dir n full ∧ shownName full = ".".toList) :=
  ⟨_, hr.diagnose_eq, fun dir n =>
    ⟨fun b name => hr.mem_printed_dir b dir n name, hr.mem_printed_self dir n⟩⟩

/-- **From the image to the messages about blocks.** A block is reported as allocated if it is free
in the bitmap and one of the 15 pointers of an inode leads to it, and as unreferenced if it is
neither free nor led to, also not from a pointer block. For a direct pointer the range of its block
and the other pointers of inodes to it decide. -/
theorem diagnose_blocks (hr : Legible strftime memory fuel f img) :
    ∃ out, diagnose strftime memory fuel f = .ok out ∧
      ∀ b : ℕ,
        (Err.free "all_blk".toList b ∈ out.printed ↔
          Used f img 2 ∧ Free f img true b ∧ ∃ n, PointsTo f img n b) ∧
        (Err.unref b ∈ out.printed ↔ Used f img 2 ∧
          ((headerOf img).reservedBlocks < b ∧ b < img.sblock.sBlocksCount.toNat) ∧
            ¬ Free f img true b ∧ ¬ (∃ n, PointsTo f img n b) ∧ ¬ ∃ n, LeadsTo f img n b) ∧
        ∀ (n : ℕ) (κ : Flag), Err.block κ.symbol b n 0 ∈ out.printed ↔
          Used f img 2 ∧ ∃ num < 12, PointerAt f img n num b ∧
            Fault img b (∃ n' num', (n', num') ≠ (n, num) ∧ PointerAt f img n' num' b) κ :=
  ⟨_, hr.diagnose_eq, fun _ => ⟨hr.mem_printed_allocatedBlock, hr.mem_printed_unreferenced,
    fun _ κ => hr.mem_printed_direct κ⟩⟩

/-! ### A directory with an indirect block -/

lemma legible_oneDirectory : Legible (fun _ => "01/01/70 00:00:00".toList) (fun _ => ⟨[], []⟩) 3
    oneDirectory oneDirectoryImage where
  scanned := by decide +kernel
  group := rfl
  fields := fieldsBelow_oneDirectory
  names := namesValid_oneDirectory
  times _ := by decide
  counts isBfree := by
    cases isBfree <;> decide +kernel

lemma used_oneDirectory : Used oneDirectory oneDirectoryImage 2 :=
  ⟨_, 1, by unfold Allocated; decide +kernel, rfl, rfl⟩

theorem diagnose_inodes_oneDirectory : ∃ out, diagnose (fun _ => "01/01/70 00:00:00".toList)
    (fun _ => ⟨[], []⟩) 3 oneDirectory = .ok out ∧ out.status ≠ 1 ∧
      Err.free "all_ino".toList (2 : ℕ) ∉ out.printed := by
  obtain ⟨out, hout, hstatus, -, hinodes⟩ := diagnose_inodes legible_oneDirectory
  refine ⟨out, hout, fun h => hstatus.mp h used_oneDirectory, fun hmem => ?_⟩
  have hfree := ((hinodes 2).1.mp hmem).2.1
  revert hfree
  unfold Free
  decide +kernel

/-- The entry `a,'b` names the directory itself. -/
theorem diagnose_entries_oneDirectory : ∃ out, diagnose (fun _ => "01/01/70 00:00:00".toList)
    (fun _ => ⟨[], []⟩) 3 oneDirectory = .ok out ∧
      ∀ b, Err.dir (dirFlag b) (2 : ℕ) (2 : ℕ) "b".toList ∉ out.printed := by
  obtain ⟨out, hout, hentries⟩ := diagnose_entries legible_oneDirectory
  exact ⟨out, hout, fun b hmem =>
    (((hentries 2 2).1 b "b".toList).mp hmem).2.1 used_oneDirectory⟩

/-- Nothing leads to block 4, but it is free. -/
theorem diagnose_blocks_oneDirectory : ∃ out, diagnose (fun _ => "01/01/70 00:00:00".toList)
    (fun _ => ⟨[], []⟩) 3 oneDirectory = .ok out ∧ Err.unref (4 : ℕ) ∉ out.printed := by
  obtain ⟨out, hout, hblocks⟩ := diagnose_blocks legible_oneDirectory
  refine ⟨out, hout, fun hmem => ?_⟩
  have hused := ((hblocks 4).2.1.mp hmem).2.2.1
  revert hused
  unfold Free
  decide +kernel

end LowLevelTasks.DiskFindings
