import LowLevelTasks.CsvWriter
import LowLevelTasks.Reports

/-!
What the writer writes for an image with one group, as the records of a report. A field that
is below `2 ^ 31` is written as the number it is, and a name that is valid text is that text.
-/

namespace LowLevelTasks.CsvRecords

open LowLevelTasks.CsvWriter LowLevelTasks.ImgReader LowLevelTasks.Loops
  LowLevelTasks.Reports LowLevelTasks.RubyText LowLevelTasks.ScanImage

/-- The numeric fields that are written are below `2 ^ 31`. -/
structure FieldsBelow (img : Image) : Prop where
  superblock : ∀ x ∈ [img.sblock.sBlocksCount, img.sblock.sInodesCount,
    img.sblock.sBlocksPerGroup, img.sblock.sInodesPerGroup, img.sblock.sFirstIno],
    x.toNat < 2 ^ 31
  blockSize : 1024 * 2 ^ img.sblock.sLogBlockSize.toNat < 2 ^ 31
  group : ∀ g ∈ img.group, ∀ x ∈ [g.bgBlockBitmap, g.bgInodeBitmap, g.bgInodeTable],
    x.toNat < 2 ^ 31
  inode : ∀ x ∈ img.inodes,
    ∀ b ∈ x.inode.iSize :: x.inode.iBlocks :: printedPointers x.inode, b.toNat < 2 ^ 31
  dirent : ∀ d ∈ img.dirents, d.entry.inode.toNat < 2 ^ 31
  indirect : ∀ r ∈ img.indirects, ∀ x ∈ [r.blockOffset, r.indirectBlock, r.referencedBlock],
    x.toNat < 2 ^ 31

/-- The names that are written are valid text without a newline. -/
def NamesValid (memory : ℕ → Memory) (img : Image) : Prop :=
  ∀ d ∈ img.dirents.zipIdx, ∃ name, decode (file d.1.entry (memory d.2)) = some name ∧ '\n' ∉ name

/-! ### The records -/

def superblockRecord (s : SuperBlock) : Superblock where
  blocks := s.sBlocksCount.toNat
  inodes := s.sInodesCount.toNat
  blockSize := 1024 * 2 ^ s.sLogBlockSize.toNat
  inodeSize := s.sInodeSize.toNat
  blocksPerGroup := s.sBlocksPerGroup.toNat
  inodesPerGroup := s.sInodesPerGroup.toNat
  firstInode := s.sFirstIno.toNat

def groupRecord (s : SuperBlock) (g : GroupDesc) : Reports.Group where
  index := 0
  blocks := min s.sBlocksPerGroup.toNat s.sBlocksCount.toNat
  inodes := min s.sInodesPerGroup.toNat s.sInodesCount.toNat
  freeBlocks := g.bgFreeBlocksCount.toNat
  freeInodes := g.bgFreeInodesCount.toNat
  blockBitmap := g.bgBlockBitmap.toNat
  inodeBitmap := g.bgInodeBitmap.toNat
  inodeTable := g.bgInodeTable.toNat

def fileType (mode : UInt16) : FileType :=
  let format := mode &&& 0xF000
  if format = 0x4000 then .directory
  else if format = 0x8000 then .file
  else if format = 0xA000 then .symlink
  else .other

def indirectRecord (r : Indirect) : IndirectRecord where
  inode := r.inode.toNat
  level := r.indirectLevel.toNat
  offset := r.blockOffset.toNat
  block := r.indirectBlock.toNat
  refBlock := r.referencedBlock.toNat

variable (strftime : UInt32 → Text) (memory : ℕ → Memory)

def inodeRecord (x : NumberedInode) : InodeRecord where
  number := x.inodeNum.toNat
  type := fileType x.inode.iMode
  mode := x.inode.iMode.toNat % 4096
  uid := x.inode.iUid.toNat
  gid := x.inode.iGid.toNat
  linkCount := x.inode.iLinksCount.toNat
  ctime := strftime x.inode.iCtime
  mtime := strftime x.inode.iMtime
  atime := strftime x.inode.iAtime
  size := x.inode.iSize.toNat
  sectors := x.inode.iBlocks.toNat
  iBlock := (printedPointers x.inode).map UInt32.toNat

/-- The entries of one directory, from an offset on. -/
def direntRecords : ℕ → List (Dirent × ℕ) → List DirentRecord
  | _, [] => []
  | offset, d :: ds =>
    { dir := d.1.direntParent.toNat
      offset := offset
      inode := d.1.entry.inode.toNat
      recLen := d.1.entry.recLen.toNat
      nameLen := d.1.entry.nameLen.toNat
      name := (decode (file d.1.entry (memory d.2))).getD [] } ::
      direntRecords (offset + d.1.entry.recLen.toNat) ds

/-- The records of one inode. -/
def inodeRecords (img : Image) (i : ℕ) : List Record :=
  ((img.inodes.filter (·.inodeNum = (i : ℤ))).map fun x => .inode (inodeRecord strftime x)) ++
    (direntRecords memory 0 (img.dirents.zipIdx.filter (·.1.direntParent = (i : ℤ)))).map .dirent ++
    (img.indirects.filter (·.inode = .ofInt (i : ℤ))).map fun r => .indirect (indirectRecord r)

def records (img : Image) : List Record :=
  .superblock (superblockRecord img.sblock) ::
    img.group.map (fun g => .group (groupRecord img.sblock g)) ++
    img.bfree.map (fun n => .bfree n.toNat) ++ img.ifree.map (fun n => .ifree n.toNat) ++
    (List.range' 1 img.sblock.sInodesCount.toNat).flatMap (inodeRecords strftime memory img)

/-! ### Lines -/

/-- The bytes of the lines of records. -/
def lines (xs : List Record) : List UInt8 := xs.flatMap fun x => line x.fields

lemma lines_eq (xs : List Record) : lines xs = encode (unlines (xs.map Record.text)) := by
  rw [encode_unlines, List.flatMap_map]
  rfl

lemma lines_append (xs ys : List Record) : lines (xs ++ ys) = lines xs ++ lines ys :=
  List.flatMap_append

lemma lines_singleton (x : Record) : lines [x] = line x.fields := List.flatMap_singleton _ _

lemma unsignedText_eq {x : UInt32} (h : x.toNat < 2 ^ 31) : unsignedText x = decimal x.toNat := by
  unfold unsignedText
  rw [toInt_of_lt h]
  rfl

lemma map_unsignedText {xs : List UInt32} (h : ∀ x ∈ xs, x.toNat < 2 ^ 31) :
    xs.map unsignedText = (xs.map UInt32.toNat).map decimal := by
  rw [List.map_map]
  exact List.map_congr_left fun x hx => unsignedText_eq (h x hx)

lemma intText_eq {n : ℤ} (h : 0 ≤ n) : intText n = decimal n.toNat := by
  obtain ⟨m, rfl⟩ := Int.eq_ofNat_of_zero_le h
  rfl

lemma formatSymbol_eq (mode : UInt16) : formatSymbol mode = (fileType mode).symbol := by
  unfold formatSymbol fileType
  simp only
  split
  · rfl
  · split
    · rfl
    · split <;> rfl

lemma shiftLeft_eq {k : UInt32} (h : 1024 * 2 ^ k.toNat < 2 ^ 31) :
    shiftLeft 1024 k = .ok ((1024 * 2 ^ k.toNat : ℕ) : ℤ) := by
  have hk : k.toNat < 32 := by
    by_contra hk
    have : 2 ^ 32 ≤ 2 ^ k.toNat := Nat.pow_le_pow_right (by omega) (by omega)
    omega
  have hcast : (1024 : ℤ) * 2 ^ k.toNat = (1024 * 2 ^ k.toNat : ℕ) := by
    push_cast
    rfl
  unfold shiftLeft
  rw [if_pos hk, hcast]
  exact int_ok (by unfold IsInt; omega)

/-! ### What is written for each kind -/

variable {strftime memory} {img : Image}

lemma printSuperblock_eq (h : FieldsBelow img) :
    printSuperblock img = .ok (lines [.superblock (superblockRecord img.sblock)]) := by
  have hsuperblock := h.superblock
  simp only [List.forall_mem_cons, List.not_mem_nil, false_implies, implies_true,
    and_true] at hsuperblock
  obtain ⟨hblocks, hinodes, hblocksPer, hinodesPer, hfirst⟩ := hsuperblock
  unfold printSuperblock
  rw [shiftLeft_eq h.blockSize, ok_bind, lines_singleton, unsignedText_eq hblocks,
    unsignedText_eq hinodes, unsignedText_eq hblocksPer, unsignedText_eq hinodesPer,
    unsignedText_eq hfirst]
  rfl

lemma printGroup_eq (h : FieldsBelow img) {g : GroupDesc} (hg : img.group = [g]) :
    printGroup img = .ok (lines [.group (groupRecord img.sblock g)]) := by
  have hsuperblock := h.superblock
  have hgroup := h.group g (by simp [hg])
  simp only [List.forall_mem_cons, List.not_mem_nil, false_implies, implies_true,
    and_true] at hsuperblock hgroup
  obtain ⟨hblocks, hinodes, hblocksPer, hinodesPer, -⟩ := hsuperblock
  obtain ⟨hbitmap, hinodeBitmap, htable⟩ := hgroup
  have hmin : ∀ a b : ℕ, intText (if (a : ℤ) ≤ b then (a : ℤ) else b) = decimal (min a b) := by
    intro a b
    rw [Nat.min_def]
    by_cases hab : a ≤ b
    · rw [if_pos (by omega), if_pos hab]
      rfl
    · rw [if_neg (by omega), if_neg hab]
      rfl
  have hround : printGroupLine img.sblock ⟨toInt img.sblock.sBlocksCount,
      toInt img.sblock.sInodesCount, []⟩ (g, 0) = .ok ⟨img.sblock.sBlocksCount.toNat -
        img.sblock.sBlocksPerGroup.toNat, img.sblock.sInodesCount.toNat -
        img.sblock.sInodesPerGroup.toNat, lines [.group (groupRecord img.sblock g)]⟩ := by
    unfold printGroupLine
    simp only [toInt_of_lt hblocks, toInt_of_lt hinodes, toInt_of_lt hblocksPer,
      toInt_of_lt hinodesPer]
    rw [int_ok (by unfold IsInt; omega), ok_bind, int_ok (by unfold IsInt; omega), ok_bind,
      hmin, hmin, unsignedText_eq hbitmap, unsignedText_eq hinodeBitmap, unsignedText_eq htable,
      lines_singleton]
    rfl
  unfold printGroup
  rw [hg, List.zipIdx_singleton, List.foldlM_cons, hround]
  rfl

/-- The lists of free blocks and of free inodes are written in the same way. -/
lemma flatMap_freeLine {c : ℕ → Record} {word : Text}
    (hc : ∀ n, (c n).fields = [word, decimal n]) {l : List ℤ} (h : ∀ n ∈ l, 0 < n) :
    (l.flatMap fun n => line [word, intText n]) = lines (l.map fun n => c n.toNat) := by
  unfold lines
  rw [List.flatMap_map]
  refine List.flatMap_congr fun n hn => ?_
  rw [hc, intText_eq (h n hn).le]

lemma printInode_eq (h : FieldsBelow img) (hnum : ∀ x ∈ img.inodes, 0 ≤ x.inodeNum) (i : ℤ) :
    printInode strftime img i = lines ((img.inodes.filter (·.inodeNum = i)).map fun x =>
      .inode (inodeRecord strftime x)) := by
  unfold printInode lines
  rw [List.flatMap_map, flatMap_filter]
  refine List.flatMap_congr fun x hx => ?_
  by_cases hi : x.inodeNum = i
  · have hinode := h.inode x hx
    rw [List.forall_mem_cons, List.forall_mem_cons] at hinode
    obtain ⟨hsize, hblocks, hpointers⟩ := hinode
    rw [if_pos hi, if_pos hi, intText_eq (hnum x hx), formatSymbol_eq,
      unsignedText_eq hsize, unsignedText_eq hblocks, map_unsignedText hpointers]
    rfl
  · rw [if_neg hi, if_neg hi]

lemma printIndirect_eq (h : FieldsBelow img) {i : ℕ} (hi : i < 2 ^ 31) :
    printIndirect img i = lines ((img.indirects.filter (·.inode = .ofInt (i : ℤ))).map fun r =>
      .indirect (indirectRecord r)) := by
  unfold printIndirect lines
  rw [List.flatMap_map, flatMap_filter]
  refine List.flatMap_congr fun r hr => ?_
  by_cases hinode : r.inode = .ofInt (i : ℤ)
  · have hindirect := h.indirect r hr
    simp only [List.forall_mem_cons, List.not_mem_nil, false_implies, implies_true,
      and_true] at hindirect
    obtain ⟨hoffset, hblock, href⟩ := hindirect
    have hsmall : r.inode.toNat < 2 ^ 31 := by
      rw [hinode, toNat_ofInt (by omega) (by omega)]
      omega
    rw [if_pos hinode, if_pos hinode, unsignedText_eq hsmall,
      unsignedText_eq hoffset, unsignedText_eq hblock, unsignedText_eq href]
    rfl
  · rw [if_neg hinode, if_neg hinode]

/-- The line of an entry, whose name may have any characters. -/
lemma line_dirent (e : DirentRecord) : line e.fields =
    encode (csv ("DIRENT".toList :: [e.dir, e.offset, e.inode, e.recLen, e.nameLen].map decimal) ++
      ",'".toList) ++ encode e.name ++ encode "'\n".toList := by
  unfold line DirentRecord.fields
  rw [csv_concat (by simp), ← encode_append, ← encode_append]
  simp

/-- The entries of one directory, as long as the offset fits into an `int`. -/
lemma foldlM_printDirentLine {i : ℕ} {ds : List (Dirent × ℕ)} (offset : ℕ) (out : List UInt8)
    (hsmall : ∀ d ∈ ds, d.1.entry.inode.toNat < 2 ^ 31)
    (hnames : ∀ d ∈ ds, ∃ name, decode (file d.1.entry (memory d.2)) = some name)
    (hsum : offset + lengths ((ds.map Prod.fst).filter (·.direntParent = (i : ℤ))) < 2 ^ 31) :
    ds.foldlM (printDirentLine memory i) ((offset : ℤ), out) =
      .ok (((offset + lengths ((ds.map Prod.fst).filter (·.direntParent = (i : ℤ))) : ℕ) : ℤ),
        out ++ lines ((direntRecords memory offset
          (ds.filter (·.1.direntParent = (i : ℤ)))).map .dirent)) := by
  induction ds generalizing offset out with
  | nil => simp [lengths, direntRecords, lines]; rfl
  | cons d ds ih =>
    rw [List.forall_mem_cons] at hsmall hnames
    rw [List.foldlM_cons]
    by_cases hd : d.1.direntParent = i
    · have hfst : ((d :: ds).map Prod.fst).filter (·.direntParent = (i : ℤ)) =
          d.1 :: (ds.map Prod.fst).filter (·.direntParent = (i : ℤ)) := by
        rw [List.map_cons, List.filter_cons_of_pos (by simpa)]
      have hlengths : lengths (((d :: ds).map Prod.fst).filter (·.direntParent = (i : ℤ))) =
          d.1.entry.recLen.toNat +
            lengths ((ds.map Prod.fst).filter (·.direntParent = (i : ℤ))) := by
        rw [hfst]
        simp [lengths]
      obtain ⟨name, hname⟩ := hnames.1
      have hline : printDirentLine memory i ((offset : ℤ), out) d =
          .ok (((offset + d.1.entry.recLen.toNat : ℕ) : ℤ), out ++ lines ((direntRecords memory
            offset [d]).map .dirent)) := by
        unfold printDirentLine
        rw [if_pos hd, ← Nat.cast_add, int_ok (by unfold IsInt; omega), ok_bind, hd,
          unsignedText_eq hsmall.1, ← encode_of_decode hname, direntRecords, direntRecords,
          List.map_singleton, lines_singleton]
        simp only [Record.fields, line_dirent, hname, hd, Option.getD_some, List.append_assoc]
        rfl
      rw [hlengths] at hsum ⊢
      rw [hline, ok_bind, ih _ _ hsmall.2 hnames.2 (by omega), List.filter_cons_of_pos (by simpa)]
      simp only [direntRecords, List.map_cons, List.map_nil, Nat.add_assoc]
      rw [List.append_assoc, ← lines_append]
      rfl
    · have hskip : printDirentLine memory i ((offset : ℤ), out) d = .ok ((offset : ℤ), out) :=
        if_neg hd
      have hfst : ((d :: ds).map Prod.fst).filter (·.direntParent = (i : ℤ)) =
          (ds.map Prod.fst).filter (·.direntParent = (i : ℤ)) := by
        rw [List.map_cons, List.filter_cons_of_neg (by simpa)]
      rw [hfst] at hsum ⊢
      rw [hskip, ok_bind, ih _ _ hsmall.2 hnames.2 hsum, List.filter_cons_of_neg (by simpa)]

lemma printDirent_eq (h : FieldsBelow img) (hnames : NamesValid memory img) {i : ℕ}
    (hsum : lengths (img.dirents.filter (·.direntParent = (i : ℤ))) < 2 ^ 31) :
    printDirent memory img i = .ok (lines ((direntRecords memory 0
      (img.dirents.zipIdx.filter (·.1.direntParent = (i : ℤ)))).map .dirent)) := by
  have hsmall : ∀ d ∈ img.dirents.zipIdx, d.1.entry.inode.toNat < 2 ^ 31 := fun d hd =>
    h.dirent d.1 (List.fst_mem_of_mem_zipIdx hd)
  have hvalid : ∀ d ∈ img.dirents.zipIdx, ∃ name,
      decode (file d.1.entry (memory d.2)) = some name := fun d hd =>
    (hnames d hd).imp fun _ hname => hname.1
  have hrun := foldlM_printDirentLine (i := i) 0 [] hsmall hvalid
    (by rwa [List.zipIdx_map_fst, Nat.zero_add])
  unfold printDirent
  rw [← Nat.cast_zero, hrun]
  rfl

/-- **The writer writes the records** of the image. -/
theorem printCsv_eq (hord : Ordered img) (h : FieldsBelow img) (hnames : NamesValid memory img) :
    printCsv strftime memory img =
      .ok (encode (unlines ((records strftime memory img).map Record.text))) := by
  obtain ⟨g, hg⟩ := hord.group
  obtain ⟨found, hfound, hentries⟩ := hord.dirents
  have hcount : img.sblock.sInodesCount.toNat < 2 ^ 31 := h.superblock _ (by simp)
  have hnum : ∀ x ∈ img.inodes, 0 ≤ x.inodeNum := fun x hx => by
    have := (hord.inodes.range x hx).1
    omega
  have hround : ∀ i ∈ List.range' 1 img.sblock.sInodesCount.toNat, (do
      let dirent ← printDirent memory img (i : ℕ)
      .ok (printInode strftime img (i : ℕ) ++ dirent ++ printIndirect img (i : ℕ))) =
        Except.ok (lines (inodeRecords strftime memory img i)) := by
    intro i hi
    rw [List.mem_range'_1] at hi
    have hsum : lengths (img.dirents.filter (·.direntParent = (i : ℤ))) < 2 ^ 31 := by
      rw [hfound]
      exact lt_of_le_of_lt (hord.inodes.lengths_le hentries i) (by decide)
    rw [printDirent_eq h hnames hsum, ok_bind, printInode_eq h hnum,
      printIndirect_eq h (by omega), ← lines_append, ← lines_append]
    rfl
  unfold printCsv
  rw [printSuperblock_eq h, ok_bind, printGroup_eq h hg, ok_bind, collect_ok hround, ok_bind]
  unfold printBfree printIfree
  rw [flatMap_freeLine (c := .bfree) (fun _ => rfl) hord.bfree,
    flatMap_freeLine (c := .ifree) (fun _ => rfl) hord.ifree, ← lines_eq]
  have hhead : lines [.superblock (superblockRecord img.sblock),
      .group (groupRecord img.sblock g)] = lines [.superblock (superblockRecord img.sblock)] ++
        lines [.group (groupRecord img.sblock g)] := lines_append [_] [_]
  have hflatMap : lines ((List.range' 1 img.sblock.sInodesCount.toNat).flatMap
      (inodeRecords strftime memory img)) = (List.range' 1 img.sblock.sInodesCount.toNat).flatMap
        fun i => lines (inodeRecords strftime memory img i) := List.flatMap_assoc
  unfold records
  rw [hg, List.map_singleton, lines_append, lines_append, lines_append, hhead, hflatMap]

end LowLevelTasks.CsvRecords
