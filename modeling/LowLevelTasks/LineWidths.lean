import LowLevelTasks.GroupCount
import LowLevelTasks.PrintedRecords
import Mathlib.Tactic.Positivity

/-!
The buffers of the writer of the report. Every line is written to a buffer of a fixed size, which
it fits into if the numbers in it are not too wide.
-/

namespace LowLevelTasks.LineWidths

open LowLevelTasks.Buffers LowLevelTasks.CsvWriter LowLevelTasks.DirentLines
open LowLevelTasks.GroupCount LowLevelTasks.ImgReader LowLevelTasks.Loops
open LowLevelTasks.PrintedRecords LowLevelTasks.RubyText LowLevelTasks.ScanImage

/-! ### Lines and their buffers -/

/-- A string in a buffer of this size, together with its zero. -/
def InBuffer (size : ℕ) (text : List UInt8) : Prop := text.length + 1 ≤ size

/-- The numbers in the line of a group. -/
def groupNumbers (s : SuperBlock) (g : GroupDesc × ℕ) : List ℤ :=
  [g.2, currentBlocks s g.2, currentInodes s g.2, g.1.bgFreeBlocksCount.toNat,
    g.1.bgFreeInodesCount.toNat, toInt g.1.bgBlockBitmap, toInt g.1.bgInodeBitmap,
    toInt g.1.bgInodeTable]

/-- The lines that `print_csv` writes, and the copies of the names in them, are in their buffers. -/
structure LinesFit (strftime : UInt32 → Text) (memory : ℕ → Memory) (img : Image) : Prop where
  superblock : ∀ text, printSuperblock img = .ok text → InBuffer 64 text
  group : ∀ g ∈ img.group.zipIdx, LeftFits img.sblock g.2 → InBuffer 64 (groupLine img.sblock g)
  bfree : ∀ n ∈ img.bfree, InBuffer 16 (line ["BFREE".toList, intText n])
  ifree : ∀ n ∈ img.ifree, InBuffer 16 (line ["IFREE".toList, intText n])
  inode : ∀ i ∈ numbers img, ∀ x ∈ inodesOf img i, InBuffer 255 (inodeLine strftime x)
  dirent : ∀ i ∈ numbers img, ∀ d ∈ (entriesOf img i).zip
    (offsets 0 ((entriesOf img i).map Prod.fst)), d.2 < 2 ^ 31 →
      InBuffer 255 (file d.1.1.entry (memory d.1.2)) ∧ InBuffer 300 (entryLine memory d.1 d.2)
  indirect : ∀ i ∈ numbers img, ∀ r ∈ indirectsOf img i, InBuffer 32 (indirectLine r)

/-- **The whole report** consists of these lines, and of the line of the superblock before. -/
theorem printCsv_lines {strftime : UInt32 → Text} {memory : ℕ → Memory} {img : Image}
    {out : List UInt8}
    (h : printCsv strftime memory img = .ok out) :
    ∃ superblock, printSuperblock img = .ok superblock ∧
      out = superblock ++ img.group.zipIdx.flatMap (groupLine img.sblock) ++
        (img.bfree.flatMap fun n => line ["BFREE".toList, intText n]) ++
        (img.ifree.flatMap fun n => line ["IFREE".toList, intText n]) ++
        recordLines strftime memory img := by
  rw [printCsv_eq_printRecords] at h
  obtain ⟨superblock, hsuperblock, h⟩ := bind_eq_ok_iff.mp h
  obtain ⟨group, hgroup, h⟩ := bind_eq_ok_iff.mp h
  obtain ⟨records, hrecords, h⟩ := bind_eq_ok_iff.mp h
  obtain rfl := Except.ok.inj h
  have hlines : ∀ i ∈ List.range' 1 img.sblock.sInodesCount.toNat, (do
      let dirent ← printDirent memory img i
      .ok (printInode strftime img i ++ dirent ++ printIndirect img i)) =
        Except.ok (numberLines strftime memory img i) := fun i hi => by
    obtain ⟨found, hfound⟩ := exists_of_collect hrecords hi
    rwa [(printNumber_eq_ok_iff.mp hfound).2] at hfound
  have hrecordLines : records = recordLines strftime memory img :=
    Except.ok.inj (hrecords.symm.trans (collect_ok hlines))
  exact ⟨superblock, hsuperblock, by rw [(printGroup_eq_ok_iff.mp hgroup).2, hrecordLines]; rfl⟩

/-! ### Widths -/

/-- The characters of a number as it is written. -/
def width (n : ℤ) : ℕ := (Nat.toDigits 10 n.natAbs).length + if n < 0 then 1 else 0

def widths (ns : List ℤ) : ℕ := (ns.map width).sum

lemma length_encode_intText (n : ℤ) : (encode (intText n)).length = width n := by
  unfold width
  cases n with
  | ofNat n => exact length_encode_decimal n
  | negSucc n =>
    rw [if_pos (Int.negSucc_lt_zero n), Int.natAbs_negSucc, ← length_encode_decimal]
    change (encode (['-'] ++ decimal (n + 1))).length = _
    rw [encode_append, List.length_append, Nat.add_comm]
    rfl

/-- A number that is not too large is not too wide. -/
lemma width_le {n : ℤ} {k : ℕ} (hk : 0 < k) (h : n.natAbs < 10 ^ k) :
    width n ≤ k + if n < 0 then 1 else 0 :=
  Nat.add_le_add_right ((Nat.length_toDigits_le_iff (by omega) hk).mpr h) _

lemma width_le_iff {n : ℤ} {k : ℕ} (hk : 0 < k) :
    width n ≤ k + 1 ↔ -10 ^ k < n ∧ n < 10 ^ (k + 1) := by
  unfold width
  split
  · rw [Nat.add_le_add_iff_right, Nat.length_toDigits_le_iff (by omega) hk]
    have : (10 : ℤ) ^ k = (10 ^ k : ℕ) := by push_cast; rfl
    rw [this]
    omega
  · rw [Nat.add_zero, Nat.length_toDigits_le_iff (by omega) (Nat.succ_pos k)]
    have : (10 : ℤ) ^ (k + 1) = (10 ^ (k + 1) : ℕ) := by push_cast; rfl
    have hpos : (0 : ℤ) < 10 ^ k := by positivity
    rw [this]
    omega

/-! ### The length of a line -/

lemma length_encode_csv {fields : List Text} (h : fields ≠ []) :
    (encode (csv fields)).length + 1 =
      (fields.map fun f => (encode f).length).sum + fields.length := by
  induction fields with
  | nil => exact absurd rfl h
  | cons f fields ih =>
    cases fields with
    | nil => simp [csv]
    | cons f' fields =>
      have hcomma : encode (',' :: csv (f' :: fields)) = 44 :: encode (csv (f' :: fields)) := rfl
      have ih := ih (List.cons_ne_nil _ _)
      rw [csv_cons_cons, encode_append, List.length_append, hcomma, List.map_cons, List.sum_cons]
      simp only [List.length_cons] at ih ⊢
      omega

lemma length_line {fields : List Text} (h : fields ≠ []) :
    (line fields).length = (fields.map fun f => (encode f).length).sum + fields.length := by
  have hnewline : encode ['\n'] = [10] := rfl
  unfold line
  rw [encode_append, List.length_append, hnewline, List.length_singleton, length_encode_csv h]

lemma length_encode_numbers (word : Text) (ns : List ℤ) :
    (encode (csv (word :: ns.map intText))).length =
      (encode word).length + widths ns + ns.length := by
  have hcsv := length_encode_csv (List.cons_ne_nil word (ns.map intText))
  have hwidths : ((ns.map intText).map fun f => (encode f).length).sum = widths ns := by
    rw [List.map_map]
    exact congrArg List.sum (List.map_congr_left fun n _ => length_encode_intText n)
  rw [List.map_cons, List.sum_cons, hwidths, List.length_cons, List.length_map] at hcsv
  omega

/-- **A line of a word and numbers** fits if the numbers leave room for the separators. -/
lemma inBuffer_line_iff {size : ℕ} (word : Text) (ns : List ℤ) :
    InBuffer size (line (word :: ns.map intText)) ↔
      (encode word).length + widths ns + ns.length + 2 ≤ size := by
  have hnewline : (encode ['\n']).length = 1 := rfl
  unfold InBuffer line
  rw [encode_append, List.length_append, length_encode_numbers, hnewline]

/-! ### When the lines fit -/

def superblockNumbers (s : SuperBlock) (size : ℤ) : List ℤ :=
  [toInt s.sBlocksCount, toInt s.sInodesCount, size, s.sInodeSize.toNat, toInt s.sBlocksPerGroup,
    toInt s.sInodesPerGroup, toInt s.sFirstIno]

def direntNumbers (d : Dirent) (offset : ℕ) : List ℤ :=
  [d.direntParent, offset, toInt d.entry.inode, d.entry.recLen.toNat, d.entry.nameLen.toNat]

def indirectNumbers (r : Indirect) : List ℤ :=
  [toInt r.inode, r.indirectLevel.toNat, toInt r.blockOffset, toInt r.indirectBlock,
    toInt r.referencedBlock]

/-- The bytes of a name that are copied, up to a zero. -/
def nameText (entry : DirEntry) (memory : Memory) : List UInt8 :=
  ((entry.name ++ memory.heap).take entry.nameLen.toNat).takeWhile (· ≠ 0)

/-- The blocks have byte addresses that are an `int`. What stands in place of the pointers of a
symbolic link is no block. -/
structure SmallBlocks (img : Image) : Prop where
  group : ∀ g ∈ img.group, ∀ b ∈ [g.bgBlockBitmap, g.bgInodeBitmap, g.bgInodeTable],
    b.toNat < 2 ^ 21
  bfree : ∀ n ∈ img.bfree, 0 ≤ n ∧ n < 2 ^ 21
  inode : ∀ x ∈ img.inodes, formatSymbol x.inode.iMode ≠ 's' →
    ∀ b ∈ x.inode.iBlock.toList, b.toNat < 2 ^ 21
  indirect : ∀ r ∈ img.indirects, r.indirectBlock.toNat < 2 ^ 21 ∧ r.referencedBlock.toNat < 2 ^ 21

/-- The numbers of the other fields are not too wide, and the names not too long. -/
structure Narrow (memory : ℕ → Memory) (img : Image) : Prop where
  superblock : ∀ size, shiftLeft 1024 img.sblock.sLogBlockSize = .ok size →
    widths (superblockNumbers img.sblock size) ≤ 45
  group : ∀ g ∈ img.group.zipIdx, LeftFits img.sblock g.2 → widths (groupNumbers img.sblock g) ≤ 49
  ifree : ∀ n ∈ img.ifree, -10 ^ 7 < n ∧ n < 10 ^ 8
  dirent : ∀ i ∈ numbers img, ∀ d ∈ (entriesOf img i).zip
    (offsets 0 ((entriesOf img i).map Prod.fst)), d.2 < 2 ^ 31 →
      (nameText d.1.1.entry (memory d.1.2)).length ≤ 254 ∧
        widths (direntNumbers d.1.1 d.2) + (nameText d.1.1.entry (memory d.1.2)).length ≤ 284
  indirect : ∀ i ∈ numbers img, ∀ r ∈ indirectsOf img i, widths (indirectNumbers r) ≤ 17

section

variable {img : Image} {entry : DirEntry} {m : Memory}

lemma superblock_iff : (∀ text, printSuperblock img = .ok text → InBuffer 64 text) ↔
    ∀ size, shiftLeft 1024 img.sblock.sLogBlockSize = .ok size →
      widths (superblockNumbers img.sblock size) ≤ 45 := by
  have hword : (encode "SUPERBLOCK".toList).length = 10 := by decide +kernel
  have hline : ∀ size, InBuffer 64 (line ("SUPERBLOCK".toList ::
      (superblockNumbers img.sblock size).map intText)) ↔
        widths (superblockNumbers img.sblock size) ≤ 45 := fun size => by
    rw [inBuffer_line_iff, hword]
    change 10 + _ + 7 + 2 ≤ 64 ↔ _
    omega
  constructor
  · intro h size hsize
    refine (hline size).mp (h _ ?_)
    unfold printSuperblock
    rw [hsize]
    rfl
  · intro h text htext
    obtain ⟨size, hsize, htext⟩ := bind_eq_ok_iff.mp htext
    obtain rfl := Except.ok.inj htext
    exact (hline size).mpr (h size hsize)

lemma inBuffer_groupLine_iff {s : SuperBlock} {g : GroupDesc × ℕ} :
    InBuffer 64 (groupLine s g) ↔ widths (groupNumbers s g) ≤ 49 := by
  have hword : (encode "GROUP".toList).length = 5 := by decide +kernel
  change InBuffer 64 (line ("GROUP".toList :: (groupNumbers s g).map intText)) ↔ _
  rw [inBuffer_line_iff, hword]
  change 5 + _ + 8 + 2 ≤ 64 ↔ _
  omega

/-- Both kinds of free numbers have a word of five letters. -/
lemma inBuffer_free_iff {word : Text} (hword : (encode word).length = 5) (n : ℤ) :
    InBuffer 16 (line [word, intText n]) ↔ -10 ^ 7 < n ∧ n < 10 ^ 8 := by
  rw [show [word, intText n] = word :: [n].map intText from rfl, inBuffer_line_iff, hword,
    ← width_le_iff (by omega)]
  change 5 + width n + 1 + 2 ≤ 16 ↔ _
  omega

lemma inBuffer_indirectLine_iff {r : Indirect} :
    InBuffer 32 (indirectLine r) ↔ widths (indirectNumbers r) ≤ 17 := by
  have hword : (encode "INDIRECT".toList).length = 8 := by decide +kernel
  change InBuffer 32 (line ("INDIRECT".toList :: (indirectNumbers r).map intText)) ↔ _
  rw [inBuffer_line_iff, hword]
  change 8 + _ + 5 + 2 ≤ 32 ↔ _
  omega

/-! ### The names -/

lemma length_nameText_le : (nameText entry m).length ≤ entry.nameLen.toNat :=
  (List.takeWhile_prefix _).length_le.trans (List.length_take_le _ _)

/-- Behind a name that leaves room for a zero there is one, and behind another one the bytes on
the stack. -/
lemma file_eq (entry : DirEntry) (m : Memory) : file entry m = nameText entry m ++
    (List.replicate (255 - (nameText entry m).length) 0 ++ m.stack).takeWhile (· ≠ 0) := by
  have hnul : ∀ b ∈ nameText entry m, decide (b ≠ 0) := fun b hb =>
    List.mem_takeWhile_imp (p := fun b => decide (b ≠ 0)) hb
  have hlen := entry.nameLen.toNat_lt
  have hle : (nameText entry m).length ≤ entry.nameLen.toNat := length_nameText_le
  have hcopy : padded 255 (strncpy entry.nameLen.toNat (entry.name ++ m.heap)) =
      nameText entry m ++ List.replicate (255 - (nameText entry m).length) 0 := by
    unfold padded
    rw [length_strncpy]
    change nameText entry m ++ List.replicate (entry.nameLen.toNat - (nameText entry m).length) 0 ++
      List.replicate (255 - entry.nameLen.toNat) 0 = _
    rw [List.append_assoc, List.replicate_append_replicate]
    congr 2
    omega
  unfold file
  rw [hcopy, List.append_assoc, List.takeWhile_append_of_pos hnul]

lemma file_of_le (h : (nameText entry m).length ≤ 254) : file entry m = nameText entry m := by
  obtain ⟨n, hn⟩ : ∃ n, 255 - (nameText entry m).length = n + 1 :=
    ⟨254 - (nameText entry m).length, by omega⟩
  rw [file_eq, hn, List.replicate_succ, List.cons_append,
    List.takeWhile_cons_of_neg (by decide), List.append_nil]

lemma inBuffer_file_iff : InBuffer 255 (file entry m) ↔ (nameText entry m).length ≤ 254 := by
  unfold InBuffer
  constructor
  · intro h
    rw [file_eq, List.length_append] at h
    omega
  · intro h
    rw [file_of_le h]
    omega

lemma inBuffer_entryLine_iff {memory : ℕ → Memory} {d : Dirent × ℕ} {offset : ℕ}
    (h : (nameText d.1.entry (memory d.2)).length ≤ 254) :
    InBuffer 300 (entryLine memory d offset) ↔
      widths (direntNumbers d.1 offset) + (nameText d.1.entry (memory d.2)).length ≤ 284 := by
  have hword : (encode "DIRENT".toList).length = 6 := by decide +kernel
  have hquotes : (encode ",'".toList).length = 2 ∧ (encode "'\n".toList).length = 2 := by
    decide +kernel
  have hnumbers := length_encode_numbers "DIRENT".toList (direntNumbers d.1 offset)
  have hline : entryLine memory d offset =
      encode (csv ("DIRENT".toList :: (direntNumbers d.1 offset).map intText) ++ ",'".toList) ++
        file d.1.entry (memory d.2) ++ encode "'\n".toList := rfl
  unfold InBuffer
  rw [hline, file_of_le h, List.length_append, List.length_append, encode_append,
    List.length_append, hnumbers, hword, hquotes.1, hquotes.2]
  change 6 + _ + 5 + 2 + _ + 2 + 1 ≤ 300 ↔ _
  omega

/-! ### The lines of the inodes -/

lemma width_natCast_le {n k : ℕ} (hk : 0 < k) (h : n < 10 ^ k) : width n ≤ k := by
  have hwidth := width_le hk (n := n) (by rwa [Int.natAbs_natCast])
  rwa [if_neg (by omega)] at hwidth

lemma width_toInt_le (x : UInt32) : width (toInt x) ≤ 11 := by
  have hx := x.toNat_lt
  have hwidth : width (toInt x) ≤ 10 + _ := width_le (by omega) (by unfold toInt; split <;> omega)
  split at hwidth <;> omega

lemma width_toInt_block {x : UInt32} (hx : x.toNat < 2 ^ 21) : width (toInt x) ≤ 7 := by
  rw [toInt_of_lt (by omega)]
  exact width_natCast_le (by omega) (by omega)

/-- Fifteen blocks, or what stands in place of the first one in a symbolic link. -/
lemma pointers_le {x : Inode}
    (hsmall : formatSymbol x.iMode ≠ 's' → ∀ b ∈ x.iBlock.toList, b.toNat < 2 ^ 21) :
    widths ((printedPointers x).map toInt) + (printedPointers x).length ≤ 120 := by
  have hsum : ∀ k, (∀ b ∈ printedPointers x, width (toInt b) ≤ k) →
      widths ((printedPointers x).map toInt) ≤ (printedPointers x).length * k := fun k h => by
    unfold widths
    rw [List.map_map]
    refine (List.sum_le_card_nsmul _ k fun w hw => ?_).trans (by simp)
    obtain ⟨b, hb, rfl⟩ := List.mem_map.mp hw
    exact h b hb
  by_cases hlink : formatSymbol x.iMode = 's'
  · have hlength : (printedPointers x).length ≤ 1 := by
      unfold printedPointers
      rw [if_pos hlink]
      exact List.length_take_le 1 _
    have := hsum 11 fun b _ => width_toInt_le b
    omega
  · have hlength : (printedPointers x).length = 15 := by
      unfold printedPointers
      rw [if_neg hlink, Vector.length_toList]
    have := hsum 7 fun b hb => width_toInt_block (hsmall hlink b (by
      unfold printedPointers at hb
      rwa [if_neg hlink] at hb))
    omega

lemma inBuffer_inodeLine {strftime : UInt32 → Text} {x : NumberedInode}
    (htime : ∀ t, (encode (strftime t)).length = 17)
    (hnum : 0 ≤ x.inodeNum ∧ x.inodeNum < 10 ^ 10)
    (hsmall : formatSymbol x.inode.iMode ≠ 's' → ∀ b ∈ x.inode.iBlock.toList, b.toNat < 2 ^ 21) :
    InBuffer 255 (inodeLine strftime x) := by
  have hnumber : width x.inodeNum ≤ 10 := by
    obtain ⟨n, hn⟩ := Int.eq_ofNat_of_zero_le hnum.1
    rw [hn]
    exact width_natCast_le (by omega) (by omega)
  have hsymbol : (encode [formatSymbol x.inode.iMode]).length = 1 := by
    unfold formatSymbol
    dsimp only
    split_ifs <;> decide +kernel
  have hmode : (encode (Nat.toDigits 8 (x.inode.iMode.toNat % 4096))).length ≤ 4 := by
    rw [length_encode fun c hc => (Char.isDigit_iff_toNat.mp
      (Nat.isDigit_of_mem_toDigits (by omega) (by omega) hc)).2.trans_lt (by decide)]
    exact (Nat.length_toDigits_le_iff (by omega) (by omega)).mpr (Nat.mod_lt _ (by omega))
  have hshort : ∀ k : UInt16, (encode (decimal k.toNat)).length ≤ 5 := fun k => by
    have hk := k.toNat_lt
    exact (length_encode_intText k.toNat).le.trans (width_natCast_le (by omega) (by omega))
  have hint : ∀ k : UInt32, (encode (unsignedText k)).length = width (toInt k) := fun k =>
    length_encode_intText (toInt k)
  have hlist : (((printedPointers x.inode).map unsignedText).map fun f => (encode f).length).sum =
      widths ((printedPointers x.inode).map toInt) := by
    unfold widths
    rw [List.map_map, List.map_map]
    exact congrArg List.sum (List.map_congr_left fun b _ => hint b)
  have hword : (encode "INODE".toList).length = 5 := by decide +kernel
  have hpointers := pointers_le hsmall
  have huid := hshort x.inode.iUid
  have hgid := hshort x.inode.iGid
  have hlinks := hshort x.inode.iLinksCount
  have hsize := width_toInt_le x.inode.iSize
  have hblocks := width_toInt_le x.inode.iBlocks
  unfold InBuffer inodeLine
  rw [length_line (by simp), List.map_append, List.sum_append, hlist, List.length_append,
    List.length_map]
  simp only [List.map_cons, List.map_nil, List.sum_cons, List.sum_nil, List.length_cons,
    List.length_nil, htime, hint, hword, hsymbol, length_encode_intText]
  omega

/-- **When the lines fit** into their buffers, if the blocks are small: exactly when the numbers
of the superblock, of the groups, of the free inodes, of the entries and of the indirect records
are not too wide. The lines of free blocks and of inodes always fit. -/
theorem linesFit_iff {strftime : UInt32 → Text} {memory : ℕ → Memory} (hsmall : SmallBlocks img)
    (htime : ∀ t, (encode (strftime t)).length = 17) :
    LinesFit strftime memory img ↔ Narrow memory img := by
  have hifree : (encode "IFREE".toList).length = 5 := by decide +kernel
  have hbfree : (encode "BFREE".toList).length = 5 := by decide +kernel
  have hdirent : ∀ d : (Dirent × ℕ) × ℕ,
      InBuffer 255 (file d.1.1.entry (memory d.1.2)) ∧ InBuffer 300 (entryLine memory d.1 d.2) ↔
        (nameText d.1.1.entry (memory d.1.2)).length ≤ 254 ∧
          widths (direntNumbers d.1.1 d.2) + (nameText d.1.1.entry (memory d.1.2)).length ≤ 284 :=
    fun d => by
      rw [inBuffer_file_iff]
      exact and_congr_right fun h => inBuffer_entryLine_iff h
  constructor
  · intro h
    exact ⟨superblock_iff.mp h.superblock,
      fun g hg hleft => inBuffer_groupLine_iff.mp (h.group g hg hleft),
      fun n hn => (inBuffer_free_iff hifree n).mp (h.ifree n hn),
      fun i hi d hd hlt => (hdirent d).mp (h.dirent i hi d hd hlt),
      fun i hi r hr => inBuffer_indirectLine_iff.mp (h.indirect i hi r hr)⟩
  · intro h
    refine ⟨superblock_iff.mpr h.superblock,
      fun g hg hleft => inBuffer_groupLine_iff.mpr (h.group g hg hleft),
      fun n hn => (inBuffer_free_iff hbfree n).mpr ?_,
      fun n hn => (inBuffer_free_iff hifree n).mpr (h.ifree n hn), fun i hi x hx => ?_,
      fun i hi d hd hlt => (hdirent d).mpr (h.dirent i hi d hd hlt),
      fun i hi r hr => inBuffer_indirectLine_iff.mpr (h.indirect i hi r hr)⟩
    · have := hsmall.bfree n hn
      omega
    · obtain ⟨hmem, hnum⟩ := List.mem_filter.mp hx
      have hcount := img.sblock.sInodesCount.toNat_lt
      have hi := List.mem_range'_1.mp hi
      rw [decide_eq_true_eq] at hnum
      exact inBuffer_inodeLine htime (by omega) (hsmall.inode x hmem)

end

lemma forall_lt_of_all {l : List UInt32} (h : l.all (·.toNat < 2 ^ 21)) :
    ∀ b ∈ l, b.toNat < 2 ^ 21 := fun b hb => of_decide_eq_true (List.all_eq_true.mp h b hb)

lemma smallBlocks_secondGroup : SmallBlocks secondGroupImage where
  group := by
    have hall : ∀ g ∈ secondGroupImage.group,
        [g.bgBlockBitmap, g.bgInodeBitmap, g.bgInodeTable].all (·.toNat < 2 ^ 21) := by
      decide +kernel
    exact fun g hg => forall_lt_of_all (hall g hg)
  bfree := by decide +kernel
  inode := by
    have hall : ∀ x ∈ secondGroupImage.inodes,
        x.inode.iBlock.toList.all (·.toNat < 2 ^ 21) := by decide +kernel
    exact fun x hx _ => forall_lt_of_all (hall x hx)
  indirect := by decide +kernel

/-- The lines of an image with two groups and one inode fit. -/
theorem linesFit_secondGroup :
    LinesFit (fun _ => "01/01/70 00:00:00".toList) (fun _ => ⟨[], []⟩) secondGroupImage := by
  have hsize : shiftLeft 1024 secondGroupImage.sblock.sLogBlockSize = .ok 1024 := by
    decide +kernel
  have hgroup : ∀ g ∈ secondGroupImage.group.zipIdx,
      widths (groupNumbers secondGroupImage.sblock g) ≤ 49 := by decide +kernel
  refine (linesFit_iff smallBlocks_secondGroup fun _ => by decide +kernel).mpr
    ⟨fun size h => ?_, fun g hg _ => hgroup g hg, by decide +kernel, by decide +kernel,
      by decide +kernel⟩
  obtain rfl := Except.ok.inj (hsize.symm.trans h)
  decide +kernel

/-! ### A superblock with wide numbers -/

/-- The sign bit of four numbers of the superblock is set, and there is one group. -/
def wideSuperblock : ImageFile :=
  .ofCells 4096 [(1027, 0x80), (1028, 1), (1059, 0x80), (1067, 0x80), (1080, 0x53), (1081, 0xEF),
    (1111, 0x80)]

def wideSuperblockImage : Image where
  sblock := wideSuperblock.superBlock 1024
  group := [wideSuperblock.groupDesc 2048]
  bfree := []
  ifree := []
  inodes := []
  dirents := []
  indirects := []

/-- The line of the superblock has 68 characters. -/
theorem wideSuperblock_overflows :
    scanImage 1 wideSuperblock = .ok wideSuperblockImage ∧ SmallBlocks wideSuperblockImage ∧
      ¬ LinesFit (fun _ => "01/01/70 00:00:00".toList) (fun _ => ⟨[], []⟩) wideSuperblockImage := by
  have hgroup : wideSuperblockImage.group = [⟨0, 0, 0, 0, 0⟩] := by decide +kernel
  refine ⟨by decide +kernel, ⟨fun g hg => forall_lt_of_all ?_, by decide +kernel, by decide +kernel,
    by decide +kernel⟩, fun h => ?_⟩
  · obtain rfl := List.mem_singleton.mp (hgroup ▸ hg)
    decide +kernel
  have hline := superblock_iff.mp h.superblock 1024 (by decide +kernel)
  exact absurd hline (by decide +kernel)

end LowLevelTasks.LineWidths
