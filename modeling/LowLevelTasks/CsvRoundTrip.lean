import LowLevelTasks.CsvRecords
import LowLevelTasks.Passes

/-!
Writing a report and reading it back. The analyser finds in a written report, line by line,
the numbers that the scan of the image has found, although the names of the entries may have
commas and quotes.
-/

namespace LowLevelTasks.CsvRoundTrip

open LowLevelTasks.CsvRecords LowLevelTasks.CsvWriter LowLevelTasks.Folds
  LowLevelTasks.ImgReader LowLevelTasks.Lab3b LowLevelTasks.Loops LowLevelTasks.Reports
  LowLevelTasks.RubyText LowLevelTasks.ScanImage

/-! ### What the analyser reads off a line -/

/-- The number, the type, the link count and the pointers of an `INODE` line. -/
def inodeFields (line : Text) : Option (ℤ × Text × ℤ × List ℤ) := do
  let e := split line
  let type ← e[2]?
  some (toI (field e 1), type, toI (field e 6),
    if type = "s".toList then [] else (List.range 15).map fun num => toI (field e (num + 12)))

/-- The directory and the inode of a `DIRENT` line. -/
def direntFields (line : Text) : ℤ × ℤ :=
  let e := split line
  (toI (field e 1), toI (field e 3))

def indirectFields (line : Text) : Option (ℤ × ℤ × ℤ × ℤ × ℤ) :=
  match (split line).map toI with
  | _ :: inode :: level :: offset :: block :: refBlock :: _ =>
    some (inode, level, offset, block, refBlock)
  | _ => none

section congr

variable {h : Header} {s : St} {line line' : Text}

/-- The analyser looks at nothing else in an `INODE` line. -/
lemma inodeLine_congr (heq : inodeFields line = inodeFields line') :
    inodeLine h s line = inodeLine h s line' := by
  unfold inodeFields at heq
  unfold inodeLine
  cases htype : (split line)[2]? with
  | none =>
    cases htype' : (split line')[2]? with
    | none => simp only [htype, htype', Option.bind_eq_bind, Option.bind_none]
    | some type' =>
      simp only [htype, htype', Option.bind_eq_bind, Option.bind_none, Option.bind_some,
        reduceCtorEq] at heq
  | some type =>
    cases htype' : (split line')[2]? with
    | none =>
      simp only [htype, htype', Option.bind_eq_bind, Option.bind_none, Option.bind_some,
        reduceCtorEq] at heq
    | some type' =>
      simp only [htype, htype', Option.bind_eq_bind, Option.bind_some, Option.some.injEq,
        Prod.mk.injEq] at heq ⊢
      obtain ⟨hnumber, rfl, hlinks, hblocks⟩ := heq
      rw [hnumber, hlinks]
      refine Option.bind_congr fun s' _ => ?_
      split
      · rfl
      · next hsym =>
        rw [if_neg hsym, if_neg hsym] at hblocks
        refine foldlM_congr (fun num hnum s => ?_) s'
        rw [List.map_inj_left.mp hblocks num hnum]

lemma indirectLine_congr (heq : indirectFields line = indirectFields line') :
    indirectLine h s line = indirectLine h s line' := by
  have hline : ∀ l, indirectLine h s l = (indirectFields l).bind fun e =>
      indirect h s e.1 e.2.1 e.2.2.1 e.2.2.2.2 := by
    intro l
    unfold indirectLine indirectFields
    rcases (split l).map toI with
      _ | ⟨_, _ | ⟨_, _ | ⟨_, _ | ⟨_, _ | ⟨_, _ | ⟨_, _⟩⟩⟩⟩⟩⟩ <;> rfl
  rw [hline, hline, heq]

end congr

/-! ### The lines of records -/

lemma inodeFields_text {q : InodeRecord} (hq : q.Plain) :
    inodeFields (Record.inode q).text = some (↑q.number, [q.type.symbol], ↑q.linkCount,
      if q.type = .symlink then [] else q.iBlock.map Nat.cast) := by
  have hnumber : field q.fields 1 = decimal q.number := rfl
  have hlinks : field q.fields 6 = decimal q.linkCount := rfl
  have htype : q.fields[2]? = some [q.type.symbol] := rfl
  have hsymlink : [q.type.symbol] = "s".toList ↔ q.type = .symlink := by
    cases q.type <;> decide
  have hsplit : split (Record.inode q).text = q.fields := split_text (x := .inode q) hq
  unfold inodeFields
  simp only [hsplit, hnumber, hlinks, htype, toI_decimal, Option.bind_eq_bind, Option.bind_some,
    hsymlink]
  split
  · rfl
  · next hsym =>
    have hlength := hq.2 hsym
    have hblocks : (List.range 15).map (fun num => toI (field q.fields (num + 12))) =
        q.iBlock.map Nat.cast := by
      apply List.ext_getElem
      · simp [hlength]
      · intro num h1 h2
        have hnum : num < q.iBlock.length := by simpa using h2
        unfold field InodeRecord.fields
        simp [hnum]
    rw [hblocks]

lemma direntFields_text (e : DirentRecord) :
    direntFields (Record.dirent e).text = (↑e.dir, ↑e.inode) := by
  have hdir : field e.fields 1 = decimal e.dir := rfl
  have hinode : field e.fields 3 = decimal e.inode := rfl
  unfold direntFields
  simp only [field_dirent e (by decide : 1 < 6), field_dirent e (by decide : 3 < 6), hdir, hinode,
    toI_decimal]

lemma indirectFields_text (x : IndirectRecord) :
    indirectFields (Record.indirect x).text =
      some (↑x.inode, ↑x.level, ↑x.offset, ↑x.block, ↑x.refBlock) := by
  have hsplit : split (Record.indirect x).text = x.fields := split_text (x := .indirect x) trivial
  unfold indirectFields
  rw [hsplit]
  simp [IndirectRecord.fields]

/-! ### The records of an image -/

variable {strftime : UInt32 → Text} {memory : ℕ → Memory} {img : Image}

lemma name_of_mem_direntRecords {offset : ℕ} {ds : List (Dirent × ℕ)} {e : DirentRecord}
    (he : e ∈ direntRecords memory offset ds) :
    ∃ d ∈ ds, e.name = (decode (file d.1.entry (memory d.2))).getD [] := by
  induction ds generalizing offset with
  | nil => cases he
  | cons d ds ih =>
    rcases List.mem_cons.mp he with rfl | he
    · exact ⟨d, by simp, rfl⟩
    · obtain ⟨d', hd', hname⟩ := ih he
      exact ⟨d', by simp [hd'], hname⟩

lemma map_direntRecords (offset : ℕ) (ds : List (Dirent × ℕ)) :
    (direntRecords memory offset ds).map (fun e => ((e.dir : ℤ), (e.inode : ℤ))) =
      ds.map fun d => ((d.1.direntParent.toNat : ℤ), (d.1.entry.inode.toNat : ℤ)) := by
  induction ds generalizing offset with
  | nil => rfl
  | cons d ds ih =>
    rw [direntRecords, List.map_cons, List.map_cons, ih]

lemma plain_inodeRecord (htime : ∀ t, PlainText (strftime t)) (x : NumberedInode) :
    (inodeRecord strftime x).Plain := by
  refine ⟨by simp [inodeRecord, htime], fun hne => ?_⟩
  have hsymbol : ¬ formatSymbol x.inode.iMode = 's' := by
    rw [formatSymbol_eq]
    intro hs
    refine hne ?_
    change fileType x.inode.iMode = .symlink
    revert hs
    cases fileType x.inode.iMode <;> decide
  unfold inodeRecord printedPointers
  simp [hsymbol]

/-- Every record is one line. -/
lemma newline_notMem_records (hnames : NamesValid memory img)
    (htime : ∀ t, PlainText (strftime t)) :
    ∀ x ∈ records strftime memory img, '\n' ∉ x.text := by
  intro x hx
  have hdirent : ∀ i, ∀ e ∈ direntRecords memory 0
      (img.dirents.zipIdx.filter (·.1.direntParent = (i : ℤ))), '\n' ∉ (Record.dirent e).text := by
    intro i e he
    obtain ⟨d, hd, hname⟩ := name_of_mem_direntRecords he
    obtain ⟨name, hdecode, hnewline⟩ := hnames d (List.mem_filter.mp hd).1
    rw [hdecode, Option.getD_some] at hname
    refine notMem_csv (by decide) ?_
    unfold Record.fields DirentRecord.fields
    rw [List.forall_mem_append, List.forall_mem_cons, List.forall_mem_singleton, hname]
    exact ⟨⟨by decide, notMem_map_decimal (by decide)⟩, by simp [hnewline]⟩
  simp only [records, inodeRecords, List.mem_append, List.mem_cons, List.mem_map,
    List.mem_flatMap] at hx
  rcases hx with (((rfl | ⟨g, -, rfl⟩) | ⟨n, -, rfl⟩) | ⟨n, -, rfl⟩) |
    ⟨i, -, (⟨q, -, rfl⟩ | ⟨e, he, rfl⟩) | ⟨r, -, rfl⟩⟩
  all_goals first
    | exact newline_notMem_text trivial
    | exact newline_notMem_text (plain_inodeRecord htime q)
    | exact hdirent i e he

section kinds

variable (strftime memory img)

/-- What is taken from the records, kind by kind. -/
lemma filterMap_records {α : Type} (p : Record → Option α) :
    (records strftime memory img).filterMap p =
      (p (.superblock (superblockRecord img.sblock))).toList ++
        img.group.filterMap (fun g => p (.group (groupRecord img.sblock g))) ++
        img.bfree.filterMap (fun n => p (.bfree n.toNat)) ++
        img.ifree.filterMap (fun n => p (.ifree n.toNat)) ++
        (List.range' 1 img.sblock.sInodesCount.toNat).flatMap fun i : ℕ =>
          (img.inodes.filter (·.inodeNum = (i : ℤ))).filterMap
            (fun x => p (.inode (inodeRecord strftime x))) ++
          (direntRecords memory 0 (img.dirents.zipIdx.filter
            (·.1.direntParent = (i : ℤ)))).filterMap (fun e => p (.dirent e)) ++
          (img.indirects.filter (·.inode = .ofInt (i : ℤ))).filterMap
            fun r => p (.indirect (indirectRecord r)) := by
  have hhead : [Record.superblock (superblockRecord img.sblock)].filterMap p =
      (p (.superblock (superblockRecord img.sblock))).toList := by
    cases hp : p (.superblock (superblockRecord img.sblock)) <;> simp [hp]
  unfold records inodeRecords
  rw [← hhead, ← List.singleton_append]
  simp only [List.filterMap_append, List.filterMap_map, List.filterMap_flatMap,
    Function.comp_def]

lemma superblocks_records : (records strftime memory img).filterMap Record.superblock? =
    [superblockRecord img.sblock] := by
  rw [filterMap_records]
  simp [Record.superblock?]

lemma groups_records : (records strftime memory img).filterMap Record.group? =
    img.group.map (groupRecord img.sblock) := by
  rw [filterMap_records]
  simp [Record.group?]

lemma bfrees_records : (records strftime memory img).filterMap Record.bfree? =
    img.bfree.map Int.toNat := by
  rw [filterMap_records]
  simp [Record.bfree?]

lemma ifrees_records : (records strftime memory img).filterMap Record.ifree? =
    img.ifree.map Int.toNat := by
  rw [filterMap_records]
  simp [Record.ifree?]

lemma inodes_records : (records strftime memory img).filterMap Record.inode? =
    (List.range' 1 img.sblock.sInodesCount.toNat).flatMap fun i : ℕ =>
      (img.inodes.filter (·.inodeNum = (i : ℤ))).map (inodeRecord strftime) := by
  rw [filterMap_records]
  simp [Record.inode?]

lemma dirents_records : (records strftime memory img).filterMap Record.dirent? =
    (List.range' 1 img.sblock.sInodesCount.toNat).flatMap fun i : ℕ =>
      direntRecords memory 0 (img.dirents.zipIdx.filter (·.1.direntParent = (i : ℤ))) := by
  rw [filterMap_records]
  simp [Record.dirent?]

lemma indirects_records : (records strftime memory img).filterMap Record.indirect? =
    (List.range' 1 img.sblock.sInodesCount.toNat).flatMap fun i : ℕ =>
      (img.indirects.filter (·.inode = .ofInt (i : ℤ))).map indirectRecord := by
  rw [filterMap_records]
  simp [Record.indirect?]

end kinds

/-! ### The round trip -/

/-- The analyser finds in a text what the scan of an image has found: for each kind of line
the records of that kind, in their order. -/
structure Recovered (img : Image) (contents : Text) : Prop where
  superblock : (scan "SUPERBLOCK".toList contents).map
      (fun line => superblockFields ((split line).map toI)) =
    [some (↑img.sblock.sBlocksCount.toNat, ↑img.sblock.sInodesCount.toNat,
      1024 * 2 ^ img.sblock.sLogBlockSize.toNat, ↑img.sblock.sInodeSize.toNat,
      ↑img.sblock.sFirstIno.toNat)]
  group : (scan "GROUP".toList contents).map (fun line => ((split line).map toI).getLast?) =
    img.group.map fun g => some ↑g.bgInodeTable.toNat
  bfree : (scan "BFREE".toList contents).map (fun line => toI (firstDigits line)) = img.bfree
  ifree : (scan "IFREE".toList contents).map (fun line => toI (firstDigits line)) = img.ifree
  inode : (scan "INODE".toList contents).map inodeFields = img.inodes.map fun x =>
    some (x.inodeNum, [formatSymbol x.inode.iMode], ↑x.inode.iLinksCount.toNat,
      if formatSymbol x.inode.iMode = 's' then []
      else x.inode.iBlock.toList.map fun b => ↑b.toNat)
  dirent : (scan "DIRENT".toList contents).map direntFields =
    img.dirents.map fun d => (d.direntParent, ↑d.entry.inode.toNat)
  indirect : (scan "INDIRECT".toList contents).map indirectFields = img.indirects.map fun r =>
    some (↑r.inode.toNat, ↑r.indirectLevel.toNat, ↑r.blockOffset.toNat, ↑r.indirectBlock.toNat,
      ↑r.referencedBlock.toNat)

lemma map_toNat {l : List ℤ} (h : ∀ n ∈ l, 0 < n) : l.map (fun n => (n.toNat : ℤ)) = l := by
  conv_rhs => rw [← List.map_id l]
  refine List.map_congr_left fun n hn => ?_
  have := h n hn
  simp only [id_eq]
  omega

lemma inodeFields_inodeRecord (htime : ∀ t, PlainText (strftime t)) {x : NumberedInode}
    (hx : 0 ≤ x.inodeNum) : inodeFields (Record.inode (inodeRecord strftime x)).text =
      some (x.inodeNum, [formatSymbol x.inode.iMode], ↑x.inode.iLinksCount.toNat,
        if formatSymbol x.inode.iMode = 's' then []
        else x.inode.iBlock.toList.map fun b => ↑b.toNat) := by
  have hsymlink : fileType x.inode.iMode = .symlink ↔ formatSymbol x.inode.iMode = 's' := by
    rw [formatSymbol_eq]
    cases fileType x.inode.iMode <;> decide
  have hnumber : ((inodeRecord strftime x).number : ℤ) = x.inodeNum := Int.toNat_of_nonneg hx
  have htype : (inodeRecord strftime x).type = fileType x.inode.iMode := rfl
  rw [inodeFields_text (plain_inodeRecord htime x), hnumber, htype, ← formatSymbol_eq]
  simp only [hsymlink]
  congr 4
  split
  · rfl
  · next hs =>
    unfold inodeRecord printedPointers
    rw [if_neg hs, List.map_map]
    rfl

/-- The entries of the directories in turn are all entries. -/
lemma map_dirents (hord : Ordered img) :
    ((List.range' 1 img.sblock.sInodesCount.toNat).flatMap fun i : ℕ =>
      direntRecords memory 0 (img.dirents.zipIdx.filter (·.1.direntParent = (i : ℤ)))).map
        (fun e => ((e.dir : ℤ), (e.inode : ℤ))) =
      img.dirents.map fun d => (d.direntParent, (d.entry.inode.toNat : ℤ)) := by
  obtain ⟨found, hfound, hentries⟩ := hord.dirents
  have hparent : ∀ x ∈ img.inodes, ∀ d ∈ found x, d.direntParent = x.inodeNum :=
    fun x hx => (hentries x hx).1
  have hsorted := hord.inodes.pairwise_flatMap hparent
  have hrange := hord.inodes.range_flatMap hparent
  rw [← hfound] at hsorted hrange
  have hzip : img.dirents.zipIdx.Pairwise fun d d' => d.1.direntParent ≤ d'.1.direntParent := by
    rw [← List.zipIdx_map_fst 0 img.dirents, List.pairwise_map] at hsorted
    exact hsorted
  simp only [List.map_flatMap, map_direntRecords]
  rw [← List.map_flatMap, flatMap_filter_key _ hzip fun d hd =>
    hrange d.1 (List.fst_mem_of_mem_zipIdx hd)]
  have hfst : img.dirents.zipIdx.map (fun d =>
      ((d.1.direntParent.toNat : ℤ), (d.1.entry.inode.toNat : ℤ))) =
      (img.dirents.zipIdx.map Prod.fst).map fun d =>
        ((d.direntParent.toNat : ℤ), (d.entry.inode.toNat : ℤ)) := by
    rw [List.map_map]
    rfl
  rw [hfst, List.zipIdx_map_fst]
  refine List.map_congr_left fun d hd => ?_
  rw [Int.toNat_of_nonneg (by have := hrange d hd; omega)]

/-- The records of the inodes in turn are all indirect records. -/
lemma flatMap_indirects (hord : Ordered img) (hcount : img.sblock.sInodesCount.toNat < 2 ^ 31) :
    ((List.range' 1 img.sblock.sInodesCount.toNat).flatMap fun i : ℕ =>
      img.indirects.filter (·.inode = .ofInt (i : ℤ))) = img.indirects := by
  obtain ⟨found, hfound, howner⟩ := hord.indirects
  have hkey : ∀ x ∈ img.inodes, ∀ r ∈ found x, (r.inode.toNat : ℤ) = x.inodeNum := by
    intro x hx r hr
    have := hord.inodes.range x hx
    rw [howner x hx r hr, toNat_ofInt (by omega) (by omega)]
    omega
  have hsorted := hord.inodes.pairwise_flatMap hkey
  have hrange := hord.inodes.range_flatMap hkey
  rw [← hfound] at hsorted hrange
  have hfilter : ∀ i ∈ List.range' 1 img.sblock.sInodesCount.toNat,
      img.indirects.filter (·.inode = .ofInt (i : ℤ)) =
        img.indirects.filter fun r => (r.inode.toNat : ℤ) = i := by
    intro i hi
    rw [List.mem_range'_1] at hi
    have hi' : (UInt32.ofInt (i : ℤ)).toNat = i := by
      rw [toNat_ofInt (by omega) (by omega)]
      omega
    refine List.filter_congr fun r _ => Bool.eq_iff_iff.mpr ?_
    simp only [decide_eq_true_eq]
    rw [← UInt32.toNat_inj, hi']
    omega
  rw [List.flatMap_congr hfilter]
  exact flatMap_filter_key _ hsorted hrange

/-- **The analyser recovers** what the records of an ordered image say. -/
theorem recovered_records (hord : Ordered img) (h : FieldsBelow img)
    (hnames : NamesValid memory img) (htime : ∀ t, PlainText (strftime t)) :
    Recovered img (unlines ((records strftime memory img).map Record.text)) := by
  have hline := newline_notMem_records hnames htime
  have hcount : img.sblock.sInodesCount.toNat < 2 ^ 31 := h.superblock _ (by simp)
  constructor
  · have hsplit : ∀ sb, split (Record.superblock sb).text = sb.fields := fun sb =>
      split_text (x := .superblock sb) trivial
    rw [scan_superblock hline, superblocks_records]
    simp [hsplit, Superblock.fields, superblockFields, superblockRecord]
  · have hsplit : ∀ g, split (Record.group g).text = g.fields := fun g =>
      split_text (x := .group g) trivial
    rw [scan_group hline, groups_records]
    simp [hsplit, Group.fields, groupRecord]
  · have htext : ∀ b, toI (firstDigits (Record.bfree b).text) = b := fun b => by
      rw [text_bfree, firstDigits_append b rfl, toI_decimal]
    rw [scan_bfree hline, bfrees_records, List.map_map, List.map_map]
    simp only [Function.comp_def, htext]
    exact map_toNat hord.bfree
  · have htext : ∀ n, toI (firstDigits (Record.ifree n).text) = n := fun n => by
      rw [text_ifree, firstDigits_append n rfl, toI_decimal]
    rw [scan_ifree hline, ifrees_records, List.map_map, List.map_map]
    simp only [Function.comp_def, htext]
    exact map_toNat hord.ifree
  · have hsorted : img.inodes.Pairwise fun x y => x.inodeNum ≤ y.inodeNum :=
      hord.inodes.pairwise.imp fun hlt => hlt.le
    rw [scan_inode hline, inodes_records, ← List.map_flatMap,
      flatMap_filter_key _ hsorted hord.inodes.range, List.map_map, List.map_map]
    refine List.map_congr_left fun x hx => ?_
    have := (hord.inodes.range x hx).1
    exact inodeFields_inodeRecord htime (by omega)
  · rw [scan_dirent hline, dirents_records, List.map_map, ← map_dirents hord]
    refine List.map_congr_left fun e _ => direntFields_text e
  · rw [scan_indirect hline, indirects_records, ← List.map_flatMap,
      flatMap_indirects hord hcount, List.map_map, List.map_map]
    exact List.map_congr_left fun r _ => indirectFields_text _

/-- **Writing and reading back.** The report of an image with one group is valid text, and the
analyser recovers from it what the scan has found. -/
theorem printCsv_recovered {fuel : ℕ} {f : ImageFile} (hscan : scanImage fuel f = .ok img)
    (hgroup : img.group.length = 1) (h : FieldsBelow img) (hnames : NamesValid memory img)
    (htime : ∀ t, PlainText (strftime t)) :
    ∃ out contents, printCsv strftime memory img = .ok out ∧ decode out = some contents ∧
      Recovered img contents := by
  have hord := scanImage_ordered hscan hgroup
  exact ⟨_, _, printCsv_eq hord h hnames, decode_encode _,
    recovered_records hord h hnames htime⟩

/-- A directory with an entry whose name has a comma and a quote, and with an indirect
block. Nothing stands in the first block, nor behind the first pointer of the last one. -/
def oneDirectory : ImageFile where
  size := 8192
  byte a :=
    if 1024 ≤ a ∧ a < 7172 then
      (ImageFile.ofCells 8192 [(1024, 8), (1028, 8), (1056, 8), (1064, 8), (1080, 0x53),
        (1081, 0xEF), (1108, 11), (1112, 128), (2048, 3), (2052, 4), (2056, 5), (2060, 1),
        (2062, 1), (3072, 0xF7), (4096, 0xFB), (5248, 0xED), (5249, 0x41), (5274, 2), (5288, 6),
        (5336, 7), (6144, 2), (6148, 12), (6150, 1), (6152, 46), (6156, 2), (6160, 0xF4),
        (6161, 3), (6162, 4), (6164, 97), (6165, 44), (6166, 39), (6167, 98), (7168, 9)]).byte a
    else 0
  beyond _ h := if_neg (by omega)

def oneDirectoryImage : Image where
  sblock := oneDirectory.superBlock 1024
  group := [oneDirectory.groupDesc 2048]
  bfree := [4]
  ifree := [3]
  inodes := [⟨2, oneDirectory.inode 5248⟩]
  dirents := [⟨2, ⟨2, 12, 1, encode ".".toList⟩⟩, ⟨2, ⟨2, 1012, 4, encode "a,'b".toList⟩⟩]
  indirects := [⟨2, 1, 12, 7, 9⟩]

lemma namesValid_oneDirectory : NamesValid (fun _ => ⟨[], []⟩) oneDirectoryImage := by
  have hfile : ∀ d ∈ oneDirectoryImage.dirents.zipIdx, ∃ name ∈ [".".toList, "a,'b".toList],
      file d.1.entry ⟨[], []⟩ = encode name ∧ '\n' ∉ name := by decide +kernel
  intro d hd
  obtain ⟨name, -, hname, hnewline⟩ := hfile d hd
  exact ⟨name, by rw [hname, decode_encode], hnewline⟩

lemma fieldsBelow_oneDirectory : FieldsBelow oneDirectoryImage := by
  have hall : ∀ l : List UInt32, l.all (·.toNat < 2 ^ 31) → ∀ x ∈ l, x.toNat < 2 ^ 31 := by simp
  exact
    { superblock := hall _ (by decide +kernel)
      blockSize := by decide +kernel
      group := List.forall_mem_singleton.mpr (hall _ (by decide +kernel))
      inode := List.forall_mem_singleton.mpr (hall _ (by decide +kernel))
      dirent := by decide +kernel
      indirect := List.forall_mem_singleton.mpr (hall _ (by decide +kernel)) }

theorem printCsv_recovered_oneDirectory :
    ∃ out contents, printCsv (fun _ => "01/01/70 00:00:00".toList) (fun _ => ⟨[], []⟩)
      oneDirectoryImage = .ok out ∧ decode out = some contents ∧
        Recovered oneDirectoryImage contents := by
  have hscan : scanImage 3 oneDirectory = .ok oneDirectoryImage := by decide +kernel
  exact printCsv_recovered hscan rfl fieldsBelow_oneDirectory namesValid_oneDirectory
    fun _ => by decide

end LowLevelTasks.CsvRoundTrip
