import LowLevelTasks.Folds
import LowLevelTasks.Lab3b
import LowLevelTasks.Reports

/-!
The passes of the analyser over the lines of a report, in terms of the records of the report:
what the analyser reads off each line is what the record says. The directory entries come in
the order of their lines, which is the order of the numbers of their directories as they are
written.
-/

namespace LowLevelTasks.Passes

open LowLevelTasks.Folds LowLevelTasks.Lab3b LowLevelTasks.Reports LowLevelTasks.RubyArray
open LowLevelTasks.RubyFloat LowLevelTasks.RubyText

/-- The header of a report with this superblock and this one group. -/
def header (sb : Superblock) (g : Group) : Option Header :=
  (fdivCeil (sb.inodes * sb.inodeSize) sb.blockSize).map fun size =>
    ⟨sb.blocks, sb.inodes, g.inodeTable + size - 1, sb.firstInode - 1⟩

/-- The tables before the first pass. -/
def start (sb : Superblock) : St :=
  ⟨List.replicate sb.blocks (some .unreferenced),
    List.replicate (sb.inodes + 1) (some .unreferenced),
    []⟩

def bfreeRecord (s : St) (b : ℕ) : Option St := s.putBlock b .free

def ifreeRecord (s : St) (n : ℕ) : Option St := s.putInode n .free

variable (h : Header)

def inodeRecord (s : St) (q : InodeRecord) : Option St := do
  let s := if get s.inodeHash q.number = some .free then
      s.err (Err.free "all_ino".toList q.number)
    else s
  let s ← s.putInode q.number (.scanned ⟨q.linkCount, 0, 0⟩)
  if q.type = .symlink then some s
  else q.iBlock.zipIdx.foldlM (fun s p => Lab3b.iBlock h q.number s p.2 p.1) s

def direntRecord (s : St) (e : DirentRecord) : Option St := dirent h s e.dir e.inode e.name

def indirectRecord (s : St) (x : IndirectRecord) : Option St :=
  indirect h s x.inode x.level x.offset x.refBlock

/-- Directory entries in the order of their lines. -/
def sortLines (es : List DirentRecord) : List DirentRecord :=
  es.insertionSort fun e e' => (Record.dirent e).text ≤ (Record.dirent e').text

def sortedDirents (r : Report) : List DirentRecord := sortLines r.dirents

/-- The last field of a line, without quotes. -/
def readName (line : Text) : Option Text := (split line).getLast?.map (remove '\'')

/-- The name that is read off the line of an entry, which is another one than the name in it if
that has a comma or a quote. -/
def nameRead (e : DirentRecord) : Text := (readName (Record.dirent e).text).getD []

def direntRead (s : St) (e : DirentRecord) : Option St := dirent h s e.dir e.inode (nameRead e)

/-- The passes over the lines of records, of which the first superblock and the first group
count. -/
def linesAnalysis (xs : List Record) (sb : Superblock) (g : Group) : Option (List Text) := do
  let h ← header sb g
  let s ← (xs.filterMap Record.bfree?).foldlM bfreeRecord (start sb)
  let s ← (xs.filterMap Record.ifree?).foldlM ifreeRecord s
  let s ← (xs.filterMap Record.inode?).foldlM (inodeRecord h) s
  let s ← s.setParent 2 2
  let s ← (sortLines (xs.filterMap Record.dirent?)).foldlM (direntRead h) s
  let s ← (xs.filterMap Record.indirect?).foldlM (indirectRecord h) s
  some (finalReports h s).errList

/-- The analysis as far as the entries of the directories. -/
def entriesRead (contents : Text) : Option (Header × St) := do
  let (h, s) ← scanHeader contents
  let s ← (scan "BFREE".toList contents).foldlM bfreeLine s
  let s ← (scan "IFREE".toList contents).foldlM ifreeLine s
  let s ← (scan "INODE".toList contents).foldlM (inodeLine h) s
  let s ← s.setParent 2 2
  let s ← (sort (scan "DIRENT".toList contents)).foldlM (direntLine h) s
  some (h, s)

def linesRead (xs : List Record) (sb : Superblock) (g : Group) : Option (Header × St) := do
  let h ← header sb g
  let s ← (xs.filterMap Record.bfree?).foldlM bfreeRecord (start sb)
  let s ← (xs.filterMap Record.ifree?).foldlM ifreeRecord s
  let s ← (xs.filterMap Record.inode?).foldlM (inodeRecord h) s
  let s ← s.setParent 2 2
  let s ← (sortLines (xs.filterMap Record.dirent?)).foldlM (direntRead h) s
  some (h, s)

def recordAnalysis (r : Report) (sb : Superblock) (g : Group) : Option (List Text) := do
  let h ← header sb g
  let s ← r.bfrees.foldlM bfreeRecord (start sb)
  let s ← r.ifrees.foldlM ifreeRecord s
  let s ← r.inodes.foldlM (inodeRecord h) s
  let s ← s.setParent 2 2
  let s ← (sortedDirents r).foldlM (direntRecord h) s
  let s ← r.indirects.foldlM (indirectRecord h) s
  some (finalReports h s).errList

variable {h} {r : Report}

/-! ### Single lines -/

lemma bfreeLine_text (s : St) (b : ℕ) : bfreeLine s (Record.bfree b).text = bfreeRecord s b := by
  unfold bfreeLine bfreeRecord
  rw [text_bfree, firstDigits_append b rfl, toI_decimal]

lemma ifreeLine_text (s : St) (n : ℕ) : ifreeLine s (Record.ifree n).text = ifreeRecord s n := by
  unfold ifreeLine ifreeRecord
  rw [text_ifree, firstDigits_append n rfl, toI_decimal]

lemma zipIdx_eq_map_range (xs : List ℕ) :
    xs.zipIdx = (List.range xs.length).map fun i => (xs.getD i 0, i) := by
  apply List.ext_getElem
  · simp
  · intro i h1 h2
    have hi : i < xs.length := by simpa using h1
    simp [hi]

lemma inodeLine_text {q : InodeRecord} (hq : q.Plain) (s : St) :
    inodeLine h s (Record.inode q).text = inodeRecord h s q := by
  have hnumber : field q.fields 1 = decimal q.number := rfl
  have hlinks : field q.fields 6 = decimal q.linkCount := rfl
  have htype : q.fields[2]? = some [q.type.symbol] := rfl
  have hsymlink : [q.type.symbol] = "s".toList ↔ q.type = .symlink := by
    cases q.type <;> decide
  have hblock : ∀ num < q.iBlock.length,
      field q.fields (num + 12) = decimal (q.iBlock.getD num 0) := by
    intro num hnum
    unfold field InodeRecord.fields
    simp [hnum]
  have hsplit : split (Record.inode q).text = q.fields := split_text (x := .inode q) hq
  unfold inodeLine inodeRecord
  simp only [hsplit, hnumber, hlinks, htype, toI_decimal, Option.bind_eq_bind, Option.bind_some,
    hsymlink]
  refine Option.bind_congr fun s' _ => ?_
  split
  · rfl
  · next hsym =>
    rw [zipIdx_eq_map_range, hq.2 hsym, List.foldlM_map]
    refine foldlM_congr (fun num hnum s => ?_) s'
    rw [hblock num (by rw [hq.2 hsym]; exact List.mem_range.mp hnum), toI_decimal]

lemma remove_quotes {name : Text} (h : '\'' ∉ name) :
    remove '\'' ('\'' :: name ++ ['\'']) = name := by
  have hname : name.filter (· ≠ '\'') = name := by
    rw [List.filter_eq_self]
    intro c hc
    simpa using fun hcq : c = '\'' => h (hcq ▸ hc)
  unfold remove
  rw [List.cons_append, List.filter_cons_of_neg (by simp), List.filter_append, hname]
  simp

lemma direntLine_eq (e : DirentRecord) (s : St) :
    direntLine h s (Record.dirent e).text = direntRead h s e := by
  have hdir : field e.fields 1 = decimal e.dir := rfl
  have hinode : field e.fields 3 = decimal e.inode := rfl
  have hword : field e.fields 0 = "DIRENT".toList := rfl
  obtain ⟨last, hlast⟩ : ∃ last, (split (Record.dirent e).text).getLast? = some last := by
    cases hsplit : split (Record.dirent e).text with
    | nil =>
      have hfield := field_dirent e (by decide : 0 < 6)
      rw [hsplit, hword] at hfield
      cases hfield
    | cons f fs => exact ⟨_, List.getLast?_eq_some_getLast (by simp)⟩
  unfold direntLine direntRead nameRead readName
  simp only [hlast, field_dirent e (by decide : 1 < 6), field_dirent e (by decide : 3 < 6), hdir,
    hinode, toI_decimal, Option.bind_eq_bind, Option.bind_some, Option.map_some, Option.getD_some]

lemma nameRead_of_plain {e : DirentRecord} (he : e.Plain) : nameRead e = e.name := by
  have hsplit : split (Record.dirent e).text = e.fields := split_text (x := .dirent e) he
  have hlast : e.fields.getLast? = some ('\'' :: e.name ++ ['\'']) := by
    unfold DirentRecord.fields
    rw [List.getLast?_concat]
  unfold nameRead readName
  rw [hsplit, hlast, Option.map_some, remove_quotes he.2, Option.getD_some]

lemma indirectLine_text (s : St) (x : IndirectRecord) :
    indirectLine h s (Record.indirect x).text = indirectRecord h s x := by
  have hsplit : split (Record.indirect x).text = x.fields := split_text (x := .indirect x) trivial
  unfold indirectLine indirectRecord
  rw [hsplit]
  simp [IndirectRecord.fields]

section lines

variable {xs : List Record} {sb : Superblock} {g : Group}

lemma scanHeader_lines (hline : ∀ x ∈ xs, '\n' ∉ x.text)
    (hsb : (xs.filterMap Record.superblock?).head? = some sb)
    (hg : (xs.filterMap Record.group?).head? = some g) :
    scanHeader (unlines (xs.map Record.text)) = (header sb g).map fun h => (h, start sb) := by
  have hsplit : split (Record.superblock sb).text = sb.fields :=
    split_text (x := .superblock sb) trivial
  have hsplit' : split (Record.group g).text = g.fields := split_text (x := .group g) trivial
  have hfields : superblockFields (sb.fields.map toI) =
      some (↑sb.blocks, ↑sb.inodes, ↑sb.blockSize, ↑sb.inodeSize, ↑sb.firstInode) := by
    simp [Superblock.fields, superblockFields]
  have hlast : (g.fields.map toI).getLast? = some (g.inodeTable : ℤ) := by
    simp [Group.fields]
  have hcount : ((sb.inodes : ℤ) + 1).toNat = sb.inodes + 1 := by omega
  have hneg : ¬ ((sb.blocks : ℤ) < 0 ∨ (sb.inodes : ℤ) + 1 < 0) := by omega
  unfold scanHeader header start
  rw [scan_superblock hline, scan_group hline, List.head?_map, List.head?_map, hsb, hg]
  simp only [Option.map_some, Option.bind_eq_bind, Option.bind_some, hsplit, hsplit', hfields,
    hlast, if_neg hneg, hcount, Int.toNat_natCast, Option.map_map]
  cases fdivCeil (sb.inodes * sb.inodeSize) sb.blockSize <;> rfl

lemma map_sortLines (es : List DirentRecord) :
    (sortLines es).map (fun e => (Record.dirent e).text) =
      sort (es.map fun e => (Record.dirent e).text) := by
  unfold sortLines sort
  exact List.map_insertionSort _ _ _ _ fun _ _ _ _ => Iff.rfl

theorem entriesRead_lines (hline : ∀ x ∈ xs, '\n' ∉ x.text)
    (hplain : ∀ q ∈ xs.filterMap Record.inode?, q.Plain)
    (hsb : (xs.filterMap Record.superblock?).head? = some sb)
    (hg : (xs.filterMap Record.group?).head? = some g) :
    entriesRead (unlines (xs.map Record.text)) = linesRead xs sb g := by
  have hinodes : ∀ (h : Header) (s : St), ((xs.filterMap Record.inode?).map fun q =>
      (Record.inode q).text).foldlM (inodeLine h) s =
        (xs.filterMap Record.inode?).foldlM (inodeRecord h) s := fun h s => by
    rw [List.foldlM_map]
    exact foldlM_congr (fun q hq s => inodeLine_text (hplain q hq) s) s
  unfold entriesRead linesRead
  rw [scanHeader_lines hline hsb hg, scan_bfree hline, scan_ifree hline, scan_inode hline,
    scan_dirent hline, ← map_sortLines]
  simp only [hinodes, List.foldlM_map, bfreeLine_text, ifreeLine_text, direntLine_eq]
  cases header sb g <;> rfl

/-- **The analysis of lines**, in terms of the records they were written from. -/
theorem analysis_lines (hline : ∀ x ∈ xs, '\n' ∉ x.text)
    (hplain : ∀ q ∈ xs.filterMap Record.inode?, q.Plain)
    (hsb : (xs.filterMap Record.superblock?).head? = some sb)
    (hg : (xs.filterMap Record.group?).head? = some g) :
    analysis (unlines (xs.map Record.text)) = linesAnalysis xs sb g := by
  have hrest : ∀ contents, analysis contents = (entriesRead contents).bind fun p =>
      ((scan "INDIRECT".toList contents).foldlM (indirectLine p.1) p.2).bind fun s =>
        some (finalReports p.1 s).errList := fun contents => by
    unfold analysis entriesRead
    simp only [Option.bind_eq_bind, Option.bind_assoc, Option.bind_some]
  rw [hrest, entriesRead_lines hline hplain hsb hg, scan_indirect hline]
  unfold linesRead linesAnalysis
  simp only [List.foldlM_map, indirectLine_text, Option.bind_eq_bind, Option.bind_assoc,
    Option.bind_some]

end lines

/-! ### The order of the directory entries -/

lemma perm_sortLines (es : List DirentRecord) : (sortLines es).Perm es :=
  List.perm_insertionSort _ _

lemma mem_sortLines {e : DirentRecord} {es : List DirentRecord} : e ∈ sortLines es ↔ e ∈ es :=
  (perm_sortLines es).mem_iff

lemma perm_sortedDirents (r : Report) : (sortedDirents r).Perm r.dirents := perm_sortLines _

lemma text_dirent (e : DirentRecord) :
    ∃ s, (Record.dirent e).text = "DIRENT,".toList ++ (decimal e.dir ++ ',' :: s) := by
  obtain ⟨fields, hfields⟩ : ∃ fields, e.fields =
      "DIRENT".toList :: decimal e.dir :: decimal e.offset :: fields := ⟨_, rfl⟩
  refine ⟨csv (decimal e.offset :: fields), ?_⟩
  change csv e.fields = _
  rw [hfields, csv_cons_cons, csv_cons_cons]
  rfl

lemma text_lt_text {e e' : DirentRecord} (hlt : decimal e.dir < decimal e'.dir) :
    (Record.dirent e).text < (Record.dirent e').text := by
  have hdigit : ∀ n, ∀ c ∈ decimal n, c.isDigit := fun n c => isDigit_of_mem_decimal
  obtain ⟨s, hs⟩ := text_dirent e
  obtain ⟨s', hs'⟩ := text_dirent e'
  rw [hs, hs', append_lt_append_left]
  exact (lt_of_digits (hdigit _) (hdigit _) hlt.ne).mpr hlt

/-- The entries of a directory stand before those of another if its number does, written in
decimal. -/
theorem sorted_sortedDirents (r : Report) :
    (sortedDirents r).Pairwise fun e e' => e.dir ≠ e'.dir → decimal e.dir < decimal e'.dir := by
  have hsorted := pairwise_sort (r.dirents.map fun e => (Record.dirent e).text)
  rw [← map_sortLines, List.pairwise_map] at hsorted
  refine hsorted.imp fun {e e'} hle hne => ?_
  rcases lt_or_gt_of_ne (decimal_injective.ne hne) with hlt | hgt
  · exact hlt
  · exact absurd hle (text_lt_text hgt).not_ge

/-! ### The whole analysis -/

/-- **The analysis of a report** with one superblock and one group, in terms of its records. -/
theorem analysis_text {sb : Superblock} {g : Group} (hsb : r.superblocks = [sb])
    (hg : r.groups = [g]) : analysis r.text = recordAnalysis r sb g := by
  have hdirents : ∀ (h : Header) (s : St),
      (sortLines r.dirents).foldlM (direntRead h) s =
        (sortedDirents r).foldlM (direntRecord h) s := fun h s =>
    foldlM_congr (fun e he s => by
      have hplain := plain_of_mem_dirents ((perm_sortedDirents r).mem_iff.mp he)
      unfold direntRead direntRecord
      rw [nameRead_of_plain hplain]) s
  have hlines : analysis r.text = linesAnalysis r.records sb g :=
    analysis_lines r.newline_notMem (fun q hq => plain_of_mem_inodes hq)
      (congrArg List.head? hsb) (congrArg List.head? hg)
  rw [hlines]
  unfold linesAnalysis recordAnalysis
  refine Option.bind_congr fun h _ => Option.bind_congr fun s₁ _ => Option.bind_congr fun s₂ _ =>
    Option.bind_congr fun s₃ _ => Option.bind_congr fun s₄ _ => ?_
  exact congrArg (Option.bind · _) (hdirents h s₄)

end LowLevelTasks.Passes
