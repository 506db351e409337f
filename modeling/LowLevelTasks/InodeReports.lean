import LowLevelTasks.BlockReports
import LowLevelTasks.ConsistentReport
import LowLevelTasks.EntryNames

/-!
What is printed about inodes: that one is free though it has a line, that one has neither, that
an entry names one without a line, and that the links do not add up. Each of these messages is
there for a reason that stands in the report.
-/

namespace LowLevelTasks.InodeReports

open LowLevelTasks.BlockCells LowLevelTasks.BlockReports LowLevelTasks.EntryNames
open LowLevelTasks.Folds LowLevelTasks.InodeCells LowLevelTasks.Lab3b LowLevelTasks.LineRuns
open LowLevelTasks.Messages LowLevelTasks.Passes LowLevelTasks.Reports LowLevelTasks.RubyArray
open LowLevelTasks.RubyText

/-- The superblock that counts. -/
def superblock? (r : LineReport) : Option Superblock :=
  (r.records.filterMap Record.superblock?).head?

variable {r : LineReport} {h : Header} {sb : Superblock} {s s' : St} {m : Text} {n inodes : ℕ}

lemma header_of_superblock (hh : r.header? = some h) (hsb : superblock? r = some sb) :
    h.inodes = sb.inodes ∧ h.reservedInodes = sb.firstInode - 1 := by
  obtain ⟨sb', hsb', hh⟩ := Option.bind_eq_some_iff.mp hh
  obtain ⟨g, -, hh⟩ := Option.bind_eq_some_iff.mp hh
  obtain ⟨size, -, rfl⟩ := Option.map_eq_some_iff.mp hh
  obtain rfl : sb' = sb := Option.some.inj (hsb'.symm.trans hsb)
  exact ⟨rfl, rfl⟩

/-! ### The final reports -/

/-- An inode that has no line, and is not free. -/
structure Unlisted (r : LineReport) (h : Header) (inodes n : ℕ) : Prop where
  above : h.reservedInodes < n
  le : n ≤ inodes
  used : n ∉ r.ifrees
  unlisted : n ∉ r.numbers

/-- The links of an inode are not as many as its last line says. -/
def Miscounted (r : LineReport) (inodes n : ℕ) (q : InodeRecord) : Prop :=
  lineOf r.inodes n = some q ∧ linksOf inodes r.dirents n ≠ q.linkCount

/-- What is said about an inode at the end. -/
def FinallySays (r : LineReport) (h : Header) (inodes : ℕ) (m : Text) : Prop :=
  (∃ n, Unlisted r h inodes n ∧ m = Err.free "unall_ino".toList n) ∨
    ∃ n q, Miscounted r inodes n q ∧ m = Err.link n (linksOf inodes r.dirents n) q.linkCount

lemma known_unreferenced {es : List DirentRecord} (hk : Known inodes r.ifrees r.inodes es s) :
    get s.inodeHash n = some .unreferenced ↔ n ≤ inodes ∧ n ∉ r.ifrees ∧ n ∉ r.numbers := by
  rw [← cellAt_eq_some_iff (by simp), hk]
  unfold LineReport.numbers
  rw [← lineOf_eq_none_iff]
  cases hline : lineOf r.inodes n with
  | none =>
    rw [inodeCellOf_of_none hline]
    split_ifs <;> simp_all
  | some q =>
    rw [inodeCellOf_of_some hline]
    simp

lemma known_scanned {es : List DirentRecord} (hk : Known inodes r.ifrees r.inodes es s)
    {linkCount links : ℤ} :
    (∃ parent, get s.inodeHash n = some (.scanned ⟨linkCount, links, parent⟩)) ↔
      ∃ q, lineOf r.inodes n = some q ∧ linkCount = q.linkCount ∧
        links = linksOf inodes es n := by
  have hcell : cellAt s n = some (.scanned ⟨linkCount, links, 0⟩) ↔ _ := cellAt_eq_scanned_iff
  rw [and_iff_right rfl, hk] at hcell
  rw [← hcell]
  cases hline : lineOf r.inodes n with
  | none =>
    rw [inodeCellOf_of_none hline]
    split_ifs <;> simp
  | some q =>
    rw [inodeCellOf_of_some hline]
    simp [eq_comm]

/-- What is said about the inodes in a table that is known. -/
lemma cellSays_iff (hk : Known inodes r.ifrees r.inodes r.dirents s) :
    (∃ n : ℕ, ∃ c, get s.inodeHash n = some c ∧ CellSays h m c n) ↔
      FinallySays r h inodes m := by
  constructor
  · rintro ⟨n, c, hget, hmsg⟩
    cases c with
    | unreferenced =>
      obtain ⟨hle, hfree, hline⟩ := (known_unreferenced hk).mp hget
      exact Or.inl ⟨n, ⟨hmsg.1, hle, hfree, hline⟩, hmsg.2⟩
    | free => exact hmsg.elim
    | scanned entry =>
      obtain ⟨q, hline, hcount, hlinks⟩ := (known_scanned hk).mp ⟨entry.parent, hget⟩
      obtain ⟨hne, hm⟩ := hmsg
      rw [hcount, hlinks] at hne hm
      exact Or.inr ⟨n, q, ⟨hline, by exact_mod_cast hne⟩, hm⟩
  · rintro (⟨n, hn, hm⟩ | ⟨n, q, ⟨hline, hne⟩, hm⟩)
    · exact ⟨n, .unreferenced, (known_unreferenced hk).mpr ⟨hn.le, hn.used, hn.unlisted⟩,
        hn.above, hm⟩
    · obtain ⟨parent, hget⟩ := (known_scanned hk).mpr ⟨q, hline, rfl, rfl⟩
      exact ⟨n, _, hget, Nat.cast_injective.ne hne, hm⟩

/-- **The final reports** about inodes. -/
theorem mem_finalReports (hk : Known inodes r.ifrees r.inodes r.dirents s)
    (hblocks : ¬ OfBlocks m) : m ∈ (finalReports h s).errList ↔
      m ∈ s.errList ∨ FinallySays r h inodes m := by
  have hhash : (s.blockHash.zipIdx.foldl (finalBlock h) s).inodeHash = s.inodeHash :=
    foldl_keeps (p := fun s' : St => s'.inodeHash = s.inodeHash) (fun val _ s' hs' => by
      unfold finalBlock
      split <;> exact hs') rfl
  unfold finalReports
  rw [mem_finalInodes, exists_mem_zipIdx, cellSays_iff hk, mem_finalBlocks]
  refine or_congr_left (or_iff_left ?_)
  rintro ⟨val, -, -, hm⟩
  exact hblocks (Or.inr (Or.inl ⟨_, hm⟩))

/-! ### Whole runs -/

/-- There is a reason in the report for this message about an inode. -/
def InodeSays (r : LineReport) (h : Header) (inodes : ℕ) (m : Text) : Prop :=
  FreeScanned r.ifrees r.inodes m ∨ (∃ e ∈ r.dirents, EntrySays inodes r.ifrees r.inodes e m) ∨
    FinallySays r h inodes m

lemma linksOf_sortLines (es : List DirentRecord) :
    linksOf inodes (sortLines es) = linksOf inodes es := by
  funext n
  exact ((perm_sortLines es).filter _).length_eq

lemma known_of_sortLines {es : List DirentRecord}
    (hk : Known inodes r.ifrees r.inodes (sortLines es) s) :
    Known inodes r.ifrees r.inodes es s := fun n => by
  rw [hk n]
  unfold inodeCellOf
  rw [linksOf_sortLines]

/-- **Messages about inodes** are printed if the analyser comes to an end and there is a reason
in the report. -/
theorem mem_printed_inode (hh : r.header? = some h) (hinodes : h.inodes = inodes)
    (hblocks : ¬ OfBlocks m) (hparents : ¬ OfParents m) :
    m ∈ printed r ↔ Completes r h ∧ InodeSays r h inodes m := by
  obtain ⟨hstops, hruns⟩ := run_or_none hh
  by_cases hc : Completes r h
  swap
  · unfold printed lab3b
    rw [hstops hc]
    exact iff_of_false (by simp) fun hnot => hc hnot.1
  obtain ⟨blocks, inodes', s₁, s₂, s₃, s₄, hrun⟩ := hruns hc
  obtain rfl : inodes' = inodes := by
    have := hrun.read.inodes_eq
    omega
  obtain ⟨hquiet, -, -⟩ := hrun.rooted
  have hk₂ : Known inodes' r.ifrees r.inodes [] s₂ := fun n =>
    (hquiet.cells n).trans (hrun.known.known n)
  obtain ⟨hk₃, hsaid₃⟩ := direntReads_known hk₂ hrun.read.inodes_eq hrun.entries
  have hk₄ : Known inodes' r.ifrees r.inodes r.dirents s₄ := fun n => by
    unfold cellAt
    rw [hrun.inodeHash]
    exact known_of_sortLines hk₃ n
  have hslots : ¬ Somewhere (fun u x => SlotSays h r.bfrees u x m) r.slots := by
    rintro ⟨u, x, v, -, hx⟩
    exact hblocks (ofBlocks_of_slotSays hx)
  have hpointers : ¬ Somewhere (fun u x => PointerSays h (r.slots ++ u) x m) r.pointers := by
    rintro ⟨u, x, v, -, hx⟩
    exact hblocks (ofBlocks_of_pointerSays hx)
  have hentries : (∃ e ∈ sortLines r.dirents, EntrySays inodes' r.ifrees r.inodes e m) ↔
      ∃ e ∈ r.dirents, EntrySays inodes' r.ifrees r.inodes e m := by
    simp only [mem_sortLines]
  unfold printed lab3b
  rw [hrun.out, and_iff_right hc]
  dsimp only
  rw [mem_finalReports hk₄ hblocks, hrun.said, or_iff_left hpointers, hsaid₃ m hparents, hentries,
    hquiet.said m hparents, hrun.known.said, or_iff_left hslots, or_assoc]
  rfl

lemma newline_notMem_name {e : DirentRecord} (he : e ∈ r.dirents) : '\n' ∉ e.name := by
  obtain ⟨x, hx, hxe⟩ := List.mem_filterMap.mp he
  cases x <;> simp only [Record.dirent?, reduceCtorEq, Option.some.injEq] at hxe
  exact hxe ▸ r.readable _ hx

/-! ### Single messages -/

lemma not_ofParents {w : Text} (hm : (words m).head? = some w) (hw : w ≠ "DIRECTORY".toList) :
    ¬ OfParents m := by
  rintro ⟨flag, dir, n, parent, rfl⟩
  rw [head_words_parent] at hm
  exact hw (Option.some.inj hm).symm

lemma not_entrySays {w : Text} (hm : (words m).head? = some w) (hw : w ≠ "DIRECTORY".toList) :
    ¬ ∃ e ∈ r.dirents, EntrySays inodes r.ifrees r.inodes e m := by
  rintro ⟨e, -, -, rfl⟩
  rw [head_words_dir] at hm
  exact hw (Option.some.inj hm).symm

lemma not_freeScanned {w : Text} (hm : (words m).head? = some w) (hw : w ≠ "ALLOCATED".toList) :
    ¬ FreeScanned r.ifrees r.inodes m := by
  rintro ⟨n, -, -, rfl⟩
  rw [words_allocatedInode] at hm
  exact hw (Option.some.inj hm).symm

lemma not_finallySays {w : Text} (hm : (words m).head? = some w)
    (hw : w ∉ ["UNALLOCATED".toList, "INODE".toList]) : ¬ FinallySays r h inodes m := by
  rintro (⟨n, -, rfl⟩ | ⟨n, q, -, rfl⟩)
  · rw [words_unallocatedInode] at hm
    exact hw (Option.some.inj hm ▸ by simp)
  · rw [words_link] at hm
    exact hw (Option.some.inj hm ▸ by simp)

section

variable (hh : r.header? = some h) (hinodes : h.inodes = inodes)
include hh hinodes

theorem mem_printed_allocatedInode (n : ℕ) : Err.free "all_ino".toList n ∈ printed r ↔
    Completes r h ∧ n ∈ r.ifrees ∧ n ∈ r.numbers := by
  have hhead : (words (Err.free "all_ino".toList n)).head? = some "ALLOCATED".toList := by
    rw [words_allocatedInode]
    rfl
  rw [mem_printed_inode hh hinodes (fun hof => hof.not_ofFreeInode ⟨n, rfl⟩)
    (not_ofParents hhead (by decide))]
  unfold InodeSays
  rw [or_iff_left fun hrest => hrest.elim (not_entrySays hhead (by decide))
    (not_finallySays hhead (by decide))]
  refine and_congr_right fun _ => ⟨?_, fun ⟨hfree, hline⟩ => ⟨n, hfree, hline, rfl⟩⟩
  rintro ⟨n', hfree, hline, hm⟩
  obtain rfl : n = n' := Nat.cast_injective (allocatedInode_injective hm)
  exact ⟨hfree, hline⟩

theorem mem_printed_unallocatedInode (n : ℕ) : Err.free "unall_ino".toList n ∈ printed r ↔
    Completes r h ∧ Unlisted r h inodes n := by
  have hhead := head_words_unallocatedInode n
  rw [mem_printed_inode hh hinodes (not_ofBlocks hhead (by decide))
    (not_ofParents hhead (by decide))]
  unfold InodeSays FinallySays
  rw [or_iff_right (not_freeScanned hhead (by decide)),
    or_iff_right (not_entrySays hhead (by decide))]
  refine and_congr_right fun _ => ⟨?_, fun hn => Or.inl ⟨n, hn, rfl⟩⟩
  rintro (⟨n', hn, hm⟩ | ⟨n', q, -, hm⟩)
  · obtain rfl : n = n' := Nat.cast_injective (unallocatedInode_injective hm)
    exact hn
  · rw [hm, head_words_link] at hhead
    exact absurd (Option.some.inj hhead) (by decide)

theorem mem_printed_link (n : ℕ) (links linkCount : ℤ) :
    Err.link n links linkCount ∈ printed r ↔ Completes r h ∧ ∃ q, Miscounted r inodes n q ∧
      links = linksOf inodes r.dirents n ∧ linkCount = q.linkCount := by
  have hhead := head_words_link n links linkCount
  rw [mem_printed_inode hh hinodes (not_ofBlocks hhead (by decide))
    (not_ofParents hhead (by decide))]
  unfold InodeSays FinallySays
  rw [or_iff_right (not_freeScanned hhead (by decide)),
    or_iff_right (not_entrySays hhead (by decide))]
  refine and_congr_right fun _ => ⟨?_, ?_⟩
  · rintro (⟨n', -, hm⟩ | ⟨n', q, hq, hm⟩)
    · rw [hm, head_words_unallocatedInode] at hhead
      exact absurd (Option.some.inj hhead) (by decide)
    · obtain ⟨hn, hlinks, hcount⟩ := link_inj.mp hm
      obtain rfl : n = n' := Nat.cast_injective hn
      exact ⟨q, hq, hlinks, hcount⟩
  · rintro ⟨q, hq, rfl, rfl⟩
    exact Or.inr ⟨n, q, hq, rfl⟩

/-- The name in a message is the one that is read off a line. -/
theorem mem_printed_dir (b : Bool) (dir n : ℕ) (name : Text) :
    Err.dir (dirFlag b) dir n name ∈ printed r ↔ Completes r h ∧
      ∃ e ∈ r.dirents, ¬ Counted inodes r.inodes e ∧
        decide (Unallocated inodes r.ifrees r.inodes e.inode) = b ∧ e.dir = dir ∧
          e.inode = n ∧ nameRead e = name := by
  have hhead := head_words_dir (dirFlag b) name dir n
  rw [mem_printed_inode hh hinodes (not_ofBlocks hhead (by decide)) (not_ofParents_dir _ _ _ _)]
  unfold InodeSays
  rw [or_iff_right (not_freeScanned hhead (by decide)),
    or_iff_left (not_finallySays hhead (by decide))]
  unfold EntrySays
  refine and_congr_right fun _ => exists_congr fun e => and_congr_right fun _ =>
    and_congr_right fun _ => ?_
  rw [eq_comm, dir_inj (notMem_nameRead e).2, Nat.cast_inj, Nat.cast_inj]

end

/-! ### Exact messages -/

/-- **The reports are exact**: an inode is reported as allocated if it is free and has a line, as
unallocated if it is neither, and an entry if the inode it names has no line. -/
structure InodesExact (r : LineReport) (sb : Superblock) : Prop where
  allocated : ∀ n : ℕ,
    Err.free "all_ino".toList n ∈ printed r ↔ n ∈ r.numbers ∧ n ∈ r.ifrees
  unallocated : ∀ n : ℕ, Err.free "unall_ino".toList n ∈ printed r ↔
    (sb.firstInode ≤ n ∧ n ≤ sb.inodes) ∧ n ∉ r.numbers ∧ n ∉ r.ifrees
  named : ∀ e ∈ r.dirents, e.inode ≤ sb.inodes →
    (Err.dir "unall".toList e.dir e.inode e.name ∈ printed r ↔ e.inode ∉ r.numbers)
  valid : ∀ e ∈ r.dirents, e.inode ≤ sb.inodes →
    Err.dir "inv".toList e.dir e.inode e.name ∉ printed r

/-- An entry that is reported has a name that is read as it is. -/
def ReadableNames (r : LineReport) (sb : Superblock) : Prop :=
  ∀ e ∈ r.dirents, e.inode ≤ sb.inodes → e.inode ∉ r.numbers → ',' ∉ e.name ∧ '\'' ∉ e.name

/-- **Exactly when the reports are exact.** -/
theorem inodesExact_iff (hh : r.header? = some h) (hsb : superblock? r = some sb)
    (hdone : analysis r.text ≠ none) : InodesExact r sb ↔ ReadableNames r sb := by
  obtain ⟨hinodes, hreserved⟩ := header_of_superblock hh hsb
  have hc : Completes r h := by
    by_contra hnot
    exact hdone ((run_or_none hh).1 hnot)
  have hnames : ∀ b, ∀ e ∈ r.dirents, Err.dir (dirFlag b) e.dir e.inode e.name ∈ printed r ↔
      ∃ e' ∈ r.dirents, ¬ Counted sb.inodes r.inodes e' ∧
        decide (Unallocated sb.inodes r.ifrees r.inodes e'.inode) = b ∧ e'.dir = e.dir ∧
          e'.inode = e.inode ∧ nameRead e' = e.name := fun b e _ => by
    rw [mem_printed_dir hh hinodes, and_iff_right hc]
  have hunallocated : ∀ n ≤ sb.inodes,
      (decide (Unallocated sb.inodes r.ifrees r.inodes n) = true ↔ n ∉ r.numbers) :=
    fun n hn => by
      rw [decide_eq_true_iff]
      exact and_iff_left (Or.inr hn)
  constructor
  · intro hexact e he hle hline
    obtain ⟨e', -, -, -, -, -, hname⟩ :=
      (hnames true e he).mp ((hexact.named e he hle).mpr hline)
    rw [← hname]
    exact notMem_nameRead e'
  · intro hread
    refine ⟨fun n => ?_, fun n => ?_, fun e he hle => ?_, fun e he hle hmem => ?_⟩
    · rw [mem_printed_allocatedInode hh hinodes, and_iff_right hc, and_comm]
    · rw [mem_printed_unallocatedInode hh hinodes, and_iff_right hc]
      constructor
      · rintro ⟨habove, hle, hused, hline⟩
        exact ⟨⟨by omega, hle⟩, hline, hused⟩
      · rintro ⟨⟨habove, hle⟩, hline, hused⟩
        exact ⟨by omega, hle, hused, hline⟩
    · refine (hnames true e he).trans ⟨?_, fun hline => ?_⟩
      · rintro ⟨e', -, -, hflag, -, hinode, -⟩
        rw [hinode] at hflag
        exact (hunallocated _ hle).mp hflag
      · have hname : nameRead e = e.name := by
          refine nameRead_of_plain ⟨⟨(hread e he hle hline).1, ?_⟩, (hread e he hle hline).2⟩
          exact newline_notMem_name he
        exact ⟨e, he, fun hcounted => hline hcounted.1, (hunallocated _ hle).mpr hline, rfl, rfl,
          hname⟩
    · obtain ⟨e', -, hdead, hflag, -, hinode, -⟩ := (hnames false e he).mp hmem
      rw [hinode] at hflag
      have hline : e.inode ∈ r.numbers := by
        by_contra hnot
        rw [(hunallocated _ hle).mpr hnot] at hflag
        cases hflag
      exact hdead ⟨hinode ▸ hline, hinode ▸ hle⟩

/-- The root directory, and in it an entry that names inode 5, which has no line. -/
def entryReport (name : Text) (hname : '\n' ∉ name) : LineReport where
  records :=
    [.superblock ⟨8, 11, 4096, 128, 8192, 11, 12⟩, .group ⟨0, 8, 11, 0, 0, 3, 4, 5⟩,
      .bfree 7, .inode (ConsistentReport.directoryRecord 2 0 6),
      .dirent ⟨2, 0, 5, 1024, name.length, name⟩]
  readable := by
    simp [Readable, ConsistentReport.plain_directoryRecord, hname]

lemma header_entryReport {name : Text} {hname : '\n' ∉ name} :
    (entryReport name hname).header? = some rootHeader :=
  @header_rootReport (List.replicate 15 0) rfl [] []

theorem inodesExact_iff_sample :
    InodesExact (entryReport ['a'] (by decide)) ⟨8, 11, 4096, 128, 8192, 11, 12⟩ := by
  have hdone : analysis (entryReport ['a'] (by decide)).text ≠ none := by decide +kernel
  refine (inodesExact_iff header_entryReport rfl hdone).mpr ?_
  unfold ReadableNames
  decide

/-- The message names an entry that is not in the directory. -/
theorem entryReport_misnamed :
    (entryReport "a,b".toList (by decide)).header? = some rootHeader ∧
      analysis (entryReport "a,b".toList (by decide)).text =
        some ["DIRECTORY INODE 2 NAME 'b' UNALLOCATED INODE 5".toList] ∧
      ¬ InodesExact (entryReport "a,b".toList (by decide))
        ⟨8, 11, 4096, 128, 8192, 11, 12⟩ := by
  have hout : analysis (entryReport "a,b".toList (by decide)).text =
      some ["DIRECTORY INODE 2 NAME 'b' UNALLOCATED INODE 5".toList] := by decide +kernel
  refine ⟨header_entryReport, hout, fun hexact => ?_⟩
  have hmem := (hexact.named ⟨2, 0, 5, 1024, 3, "a,b".toList⟩ (by decide) (by decide)).mpr
    (by decide)
  unfold printed lab3b at hmem
  rw [hout] at hmem
  exact absurd hmem (by decide)

end LowLevelTasks.InodeReports
