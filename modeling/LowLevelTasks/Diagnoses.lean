import LowLevelTasks.InodeReports
import LowLevelTasks.ParentErrors

/-!
All that the analyser prints, for every report that it can read. A message is printed if and only
if there is a reason for it in the records: the tables of the analyser do not occur. From the
reasons it can be seen which lines of a report may change places without a change of what is
printed: all but those of the indirect blocks, of which only the second reference to a block is
reported.
-/

namespace LowLevelTasks.Diagnoses

open LowLevelTasks.BlockCells LowLevelTasks.BlockReports LowLevelTasks.DirentPass
open LowLevelTasks.Folds LowLevelTasks.InodeCells LowLevelTasks.InodeReports
open LowLevelTasks.Lab3b LowLevelTasks.LineRuns LowLevelTasks.Messages
open LowLevelTasks.ParentErrors (directoryIn)
open LowLevelTasks.ParentMessages LowLevelTasks.ParentReports LowLevelTasks.ParentTable
open LowLevelTasks.Passes LowLevelTasks.Reports LowLevelTasks.RubyArray LowLevelTasks.RubyText

variable {r r' : LineReport} {h : Header} {s s' : St} {n : ℕ} {m : Text} {d : DirentRecord}

/-! ### All messages -/

/-- The reasons for a message. -/
inductive Reason (r : LineReport) (h : Header) : Text → Prop
  /-- A pointer of an inode to a block that may not be used. -/
  | outside (x : Ref) (κ : Flag) (slot : x ∈ r.slots) (outside : SlotOutside h x κ) :
      Reason r h (x.text κ)
  /-- A pointer of an inode to a free block. -/
  | freeBlock (x : Ref) (slot : x ∈ r.slots) (free : x.block ∈ r.bfrees) :
      Reason r h (Err.free "all_blk".toList x.block)
  /-- One of several pointers of inodes to the same block. -/
  | duplicate (x : Ref) (slot : x ∈ r.slots) (several : 2 ≤ (slotsTo r x.block).length) :
      Reason r h (x.text .dup)
  /-- A pointer of an indirect block, behind these other ones. -/
  | indirect (u : List Ref) (x : Ref) (v : List Ref) (κ : Flag)
      (pointers : r.pointers = u ++ x :: v)
      (fault : indirectFault h (r.slots ++ u) x = some κ) : Reason r h (x.text κ)
  /-- A block that is neither free nor referenced. -/
  | unreferenced (b : ℕ) (unreferenced : Unreferenced r h b) : Reason r h (Err.unref b)
  /-- An inode that has a line and is free. -/
  | freeInode (n : ℕ) (free : n ∈ r.ifrees) (line : n ∈ r.numbers) :
      Reason r h (Err.free "all_ino".toList n)
  /-- An inode that has neither a line nor is free. -/
  | unlisted (n : ℕ) (unlisted : Unlisted r h h.inodes.toNat n) :
      Reason r h (Err.free "unall_ino".toList n)
  /-- An inode with another number of links than its line says. -/
  | links (n : ℕ) (q : InodeRecord) (miscounted : Miscounted r h.inodes.toNat n q) :
      Reason r h (Err.link n (linksOf h.inodes.toNat r.dirents n) q.linkCount)
  /-- An entry of an inode that is not allocated. -/
  | entry (d : DirentRecord) (mem : d ∈ r.dirents)
      (uncounted : ¬ Counted h.inodes.toNat r.inodes d) :
      Reason r h (Err.dir (dirFlag (Unallocated h.inodes.toNat r.ifrees r.inodes d.inode)) d.dir
        d.inode (nameRead d))
  /-- An entry, behind these other ones, that speaks against the parents they have told. -/
  | parent (u : List Entry) (e : Entry) (v : List Entry) (m : Text)
      (entries : readLive r h (sortLines r.dirents) = u ++ e :: v)
      (said : ParentSays (table 2 u) e m) : Reason r h m

/-- A pointer of an inode that is a duplicate, wherever its line stands. -/
lemma somewhere_duplicate : Somewhere (fun u x => ∃ y, lastTo u x.block = some y ∧
      (m = x.text .dup ∨ m = y.text .dup)) r.slots ↔
    ∃ x ∈ r.slots, 2 ≤ (slotsTo r x.block).length ∧ m = x.text .dup := by
  have hq : ∀ x y : Ref, y.text .dup = x.text .dup → y.block = x.block := fun x y heq => by
    rw [← text_description (x := y), text_eq_iff] at heq
    exact (block_of_description heq.2).symm
  constructor
  · rintro ⟨u, x, v, hsplit, y, hy, hm⟩
    obtain ⟨z, hz⟩ : ∃ z : Ref, m = z.text .dup := hm.elim (⟨x, ·⟩) (⟨y, ·⟩)
    rw [hz] at hm ⊢
    obtain ⟨hlength, w, hw, heq⟩ :=
      (somewhere_dup (q := fun x => z.text .dup = x.text .dup)
        fun x heq => (hq x z heq).symm).mp ⟨u, x, v, hsplit, y, hy, hm⟩
    exact ⟨w, hw, by rwa [slotsTo, ← hq w z heq], heq⟩
  · rintro ⟨x, hx, hlength, hm⟩
    rw [hm]
    exact (somewhere_dup (q := fun y => x.text .dup = y.text .dup)
      fun y heq => (hq y x heq).symm).mpr ⟨hlength, x, hx, rfl⟩

/-- A free block that a pointer of an inode leads to, wherever the line of the pointer stands. -/
lemma somewhere_freeBlock : Somewhere (fun u x => lastTo u x.block = none ∧ x.block ∈ r.bfrees ∧
      m = Err.free "all_blk".toList x.block) r.slots ↔
    ∃ x ∈ r.slots, x.block ∈ r.bfrees ∧ m = Err.free "all_blk".toList x.block := by
  constructor
  · rintro ⟨u, x, v, hsplit, -, hfree, hm⟩
    exact ⟨x, by simp [hsplit], hfree, hm⟩
  · rintro ⟨x, hx, hfree, rfl⟩
    -- the first pointer to this block
    obtain ⟨u, y, v, hsplit, hbefore, hy⟩ :=
      (somewhere_first (p := fun y : Ref => y.block = x.block)).mpr ⟨x, hx, rfl⟩
    exact ⟨u, y, v, hsplit, lastTo_eq_none_iff.mpr (hy ▸ hbefore), hy ▸ hfree, by rw [hy]⟩

lemma said_iff : Said r h m ↔
    (∃ x ∈ r.slots, (∃ κ, SlotOutside h x κ ∧ m = x.text κ) ∨
      (x.block ∈ r.bfrees ∧ m = Err.free "all_blk".toList x.block) ∨
      (2 ≤ (slotsTo r x.block).length ∧ m = x.text .dup)) ∨
    Somewhere (fun u x => PointerSays h (r.slots ++ u) x m) r.pointers ∨
    ∃ b, Unreferenced r h b ∧ m = Err.unref (b : ℕ) := by
  unfold Said SlotSays
  rw [somewhere_or, somewhere_or, somewhere_const, somewhere_freeBlock, somewhere_duplicate]
  simp only [and_or_left, exists_or]

/-- The reasons, as the passes give them. -/
lemma reason_iff : Reason r h m ↔ Said r h m ∨ InodeSays r h h.inodes.toNat m ∨
    ParentsSay (readLive r h (sortLines r.dirents)) m := by
  rw [said_iff]
  constructor
  · rintro (⟨x, κ, hx, hout⟩ | ⟨x, hx, hfree⟩ | ⟨x, hx, hlength⟩ | ⟨u, x, v, κ, hsplit, hfault⟩ |
      ⟨b, hb⟩ | ⟨n, hfree, hline⟩ | ⟨n, hn⟩ | ⟨n, q, hq⟩ | ⟨d, hd, hnot⟩ |
      ⟨u, e, v, m, hsplit, hword⟩)
    · exact Or.inl (Or.inl ⟨x, hx, Or.inl ⟨κ, hout, rfl⟩⟩)
    · exact Or.inl (Or.inl ⟨x, hx, Or.inr (Or.inl ⟨hfree, rfl⟩)⟩)
    · exact Or.inl (Or.inl ⟨x, hx, Or.inr (Or.inr ⟨hlength, rfl⟩)⟩)
    · exact Or.inl (Or.inr (Or.inl ⟨u, x, v, hsplit, κ, hfault, rfl⟩))
    · exact Or.inl (Or.inr (Or.inr ⟨b, hb, rfl⟩))
    · exact Or.inr (Or.inl (Or.inl ⟨n, hfree, hline, rfl⟩))
    · exact Or.inr (Or.inl (Or.inr (Or.inr (Or.inl ⟨n, hn, rfl⟩))))
    · exact Or.inr (Or.inl (Or.inr (Or.inr (Or.inr ⟨n, q, hq, rfl⟩))))
    · exact Or.inr (Or.inl (Or.inr (Or.inl ⟨d, hd, hnot, rfl⟩)))
    · exact Or.inr (Or.inr ⟨u, e, v, hsplit, hword⟩)
  · rintro ((⟨x, hx, ⟨κ, hout, hm⟩ | ⟨hfree, hm⟩ | ⟨hlength, hm⟩⟩ |
      ⟨u, x, v, hsplit, κ, hfault, hm⟩ | ⟨b, hb, hm⟩) | (⟨n, hfree, hline, hm⟩ |
      ⟨d, hd, hnot, hm⟩ | ⟨n, hn, hm⟩ | ⟨n, q, hq, hm⟩) | ⟨u, e, v, hsplit, hword⟩)
    · rw [hm]
      exact .outside x κ hx hout
    · rw [hm]
      exact .freeBlock x hx hfree
    · rw [hm]
      exact .duplicate x hx hlength
    · rw [hm]
      exact .indirect u x v κ hsplit hfault
    · rw [hm]
      exact .unreferenced b hb
    · rw [hm]
      exact .freeInode n hfree hline
    · rw [hm]
      exact .entry d hd hnot
    · rw [hm]
      exact .unlisted n hn
    · rw [hm]
      exact .links n q hq
    · exact .parent u e v m hsplit hword

lemma ofBlocks_of_said (hm : Said r h m) : OfBlocks m := by
  rcases hm with ⟨u, x, v, -, hx⟩ | ⟨u, x, v, -, hx⟩ | ⟨b, -, rfl⟩
  · exact ofBlocks_of_slotSays hx
  · exact ofBlocks_of_pointerSays hx
  · exact Or.inr (Or.inl ⟨b, rfl⟩)

lemma aside_of_inodeSays (hm : InodeSays r h inodes m) : ¬ OfBlocks m ∧ ¬ OfParents m := by
  rcases hm with hfree | ⟨e, -, -, rfl⟩ | ⟨n, -, rfl⟩ | ⟨n, q, -, rfl⟩
  · refine ⟨fun hof => hof.not_ofFreeInode hfree.ofFreeInode, ?_⟩
    obtain ⟨n, -, -, rfl⟩ := hfree
    exact fun hof => not_ofFreeInode_of_ofParents hof ⟨n, rfl⟩
  · exact ⟨not_ofBlocks (head_words_dir _ _ _ _) (by decide), not_ofParents_dir _ _ _ _⟩
  · exact ⟨not_ofBlocks (head_words_unallocatedInode _) (by decide),
      not_ofParents (head_words_unallocatedInode _) (by decide)⟩
  · exact ⟨not_ofBlocks (head_words_link _ _ _) (by decide),
      not_ofParents (head_words_link _ _ _) (by decide)⟩

/-- **All that is printed**: a message is printed if and only if the analyser comes to an end
and there is a reason for it. -/
theorem mem_printed_iff (hh : r.header? = some h) (m : Text) :
    m ∈ printed r ↔ Completes r h ∧ Reason r h m := by
  rw [reason_iff]
  by_cases hblocks : OfBlocks m
  · rw [mem_printed hh hblocks]
    refine and_congr_right fun _ => (or_iff_left ?_).symm
    rintro (hword | hword)
    · exact (aside_of_inodeSays hword).1 hblocks
    · exact not_ofBlocks_of_ofParents hword.ofParents hblocks
  rw [or_iff_right fun hsaid => hblocks (ofBlocks_of_said hsaid)]
  by_cases hparents : OfParents m
  · rw [mem_printed_parents hh hparents]
    exact and_congr_right fun _ =>
      (or_iff_right fun hword => (aside_of_inodeSays hword).2 hparents).symm
  · obtain ⟨sb, g, -, -, hinodes, -⟩ := exists_of_header? hh
    have hcount : h.inodes = (h.inodes.toNat : ℤ) := by omega
    rw [mem_printed_inode hh hcount hblocks hparents]
    exact and_congr_right fun _ => (or_iff_left fun hword => hparents hword.ofParents).symm

/-! ### No message twice -/

/-- No message stands in the state twice, if there is one. -/
def Distinct (x : Option St) : Prop := ∀ s, x = some s → s.errList.Nodup

lemma distinct_some (hs : s.errList.Nodup) : Distinct (some s) := by
  rintro s' ⟨⟩
  exact hs

lemma distinct_none : Distinct none := nofun

lemma Distinct.bind {x : Option St} {f : St → Option St} (hx : Distinct x)
    (hf : ∀ s, s.errList.Nodup → Distinct (f s)) : Distinct (x >>= f) := by
  cases x with
  | none => exact distinct_none
  | some s => exact hf s (hx s rfl)

lemma distinct_read {α : Type} {x : Option α} {f : α → Option St} (hf : ∀ a, Distinct (f a)) :
    Distinct (x >>= f) := by
  cases x with
  | none => exact distinct_none
  | some a => exact hf a

lemma nodup_err (hs : s.errList.Nodup) (msg : Text) : (s.err msg).errList.Nodup := by
  unfold St.err
  dsimp only
  split
  · exact hs
  · next hmem => exact List.concat_eq_append ▸ hs.concat hmem

lemma distinct_putBlock (hs : s.errList.Nodup) (block : ℤ) (cell : BlockCell) :
    Distinct (s.putBlock block cell) := by
  unfold St.putBlock
  cases put s.blockHash block cell with
  | none => exact distinct_none
  | some hash => exact distinct_some hs

lemma distinct_putInode (hs : s.errList.Nodup) (inode : ℤ) (cell : InodeCell) :
    Distinct (s.putInode inode cell) := by
  unfold St.putInode
  cases put s.inodeHash inode cell with
  | none => exact distinct_none
  | some hash => exact distinct_some hs

lemma distinct_setParent (hs : s.errList.Nodup) (inode parent : ℤ) :
    Distinct (s.setParent inode parent) := by
  unfold St.setParent
  exact distinct_read fun entry => distinct_putInode hs _ _

lemma distinct_blockErr (hs : s.errList.Nodup) (flag : Text) (level inode offset block : ℤ) :
    Distinct (s.blockErr flag level inode offset block) := by
  unfold St.blockErr
  cases indirectSym flag level with
  | none => exact distinct_none
  | some flag => exact distinct_some (nodup_err hs _)

lemma distinct_iBlock (hs : s.errList.Nodup) (inode : ℤ) (num : ℕ) (block : ℤ) :
    Distinct (Lab3b.iBlock h inode s num block) := by
  unfold Lab3b.iBlock
  split
  · exact distinct_some hs
  refine Distinct.bind ?_ fun s hs => Distinct.bind ?_ fun s hs => distinct_putBlock hs _ _
  · unfold checkRange
    split
    · exact distinct_some hs
    · exact distinct_blockErr hs _ _ _ _ _
  · unfold checkCell
    split
    · exact distinct_some (nodup_err hs _)
    · exact (distinct_blockErr hs _ _ _ _ _).bind fun s hs => distinct_blockErr hs _ _ _ _ _
    · exact distinct_some hs

lemma distinct_foldlM {α : Type} {f : St → α → Option St} {xs : List α}
    (hf : ∀ s a, s.errList.Nodup → Distinct (f s a)) (hs : s.errList.Nodup) :
    Distinct (xs.foldlM f s) := fun _ hs' =>
  foldlM_keeps (p := fun s : St => s.errList.Nodup)
    (fun a _ s _ hstep hs => hf s a hs _ hstep) hs' hs

lemma distinct_inodeLine (hs : s.errList.Nodup) (line : Text) : Distinct (inodeLine h s line) := by
  unfold inodeLine
  refine distinct_read fun type => Distinct.bind (distinct_putInode ?_ _ _) fun s hs => ?_
  · split
    · exact nodup_err hs _
    · exact hs
  · split
    · exact distinct_some hs
    · exact distinct_foldlM (fun s num hs => distinct_iBlock hs _ _ _) hs

lemma distinct_check (hs : s.errList.Nodup) {c : Prop} [Decidable c] (msg : Text)
    (inode parent : ℤ) : Distinct ((if c then s else s.err msg).setParent inode parent) := by
  refine distinct_setParent ?_ _ _
  split
  · exact hs
  · exact nodup_err hs _

lemma distinct_childEntry (hs : s.errList.Nodup) (dirInode inode : ℤ) :
    Distinct (childEntry s dirInode inode) := by
  unfold childEntry
  exact distinct_read fun entry => distinct_check hs _ _ _

lemma distinct_parentEntry (hs : s.errList.Nodup) (dirInode inode : ℤ) :
    Distinct (parentEntry s dirInode inode) := by
  unfold parentEntry
  exact distinct_read fun dirEntry => distinct_read fun entry => distinct_check hs _ _ _

lemma distinct_namedEntry (hs : s.errList.Nodup) (dirInode inode : ℤ) (name : Text) :
    Distinct (namedEntry s dirInode inode name) := by
  unfold namedEntry
  split
  · refine distinct_some ?_
    split
    · exact hs
    · exact nodup_err hs _
  split
  · refine distinct_read fun dirEntry => ?_
    split
    · exact distinct_parentEntry hs _ _
    · exact distinct_childEntry hs _ _
  · exact distinct_childEntry hs _ _

lemma distinct_direntLine (hs : s.errList.Nodup) (line : Text) :
    Distinct (direntLine h s line) := by
  unfold direntLine
  refine distinct_read fun name => ?_
  unfold dirent
  split
  · exact distinct_some (nodup_err hs _)
  · exact distinct_some (nodup_err hs _)
  split
  · exact distinct_some (nodup_err hs _)
  split
  · exact (distinct_putInode hs _ _).bind fun s hs => distinct_namedEntry hs _ _ _
  · exact distinct_none

lemma distinct_indirectLine (hs : s.errList.Nodup) (line : Text) :
    Distinct (indirectLine h s line) := by
  unfold indirectLine
  split
  · refine Distinct.bind ?_ fun s hs => distinct_putBlock hs _ _
    unfold checkIndirect
    split
    · exact distinct_blockErr hs _ _ _ _ _
    · exact distinct_some hs
  · exact distinct_none

lemma nodup_finalReports (hs : s.errList.Nodup) : (finalReports h s).errList.Nodup := by
  unfold finalReports
  refine foldl_keeps (p := fun s : St => s.errList.Nodup) (fun val _ s hs => ?_)
    (foldl_keeps (p := fun s : St => s.errList.Nodup) (fun val _ s hs => ?_) hs)
  · unfold finalInode
    have hfirst : (if h.reservedInodes < val.2 ∧ val.1 = some .unreferenced then
        s.err (Err.free "unall_ino".toList val.2) else s).errList.Nodup := by
      split
      · exact nodup_err hs _
      · exact hs
    dsimp only
    split
    · split
      · exact nodup_err hfirst _
      · exact hfirst
    · exact hfirst
  · unfold finalBlock
    split
    · exact nodup_err hs _
    · exact hs

lemma nodup_of_analysis {contents : Text} {out : List Text} (hrun : analysis contents = some out) :
    out.Nodup := by
  obtain ⟨⟨h, s₀⟩, hheader, hrun⟩ := Option.bind_eq_some_iff.mp hrun
  have hstart : s₀.errList = [] := by
    obtain ⟨_, -, hheader⟩ := Option.bind_eq_some_iff.mp hheader
    obtain ⟨_, -, hheader⟩ := Option.bind_eq_some_iff.mp hheader
    obtain ⟨_, -, hheader⟩ := Option.bind_eq_some_iff.mp hheader
    obtain ⟨_, -, hheader⟩ := Option.bind_eq_some_iff.mp hheader
    obtain ⟨_, -, hheader⟩ := Option.bind_eq_some_iff.mp hheader
    split at hheader
    · cases hheader
    · obtain ⟨-, rfl⟩ := Prod.mk.inj (Option.some.inj hheader)
      rfl
  have hs₀ : s₀.errList.Nodup := by rw [hstart]; exact List.nodup_nil
  obtain ⟨s₁, hs₁, hrun⟩ := Option.bind_eq_some_iff.mp hrun
  obtain ⟨s₂, hs₂, hrun⟩ := Option.bind_eq_some_iff.mp hrun
  obtain ⟨s₃, hs₃, hrun⟩ := Option.bind_eq_some_iff.mp hrun
  obtain ⟨s₄, hs₄, hrun⟩ := Option.bind_eq_some_iff.mp hrun
  obtain ⟨s₅, hs₅, hrun⟩ := Option.bind_eq_some_iff.mp hrun
  obtain ⟨s₆, hs₆, hrun⟩ := Option.bind_eq_some_iff.mp hrun
  have hn₁ := distinct_foldlM (fun s line hs => distinct_putBlock hs _ _) hs₀ s₁ hs₁
  have hn₂ := distinct_foldlM (fun s line hs => distinct_putInode hs _ _) hn₁ s₂ hs₂
  have hn₃ := distinct_foldlM (fun s line hs => distinct_inodeLine hs _) hn₂ s₃ hs₃
  have hn₄ := distinct_setParent hn₃ 2 2 s₄ hs₄
  have hn₅ := distinct_foldlM (fun s line hs => distinct_direntLine hs _) hn₄ s₅ hs₅
  have hn₆ := distinct_foldlM (fun s line hs => distinct_indirectLine hs _) hn₅ s₆ hs₆
  exact Option.some.inj hrun ▸ nodup_finalReports hn₆

/-- No message is printed twice, whatever the file. -/
lemma nodup_printed (contents : Text) : (lab3b contents).printed.Nodup := by
  unfold lab3b
  cases hrun : analysis contents with
  | none => exact List.nodup_nil
  | some out => exact nodup_of_analysis hrun

/-! ### The outcome -/

lemma scanHeader_eq_none (hh : r.header? = none) : scanHeader r.text = none := by
  have hline : ∀ x ∈ r.records, '\n' ∉ x.text := fun x hx => newline_notMem_text (r.readable x hx)
  unfold LineReport.header? at hh
  cases hsb : (r.records.filterMap Record.superblock?).head? with
  | none =>
    unfold scanHeader LineReport.text
    rw [scan_superblock hline, List.head?_map, hsb]
    rfl
  | some sb =>
    cases hg : (r.records.filterMap Record.group?).head? with
    | none =>
      unfold scanHeader LineReport.text
      rw [scan_superblock hline, scan_group hline, List.head?_map, List.head?_map, hsb, hg]
      simp only [Option.map_some, Option.map_none, Option.bind_eq_bind, Option.bind_none,
        Option.bind_fun_none]
    | some g =>
      rw [hsb, hg] at hh
      have hnone : header sb g = none := hh
      unfold LineReport.text
      rw [scanHeader_lines hline hsb hg, hnone]
      rfl

lemma analysis_eq_none (hh : r.header? = none) : analysis r.text = none := by
  unfold analysis
  rw [scanHeader_eq_none hh]
  rfl

lemma analysis_ne_none_iff_completes (hh : r.header? = some h) :
    analysis r.text ≠ none ↔ Completes r h := by
  obtain ⟨hnone, hsome⟩ := analysis_spec hh
  constructor
  · intro hne
    by_contra hc
    exact hne (hnone hc)
  · intro hc
    obtain ⟨out, hout, -⟩ := hsome hc
    simp [hout]

/-- **The status** says whether the analyser comes to an end, and whether there is a reason for
some message. -/
lemma status_iff (hh : r.header? = some h) : ((lab3b r.text).status = 1 ↔ ¬ Completes r h) ∧
    ((lab3b r.text).status = 2 ↔ Completes r h ∧ ∃ m, Reason r h m) ∧
    ((lab3b r.text).status = 0 ↔ Completes r h ∧ ¬ ∃ m, Reason r h m) := by
  have hmem := mem_printed_iff hh
  rw [← analysis_ne_none_iff_completes hh] at *
  unfold printed lab3b at hmem
  unfold lab3b
  cases hrun : analysis r.text with
  | none => simp
  | some out =>
    have hreason : (∃ m, Reason r h m) ↔ 0 < out.length := by
      simp only [hrun, ne_eq, reduceCtorEq, not_false_eq_true, true_and] at hmem
      simp only [← hmem, List.length_pos_iff_exists_mem]
    rw [hreason]
    by_cases hlength : 0 < out.length <;> simp [hlength]

/-- **The analyser, without its tables.** For every report of readable lines no message is
printed twice; without a header there is none, and the status is 1. With one, a message is
printed if and only if the analyser comes to an end and there is a reason for it in the report,
and the status is 1 if it does not come to an end, 2 if there is a reason for some message, and
0 else. -/
theorem lab3b_describes (r : LineReport) :
    (printed r).Nodup ∧ (r.header? = none → lab3b r.text = ⟨[], 1⟩) ∧
      ∀ h, r.header? = some h → (∀ m, m ∈ printed r ↔ Completes r h ∧ Reason r h m) ∧
        ((lab3b r.text).status = 1 ↔ ¬ Completes r h) ∧
        ((lab3b r.text).status = 2 ↔ Completes r h ∧ ∃ m, Reason r h m) ∧
        ((lab3b r.text).status = 0 ↔ Completes r h ∧ ¬ ∃ m, Reason r h m) :=
  ⟨nodup_printed _, fun hh => by rw [lab3b, analysis_eq_none hh],
    fun _ hh => ⟨mem_printed_iff hh, status_iff hh⟩⟩

/-! ### The order of the lines -/

/-- The same lines in another order, but the first superblock and the first group are the same,
and those of the indirect blocks are in the same order. -/
structure Reordered (r r' : LineReport) : Prop where
  perm : r'.records.Perm r.records
  header : r'.header? = r.header?
  indirects : r'.indirects = r.indirects

namespace Reordered

variable (hr : Reordered r r')
include hr

lemma symm : Reordered r' r := ⟨hr.perm.symm, hr.header.symm, hr.indirects.symm⟩

lemma mem_bfrees {b : ℕ} : b ∈ r'.bfrees ↔ b ∈ r.bfrees := (hr.perm.filterMap _).mem_iff

lemma mem_ifrees : n ∈ r'.ifrees ↔ n ∈ r.ifrees := (hr.perm.filterMap _).mem_iff

lemma inodes_perm : r'.inodes.Perm r.inodes := hr.perm.filterMap _

lemma dirents_perm : r'.dirents.Perm r.dirents := hr.perm.filterMap _

lemma mem_numbers : n ∈ r'.numbers ↔ n ∈ r.numbers := (hr.inodes_perm.map _).mem_iff

lemma slots_perm : r'.slots.Perm r.slots := hr.inodes_perm.flatMap_right _

lemma pointers_eq : r'.pointers = r.pointers := by
  rw [LineReport.pointers, hr.indirects]
  rfl

lemma refs_perm : r'.refs.Perm r.refs := by
  unfold LineReport.refs
  rw [hr.pointers_eq]
  exact hr.slots_perm.append_right _

/-- What is wrong with an indirect reference depends on which blocks have references. -/
lemma indirectFault_eq (u : List Ref) (x : Ref) :
    indirectFault h (r'.slots ++ u) x = indirectFault h (r.slots ++ u) x := by
  have hsome : (lastTo (r'.slots ++ u) x.block).isSome =
      (lastTo (r.slots ++ u) x.block).isSome := by
    rw [Bool.eq_iff_iff, ← Option.ne_none_iff_isSome, ← Option.ne_none_iff_isSome, ne_eq, ne_eq,
      lastTo_eq_none_iff, lastTo_eq_none_iff]
    simp only [List.mem_append, hr.slots_perm.mem_iff]
  unfold indirectFault
  rw [hsome]

lemma completes (hc : Completes r h) : Completes r' h where
  root := hr.mem_numbers.mpr hc.root
  entries := by
    rintro ⟨d, hd, hname, hinode, hle, hdir⟩
    exact hc.entries ⟨d, hr.dirents_perm.mem_iff.mp hd, hname, hr.mem_numbers.mp hinode, hle,
      hr.mem_numbers.not.mp hdir⟩
  levels := by
    rintro ⟨u, x, v, hsplit, hfault, hlevel⟩
    rw [hr.indirectFault_eq] at hfault
    exact hc.levels ⟨u, x, v, hr.pointers_eq ▸ hsplit, hfault, hlevel⟩

end Reordered

/-- An inode with one line. -/
lemma lineOf_eq_some_iff {qs : List InodeRecord} {q : InodeRecord}
    (hnodup : (qs.map InodeRecord.number).Nodup) :
    lineOf qs n = some q ↔ q ∈ qs ∧ q.number = n := by
  constructor
  · exact mem_of_lineOf
  · rintro ⟨hq, hn⟩
    obtain ⟨q', hq'⟩ := exists_lineOf (List.mem_map.mpr ⟨q, hq, hn⟩)
    obtain ⟨hmem, hn'⟩ := mem_of_lineOf hq'
    rw [hq', List.inj_on_of_nodup_map hnodup hmem hq (hn'.trans hn.symm)]

/-- The entry in a line. -/
def lineEntry (line : Text) : Entry :=
  ⟨(toI (field (split line) 1)).toNat, (toI (field (split line) 3)).toNat,
    nameOf ((readName line).getD [])⟩

lemma lineEntry_text (d : DirentRecord) : lineEntry (Record.dirent d).text = readEntry d := by
  have hdir : field d.fields 1 = decimal d.dir := rfl
  have hinode : field d.fields 3 = decimal d.inode := rfl
  unfold lineEntry readEntry nameRead
  rw [field_dirent d (by decide : 1 < 6), field_dirent d (by decide : 3 < 6), hdir, hinode,
    toI_decimal, toI_decimal, Int.toNat_natCast, Int.toNat_natCast]

/-- The entries that are read depend on the text of the lines. -/
lemma readLive_eq (ds : List DirentRecord) : readLive r h ds =
    ((ds.map fun d => (Record.dirent d).text).map lineEntry).filter fun e =>
      e.inode ∈ r.numbers ∧ (e.inode : ℤ) ≤ h.inodes := by
  have hmap : (ds.map fun d => (Record.dirent d).text).map lineEntry = ds.map readEntry := by
    rw [List.map_map]
    exact List.map_congr_left fun d _ => lineEntry_text d
  rw [hmap, List.filter_map]
  rfl

lemma sort_eq_of_perm {ls ls' : List Text} (hperm : ls.Perm ls') : sort ls = sort ls' :=
  (((List.perm_insertionSort _ ls).trans hperm).trans
    (List.perm_insertionSort _ ls').symm).eq_of_pairwise' (pairwise_sort ls) (pairwise_sort ls')

namespace Reordered

variable (hr : Reordered r r')
include hr

lemma readLive_eq : readLive r' h (sortLines r'.dirents) = readLive r h (sortLines r.dirents) := by
  rw [Diagnoses.readLive_eq, Diagnoses.readLive_eq, map_sortLines, map_sortLines,
    sort_eq_of_perm (hr.dirents_perm.map _)]
  simp only [hr.mem_numbers]

lemma linksOf_eq {inodes : ℕ} : linksOf inodes r'.dirents n = linksOf inodes r.dirents n :=
  (hr.dirents_perm.filter _).length_eq

/-- The reasons stay if no inode has two lines. -/
lemma reason (hnodup : r.numbers.Nodup) (hm : Reason r h m) : Reason r' h m := by
  have hslot : ∀ x, x ∈ r'.slots ↔ x ∈ r.slots := fun x => hr.slots_perm.mem_iff
  have hnodup' : r'.numbers.Nodup := (hr.inodes_perm.map InodeRecord.number).nodup_iff.mpr hnodup
  cases hm with
  | outside x κ hx hout => exact .outside x κ ((hslot x).mpr hx) hout
  | freeBlock x hx hfree => exact .freeBlock x ((hslot x).mpr hx) (hr.mem_bfrees.mpr hfree)
  | duplicate x hx hlength =>
    refine .duplicate x ((hslot x).mpr hx) ?_
    rwa [slotsTo, (hr.slots_perm.filter _).length_eq]
  | indirect u x v κ hsplit hfault =>
    exact .indirect u x v κ (hr.pointers_eq.trans hsplit) (hr.indirectFault_eq u x ▸ hfault)
  | unreferenced b hb =>
    exact .unreferenced b ⟨hb.above, hb.below, hr.mem_bfrees.not.mpr hb.used,
      fun x hx => hb.unreferenced x (hr.refs_perm.mem_iff.mp hx)⟩
  | freeInode n hfree hline =>
    exact .freeInode n (hr.mem_ifrees.mpr hfree) (hr.mem_numbers.mpr hline)
  | unlisted n hn =>
    exact .unlisted n ⟨hn.above, hn.le, hr.mem_ifrees.not.mpr hn.used,
      hr.mem_numbers.not.mpr hn.unlisted⟩
  | links n q hq =>
    obtain ⟨hline, hne⟩ := hq
    rw [← hr.linksOf_eq] at hne ⊢
    refine .links n q ⟨(lineOf_eq_some_iff hnodup').mpr ?_, hne⟩
    obtain ⟨hmem, hn⟩ := (lineOf_eq_some_iff hnodup).mp hline
    exact ⟨hr.inodes_perm.mem_iff.mpr hmem, hn⟩
  | entry d hd hnot =>
    have hnumbers : ∀ n, n ∈ r'.inodes.map InodeRecord.number ↔
        n ∈ r.inodes.map InodeRecord.number := fun n => hr.mem_numbers
    have hun : Unallocated h.inodes.toNat r.ifrees r.inodes d.inode ↔
        Unallocated h.inodes.toNat r'.ifrees r'.inodes d.inode := by
      unfold Unallocated
      rw [hnumbers, hr.mem_ifrees]
    simp only [hun]
    refine .entry d (hr.dirents_perm.mem_iff.mpr hd) ?_
    rwa [Counted, hnumbers]
  | parent u e v _ hsplit hword => exact .parent u e v m (hr.readLive_eq.trans hsplit) hword

end Reordered

/-- **The order of the lines does not matter**, apart from that of the indirect blocks, as long as
no inode has two lines: the same messages are printed, and the status is the same. -/
theorem lab3b_reordered (r r' : LineReport) (hr : Reordered r r') (hnodup : r.numbers.Nodup) :
    (printed r').Perm (printed r) ∧ (lab3b r'.text).status = (lab3b r.text).status := by
  have hnodup' : r'.numbers.Nodup := (hr.inodes_perm.map InodeRecord.number).nodup_iff.mpr hnodup
  cases hh : r.header? with
  | none =>
    unfold printed lab3b
    rw [analysis_eq_none hh, analysis_eq_none (hr.header.trans hh)]
    exact ⟨List.Perm.refl _, rfl⟩
  | some h =>
    have hh' : r'.header? = some h := hr.header.trans hh
    have hcompletes : Completes r' h ↔ Completes r h := ⟨hr.symm.completes, hr.completes⟩
    have hreason : ∀ m, Reason r' h m ↔ Reason r h m := fun m =>
      ⟨hr.symm.reason hnodup', hr.reason hnodup⟩
    refine ⟨(List.perm_ext_iff_of_nodup (nodup_printed _) (nodup_printed _)).mpr fun m => ?_, ?_⟩
    · exact (mem_printed_iff hh' m).trans
        ((and_congr hcompletes (hreason m)).trans (mem_printed_iff hh m).symm)
    · obtain ⟨h1, h2, h0⟩ := status_iff hh
      obtain ⟨h1', h2', h0'⟩ := status_iff hh'
      simp only [hcompletes, hreason] at h1' h2' h0'
      by_cases hc : Completes r h
      · by_cases hany : ∃ m, Reason r h m
        · rw [h2.mpr ⟨hc, hany⟩, h2'.mpr ⟨hc, hany⟩]
        · rw [h0.mpr ⟨hc, hany⟩, h0'.mpr ⟨hc, hany⟩]
      · rw [h1.mpr hc, h1'.mpr hc]

/-- The lines from the last to the first. -/
def reversed (r : LineReport) : LineReport where
  records := r.records.reverse
  readable x hx := r.readable x (List.mem_reverse.mp hx)

/-- A directory with a message about its parent. -/
theorem lab3b_reordered_reversed :
    (printed (reversed (directoryIn 20 2))).Perm (printed (directoryIn 20 2)) ∧
      (lab3b (reversed (directoryIn 20 2)).text).status = (lab3b (directoryIn 20 2).text).status :=
  lab3b_reordered (directoryIn 20 2) (reversed (directoryIn 20 2))
    ⟨List.reverse_perm _, rfl, rfl⟩ (by decide)

end LowLevelTasks.Diagnoses
