import LowLevelTasks.BlockCells
import LowLevelTasks.InodeCells

/-!
Whole runs of the analyser over reports with any directory entries, also such that make it
raise an exception. Which blocks are free, where references stand and which inodes have a
line is known from the records, and what is printed about blocks follows from that.
-/

namespace LowLevelTasks.LineRuns

open LowLevelTasks.BlockCells LowLevelTasks.Folds LowLevelTasks.InodeCells LowLevelTasks.Lab3b
open LowLevelTasks.Messages LowLevelTasks.Passes LowLevelTasks.ReferencePass
open LowLevelTasks.Reports LowLevelTasks.RubyArray LowLevelTasks.RubyText LowLevelTasks.Tables

/-! ### Reports of lines -/

/-- A record that is written as one line. A name may have commas and quotes. -/
def Readable : Record → Prop
  | .inode q => q.Plain
  | .dirent e => '\n' ∉ e.name
  | _ => True

instance : (x : Record) → Decidable (Readable x)
  | .inode q => inferInstanceAs (Decidable q.Plain)
  | .dirent e => inferInstanceAs (Decidable ('\n' ∉ e.name))
  | .superblock _ | .group _ | .bfree _ | .ifree _ | .indirect _ => .isTrue trivial

/-- A report in which each record has its line. -/
structure LineReport where
  records : List Record
  readable : ∀ x ∈ records, Readable x

namespace LineReport

variable (r : LineReport)

def text : Text := unlines (r.records.map Record.text)

def bfrees : List ℕ := r.records.filterMap Record.bfree?

def ifrees : List ℕ := r.records.filterMap Record.ifree?

def inodes : List InodeRecord := r.records.filterMap Record.inode?

def dirents : List DirentRecord := r.records.filterMap Record.dirent?

def indirects : List IndirectRecord := r.records.filterMap Record.indirect?

/-- The numbers that have an inode line. -/
def numbers : List ℕ := r.inodes.map InodeRecord.number

/-- What the analyser takes from the first superblock and the first group. -/
def header? : Option Header := do
  let sb ← (r.records.filterMap Record.superblock?).head?
  let g ← (r.records.filterMap Record.group?).head?
  header sb g

end LineReport

variable {r : LineReport} {h : Header}

lemma newline_notMem_text {x : Record} (hx : Readable x) : '\n' ∉ x.text := by
  cases x with
  | dirent e =>
    refine notMem_csv (by decide) ?_
    unfold Record.fields DirentRecord.fields
    rw [List.forall_mem_append, List.forall_mem_cons, List.forall_mem_singleton]
    refine ⟨⟨by decide, notMem_map_decimal (by decide)⟩, ?_⟩
    have hname : '\n' ∉ e.name := hx
    simp [hname]
  | inode q => exact Reports.newline_notMem_text (x := .inode q) hx
  | superblock | group | bfree | ifree | indirect => exact Reports.newline_notMem_text trivial

lemma plain_of_mem_inodes {q : InodeRecord} (hq : q ∈ r.inodes) : q.Plain := by
  obtain ⟨x, hx, hxq⟩ := List.mem_filterMap.mp hq
  cases x <;> simp only [Record.inode?, reduceCtorEq, Option.some.injEq] at hxq
  exact hxq ▸ r.readable _ hx

lemma mem_numbers {n : ℕ} : n ∈ r.numbers ↔ ∃ q ∈ r.inodes, q.number = n := by
  simp [LineReport.numbers]

lemma exists_of_header? (hh : r.header? = some h) : ∃ sb g,
    header sb g = some h ∧ h.blocks = sb.blocks ∧ h.inodes = sb.inodes ∧
      analysis r.text = linesAnalysis r.records sb g ∧
      entriesRead r.text = linesRead r.records sb g := by
  obtain ⟨sb, hsb, hh⟩ := Option.bind_eq_some_iff.mp hh
  obtain ⟨g, hg, hh⟩ := Option.bind_eq_some_iff.mp hh
  have hheader := hh
  have hline : ∀ x ∈ r.records, '\n' ∉ x.text := fun x hx => newline_notMem_text (r.readable x hx)
  have hplain : ∀ q ∈ r.inodes, q.Plain := fun q hq => plain_of_mem_inodes hq
  obtain ⟨size, -, rfl⟩ := Option.map_eq_some_iff.mp hh
  exact ⟨sb, g, hheader, rfl, rfl, analysis_lines hline hplain hsb hg,
    entriesRead_lines hline hplain hsb hg⟩

/-! ### References -/

/-- The reference of a pointer, if it is not zero. -/
def slotRef (inode : ℕ) (p : ℕ × ℕ) : Option Ref :=
  if p.1 = 0 then none else some ⟨inode, p.1, .slot p.2⟩

def slotRefs (q : InodeRecord) : List Ref :=
  if q.type = .symlink then [] else q.iBlock.zipIdx.filterMap (slotRef q.number)

def indirectRef (x : IndirectRecord) : Ref := ⟨x.inode, x.refBlock, .indirect x.level x.offset⟩

/-- The references of the inodes. -/
def LineReport.slots (r : LineReport) : List Ref := r.inodes.flatMap slotRefs

/-- The references of the indirect blocks. -/
def LineReport.pointers (r : LineReport) : List Ref := r.indirects.map indirectRef

def LineReport.refs (r : LineReport) : List Ref := r.slots ++ r.pointers

/-- The reference is that of a pointer of an inode, which is not zero. -/
def IsSlot (x : Ref) : Prop := x.block ≠ 0 ∧ ∃ num < 15, x.origin = .slot num

lemma IsSlot.level_lt {x : Ref} (hx : IsSlot x) : x.level < 4 := by
  obtain ⟨-, num, hnum, horigin⟩ := hx
  exact level_slot horigin hnum

lemma isSlot_of_slotRef {q : InodeRecord} (hq : q.Plain) (htype : q.type ≠ .symlink)
    {p : ℕ × ℕ} (hp : p ∈ q.iBlock.zipIdx) {x : Ref} (hx : slotRef q.number p = some x) :
    IsSlot x := by
  unfold slotRef at hx
  split at hx
  · cases hx
  · next h0 =>
    obtain rfl := Option.some.inj hx
    have hlt := List.snd_lt_of_mem_zipIdx hp
    rw [hq.2 htype] at hlt
    exact ⟨h0, p.2, hlt, rfl⟩

lemma isSlot_of_mem_slotRefs {q : InodeRecord} (hq : q.Plain) {x : Ref} (hx : x ∈ slotRefs q) :
    IsSlot x := by
  unfold slotRefs at hx
  split at hx
  · cases hx
  · next htype =>
    obtain ⟨p, hp, hpx⟩ := List.mem_filterMap.mp hx
    exact isSlot_of_slotRef hq htype hp hpx

lemma isSlot_of_mem_slots {x : Ref} (hx : x ∈ r.slots) : IsSlot x := by
  obtain ⟨q, hq, hx⟩ := List.mem_flatMap.mp hx
  exact isSlot_of_mem_slotRefs (plain_of_mem_inodes hq) hx

/-! ### The table of inodes -/

/-- These inodes have a line, and the table is as long as it has to be. -/
structure Numbered (inodes : ℕ) (numbers : List ℕ) (s : St) : Prop where
  scanned : ∀ n : ℕ, n ∈ numbers ↔ ∃ entry, get s.inodeHash n = some (.scanned entry)
  cell : ∀ n ≤ inodes, get s.inodeHash n ≠ none

variable {inodes n : ℕ} {numbers : List ℕ} {s s' : St}

lemma Numbered.entry_some (hn : Numbered inodes numbers s) (hmem : n ∈ numbers) :
    ∃ entry, get s.inodeHash n = some (.scanned entry) := (hn.scanned n).mp hmem

lemma Numbered.entry_none (hn : Numbered inodes numbers s) (hmem : n ∉ numbers) :
    s.entry n = none := by
  unfold St.entry
  split
  · next entry hentry => exact absurd ((hn.scanned n).mpr ⟨entry, hentry⟩) hmem
  · rfl

lemma Numbered.congr (hn : Numbered inodes numbers s) (heq : s'.inodeHash = s.inodeHash) :
    Numbered inodes numbers s' where
  scanned m := heq ▸ hn.scanned m
  cell m hm := heq ▸ hn.cell m hm

lemma Numbered.put (hn : Numbered inodes numbers s) {entry : InodeEntry}
    (hget : ∀ m : ℕ, get s'.inodeHash m =
      if m = n then some (.scanned entry) else get s.inodeHash m) :
    Numbered inodes (numbers ++ [n]) s' where
  scanned m := by
    rw [hget, List.mem_append, List.mem_singleton, hn.scanned m]
    by_cases hm : m = n <;> simp [hm]
  cell m hm := by
    rw [hget]
    split
    · simp
    · exact hn.cell m hm

lemma Numbered.rewrite (hn : Numbered inodes numbers s) {entry : InodeEntry} (hmem : n ∈ numbers)
    (hget : ∀ m : ℕ, get s'.inodeHash m =
      if m = n then some (.scanned entry) else get s.inodeHash m) :
    Numbered inodes numbers s' where
  scanned m := by
    rw [← (hn.put hget).scanned m, List.mem_append, List.mem_singleton]
    exact (or_iff_left_of_imp fun hm => hm ▸ hmem).symm
  cell := (hn.put hget).cell

lemma Numbered.setParent (hn : Numbered inodes numbers s) (hmem : n ∈ numbers) (parent : ℤ) :
    ∃ s', s.setParent n parent = some s' ∧ Numbered inodes numbers s' ∧
      s'.blockHash = s.blockHash ∧ s'.errList = s.errList := by
  obtain ⟨entry, hentry⟩ := hn.entry_some hmem
  obtain ⟨s', hs', hget, hblocks, herr⟩ := setParent_spec hentry parent
  exact ⟨s', hs', hn.rewrite hmem hget, hblocks, herr⟩

lemma Numbered.setParent_none (hn : Numbered inodes numbers s) (hmem : n ∉ numbers) (parent : ℤ) :
    s.setParent n parent = none := by
  unfold St.setParent
  rw [hn.entry_none hmem]
  rfl

/-- The inodes that have a line have these parents. -/
def Parents (numbers : List ℕ) (t : ℕ → ℕ) (s : St) : Prop :=
  ∀ n ∈ numbers, ∃ entry, get s.inodeHash n = some (.scanned entry) ∧ entry.parent = t n

variable {t : ℕ → ℕ}

lemma Parents.put (hp : Parents numbers t s) {entry : InodeEntry} {p : ℕ}
    (hget : ∀ m : ℕ, get s'.inodeHash m =
      if m = n then some (.scanned entry) else get s.inodeHash m) (hparent : entry.parent = p) :
    Parents (numbers ++ [n]) (Function.update t n p) s' := by
  intro m hm
  rw [hget]
  by_cases hmn : m = n
  · subst hmn
    rw [if_pos rfl, Function.update_self]
    exact ⟨entry, rfl, hparent⟩
  · rw [if_neg hmn, Function.update_of_ne hmn]
    exact hp m ((List.mem_append.mp hm).resolve_right (by simpa using hmn))

lemma Parents.rewrite (hp : Parents numbers t s) {entry : InodeEntry} {p : ℕ}
    (hget : ∀ m : ℕ, get s'.inodeHash m =
      if m = n then some (.scanned entry) else get s.inodeHash m) (hparent : entry.parent = p) :
    Parents numbers (Function.update t n p) s' := fun m hm =>
  hp.put hget hparent m (List.mem_append_left _ hm)

lemma numbered_of_known {ifrees : List ℕ} {qs : List InodeRecord} {es : List DirentRecord}
    (hk : Known inodes ifrees qs es s) : Numbered inodes (qs.map InodeRecord.number) s where
  scanned n := by
    have hcell := hk n
    constructor
    · intro hn
      obtain ⟨q, hq⟩ := exists_lineOf hn
      rw [inodeCellOf_of_some hq, cellAt_eq_scanned_iff] at hcell
      obtain ⟨-, parent, hget⟩ := hcell
      exact ⟨_, hget⟩
    · rintro ⟨entry, hget⟩
      rw [cellAt_of_get hget] at hcell
      by_contra hn
      rw [inodeCellOf_of_none (lineOf_eq_none_iff.mpr hn)] at hcell
      split_ifs at hcell <;> cases hcell
  cell n hn hget := by
    have hcell := hk n
    unfold cellAt at hcell
    rw [hget, Option.map_none] at hcell
    cases hline : lineOf qs n with
    | none =>
      rw [inodeCellOf_of_none hline] at hcell
      split_ifs at hcell
    | some q =>
      rw [inodeCellOf_of_some hline] at hcell
      cases hcell

/-! ### The passes over the inodes -/

variable {blocks : ℕ} {bfrees : List ℕ} {refs : List Ref} {m : Text}

/-- The pointers of one inode. -/
lemma iBlocks_spec {q : InodeRecord} (hq : q.Plain) (htype : q.type ≠ .symlink)
    (hs : Holds blocks bfrees refs s.blockHash) (hlevels : ∀ y ∈ refs, y.level < 4) :
    ∃ s', q.iBlock.zipIdx.foldlM (fun s p => Lab3b.iBlock h q.number s p.2 p.1) s = some s' ∧
      Holds blocks bfrees (refs ++ slotRefs q) s'.blockHash ∧ s'.inodeHash = s.inodeHash ∧
      ∀ m, m ∈ s'.errList ↔ m ∈ s.errList ∨
        Somewhere (fun u x => SlotSays h bfrees (refs ++ u) x m) (slotRefs q) := by
  unfold slotRefs
  rw [if_neg htype]
  refine foldlM_inv (p := fun u (s' : St) =>
    Holds blocks bfrees (refs ++ u.filterMap (slotRef q.number)) s'.blockHash ∧
      s'.inodeHash = s.inodeHash ∧ ∀ m, m ∈ s'.errList ↔ m ∈ s.errList ∨
        Somewhere (fun u x => SlotSays h bfrees (refs ++ u) x m)
          (u.filterMap (slotRef q.number))) ?_ ⟨by simpa using hs, rfl, fun m => by simp⟩
  rintro u p v s₁ hptrs ⟨hs₁, hinodes, hsaid⟩
  have hp : p ∈ q.iBlock.zipIdx := by rw [hptrs]; simp
  rw [List.filterMap_append]
  cases hx : slotRef q.number p with
  | none =>
    have h0 : p.1 = 0 := by
      unfold slotRef at hx
      split at hx
      · assumption
      · cases hx
    refine ⟨s₁, ?_, ?_⟩
    · unfold Lab3b.iBlock
      rw [if_pos (by exact_mod_cast h0)]
    · rw [List.filterMap_cons_none hx, List.filterMap_nil, List.append_nil]
      exact ⟨hs₁, hinodes, hsaid⟩
  | some x =>
    obtain ⟨h0, num, hnum, horigin⟩ := isSlot_of_slotRef hq htype hp hx
    have hlevels' : ∀ y ∈ refs ++ u.filterMap (slotRef q.number), y.level < 4 := by
      rw [List.forall_mem_append]
      refine ⟨hlevels, fun y hy => ?_⟩
      obtain ⟨p', hp', hy⟩ := List.mem_filterMap.mp hy
      exact (isSlot_of_slotRef hq htype (by rw [hptrs]; simp [hp']) hy).level_lt
    obtain ⟨s', hs', hholds, hinodes', hsaid'⟩ := BlockCells.iBlock_spec (h := h) hs₁ hlevels'
      horigin hnum h0
    have hfields : x.inode = q.number ∧ x.block = p.1 ∧ num = p.2 := by
      unfold slotRef at hx
      split at hx
      · cases hx
      · obtain rfl := Option.some.inj hx
        exact ⟨rfl, rfl, (Origin.slot.inj horigin).symm⟩
    rw [hfields.1, hfields.2.1, hfields.2.2] at hs'
    rw [List.filterMap_cons_some hx, List.filterMap_nil]
    refine ⟨s', hs', by rwa [← List.append_assoc], hinodes'.trans hinodes, fun m => ?_⟩
    rw [hsaid', hsaid, somewhere_concat, or_assoc]

/-- The text of a message about a block. -/
def OfBlocks (m : Text) : Prop :=
  (∃ κ : Flag, (words m).head? = some κ.word) ∨ (∃ b, m = Err.unref b) ∨
    ∃ b, m = Err.free "all_blk".toList b

lemma not_ofBlocks {w : Text} (hm : (words m).head? = some w)
    (hw : w ∈ ["DIRECTORY".toList, "INODE".toList, "UNALLOCATED".toList]) : ¬ OfBlocks m := by
  rintro (⟨κ, hκ⟩ | ⟨b, rfl⟩ | ⟨b, rfl⟩)
  · rw [hm, Option.some.injEq] at hκ
    subst hκ
    revert hw
    cases κ <;> decide
  · rw [words_unref, List.head?_cons, Option.some.injEq] at hm
    subst hm
    revert hw
    decide
  · rw [words_allocatedBlock, List.head?_cons, Option.some.injEq] at hm
    subst hm
    revert hw
    decide

/-- The text of a message about an inode that is free. -/
def OfFreeInode (m : Text) : Prop := ∃ n, m = Err.free "all_ino".toList n

lemma OfBlocks.not_ofFreeInode (hm : OfBlocks m) : ¬ OfFreeInode m := by
  rintro ⟨n, rfl⟩
  have hwords := words_allocatedInode n
  revert hm
  rintro (⟨κ, hκ⟩ | ⟨b, hb⟩ | ⟨b, hb⟩)
  · rw [hwords, List.head?_cons, Option.some.injEq] at hκ
    revert hκ
    cases κ <;> decide
  · rw [hb, words_unref] at hwords
    exact absurd (List.cons.inj hwords).1 (by decide)
  · rw [hb, words_allocatedBlock] at hwords
    exact absurd (List.cons.inj (List.cons.inj hwords).2).1 (by decide)

lemma mem_err_ofBlocks {msg : Text} (hm : OfBlocks m) (hmsg : ¬ OfBlocks msg) :
    m ∈ (s.err msg).errList ↔ m ∈ s.errList := by
  rw [mem_err]
  exact or_iff_left fun heq => hmsg (heq ▸ hm)

/-- **One inode line.** -/
theorem inodeRecord_spec {q : InodeRecord} (hq : q.Plain)
    (hs : Holds blocks bfrees refs s.blockHash) (hlevels : ∀ y ∈ refs, y.level < 4) :
    ∃ s', inodeRecord h s q = some s' ∧ Holds blocks bfrees (refs ++ slotRefs q) s'.blockHash ∧
      (∀ n : ℕ, get s'.inodeHash n = if n = q.number then
        some (.scanned ⟨q.linkCount, 0, 0⟩) else get s.inodeHash n) ∧
      ∀ m, m ∈ s'.errList ↔ (m ∈ s.errList ∨
        get s.inodeHash q.number = some .free ∧ m = Err.free "all_ino".toList q.number) ∨
          Somewhere (fun u x => SlotSays h bfrees (refs ++ u) x m) (slotRefs q) := by
  unfold inodeRecord
  extract_lets s₁
  have hblocks₁ : s₁.blockHash = s.blockHash := by
    unfold s₁
    split <;> rfl
  have hinodes₁ : s₁.inodeHash = s.inodeHash := by
    unfold s₁
    split <;> rfl
  have hsaid₁ : ∀ m, m ∈ s₁.errList ↔ m ∈ s.errList ∨
      get s.inodeHash q.number = some .free ∧ m = Err.free "all_ino".toList q.number :=
    fun m => by
      unfold s₁
      split
      · next hfree => rw [mem_err, and_iff_right hfree]
      · next hfree => exact (or_iff_left fun hm => hfree hm.1).symm
  obtain ⟨s₂, hs₂, hget, hblocks₂, herr₂⟩ :=
    putInode_spec s₁ q.number (.scanned ⟨q.linkCount, 0, 0⟩)
  rw [hinodes₁] at hget
  simp only [hs₂, Option.bind_eq_bind, Option.bind_some]
  by_cases htype : q.type = .symlink
  · have hnone : slotRefs q = [] := if_pos htype
    rw [if_pos htype, hnone, List.append_nil]
    refine ⟨s₂, rfl, (hblocks₂.trans hblocks₁) ▸ hs, hget, fun m => ?_⟩
    rw [herr₂, hsaid₁]
    simp
  · obtain ⟨s', hs', hholds, hinodes', hsaid⟩ :=
      iBlocks_spec (h := h) hq htype ((hblocks₂.trans hblocks₁) ▸ hs) hlevels
    rw [if_neg htype]
    refine ⟨s', hs', hholds, hinodes' ▸ hget, fun m => ?_⟩
    rw [hsaid, herr₂, hsaid₁]

/-- A free inode that has a line is reported. -/
def FreeScanned (ifrees : List ℕ) (qs : List InodeRecord) (m : Text) : Prop :=
  ∃ n, n ∈ ifrees ∧ n ∈ qs.map InodeRecord.number ∧ m = Err.free "all_ino".toList n

lemma FreeScanned.ofFreeInode {ifrees : List ℕ} {qs : List InodeRecord}
    (hm : FreeScanned ifrees qs m) : OfFreeInode m := by
  obtain ⟨n, -, -, hm⟩ := hm
  exact ⟨n, hm⟩

/-- The cell of an inode is free until its first line. -/
lemma freeScanned_concat {ifrees : List ℕ} {qs : List InodeRecord} {q : InodeRecord}
    (hk : Known inodes ifrees qs [] s) : FreeScanned ifrees (qs ++ [q]) m ↔
      FreeScanned ifrees qs m ∨
        get s.inodeHash q.number = some .free ∧ m = Err.free "all_ino".toList q.number := by
  have hfree : get s.inodeHash q.number = some .free ↔
      q.number ∈ ifrees ∧ q.number ∉ qs.map InodeRecord.number := by
    rw [← cellAt_eq_some_iff (by simp), hk, ← lineOf_eq_none_iff]
    cases hline : lineOf qs q.number with
    | none =>
      rw [inodeCellOf_of_none hline]
      split_ifs <;> simp_all
    | some q' =>
      rw [inodeCellOf_of_some hline]
      simp
  rw [hfree]
  unfold FreeScanned
  simp only [List.map_append, List.map_singleton, List.mem_append, List.mem_singleton]
  constructor
  · rintro ⟨n, hn, hmem, hm⟩
    by_cases hold : n ∈ qs.map InodeRecord.number
    · exact Or.inl ⟨n, hn, hold, hm⟩
    · obtain rfl := hmem.resolve_left hold
      exact Or.inr ⟨⟨hn, hold⟩, hm⟩
  · rintro (⟨n, hn, hold, hm⟩ | ⟨⟨hn, -⟩, hm⟩)
    · exact ⟨n, hn, Or.inl hold, hm⟩
    · exact ⟨_, hn, Or.inr rfl, hm⟩

/-- **The inode lines.** -/
theorem inodeRecords_spec (hs : Holds blocks r.bfrees [] s.blockHash)
    (hk : Known inodes r.ifrees [] [] s) (herr : s.errList = []) :
    ∃ s', r.inodes.foldlM (inodeRecord h) s = some s' ∧
      Holds blocks r.bfrees r.slots s'.blockHash ∧ Known inodes r.ifrees r.inodes [] s' ∧
      Parents r.numbers (fun _ => 0) s' ∧ ∀ m, m ∈ s'.errList ↔
        FreeScanned r.ifrees r.inodes m ∨
          Somewhere (fun u x => SlotSays h r.bfrees u x m) r.slots := by
  refine foldlM_inv (p := fun u (s' : St) =>
    Holds blocks r.bfrees (u.flatMap slotRefs) s'.blockHash ∧ Known inodes r.ifrees u [] s' ∧
      Parents (u.map InodeRecord.number) (fun _ => 0) s' ∧
      ∀ m, m ∈ s'.errList ↔ FreeScanned r.ifrees u m ∨
        Somewhere (fun u x => SlotSays h r.bfrees u x m) (u.flatMap slotRefs)) ?_
    ⟨hs, hk, by simp [Parents], fun m => by simp [herr, FreeScanned]⟩
  rintro u q v s₁ hinodes ⟨hs₁, hk₁, hparents, hsaid⟩
  have hplain : ∀ q' ∈ u ++ q :: v, q'.Plain := fun q' hq' =>
    plain_of_mem_inodes (hinodes ▸ hq')
  have hlevels : ∀ y ∈ u.flatMap slotRefs, y.level < 4 := fun y hy => by
    obtain ⟨q', hq', hy⟩ := List.mem_flatMap.mp hy
    exact (isSlot_of_mem_slotRefs (hplain q' (by simp [hq'])) hy).level_lt
  obtain ⟨s', hs', hholds, hget, hsaid'⟩ :=
    inodeRecord_spec (h := h) (hplain q (by simp)) hs₁ hlevels
  have hparents' := hparents.put (p := 0) hget rfl
  rw [Function.update_eq_self_iff.mpr rfl] at hparents'
  rw [List.flatMap_append, List.flatMap_singleton]
  refine ⟨s', hs', hholds, hk₁.scan hget, by simpa using hparents', fun m => ?_⟩
  rw [hsaid' m, hsaid m, somewhere_append, freeScanned_concat hk₁]
  tauto

/-! ### The pass over the directory entries -/

/-- A `..` for which there is no inode line of its directory, while it names an inode that has
one: the analyser stops there. -/
structure Stray (inodes : ℤ) (numbers : List ℕ) (e : DirentRecord) : Prop where
  name : nameRead e = "..".toList
  inode : e.inode ∈ numbers
  le : e.inode ≤ inodes
  dir : e.dir ∉ numbers

/-- Nothing but the table of inodes and messages about entries have changed. -/
structure Aside (inodes : ℕ) (numbers : List ℕ) (s s' : St) : Prop where
  numbered : Numbered inodes numbers s'
  blocks : s'.blockHash = s.blockHash
  said : ∀ m, OfBlocks m → (m ∈ s'.errList ↔ m ∈ s.errList)

variable {s₁ s₂ : St} {e : DirentRecord}

lemma Aside.trans (h₁ : Aside inodes numbers s s₁) (h₂ : Aside inodes numbers s₁ s₂) :
    Aside inodes numbers s s₂ where
  numbered := h₂.numbered
  blocks := h₂.blocks.trans h₁.blocks
  said m hm := (h₂.said m hm).trans (h₁.said m hm)

lemma Numbered.refl (hn : Numbered inodes numbers s) : Aside inodes numbers s s :=
  ⟨hn, rfl, fun _ _ => Iff.rfl⟩

lemma Numbered.err (hn : Numbered inodes numbers s) {msg w : Text}
    (hm : (words msg).head? = some w) (hw : w = "DIRECTORY".toList) :
    Aside inodes numbers s (s.err msg) where
  numbered := hn.congr rfl
  blocks := rfl
  said m hof := mem_err_ofBlocks hof (not_ofBlocks hm (by simp [hw]))

lemma Numbered.aside (hn : Numbered inodes numbers s') (hblocks : s'.blockHash = s.blockHash)
    (herr : s'.errList = s.errList) : Aside inodes numbers s s' :=
  ⟨hn, hblocks, fun m _ => by rw [herr]⟩

/-- A message about a parent, or none, and then the write of a parent. -/
lemma Numbered.check (hn : Numbered inodes numbers s) (hmem : n ∈ numbers) {c : Prop}
    [Decidable c] (dir inode parent parent' : ℤ) :
    ∃ s', (if c then s else s.err (Err.parent "parent".toList dir inode parent)).setParent n
      parent' = some s' ∧ Aside inodes numbers s s' := by
  have hchecked : Aside inodes numbers s
      (if c then s else s.err (Err.parent "parent".toList dir inode parent)) := by
    split
    · exact hn.refl
    · exact hn.err (head_words_parent _ _ _ _) rfl
  obtain ⟨s', hs', hn', hblocks, herr⟩ := hchecked.numbered.setParent hmem parent'
  exact ⟨s', hs', hchecked.trans (hn'.aside hblocks herr)⟩

lemma childEntry_spec (hn : Numbered inodes numbers s) (hmem : n ∈ numbers) (dir : ℤ) :
    ∃ s', childEntry s dir n = some s' ∧ Aside inodes numbers s s' := by
  obtain ⟨entry, hentry⟩ := hn.entry_some hmem
  unfold childEntry
  rw [entry_eq hentry]
  exact hn.check hmem _ _ _ _

lemma parentEntry_spec (hn : Numbered inodes numbers s) {dir : ℕ} (hdir : dir ∈ numbers)
    (hmem : n ∈ numbers) : ∃ s', parentEntry s dir n = some s' ∧ Aside inodes numbers s s' := by
  obtain ⟨dirEntry, hdirEntry⟩ := hn.entry_some hdir
  obtain ⟨entry, hentry⟩ := hn.entry_some hmem
  unfold parentEntry
  rw [entry_eq hdirEntry, entry_eq hentry]
  exact hn.check hdir _ _ _ _

lemma namedEntry_spec (hn : Numbered inodes numbers s) (hmem : n ∈ numbers) (dir : ℕ)
    (name : Text) :
    (name = "..".toList ∧ dir ∉ numbers → namedEntry s dir n name = none) ∧
      (¬ (name = "..".toList ∧ dir ∉ numbers) →
        ∃ s', namedEntry s dir n name = some s' ∧ Aside inodes numbers s s') := by
  unfold namedEntry
  by_cases hself : name = ".".toList
  · rw [if_pos hself]
    refine ⟨?_, fun _ => ⟨_, rfl, ?_⟩⟩
    · rintro ⟨hup, -⟩
      rw [hself] at hup
      exact absurd hup (by decide)
    · split
      · exact hn.refl
      · exact hn.err (head_words_parent _ _ _ _) rfl
  rw [if_neg hself]
  by_cases hup : name = "..".toList
  · rw [if_pos hup]
    by_cases hdir : dir ∈ numbers
    · obtain ⟨entry, hentry⟩ := hn.entry_some hdir
      refine ⟨fun hnot => absurd hdir hnot.2, fun _ => ?_⟩
      rw [entry_eq hentry, Option.bind_eq_bind, Option.bind_some]
      split
      · exact parentEntry_spec hn hdir hmem
      · exact childEntry_spec hn hmem dir
    · refine ⟨fun _ => ?_, fun hnot => absurd ⟨hup, hdir⟩ hnot⟩
      rw [hn.entry_none hdir]
      rfl
  · rw [if_neg hup]
    exact ⟨fun hnot => absurd hnot.1 hup, fun _ => childEntry_spec hn hmem dir⟩

/-- An entry that names no inode that has a line and is counted. -/
lemma direntRead_dead (hn : Numbered inodes numbers s) (hcount : h.inodes = inodes)
    (hdead : ¬ (e.inode ∈ numbers ∧ e.inode ≤ h.inodes)) :
    ∃ b, direntRead h s e =
      some (s.err (Err.dir (dirFlag b) e.dir e.inode (nameRead e))) := by
  rw [hcount] at hdead
  unfold direntRead dirent
  rw [hcount]
  cases hget : get s.inodeHash e.inode with
  | none =>
    have hlt : inodes < e.inode := by
      by_contra hnot
      exact hn.cell e.inode (by omega) hget
    dsimp only
    rw [if_pos (by omega)]
    exact ⟨false, rfl⟩
  | some cell =>
    cases cell with
    | unreferenced | free => exact ⟨true, rfl⟩
    | scanned entry =>
      have hlt : ¬ (e.inode : ℤ) ≤ inodes := fun hle => hdead ⟨(hn.scanned _).mpr ⟨_, hget⟩, hle⟩
      dsimp only
      rw [if_pos (by omega)]
      exact ⟨false, rfl⟩

/-- An entry that names such an inode: the link is counted, and then the name is looked at. -/
lemma direntRead_live {entry : InodeEntry} (hle : e.inode ≤ h.inodes)
    (hentry : get s.inodeHash e.inode = some (.scanned entry)) :
    ∃ s₁, direntRead h s e = namedEntry s₁ e.dir e.inode (nameRead e) ∧
      (∀ m : ℕ, get s₁.inodeHash m = if m = e.inode then
        some (.scanned { entry with links := entry.links + 1 }) else get s.inodeHash m) ∧
      s₁.blockHash = s.blockHash ∧ s₁.errList = s.errList := by
  obtain ⟨s₁, hs₁, hget, hblocks, herr⟩ :=
    putInode_spec s e.inode (.scanned { entry with links := entry.links + 1 })
  refine ⟨s₁, ?_, hget, hblocks, herr⟩
  unfold direntRead dirent
  rw [hentry]
  dsimp only
  rw [if_neg (by omega), hs₁, Option.bind_eq_bind, Option.bind_some]

/-- **One entry** stops the analyser if it is stray, and leaves the blocks alone else. -/
theorem direntRead_spec (hn : Numbered inodes numbers s) (hcount : h.inodes = inodes)
    (e : DirentRecord) :
    (Stray h.inodes numbers e → direntRead h s e = none) ∧
      (¬ Stray h.inodes numbers e →
        ∃ s', direntRead h s e = some s' ∧ Aside inodes numbers s s') := by
  by_cases hlive : e.inode ∈ numbers ∧ e.inode ≤ h.inodes
  · obtain ⟨entry, hentry⟩ := hn.entry_some hlive.1
    obtain ⟨s₁, hs₁, hget, hblocks, herr⟩ := direntRead_live hlive.2 hentry
    have hn₁ := hn.rewrite hlive.1 hget
    obtain ⟨hnone, hsome⟩ := namedEntry_spec hn₁ hlive.1 e.dir (nameRead e)
    rw [hs₁]
    refine ⟨fun hstray => hnone ⟨hstray.name, hstray.dir⟩, fun hstray => ?_⟩
    obtain ⟨s', hs', haside⟩ := hsome fun hnot => hstray ⟨hnot.1, hlive.1, hlive.2, hnot.2⟩
    exact ⟨s', hs', (hn₁.aside hblocks herr).trans haside⟩
  · refine ⟨fun hstray => absurd ⟨hstray.inode, hstray.le⟩ hlive, fun _ => ?_⟩
    obtain ⟨_, hflag⟩ := direntRead_dead hn hcount hlive
    exact ⟨_, hflag, hn.err (head_words_dir _ _ _ _) rfl⟩

/-- **The entries** of a report. -/
theorem direntReads_spec (hn : Numbered inodes numbers s) (hcount : h.inodes = inodes) :
    ((∃ e ∈ r.dirents, Stray h.inodes numbers e) →
      (sortLines r.dirents).foldlM (direntRead h) s = none) ∧
    ((¬ ∃ e ∈ r.dirents, Stray h.inodes numbers e) →
      ∃ s', (sortLines r.dirents).foldlM (direntRead h) s = some s' ∧
        Aside inodes numbers s s') := by
  have hperm : (∃ e ∈ r.dirents, Stray h.inodes numbers e) ↔
      Somewhere (fun _ e => Stray h.inodes numbers e) (sortLines r.dirents) := by
    rw [somewhere_const]
    simp only [mem_sortLines]
  rw [hperm]
  refine foldlM_rounds (p := fun _ s' => Aside inodes numbers s s') ?_ hn.refl
  intro u e v s₁ _ h₁
  obtain ⟨hnone, hsome⟩ := direntRead_spec h₁.numbered hcount e
  refine ⟨hnone, fun hnot => ?_⟩
  obtain ⟨s', hs', h₂⟩ := hsome hnot
  exact ⟨s', hs', h₁.trans h₂⟩

end LowLevelTasks.LineRuns
