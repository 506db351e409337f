import LowLevelTasks.DirentPass
import LowLevelTasks.ReferencePass

/-!
The analyser on reports of consistent file systems. It should have nothing to say about them.
It has nothing to say exactly when the lines of every directory sort before those of its
parent, and no file has names in two directories: the pass over the directory entries compares
the directory an entry stands in with the parent of the inode even if that is a file, and a
`..` that agrees with the table is compared as if it were an entry that names a child.
-/

namespace LowLevelTasks.ConsistentReport

open LowLevelTasks.DirentPass LowLevelTasks.Lab3b LowLevelTasks.ParentTable
open LowLevelTasks.Passes LowLevelTasks.ReferencePass LowLevelTasks.Reports
open LowLevelTasks.RubyArray LowLevelTasks.RubyText LowLevelTasks.Tables

section

variable (r : Report)

def IsDir (x : ℕ) : Prop := ∃ q ∈ r.inodes, q.number = x ∧ q.type = .directory

/-- All references to blocks. -/
def allReferences : List ℕ :=
  r.inodes.flatMap references ++ r.indirects.map IndirectRecord.refBlock

/-- What the entries with this name in the directory `x` name. -/
def named (name : Text) (x : ℕ) : List ℕ :=
  (r.dirents.filter fun e => e.name = name ∧ e.dir = x).map DirentRecord.inode

/-- The directories of the entries that name `x`, apart from `.` and `..`. -/
def homes (x : ℕ) : List ℕ :=
  (r.dirents.filter fun e => (e.name ≠ ".".toList ∧ e.name ≠ "..".toList) ∧ e.inode = x).map
    DirentRecord.dir

/-- The report of a consistent file system with one group. -/
structure Consistent (sb : Superblock) (g : Group) (h : Header) : Prop where
  superblock : r.superblocks = [sb]
  group : r.groups = [g]
  header : header sb g = some h
  block_once : ∀ b : ℕ, h.reservedBlocks < b → b < sb.blocks →
    r.bfrees.count b + (allReferences r).count b = 1
  reference_inside : ∀ b ∈ allReferences r, h.reservedBlocks < b ∧ b < sb.blocks
  inode_once : ∀ n, sb.firstInode ≤ n → n ≤ sb.inodes →
    r.ifrees.count n + (numbers r).count n = 1
  inode_number : ∀ n ∈ numbers r, 1 ≤ n ∧ n ≤ sb.inodes ∧ n ∉ r.ifrees
  inode_nodup : (numbers r).Nodup
  root : IsDir r 2
  entry_inode : ∀ e ∈ r.dirents, e.inode ∈ numbers r
  entry_dir : ∀ e ∈ r.dirents, IsDir r e.dir
  links : ∀ q ∈ r.inodes, (r.dirents.map DirentRecord.inode).count q.number = q.linkCount
  self : ∀ x, IsDir r x → named r ".".toList x = [x]
  root_up : named r "..".toList 2 = [2] ∧ homes r 2 = []
  up : ∀ x, IsDir r x → x ≠ 2 → ∃ p, named r "..".toList x = [p] ∧ homes r x = [p]

/-- The lines of every directory sort before those of the directory that its `..` names, or
else the `..` of that one leads back, and no inode has names in two directories. -/
structure OrderlyReport : Prop where
  up : ∀ e ∈ r.dirents, e.name = "..".toList → decimal e.dir < decimal e.inode ∨
    ∀ e' ∈ r.dirents, e'.name = "..".toList → e'.dir = e.inode → e'.inode = e.dir
  name : ∀ e ∈ r.dirents, ∀ e' ∈ r.dirents, e.name ≠ ".".toList ∧ e.name ≠ "..".toList →
    e'.name ≠ ".".toList ∧ e'.name ≠ "..".toList → e.inode = e'.inode → e.dir = e'.dir

end

variable {r : Report} {sb : Superblock} {g : Group} {h : Header}

/-! ### The tree of the directories -/

lemma perm_entries (r : Report) :
    ((sortedDirents r).map entryOf).Perm (r.dirents.map entryOf) :=
  (perm_sortedDirents r).map entryOf

lemma orderlyReport_iff :
    OrderlyReport r ↔ Orderly decimal ((sortedDirents r).map entryOf) := by
  rw [orderly_perm (perm_entries r)]
  unfold Orderly UpOk SameHolder
  simp only [List.forall_mem_map, entryOf, nameOf_eq_up, nameOf_eq_other]
  constructor
  · rintro ⟨hup, hname⟩
    exact ⟨hup, hname⟩
  · rintro ⟨hup, hname⟩
    exact ⟨hup, hname⟩

lemma ups_entries (r : Report) (x : ℕ) :
    (ups ((sortedDirents r).map entryOf) x).Perm (named r "..".toList x) := by
  have hmap : ups (r.dirents.map entryOf) x = named r "..".toList x := by
    unfold ups named
    rw [List.filter_map, List.map_map]
    simp only [Function.comp_def, entryOf, nameOf_eq_up]
  rw [← hmap]
  exact ((perm_entries r).filter _).map _

lemma holders_entries (r : Report) (x : ℕ) :
    (holders ((sortedDirents r).map entryOf) x).Perm (homes r x) := by
  have hmap : holders (r.dirents.map entryOf) x = homes r x := by
    unfold holders homes
    rw [List.filter_map, List.map_map]
    simp only [Function.comp_def, entryOf, nameOf_eq_other]
  rw [← hmap]
  exact ((perm_entries r).filter _).map _

lemma IsDir.mem_numbers {x : ℕ} (hx : IsDir r x) : x ∈ numbers r := by
  obtain ⟨q, hq, hn, -⟩ := hx
  exact DirentPass.mem_numbers.mpr ⟨q, hq, hn⟩

/-- The entries of a consistent file system are those of a tree. -/
lemma Consistent.rooted (hc : Consistent r sb g h) :
    Rooted 2 (IsDir r) ((sortedDirents r).map entryOf) := by
  have hmem : ∀ e ∈ sortedDirents r, e ∈ r.dirents := fun e he =>
    (perm_sortedDirents r).mem_iff.mp he
  constructor
  · rw [List.forall_mem_map]
    exact fun e he => hc.entry_dir e (hmem e he)
  · rw [List.forall_mem_map]
    intro e he
    exact Nat.one_le_iff_ne_zero.mp (hc.inode_number _ (hc.entry_inode e (hmem e he))).1
  · exact fun x hx => Nat.one_le_iff_ne_zero.mp (hc.inode_number x hx.mem_numbers).1
  · rw [List.forall_mem_map]
    intro e he hname
    have hin : e.inode ∈ named r ".".toList e.dir := by
      refine List.mem_map.mpr ⟨e, List.mem_filter.mpr ⟨hmem e he, ?_⟩, rfl⟩
      simpa using nameOf_eq_self.mp hname
    rw [hc.self e.dir (hc.entry_dir e (hmem e he)), List.mem_singleton] at hin
    exact hin
  · exact List.perm_singleton.mp (hc.root_up.1 ▸ ups_entries r 2)
  · exact List.perm_nil.mp (hc.root_up.2 ▸ holders_entries r 2)
  · intro x hx hroot
    obtain ⟨p, hup, hname⟩ := hc.up x hx hroot
    exact ⟨p, List.perm_singleton.mp (hup ▸ ups_entries r x),
      List.perm_singleton.mp (hname ▸ holders_entries r x)⟩

lemma sorted_entries (r : Report) : Sorted decimal ((sortedDirents r).map entryOf) :=
  List.pairwise_map.mpr (sorted_sortedDirents r)

/-! ### The passes on a consistent report -/

lemma Consistent.header_eq (hc : Consistent r sb g h) :
    h.blocks = sb.blocks ∧ h.inodes = sb.inodes ∧ h.reservedInodes = sb.firstInode - 1 := by
  obtain ⟨size, -, rfl⟩ := Option.map_eq_some_iff.mp hc.header
  exact ⟨rfl, rfl, rfl⟩

lemma Consistent.referable (hc : Consistent r sb g h) : Referable h r.bfrees (allReferences r) := by
  have hinside : ∀ b ∈ allReferences r, h.reservedBlocks < b ∧ (b : ℤ) < h.blocks := by
    intro b hb
    rw [hc.header_eq.1]
    exact_mod_cast hc.reference_inside b hb
  have honce : ∀ b ∈ allReferences r,
      r.bfrees.count b + (allReferences r).count b = 1 := fun b hb =>
    hc.block_once b (hc.reference_inside b hb).1 (hc.reference_inside b hb).2
  refine ⟨?_, hinside, ?_⟩
  · rw [List.nodup_iff_count_le_one]
    intro b
    by_cases hb : b ∈ allReferences r
    · have := honce b hb
      omega
    · rw [List.count_eq_zero_of_not_mem hb]
      omega
  · intro b hb hfree
    have h1 := List.count_pos_iff.mpr hb
    have h2 := List.count_pos_iff.mpr hfree
    have := honce b hb
    omega

/-- The passes before the directory entries are silent, and leave what has been read. -/
lemma Consistent.before_dirents (hc : Consistent r sb g h) :
    ∃ s₁ s₂ s₃ s₄, r.bfrees.foldlM bfreeRecord (start sb) = some s₁ ∧
      r.ifrees.foldlM ifreeRecord s₁ = some s₂ ∧ r.inodes.foldlM (inodeRecord h) s₂ = some s₃ ∧
      s₃.setParent 2 2 = some s₄ ∧
      Blocks sb.blocks r.bfrees (r.inodes.flatMap references) s₃.blockHash ∧
      Inodes sb.inodes r.ifrees r.inodes s₃.inodeHash ∧
      Tracks r s₃ (fun _ => 0) (initial 2) s₄ ∧ s₄.errList = [] := by
  obtain ⟨s₁, s₂, hs₁, hs₂, hb₂, hi₂, herr₂⟩ := freeLists_spec sb r.bfrees r.ifrees
  have hfree : ∀ q ∈ r.inodes, q.number ∉ r.ifrees := fun q hq =>
    (hc.inode_number _ (DirentPass.mem_numbers.mpr ⟨q, hq, rfl⟩)).2.2
  obtain ⟨s₃, hs₃, hb₃, hi₃, herr₃⟩ :=
    inodeRecords_spec hb₂ hi₂ hc.referable.left hfree hc.inode_nodup
  have htracks : Tracks r s₃ (fun _ => 0) (fun _ => 0) s₃ :=
    ⟨fun q hq => hi₃.scanned q hq, fun _ _ => rfl, rfl⟩
  obtain ⟨q, hq, hn, -⟩ := hc.root
  obtain ⟨s₄, hs₄, htracks₄, herr₄⟩ := htracks.setParent hq 2
  rw [hn] at hs₄ htracks₄
  exact ⟨s₁, s₂, s₃, s₄, hs₁, hs₂, hs₃, hs₄, hb₃, hi₃, htracks₄, by rw [herr₄, herr₃, herr₂]⟩

/-- The passes behind the directory entries are silent if those are. -/
lemma Consistent.after_dirents (hc : Consistent r sb g h) {s₃ s₅ : St} {t : ℕ → ℕ}
    (hb : Blocks sb.blocks r.bfrees (r.inodes.flatMap references) s₃.blockHash)
    (hi : Inodes sb.inodes r.ifrees r.inodes s₃.inodeHash)
    (ht : Tracks r s₃ (countLinks (fun _ => 0) (sortedDirents r)) t s₅) :
    ∃ s₆, r.indirects.foldlM (indirectRecord h) s₅ = some s₆ ∧
      (finalReports h s₆).errList = s₅.errList := by
  obtain ⟨s₆, hs₆, hb₆, hinodes, herr⟩ :=
    indirectRecords_spec (ht.blocks ▸ hb) hc.referable
  refine ⟨s₆, hs₆, ?_⟩
  suffices hfinal : finalReports h s₆ = s₆ by rw [hfinal, herr]
  obtain ⟨hblocks, hcount, hreserved⟩ := hc.header_eq
  have hrest : ∀ n : ℕ, n ∉ numbers r → get s₅.inodeHash n = some .free ∨
      n ∉ r.ifrees ∧ get s₅.inodeHash n = if n ≤ sb.inodes then some .unreferenced else none := by
    intro n hn
    rw [ht.rest n hn]
    by_cases hfree : n ∈ r.ifrees
    · exact Or.inl (hi.free n hfree hn)
    · exact Or.inr ⟨hfree, hi.other n hfree hn⟩
  apply finalReports_silent
  · intro b habove hcell
    by_cases href : b ∈ allReferences r
    · obtain ⟨x, hx⟩ := hb₆.scanned b href
      rw [hx] at hcell
      cases hcell
    by_cases hfree : b ∈ r.bfrees
    · rw [hb₆.free b hfree href] at hcell
      cases hcell
    rw [hb₆.other b hfree href] at hcell
    split at hcell
    · next hlt =>
      have := hc.block_once b habove hlt
      rw [List.count_eq_zero_of_not_mem href, List.count_eq_zero_of_not_mem hfree] at this
      omega
    · cases hcell
  · intro n habove hcell
    rw [hinodes] at hcell
    by_cases hn : n ∈ numbers r
    · obtain ⟨q, hq, rfl⟩ := DirentPass.mem_numbers.mp hn
      rw [ht.entry q hq] at hcell
      cases hcell
    rcases hrest n hn with hfree | ⟨hfree, hother⟩
    · rw [hfree] at hcell
      cases hcell
    rw [hother] at hcell
    split at hcell
    · next hle =>
      have := hc.inode_once n (by omega) hle
      rw [List.count_eq_zero_of_not_mem hn, List.count_eq_zero_of_not_mem hfree] at this
      omega
    · cases hcell
  · intro n e hcell
    rw [hinodes] at hcell
    by_cases hn : n ∈ numbers r
    · obtain ⟨q, hq, rfl⟩ := DirentPass.mem_numbers.mp hn
      rw [ht.entry q hq] at hcell
      obtain rfl := InodeCell.scanned.inj (Option.some.inj hcell)
      have hperm := (perm_sortedDirents r).map DirentRecord.inode
      unfold countLinks
      dsimp only
      rw [zero_add, hperm.count_eq, hc.links q hq]
    rcases hrest n hn with hfree | ⟨-, hother⟩
    · rw [hfree] at hcell
      cases hcell
    · rw [hother] at hcell
      split at hcell <;> cases hcell

/-! ### The whole run -/

lemma lab3b_eq_silent {contents : Text} :
    lab3b contents = ⟨[], 0⟩ ↔ analysis contents = some [] := by
  unfold lab3b
  cases analysis contents with
  | none => simp
  | some errList =>
    cases errList with
    | nil => simp
    | cons msg msgs => simp

/-- **When a consistent file system is passed in silence.** The analyser prints nothing and
exits with status 0 on the report of a consistent file system if and only if the report is
orderly. -/
theorem lab3b_silent_iff (hc : Consistent r sb g h) :
    lab3b r.text = ⟨[], 0⟩ ↔ OrderlyReport r := by
  obtain ⟨s₁, s₂, s₃, s₄, hs₁, hs₂, hs₃, hs₄, hb, hi, ht, herr⟩ := hc.before_dirents
  have hcount : ∀ n ∈ numbers r, (n : ℤ) ≤ h.inodes := fun n hn => by
    rw [hc.header_eq.2.1]
    exact_mod_cast (hc.inode_number n hn).2.1
  have hes : ∀ e ∈ sortedDirents r, e.dir ∈ numbers r ∧ e.inode ∈ numbers r := fun e he => by
    have he' := (perm_sortedDirents r).mem_iff.mp he
    exact ⟨(hc.entry_dir e he').mem_numbers, hc.entry_inode e he'⟩
  rw [orderlyReport_iff, ← learned_iff_orderly hc.rooted (sorted_entries r), lab3b_eq_silent,
    analysis_text hc.superblock hc.group]
  unfold recordAnalysis
  simp only [hc.header, hs₁, hs₂, hs₃, hs₄, Option.bind_eq_bind, Option.bind_some]
  cases hlearn : ((sortedDirents r).map entryOf).foldlM learn (initial 2) with
  | none =>
    refine iff_of_false (fun hrun => ?_) (by simp)
    obtain ⟨s₅, hs₅, hrun⟩ := Option.bind_eq_some_iff.mp hrun
    obtain ⟨s₆, hs₆, hrun⟩ := Option.bind_eq_some_iff.mp hrun
    have hnoisy := direntRecords_noisy ht hcount hes hlearn hs₅
    have hnoisy' := Folds.foldlM_keeps (fun _ _ _ _ => noisy_indirectRecord) hs₆ hnoisy
    exact noisy_finalReports hnoisy' (Option.some.inj hrun)
  | some t =>
    refine iff_of_true ?_ rfl
    obtain ⟨s₅, hs₅, ht₅, herr₅⟩ := direntRecords_silent ht hcount hes hlearn
    obtain ⟨s₆, hs₆, herr₆⟩ := hc.after_dirents hb hi ht₅
    simp only [hs₅, hs₆, Option.bind_some]
    rw [herr₆, herr₅, herr]

/-! ### A file system with two directories -/

/-- A directory that fits in one block. -/
def directoryRecord (number links block : ℕ) : InodeRecord where
  number := number
  type := .directory
  mode := 493
  uid := 0
  gid := 0
  linkCount := links
  ctime := "08/10/17 23:21:52".toList
  mtime := "08/10/17 23:21:52".toList
  atime := "08/10/17 23:21:52".toList
  size := 1024
  sectors := 2
  iBlock := block :: List.replicate 14 0

lemma plain_directoryRecord (number links block : ℕ) :
    (directoryRecord number links block).Plain := by
  have htime : PlainText "08/10/17 23:21:52".toList := by decide
  refine ⟨fun time ht => ?_, fun _ => rfl⟩
  rw [List.eq_of_mem_replicate (n := 3) ht]
  exact htime

/-- The root, and in it the directory `n`. -/
def twoDirectories (n : ℕ) : Report where
  records :=
    [.superblock ⟨8, n, 4096, 128, 8192, n, n⟩, .group ⟨0, 8, n, 0, 0, 3, 4, 5⟩,
      .inode (directoryRecord 2 3 6), .dirent ⟨2, 0, 2, 12, 1, ".".toList⟩,
      .dirent ⟨2, 12, 2, 12, 2, "..".toList⟩, .dirent ⟨2, 24, n, 1000, 1, "a".toList⟩,
      .inode (directoryRecord n 2 7), .dirent ⟨n, 0, n, 12, 1, ".".toList⟩,
      .dirent ⟨n, 12, 2, 1012, 2, "..".toList⟩]
  plain := by
    simp only [List.forall_mem_cons, Record.Plain, DirentRecord.Plain, plain_directoryRecord,
      true_and, List.not_mem_nil, false_implies, implies_true, and_true]
    decide

lemma isDir_twoDirectories {n x : ℕ} : IsDir (twoDirectories n) x ↔ x = 2 ∨ x = n := by
  have hinodes : (twoDirectories n).inodes = [directoryRecord 2 3 6, directoryRecord n 2 7] := rfl
  unfold IsDir
  rw [hinodes]
  simp [directoryRecord, eq_comm]

lemma header_twoDirectories {n : ℕ} (h1 : 1 ≤ n) (h2 : n ≤ 32) :
    header ⟨8, n, 4096, 128, 8192, n, n⟩ ⟨0, 8, n, 0, 0, 3, 4, 5⟩ = some ⟨8, n, 5, n - 1⟩ := by
  have hceil : ⌈((n * 128 : ℕ) / (4096 : ℕ) : ℚ)⌉ = 1 := by
    have h1' : (1 : ℚ) ≤ n := by exact_mod_cast h1
    have h2' : (n : ℚ) ≤ 32 := by exact_mod_cast h2
    rw [Int.ceil_eq_iff]
    push_cast
    constructor <;> linarith
  have hdiv := RubyFloat.fdivCeil_natCast (x := n * 128) (y := 4096) (by omega) (by omega)
    (by omega)
  rw [hceil] at hdiv
  unfold header
  push_cast at hdiv ⊢
  rw [hdiv]
  rfl

lemma consistent_twoDirectories {n : ℕ} (h1 : 3 ≤ n) (h2 : n ≤ 32) :
    Consistent (twoDirectories n) ⟨8, n, 4096, 128, 8192, n, n⟩ ⟨0, 8, n, 0, 0, 3, 4, 5⟩
      ⟨8, n, 5, n - 1⟩ := by
  have hrefs : allReferences (twoDirectories n) = [6, 7] := rfl
  have hbfrees : (twoDirectories n).bfrees = [] := rfl
  have hnumbers : numbers (twoDirectories n) = [2, n] := rfl
  have hifrees : (twoDirectories n).ifrees = [] := rfl
  have hdirents : (twoDirectories n).dirents =
      [⟨2, 0, 2, 12, 1, ".".toList⟩, ⟨2, 12, 2, 12, 2, "..".toList⟩,
        ⟨2, 24, n, 1000, 1, "a".toList⟩, ⟨n, 0, n, 12, 1, ".".toList⟩,
        ⟨n, 12, 2, 1012, 2, "..".toList⟩] := rfl
  have hne : n ≠ 2 := by omega
  constructor
  case superblock => rfl
  case group => rfl
  case header => exact header_twoDirectories (by omega) h2
  case block_once =>
    intro b hb hb'
    dsimp only at hb hb'
    have : b = 6 ∨ b = 7 := by omega
    rw [hrefs, hbfrees]
    rcases this with rfl | rfl <;> rfl
  case reference_inside =>
    rw [hrefs]
    simp
  case inode_once =>
    intro m hm hm'
    obtain rfl : m = n := le_antisymm hm' hm
    rw [hifrees, hnumbers]
    simp [hne, Ne.symm hne]
  case inode_number =>
    rw [hnumbers, hifrees]
    simp
    omega
  case inode_nodup =>
    rw [hnumbers]
    simp [Ne.symm hne]
  case root => exact isDir_twoDirectories.mpr (Or.inl rfl)
  case entry_inode =>
    rw [hdirents, hnumbers]
    simp
  case entry_dir =>
    rw [hdirents]
    simp [isDir_twoDirectories]
  case links =>
    have hinodes : (twoDirectories n).inodes = [directoryRecord 2 3 6, directoryRecord n 2 7] := rfl
    rw [hinodes, hdirents]
    simp [directoryRecord, List.count_cons, hne, Ne.symm hne]
  case self =>
    intro x hx
    unfold named
    rw [hdirents]
    rcases isDir_twoDirectories.mp hx with rfl | rfl
    · simp [hne]
    · simp [Ne.symm hne]
  case root_up =>
    unfold named homes
    rw [hdirents]
    simp [hne]
  case up =>
    intro x hx hroot
    obtain rfl := (isDir_twoDirectories.mp hx).resolve_left hroot
    refine ⟨2, ?_, ?_⟩
    · unfold named
      rw [hdirents]
      simp [Ne.symm hne]
    · unfold homes
      rw [hdirents]
      simp [Ne.symm hne]

theorem lab3b_silent_iff_sample : lab3b (twoDirectories 12).text = ⟨[], 0⟩ := by
  have hc := consistent_twoDirectories (n := 12) (by omega) (by omega)
  exact (lab3b_silent_iff hc).mpr ⟨by decide, by decide⟩

/-- The number of the directory sorts behind that of the root, so that its `..` is compared
with the parent of the root. -/
theorem late_directory_reported :
    Consistent (twoDirectories 20) ⟨8, 20, 4096, 128, 8192, 20, 20⟩ ⟨0, 8, 20, 0, 0, 3, 4, 5⟩
        ⟨8, 20, 5, 19⟩ ∧
      lab3b (twoDirectories 20).text =
        ⟨["DIRECTORY INODE 2 NAME '..' LINK TO INODE 2 SHOULD BE 20".toList], 2⟩ :=
  ⟨consistent_twoDirectories (by omega) (by omega), by decide +kernel⟩

end LowLevelTasks.ConsistentReport
