import LowLevelTasks.InodeReports

/-!
The links of the inodes. Each entry that names an inode with a line counts one link of it, and
at the end the count is compared with the one in the line. Nothing that the pass over the
entries does besides gets in its way as long as the directories have lines.
-/

namespace LowLevelTasks.LinkCounts

open LowLevelTasks.BlockReports LowLevelTasks.Folds LowLevelTasks.InodeCells
open LowLevelTasks.InodeReports LowLevelTasks.Lab3b LowLevelTasks.LineRuns
open LowLevelTasks.Passes LowLevelTasks.Reports

/-- The root directory and the directories of all entries have a line, and no inode has two. -/
structure Listed (r : LineReport) : Prop where
  root : 2 ∈ r.numbers
  dir : ∀ e ∈ r.dirents, e.dir ∈ r.numbers
  nodup : r.numbers.Nodup

/-- How many entries name an inode. -/
def entriesTo (r : LineReport) (n : ℕ) : ℕ := (r.dirents.filter (·.inode = n)).length

/-- No indirect reference with which something is wrong has a level that has no name. -/
def NamedLevels (r : LineReport) (h : Header) : Prop :=
  ¬ Somewhere (fun u x => Unnamed h (r.slots ++ u) x) r.pointers

/-- The inode has a line with `linkCount`, and it is named by `links` entries, not as many. -/
structure WrongCount (r : LineReport) (n links linkCount : ℕ) : Prop where
  line : ∃ q ∈ r.inodes, q.number = n ∧ q.linkCount = linkCount
  named : links = entriesTo r n
  wrong : links ≠ linkCount

/-- The links of all inodes inside the count are reported as they are. -/
def LinksExact (r : LineReport) (h : Header) : Prop :=
  ∀ n links linkCount : ℕ, n ≤ h.inodes →
    (Err.link n links linkCount ∈ printed r ↔ WrongCount r n links linkCount)

variable {r : LineReport} {h : Header} {n links linkCount inodes : ℕ}

lemma linksOf_eq (hn : n ≤ inodes) : linksOf inodes r.dirents n = entriesTo r n := by
  unfold linksOf entriesTo
  congr 1
  refine List.filter_congr fun e _ => ?_
  by_cases he : e.inode = n <;> simp [he, hn]

lemma Listed.miscounted (hl : Listed r) (hn : n ≤ inodes) :
    (∃ q, Miscounted r inodes n q ∧ links = linksOf inodes r.dirents n ∧
      linkCount = q.linkCount) ↔ WrongCount r n links linkCount := by
  rw [linksOf_eq hn]
  constructor
  · rintro ⟨q, ⟨hline, hne⟩, rfl, rfl⟩
    obtain ⟨hq, hnumber⟩ := mem_of_lineOf hline
    exact ⟨⟨q, hq, hnumber, rfl⟩, rfl, linksOf_eq hn ▸ hne⟩
  · rintro ⟨⟨q, hq, hnumber, rfl⟩, rfl, hne⟩
    obtain ⟨q', hline⟩ := exists_lineOf (List.mem_map.mpr ⟨q, hq, hnumber⟩)
    obtain ⟨hq', hnumber'⟩ := mem_of_lineOf hline
    obtain rfl : q' = q :=
      List.inj_on_of_nodup_map hl.nodup hq' hq (hnumber'.trans hnumber.symm)
    exact ⟨q', ⟨hline, (linksOf_eq hn).symm ▸ hne⟩, rfl, rfl⟩

lemma Listed.completes_iff (hl : Listed r) : Completes r h ↔ NamedLevels r h :=
  ⟨fun hc => hc.levels,
    fun hlevels => ⟨hl.root, fun ⟨e, he, hstray⟩ => hstray.dir (hl.dir e he), hlevels⟩⟩

/-- **The pass over the entries** comes to its end. -/
lemma Listed.entriesRead (hl : Listed r) (hh : r.header? = some h) :
    ∃ s, entriesRead r.text = some (h, s) := by
  obtain ⟨blocks, inodes, s₁, -, hrun, hread, -⟩ := inodePasses_spec hh
  obtain ⟨s₂, hs₂, hn₂, -, -⟩ := hread.numbered.setParent hl.root 2
  have hs₂' : s₁.setParent 2 2 = some s₂ := hs₂
  obtain ⟨-, hsome⟩ := direntReads_spec (r := r) hn₂ hread.inodes_eq
  obtain ⟨s₃, hs₃, -⟩ := hsome fun ⟨e, he, hstray⟩ => hstray.dir (hl.dir e he)
  refine ⟨s₃, ?_⟩
  rw [hrun]
  unfold entriesFrom
  simp only [hs₂', hs₃, Option.bind_eq_bind, Option.bind_some]

/-- The root directory, which names itself twice but has three links, and an indirect reference to
a block that does not exist. -/
def deepReport (level : ℕ) : LineReport where
  records :=
    [.superblock ⟨8, 11, 4096, 128, 8192, 11, 12⟩, .group ⟨0, 8, 11, 0, 0, 3, 4, 5⟩,
      .inode (ConsistentReport.directoryRecord 2 3 6), .dirent ⟨2, 0, 2, 12, 1, ".".toList⟩,
      .dirent ⟨2, 12, 2, 1012, 2, "..".toList⟩, .indirect ⟨2, level, 12, 6, 200⟩]
  readable := by
    simp [Readable, ConsistentReport.plain_directoryRecord]

variable {level : ℕ}

lemma header_deepReport : (deepReport level).header? = some rootHeader :=
  @header_rootReport (List.replicate 15 0) rfl [] []

lemma listed_deepReport : Listed (deepReport level) where
  root := List.mem_singleton.mpr rfl
  dir := by
    change ∀ e ∈ [_, _], _
    simp only [List.forall_mem_cons]
    exact ⟨List.mem_singleton.mpr rfl, List.mem_singleton.mpr rfl,
      fun e he => absurd he List.not_mem_nil⟩
  nodup := List.nodup_singleton 2

lemma wrongCount_deepReport : WrongCount (deepReport level) 2 2 3 where
  line := ⟨_, List.mem_singleton.mpr rfl, rfl, rfl⟩
  named := rfl
  wrong := by decide

end LowLevelTasks.LinkCounts
