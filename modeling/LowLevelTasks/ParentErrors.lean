import LowLevelTasks.ParentMessages

/-!
When the messages about the parents of directories are exact, in a report in which each directory
has one parent.
-/

namespace LowLevelTasks.ParentErrors

open LowLevelTasks.BlockReports LowLevelTasks.DirentPass LowLevelTasks.Folds
open LowLevelTasks.InodeCells LowLevelTasks.Lab3b LowLevelTasks.LineRuns LowLevelTasks.Messages
open LowLevelTasks.ParentMessages LowLevelTasks.ParentReports LowLevelTasks.ParentTable
open LowLevelTasks.Passes LowLevelTasks.Reports

variable {r : LineReport} {h : Header}

/-- The entries that name allocated inodes, in the order of their lines. -/
def live (r : LineReport) (h : Header) : List Entry :=
  ((sortLines r.dirents).filter (Live r h)).map entryOf

/-- A report in which each directory has one parent: the root directory and all directories that
have entries have an inode line, names have no comma and no quote, and each directory below the
root is named by one ordinary entry. -/
structure Tree (r : LineReport) : Prop where
  root : 2 ∈ r.numbers
  dir : ∀ e ∈ r.dirents, e.dir ∈ r.numbers
  plain : ∀ e ∈ r.dirents, e.Plain
  home : ∀ e ∈ r.dirents, e.dir ≠ 2 → ∃ p, holders (r.dirents.map entryOf) e.dir = [p]

/-- Names without commas and quotes are read as they are. -/
lemma Tree.readLive_eq (ht : Tree r) : readLive r h (sortLines r.dirents) = live r h :=
  List.map_congr_left fun e he => by
    have hmem : e ∈ r.dirents := mem_sortLines.mp (List.mem_of_mem_filter he)
    unfold readEntry entryOf
    rw [nameRead_of_plain (ht.plain e hmem)]

lemma parentSays_conflictText {t : ℕ → ℕ} {e : Entry} {c : Conflict} :
    ParentSays t e (conflictText c) ↔ conflict t e = some c := by
  unfold ParentSays
  constructor
  · rintro (⟨-, -, heq⟩ | ⟨c', hc', heq⟩)
    · exact absurd heq.symm self_ne_parent
    · rwa [conflictText_injective heq]
  · exact fun hc => Or.inr ⟨c, hc, rfl⟩

/-- **The messages about parents.** -/
theorem mem_printed_conflictText (hh : r.header? = some h) (ht : Tree r) (c : Conflict) :
    conflictText c ∈ printed r ↔ Completes r h ∧ Emitted 2 (live r h) c := by
  have hparents : OfParents (conflictText c) := ⟨_, _, _, _, rfl⟩
  rw [mem_printed_parents hh hparents, ht.readLive_eq]
  unfold ParentsSay Emitted
  simp only [parentSays_conflictText]

/-! ### Exact messages -/

/-- The directory of the one ordinary entry; the root is its own parent. -/
def parentOf (r : LineReport) (d : ℕ) : ℕ :=
  if d = 2 then 2 else (holders (r.dirents.map entryOf) d).headD 0

/-- There is a `..` of `d` that names the allocated inode `x`, and the parent of `d` is `y` and
not `x`. -/
structure WrongUp (r : LineReport) (h : Header) (d x y : ℕ) : Prop where
  up : ∃ e ∈ r.dirents, e.name = "..".toList ∧ e.dir = d ∧ e.inode = x
  allocated : x ∈ r.numbers ∧ x ≤ h.inodes
  wrong : x ≠ parentOf r d
  right : y = parentOf r d

def ParentsExact (r : LineReport) (h : Header) : Prop :=
  ∀ d x y : ℕ, Err.parent "parent".toList d x y ∈ printed r ↔ WrongUp r h d x y

def HasEntries (r : LineReport) (d : ℕ) : Prop := ∃ e ∈ r.dirents, e.dir = d

instance {d : ℕ} : Decidable (HasEntries r d) := inferInstanceAs (Decidable (∃ e ∈ _, _))

lemma mem_live {e : Entry} :
    e ∈ live r h ↔ ∃ e' ∈ r.dirents, Live r h e' ∧ entryOf e' = e := by
  unfold live
  simp only [List.mem_map, List.mem_filter, mem_sortLines, decide_eq_true_eq, and_assoc]

lemma due_iff {d x y : ℕ} : Due (parentOf r) (live r h) ⟨d, x, y⟩ ↔ WrongUp r h d x y := by
  have hup : ⟨d, x, .up⟩ ∈ live r h ↔
      (∃ e ∈ r.dirents, e.name = "..".toList ∧ e.dir = d ∧ e.inode = x) ∧
        x ∈ r.numbers ∧ (x : ℤ) ≤ h.inodes := by
    rw [mem_live]
    constructor
    · rintro ⟨e, he, hlive, hentry⟩
      obtain ⟨rfl, rfl, hname⟩ := Entry.mk.inj hentry
      exact ⟨⟨e, he, nameOf_eq_up.mp hname, rfl, rfl⟩, hlive⟩
    · rintro ⟨⟨e, he, hname, rfl, rfl⟩, hlive⟩
      exact ⟨e, he, hlive, by rw [entryOf, nameOf_eq_up.mpr hname]⟩
  constructor
  · rintro ⟨hmem, hwrong, hright⟩
    exact ⟨(hup.mp hmem).1, (hup.mp hmem).2, hwrong, hright⟩
  · rintro ⟨hmem, hlive, hwrong, hright⟩
    exact ⟨hup.mpr ⟨hmem, hlive⟩, hwrong, hright⟩

/-- The entries of the report that name allocated inodes are those of the tree. -/
lemma Tree.homed (ht : Tree r) : Homed 2 (HasEntries r) (parentOf r) (live r h) := by
  have hsub : ∀ x, (holders (live r h) x).Subperm (holders (r.dirents.map entryOf) x) := fun x => by
    have hperm : ((sortLines r.dirents).map entryOf).Perm (r.dirents.map entryOf) :=
      (perm_sortLines _).map entryOf
    have hfilter : (live r h).Subperm (r.dirents.map entryOf) :=
      (List.filter_sublist.map entryOf).subperm.trans hperm.subperm
    obtain ⟨l, hl, hsub⟩ := hfilter.filter fun e => e.name = .other ∧ e.inode = x
    exact ⟨l.map Entry.dir, hl.map _, hsub.map _⟩
  have hone : ∀ x, HasEntries r x → x ≠ 2 →
      holders (r.dirents.map entryOf) x = [parentOf r x] := by
    rintro x ⟨e, he, rfl⟩ hroot
    obtain ⟨p, hp⟩ := ht.home e he hroot
    unfold parentOf
    rw [if_neg hroot, hp, List.headD_cons]
  constructor
  · exact if_pos rfl
  · intro e he
    obtain ⟨e', he', -, rfl⟩ := mem_live.mp he
    exact ⟨e', he', rfl⟩
  · intro x hx hroot
    have hlength := (hsub x).length_le
    rwa [hone x hx hroot] at hlength
  · intro x hx hroot p hp
    have hmem := (hsub x).subset hp
    rwa [hone x hx hroot, List.mem_singleton] at hmem

/-- **Exactly when the messages are exact**: what is known before each entry is a table of parents,
which holds what was said last as long as no `..` changes what is known of the directory it
names. -/
theorem parentsExact_iff (hh : r.header? = some h) (ht : Tree r) :
    (ParentsExact r h ↔
      (Completes r h → Coherent 2 (parentOf r) (live r h)) ∧
      (¬ Completes r h → ∀ d x y, ¬ WrongUp r h d x y)) ∧
    (Agrees 2 (live r h) → (Coherent 2 (parentOf r) (live r h) ↔
      Regular 2 (HasEntries r) (parentOf r) (live r h))) := by
  refine ⟨?_, coherent_iff_regular ht.homed⟩
  have hprinted : ∀ d x y : ℕ, Err.parent "parent".toList d x y ∈ printed r ↔
      Completes r h ∧ Emitted 2 (live r h) ⟨d, x, y⟩ := fun d x y =>
    mem_printed_conflictText hh ht ⟨d, x, y⟩
  unfold ParentsExact
  simp only [hprinted, ← due_iff]
  by_cases hc : Completes r h
  · simp only [hc, true_and, not_true_eq_false, false_implies, and_true, true_implies]
    rw [← exact_iff]
    exact ⟨fun hall c => hall c.place c.named c.parent, fun hexact d x y => hexact ⟨d, x, y⟩⟩
  · simp only [hc, false_and, false_iff, false_implies, not_false_eq_true, true_implies, true_and]

/-- The root, and in it the directory `n`, the `..` of which names `up`. -/
def directoryIn (n up : ℕ) : LineReport where
  records :=
    [.superblock ⟨8, n, 4096, 128, 8192, n, n⟩, .group ⟨0, 8, n, 0, 0, 3, 4, 5⟩,
      .inode (ConsistentReport.directoryRecord 2 3 6), .dirent ⟨2, 0, 2, 12, 1, ".".toList⟩,
      .dirent ⟨2, 12, 2, 12, 2, "..".toList⟩, .dirent ⟨2, 24, n, 1000, 1, "a".toList⟩,
      .inode (ConsistentReport.directoryRecord n 2 7), .dirent ⟨n, 0, n, 12, 1, ".".toList⟩,
      .dirent ⟨n, 12, up, 1012, 2, "..".toList⟩]
  readable := by
    simp only [List.forall_mem_cons, Readable, ConsistentReport.plain_directoryRecord, true_and,
      List.not_mem_nil, false_implies, implies_true, and_true]
    decide

lemma header_directoryIn {n up : ℕ} (h1 : 1 ≤ n) (h2 : n ≤ 32) :
    (directoryIn n up).header? = some ⟨8, n, 5, n - 1⟩ :=
  ConsistentReport.header_twoDirectories h1 h2

lemma tree_directoryIn {n up : ℕ} : Tree (directoryIn n up) := by
  have hdirents : (directoryIn n up).dirents =
      [⟨2, 0, 2, 12, 1, ".".toList⟩, ⟨2, 12, 2, 12, 2, "..".toList⟩,
        ⟨2, 24, n, 1000, 1, "a".toList⟩, ⟨n, 0, n, 12, 1, ".".toList⟩,
        ⟨n, 12, up, 1012, 2, "..".toList⟩] := rfl
  have hnumbers : (directoryIn n up).numbers = [2, n] := rfl
  constructor
  · rw [hnumbers]
    exact List.mem_cons_self
  · rw [hdirents, hnumbers]
    simp
  · rw [hdirents]
    simp only [List.forall_mem_cons, DirentRecord.Plain, List.not_mem_nil, false_implies,
      implies_true, and_true]
    decide
  · intro e he hroot
    have hdir : e.dir = n := by
      rw [hdirents] at he
      simp only [List.mem_cons, List.not_mem_nil, or_false] at he
      rcases he with rfl | rfl | rfl | rfl | rfl
      · exact absurd rfl hroot
      · exact absurd rfl hroot
      · exact absurd rfl hroot
      · rfl
      · rfl
    refine ⟨2, ?_⟩
    rw [hdir, hdirents]
    simp [holders, entryOf, nameOf]

theorem parentsExact_iff_sample : ParentsExact (directoryIn 12 12) ⟨8, 12, 5, 11⟩ := by
  have hlive : live (directoryIn 12 12) ⟨8, 12, 5, 11⟩ =
      [⟨12, 12, .self⟩, ⟨12, 12, .up⟩, ⟨2, 2, .self⟩, ⟨2, 2, .up⟩, ⟨2, 12, .other⟩] := by
    decide +kernel
  have hparent : parentOf (directoryIn 12 12) 12 = 2 := by decide
  have hagrees : Agrees 2 (live (directoryIn 12 12) ⟨8, 12, 5, 11⟩) := by
    rw [hlive]
    unfold Agrees
    rw [forall_splits]
    decide
  have hcompletes : Completes (directoryIn 12 12) ⟨8, 12, 5, 11⟩ := by
    refine ⟨by decide, ?_, somewhere_nil⟩
    rintro ⟨e, he, hstray⟩
    exact hstray.dir (tree_directoryIn.dir e he)
  have hheader : (directoryIn 12 12).header? = some ⟨8, 12, 5, 11⟩ :=
    header_directoryIn (by decide) (by decide)
  obtain ⟨hexact, htold⟩ := parentsExact_iff hheader tree_directoryIn
  refine hexact.mpr ⟨fun _ => (htold hagrees).mpr ?_, fun hc => absurd hcompletes hc⟩
  rw [hlive]
  constructor
  · rw [forall_splits]
    decide
  · rw [forall_splits]
    decide
  · intro e he hname hwrong
    refine ⟨[⟨12, 12, .self⟩, ⟨12, 12, .up⟩, ⟨2, 2, .self⟩, ⟨2, 2, .up⟩], _, [], rfl, Or.inr ?_⟩
    obtain rfl : e = ⟨12, 12, .up⟩ := by
      revert hwrong hname e
      decide
    exact ⟨by rw [hparent], by decide, by decide⟩

/-- The name of the directory comes first, so that its `..` is taken for an ordinary entry. -/
theorem directoryIn_misreported :
    (directoryIn 20 2).header? = some ⟨8, 20, 5, 19⟩ ∧ Tree (directoryIn 20 2) ∧
      printed (directoryIn 20 2) =
        ["DIRECTORY INODE 2 NAME '..' LINK TO INODE 2 SHOULD BE 20".toList] ∧
      ¬ ParentsExact (directoryIn 20 2) ⟨8, 20, 5, 19⟩ := by
  have hprinted : printed (directoryIn 20 2) =
      ["DIRECTORY INODE 2 NAME '..' LINK TO INODE 2 SHOULD BE 20".toList] := by decide +kernel
  refine ⟨header_directoryIn (by decide) (by decide), tree_directoryIn, hprinted,
    fun hexact => ?_⟩
  have hwrong := ((hexact 2 2 20).mp (by rw [hprinted]; decide)).wrong
  exact hwrong (by decide)

end LowLevelTasks.ParentErrors
