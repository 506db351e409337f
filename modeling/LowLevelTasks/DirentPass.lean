import LowLevelTasks.ParentTable
import LowLevelTasks.Tables

/-!
The pass over the directory entries. While the entries of the report name scanned inodes only,
the parents in the table of inodes are those of a parent table that learns the entries in the
order of their lines, the links are counted exactly, and the pass stays silent as long as the
parent table does.
-/

namespace LowLevelTasks.DirentPass

open LowLevelTasks.Folds LowLevelTasks.Lab3b LowLevelTasks.ParentTable LowLevelTasks.Passes
open LowLevelTasks.Reports LowLevelTasks.RubyArray LowLevelTasks.RubyText LowLevelTasks.Tables

def nameOf (name : Text) : Name :=
  if name = ".".toList then .self else if name = "..".toList then .up else .other

lemma nameOf_eq_self {name : Text} : nameOf name = .self ↔ name = ".".toList := by
  unfold nameOf
  split_ifs with h1 h2
  · exact iff_of_true rfl h1
  · exact iff_of_false (by decide) h1
  · exact iff_of_false (by decide) h1

lemma nameOf_eq_up {name : Text} : nameOf name = .up ↔ name = "..".toList := by
  unfold nameOf
  split_ifs with h1 h2
  · exact iff_of_false (by decide) (by rw [h1]; decide)
  · exact iff_of_true rfl h2
  · exact iff_of_false (by decide) h2

lemma nameOf_eq_other {name : Text} :
    nameOf name = .other ↔ name ≠ ".".toList ∧ name ≠ "..".toList := by
  unfold nameOf
  split_ifs with h1 h2
  · exact iff_of_false (by decide) fun h => h.1 h1
  · exact iff_of_false (by decide) fun h => h.2 h2
  · exact iff_of_true rfl ⟨h1, h2⟩

def entryOf (e : DirentRecord) : Entry := ⟨e.dir, e.inode, nameOf e.name⟩

def numbers (r : Report) : List ℕ := r.inodes.map InodeRecord.number

/-- The table of inodes holds these links and parents for the scanned inodes, and everything
else is as in `base`. -/
structure Tracks (r : Report) (base : St) (links parents : ℕ → ℕ) (s : St) : Prop where
  entry : ∀ q ∈ r.inodes, get s.inodeHash q.number =
    some (.scanned ⟨q.linkCount, links q.number, parents q.number⟩)
  rest : ∀ n : ℕ, n ∉ numbers r → get s.inodeHash n = get base.inodeHash n
  blocks : s.blockHash = base.blockHash

variable {r : Report} {base s s' : St} {links parents : ℕ → ℕ} {h : Header}

lemma mem_numbers {n : ℕ} : n ∈ numbers r ↔ ∃ q ∈ r.inodes, q.number = n := by
  simp [numbers]

/-! ### Writes to the table of inodes -/

lemma Tracks.update (ht : Tracks r base links parents s) {q : InodeRecord} (hq : q ∈ r.inodes)
    {l p : ℕ} (hget : ∀ m : ℕ, get s'.inodeHash m =
      if m = q.number then some (.scanned ⟨q.linkCount, l, p⟩) else get s.inodeHash m)
    (hblocks : s'.blockHash = s.blockHash) :
    Tracks r base (Function.update links q.number l) (Function.update parents q.number p) s' where
  entry q' hq' := by
    rw [hget]
    by_cases hn : q'.number = q.number
    · have h1 := ht.entry q hq
      have h2 := ht.entry q' hq'
      rw [hn, h1] at h2
      simp only [Option.some.injEq, InodeCell.scanned.injEq, InodeEntry.mk.injEq] at h2
      rw [if_pos hn, hn, Function.update_self, Function.update_self, h2.1]
    · rw [if_neg hn, Function.update_of_ne hn, Function.update_of_ne hn, ht.entry q' hq']
  rest n hn := by
    have hne : n ≠ q.number := fun h => hn (mem_numbers.mpr ⟨q, hq, h.symm⟩)
    rw [hget, if_neg hne, ht.rest n hn]
  blocks := by rw [hblocks, ht.blocks]

lemma Tracks.setParent (ht : Tracks r base links parents s) {q : InodeRecord} (hq : q ∈ r.inodes)
    (p : ℕ) : ∃ s', s.setParent q.number p = some s' ∧
      Tracks r base links (Function.update parents q.number p) s' ∧ s'.errList = s.errList := by
  obtain ⟨s', hs', hget, hblocks, herr⟩ := setParent_spec (ht.entry q hq) p
  refine ⟨s', hs', ?_, herr⟩
  have := ht.update hq hget hblocks
  rwa [Function.update_eq_self] at this

lemma Tracks.addLink (ht : Tracks r base links parents s) {q : InodeRecord} (hq : q ∈ r.inodes) :
    ∃ s', s.putInode q.number
        (.scanned ⟨q.linkCount, links q.number + 1, parents q.number⟩) = some s' ∧
      Tracks r base (Function.update links q.number (links q.number + 1)) parents s' ∧
      s'.errList = s.errList := by
  obtain ⟨s', hs', hget, hblocks, herr⟩ := putInode_spec s q.number
    (.scanned ⟨q.linkCount, links q.number + 1, parents q.number⟩)
  refine ⟨s', hs', ?_, herr⟩
  have := ht.update hq (l := links q.number + 1) (by exact_mod_cast hget) hblocks
  rwa [Function.update_eq_self] at this

lemma Tracks.err (ht : Tracks r base links parents s) (msg : Text) :
    Tracks r base links parents (s.err msg) := ⟨ht.entry, ht.rest, ht.blocks⟩

/-! ### One entry -/

/-- The state after an entry follows the parent table: it is silent where the table is, and
there is something to print where the table reports a conflict. -/
def Follows (r : Report) (base : St) (links : ℕ → ℕ) (s s' : St) : Option (ℕ → ℕ) → Prop
  | some parents => Tracks r base links parents s' ∧ s'.errList = s.errList
  | none => Noisy s'

lemma childEntry_spec (ht : Tracks r base links parents s) {e : Entry}
    (hinode : e.inode ∈ numbers r) :
    ∃ s', childEntry s e.dir e.inode = some s' ∧
      Follows r base links s s' (learnChild parents e) := by
  obtain ⟨q, hq, hn⟩ := mem_numbers.mp hinode
  rw [← hn]
  unfold childEntry learnChild
  rw [entry_eq (ht.entry q hq), ← hn]
  simp only [Option.bind_eq_bind, Option.bind_some, Nat.cast_eq_zero, Nat.cast_inj]
  split
  · obtain ⟨s', hs', htracks, herr⟩ := ht.setParent hq e.dir
    exact ⟨s', hs', htracks, herr⟩
  · obtain ⟨s', hs', htracks, herr⟩ := (ht.err _).setParent hq e.dir
    refine ⟨s', hs', ?_⟩
    unfold Follows Noisy
    rw [herr]
    exact noisy_err _

lemma parentEntry_spec (ht : Tracks r base links parents s) {e : Entry}
    (hdir : e.dir ∈ numbers r) (hinode : e.inode ∈ numbers r) (hne : parents e.dir ≠ e.inode) :
    ∃ s', parentEntry s e.dir e.inode = some s' ∧
      Follows r base links s s'
        (if parents e.dir = 0 then some (Function.update parents e.dir e.inode) else none) := by
  obtain ⟨q, hq, hn⟩ := mem_numbers.mp hdir
  obtain ⟨q', hq', hn'⟩ := mem_numbers.mp hinode
  unfold parentEntry
  rw [← hn, ← hn', entry_eq (ht.entry q hq), entry_eq (ht.entry q' hq')]
  rw [← hn, ← hn'] at hne
  simp only [Option.bind_eq_bind, Option.bind_some, Nat.cast_eq_zero, Nat.cast_inj, hne,
    or_false]
  split
  · obtain ⟨s', hs', htracks, herr⟩ := ht.setParent hq q'.number
    exact ⟨s', hs', htracks, herr⟩
  · obtain ⟨s', hs', htracks, herr⟩ := (ht.err _).setParent hq q'.number
    refine ⟨s', hs', ?_⟩
    unfold Follows Noisy
    rw [herr]
    exact noisy_err _

lemma namedEntry_spec (ht : Tracks r base links parents s) {e : DirentRecord}
    (hdir : e.dir ∈ numbers r) (hinode : e.inode ∈ numbers r) :
    ∃ s', namedEntry s e.dir e.inode e.name = some s' ∧
      Follows r base links s s' (learn parents (entryOf e)) := by
  have hchild := childEntry_spec ht (e := entryOf e) hinode
  unfold namedEntry learn
  by_cases hself : e.name = ".".toList
  · simp only [entryOf, nameOf, hself, if_true, Nat.cast_inj]
    refine ⟨_, rfl, ?_⟩
    split
    · exact ⟨ht, rfl⟩
    · exact noisy_err _
  by_cases hup : e.name = "..".toList
  · obtain ⟨q, hq, hn⟩ := mem_numbers.mp hdir
    have hentry : s.entry e.dir = some ⟨q.linkCount, links e.dir, parents e.dir⟩ :=
      hn ▸ entry_eq (ht.entry q hq)
    simp only [entryOf, nameOf, hup, if_true, hentry, Option.bind_eq_bind, Option.bind_some,
      ne_eq, Nat.cast_inj] at hchild ⊢
    by_cases hagree : e.inode = parents e.dir
    · simp only [hagree, not_true_eq_false, if_false]
      rwa [hagree] at hchild
    · simp only [hagree, not_false_eq_true, if_true]
      exact parentEntry_spec ht (e := entryOf e) hdir hinode (Ne.symm hagree)
  · simp only [entryOf, nameOf, hself, hup, if_false] at hchild ⊢
    exact hchild

/-- The links after a list of entries. -/
def countLinks (links : ℕ → ℕ) (es : List DirentRecord) : ℕ → ℕ :=
  fun n => links n + (es.map DirentRecord.inode).count n

lemma countLinks_cons (e : DirentRecord) (es : List DirentRecord) :
    countLinks links (e :: es) =
      countLinks (Function.update links e.inode (links e.inode + 1)) es := by
  ext n
  unfold countLinks
  rw [List.map_cons, List.count_cons, Function.update_apply]
  by_cases hn : n = e.inode
  · subst hn
    simp
    omega
  · simp [hn, Ne.symm hn]

/-- **One entry** of scanned inodes counts a link and follows the parent table. -/
theorem direntRecord_spec (ht : Tracks r base links parents s)
    (hcount : ∀ n ∈ numbers r, (n : ℤ) ≤ h.inodes) {e : DirentRecord}
    (hdir : e.dir ∈ numbers r) (hinode : e.inode ∈ numbers r) :
    ∃ s', direntRecord h s e = some s' ∧
      Follows r base (Function.update links e.inode (links e.inode + 1)) s s'
        (learn parents (entryOf e)) := by
  obtain ⟨q, hq, hn⟩ := mem_numbers.mp hinode
  have hget := ht.entry q hq
  obtain ⟨s₁, hput, htracks, herr⟩ := ht.addLink hq
  rw [hn] at hget hput htracks
  obtain ⟨s', hrun, hfollows⟩ := namedEntry_spec htracks hdir hinode
  refine ⟨s', ?_, ?_⟩
  · unfold direntRecord dirent
    rw [hget]
    dsimp only
    rw [if_neg (hcount _ hinode).not_gt, hput]
    exact hrun
  · unfold Follows at hfollows ⊢
    rwa [herr] at hfollows

variable {es : List DirentRecord}

/-- Entries that the parent table learns in silence. -/
theorem direntRecords_silent (ht : Tracks r base links parents s)
    (hcount : ∀ n ∈ numbers r, (n : ℤ) ≤ h.inodes)
    (hes : ∀ e ∈ es, e.dir ∈ numbers r ∧ e.inode ∈ numbers r) {parents' : ℕ → ℕ}
    (hlearn : (es.map entryOf).foldlM learn parents = some parents') :
    ∃ s', es.foldlM (direntRecord h) s = some s' ∧
      Tracks r base (countLinks links es) parents' s' ∧ s'.errList = s.errList := by
  induction es generalizing s links parents with
  | nil => exact ⟨s, rfl, Option.some.inj hlearn ▸ ht, rfl⟩
  | cons e es ih =>
    rw [List.forall_mem_cons] at hes
    obtain ⟨s₁, hs₁, hfollows⟩ := direntRecord_spec ht hcount hes.1.1 hes.1.2
    rw [List.map_cons, List.foldlM_cons] at hlearn
    obtain ⟨parents₁, hp₁, hlearn⟩ := Option.bind_eq_some_iff.mp hlearn
    rw [hp₁] at hfollows
    obtain ⟨s', hs', htracks, herr⟩ := ih hfollows.1 hes.2 hlearn
    refine ⟨s', ?_, countLinks_cons e es ▸ htracks, herr.trans hfollows.2⟩
    rw [List.foldlM_cons, hs₁]
    exact hs'

/-- Entries of which the parent table reports one. -/
theorem direntRecords_noisy (ht : Tracks r base links parents s)
    (hcount : ∀ n ∈ numbers r, (n : ℤ) ≤ h.inodes)
    (hes : ∀ e ∈ es, e.dir ∈ numbers r ∧ e.inode ∈ numbers r)
    (hlearn : (es.map entryOf).foldlM learn parents = none)
    (hrun : es.foldlM (direntRecord h) s = some s') : Noisy s' := by
  induction es generalizing s links parents with
  | nil => cases hlearn
  | cons e es ih =>
    rw [List.forall_mem_cons] at hes
    obtain ⟨s₁, hs₁, hfollows⟩ := direntRecord_spec ht hcount hes.1.1 hes.1.2
    rw [List.foldlM_cons, hs₁] at hrun
    rw [List.map_cons, List.foldlM_cons] at hlearn
    cases hp₁ : learn parents (entryOf e) with
    | none =>
      rw [hp₁] at hfollows
      exact foldlM_keeps (fun _ _ _ _ => noisy_direntRecord) hrun hfollows
    | some parents₁ =>
      rw [hp₁] at hfollows hlearn
      exact ih hfollows.1 hes.2 hlearn hrun

end LowLevelTasks.DirentPass
