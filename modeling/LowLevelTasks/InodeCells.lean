import LowLevelTasks.Messages
import LowLevelTasks.ReferencePass

/-!
The table of inodes through all passes. A cell says whether its inode has a line, is free, or
neither, and counts the entries that name it; no pass but that over the lines of the inodes
changes what it says. The messages about inodes follow from the cells.
-/

namespace LowLevelTasks.InodeCells

open LowLevelTasks.Folds LowLevelTasks.Lab3b LowLevelTasks.Messages LowLevelTasks.Passes
open LowLevelTasks.ReferencePass LowLevelTasks.Reports LowLevelTasks.RubyArray
open LowLevelTasks.RubyText LowLevelTasks.Tables

/-! ### Cells -/

/-- The last line of an inode. -/
def lineOf (qs : List InodeRecord) (n : ℕ) : Option InodeRecord :=
  (qs.filter (·.number = n)).getLast?

/-- How many entries count a link of an inode. -/
def linksOf (inodes : ℕ) (es : List DirentRecord) (n : ℕ) : ℕ :=
  (es.filter fun e => e.inode = n ∧ e.inode ≤ inodes).length

section

variable (inodes : ℕ) (ifrees : List ℕ) (qs : List InodeRecord) (es : List DirentRecord)

/-- What a cell says about its inode, apart from the parent. -/
def inodeCellOf (n : ℕ) : Option InodeCell :=
  match lineOf qs n with
  | some q => some (.scanned ⟨q.linkCount, linksOf inodes es n, 0⟩)
  | none =>
    if n ∈ ifrees then some .free else if n ≤ inodes then some .unreferenced else none

def withoutParent : InodeCell → InodeCell
  | .scanned entry => .scanned { entry with parent := 0 }
  | cell => cell

def cellAt (s : St) (n : ℕ) : Option InodeCell := (get s.inodeHash n).map withoutParent

/-- The table holds what has been read. -/
def Known (s : St) : Prop := ∀ n, cellAt s n = inodeCellOf inodes ifrees qs es n

end

variable {inodes n : ℕ} {ifrees : List ℕ} {qs : List InodeRecord} {es : List DirentRecord}
variable {s s' s₁ : St} {h : Header} {q : InodeRecord} {e : DirentRecord} {m : Text}

lemma lineOf_concat : lineOf (qs ++ [q]) n = if q.number = n then some q else lineOf qs n := by
  unfold lineOf
  rw [List.filter_append, List.filter_singleton]
  by_cases hq : q.number = n <;> simp [hq]

lemma lineOf_eq_none_iff : lineOf qs n = none ↔ n ∉ qs.map InodeRecord.number := by
  unfold lineOf
  rw [List.getLast?_eq_none_iff, List.filter_eq_nil_iff]
  simp

lemma mem_of_lineOf (hq : lineOf qs n = some q) : q ∈ qs ∧ q.number = n := by
  obtain ⟨hmem, hnumber⟩ := List.mem_filter.mp (List.mem_of_getLast? hq)
  exact ⟨hmem, of_decide_eq_true hnumber⟩

lemma exists_lineOf (hn : n ∈ qs.map InodeRecord.number) : ∃ q, lineOf qs n = some q :=
  Option.ne_none_iff_exists'.mp fun hnone => lineOf_eq_none_iff.mp hnone hn

lemma linksOf_concat : linksOf inodes (es ++ [e]) n =
    linksOf inodes es n + if e.inode = n ∧ e.inode ≤ inodes then 1 else 0 := by
  unfold linksOf
  rw [List.filter_append, List.length_append]
  by_cases he : e.inode = n ∧ e.inode ≤ inodes
  · rw [List.filter_cons_of_pos (by simpa using he), if_pos he]
    rfl
  · rw [List.filter_cons_of_neg (by simpa using he), if_neg he]
    rfl

lemma inodeCellOf_of_some (hq : lineOf qs n = some q) : inodeCellOf inodes ifrees qs es n =
    some (.scanned ⟨q.linkCount, linksOf inodes es n, 0⟩) := by
  unfold inodeCellOf
  rw [hq]

lemma inodeCellOf_of_none (hn : lineOf qs n = none) : inodeCellOf inodes ifrees qs es n =
    if n ∈ ifrees then some .free else if n ≤ inodes then some .unreferenced else none := by
  unfold inodeCellOf
  rw [hn]

lemma cellAt_of_get {cell : InodeCell} (hget : get s.inodeHash n = some cell) :
    cellAt s n = some (withoutParent cell) := by
  unfold cellAt
  rw [hget, Option.map_some]

/-- The cells of an inode that has no line are as they are written. -/
lemma cellAt_eq_some_iff {cell : InodeCell} (hcell : ∀ entry, cell ≠ .scanned entry) :
    cellAt s n = some cell ↔ get s.inodeHash n = some cell := by
  unfold cellAt
  rw [Option.map_eq_some_iff]
  constructor
  · rintro ⟨cell', hget, rfl⟩
    cases cell' with
    | scanned entry => exact absurd rfl (hcell _)
    | unreferenced | free => exact hget
  · intro hget
    refine ⟨cell, hget, ?_⟩
    cases cell with
    | scanned entry => exact absurd rfl (hcell _)
    | unreferenced | free => rfl

lemma cellAt_eq_scanned_iff {entry : InodeEntry} : cellAt s n = some (.scanned entry) ↔
    entry.parent = 0 ∧
      ∃ parent, get s.inodeHash n = some (.scanned { entry with parent }) := by
  unfold cellAt
  rw [Option.map_eq_some_iff]
  constructor
  · rintro ⟨cell, hget, hcell⟩
    cases cell with
    | scanned entry' =>
      obtain rfl := InodeCell.scanned.inj hcell
      exact ⟨rfl, entry'.parent, hget⟩
    | unreferenced | free => cases hcell
  · rintro ⟨hparent, parent, hget⟩
    refine ⟨_, hget, ?_⟩
    unfold withoutParent
    rw [← hparent]

lemma known_of_inodes (hi : Inodes inodes ifrees [] s.inodeHash) :
    Known inodes ifrees [] [] s := by
  intro n
  have hget : get s.inodeHash n = if n ∈ ifrees then some .free
      else if n ≤ inodes then some .unreferenced else none := by
    by_cases hfree : n ∈ ifrees
    · rw [if_pos hfree, hi.free n hfree (by simp)]
    · rw [if_neg hfree, hi.other n hfree (by simp)]
  rw [inodeCellOf_of_none (by rfl)]
  unfold cellAt
  rw [hget]
  split_ifs <;> rfl

/-- The line of an inode is written down. -/
lemma Known.scan (hk : Known inodes ifrees qs [] s)
    (hget : ∀ m : ℕ, get s'.inodeHash m = if m = q.number then
      some (.scanned ⟨q.linkCount, 0, 0⟩) else get s.inodeHash m) :
    Known inodes ifrees (qs ++ [q]) [] s' := by
  intro n
  by_cases hn : q.number = n
  · rw [inodeCellOf_of_some (by rw [lineOf_concat, if_pos hn]),
      cellAt_of_get (by rw [hget, if_pos hn.symm])]
    rfl
  · have hline : lineOf (qs ++ [q]) n = lineOf qs n := by rw [lineOf_concat, if_neg hn]
    have hcell := hk n
    unfold inodeCellOf cellAt at *
    rw [hline, hget, if_neg (Ne.symm hn)]
    exact hcell

/-! ### Writes that keep the cells -/

/-- A message about a parent. -/
def OfParents (m : Text) : Prop := ∃ flag dir n parent, m = Err.parent flag dir n parent

/-- No cell says anything else, and there are messages about parents only. -/
structure Quiet (s s' : St) : Prop where
  cells : ∀ n, cellAt s' n = cellAt s n
  said : ∀ m, ¬ OfParents m → (m ∈ s'.errList ↔ m ∈ s.errList)

lemma Quiet.refl (s : St) : Quiet s s := ⟨fun _ => rfl, fun _ _ => Iff.rfl⟩

lemma Quiet.trans (h₁ : Quiet s s₁) (h₂ : Quiet s₁ s') : Quiet s s' where
  cells n := (h₂.cells n).trans (h₁.cells n)
  said m hm := (h₂.said m hm).trans (h₁.said m hm)

lemma quiet_err (flag : Text) (dir n parent : ℤ) :
    Quiet s (s.err (Err.parent flag dir n parent)) where
  cells _ := rfl
  said m hm := by
    rw [mem_err]
    exact or_iff_left fun heq => hm ⟨flag, dir, n, parent, heq⟩

lemma quiet_setParent {parent : ℤ} (hrun : s.setParent n parent = some s') : Quiet s s' := by
  obtain ⟨entry, hentry, -⟩ := Option.bind_eq_some_iff.mp hrun
  have hget : get s.inodeHash n = some (.scanned entry) := by
    unfold St.entry at hentry
    split at hentry
    · next entry' hget => rwa [Option.some.inj hentry] at hget
    · cases hentry
  obtain ⟨s₁, hs₁, hget₁, -, herr⟩ := setParent_spec hget parent
  obtain rfl : s₁ = s' := Option.some.inj (hs₁.symm.trans hrun)
  refine ⟨fun m => ?_, fun m _ => by rw [herr]⟩
  by_cases hm : m = n
  · subst hm
    rw [cellAt_of_get (by rw [hget₁, if_pos rfl]), cellAt_of_get hget]
    rfl
  · unfold cellAt
    rw [hget₁, if_neg hm]

lemma quiet_check {c : Prop} [Decidable c] {dir inode parent parent' : ℤ}
    (hrun : (if c then s else s.err (Err.parent "parent".toList dir inode parent)).setParent n
      parent' = some s') : Quiet s s' := by
  split at hrun
  · exact quiet_setParent hrun
  · exact (quiet_err _ _ _ _).trans (quiet_setParent hrun)

lemma quiet_childEntry {dir : ℤ} (hrun : childEntry s dir n = some s') : Quiet s s' := by
  obtain ⟨_, -, hrun⟩ := Option.bind_eq_some_iff.mp hrun
  exact quiet_check hrun

lemma quiet_parentEntry {dir : ℕ} (hrun : parentEntry s dir n = some s') : Quiet s s' := by
  obtain ⟨_, -, hrun⟩ := Option.bind_eq_some_iff.mp hrun
  obtain ⟨_, -, hrun⟩ := Option.bind_eq_some_iff.mp hrun
  exact quiet_check hrun

/-- **A name in a directory** changes parents only. -/
lemma quiet_namedEntry {dir : ℕ} {name : Text} (hrun : namedEntry s dir n name = some s') :
    Quiet s s' := by
  unfold namedEntry at hrun
  split at hrun
  · obtain rfl := Option.some.inj hrun
    split
    · exact Quiet.refl s
    · exact quiet_err _ _ _ _
  split at hrun
  · obtain ⟨_, -, hrun⟩ := Option.bind_eq_some_iff.mp hrun
    split at hrun
    · exact quiet_parentEntry hrun
    · exact quiet_childEntry hrun
  · exact quiet_childEntry hrun

/-! ### One entry -/

/-- The entry names an inode that has a line and is counted. -/
def Counted (inodes : ℕ) (qs : List InodeRecord) (e : DirentRecord) : Prop :=
  e.inode ∈ qs.map InodeRecord.number ∧ e.inode ≤ inodes

/-- The inode has no line, and it is free or inside the count. -/
def Unallocated (inodes : ℕ) (ifrees : List ℕ) (qs : List InodeRecord) (n : ℕ) : Prop :=
  n ∉ qs.map InodeRecord.number ∧ (n ∈ ifrees ∨ n ≤ inodes)

instance : Decidable (Unallocated inodes ifrees qs n) := inferInstanceAs (Decidable (_ ∧ _))

/-- What is said about an entry that does not count. -/
def EntrySays (inodes : ℕ) (ifrees : List ℕ) (qs : List InodeRecord) (e : DirentRecord)
    (m : Text) : Prop :=
  ¬ Counted inodes qs e ∧
    m = Err.dir (dirFlag (Unallocated inodes ifrees qs e.inode)) e.dir e.inode (nameRead e)

lemma not_ofParents_dir (b : Bool) (dir n : ℤ) (name : Text) :
    ¬ OfParents (Err.dir (dirFlag b) dir n name) := by
  rintro ⟨flag, dir', n', parent, heq⟩
  exact dir_ne_parent _ _ _ _ _ _ _ _ heq

/-- The links of other inodes, and of inodes behind the count, stay. -/
lemma inodeCellOf_concat (hn : ¬ (e.inode = n ∧ Counted inodes qs e)) :
    inodeCellOf inodes ifrees qs (es ++ [e]) n = inodeCellOf inodes ifrees qs es n := by
  cases hline : lineOf qs n with
  | none => rw [inodeCellOf_of_none hline, inodeCellOf_of_none hline]
  | some q =>
    have hmem : n ∈ qs.map InodeRecord.number := by
      by_contra hnot
      rw [lineOf_eq_none_iff.mpr hnot] at hline
      cases hline
    rw [inodeCellOf_of_some hline, inodeCellOf_of_some hline, linksOf_concat, if_neg]
    · rfl
    · rintro ⟨rfl, hle⟩
      exact hn ⟨rfl, hmem, hle⟩

/-- An entry that does not count leaves the table alone. -/
lemma Known.skip (hk : Known inodes ifrees qs es s) (he : ¬ Counted inodes qs e) (msg : Text) :
    Known inodes ifrees qs (es ++ [e]) (s.err msg) := fun n => by
  rw [inodeCellOf_concat fun hn => he hn.2]
  exact hk n

/-- The link of an entry is counted. -/
lemma Known.count (hk : Known inodes ifrees qs es s) (hq : lineOf qs e.inode = some q)
    (hle : e.inode ≤ inodes) {parent : ℤ}
    (hget : ∀ m : ℕ, get s'.inodeHash m = if m = e.inode then
      some (.scanned ⟨q.linkCount, linksOf inodes es e.inode + 1, parent⟩)
        else get s.inodeHash m) :
    Known inodes ifrees qs (es ++ [e]) s' := by
  intro n
  by_cases hn : e.inode = n
  · subst hn
    rw [cellAt_of_get (by rw [hget, if_pos rfl]), inodeCellOf_of_some hq, linksOf_concat,
      if_pos ⟨rfl, hle⟩]
    unfold withoutParent
    push_cast
    rfl
  · rw [inodeCellOf_concat fun hn' => hn hn'.1, ← hk n]
    unfold cellAt
    rw [hget, if_neg (Ne.symm hn)]

/-- **One entry** counts a link, or is reported. -/
theorem direntRead_known (hk : Known inodes ifrees qs es s) (hcount : h.inodes = inodes)
    (hrun : direntRead h s e = some s') : Known inodes ifrees qs (es ++ [e]) s' ∧
      ∀ m, ¬ OfParents m → (m ∈ s'.errList ↔
        m ∈ s.errList ∨ EntrySays inodes ifrees qs e m) := by
  have hreported : ∀ b : Bool, ¬ Counted inodes qs e →
      b = decide (Unallocated inodes ifrees qs e.inode) →
      some (s.err (Err.dir (dirFlag b) e.dir e.inode (nameRead e))) = some s' →
      Known inodes ifrees qs (es ++ [e]) s' ∧ ∀ m, ¬ OfParents m → (m ∈ s'.errList ↔
        m ∈ s.errList ∨ EntrySays inodes ifrees qs e m) := by
    rintro b hnot rfl hs'
    obtain rfl := Option.some.inj hs'
    refine ⟨hk.skip hnot _, fun m _ => ?_⟩
    rw [mem_err]
    exact or_congr_right (and_iff_right hnot).symm
  have hcell := hk e.inode
  unfold direntRead dirent at hrun
  rw [hcount] at hrun
  cases hline : lineOf qs e.inode with
  | none =>
    have hnot : e.inode ∉ qs.map InodeRecord.number := lineOf_eq_none_iff.mp hline
    have hdead : ¬ Counted inodes qs e := fun hc => hnot hc.1
    rw [inodeCellOf_of_none hline] at hcell
    split_ifs at hcell with hfree hle
    · rw [cellAt_eq_some_iff (by simp)] at hcell
      rw [hcell] at hrun
      exact hreported true hdead (decide_eq_true ⟨hnot, Or.inl hfree⟩).symm hrun
    · rw [cellAt_eq_some_iff (by simp)] at hcell
      rw [hcell] at hrun
      exact hreported true hdead (decide_eq_true ⟨hnot, Or.inr hle⟩).symm hrun
    · have hget : get s.inodeHash e.inode = none := Option.map_eq_none_iff.mp hcell
      rw [hget] at hrun
      dsimp only at hrun
      rw [if_pos (by omega)] at hrun
      exact hreported false hdead (decide_eq_false fun hu => hu.2.elim hfree hle).symm hrun
  | some q =>
    obtain ⟨hq, hnumber⟩ := mem_of_lineOf hline
    have hmem : e.inode ∈ qs.map InodeRecord.number := List.mem_map.mpr ⟨q, hq, hnumber⟩
    rw [inodeCellOf_of_some hline, cellAt_eq_scanned_iff] at hcell
    obtain ⟨-, parent, hget⟩ := hcell
    rw [hget] at hrun
    dsimp only at hrun
    split at hrun
    · next hlt =>
      have hdead : ¬ Counted inodes qs e := fun hc => by
        have := hc.2
        omega
      exact hreported false hdead (decide_eq_false fun hu => hu.1 hmem).symm hrun
    · next hle =>
      obtain ⟨s₁, hs₁, hget₁, -, herr₁⟩ := putInode_spec s e.inode
        (.scanned ⟨q.linkCount, linksOf inodes es e.inode + 1, parent⟩)
      rw [hs₁, Option.bind_eq_bind, Option.bind_some] at hrun
      have hquiet := quiet_namedEntry hrun
      have hcounted : Counted inodes qs e := ⟨hmem, by omega⟩
      refine ⟨fun n => (hquiet.cells n).trans (hk.count hline hcounted.2 hget₁ n), fun m hm => ?_⟩
      rw [hquiet.said m hm, herr₁]
      exact (or_iff_left fun hmsg => hmsg.1 hcounted).symm

/-- **The entries** of a report. -/
theorem direntReads_known (hk : Known inodes ifrees qs [] s) (hcount : h.inodes = inodes)
    (hrun : es.foldlM (direntRead h) s = some s') : Known inodes ifrees qs es s' ∧
      ∀ m, ¬ OfParents m → (m ∈ s'.errList ↔
        m ∈ s.errList ∨ ∃ e ∈ es, EntrySays inodes ifrees qs e m) := by
  refine foldlM_extends (p := fun u (s' : St) => Known inodes ifrees qs u s' ∧
    ∀ m, ¬ OfParents m → (m ∈ s'.errList ↔
      m ∈ s.errList ∨ ∃ e ∈ u, EntrySays inodes ifrees qs e m)) ?_ hrun ⟨hk, by simp⟩
  rintro u e s₁ s₂ hstep ⟨hk₁, hsaid₁⟩
  obtain ⟨hk₂, hsaid₂⟩ := direntRead_known hk₁ hcount hstep
  refine ⟨hk₂, fun m hm => ?_⟩
  rw [hsaid₂ m hm, hsaid₁ m hm, or_assoc]
  simp [or_and_right, exists_or]

/-! ### The final reports -/

/-- What is said about a cell at the end. -/
def CellSays (h : Header) (m : Text) : InodeCell → ℕ → Prop
  | .unreferenced, n => h.reservedInodes < n ∧ m = Err.free "unall_ino".toList n
  | .free, _ => False
  | .scanned entry, n =>
    entry.links ≠ entry.linkCount ∧ m = Err.link n entry.links entry.linkCount

lemma mem_finalInode (val : Option InodeCell × ℕ) : m ∈ (finalInode h s val).errList ↔
    m ∈ s.errList ∨ ∃ c, val.1 = some c ∧ CellSays h m c val.2 := by
  obtain ⟨cell, n⟩ := val
  unfold finalInode
  match cell with
  | none => simp
  | some .free => simp [CellSays]
  | some .unreferenced =>
    by_cases hn : h.reservedInodes < n <;> simp [hn, mem_err, CellSays]
  | some (.scanned entry) =>
    by_cases hlinks : entry.links = entry.linkCount <;> simp [hlinks, mem_err, CellSays]

/-- **The final reports** about inodes. -/
theorem mem_finalInodes (vals : List (Option InodeCell × ℕ)) :
    m ∈ (vals.foldl (finalInode h) s).errList ↔ m ∈ s.errList ∨
      ∃ val ∈ vals, ∃ c, val.1 = some c ∧ CellSays h m c val.2 := by
  induction vals generalizing s with
  | nil => simp
  | cons val vals ih =>
    rw [List.foldl_cons, ih, mem_finalInode, or_assoc]
    simp

end LowLevelTasks.InodeCells
