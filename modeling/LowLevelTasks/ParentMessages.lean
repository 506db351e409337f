import LowLevelTasks.InodeReports
import LowLevelTasks.ParentReports

/-!
Messages about the parents of directories. The pass over the entries follows the table of
parents that the entries with an allocated inode are read into, in the order of their lines, and
prints what they say against it.
-/

namespace LowLevelTasks.ParentMessages

open LowLevelTasks.BlockReports LowLevelTasks.DirentPass LowLevelTasks.Folds
open LowLevelTasks.InodeCells LowLevelTasks.InodeReports LowLevelTasks.Lab3b LowLevelTasks.LineRuns
open LowLevelTasks.Messages LowLevelTasks.ParentReports LowLevelTasks.ParentTable
open LowLevelTasks.Passes LowLevelTasks.Reports LowLevelTasks.RubyText
open LowLevelTasks.Tables

def conflictText (c : Conflict) : Text := Err.parent "parent".toList c.place c.named c.parent

lemma conflictText_injective : Function.Injective conflictText := fun c d h => by
  obtain ⟨place, named, parent⟩ := c
  obtain ⟨place', named', parent'⟩ := d
  obtain ⟨hplace, hnamed, hparent⟩ := parent_inj.mp h
  rw [Conflict.mk.injEq]
  exact ⟨Nat.cast_injective hplace, Nat.cast_injective hnamed, Nat.cast_injective hparent⟩

/-- The entry as the analyser reads it. -/
def readEntry (e : DirentRecord) : Entry := ⟨e.dir, e.inode, nameOf (nameRead e)⟩

/-- What is said about an entry when these parents are known. -/
def ParentSays (t : ℕ → ℕ) (e : Entry) (m : Text) : Prop :=
  (e.name = .self ∧ e.inode ≠ e.dir ∧ m = Err.parent "self".toList e.dir e.inode e.dir) ∨
    ∃ c, conflict t e = some c ∧ m = conflictText c

variable {r : LineReport} {h : Header} {s s' : St} {inodes n : ℕ} {numbers : List ℕ}
variable {t : ℕ → ℕ} {e : Entry} {m : Text}

lemma ParentSays.ofParents (hm : ParentSays t e m) : OfParents m := by
  rcases hm with ⟨-, -, rfl⟩ | ⟨c, -, rfl⟩
  · exact ⟨_, _, _, _, rfl⟩
  · exact ⟨_, _, _, _, rfl⟩

/-! ### One entry -/

/-- The state holds these parents, and this is what has been said about parents. -/
structure Learns (inodes : ℕ) (numbers : List ℕ) (s : St) (t : ℕ → ℕ) (said : Text → Prop)
    (s' : St) : Prop where
  numbered : Numbered inodes numbers s'
  parents : Parents numbers t s'
  said : ∀ m, OfParents m → (m ∈ s'.errList ↔ m ∈ s.errList ∨ said m)

/-- A message, or none, and then the write of a parent. -/
lemma learns_check (hn : Numbered inodes numbers s) (hp : Parents numbers t s)
    (hmem : n ∈ numbers) (silent : Prop) [Decidable silent] (msg : Text) (p : ℕ) :
    ∃ s', (if silent then s else s.err msg).setParent n p = some s' ∧
      Learns inodes numbers s (Function.update t n p) (fun m => ¬ silent ∧ m = msg) s' := by
  obtain ⟨s₁, hs₁, hinodes, hsaid⟩ : ∃ s₁ : St, (if silent then s else s.err msg) = s₁ ∧
      s₁.inodeHash = s.inodeHash ∧
        ∀ m, m ∈ s₁.errList ↔ m ∈ s.errList ∨ (¬ silent ∧ m = msg) := by
    refine ⟨_, rfl, ?_⟩
    split
    · next hsilent => simp [hsilent]
    · next hnot => exact ⟨rfl, fun m => by rw [mem_err, and_iff_right hnot]⟩
  rw [hs₁]
  obtain ⟨entry, hentry, -⟩ := hp n hmem
  rw [← hinodes] at hentry
  obtain ⟨s', hs', hget, -, herr⟩ := setParent_spec hentry (p : ℤ)
  rw [hinodes] at hget
  exact ⟨s', hs', hn.rewrite hmem hget, hp.rewrite hget rfl, fun m _ => by rw [herr, hsaid]⟩

lemma Learns.congr {said said' : Text → Prop} (hl : Learns inodes numbers s t said s')
    (hsaid : ∀ m, said m ↔ said' m) : Learns inodes numbers s t said' s' :=
  ⟨hl.numbered, hl.parents, fun m hm => by rw [hl.said m hm, hsaid]⟩

lemma childEntry_learns (hn : Numbered inodes numbers s) (hp : Parents numbers t s)
    (hmem : e.inode ∈ numbers) : ∃ s', childEntry s e.dir e.inode = some s' ∧
      Learns inodes numbers s (Function.update t e.inode e.dir)
        (fun m => ∃ c, childConflict t e = some c ∧ m = conflictText c) s' := by
  obtain ⟨entry, hentry, hparent⟩ := hp _ hmem
  unfold childEntry childConflict
  rw [entry_eq hentry, Option.bind_eq_bind, Option.bind_some, hparent]
  simp only [Nat.cast_eq_zero, Nat.cast_inj]
  obtain ⟨s', hs', hlearns⟩ := learns_check hn hp hmem (t e.inode = 0 ∨ t e.inode = e.dir)
    (conflictText ⟨e.inode, t e.inode, e.dir⟩) e.dir
  refine ⟨s', hs', hlearns.congr fun m => ?_⟩
  split
  · next hsilent => simp [hsilent]
  · next hnot => simp [hnot]

lemma parentEntry_learns (hn : Numbered inodes numbers s) (hp : Parents numbers t s)
    (hdir : e.dir ∈ numbers) (hmem : e.inode ∈ numbers) (hne : e.inode ≠ t e.dir) :
    ∃ s', parentEntry s e.dir e.inode = some s' ∧
      Learns inodes numbers s (Function.update t e.dir e.inode)
        (fun m => ¬ t e.dir = 0 ∧ m = conflictText ⟨e.dir, e.inode, t e.inode⟩) s' := by
  obtain ⟨dirEntry, hdirEntry, hdirParent⟩ := hp _ hdir
  obtain ⟨entry, hentry, hparent⟩ := hp _ hmem
  unfold parentEntry
  rw [entry_eq hdirEntry, entry_eq hentry]
  simp only [Option.bind_eq_bind, Option.bind_some, hparent, hdirParent, Nat.cast_eq_zero,
    Nat.cast_inj, Ne.symm hne, or_false]
  exact learns_check hn hp hdir _ (conflictText ⟨e.dir, e.inode, t e.inode⟩) e.inode

/-- **A name in a directory**, behind the count of the link. -/
lemma namedEntry_learns (hn : Numbered inodes numbers s) (hp : Parents numbers t s) {name : Text}
    (hname : nameOf name = e.name) (hmem : e.inode ∈ numbers)
    (hdir : e.name = .up → e.dir ∈ numbers) : ∃ s', namedEntry s e.dir e.inode name = some s' ∧
      Learns inodes numbers s (next t e) (ParentSays t e) s' := by
  unfold namedEntry next ParentSays conflict
  rw [← hname] at hdir ⊢
  cases hkind : nameOf name with
  | self =>
    dsimp only
    rw [if_pos (nameOf_eq_self.mp hkind)]
    refine ⟨_, rfl, ?_⟩
    by_cases hsame : e.inode = e.dir
    · rw [if_pos (congrArg Nat.cast hsame)]
      exact ⟨hn, hp, fun m _ => by simp [hsame]⟩
    · rw [if_neg (Nat.cast_injective.ne hsame)]
      refine ⟨hn.congr rfl, hp, fun m _ => ?_⟩
      rw [mem_err]
      simp [hsame]
  | up =>
    have hdot : name ≠ ".".toList := fun hdot => by
      rw [nameOf_eq_self.mpr hdot] at hkind
      cases hkind
    obtain ⟨entry, hentry, hparent⟩ := hp _ (hdir hkind)
    rw [if_neg hdot, if_pos (nameOf_eq_up.mp hkind), entry_eq hentry, Option.bind_eq_bind,
      Option.bind_some, hparent]
    simp only [ne_eq, Nat.cast_inj]
    by_cases hagree : e.inode = t e.dir
    · simp only [hagree, not_true_eq_false, if_false]
      obtain ⟨s', hs', hlearns⟩ := childEntry_learns hn hp hmem
      rw [hagree] at hs' hlearns
      exact ⟨s', hs', hlearns.congr fun m => by simp⟩
    · simp only [hagree, not_false_eq_true, if_true]
      obtain ⟨s', hs', hlearns⟩ := parentEntry_learns hn hp (hdir hkind) hmem hagree
      refine ⟨s', hs', hlearns.congr fun m => ?_⟩
      split
      · next hzero => simp [hzero]
      · next hnot => simp [hnot]
  | other =>
    obtain ⟨hdot, hdots⟩ := nameOf_eq_other.mp hkind
    rw [if_neg hdot, if_neg hdots]
    obtain ⟨s', hs', hlearns⟩ := childEntry_learns hn hp hmem
    exact ⟨s', hs', hlearns.congr fun m => by simp⟩

/-! ### The pass -/

variable {d : DirentRecord}

/-- The entry names an inode that is allocated. -/
def Live (r : LineReport) (h : Header) (d : DirentRecord) : Prop :=
  d.inode ∈ r.numbers ∧ d.inode ≤ h.inodes

instance : Decidable (Live r h d) := inferInstanceAs (Decidable (_ ∧ _))

/-- The entries that name allocated inodes, as they are read. -/
def readLive (r : LineReport) (h : Header) (es : List DirentRecord) : List Entry :=
  (es.filter (Live r h)).map readEntry

lemma readLive_concat (es : List DirentRecord) : readLive r h (es ++ [d]) =
    readLive r h es ++ if Live r h d then [readEntry d] else [] := by
  unfold readLive
  rw [List.filter_append, List.map_append, List.filter_singleton]
  by_cases hlive : Live r h d <;> simp [hlive]

/-- **One entry** that does not stop the analyser. -/
theorem direntRead_learns (hn : Numbered inodes r.numbers s) (hp : Parents r.numbers t s)
    (hcount : h.inodes = inodes) (hstray : ¬ Stray h.inodes r.numbers d) :
    ∃ s', direntRead h s d = some s' ∧
      if Live r h d then
        Learns inodes r.numbers s (next t (readEntry d)) (ParentSays t (readEntry d)) s'
      else Learns inodes r.numbers s t (fun _ => False) s' := by
  split
  · next hlive =>
    obtain ⟨entry, hentry, hparent⟩ := hp _ hlive.1
    obtain ⟨s₁, hs₁, hget, -, herr⟩ := direntRead_live hlive.2 hentry
    have hp₁ := hp.rewrite (p := t d.inode) hget hparent
    rw [Function.update_eq_self] at hp₁
    have hdir : (readEntry d).name = .up → d.dir ∈ r.numbers := fun hup => by
      by_contra hdir
      exact hstray ⟨nameOf_eq_up.mp hup, hlive.1, hlive.2, hdir⟩
    obtain ⟨s', hs', hlearns⟩ := namedEntry_learns (e := readEntry d)
      (hn.rewrite hlive.1 hget) hp₁ rfl hlive.1 hdir
    exact ⟨s', hs₁.trans hs', hlearns.numbered, hlearns.parents, fun m hm => by
      rw [hlearns.said m hm, herr]⟩
  · next hdead =>
    obtain ⟨b, hs'⟩ := direntRead_dead hn hcount hdead
    refine ⟨_, hs', hn.congr rfl, hp, fun m hm => ?_⟩
    rw [mem_err, or_false]
    exact or_iff_left fun heq => not_ofParents_dir b _ _ _ (heq ▸ hm)

/-- What is said about the parents in these entries. -/
def ParentsSay (es : List Entry) (m : Text) : Prop :=
  Somewhere (fun u e => ParentSays (table 2 u) e m) es

lemma ParentsSay.ofParents {es : List Entry} (hm : ParentsSay es m) : OfParents m := by
  obtain ⟨_, _, _, -, hword⟩ := hm
  exact hword.ofParents

/-- **The entries** of a report in which none stops the analyser. -/
theorem direntReads_learns (hn : Numbered inodes r.numbers s)
    (hp : Parents r.numbers (initial 2) s) (hcount : h.inodes = inodes)
    (hstray : ¬ ∃ e ∈ r.dirents, Stray h.inodes r.numbers e) :
    ∃ s', (sortLines r.dirents).foldlM (direntRead h) s = some s' ∧
      ∀ m, OfParents m → (m ∈ s'.errList ↔
        m ∈ s.errList ∨ ParentsSay (readLive r h (sortLines r.dirents)) m) := by
  suffices hrun : ∃ s', (sortLines r.dirents).foldlM (direntRead h) s = some s' ∧
      Numbered inodes r.numbers s' ∧
      Parents r.numbers (table 2 (readLive r h (sortLines r.dirents))) s' ∧
      ∀ m, OfParents m → (m ∈ s'.errList ↔
        m ∈ s.errList ∨ ParentsSay (readLive r h (sortLines r.dirents)) m) by
    obtain ⟨s', hs', -, -, hsaid⟩ := hrun
    exact ⟨s', hs', hsaid⟩
  refine foldlM_inv (p := fun u (s' : St) => Numbered inodes r.numbers s' ∧
      Parents r.numbers (table 2 (readLive r h u)) s' ∧ ∀ m, OfParents m →
        (m ∈ s'.errList ↔ m ∈ s.errList ∨ ParentsSay (readLive r h u) m)) ?_
    ⟨hn, hp, fun m _ => (or_iff_left somewhere_nil).symm⟩
  rintro u d v s₁ heq ⟨hn₁, hp₁, hsaid⟩
  have hmem : d ∈ r.dirents := mem_sortLines.mp (by rw [heq]; simp)
  obtain ⟨s', hs', hlearns⟩ :=
    direntRead_learns hn₁ hp₁ hcount fun hd => hstray ⟨d, hmem, hd⟩
  refine ⟨s', hs', ?_⟩
  rw [readLive_concat]
  split at hlearns
  · next hlive =>
    rw [if_pos hlive, table_concat]
    refine ⟨hlearns.numbered, hlearns.parents, fun m hm => ?_⟩
    unfold ParentsSay
    rw [somewhere_concat, hlearns.said m hm, hsaid m hm, or_assoc]
    rfl
  · next hdead =>
    rw [if_neg hdead, List.append_nil]
    refine ⟨hlearns.numbered, hlearns.parents, fun m hm => ?_⟩
    rw [hlearns.said m hm, hsaid m hm, or_false]

/-! ### Whole runs -/

lemma not_ofBlocks_of_ofParents (hm : OfParents m) : ¬ OfBlocks m := by
  obtain ⟨flag, dir, n, parent, rfl⟩ := hm
  exact not_ofBlocks (head_words_parent _ _ _ _) (by decide)

lemma not_ofFreeInode_of_ofParents (hm : OfParents m) : ¬ OfFreeInode m := by
  rintro ⟨n, rfl⟩
  exact not_ofParents (m := Err.free "all_ino".toList n) (w := "ALLOCATED".toList)
    (by rw [words_allocatedInode]; rfl) (by decide) hm

lemma parents_said_finalReports (hm : OfParents m) (s : St) :
    m ∈ (finalReports h s).errList ↔ m ∈ s.errList := by
  obtain ⟨flag, dir, n, parent, rfl⟩ := id hm
  have hhead := head_words_parent flag dir n parent
  have hunref : ∀ b, Err.parent flag dir n parent ≠ Err.unref b := fun b heq =>
    not_ofBlocks_of_ofParents hm (Or.inr (Or.inl ⟨b, heq⟩))
  rw [said_finalInodes (fun w hw heq => ?_), mem_finalBlocks]
  · simp [hunref]
  · rw [hhead, Option.some.injEq] at heq
    subst heq
    revert hw
    decide

/-- **Messages about parents** are printed if the analyser comes to an end and the entries have
said another parent before. -/
theorem mem_printed_parents (hh : r.header? = some h) (hm : OfParents m) :
    m ∈ printed r ↔ Completes r h ∧ ParentsSay (readLive r h (sortLines r.dirents)) m := by
  obtain ⟨hstops, hruns⟩ := run_or_none hh
  by_cases hc : Completes r h
  swap
  · unfold printed lab3b
    rw [hstops hc]
    exact iff_of_false (by simp) fun hnot => hc hnot.1
  obtain ⟨blocks, inodes, s₁, s₂, s₃, s₄, hrun⟩ := hruns hc
  obtain ⟨entry, hentry, -⟩ := hrun.read.parents 2 hc.root
  obtain ⟨s₂', hs₂', hget, -, herr₂⟩ := setParent_spec hentry ((2 : ℕ) : ℤ)
  obtain rfl : s₂' = s₂ := Option.some.inj (hs₂'.symm.trans hrun.root)
  have hnone : m ∉ s₂'.errList := by
    rw [herr₂, hrun.read.said _ (not_ofFreeInode_of_ofParents hm)]
    rintro ⟨u, x, v, -, hx⟩
    exact not_ofBlocks_of_ofParents hm (ofBlocks_of_slotSays hx)
  obtain ⟨s₃', hs₃', hsaid₃⟩ := direntReads_learns (hrun.read.numbered.rewrite hc.root hget)
    (hrun.read.parents.rewrite hget rfl) hrun.read.inodes_eq hc.entries
  obtain rfl : s₃' = s₃ := Option.some.inj (hs₃'.symm.trans hrun.entries)
  unfold printed lab3b
  rw [hrun.out, and_iff_right hc]
  dsimp only
  rw [parents_said_finalReports hm, hrun.said, hsaid₃ m hm, or_iff_right hnone]
  refine or_iff_left ?_
  rintro ⟨u, x, v, -, hx⟩
  exact not_ofBlocks_of_ofParents hm (ofBlocks_of_pointerSays hx)

end LowLevelTasks.ParentMessages
