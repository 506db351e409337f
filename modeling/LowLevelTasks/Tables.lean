import LowLevelTasks.Passes

/-!
What each operation of the analyser does to its tables, and that none takes a message back.
-/

namespace LowLevelTasks.Tables

open LowLevelTasks.Folds LowLevelTasks.Lab3b LowLevelTasks.Passes LowLevelTasks.Reports
open LowLevelTasks.RubyArray LowLevelTasks.RubyText

variable {s s' : St}

/-! ### Reads and writes -/

lemma putBlock_spec (s : St) (b : ℕ) (cell : BlockCell) :
    ∃ s', s.putBlock b cell = some s' ∧
      (∀ m : ℕ, get s'.blockHash m = if m = b then some cell else get s.blockHash m) ∧
      s'.inodeHash = s.inodeHash ∧ s'.errList = s.errList := by
  obtain ⟨blockHash, hput, hget⟩ := put_natCast s.blockHash b cell
  refine ⟨{ s with blockHash }, ?_, hget, rfl, rfl⟩
  unfold St.putBlock
  rw [hput]
  rfl

lemma putInode_spec (s : St) (n : ℕ) (cell : InodeCell) :
    ∃ s', s.putInode n cell = some s' ∧
      (∀ m : ℕ, get s'.inodeHash m = if m = n then some cell else get s.inodeHash m) ∧
      s'.blockHash = s.blockHash ∧ s'.errList = s.errList := by
  obtain ⟨inodeHash, hput, hget⟩ := put_natCast s.inodeHash n cell
  refine ⟨{ s with inodeHash }, ?_, hget, rfl, rfl⟩
  unfold St.putInode
  rw [hput]
  rfl

lemma entry_eq {inode : ℤ} {entry : InodeEntry}
    (h : get s.inodeHash inode = some (.scanned entry)) : s.entry inode = some entry := by
  unfold St.entry
  rw [h]

lemma setParent_spec {n : ℕ} {entry : InodeEntry}
    (h : get s.inodeHash n = some (.scanned entry)) (parent : ℤ) :
    ∃ s', s.setParent n parent = some s' ∧
      (∀ m : ℕ, get s'.inodeHash m =
        if m = n then some (.scanned { entry with parent }) else get s.inodeHash m) ∧
      s'.blockHash = s.blockHash ∧ s'.errList = s.errList := by
  unfold St.setParent
  rw [entry_eq h]
  exact putInode_spec s n _

/-! ### Messages stay -/

lemma mem_err {m msg : Text} : m ∈ (s.err msg).errList ↔ m ∈ s.errList ∨ m = msg := by
  unfold St.err
  dsimp only
  split
  · next hmem => exact ⟨Or.inl, fun hm => hm.elim id fun hm => hm ▸ hmem⟩
  · rw [List.mem_append, List.mem_singleton]

/-- There is something to print. -/
def Noisy (s : St) : Prop := s.errList ≠ []

lemma noisy_err (msg : Text) : Noisy (s.err msg) := by
  unfold Noisy St.err
  dsimp only
  split
  · next hmem => exact List.ne_nil_of_mem hmem
  · simp

lemma errList_putBlock {block : ℤ} {cell : BlockCell} (h : s.putBlock block cell = some s') :
    s'.errList = s.errList := by
  obtain ⟨_, -, rfl⟩ := Option.map_eq_some_iff.mp h
  rfl

lemma errList_putInode {inode : ℤ} {cell : InodeCell} (h : s.putInode inode cell = some s') :
    s'.errList = s.errList := by
  obtain ⟨_, -, rfl⟩ := Option.map_eq_some_iff.mp h
  rfl

lemma errList_setParent {inode parent : ℤ} (h : s.setParent inode parent = some s') :
    s'.errList = s.errList := by
  obtain ⟨_, -, h⟩ := Option.bind_eq_some_iff.mp h
  exact errList_putInode h

lemma noisy_blockErr {flag : Text} {level inode offset block : ℤ}
    (h : s.blockErr flag level inode offset block = some s') : Noisy s' := by
  obtain ⟨_, -, rfl⟩ := Option.map_eq_some_iff.mp h
  exact noisy_err _

lemma noisy_ite_err {c : Prop} [Decidable c] {msg : Text} (hs : Noisy s) :
    Noisy (if c then s else s.err msg) := by
  split
  · exact hs
  · exact noisy_err _

variable {h : Header}

lemma noisy_childEntry {dir inode : ℤ} (hrun : childEntry s dir inode = some s') (hs : Noisy s) :
    Noisy s' := by
  obtain ⟨_, -, hrun⟩ := Option.bind_eq_some_iff.mp hrun
  unfold Noisy
  rw [errList_setParent hrun]
  exact noisy_ite_err hs

lemma noisy_parentEntry {dir inode : ℤ} (hrun : parentEntry s dir inode = some s')
    (hs : Noisy s) : Noisy s' := by
  obtain ⟨_, -, hrun⟩ := Option.bind_eq_some_iff.mp hrun
  obtain ⟨_, -, hrun⟩ := Option.bind_eq_some_iff.mp hrun
  unfold Noisy
  rw [errList_setParent hrun]
  exact noisy_ite_err hs

lemma noisy_namedEntry {dir inode : ℤ} {name : Text}
    (hrun : namedEntry s dir inode name = some s') (hs : Noisy s) : Noisy s' := by
  unfold namedEntry at hrun
  split at hrun
  · exact Option.some.inj hrun ▸ noisy_ite_err hs
  split at hrun
  · obtain ⟨_, -, hrun⟩ := Option.bind_eq_some_iff.mp hrun
    split at hrun
    · exact noisy_parentEntry hrun hs
    · exact noisy_childEntry hrun hs
  · exact noisy_childEntry hrun hs

lemma noisy_direntRecord {e : DirentRecord} (hrun : direntRecord h s e = some s')
    (hs : Noisy s) : Noisy s' := by
  unfold direntRecord dirent at hrun
  split at hrun
  · exact Option.some.inj hrun ▸ noisy_err _
  · exact Option.some.inj hrun ▸ noisy_err _
  split at hrun
  · exact Option.some.inj hrun ▸ noisy_err _
  split at hrun
  · obtain ⟨s₁, hput, hrun⟩ := Option.bind_eq_some_iff.mp hrun
    exact noisy_namedEntry hrun (by unfold Noisy; rwa [errList_putInode hput])
  · cases hrun

lemma noisy_indirectRecord {x : IndirectRecord} (hrun : indirectRecord h s x = some s')
    (hs : Noisy s) : Noisy s' := by
  obtain ⟨s₁, hcheck, hput⟩ := Option.bind_eq_some_iff.mp hrun
  unfold Noisy
  rw [errList_putBlock hput]
  unfold checkIndirect at hcheck
  split at hcheck
  · exact noisy_blockErr hcheck
  · exact Option.some.inj hcheck ▸ hs

lemma noisy_finalBlock {val : Option BlockCell × ℕ} (hs : Noisy s) :
    Noisy (finalBlock h s val) := by
  unfold finalBlock
  split
  · exact noisy_err _
  · exact hs

lemma noisy_finalInode {val : Option InodeCell × ℕ} (hs : Noisy s) :
    Noisy (finalInode h s val) := by
  have hfirst : ∀ (c : Prop) [Decidable c] (msg : Text), Noisy (if c then s.err msg else s) := by
    intro c _ msg
    split
    · exact noisy_err _
    · exact hs
  unfold finalInode
  dsimp only
  split
  · split
    · exact noisy_err _
    · exact hfirst _ _
  · exact hfirst _ _

/-- **No message is taken back** at the end. -/
theorem noisy_finalReports (hs : Noisy s) : Noisy (finalReports h s) := by
  unfold finalReports
  exact foldl_keeps (fun _ _ _ => noisy_finalInode) (foldl_keeps (fun _ _ _ => noisy_finalBlock) hs)

end LowLevelTasks.Tables
