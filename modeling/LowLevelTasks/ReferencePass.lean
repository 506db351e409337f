import LowLevelTasks.Tables

/-!
The passes over the free lists, the inodes and the indirect references. What the two tables
hold is said by the lists of what has been read so far, and a record that names only what is
neither free nor taken leaves no message.
-/

namespace LowLevelTasks.ReferencePass

open LowLevelTasks.Folds LowLevelTasks.Lab3b LowLevelTasks.Passes LowLevelTasks.Reports
open LowLevelTasks.RubyArray LowLevelTasks.Tables

/-- The blocks that the pointers of an inode reference. -/
def references (q : InodeRecord) : List ℕ :=
  if q.type = .symlink then [] else q.iBlock.filter (· ≠ 0)

/-- The table of blocks after these free blocks and these references. -/
structure Blocks (blocks : ℕ) (bfrees refs : List ℕ) (hash : List (Option BlockCell)) : Prop where
  scanned : ∀ b ∈ refs, ∃ x, get hash b = some (.scanned x)
  free : ∀ b ∈ bfrees, b ∉ refs → get hash b = some .free
  other : ∀ b : ℕ, b ∉ bfrees → b ∉ refs →
    get hash b = if b < blocks then some .unreferenced else none

/-- The table of inodes after these free inodes and these records. -/
structure Inodes (inodes : ℕ) (ifrees : List ℕ) (done : List InodeRecord)
    (hash : List (Option InodeCell)) : Prop where
  scanned : ∀ q ∈ done, get hash q.number = some (.scanned ⟨q.linkCount, 0, 0⟩)
  free : ∀ n ∈ ifrees, n ∉ done.map InodeRecord.number → get hash n = some .free
  other : ∀ n : ℕ, n ∉ ifrees → n ∉ done.map InodeRecord.number →
    get hash n = if n ≤ inodes then some .unreferenced else none

variable {blocks inodes b n : ℕ} {bfrees ifrees refs : List ℕ} {done : List InodeRecord}
variable {s : St} {h : Header}

lemma blocks_start (sb : Superblock) : Blocks sb.blocks [] [] (start sb).blockHash :=
  ⟨by simp, by simp, fun b _ _ => get_replicate _ _ _⟩

lemma inodes_start (sb : Superblock) : Inodes sb.inodes [] [] (start sb).inodeHash :=
  ⟨by simp, by simp, fun n _ _ => by
    simp only [start, get_replicate, Nat.lt_succ_iff]⟩

/-! ### Free lists -/

lemma bfreeRecord_spec (hb : Blocks blocks bfrees [] s.blockHash) (b : ℕ) :
    ∃ s', bfreeRecord s b = some s' ∧ Blocks blocks (bfrees ++ [b]) [] s'.blockHash ∧
      s'.inodeHash = s.inodeHash ∧ s'.errList = s.errList := by
  obtain ⟨s', hs', hget, hinodes, herr⟩ := putBlock_spec s b .free
  refine ⟨s', hs', ⟨by simp, ?_, ?_⟩, hinodes, herr⟩
  · intro m hm _
    rw [hget]
    split
    · rfl
    · next hne => exact hb.free m (by simpa [hne] using hm) (by simp)
  · intro m hm _
    rw [List.mem_append, List.mem_singleton, not_or] at hm
    rw [hget, if_neg hm.2]
    exact hb.other m hm.1 (by simp)

lemma ifreeRecord_spec (hi : Inodes inodes ifrees [] s.inodeHash) (n : ℕ) :
    ∃ s', ifreeRecord s n = some s' ∧ Inodes inodes (ifrees ++ [n]) [] s'.inodeHash ∧
      s'.blockHash = s.blockHash ∧ s'.errList = s.errList := by
  obtain ⟨s', hs', hget, hblocks, herr⟩ := putInode_spec s n .free
  refine ⟨s', hs', ⟨by simp, ?_, ?_⟩, hblocks, herr⟩
  · intro m hm _
    rw [hget]
    split
    · rfl
    · next hne => exact hi.free m (by simpa [hne] using hm) (by simp)
  · intro m hm _
    rw [List.mem_append, List.mem_singleton, not_or] at hm
    rw [hget, if_neg hm.2]
    exact hi.other m hm.1 (by simp)

/-- **The free lists** leave no message. -/
theorem freeLists_spec (sb : Superblock) (bfrees ifrees : List ℕ) :
    ∃ s s', bfrees.foldlM bfreeRecord (start sb) = some s ∧ ifrees.foldlM ifreeRecord s = some s' ∧
      Blocks sb.blocks bfrees [] s'.blockHash ∧ Inodes sb.inodes ifrees [] s'.inodeHash ∧
      s'.errList = [] := by
  obtain ⟨s, hs, hb, hinodes, herr⟩ : ∃ s, bfrees.foldlM bfreeRecord (start sb) = some s ∧
      Blocks sb.blocks bfrees [] s.blockHash ∧ s.inodeHash = (start sb).inodeHash ∧
      s.errList = [] := by
    refine foldlM_inv (p := fun u (s : St) => Blocks sb.blocks u [] s.blockHash ∧
      s.inodeHash = (start sb).inodeHash ∧ s.errList = []) ?_ ⟨blocks_start sb, rfl, rfl⟩
    rintro u b _ s - ⟨hb, hinodes, herr⟩
    obtain ⟨s', hs', hb', hinodes', herr'⟩ := bfreeRecord_spec hb b
    exact ⟨s', hs', hb', hinodes'.trans hinodes, herr'.trans herr⟩
  obtain ⟨s', hs', hi, hblocks, herr'⟩ : ∃ s', ifrees.foldlM ifreeRecord s = some s' ∧
      Inodes sb.inodes ifrees [] s'.inodeHash ∧ s'.blockHash = s.blockHash ∧
      s'.errList = [] := by
    refine foldlM_inv (p := fun u (s' : St) => Inodes sb.inodes u [] s'.inodeHash ∧
      s'.blockHash = s.blockHash ∧ s'.errList = []) ?_ ⟨hinodes ▸ inodes_start sb, rfl, herr⟩
    rintro u n _ s - ⟨hi, hblocks, herr⟩
    obtain ⟨s', hs', hi', hblocks', herr'⟩ := ifreeRecord_spec hi n
    exact ⟨s', hs', hi', hblocks'.trans hblocks, herr'.trans herr⟩
  exact ⟨s, s', hs, hs', hblocks ▸ hb, hi, herr'⟩

/-! ### References -/

/-- The block may be referenced: it is in use, inside the file system, and not taken. -/
structure Fresh (h : Header) (bfrees refs : List ℕ) (b : ℕ) : Prop where
  above : h.reservedBlocks < b
  below : (b : ℤ) < h.blocks
  used : b ∉ bfrees
  untaken : b ∉ refs

lemma Fresh.get_eq (hf : Fresh h bfrees refs b) (hb : Blocks blocks bfrees refs s.blockHash) :
    get s.blockHash b = some .unreferenced ∨ get s.blockHash b = none := by
  rw [hb.other b hf.used hf.untaken]
  split
  · exact Or.inl rfl
  · exact Or.inr rfl

/-- A reference that is written down. -/
lemma putReference_spec (hb : Blocks blocks bfrees refs s.blockHash) (b : ℕ) (x : Reference) :
    ∃ s', s.putBlock b (.scanned x) = some s' ∧
      Blocks blocks bfrees (refs ++ [b]) s'.blockHash ∧
      s'.inodeHash = s.inodeHash ∧ s'.errList = s.errList := by
  obtain ⟨s', hs', hget, hinodes, herr⟩ := putBlock_spec s b (.scanned x)
  refine ⟨s', hs', ⟨?_, ?_, ?_⟩, hinodes, herr⟩
  · intro m hm
    rw [hget]
    split
    · exact ⟨x, rfl⟩
    · next hne => exact hb.scanned m (by simpa [hne] using hm)
  all_goals
    intro m hm hm'
    rw [List.mem_append, List.mem_singleton, not_or] at hm'
    rw [hget, if_neg hm'.2]
  · exact hb.free m hm hm'.1
  · exact hb.other m hm hm'.1

lemma checkCell_fresh (hf : Fresh h bfrees refs b) (hb : Blocks blocks bfrees refs s.blockHash)
    (level inode offset : ℤ) : checkCell s level inode offset b = some s := by
  unfold checkCell
  rcases hf.get_eq hb with hget | hget <;> rw [hget]

lemma checkRange_fresh (hf : Fresh h bfrees refs b) (level inode offset : ℤ) :
    checkRange h s level inode offset b = some s := by
  unfold checkRange
  rw [if_pos ⟨hf.above, hf.below⟩]

/-- **One pointer** to a fresh block is silent. -/
theorem iBlock_spec (hf : Fresh h bfrees refs b) (hb : Blocks blocks bfrees refs s.blockHash)
    (h0 : b ≠ 0) (inode : ℤ) (num : ℕ) :
    ∃ s', Lab3b.iBlock h inode s num b = some s' ∧
      Blocks blocks bfrees (refs ++ [b]) s'.blockHash ∧
      s'.inodeHash = s.inodeHash ∧ s'.errList = s.errList := by
  unfold Lab3b.iBlock
  rw [if_neg (by exact_mod_cast h0)]
  simp only [Option.bind_eq_bind, Option.bind_some, checkRange_fresh hf, checkCell_fresh hf hb]
  exact putReference_spec hb b _

/-- **One indirect reference** to a fresh block is silent. -/
theorem indirectRecord_spec {x : IndirectRecord} (hf : Fresh h bfrees refs x.refBlock)
    (hb : Blocks blocks bfrees refs s.blockHash) :
    ∃ s', indirectRecord h s x = some s' ∧
      Blocks blocks bfrees (refs ++ [x.refBlock]) s'.blockHash ∧
      s'.inodeHash = s.inodeHash ∧ s'.errList = s.errList := by
  have hflag : indirectFlag h s x.refBlock = none := by
    unfold indirectFlag
    rw [if_neg hf.below.not_ge, if_neg hf.above.not_ge]
    rcases hf.get_eq hb with hget | hget <;> rw [hget]
  unfold indirectRecord indirect checkIndirect
  rw [hflag]
  exact putReference_spec hb x.refBlock _

/-! ### The inodes -/

/-- What is referenced is referenced once, inside the file system, and is not free. -/
structure Referable (h : Header) (bfrees refs : List ℕ) : Prop where
  nodup : refs.Nodup
  inside : ∀ b ∈ refs, h.reservedBlocks < b ∧ (b : ℤ) < h.blocks
  used : ∀ b ∈ refs, b ∉ bfrees

lemma Referable.fresh {u v : List ℕ} (hr : Referable h bfrees (u ++ b :: v)) :
    Fresh h bfrees u b where
  above := (hr.inside b (by simp)).1
  below := (hr.inside b (by simp)).2
  used := hr.used b (by simp)
  untaken hb := (List.nodup_append.mp hr.nodup).2.2 b hb b (by simp) rfl

lemma Referable.left {u v : List ℕ} (hr : Referable h bfrees (u ++ v)) : Referable h bfrees u where
  nodup := (List.nodup_append.mp hr.nodup).1
  inside b hb := hr.inside b (by simp [hb])
  used b hb := hr.used b (by simp [hb])

/-- The pointers of one inode, of which those that are zero are skipped. -/
lemma iBlocks_spec {ptrs : List (ℕ × ℕ)} (hb : Blocks blocks bfrees refs s.blockHash)
    (hr : Referable h bfrees (refs ++ (ptrs.map Prod.fst).filter (· ≠ 0))) (inode : ℤ) :
    ∃ s', ptrs.foldlM (fun s p => Lab3b.iBlock h inode s p.2 p.1) s = some s' ∧
      Blocks blocks bfrees (refs ++ (ptrs.map Prod.fst).filter (· ≠ 0)) s'.blockHash ∧
      s'.inodeHash = s.inodeHash ∧ s'.errList = s.errList := by
  refine foldlM_inv (p := fun u (s' : St) =>
    Blocks blocks bfrees (refs ++ (u.map Prod.fst).filter (· ≠ 0)) s'.blockHash ∧
      s'.inodeHash = s.inodeHash ∧ s'.errList = s.errList) ?_ ⟨by simpa using hb, rfl, rfl⟩
  rintro u ⟨b, num⟩ v s₁ rfl ⟨hb₁, hinodes, herr⟩
  rw [List.map_append, List.filter_append, List.map_singleton]
  by_cases h0 : b = 0
  · refine ⟨s₁, ?_, by simpa [h0] using hb₁, hinodes, herr⟩
    simp [Lab3b.iBlock, h0]
  · rw [List.map_append, List.filter_append, List.map_cons, List.filter_cons_of_pos (by simpa),
      ← List.append_assoc] at hr
    obtain ⟨s', hs', hb', hinodes', herr'⟩ := iBlock_spec hr.fresh hb₁ h0 inode num
    refine ⟨s', hs', ?_, hinodes'.trans hinodes, herr'.trans herr⟩
    rwa [List.filter_cons_of_pos (by simpa), List.filter_nil, ← List.append_assoc]

/-- **One inode** that is neither free nor read before is silent if its references are. -/
theorem inodeRecord_spec {q : InodeRecord} (hb : Blocks blocks bfrees refs s.blockHash)
    (hi : Inodes inodes ifrees done s.inodeHash)
    (hr : Referable h bfrees (refs ++ references q)) (hfree : q.number ∉ ifrees)
    (hnew : q.number ∉ done.map InodeRecord.number) :
    ∃ s', inodeRecord h s q = some s' ∧
      Blocks blocks bfrees (refs ++ references q) s'.blockHash ∧
      Inodes inodes ifrees (done ++ [q]) s'.inodeHash ∧ s'.errList = s.errList := by
  have hcell : get s.inodeHash q.number ≠ some .free := by
    rw [hi.other _ hfree hnew]
    split <;> simp
  obtain ⟨s₁, hs₁, hget, hblocks, herr⟩ :=
    putInode_spec s q.number (.scanned ⟨q.linkCount, 0, 0⟩)
  have hi₁ : Inodes inodes ifrees (done ++ [q]) s₁.inodeHash := by
    refine ⟨?_, ?_, ?_⟩
    · intro q' hq'
      rw [hget]
      rcases List.mem_append.mp hq' with hq' | hq'
      · have hne : q'.number ≠ q.number := fun hn => hnew (hn ▸ List.mem_map_of_mem hq')
        rw [if_neg hne]
        exact hi.scanned q' hq'
      · rw [List.mem_singleton.mp hq', if_pos rfl]
    all_goals
      intro n hn hn'
      rw [List.map_append, List.mem_append, List.map_singleton, List.mem_singleton, not_or] at hn'
      rw [hget, if_neg hn'.2]
    · exact hi.free n hn hn'.1
    · exact hi.other n hn hn'.1
  unfold inodeRecord
  rw [if_neg hcell]
  simp only [hs₁, Option.bind_eq_bind, Option.bind_some]
  unfold references at hr ⊢
  split
  · rw [List.append_nil]
    exact ⟨s₁, rfl, hblocks ▸ hb, hi₁, herr⟩
  · next hsym =>
    have hptrs : q.iBlock.zipIdx.map Prod.fst = q.iBlock := List.zipIdx_map_fst 0 q.iBlock
    rw [if_neg hsym, ← hptrs] at hr
    obtain ⟨s', hs', hb', hinodes', herr'⟩ := iBlocks_spec (hblocks ▸ hb) hr q.number
    rw [hptrs] at hb'
    exact ⟨s', hs', hb', hinodes' ▸ hi₁, herr'.trans herr⟩

/-- **The inodes** leave no message. -/
theorem inodeRecords_spec {qs : List InodeRecord} (hb : Blocks blocks bfrees [] s.blockHash)
    (hi : Inodes inodes ifrees [] s.inodeHash) (hr : Referable h bfrees (qs.flatMap references))
    (hfree : ∀ q ∈ qs, q.number ∉ ifrees) (hnodup : (qs.map InodeRecord.number).Nodup) :
    ∃ s', qs.foldlM (inodeRecord h) s = some s' ∧
      Blocks blocks bfrees (qs.flatMap references) s'.blockHash ∧
      Inodes inodes ifrees qs s'.inodeHash ∧ s'.errList = s.errList := by
  refine foldlM_inv (p := fun u (s' : St) =>
    Blocks blocks bfrees (u.flatMap references) s'.blockHash ∧
    Inodes inodes ifrees u s'.inodeHash ∧ s'.errList = s.errList) ?_ ⟨hb, hi, rfl⟩
  rintro u q v s₁ rfl ⟨hb₁, hi₁, herr⟩
  have hnew : q.number ∉ u.map InodeRecord.number := fun hn => by
    rw [List.map_append, List.nodup_append] at hnodup
    exact hnodup.2.2 _ hn q.number (by simp) rfl
  rw [List.flatMap_append, List.flatMap_cons, ← List.append_assoc] at hr
  obtain ⟨s', hs', hb', hi', herr'⟩ :=
    inodeRecord_spec hb₁ hi₁ hr.left (hfree q (by simp)) hnew
  refine ⟨s', hs', ?_, hi', herr'.trans herr⟩
  rwa [List.flatMap_append, List.flatMap_singleton]

/-! ### The indirect references -/

/-- **The indirect references** leave no message. -/
theorem indirectRecords_spec {xs : List IndirectRecord}
    (hb : Blocks blocks bfrees refs s.blockHash)
    (hr : Referable h bfrees (refs ++ xs.map IndirectRecord.refBlock)) :
    ∃ s', xs.foldlM (indirectRecord h) s = some s' ∧
      Blocks blocks bfrees (refs ++ xs.map IndirectRecord.refBlock) s'.blockHash ∧
      s'.inodeHash = s.inodeHash ∧ s'.errList = s.errList := by
  refine foldlM_inv (p := fun u (s' : St) =>
    Blocks blocks bfrees (refs ++ u.map IndirectRecord.refBlock) s'.blockHash ∧
      s'.inodeHash = s.inodeHash ∧ s'.errList = s.errList) ?_ ⟨by simpa using hb, rfl, rfl⟩
  rintro u x v s₁ rfl ⟨hb₁, hinodes, herr⟩
  rw [List.map_append, List.map_cons, ← List.append_assoc] at hr
  obtain ⟨s', hs', hb', hinodes', herr'⟩ := indirectRecord_spec hr.fresh hb₁
  refine ⟨s', hs', ?_, hinodes'.trans hinodes, herr'.trans herr⟩
  rwa [List.map_append, List.map_singleton, ← List.append_assoc]

/-! ### The final reports -/

lemma get_of_mem_zipIdx {α : Type} {xs : List (Option α)} {val : Option α × ℕ}
    (hval : val ∈ xs.zipIdx) : get xs val.2 = val.1 := by
  rw [get_natCast, (List.mem_zipIdx_iff_getElem? (x := val)).mp hval]
  rfl

/-- **The final reports** are silent if no used block or inode is unreferenced, and the links
of every inode are as many as it counts. -/
theorem finalReports_silent
    (hblock : ∀ b : ℕ, h.reservedBlocks < b → get s.blockHash b ≠ some .unreferenced)
    (hinode : ∀ n : ℕ, h.reservedInodes < n → get s.inodeHash n ≠ some .unreferenced)
    (hlinks : ∀ (n : ℕ) e, get s.inodeHash n = some (.scanned e) → e.links = e.linkCount) :
    finalReports h s = s := by
  have hblocks : s.blockHash.zipIdx.foldl (finalBlock h) s = s := by
    refine foldl_keeps (p := (· = s)) (fun val hval s' hs' => ?_) rfl
    subst hs'
    unfold finalBlock
    rw [if_neg]
    rintro ⟨habove, hcell⟩
    exact hblock _ habove (by rw [get_of_mem_zipIdx hval, hcell])
  unfold finalReports
  rw [hblocks]
  refine foldl_keeps (p := (· = s)) (fun val hval s' hs' => ?_) rfl
  subst hs'
  have hget := get_of_mem_zipIdx hval
  unfold finalInode
  dsimp only
  rw [if_neg fun hc => hinode _ hc.1 (by rw [hget, hc.2])]
  split
  · next e he =>
    rw [if_neg (not_not.mpr (hlinks _ e (by rw [hget, he])))]
  · rfl

end LowLevelTasks.ReferencePass
