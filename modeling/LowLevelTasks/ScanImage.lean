import LowLevelTasks.DirectoryBlocks
import LowLevelTasks.FreeList
import LowLevelTasks.PointerBlocks
import Mathlib.Algebra.Order.BigOperators.Group.List

/-!
The scan of a whole image. With one group the inodes found have ascending numbers, each
directory entry and each indirect record belongs to one of them, and they stand in the order
of their inodes.
-/

namespace LowLevelTasks.ScanImage

open LowLevelTasks.ImgReader LowLevelTasks.Loops LowLevelTasks.DirectoryBlocks
  LowLevelTasks.FreeList LowLevelTasks.IndirectBlocks LowLevelTasks.InodeTable
  LowLevelTasks.PointerBlocks

structure Image where
  sblock : SuperBlock
  group : List GroupDesc
  bfree : List ℤ
  ifree : List ℤ
  inodes : List NumberedInode
  dirents : List Dirent
  indirects : List Indirect
deriving DecidableEq

def scanImage (fuel : ℕ) (f : ImageFile) : Except Stop Image := do
  let sblock ← readSuperblock f
  let group ← readGroup f sblock
  let bfree ← readFreeList f sblock group true
  let ifree ← readFreeList f sblock group false
  let inodes ← readInode f sblock group
  let dirents ← readDirent f fuel inodes
  let indirects ← readIndirect f inodes
  .ok ⟨sblock, group, bfree.1, ifree.1, inodes, dirents, indirects⟩

variable {f : ImageFile} {s : SuperBlock} {group : List GroupDesc}

lemma scanImage_ok {fuel : ℕ} {bfree ifree : List ℤ × ℕ} {inodes : List NumberedInode}
    {dirents : List Dirent} {indirects : List Indirect} (hsblock : readSuperblock f = .ok s)
    (hgroup : readGroup f s = .ok group) (hbfree : readFreeList f s group true = .ok bfree)
    (hifree : readFreeList f s group false = .ok ifree)
    (hinodes : readInode f s group = .ok inodes)
    (hdirents : readDirent f fuel inodes = .ok dirents)
    (hindirects : readIndirect f inodes = .ok indirects) :
    scanImage fuel f = .ok ⟨s, group, bfree.1, ifree.1, inodes, dirents, indirects⟩ := by
  unfold scanImage
  rw [hsblock, ok_bind, hgroup, ok_bind, hbfree, ok_bind, hifree, ok_bind, hinodes, ok_bind,
    hdirents, ok_bind, hindirects, ok_bind]

/-! ### Free lists -/

/-- The size stored with a free list is its length, and its numbers are positive. -/
lemma readFreeList_spec {isBfree : Bool} {l : List ℤ × ℕ}
    (h : readFreeList f s group isBfree = .ok l) : l.2 = l.1.length ∧ ∀ n ∈ l.1, 0 < n := by
  rcases le_or_gt (perGroup s isBfree) 0 with hnonpos | hpos
  · obtain ⟨-, rfl⟩ := (readFreeList_of_nonpos hnonpos).mp h
    simp
  · obtain ⟨hbits, hsmall⟩ := toInt_pos_iff.mp hpos
    obtain ⟨-, rfl⟩ := (readFreeList_eq_ok_iff hbits hsmall).mp h
    refine ⟨rfl, fun n hn => ?_⟩
    obtain ⟨t, -, rfl⟩ := List.mem_map.mp hn
    exact Int.natCast_pos.mpr (Nat.succ_pos _)

/-! ### Inodes -/

/-- The inodes have ascending numbers up to the number of inodes. -/
structure Ascending (n : ℕ) (inodes : List NumberedInode) : Prop where
  pairwise : inodes.Pairwise fun x y => x.inodeNum < y.inodeNum
  range : ∀ x ∈ inodes, 1 ≤ x.inodeNum ∧ x.inodeNum ≤ n

/-- A number is given by the slot in the table, and a slot that is looked into exists. -/
lemma readInode_range {l : List NumberedInode} (h : readInode f s group = .ok l) :
    ∀ x ∈ l, 1 ≤ x.inodeNum ∧ x.inodeNum ≤ s.sInodesCount.toNat := by
  obtain ⟨-, rfl⟩ := readInode_eq_ok_iff.mp h
  intro x hx
  obtain ⟨i, hi, j, hj, ⟨hv, hu⟩, rfl⟩ := mem_scanned_iff.mp hx
  obtain ⟨halloc, -, -⟩ := allocated_of_visited hi hj hv hu
  have := halloc.2.2.1
  refine ⟨by simp, ?_⟩
  simp only
  omega

lemma readInode_ascending {l : List NumberedInode} (hgroup : group.length = 1)
    (h : readInode f s group = .ok l) : Ascending s.sInodesCount.toNat l := by
  refine ⟨?_, readInode_range h⟩
  obtain ⟨-, rfl⟩ := readInode_eq_ok_iff.mp h
  rw [hgroup, List.range_one, List.flatMap_singleton]
  exact pairwise_table

/-! ### Directory entries -/

/-- The sum of the lengths of the records. -/
def lengths (l : List Dirent) : ℕ := (l.map fun d => d.entry.recLen.toNat).sum

/-- The entries belong to a directory, and the offset behind them is not above a bound. -/
def EntriesOf (parent : ℤ) (bound : ℕ) (l : List Dirent) : Prop :=
  (∀ d ∈ l, d.direntParent = parent) ∧ lengths l ≤ bound

variable {parent readBlock : ℤ} {fuel : ℕ}

lemma entriesOf_nil (bound : ℕ) : EntriesOf parent bound [] := ⟨by simp, by simp [lengths]⟩

lemma entriesOf_flatMap {α : Type} {as : List α} {g : α → List Dirent} {bound : ℕ}
    (h : ∀ a ∈ as, EntriesOf parent bound (g a)) :
    EntriesOf parent (as.length * bound) (as.flatMap g) := by
  constructor
  · intro d hd
    obtain ⟨a, ha, hd⟩ := List.mem_flatMap.mp hd
    exact (h a ha).1 d hd
  · induction as with
    | nil => simp [lengths]
    | cons a as ih =>
      rw [List.forall_mem_cons] at h
      have hhead := h.1.2
      have htail := ih h.2
      unfold lengths at *
      rw [List.flatMap_cons, List.map_append, List.sum_append, List.length_cons, Nat.add_one_mul]
      omega

/-- Every record starts inside the block, so that the offset does not get far behind it. -/
def Scanned (parent : ℤ) (st : BlockScan) : Prop :=
  st.offset = lengths st.dirents ∧ EntriesOf parent (1023 + 65535) st.dirents

lemma entryRound_keeps {st : BlockScan} {r : ForInStep BlockScan} (hst : Scanned parent st)
    (h : entryRound f parent readBlock st = .ok r) : Scanned parent r.value := by
  obtain ⟨hoffset, hparent, -⟩ := id hst
  unfold entryRound at h
  split at h
  · next hgo =>
    obtain ⟨entry, -, h⟩ := bind_eq_ok_iff.mp h
    obtain ⟨name, -, h⟩ := bind_eq_ok_iff.mp h
    obtain ⟨offset, hint, h⟩ := bind_eq_ok_iff.mp h
    obtain ⟨feeler, -, h⟩ := bind_eq_ok_iff.mp h
    obtain ⟨base, -, h⟩ := bind_eq_ok_iff.mp h
    obtain ⟨blockOffset, -, h⟩ := bind_eq_ok_iff.mp h
    obtain rfl := Except.ok.inj h
    obtain ⟨-, rfl⟩ := int_eq_ok_iff.mp hint
    have hlengths : ∀ d : Dirent,
        lengths (st.dirents ++ [d]) = lengths st.dirents + d.entry.recLen.toNat := fun d => by
      simp [lengths]
    have hlen := entry.recLen.toNat_lt
    have hin := hgo.2
    unfold blockSize at hin
    unfold Scanned
    dsimp only [ForInStep.value]
    refine ⟨?_, ?_, ?_⟩
    · rw [hlengths, Nat.cast_add, ← hoffset]
    · intro d hd
      rcases List.mem_append.mp hd with hd | hd
      · exact hparent d hd
      · rw [List.mem_singleton.mp hd]
    · rw [hlengths]
      simp only
      omega
  · obtain rfl := Except.ok.inj h
    exact hst

lemma readDirBlock_entriesOf {out : List Dirent}
    (h : readDirBlock f fuel parent readBlock = .ok out) :
    EntriesOf parent (1023 + 65535) out := by
  obtain ⟨st, hstart, h⟩ := bind_eq_ok_iff.mp h
  obtain ⟨st', hloop, h⟩ := bind_eq_ok_iff.mp h
  obtain rfl := Except.ok.inj h
  obtain ⟨o, -, hstart⟩ := bind_eq_ok_iff.mp hstart
  obtain ⟨feeler, -, hstart⟩ := bind_eq_ok_iff.mp hstart
  obtain rfl := Except.ok.inj hstart
  have hscanned : Scanned parent st' :=
    whileLoop_keeps (fun _ _ => entryRound_keeps) ⟨rfl, entriesOf_nil _⟩ hloop
  exact hscanned.2

/-- The entries of a directory, all its blocks together. -/
def direntBound : ℕ := 12 * (1023 + 65535)

/-- **The entries found** are those of the inodes, one inode after the other. -/
theorem readDirent_spec {inodes : List NumberedInode} {out : List Dirent}
    (h : readDirent f fuel inodes = .ok out) :
    ∃ found : NumberedInode → List Dirent, out = inodes.flatMap found ∧
      ∀ x ∈ inodes, EntriesOf x.inodeNum direntBound (found x) := by
  obtain ⟨hall, rfl⟩ := collect_eq_ok_iff.mp h
  refine ⟨_, rfl, fun x hx => ?_⟩
  obtain ⟨found, hfound⟩ := hall x hx
  simp only [hfound, finds_ok]
  split at hfound
  · obtain ⟨hblocks, rfl⟩ := collect_eq_ok_iff.mp hfound
    have htwelve : direntBound = (x.inode.iBlock.toList.take 12).length * (1023 + 65535) := by
      simp [direntBound]
    rw [htwelve]
    refine entriesOf_flatMap fun block hblock => ?_
    obtain ⟨entries, hentries⟩ := hblocks block hblock
    rw [hentries, finds_ok]
    unfold directBlock at hentries
    split at hentries
    · exact readDirBlock_entriesOf hentries
    · exact Except.ok.inj hentries ▸ entriesOf_nil _
  · exact Except.ok.inj hfound ▸ entriesOf_nil _

/-! ### Indirect records -/

lemma inode_of_mem_records {inode : ℤ} {level logical : ℕ} {root : UInt32} {r : Indirect}
    (h : r ∈ records f inode level root logical) : r.inode = .ofInt inode := by
  induction level generalizing root logical with
  | zero =>
    obtain ⟨k, -, -, rfl | ⟨hlevel, -⟩⟩ := mem_records_iff.mp h
    · rfl
    · omega
  | succ level ih =>
    obtain ⟨k, -, -, rfl | ⟨-, hbelow⟩⟩ := mem_records_iff.mp h
    · rfl
    · exact ih hbelow

theorem readIndirect_spec {inodes : List NumberedInode} {out : List Indirect}
    (h : readIndirect f inodes = .ok out) :
    ∃ found : NumberedInode → List Indirect, out = inodes.flatMap found ∧
      ∀ x ∈ inodes, ∀ r ∈ found x, r.inode = .ofInt x.inodeNum := by
  obtain ⟨hall, rfl⟩ := collect_eq_ok_iff.mp h
  refine ⟨_, rfl, fun x hx r hr => ?_⟩
  obtain ⟨found, hfound⟩ := hall x hx
  rw [hfound, finds_ok] at hr
  obtain ⟨-, rfl⟩ := inodeIndirect_eq_ok_iff.mp hfound
  obtain ⟨top, -, hr⟩ := List.mem_flatMap.mp hr
  exact inode_of_mem_records hr

/-! ### In the order of the inodes -/

section key

variable {α : Type} {key : α → ℤ} {l : List α}

lemma filter_append_filter (h : l.Pairwise fun a b => key a ≤ key b) (m : ℤ) :
    l.filter (key · < m) ++ l.filter (m ≤ key ·) = l := by
  induction l with
  | nil => rfl
  | cons a l ih =>
    rw [List.pairwise_cons] at h
    by_cases ha : key a < m
    · rw [List.filter_cons_of_pos (by simpa), List.filter_cons_of_neg (by simpa),
        List.cons_append, ih h.2]
    · have hall : ∀ b ∈ a :: l, m ≤ key b := List.forall_mem_cons.mpr
        ⟨not_lt.mp ha, fun b hb => (not_lt.mp ha).trans (h.1 b hb)⟩
      rw [List.filter_eq_nil_iff.mpr fun b hb => by simpa using hall b hb,
        List.filter_eq_self.mpr fun b hb => by simpa using hall b hb, List.nil_append]

/-- Taking the elements key by key leaves a list as it is that is sorted by the keys. -/
theorem flatMap_filter_key (n : ℕ) (h : l.Pairwise fun a b => key a ≤ key b)
    (hkey : ∀ a ∈ l, 1 ≤ key a ∧ key a ≤ n) :
    ((List.range' 1 n).flatMap fun i : ℕ => l.filter (key · = i)) = l := by
  induction n generalizing l with
  | zero =>
    cases l with
    | nil => rfl
    | cons a l =>
      have := hkey a (by simp)
      omega
  | succ n ih =>
    rw [← List.range'_append_1, List.flatMap_append, Nat.add_comm 1 n]
    have hlow : ∀ i ∈ List.range' 1 n, l.filter (key · = i) =
        (l.filter (key · < (n + 1 : ℕ))).filter (key · = i) := by
      intro i hi
      rw [List.mem_range'_1] at hi
      rw [List.filter_filter]
      refine List.filter_congr fun a _ => Bool.eq_iff_iff.mpr ?_
      simp only [Bool.and_eq_true, decide_eq_true_eq]
      omega
    have hhigh : l.filter (key · = (n + 1 : ℕ)) = l.filter ((n + 1 : ℕ) ≤ key ·) := by
      refine List.filter_congr fun a ha => Bool.eq_iff_iff.mpr ?_
      have := hkey a ha
      simp only [decide_eq_true_eq]
      omega
    rw [List.flatMap_congr hlow, ih (h.filter _) fun a ha => ?_]
    · rw [List.range'_one, List.flatMap_singleton, hhigh]
      exact filter_append_filter h _
    · obtain ⟨hmem, hlt⟩ := List.mem_filter.mp ha
      have := hkey a hmem
      simp only [decide_eq_true_eq] at hlt
      omega

variable {n : ℕ} {inodes : List NumberedInode} {found : NumberedInode → List α}

/-- What is found for the inodes in turn is sorted by them. -/
lemma Ascending.pairwise_flatMap (hasc : Ascending n inodes)
    (hfound : ∀ x ∈ inodes, ∀ a ∈ found x, key a = x.inodeNum) :
    (inodes.flatMap found).Pairwise fun a b => key a ≤ key b := by
  rw [List.pairwise_flatMap]
  constructor
  · intro x hx
    refine List.pairwise_of_forall_mem_list fun a ha b hb => ?_
    rw [hfound x hx a ha, hfound x hx b hb]
  · refine hasc.pairwise.imp_of_mem fun {x y} hx hy hxy a ha b hb => ?_
    rw [hfound x hx a ha, hfound y hy b hb]
    exact hxy.le

lemma Ascending.range_flatMap (hasc : Ascending n inodes)
    (hfound : ∀ x ∈ inodes, ∀ a ∈ found x, key a = x.inodeNum) :
    ∀ a ∈ inodes.flatMap found, 1 ≤ key a ∧ key a ≤ n := by
  intro a ha
  obtain ⟨x, hx, ha⟩ := List.mem_flatMap.mp ha
  rw [hfound x hx a ha]
  exact hasc.range x hx

end key

/-- The entries of one directory are those found for its inode. -/
lemma Ascending.lengths_le {n bound : ℕ} {inodes : List NumberedInode}
    {found : NumberedInode → List Dirent} (hasc : Ascending n inodes)
    (hfound : ∀ x ∈ inodes, EntriesOf x.inodeNum bound (found x)) (inode : ℤ) :
    lengths ((inodes.flatMap found).filter (·.direntParent = inode)) ≤ bound := by
  obtain ⟨hpairwise, -⟩ := hasc
  induction inodes with
  | nil => exact Nat.zero_le _
  | cons x inodes ih =>
    rw [List.pairwise_cons] at hpairwise
    rw [List.forall_mem_cons] at hfound
    rw [List.flatMap_cons, List.filter_append]
    by_cases hx : x.inodeNum = inode
    · have htail : (inodes.flatMap found).filter (·.direntParent = inode) = [] := by
        refine List.filter_eq_nil_iff.mpr fun d hd => ?_
        obtain ⟨y, hy, hd⟩ := List.mem_flatMap.mp hd
        have hlt := hpairwise.1 y hy
        rw [(hfound.2 y hy).1 d hd]
        simp only [decide_eq_true_eq]
        omega
      rw [htail, List.append_nil, List.filter_eq_self.mpr fun d hd => by
        simpa [hfound.1.1 d hd] using hx]
      exact hfound.1.2
    · rw [List.filter_eq_nil_iff.mpr fun d hd => by simpa [hfound.1.1 d hd] using hx,
        List.nil_append]
      exact ih hfound.2 hpairwise.2

/-! ### Images with one group -/

/-- What a scan finds in the order of the inodes. -/
structure Ordered (img : Image) : Prop where
  group : ∃ g, img.group = [g]
  bfree : ∀ n ∈ img.bfree, 0 < n
  ifree : ∀ n ∈ img.ifree, 0 < n
  inodes : Ascending img.sblock.sInodesCount.toNat img.inodes
  dirents : ∃ found : NumberedInode → List Dirent, img.dirents = img.inodes.flatMap found ∧
    ∀ x ∈ img.inodes, EntriesOf x.inodeNum direntBound (found x)
  indirects : ∃ found : NumberedInode → List Indirect,
    img.indirects = img.inodes.flatMap found ∧
    ∀ x ∈ img.inodes, ∀ r ∈ found x, r.inode = .ofInt x.inodeNum

/-- **The scan of an image with one group** keeps the order of the inodes. -/
theorem scanImage_ordered {img : Image} (h : scanImage fuel f = .ok img)
    (hgroup : img.group.length = 1) : Ordered img := by
  obtain ⟨sblock, -, h⟩ := bind_eq_ok_iff.mp h
  obtain ⟨group, -, h⟩ := bind_eq_ok_iff.mp h
  obtain ⟨bfree, hbfree, h⟩ := bind_eq_ok_iff.mp h
  obtain ⟨ifree, hifree, h⟩ := bind_eq_ok_iff.mp h
  obtain ⟨inodes, hinodes, h⟩ := bind_eq_ok_iff.mp h
  obtain ⟨dirents, hdirents, h⟩ := bind_eq_ok_iff.mp h
  obtain ⟨indirects, hindirects, h⟩ := bind_eq_ok_iff.mp h
  obtain rfl := Except.ok.inj h
  exact
    { group := List.length_eq_one_iff.mp hgroup
      bfree := (readFreeList_spec hbfree).2
      ifree := (readFreeList_spec hifree).2
      inodes := readInode_ascending hgroup hinodes
      dirents := readDirent_spec hdirents
      indirects := readIndirect_spec hindirects }

end LowLevelTasks.ScanImage
