import LowLevelTasks.DirectoryChains
import LowLevelTasks.DirentLines

/-!
The offsets that are written for the entries of a directory, against the places of the entries
in it. They agree until the scan skips something: a block that is not there, or the records
behind one without an inode.
-/

namespace LowLevelTasks.DirentOffsets

open LowLevelTasks.CsvWriter LowLevelTasks.DirectoryBlocks LowLevelTasks.DirectoryChains
  LowLevelTasks.DirentLines LowLevelTasks.ImgReader LowLevelTasks.InodeTable LowLevelTasks.Loops
  LowLevelTasks.RubyText LowLevelTasks.ScanImage

/-! ### What is listed of a directory -/

section

-- the records of each block
variable (f : ImageFile) (os : UInt32 → List ℕ)

/-- The records that the scan takes over. A block is passed over if its number is zero, or
negative as an `int`. -/
def listed (block : UInt32) : List ℕ :=
  if 0 < toInt block then live f block (os block) else []

def listedLength (block : UInt32) : ℕ := ((listed f os block).map (recLen f block)).sum

/-- The bytes of a block that are not listed. -/
def skipped (block : UInt32) : ℕ := 1024 - listedLength f os block

def directBlocks (x : Inode) : List UInt32 := x.iBlock.toList.take 12

/-- The entries of blocks. -/
def entries (parent : ℤ) (blocks : List UInt32) : List Dirent :=
  blocks.flatMap fun block => (listed f os block).map (scannedAt f block parent)

/-- Their places in the directory, where the first of the blocks is block `k`. -/
def places (blocks : List UInt32) (k : ℕ) : List ℕ :=
  (blocks.zipIdx k).flatMap fun block => (listed f os block.1).map fun o => 1024 * block.2 + o

/-- The records of the blocks that are scanned are chained. -/
def Chained (blocks : List UInt32) : Prop :=
  ∀ block ∈ blocks, 0 < toInt block → Chain f block 0 (os block)

end

variable {f : ImageFile} {os : UInt32 → List ℕ} {parent : ℤ} {block : UInt32}
  {blocks : List UInt32} {fuel o : ℕ}

lemma directBlock_eq (hchain : 0 < toInt block → Chain f block 0 (os block)) {out : List Dirent}
    (h : directBlock f fuel parent block = .ok out) :
    out = (listed f os block).map (scannedAt f block parent) := by
  unfold directBlock at h
  unfold listed
  split at h
  · next hpos => rw [if_pos hpos, ((readDirBlock_eq_ok_iff (hchain hpos)).mp ⟨fuel, h⟩).2]
  · next hneg => rw [if_neg hneg, ← Except.ok.inj h, List.map_nil]

/-- The scan of a directory lists its blocks one after the other. -/
lemma directBlocks_eq (hchain : Chained f os blocks) {out : List Dirent}
    (h : collect (directBlock f fuel parent) blocks = .ok out) :
    out = entries f os parent blocks := by
  obtain ⟨hall, rfl⟩ := collect_eq_ok_iff.mp h
  refine List.flatMap_congr fun block hblock => ?_
  obtain ⟨found, hfound⟩ := hall block hblock
  rw [hfound, finds_ok, directBlock_eq (hchain block hblock) hfound]

/-- The scan of a list of inodes, of which one is a directory. -/
lemma readDirent_split {before after : List NumberedInode} {x : NumberedInode}
    {dirents : List Dirent} (hdir : x.inode.iMode &&& 0xF000 = 0x4000)
    (hchain : Chained f os (directBlocks x.inode))
    (h : readDirent f fuel (before ++ x :: after) = .ok dirents) :
    ∃ early late, readDirent f fuel before = .ok early ∧
      dirents = early ++ entries f os x.inodeNum (directBlocks x.inode) ++ late := by
  obtain ⟨hall, rfl⟩ := collect_eq_ok_iff.mp h
  obtain ⟨found, hfound⟩ := hall x (by simp)
  rw [if_pos hdir] at hfound
  have hown : finds (if x.inode.iMode &&& 0xF000 = 0x4000 then
      collect (directBlock f fuel x.inodeNum) (x.inode.iBlock.toList.take 12) else .ok []) =
        entries f os x.inodeNum (directBlocks x.inode) := by
    rw [if_pos hdir, hfound, finds_ok]
    exact directBlocks_eq hchain hfound
  rw [List.flatMap_append, List.flatMap_cons, ← List.append_assoc, hown]
  exact ⟨_, _, collect_eq_ok_iff.mpr ⟨fun y hy => hall y (by simp [hy]), rfl⟩, rfl⟩

/-! ### Offsets in a chain -/

/-- In a chain the lengths add up to the places. -/
lemma offsets_chain {s : ℕ} {os : List ℕ} (h : Chain f block o os) :
    offsets (s + o) ((live f block os).map (scannedAt f block parent)) =
      (live f block os).map (s + ·) := by
  induction h with
  | done => rfl
  | @record o os _ _ _ ih =>
    by_cases hinode : (recordAt f block o).inode = 0
    · have hlive : live f block (o :: os) = [] := List.takeWhile_cons_of_neg (by simpa)
      rw [hlive]
      rfl
    · have hlive : live f block (o :: os) = o :: live f block os :=
        List.takeWhile_cons_of_pos (by simpa)
      rw [hlive, List.map_cons, List.map_cons, offsets, ← ih, ← Nat.add_assoc]
      rfl

/-- The listed records do not reach behind the block. -/
lemma liveLength_le {os : List ℕ} (h : Chain f block o os) :
    o + liveLength f block os ≤ 1024 := by
  induction h with
  | done => exact le_rfl
  | @record o os _ _ hrest ih =>
    unfold liveLength at *
    by_cases hinode : (recordAt f block o).inode = 0
    · have hlive : live f block (o :: os) = [] := List.takeWhile_cons_of_neg (by simpa)
      have := hrest.le
      rw [hlive, List.map_nil, List.sum_nil]
      omega
    · have hlive : live f block (o :: os) = o :: live f block os :=
        List.takeWhile_cons_of_pos (by simpa)
      rw [hlive, List.map_cons, List.sum_cons]
      omega

lemma lengths_listed : lengths ((listed f os block).map (scannedAt f block parent)) =
    listedLength f os block := by
  unfold lengths listedLength
  rw [List.map_map]
  rfl

lemma listed_length_le (hchain : 0 < toInt block → Chain f block 0 (os block)) :
    listedLength f os block ≤ 1024 := by
  unfold listedLength listed
  split
  · next hpos => exact (Nat.zero_add _).symm.trans_le (liveLength_le (hchain hpos))
  · exact Nat.zero_le _

lemma offsets_listed (s : ℕ) (hchain : 0 < toInt block → Chain f block 0 (os block)) :
    offsets s ((listed f os block).map (scannedAt f block parent)) =
      (listed f os block).map (s + ·) := by
  unfold listed
  split
  · next hpos => exact offsets_chain (s := s) (hchain hpos)
  · rfl

/-! ### Offsets in a directory -/

lemma map_add_eq_iff {s t : ℕ} {l : List ℕ} : l.map (s + ·) = l.map (t + ·) ↔ l = [] ∨ s = t := by
  cases l with
  | nil => simp
  | cons a l =>
    simp only [List.map_cons, List.cons.injEq, reduceCtorEq, false_or]
    exact ⟨fun h => Nat.add_right_cancel h.1, fun h => by rw [h]; exact ⟨rfl, rfl⟩⟩

/-- The sums of the lengths are the places exactly if, before each block with an entry, as much
has been added up as the blocks before it have. -/
lemma offsets_entries_iff {s k : ℕ} (hchain : Chained f os blocks) :
    offsets s (entries f os parent blocks) = places f os blocks k ↔
      ∀ i block, blocks[i]? = some block → listed f os block ≠ [] →
        s + ((blocks.take i).map (listedLength f os)).sum = 1024 * (k + i) := by
  induction blocks generalizing s k with
  | nil => simp [entries, places, offsets]
  | cons b bs ih =>
    unfold Chained at hchain
    rw [List.forall_mem_cons] at hchain
    have hentries : entries f os parent (b :: bs) =
        (listed f os b).map (scannedAt f b parent) ++ entries f os parent bs := rfl
    have hplaces : places f os (b :: bs) k =
        (listed f os b).map (1024 * k + ·) ++ places f os bs (k + 1) := rfl
    have hinj : ∀ {u u' v v' : List ℕ}, u.length = u'.length →
        (u ++ v = u' ++ v' ↔ u = u' ∧ v = v') := fun hlen =>
      ⟨fun h => List.append_inj h hlen, fun h => by rw [h.1, h.2]⟩
    rw [hentries, hplaces, offsets_append, offsets_listed s hchain.1, lengths_listed,
      hinj (by rw [List.length_map, List.length_map]), map_add_eq_iff, ih hchain.2]
    constructor
    · rintro ⟨hhead, htail⟩ i block hi hne
      cases i with
      | zero =>
        obtain rfl := Option.some.inj hi
        simpa using hhead.resolve_left hne
      | succ i =>
        have := htail i block hi hne
        rw [List.take_succ_cons, List.map_cons, List.sum_cons]
        omega
    · intro h
      refine ⟨?_, fun i block hi hne => ?_⟩
      · by_cases hnil : listed f os b = []
        · exact Or.inl hnil
        · right
          simpa using h 0 b rfl hnil
      · have := h (i + 1) block hi hne
        rw [List.take_succ_cons, List.map_cons, List.sum_cons] at this
        omega

/-- What is listed of blocks and what is skipped makes up the blocks. -/
lemma sum_listed_add_skipped (hchain : Chained f os blocks) :
    (blocks.map (listedLength f os)).sum + (blocks.map (skipped f os)).sum =
      1024 * blocks.length := by
  induction blocks with
  | nil => rfl
  | cons b bs ih =>
    unfold Chained at hchain
    rw [List.forall_mem_cons] at hchain
    have hle := listed_length_le hchain.1
    have := ih hchain.2
    rw [List.map_cons, List.map_cons, List.sum_cons, List.sum_cons, List.length_cons]
    unfold skipped at *
    omega

variable (f os) in
/-- What has been skipped before a block with an entry is as much as has been added up before
the directory, which is nothing unless other inodes have its number. -/
def SkipsLast (early : ℕ) (blocks : List UInt32) : Prop :=
  ∀ i block, blocks[i]? = some block → listed f os block ≠ [] →
    ((blocks.take i).map (skipped f os)).sum = early

lemma offsets_eq_places_iff (parent : ℤ) {early : ℕ} (hchain : Chained f os blocks) :
    offsets early (entries f os parent blocks) = places f os blocks 0 ↔
      SkipsLast f os early blocks := by
  rw [offsets_entries_iff hchain]
  refine forall_congr' fun i => forall_congr' fun block => forall_congr' fun hi =>
    imp_congr_right fun _ => ?_
  have hlt : i < blocks.length := (List.getElem?_eq_some_iff.mp hi).1
  have htake : Chained f os (blocks.take i) := fun b hb => hchain b (List.mem_of_mem_take hb)
  have hsum := sum_listed_add_skipped htake
  rw [List.length_take_of_le hlt.le] at hsum
  omega

lemma Chain.recLen_pos {os : List ℕ} (h : Chain f block o os) {a : ℕ} (ha : a ∈ os) :
    0 < recLen f block a := by
  induction h with
  | done => cases ha
  | record _ hroom _ ih =>
    rcases List.mem_cons.mp ha with rfl | ha
    · omega
    · exact ih ha

/-- Every entry has a length. -/
lemma recLen_pos_of_mem_entries (hchain : Chained f os blocks) {d : Dirent}
    (hd : d ∈ entries f os parent blocks) : 0 < d.entry.recLen.toNat := by
  obtain ⟨block, hblock, hd⟩ := List.mem_flatMap.mp hd
  obtain ⟨a, ha, rfl⟩ := List.mem_map.mp hd
  unfold listed at ha
  split at ha
  · next hpos =>
    exact Chain.recLen_pos (hchain block hblock hpos) ((List.takeWhile_prefix _).subset ha)
  · cases ha

lemma le_of_mem_offsets {s a : ℕ} {ds : List Dirent} (ha : a ∈ offsets s ds) : s ≤ a := by
  induction ds generalizing s with
  | nil => cases ha
  | cons d ds ih =>
    rcases List.mem_cons.mp ha with rfl | ha
    · exact le_rfl
    · exact (Nat.le_add_right _ _).trans (ih ha)

lemma pairwise_offsets {s : ℕ} {ds : List Dirent} (h : ∀ d ∈ ds, 0 < d.entry.recLen.toNat) :
    (offsets s ds).Pairwise (· < ·) := by
  induction ds generalizing s with
  | nil => exact .nil
  | cons d ds ih =>
    rw [List.forall_mem_cons] at h
    refine List.pairwise_cons.mpr ⟨fun a ha => ?_, ih h.2⟩
    have := le_of_mem_offsets ha
    omega

/-! ### The lines of a directory -/

/-- The entries of other inodes that have the number of `x` and are written before its own. -/
def earlier (early : List Dirent) (x : NumberedInode) : List Dirent :=
  early.filter (·.direntParent = x.inodeNum)

/-- The lines of a directory are written, and those of its own entries have their places as
offsets, which increase. -/
structure RealOffsets (f : ImageFile) (os : UInt32 → List ℕ) (memory : ℕ → Memory) (img : Image)
    (early : List Dirent) (x : NumberedInode) : Prop where
  written : printDirent memory img x.inodeNum =
    .ok (entryLines memory 0 (entriesOf img x.inodeNum))
  own : ∃ late, (entriesOf img x.inodeNum).map Prod.fst =
    earlier early x ++ entries f os x.inodeNum (directBlocks x.inode) ++ late
  offset : offsets (lengths (earlier early x)) (entries f os x.inodeNum (directBlocks x.inode)) =
    places f os (directBlocks x.inode) 0
  increasing : (offsets (lengths (earlier early x))
    (entries f os x.inodeNum (directBlocks x.inode))).Pairwise (· < ·)

lemma filter_entries : (entries f os parent blocks).filter (·.direntParent = parent) =
    entries f os parent blocks := by
  refine List.filter_eq_self.mpr fun d hd => ?_
  obtain ⟨block, -, hd⟩ := List.mem_flatMap.mp hd
  obtain ⟨a, -, rfl⟩ := List.mem_map.mp hd
  exact decide_eq_true rfl

/-- **The offsets written are real** exactly if nothing is skipped before an entry, and the
lengths of all entries with the number of the directory add up to an `int`. -/
theorem realOffsets_iff {memory : ℕ → Memory} {img : Image} {before after : List NumberedInode}
    {x : NumberedInode} {early : List Dirent} (hdir : x.inode.iMode &&& 0xF000 = 0x4000)
    (hchain : Chained f os (directBlocks x.inode))
    (hearly : readDirent f fuel before = .ok early)
    (hscan : readDirent f fuel (before ++ x :: after) = .ok img.dirents) :
    RealOffsets f os memory img early x ↔
      lengths (img.dirents.filter (·.direntParent = x.inodeNum)) < 2 ^ 31 ∧
        SkipsLast f os (lengths (earlier early x)) (directBlocks x.inode) := by
  obtain ⟨early', late, hearly', hdirents⟩ := readDirent_split hdir hchain hscan
  obtain rfl := Except.ok.inj (hearly.symm.trans hearly')
  rw [← offsets_eq_places_iff x.inodeNum hchain, ← map_entriesOf]
  constructor
  · intro h
    exact ⟨(printDirent_eq_ok_iff.mp h.written).1, h.offset⟩
  · rintro ⟨hsmall, hoffset⟩
    refine ⟨printDirent_eq_ok_iff.mpr ⟨hsmall, rfl⟩, ?_, hoffset,
      pairwise_offsets fun d => recLen_pos_of_mem_entries hchain⟩
    rw [map_entriesOf, hdirents, List.filter_append, List.filter_append, filter_entries]
    exact ⟨_, rfl⟩

/-- A directory of two blocks. The second record of the first one names the inode `up`. -/
def twoBlocks (up : UInt8) : ImageFile :=
  .ofCells 8192 [(1024, 8), (1028, 8), (1056, 8), (1064, 8), (1080, 0x53), (1081, 0xEF),
    (2048, 3), (2052, 4), (2056, 5), (5249, 0x41), (5274, 2), (5288, 6), (5292, 7), (6144, 2),
    (6148, 12), (6150, 1), (6152, 46), (6156, up), (6160, 0xF4), (6161, 3), (6162, 2), (6164, 46),
    (6165, 46), (7168, 11), (7173, 4), (7174, 1), (7176, 97)]

def twoBlocksRecords (block : UInt32) : List ℕ := if block = 6 then [0, 12] else [0]

def twoBlocksImage (up : UInt8) (dirents : List Dirent) : Image where
  sblock := (twoBlocks up).superBlock 1024
  group := [(twoBlocks up).groupDesc 2048]
  bfree := []
  ifree := []
  inodes := [⟨2, (twoBlocks up).inode 5248⟩]
  dirents := dirents
  indirects := []

lemma chained_twoBlocks {up : UInt8} (hblocks : directBlocks ((twoBlocks up).inode 5248) =
      6 :: 7 :: List.replicate 10 0)
    (hrecords : ∀ r ∈ [(6, 0, 12, 1), (6, 12, 1012, 2), (7, 0, 1024, 1)],
      recLen (twoBlocks up) r.1 r.2.1 = r.2.2.1 ∧
        (recordAt (twoBlocks up) r.1 r.2.1).nameLen.toNat = r.2.2.2) :
    Chained (twoBlocks up) twoBlocksRecords (directBlocks ((twoBlocks up).inode 5248)) := by
  simp only [List.forall_mem_cons, List.not_mem_nil, false_implies, implies_true,
    and_true] at hrecords
  obtain ⟨⟨h0, n0⟩, ⟨h12, n12⟩, h7, n7⟩ := hrecords
  unfold Chained
  rw [hblocks, List.forall_mem_cons, List.forall_mem_cons]
  refine ⟨fun _ => ?_, fun _ => ?_, fun block hblock hpos => ?_⟩
  · refine .record (by rw [h0]) (by rw [h0, n0]; decide) ?_
    rw [h0]
    refine .record (by rw [h12]) (by rw [h12, n12]; decide) ?_
    rw [h12]
    exact .done
  · refine .record (by rw [h7]) (by rw [h7, n7]; decide) ?_
    rw [h7]
    exact .done
  · rw [List.eq_of_mem_replicate hblock] at hpos
    exact absurd hpos (by decide)

/-- The `..` of the directory is deleted, so that the entry in the next block is written with
the offset where the deleted one stands. -/
theorem deletedUp_misplaced :
    let x : NumberedInode := ⟨2, (twoBlocks 0).inode 5248⟩
    let img := twoBlocksImage 0 [⟨2, ⟨2, 12, 1, [46]⟩⟩, ⟨2, ⟨11, 1024, 1, [97]⟩⟩]
    readInode (twoBlocks 0) img.sblock img.group = .ok [x] ∧
    x.inode.iMode &&& 0xF000 = 0x4000 ∧
    Chained (twoBlocks 0) twoBlocksRecords (directBlocks x.inode) ∧
    readDirent (twoBlocks 0) 3 [x] = .ok img.dirents ∧
    printDirent (fun _ => ⟨[], []⟩) img 2 =
      .ok (encode "DIRENT,2,0,2,12,1,'.'\nDIRENT,2,12,11,1024,1,'a'\n".toList) ∧
    places (twoBlocks 0) twoBlocksRecords (directBlocks x.inode) 0 = [0, 1024] ∧
    ¬ RealOffsets (twoBlocks 0) twoBlocksRecords (fun _ => ⟨[], []⟩) img [] x := by
  intro x img
  have hblocks : directBlocks x.inode = 6 :: 7 :: List.replicate 10 0 := by decide +kernel
  have hplaces : places (twoBlocks 0) twoBlocksRecords (directBlocks x.inode) 0 = [0, 1024] := by
    decide +kernel
  have hentries : entries (twoBlocks 0) twoBlocksRecords 2 (directBlocks x.inode) =
      img.dirents := by decide +kernel
  refine ⟨by decide +kernel, by decide +kernel,
    chained_twoBlocks hblocks (by decide +kernel), by decide +kernel, by decide +kernel, hplaces,
    fun h => ?_⟩
  have hoffset := h.offset
  rw [hplaces, hentries] at hoffset
  exact absurd hoffset (by decide)

/-- With its `..` the directory is written with the places of its entries. -/
theorem realOffsets_iff_sample :
    let x : NumberedInode := ⟨2, (twoBlocks 2).inode 5248⟩
    RealOffsets (twoBlocks 2) twoBlocksRecords (fun _ => ⟨[], []⟩)
      (twoBlocksImage 2 [⟨2, ⟨2, 12, 1, [46]⟩⟩, ⟨2, ⟨2, 1012, 2, [46, 46]⟩⟩,
        ⟨2, ⟨11, 1024, 1, [97]⟩⟩]) [] x := by
  intro x
  have hblocks : directBlocks x.inode = 6 :: 7 :: List.replicate 10 0 := by decide +kernel
  have hchain : Chained (twoBlocks 2) twoBlocksRecords (directBlocks x.inode) :=
    chained_twoBlocks hblocks (by decide +kernel)
  have hscan : readDirent (twoBlocks 2) 3 ([] ++ [x]) = .ok [⟨2, ⟨2, 12, 1, [46]⟩⟩,
      ⟨2, ⟨2, 1012, 2, [46, 46]⟩⟩, ⟨2, ⟨11, 1024, 1, [97]⟩⟩] := by decide +kernel
  refine (realOffsets_iff (by decide +kernel) hchain rfl hscan).mpr ⟨by decide +kernel, ?_⟩
  have hskipped : skipped (twoBlocks 2) twoBlocksRecords 6 = 0 := by decide +kernel
  have hnone : listed (twoBlocks 2) twoBlocksRecords 0 = [] := by decide +kernel
  unfold SkipsLast
  rw [hblocks]
  intro i block hi hne
  match i with
  | 0 => rfl
  | 1 => simp [hskipped, earlier]
  | i + 2 =>
    rw [List.getElem?_cons_succ, List.getElem?_cons_succ] at hi
    rw [List.eq_of_mem_replicate (List.mem_of_getElem? hi)] at hne
    exact absurd hnone hne

end LowLevelTasks.DirentOffsets
