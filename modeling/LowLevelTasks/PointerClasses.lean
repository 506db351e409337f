import LowLevelTasks.CsvWriter
import LowLevelTasks.Messages

/-!
Pointers of inodes, from the image to the analyser. They are written as `int`, so that those
from `2 ^ 31` on come out negative, and the analyser looks first whether a pointer is behind
the reserved blocks.
-/

namespace LowLevelTasks.PointerClasses

open LowLevelTasks.CsvWriter LowLevelTasks.DirectoryBlocks
  LowLevelTasks.FreeList LowLevelTasks.ImgReader LowLevelTasks.IndirectBlocks
  LowLevelTasks.InodeTable LowLevelTasks.Lab3b LowLevelTasks.Loops LowLevelTasks.Messages
  LowLevelTasks.RubyArray LowLevelTasks.RubyText LowLevelTasks.ScanImage LowLevelTasks.Tables

/-! ### What is written and read -/

section

variable (strftime : UInt32 → Text)

/-- The fields of the line of an inode. -/
def inodeLineFields (x : NumberedInode) : List Text :=
  ["INODE".toList, intText x.inodeNum, [formatSymbol x.inode.iMode],
    Nat.toDigits 8 (x.inode.iMode.toNat % 4096), decimal x.inode.iUid.toNat,
    decimal x.inode.iGid.toNat, decimal x.inode.iLinksCount.toNat,
    strftime x.inode.iCtime, strftime x.inode.iMtime, strftime x.inode.iAtime,
    unsignedText x.inode.iSize, unsignedText x.inode.iBlocks] ++
      (printedPointers x.inode).map unsignedText

lemma printInode_eq (img : Image) (n : ℤ) : printInode strftime img n =
    (img.inodes.filter (·.inodeNum = n)).flatMap fun x => line (inodeLineFields strftime x) :=
  (flatMap_filter _ _ _).symm

/-- The number that the analyser reads in the line of an inode. -/
def parsedNumber (x : NumberedInode) : ℤ :=
  toI (field (split (csv (inodeLineFields strftime x))) 1)

/-- A pointer as the analyser reads it in the line of an inode. -/
def parsedPointer (x : NumberedInode) (num : Fin 15) : ℤ :=
  toI (field (split (csv (inodeLineFields strftime x))) (num + 12))

end

variable {strftime : UInt32 → Text} {memory : ℕ → Memory} {img : Image} {x : NumberedInode}
  {num : Fin 15} {h : Header} {s s' : St}

lemma split_inodeLine (htime : ∀ t, ',' ∉ strftime t) :
    split (csv (inodeLineFields strftime x)) = inodeLineFields strftime x := by
  have hdecimal : ∀ m : ℕ, ',' ∉ decimal m := fun m h =>
    absurd (isDigit_of_mem_decimal h) (by decide)
  have hmode : ',' ∉ Nat.toDigits 8 (x.inode.iMode.toNat % 4096) := fun h =>
    absurd (Nat.isDigit_of_mem_toDigits (by omega) (by omega) h) (by decide)
  have hsymbol : ',' ∉ [formatSymbol x.inode.iMode] := by
    unfold formatSymbol
    dsimp only
    split_ifs <;> decide
  have hint : ∀ n : ℤ, ',' ∉ intText n := notMem_intText (by decide) (by decide)
  have hpointers : ∀ w ∈ (printedPointers x.inode).map unsignedText, ',' ∉ w :=
    List.forall_mem_map.mpr fun b _ => hint _
  have hfields : ∀ w ∈ inodeLineFields strftime x, ',' ∉ w := by
    unfold inodeLineFields unsignedText
    rw [List.forall_mem_append]
    refine ⟨?_, hpointers⟩
    simp only [List.forall_mem_cons, hint, hdecimal, hmode, hsymbol, htime,
      not_false_eq_true, List.not_mem_nil, false_implies, implies_true, and_true]
    decide
  obtain ⟨b, hb⟩ : ∃ b, (printedPointers x.inode).getLast? = some b := by
    have hne : printedPointers x.inode ≠ [] := by
      unfold printedPointers
      split <;> exact List.ne_nil_of_length_pos (by simp)
    exact ⟨_, List.getLast?_eq_some_getLast hne⟩
  have hlast : (inodeLineFields strftime x).getLast? = some (unsignedText b) := by
    unfold inodeLineFields
    rw [List.getLast?_append, List.getLast?_map, hb]
    rfl
  exact split_csv hfields hlast intText_ne_nil

/-- **A pointer is read** as the number that the writer took it for. -/
theorem parsedPointer_eq (htime : ∀ t, ',' ∉ strftime t) (hsym : formatSymbol x.inode.iMode ≠ 's') :
    parsedPointer strftime x num = toInt x.inode.iBlock[num] := by
  have hfield : field (inodeLineFields strftime x) (num + 12) =
      unsignedText x.inode.iBlock[num] := by
    unfold field inodeLineFields printedPointers
    rw [if_neg hsym]
    simp
  unfold parsedPointer
  rw [split_inodeLine htime, hfield]
  exact toI_intText _

lemma parsedNumber_eq (htime : ∀ t, ',' ∉ strftime t) : parsedNumber strftime x = x.inodeNum := by
  unfold parsedNumber
  rw [split_inodeLine htime]
  exact toI_intText _

/-! ### The header -/

/-- The analyser finds this header in the report of the image, and begins with this state. -/
def HeaderOf (strftime : UInt32 → Text) (memory : ℕ → Memory) (img : Image) (h : Header)
    (s : St) : Prop :=
  ∃ out contents, printCsv strftime memory img = .ok out ∧ decode out = some contents ∧
    scanHeader contents = some (h, s)

lemma exists_superblockLine {contents : Text} {out : List UInt8}
    (hprint : printCsv strftime memory img = .ok out) (hdecode : decode out = some contents) :
    ∃ (size : ℤ) (rest : Text), contents = csv ["SUPERBLOCK".toList,
      unsignedText img.sblock.sBlocksCount, unsignedText img.sblock.sInodesCount, intText size,
      decimal img.sblock.sInodeSize.toNat, unsignedText img.sblock.sBlocksPerGroup,
      unsignedText img.sblock.sInodesPerGroup, unsignedText img.sblock.sFirstIno] ++
        '\n' :: rest := by
  unfold printCsv at hprint
  obtain ⟨superblock, hsuperblock, hprint⟩ := bind_eq_ok_iff.mp hprint
  obtain ⟨group, -, hprint⟩ := bind_eq_ok_iff.mp hprint
  obtain ⟨records, -, hprint⟩ := bind_eq_ok_iff.mp hprint
  obtain ⟨size, -, hsuperblock⟩ := bind_eq_ok_iff.mp hsuperblock
  obtain rfl := Except.ok.inj hprint
  obtain rfl := Except.ok.inj hsuperblock
  have hbytes := encode_of_decode hdecode
  simp only [List.append_assoc] at hbytes
  obtain ⟨rest, hrest⟩ := eq_append_of_encode hbytes
  exact ⟨size, rest, by rw [hrest]; simp⟩

/-- **The number of blocks** arrives as it was written. -/
theorem header_blocks (hh : HeaderOf strftime memory img h s) :
    h.blocks = toInt img.sblock.sBlocksCount ∧
      s = ⟨List.replicate h.blocks.toNat (some .unreferenced),
        List.replicate (h.inodes + 1).toNat (some .unreferenced), []⟩ := by
  obtain ⟨out, contents, hprint, hdecode, hheader⟩ := hh
  obtain ⟨size, rest, rfl⟩ := exists_superblockLine hprint hdecode
  have hdecimal : ∀ {c : Char}, ¬ c.isDigit → ∀ m : ℕ, c ∉ decimal m := fun hc m h =>
    hc (isDigit_of_mem_decimal h)
  have hint : ∀ {c : Char}, ¬ c.isDigit → c ≠ '-' → ∀ n : ℤ, c ∉ intText n := notMem_intText
  have hfields : ∀ c, c = ',' ∨ c = '\n' → ∀ f ∈ ["SUPERBLOCK".toList,
      unsignedText img.sblock.sBlocksCount, unsignedText img.sblock.sInodesCount, intText size,
      decimal img.sblock.sInodeSize.toNat, unsignedText img.sblock.sBlocksPerGroup,
      unsignedText img.sblock.sInodesPerGroup, unsignedText img.sblock.sFirstIno], c ∉ f := by
    intro c hc
    have hword : c ∉ "SUPERBLOCK".toList := by rcases hc with rfl | rfl <;> decide
    have hdigit : ¬ c.isDigit := by rcases hc with rfl | rfl <;> decide
    have hminus : c ≠ '-' := by rcases hc with rfl | rfl <;> decide
    simp only [List.forall_mem_cons, unsignedText, hint hdigit hminus, hdecimal hdigit, hword,
      not_false_eq_true, List.not_mem_nil, false_implies, implies_true, and_true]
  unfold scanHeader at hheader
  rw [scan_line (notMem_csv (by decide) (hfields _ (Or.inr rfl))), csv_cons_cons,
    if_pos (by rfl), ← csv_cons_cons, List.singleton_append, List.head?_cons] at hheader
  rw [Option.bind_eq_bind, Option.bind_some,
    split_csv (hfields _ (Or.inl rfl)) rfl intText_ne_nil] at hheader
  obtain ⟨⟨blocks, inodes, blockSize, inodeSize, first⟩, hsb, hheader⟩ :=
    Option.bind_eq_some_iff.mp hheader
  obtain ⟨group, -, hheader⟩ := Option.bind_eq_some_iff.mp hheader
  obtain ⟨table, -, hheader⟩ := Option.bind_eq_some_iff.mp hheader
  obtain ⟨tableSize, -, hheader⟩ := Option.bind_eq_some_iff.mp hheader
  have hblocks : blocks = toInt img.sblock.sBlocksCount := by
    have := Option.some.inj hsb
    simp only [Prod.mk.injEq] at this
    rw [← this.1]
    exact toI_intText _
  split at hheader
  · cases hheader
  · obtain ⟨rfl, rfl⟩ := Prod.mk.inj (Option.some.inj hheader)
    exact ⟨hblocks, rfl⟩

/-! ### States of the analyser -/

/-- The references in the table have levels that have a name. -/
def Named (s : St) : Prop := ∀ x, some (.scanned x) ∈ s.blockHash → 0 ≤ x.level ∧ x.level < 4

lemma mem_of_get {α : Type} {xs : List (Option α)} {i : ℤ} {c : α} (hget : get xs i = some c) :
    some c ∈ xs := by
  obtain ⟨n, -, hn⟩ := Option.bind_eq_some_iff.mp hget
  exact List.mem_of_getElem? (Option.join_eq_some_iff.mp hn)

lemma mem_of_mem_put {α : Type} {xs ys : List (Option α)} {i : ℤ} {c d : α}
    (hput : put xs i c = some ys) (hd : some d ∈ ys) : d = c ∨ some d ∈ xs := by
  obtain ⟨n, -, rfl⟩ := Option.map_eq_some_iff.mp hput
  split at hd
  · rcases List.mem_or_eq_of_mem_set hd with hd | hd
    · exact Or.inr hd
    · exact Or.inl (Option.some.inj hd)
  · simp only [List.mem_append, List.mem_replicate, List.mem_singleton, reduceCtorEq, and_false,
      or_false, Option.some.injEq] at hd
    exact hd.symm

lemma Named.put (hs : Named s) {block : ℤ} {cell : BlockCell}
    (hcell : ∀ x, cell = .scanned x → 0 ≤ x.level ∧ x.level < 4)
    (hput : s.putBlock block cell = some s') : Named s' := by
  obtain ⟨blockHash, hwrite, rfl⟩ := Option.map_eq_some_iff.mp hput
  intro x hx
  rcases mem_of_mem_put hwrite hx with heq | hx
  · exact hcell x heq.symm
  · exact hs x hx

lemma Named.congr (hs : Named s) (heq : s'.blockHash = s.blockHash) : Named s' := by
  unfold Named
  rw [heq]
  exact hs

lemma named_replicate {blocks : ℕ} {inodeHash : List (Option InodeCell)} {errList : List Text} :
    Named ⟨List.replicate blocks (some .unreferenced), inodeHash, errList⟩ := fun x hx => by
  cases (List.mem_replicate.mp hx).2

lemma blockHash_blockErr {flag : Text} {level inode offset block : ℤ}
    (hrun : s.blockErr flag level inode offset block = some s') :
    s'.blockHash = s.blockHash := by
  obtain ⟨_, -, rfl⟩ := Option.map_eq_some_iff.mp hrun
  rfl

lemma named_iBlock (hs : Named s) {inode block : ℤ} {num : ℕ} (hnum : num < 15)
    (hrun : Lab3b.iBlock h inode s num block = some s') : Named s' := by
  unfold Lab3b.iBlock at hrun
  split at hrun
  · exact Option.some.inj hrun ▸ hs
  · obtain ⟨s₁, hs₁, hrun⟩ := Option.bind_eq_some_iff.mp hrun
    obtain ⟨s₂, hs₂, hrun⟩ := Option.bind_eq_some_iff.mp hrun
    have hrange : s₁.blockHash = s.blockHash := by
      unfold checkRange at hs₁
      split at hs₁
      · rw [Option.some.inj hs₁]
      · exact blockHash_blockErr hs₁
    have hcell : s₂.blockHash = s₁.blockHash := by
      unfold checkCell at hs₂
      split at hs₂
      · rw [← Option.some.inj hs₂]
        rfl
      · obtain ⟨s₃, hs₃, hs₂⟩ := Option.bind_eq_some_iff.mp hs₂
        rw [blockHash_blockErr hs₂, blockHash_blockErr hs₃]
      · rw [Option.some.inj hs₂]
    refine (hs.congr (hcell.trans hrange)).put (fun x hx => ?_) hrun
    rw [← BlockCell.scanned.inj hx]
    dsimp only
    split <;> omega

/-! ### One pointer -/

/-- What there is to say about a pointer to this block. -/
def pointerDescription (x : NumberedInode) (num : Fin 15) (block : ℤ) : Description :=
  ⟨⟨num - 11, by omega⟩, x.inodeNum, iBlockOffset num, block⟩

/-- The class of a pointer. -/
def HasClass (h : Header) (blocks v : UInt32) : Flag → Prop
  | .inv => blocks.toNat ≤ v.toNat
  | .res => 0 < v.toNat ∧ (v.toNat : ℤ) ≤ h.reservedBlocks
  | .dup => False

/-- **A pointer keeps its class**: in every state the analyser adds the message of that class
and no other one, and leaves the blocks alone that the pointer does not lead to. -/
def KeepsClass (strftime : UInt32 → Text) (img : Image) (h : Header) (x : NumberedInode)
    (num : Fin 15) : Prop :=
  ∀ s, Named s → ∃ s', Lab3b.iBlock h (parsedNumber strftime x) s num
      (parsedPointer strftime x num) = some s' ∧
    (∀ κ ≠ .dup, ∀ d : Description, d.text κ ∈ s'.errList ↔ d.text κ ∈ s.errList ∨
      HasClass h img.sblock.sBlocksCount x.inode.iBlock[num] κ ∧
        d = pointerDescription x num x.inode.iBlock[num].toNat) ∧
    ∀ m : ℕ, m < img.sblock.sBlocksCount.toNat → m ≠ x.inode.iBlock[num].toNat →
      get s'.blockHash m = get s.blockHash m

variable {κ : Flag} {d : Description} {block : ℤ}

lemma mem_err_text {d' : Description} {κ' : Flag} : d.text κ ∈ (s.err (d'.text κ')).errList ↔
    d.text κ ∈ s.errList ∨ κ' = κ ∧ d = d' := by
  rw [mem_err, text_inj, eq_comm (a := κ)]

lemma blockErr_pointer : s.blockErr κ.symbol (if 11 < (num : ℕ) then (num : ℕ) - 11 else 0 : ℤ)
    x.inodeNum (iBlockOffset num) block =
      some (s.err ((pointerDescription x num block).text κ)) := by
  have hlevel : (if 11 < (num : ℕ) then ((num : ℕ) : ℤ) - 11 else 0) = ((num - 11 : ℕ) : ℤ) := by
    split <;> omega
  rw [hlevel]
  exact blockErr_of_lt (by omega)

/-- A message about a range. -/
lemma checkRange_pointer (h : Header) (s : St) (x : NumberedInode) (num : Fin 15) (block : ℤ) :
    ∃ s', checkRange h s
      (if 11 < (num : ℕ) then (num : ℕ) - 11 else 0 : ℤ) x.inodeNum (iBlockOffset num) block =
        some s' ∧ s'.blockHash = s.blockHash ∧
    ∀ κ (d : Description), d.text κ ∈ s'.errList ↔ d.text κ ∈ s.errList ∨
      (κ = .inv ∧ h.reservedBlocks < block ∧ h.blocks ≤ block ∨
        κ = .res ∧ block ≤ h.reservedBlocks) ∧ d = pointerDescription x num block := by
  unfold checkRange
  by_cases hin : h.reservedBlocks < block ∧ block < h.blocks
  · refine ⟨s, if_pos hin, rfl, fun κ d => (or_iff_left ?_).symm⟩
    omega
  · rw [if_neg hin]
    by_cases hres : block ≤ h.reservedBlocks
    · refine ⟨s.err ((pointerDescription x num block).text .res), ?_, rfl, fun κ d => ?_⟩
      · rw [if_pos hres]
        exact blockErr_pointer (κ := .res)
      rw [mem_err_text]
      refine or_congr_right (and_congr_left fun _ => ?_)
      constructor
      · exact fun hκ => Or.inr ⟨hκ.symm, hres⟩
      · rintro (⟨-, hgt, -⟩ | ⟨hκ, -⟩)
        · omega
        · exact hκ.symm
    · refine ⟨s.err ((pointerDescription x num block).text .inv), ?_, rfl, fun κ d => ?_⟩
      · rw [if_neg hres]
        exact blockErr_pointer (κ := .inv)
      rw [mem_err_text]
      refine or_congr_right (and_congr_left fun _ => ?_)
      constructor
      · exact fun hκ => Or.inl ⟨hκ.symm, by omega, by omega⟩
      · rintro (⟨hκ, -, -⟩ | ⟨-, hle⟩)
        · exact hκ.symm
        · omega

/-- The messages about the cell are of other kinds. -/
lemma checkCell_pointer (hs : Named s) (x : NumberedInode) (num : Fin 15) (block : ℤ) :
    ∃ s', checkCell s
      (if 11 < (num : ℕ) then (num : ℕ) - 11 else 0 : ℤ) x.inodeNum (iBlockOffset num) block =
        some s' ∧ s'.blockHash = s.blockHash ∧
    ∀ κ ≠ .dup, ∀ d : Description, d.text κ ∈ s'.errList ↔ d.text κ ∈ s.errList := by
  unfold checkCell
  cases hget : get s.blockHash block with
  | none => exact ⟨s, rfl, rfl, fun _ _ _ => Iff.rfl⟩
  | some cell =>
    cases cell with
    | unreferenced => exact ⟨s, rfl, rfl, fun _ _ _ => Iff.rfl⟩
    | free =>
      refine ⟨_, rfl, rfl, fun κ _ d => ?_⟩
      rw [mem_err]
      exact or_iff_left (text_ne_free _)
    | scanned other =>
      obtain ⟨h0, h4⟩ := hs other (mem_of_get hget)
      obtain ⟨level, hlevel⟩ := Int.eq_ofNat_of_zero_le h0
      have hsecond : (s.err ((pointerDescription x num block).text .dup)).blockErr
          Flag.dup.symbol level other.inode other.offset block = _ :=
        blockErr_of_lt (show level < 4 by omega)
      rw [← hlevel] at hsecond
      refine ⟨_, Option.bind_eq_some_iff.mpr ⟨_, blockErr_pointer (κ := .dup), hsecond⟩, ?_, ?_⟩
      · rfl
      · intro κ hκ d
        rw [mem_err_text, mem_err_text]
        simp [Ne.symm hκ]

/-- The messages about a pointer, if there is no exception. -/
lemma said_iBlock (hs : Named s) (h0 : block ≠ 0)
    (hrun : Lab3b.iBlock h x.inodeNum s num block = some s') (hκ : κ ≠ .dup) (d : Description) :
    d.text κ ∈ s'.errList ↔ d.text κ ∈ s.errList ∨
      (κ = .inv ∧ h.reservedBlocks < block ∧ h.blocks ≤ block ∨
        κ = .res ∧ block ≤ h.reservedBlocks) ∧ d = pointerDescription x num block := by
  obtain ⟨s₁, hs₁, hblocks₁, hsaid₁⟩ := checkRange_pointer h s x num block
  obtain ⟨s₂, hs₂, -, hsaid₂⟩ := checkCell_pointer (hs.congr hblocks₁) x num block
  unfold Lab3b.iBlock at hrun
  rw [if_neg h0] at hrun
  simp only [hs₁, hs₂, Option.bind_eq_bind, Option.bind_some] at hrun
  rw [errList_putBlock hrun, hsaid₂ κ hκ, hsaid₁]

/-- A pointer that is read as a proper index is written down in its own cell. -/
lemma iBlock_pointer (hs : Named s) (h : Header) (x : NumberedInode) (num : Fin 15) {b : ℕ}
    (h0 : b ≠ 0) :
    ∃ s', Lab3b.iBlock h x.inodeNum s num b = some s' ∧
      ∀ m : ℕ, m ≠ b → get s'.blockHash m = get s.blockHash m := by
  obtain ⟨s₁, hs₁, hblocks₁, -⟩ := checkRange_pointer h s x num b
  obtain ⟨s₂, hs₂, hblocks₂, -⟩ := checkCell_pointer (hs.congr hblocks₁) x num b
  obtain ⟨s', hs', hget, -, -⟩ := putBlock_spec s₂ b
    (.scanned ⟨if 11 < (num : ℕ) then (num : ℕ) - 11 else 0, x.inodeNum, iBlockOffset num⟩)
  refine ⟨s', ?_, fun m hm => by rw [hget, if_neg hm, hblocks₂, hblocks₁]⟩
  unfold Lab3b.iBlock
  rw [if_neg (by exact_mod_cast h0)]
  simp only [hs₁, hs₂, hs', Option.bind_eq_bind, Option.bind_some]

variable {v : UInt32}

/-- A pointer that is zero is skipped. -/
lemma iBlock_zero (hv : v.toNat = 0) : Lab3b.iBlock h x.inodeNum s num v.toNat = some s := by
  rw [hv]
  exact if_pos rfl

/-- If a pointer behind the last block is said to be invalid, then it is not read as negative, and
lies behind the reserved blocks. -/
lemma bounds_of_said {blocks : ℕ} (hs : Named s) (hempty : s.errList = [])
    (hcount : h.blocks = blocks) (hblocks : blocks < 2 ^ 31)
    (hrun : Lab3b.iBlock h x.inodeNum s num (toInt v) = some s')
    (hinvalid : blocks ≤ v.toNat → (pointerDescription x num v.toNat).text .inv ∈ s'.errList) :
    v.toNat < 2 ^ 31 ∧ (blocks ≤ v.toNat → 0 < v.toNat ∧ h.reservedBlocks < v.toNat) := by
  have hsmall : v.toNat < 2 ^ 31 := by
    by_contra hlarge
    have hneg := toInt_neg (x := v) (by omega)
    have hmem := hinvalid (by omega)
    rw [said_iBlock hs hneg.ne hrun (by decide), hempty] at hmem
    rcases hmem with hmem | ⟨⟨-, -, hge⟩ | ⟨hκ, -⟩, -⟩
    · cases hmem
    · omega
    · cases hκ
  rw [toInt_of_lt hsmall] at hrun
  refine ⟨hsmall, fun hv => ?_⟩
  have hmem := hinvalid hv
  by_cases h0 : v.toNat = 0
  · rw [← Option.some.inj ((iBlock_zero h0).symm.trans hrun), hempty] at hmem
    cases hmem
  · rw [said_iBlock hs (by exact_mod_cast h0) hrun (by decide), hempty] at hmem
    rcases hmem with hmem | ⟨⟨-, hgt, -⟩ | ⟨hκ, -⟩, -⟩
    · cases hmem
    · exact ⟨by omega, hgt⟩
    · cases hκ

/-- What is said about a pointer within these bounds is its class. -/
lemma said_of_bounds {blocks : UInt32} (hs : Named s) (hcount : h.blocks = blocks.toNat)
    (hclass : blocks.toNat ≤ v.toNat → 0 < v.toNat ∧ h.reservedBlocks < v.toNat) :
    ∃ s', Lab3b.iBlock h x.inodeNum s num v.toNat = some s' ∧
      (∀ κ ≠ .dup, ∀ d : Description, d.text κ ∈ s'.errList ↔ d.text κ ∈ s.errList ∨
        HasClass h blocks v κ ∧ d = pointerDescription x num v.toNat) ∧
      ∀ m : ℕ, m ≠ v.toNat → get s'.blockHash m = get s.blockHash m := by
  by_cases h0 : v.toNat = 0
  · refine ⟨s, iBlock_zero h0, fun κ hκ d => (or_iff_left ?_).symm, fun _ _ => rfl⟩
    rintro ⟨hv, -⟩
    cases κ with
    | inv => exact absurd (hclass hv).1 (by omega)
    | res => exact absurd hv.1 (by omega)
    | dup => exact hκ rfl
  · obtain ⟨s', hs', hcells⟩ := iBlock_pointer hs h x num h0
    refine ⟨s', hs', fun κ hκ d => ?_, hcells⟩
    rw [said_iBlock hs (by exact_mod_cast h0) hs' hκ]
    refine or_congr_right (and_congr_left fun _ => ?_)
    cases κ with
    | inv =>
      simp only [true_and, reduceCtorEq, false_and, or_false]
      unfold HasClass
      exact ⟨fun hv => by omega, fun hv => ⟨(hclass hv).2, by omega⟩⟩
    | res =>
      simp only [true_and, reduceCtorEq, false_and, false_or]
      exact ⟨fun hv => ⟨by omega, hv⟩, fun hv => hv.2⟩
    | dup => exact absurd rfl hκ

/-- **Exactly when a pointer keeps its class.** -/
theorem keepsClass_iff (hh : HeaderOf strftime memory img h s) (htime : ∀ t, ',' ∉ strftime t)
    (hblocks : img.sblock.sBlocksCount.toNat < 2 ^ 31) (hsym : formatSymbol x.inode.iMode ≠ 's') :
    KeepsClass strftime img h x num ↔ x.inode.iBlock[num].toNat < 2 ^ 31 ∧
      (img.sblock.sBlocksCount.toNat ≤ x.inode.iBlock[num].toNat →
        0 < x.inode.iBlock[num].toNat ∧ h.reservedBlocks < x.inode.iBlock[num].toNat) := by
  obtain ⟨hcount, hstart⟩ := header_blocks hh
  rw [toInt_of_lt hblocks] at hcount
  unfold KeepsClass
  rw [parsedNumber_eq htime, parsedPointer_eq htime hsym]
  constructor
  · intro hkeeps
    have hnamed : Named s := by
      rw [hstart]
      exact named_replicate
    obtain ⟨s', hs', hsaid, -⟩ := hkeeps s hnamed
    exact bounds_of_said hnamed (by rw [hstart]) hcount hblocks hs' fun hv =>
      (hsaid .inv (by decide) _).mpr (Or.inr ⟨hv, rfl⟩)
  · rintro ⟨hlt, hclass⟩ s hs
    rw [toInt_of_lt hlt]
    obtain ⟨s', hs', hsaid, hcells⟩ := said_of_bounds hs hcount hclass
    exact ⟨s', hs', hsaid, fun m _ hm => hcells m hm⟩

/-! ### A file with two wild pointers -/

def wildPointers : ImageFile :=
  .ofCells 8192 [(1024, 8), (1028, 8), (1056, 8), (1064, 8), (1080, 0x53), (1081, 0xEF),
    (1108, 11), (1112, 128), (2048, 3), (2052, 4), (2056, 5), (3072, 0xFF), (4096, 0xFF),
    (5248, 0xED), (5249, 0x81), (5274, 1), (5288, 0xFF), (5289, 0xFF), (5290, 0xFF), (5291, 0xFF),
    (5292, 200)]

def wildInode : NumberedInode := ⟨2, wildPointers.inode 5248⟩

def wildImage : Image where
  sblock := wildPointers.superBlock 1024
  group := [wildPointers.groupDesc 2048]
  bfree := []
  ifree := []
  inodes := [wildInode]
  dirents := []
  indirects := []

def wildText : Text :=
  unlines ["SUPERBLOCK,8,8,1024,128,8,8,11".toList, "GROUP,0,8,8,0,0,3,4,5".toList,
    ("INODE,2,f,755,0,0,1,01/01/70 00:00:00,01/01/70 00:00:00,01/01/70 00:00:00,0,0," ++
      "-1,200,0,0,0,0,0,0,0,0,0,0,0,0,0").toList]

def wildHeader : Header := ⟨8, 8, 5, 10⟩

def wildStart : St :=
  ⟨List.replicate 8 (some .unreferenced), List.replicate 9 (some .unreferenced), []⟩

lemma exists_headerOf : ∃ s, HeaderOf (fun _ => "01/01/70 00:00:00".toList)
    (fun _ => ⟨[], []⟩) wildImage wildHeader s := by
  have hprint : printCsv (fun _ => "01/01/70 00:00:00".toList) (fun _ => ⟨[], []⟩) wildImage =
      .ok (encode wildText) := by decide +kernel
  have hheader : (scanHeader wildText).map Prod.fst = some wildHeader := by decide +kernel
  obtain ⟨⟨h, s⟩, hscan, hfirst⟩ := Option.map_eq_some_iff.mp hheader
  obtain rfl : h = wildHeader := hfirst
  exact ⟨s, _, _, hprint, decode_encode _, hscan⟩

lemma scanImage_wildPointers : scanImage 3 wildPointers = .ok wildImage := by
  have hsblock : readSuperblock wildPointers = .ok wildImage.sblock := by decide +kernel
  have hgroup : readGroup wildPointers wildImage.sblock = .ok wildImage.group := by decide +kernel
  have hfree : ∀ isBfree, readFreeList wildPointers wildImage.sblock wildImage.group isBfree =
      .ok ([], 0) := by decide +kernel
  have hinodes : readInode wildPointers wildImage.sblock wildImage.group =
      .ok wildImage.inodes := by decide +kernel
  have hdirents : readDirent wildPointers 3 wildImage.inodes = .ok [] := by decide +kernel
  have htop : topBlocks wildInode.inode = [(1, 0), (2, 0), (3, 0)] := by decide +kernel
  have hindirect : inodeIndirect wildPointers wildInode = .ok [] := by
    refine inodeIndirect_ofCells ?_
    rw [htop]
    decide
  have hindirects : readIndirect wildPointers wildImage.inodes = .ok [] := by
    unfold readIndirect wildImage
    rw [collect, hindirect]
    rfl
  exact scanImage_ok hsblock hgroup (hfree true) (hfree false) hinodes hdirents hindirects

/-- The second pointer leads to block 200, and is invalid. -/
theorem keepsClass_iff_wildImage :
    KeepsClass (fun _ => "01/01/70 00:00:00".toList) wildImage wildHeader wildInode 1 := by
  obtain ⟨s, hs⟩ := exists_headerOf
  exact (keepsClass_iff hs (fun _ => by decide) (by decide +kernel) (by decide +kernel)).mpr
    ⟨by decide +kernel, by decide +kernel⟩

/-- The first one is `2 ^ 32 - 1`: it is reserved, and the last block is taken for its block. -/
theorem wildPointers_misread :
    scanImage 3 wildPointers = .ok wildImage ∧ wildInode ∈ wildImage.inodes ∧
      wildImage.sblock.sBlocksCount.toNat = 8 ∧ formatSymbol wildInode.inode.iMode = 'f' ∧
      wildInode.inode.iBlock[(0 : Fin 15)].toNat = 2 ^ 32 - 1 ∧
      (∃ s, HeaderOf (fun _ => "01/01/70 00:00:00".toList) (fun _ => ⟨[], []⟩) wildImage
        wildHeader s) ∧
      parsedPointer (fun _ => "01/01/70 00:00:00".toList) wildInode 0 = -1 ∧
      (Lab3b.iBlock wildHeader 2 wildStart 0 (-1)).map (fun s => (s.errList, get s.blockHash 7)) =
        some (["RESERVED BLOCK -1 IN INODE 2 AT OFFSET 0".toList],
          some (.scanned ⟨0, 2, 0⟩)) ∧
      ¬ KeepsClass (fun _ => "01/01/70 00:00:00".toList) wildImage wildHeader wildInode 0 := by
  have hnumber : parsedNumber (fun _ => "01/01/70 00:00:00".toList) wildInode = 2 := by
    decide +kernel
  have hpointer : parsedPointer (fun _ => "01/01/70 00:00:00".toList) wildInode 0 = -1 := by
    decide +kernel
  have hstep : (Lab3b.iBlock wildHeader 2 wildStart 0 (-1)).map
      (fun s => (s.errList, get s.blockHash 7)) =
        some (["RESERVED BLOCK -1 IN INODE 2 AT OFFSET 0".toList],
          some (.scanned ⟨0, 2, 0⟩)) := by decide +kernel
  refine ⟨scanImage_wildPointers, by decide +kernel, by decide +kernel, by decide +kernel,
    by decide +kernel, exists_headerOf, hpointer, hstep, fun hkeeps => ?_⟩
  obtain ⟨s', hs', -, hcells⟩ := hkeeps wildStart named_replicate
  rw [hnumber, hpointer] at hs'
  have hrun : (s'.errList, get s'.blockHash 7) = _ :=
    Option.some.inj ((congrArg (Option.map _) hs').symm.trans hstep)
  have hcell := (Prod.mk.inj hrun).2.symm.trans (hcells 7 (by decide +kernel) (by decide +kernel))
  exact absurd hcell (by decide)

end LowLevelTasks.PointerClasses
