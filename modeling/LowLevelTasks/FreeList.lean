import LowLevelTasks.ImgReader

/-!
The lists of free blocks and free inodes. The bitmaps of the groups are read bit by bit, and
the scan of all groups stops once the running total of clear bits reaches the count that the
descriptor of the current group gives. So what the list holds depends on how that total
compares with the counts, and on bits behind the bitmaps: there are eight bits in each of the
`per_group` bytes that are read.
-/

namespace LowLevelTasks.FreeList

open LowLevelTasks.ImgReader LowLevelTasks.Loops

variable (f : ImageFile) (s : SuperBlock) (group : List GroupDesc) (isBfree : Bool)

def perGroupField : UInt32 := if isBfree then s.sBlocksPerGroup else s.sInodesPerGroup

def perGroup : ℤ := toInt (perGroupField s isBfree)

def frees (g : GroupDesc) : ℕ :=
  (if isBfree then g.bgFreeBlocksCount else g.bgFreeInodesCount).toNat

def bitmap (g : GroupDesc) : UInt32 := if isBfree then g.bgBlockBitmap else g.bgInodeBitmap

/-- One bit of a byte; `number` belongs to the bit before its first one. -/
def bitRound (byte : UInt8) (number : ℤ) (frees : ℕ) (freeList : List ℤ × ℕ) (k : ℕ) :
    Except Stop (ForInStep (List ℤ × ℕ)) := do
  let freeList ←
    if byte.toNat.testBit k then .ok freeList
    else do
      let n ← int (number + k + 1)
      .ok (freeList.1 ++ [n], freeList.2 + 1)
  if frees ≤ freeList.2 then .ok (.done freeList) else .ok (.yield freeList)

def byteRound (i : ℕ) (blockOffset : ℤ) (frees : ℕ) (freeList : List ℤ × ℕ) (j : ℕ) :
    Except Stop (ForInStep (List ℤ × ℕ)) := do
  let byte ← imgRead f.byte blockOffset j
  loop (bitRound byte (i * perGroup s isBfree + j * 8) frees) freeList (List.range 8)

def groupRound (freeList : List ℤ × ℕ) (i : ℕ) : Except Stop (ForInStep (List ℤ × ℕ)) := do
  let g := groupAt group i
  let blockOffset ← setBlock (toInt (bitmap isBfree g))
  loop (byteRound f s isBfree i blockOffset (frees isBfree g)) freeList
    (List.range (perGroup s isBfree).toNat)

/-- The list, and the size that is stored with it. -/
def readFreeList : Except Stop (List ℤ × ℕ) := do
  let freeList ← loop (groupRound f s group isBfree) ([], 0) (List.range group.length)
  .ok freeList.value

/-! ### The bits of all groups as one sequence -/

/-- How many bits of each group belong to its bitmap. -/
def bits : ℕ := (perGroupField s isBfree).toNat

def isClear (g : GroupDesc) (b : ℕ) : Bool :=
  !(f.byte (blockAddress (bitmap isBfree g) + b / 8)).toNat.testBit (b % 8)

/-- The group, and the bit in it, of a position of the scan. -/
def groupOf (t : ℕ) : GroupDesc := groupAt group (t / (bits s isBfree * 8))

def bitOf (t : ℕ) : ℕ := t % (bits s isBfree * 8)

def numberOf (t : ℕ) : ℕ :=
  t / (bits s isBfree * 8) * bits s isBfree + bitOf s isBfree t + 1

/-- The byte of a position, and its number if the bit is clear, fit into an `int`. -/
def InRange (t : ℕ) : Prop :=
  blockAddress (bitmap isBfree (groupOf s group isBfree t)) + bitOf s isBfree t / 8 < 2 ^ 31 ∧
    (isClear f isBfree (groupOf s group isBfree t) (bitOf s isBfree t) →
      numberOf s isBfree t < 2 ^ 31)

instance (t : ℕ) : Decidable (InRange f s group isBfree t) :=
  inferInstanceAs (Decidable (_ ∧ _))

def bitScan : Scan Stop ℤ where
  check t :=
    if InRange f s group isBfree t then .ok ()
    else if blockAddress (bitmap isBfree (groupOf s group isBfree t)) < 2 ^ 31 then
      .error .undefined
    else .error (blockError (bitmap isBfree (groupOf s group isBfree t)))
  keep t := isClear f isBfree (groupOf s group isBfree t) (bitOf s isBfree t)
  out t := numberOf s isBfree t
  limit t := frees isBfree (groupOf s group isBfree t)

variable {f s group isBfree}

lemma perGroup_eq (h : bits s isBfree < 2 ^ 31) : perGroup s isBfree = bits s isBfree :=
  toInt_of_lt h

lemma mul_add_div_of_lt {i m b : ℕ} (hb : b < m) : (i * m + b) / m = i := by
  rw [Nat.mul_comm, Nat.mul_add_div (by omega), Nat.div_eq_of_lt hb, Nat.add_zero]

lemma groupOf_bit {i b : ℕ} (hb : b < bits s isBfree * 8) :
    groupOf s group isBfree (i * (bits s isBfree * 8) + b) = groupAt group i := by
  unfold groupOf
  rw [mul_add_div_of_lt hb]

lemma bitOf_bit {i b : ℕ} (hb : b < bits s isBfree * 8) :
    bitOf s isBfree (i * (bits s isBfree * 8) + b) = b := by
  unfold bitOf
  rw [Nat.mul_comm i, Nat.mul_add_mod, Nat.mod_eq_of_lt hb]

lemma numberOf_bit {i b : ℕ} (hb : b < bits s isBfree * 8) :
    numberOf s isBfree (i * (bits s isBfree * 8) + b) = i * bits s isBfree + b + 1 := by
  unfold numberOf
  rw [bitOf_bit hb, mul_add_div_of_lt hb]

/-! What the scan knows about bit `b` of group `i`. -/

section bit

variable {i b : ℕ} (hb : b < bits s isBfree * 8)
include hb

lemma keep_bit : (bitScan f s group isBfree).keep (i * (bits s isBfree * 8) + b) =
    isClear f isBfree (groupAt group i) b := by
  simp only [bitScan, groupOf_bit hb, bitOf_bit hb]

lemma limit_bit : (bitScan f s group isBfree).limit (i * (bits s isBfree * 8) + b) =
    frees isBfree (groupAt group i) := by
  simp only [bitScan, groupOf_bit hb]

lemma out_bit : (bitScan f s group isBfree).out (i * (bits s isBfree * 8) + b) =
    ((i * bits s isBfree + b + 1 : ℕ) : ℤ) := by
  simp only [bitScan, numberOf_bit hb]

lemma inRange_bit : InRange f s group isBfree (i * (bits s isBfree * 8) + b) ↔
    blockAddress (bitmap isBfree (groupAt group i)) + b / 8 < 2 ^ 31 ∧
      (isClear f isBfree (groupAt group i) b → i * bits s isBfree + b + 1 < 2 ^ 31) := by
  unfold InRange
  rw [groupOf_bit hb, bitOf_bit hb, numberOf_bit hb]

omit hb in
lemma check_bit_ok (h : InRange f s group isBfree (i * (bits s isBfree * 8) + b)) :
    (bitScan f s group isBfree).check (i * (bits s isBfree * 8) + b) = .ok () := if_pos h

lemma check_bit_error (hmap : blockAddress (bitmap isBfree (groupAt group i)) < 2 ^ 31)
    (h : ¬ InRange f s group isBfree (i * (bits s isBfree * 8) + b)) :
    (bitScan f s group isBfree).check (i * (bits s isBfree * 8) + b) = .error .undefined := by
  simp only [bitScan, if_neg h, groupOf_bit hb, if_pos hmap]

lemma check_bit_blockError (hmap : ¬ blockAddress (bitmap isBfree (groupAt group i)) < 2 ^ 31) :
    (bitScan f s group isBfree).check (i * (bits s isBfree * 8) + b) =
      .error (blockError (bitmap isBfree (groupAt group i))) := by
  have hnot : ¬ InRange f s group isBfree (i * (bits s isBfree * 8) + b) := fun h => by
    have := ((inRange_bit hb).mp h).1
    omega
  simp only [bitScan, if_neg hnot, groupOf_bit hb, if_neg hmap]

end bit

lemma bitRound_set {byte : UInt8} {n k frees : ℕ} {l : List ℤ × ℕ}
    (h : byte.toNat.testBit k) :
    bitRound byte n frees l k = if frees ≤ l.2 then .ok (.done l) else .ok (.yield l) := by
  unfold bitRound
  rw [if_pos h]
  rfl

lemma bitRound_clear {byte : UInt8} {n k frees : ℕ} {l : List ℤ × ℕ}
    (h : ¬ byte.toNat.testBit k) (hn : n + k + 1 < 2 ^ 31) :
    bitRound byte n frees l k =
      if frees ≤ l.2 + 1 then .ok (.done (l.1 ++ [((n + k + 1 : ℕ) : ℤ)], l.2 + 1))
      else .ok (.yield (l.1 ++ [((n + k + 1 : ℕ) : ℤ)], l.2 + 1)) := by
  unfold bitRound
  rw [if_neg h, int_ok (by unfold IsInt; omega)]
  push_cast
  rfl

lemma bitRound_error {byte : UInt8} {n k frees : ℕ} {l : List ℤ × ℕ}
    (h : ¬ byte.toNat.testBit k) (hn : ¬ n + k + 1 < 2 ^ 31) :
    bitRound byte n frees l k = .error .undefined := by
  unfold bitRound int
  rw [if_neg h, if_neg (by unfold IsInt; omega)]
  rfl

/-- The code treats one bit as the scan does. -/
lemma bitRound_eq {i j k : ℕ} (hsmall : bits s isBfree < 2 ^ 31) (hj : j < bits s isBfree)
    (hk : k < 8) (hmap : blockAddress (bitmap isBfree (groupAt group i)) < 2 ^ 31)
    (l : List ℤ × ℕ) :
    (imgRead f.byte (blockAddress (bitmap isBfree (groupAt group i))) j >>= fun byte =>
      bitRound byte (i * perGroup s isBfree + j * 8) (frees isBfree (groupAt group i)) l k) =
      (bitScan f s group isBfree).round l (i * (bits s isBfree * 8) + (j * 8 + k)) := by
  have hb : j * 8 + k < bits s isBfree * 8 := by omega
  have hdiv : (j * 8 + k) / 8 = j := by omega
  have hmod : (j * 8 + k) % 8 = k := by omega
  have hclear : isClear f isBfree (groupAt group i) (j * 8 + k) =
      !(f.byte (blockAddress (bitmap isBfree (groupAt group i)) + j)).toNat.testBit k := by
    unfold isClear
    rw [hdiv, hmod]
  have hkeep : (bitScan f s group isBfree).keep (i * (bits s isBfree * 8) + (j * 8 + k)) =
      isClear f isBfree (groupAt group i) (j * 8 + k) := keep_bit hb
  have hrange : InRange f s group isBfree (i * (bits s isBfree * 8) + (j * 8 + k)) ↔
      blockAddress (bitmap isBfree (groupAt group i)) + j < 2 ^ 31 ∧
        (isClear f isBfree (groupAt group i) (j * 8 + k) →
          i * bits s isBfree + j * 8 + k + 1 < 2 ^ 31) := by
    rw [inRange_bit hb, hdiv, ← Nat.add_assoc (i * bits s isBfree)]
  have hbase : (i : ℤ) * perGroup s isBfree + j * 8 = (i * bits s isBfree + j * 8 : ℕ) := by
    rw [perGroup_eq hsmall]
    push_cast
    rfl
  rw [hclear] at hkeep hrange
  rw [hbase]
  by_cases haddr : blockAddress (bitmap isBfree (groupAt group i)) + j < 2 ^ 31
  · rw [imgRead_ok (by push_cast; rfl) haddr]
    change bitRound _ _ _ l k = _
    by_cases hset : (f.byte (blockAddress (bitmap isBfree (groupAt group i)) + j)).toNat.testBit k
    · have hok := check_bit_ok (hrange.mpr ⟨haddr, by simp [hset]⟩)
      rw [bitRound_set hset, Scan.round_skip hok (by simp [hkeep, hset]), limit_bit hb]
    · by_cases hn : i * bits s isBfree + j * 8 + k + 1 < 2 ^ 31
      · have hok := check_bit_ok (hrange.mpr ⟨haddr, fun _ => hn⟩)
        rw [bitRound_clear hset hn, Scan.round_keep hok (by simp [hkeep, hset]), limit_bit hb,
          out_bit hb, ← Nat.add_assoc]
      · have herror := check_bit_error hb hmap fun h => hn ((hrange.mp h).2 (by simp [hset]))
        rw [bitRound_error hset hn, Scan.round_error herror]
  · have hread : imgRead f.byte (blockAddress (bitmap isBfree (groupAt group i))) j =
        .error .undefined := by
      unfold imgRead int
      rw [if_neg (by unfold IsInt; omega)]
      rfl
    rw [hread, Scan.round_error (check_bit_error hb hmap fun h => haddr (hrange.mp h).1)]
    rfl

/-- The code treats the bits of one group as the scan does. -/
lemma groupRound_eq (hpos : 0 < bits s isBfree) (hsmall : bits s isBfree < 2 ^ 31) (i : ℕ)
    (l : List ℤ × ℕ) :
    groupRound f s group isBfree l i =
      loop (fun l b => (bitScan f s group isBfree).round l (i * (bits s isBfree * 8) + b)) l
        (List.range (bits s isBfree * 8)) := by
  have hrange : (perGroup s isBfree).toNat = bits s isBfree := by
    rw [perGroup_eq hsmall, Int.toNat_natCast]
  have hne : List.range (bits s isBfree) ≠ [] := by
    rw [ne_eq, List.range_eq_nil]
    omega
  unfold groupRound
  rw [hrange]
  by_cases hmap : blockAddress (bitmap isBfree (groupAt group i)) < 2 ^ 31
  · simp only [setBlock_ok hmap]
    change loop _ l _ = _
    rw [← loop_loop]
    refine loop_congr (fun j hj l => ?_) l
    unfold byteRound
    rw [bind_loop _ _ (by decide)]
    exact loop_congr (fun k hk l => bitRound_eq hsmall (List.mem_range.mp hj)
      (List.mem_range.mp hk) hmap l) l
  · have hfirst : (setBlock (toInt (bitmap isBfree (groupAt group i))) >>= fun o =>
        byteRound f s isBfree i o (frees isBfree (groupAt group i)) l 0) =
        .error (blockError (bitmap isBfree (groupAt group i))) :=
      setBlock_error (not_lt.mp hmap)
    have hfirst' : (bitScan f s group isBfree).round l (i * (bits s isBfree * 8) + 0) =
        .error (blockError (bitmap isBfree (groupAt group i))) :=
      Scan.round_error (check_bit_blockError (by omega) hmap)
    rw [bind_loop _ _ hne, loop_range_error hpos hfirst,
      loop_range_error (by omega) hfirst']

/-- The scan of all groups, if they have bits. -/
theorem readFreeList_eq_ok_iff (hpos : 0 < bits s isBfree) (hsmall : bits s isBfree < 2 ^ 31)
    {l : List ℤ × ℕ} :
    readFreeList f s group isBfree = .ok l ↔
      (∀ t < group.length * (bits s isBfree * 8),
        (bitScan f s group isBfree).Reached t → InRange f s group isBfree t) ∧
      l = (bitScan f s group isBfree).result (group.length * (bits s isBfree * 8)) := by
  have hloop : loop (groupRound f s group isBfree) ([], 0) (List.range group.length) =
      loop (bitScan f s group isBfree).round ([], 0)
        (List.range (group.length * (bits s isBfree * 8))) := by
    rw [← loop_loop]
    exact loop_congr (fun i _ l => groupRound_eq hpos hsmall i l) _
  have hcheck : ∀ t, (bitScan f s group isBfree).check t = .ok () ↔
      InRange f s group isBfree t := fun t => by
    simp only [bitScan]
    split
    · simpa
    · split <;> simpa
  unfold readFreeList
  rw [hloop, Scan.value_eq_ok_iff]
  simp only [hcheck]

/-- Without bits the groups are passed over, but the offsets of their bitmaps are computed. -/
theorem readFreeList_of_nonpos (h : perGroup s isBfree ≤ 0) {l : List ℤ × ℕ} :
    readFreeList f s group isBfree = .ok l ↔
      (∀ i < group.length, IsInt (toInt (bitmap isBfree (groupAt group i)) * blockSize)) ∧
        l = ([], 0) := by
  have hround : ∀ l i, groupRound f s group isBfree l i =
      setBlock (toInt (bitmap isBfree (groupAt group i))) >>= fun _ => .ok (.yield l) :=
    fun l i => by
      unfold groupRound
      rw [Int.toNat_of_nonpos h]
      rfl
  have hok : ∀ i l, groupRound f s group isBfree l i = .ok (.yield l) ↔
      IsInt (toInt (bitmap isBfree (groupAt group i)) * blockSize) := fun i l => by
    rw [hround, setBlock, int]
    split <;> simp [bind, Except.bind, *]
  have hkeeps : ∀ i ∈ List.range group.length, ∀ r,
      groupRound f s group isBfree ([], 0) i = .ok r → r = .yield ([], 0) := by
    intro i _ r hr
    rw [hround] at hr
    cases hset : setBlock (toInt (bitmap isBfree (groupAt group i))) with
    | error e => simp [hset, bind, Except.bind] at hr
    | ok o => simpa [hset, bind, Except.bind, eq_comm] using hr
  have hloop := fun r => loop_eq_ok_iff_of_keeps (r := r) hkeeps
  simp only [hok, List.mem_range] at hloop
  unfold readFreeList
  constructor
  · intro hl
    cases hr : loop (groupRound f s group isBfree) ([], 0) (List.range group.length) with
    | error e =>
      rw [hr] at hl
      cases hl
    | ok r =>
      obtain ⟨hall, rfl⟩ := (hloop r).mp hr
      rw [hr] at hl
      exact ⟨hall, (Except.ok.inj hl).symm⟩
  · rintro ⟨hall, rfl⟩
    rw [(hloop _).mpr ⟨hall, rfl⟩]
    rfl

end LowLevelTasks.FreeList
