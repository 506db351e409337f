import LowLevelTasks.FreeList

/-!
Which numbers the free lists hold. The numbers to be expected are those of the clear bits of
the bitmaps. The lists hold them all only if the first group has all of them, since the scan
ends where that group's count is reached; and they hold nothing else only if the clear bits
that the scan finds behind the bitmaps happen to agree with bits of bitmaps.
-/

namespace LowLevelTasks.FreeNumbers

open LowLevelTasks.ImgReader LowLevelTasks.Loops LowLevelTasks.FreeList

variable (f : ImageFile) (s : SuperBlock) (group : List GroupDesc) (isBfree : Bool)

/-- The number of a clear bit in the bitmap of a group. -/
def FreeNumber (n : ℤ) : Prop :=
  ∃ i < group.length, ∃ b < bits s isBfree,
    n = (i * bits s isBfree + b + 1 : ℕ) ∧ isClear f isBfree (groupAt group i) b

/-- The count of each group is that of the clear bits in its bitmap. -/
def Consistent : Prop :=
  ∀ i < group.length, frees isBfree (groupAt group i) =
    Nat.count (fun b => isClear f isBfree (groupAt group i) b) (bits s isBfree)

def NoneClear (i : ℕ) : Prop := ∀ b < bits s isBfree, ¬ isClear f isBfree (groupAt group i) b

/-- The bitmap of the first group lies in range up to its last clear bit, and no other group
has a clear bit. Where the number of bits is not positive as an `int`, no group has one. -/
def FirstHasAll : Prop :=
  if 0 < perGroup s isBfree then
    (0 < group.length → ∀ b < bits s isBfree, b = 0 ∨ isClear f isBfree (groupAt group 0) b →
      blockAddress (bitmap isBfree (groupAt group 0)) + b / 8 < 2 ^ 31) ∧
    ∀ i < group.length, 0 < i → NoneClear f s group isBfree i
  else
    ∀ i < group.length, IsInt (toInt (bitmap isBfree (groupAt group i)) * blockSize) ∧
      NoneClear f s group isBfree i

instance : Decidable (Consistent f s group isBfree) :=
  inferInstanceAs (Decidable (∀ i < group.length, _))

instance (i : ℕ) : Decidable (NoneClear f s group isBfree i) :=
  inferInstanceAs (Decidable (∀ b < bits s isBfree, _))

instance (n : ℤ) : Decidable (FreeNumber f s group isBfree n) :=
  inferInstanceAs (Decidable (∃ i < group.length, ∃ b < bits s isBfree, _))

instance : Decidable (FirstHasAll f s group isBfree) :=
  inferInstanceAs (Decidable (@ite Prop _ _ _ _))

variable {f s group isBfree}

lemma bits_pos (h : 0 < perGroup s isBfree) : 0 < bits s isBfree := (toInt_pos_iff.mp h).1

lemma bits_lt (h : 0 < perGroup s isBfree) : bits s isBfree < 2 ^ 31 := (toInt_pos_iff.mp h).2

/-! ### Lists that are complete -/

section complete

variable {t : ℕ}

lemma keep_first (ht : t < bits s isBfree * 8) :
    (bitScan f s group isBfree).keep t = isClear f isBfree (groupAt group 0) t := by
  rw [← keep_bit ht, Nat.zero_mul, Nat.zero_add]

lemma limit_first (ht : t < bits s isBfree * 8) :
    (bitScan f s group isBfree).limit t = frees isBfree (groupAt group 0) := by
  rw [← limit_bit ht, Nat.zero_mul, Nat.zero_add]

lemma out_first (ht : t < bits s isBfree * 8) :
    (bitScan f s group isBfree).out t = (t + 1 : ℕ) := by
  have hout : (bitScan f s group isBfree).out (0 * (bits s isBfree * 8) + t) =
      ((0 * bits s isBfree + t + 1 : ℕ) : ℤ) := out_bit ht
  rwa [Nat.zero_mul, Nat.zero_mul, Nat.zero_add] at hout

lemma count_first {n : ℕ} (hn : n ≤ bits s isBfree * 8) :
    Nat.count ((bitScan f s group isBfree).keep ·) n =
      Nat.count (fun b => isClear f isBfree (groupAt group 0) b) n := by
  induction n with
  | zero => rw [Nat.count_zero, Nat.count_zero]
  | succ n ih => rw [Nat.count_succ, Nat.count_succ, ih (by omega), keep_first (by omega)]

lemma count_of_none {p : ℕ → Prop} [DecidablePred p] {m n : ℕ} (hmn : m ≤ n)
    (h : ∀ b, m ≤ b → b < n → ¬ p b) : Nat.count p n = Nat.count p m := by
  induction n, hmn using Nat.le_induction with
  | base => rfl
  | succ n hmn ih =>
    rw [Nat.count_succ, if_neg (h n hmn (by omega)), Nat.add_zero]
    exact ih fun b hb hbn => h b hb (by omega)

/-- The scan ends at the last clear bit of the first group. -/
lemma reached_iff (hpos : 0 < bits s isBfree) (hgroup : 0 < group.length)
    (hc : Consistent f s group isBfree) :
    (bitScan f s group isBfree).Reached t ↔
      t = 0 ∨ ∃ b, t ≤ b ∧ b < bits s isBfree ∧ isClear f isBfree (groupAt group 0) b := by
  constructor
  · intro h
    by_contra hnot
    push Not at hnot
    obtain ⟨ht0, hnone⟩ := hnot
    -- all clear bits stand before the last position `m` that is in the bitmap
    obtain ⟨m, hm, hmt, hmb, hnone⟩ : ∃ m, 0 < m ∧ m ≤ t ∧ m ≤ bits s isBfree ∧
        ∀ b, m ≤ b → b < bits s isBfree → ¬ isClear f isBfree (groupAt group 0) b := by
      rcases le_total t (bits s isBfree) with hle | hle
      · exact ⟨t, by omega, le_rfl, hle, hnone⟩
      · exact ⟨bits s isBfree, hpos, hle, le_rfl, fun b hb hb' => by omega⟩
    have hlt := h (m - 1) (by omega)
    rw [show m - 1 + 1 = m by omega, count_first (by omega), limit_first (by omega),
      hc 0 hgroup, count_of_none hmb hnone] at hlt
    exact lt_irrefl _ hlt
  · rintro (rfl | ⟨b, htb, hb, hclear⟩)
    · exact Scan.reached_zero
    · intro u hu
      rw [count_first (by omega), limit_first (by omega), hc 0 hgroup]
      calc Nat.count (fun b => isClear f isBfree (groupAt group 0) b) (u + 1)
          ≤ Nat.count (fun b => isClear f isBfree (groupAt group 0) b) b :=
            Nat.count_monotone _ (by omega)
        _ < Nat.count (fun b => isClear f isBfree (groupAt group 0) b) (b + 1) := by
            rw [Nat.count_succ, if_pos hclear]
            omega
        _ ≤ _ := Nat.count_monotone _ (by omega)

lemma reached_and_keep_iff (hpos : 0 < bits s isBfree) (hgroup : 0 < group.length)
    (hc : Consistent f s group isBfree) :
    (bitScan f s group isBfree).Reached t ∧ (bitScan f s group isBfree).keep t ↔
      t < bits s isBfree ∧ isClear f isBfree (groupAt group 0) t := by
  rw [reached_iff hpos hgroup hc]
  constructor
  · rintro ⟨h, hkeep⟩
    have ht : t < bits s isBfree := by
      rcases h with rfl | ⟨b, htb, hb, -⟩ <;> omega
    exact ⟨ht, by rwa [keep_first (by omega)] at hkeep⟩
  · rintro ⟨ht, hclear⟩
    exact ⟨Or.inr ⟨t, le_rfl, ht, hclear⟩, by rwa [keep_first (by omega)]⟩

/-- The scan finds the clear bits of the first group. -/
lemma found_eq (hpos : 0 < bits s isBfree) (hgroup : 0 < group.length)
    (hc : Consistent f s group isBfree) :
    (bitScan f s group isBfree).found (group.length * (bits s isBfree * 8)) =
      ((List.range (bits s isBfree)).filter fun b => isClear f isBfree (groupAt group 0) b).map
        fun b => ((b + 1 : ℕ) : ℤ) := by
  obtain ⟨k, hk⟩ : ∃ k, group.length * (bits s isBfree * 8) = bits s isBfree + k := by
    refine Nat.exists_eq_add_of_le ?_
    calc bits s isBfree ≤ 1 * (bits s isBfree * 8) := by omega
      _ ≤ group.length * (bits s isBfree * 8) := Nat.mul_le_mul_right _ hgroup
  have hrest : ((List.range k).map (bits s isBfree + ·)).filter (fun t =>
      (bitScan f s group isBfree).Reached t ∧ (bitScan f s group isBfree).keep t) = [] := by
    rw [List.filter_eq_nil_iff, List.forall_mem_map]
    intro t _ h
    have := (reached_and_keep_iff hpos hgroup hc).mp (of_decide_eq_true h)
    omega
  unfold Scan.found
  rw [hk, List.range_add, List.filter_append, hrest, List.append_nil]
  have hfilter : ∀ t ∈ List.range (bits s isBfree),
      decide ((bitScan f s group isBfree).Reached t ∧ (bitScan f s group isBfree).keep t) =
        isClear f isBfree (groupAt group 0) t := by
    intro t ht
    rw [List.mem_range] at ht
    rw [Bool.eq_iff_iff, decide_eq_true_iff, reached_and_keep_iff hpos hgroup hc,
      and_iff_right ht]
  rw [List.filter_congr hfilter]
  refine List.map_congr_left fun t ht => out_first ?_
  have := List.mem_range.mp (List.mem_filter.mp ht).1
  omega

lemma inRange_iff (hpos : 0 < bits s isBfree) (hsmall : bits s isBfree < 2 ^ 31)
    (hgroup : 0 < group.length) (hc : Consistent f s group isBfree) :
    (∀ t < group.length * (bits s isBfree * 8), (bitScan f s group isBfree).Reached t →
      InRange f s group isBfree t) ↔
    ∀ b < bits s isBfree, b = 0 ∨ isClear f isBfree (groupAt group 0) b →
      blockAddress (bitmap isBfree (groupAt group 0)) + b / 8 < 2 ^ 31 := by
  have hle : bits s isBfree * 8 ≤ group.length * (bits s isBfree * 8) :=
    Nat.le_mul_of_pos_left _ hgroup
  have hfirst : ∀ t < bits s isBfree, InRange f s group isBfree t ↔
      blockAddress (bitmap isBfree (groupAt group 0)) + t / 8 < 2 ^ 31 := fun t ht => by
    have ht8 : t < bits s isBfree * 8 := by omega
    unfold InRange
    simp only [groupOf, bitOf, numberOf, Nat.div_eq_of_lt ht8, Nat.mod_eq_of_lt ht8]
    exact and_iff_left fun _ => by omega
  constructor
  · intro h b hb hb'
    refine (hfirst b hb).mp (h b (by omega) ((reached_iff hpos hgroup hc).mpr ?_))
    exact hb'.imp_right fun hclear => ⟨b, le_rfl, hb, hclear⟩
  · intro h t _ ht
    rcases (reached_iff hpos hgroup hc).mp ht with rfl | ⟨b, htb, hb, hclear⟩
    · exact (hfirst 0 hpos).mpr (h 0 hpos (Or.inl rfl))
    · have := h b hb (Or.inr hclear)
      exact (hfirst t (by omega)).mpr (by omega)

end complete

lemma exists_readFreeList_iff (hpos : 0 < bits s isBfree) (hsmall : bits s isBfree < 2 ^ 31)
    {p : List ℤ × ℕ → Prop} :
    (∃ l, readFreeList f s group isBfree = .ok l ∧ p l) ↔
      (∀ t < group.length * (bits s isBfree * 8), (bitScan f s group isBfree).Reached t →
        InRange f s group isBfree t) ∧
      p ((bitScan f s group isBfree).result (group.length * (bits s isBfree * 8))) := by
  simp only [readFreeList_eq_ok_iff hpos hsmall, and_assoc, exists_and_left, exists_eq_left]

lemma exists_readFreeList_iff_of_nonpos (h : perGroup s isBfree ≤ 0) {p : List ℤ × ℕ → Prop} :
    (∃ l, readFreeList f s group isBfree = .ok l ∧ p l) ↔
      (∀ i < group.length, IsInt (toInt (bitmap isBfree (groupAt group i)) * blockSize)) ∧
        p ([], 0) := by
  simp only [readFreeList_of_nonpos h, and_assoc, exists_and_left, exists_eq_left]

/-- The clear bits of the first group are all only if no other group has one. -/
lemma mem_found_iff_freeNumber (hpos : 0 < bits s isBfree) (hgroup : 0 < group.length)
    (hc : Consistent f s group isBfree) :
    (∀ n, n ∈ (bitScan f s group isBfree).found (group.length * (bits s isBfree * 8)) ↔
      FreeNumber f s group isBfree n) ↔
    ∀ i < group.length, 0 < i → NoneClear f s group isBfree i := by
  have hmem : ∀ n, n ∈ (bitScan f s group isBfree).found
      (group.length * (bits s isBfree * 8)) ↔ ∃ b < bits s isBfree,
        isClear f isBfree (groupAt group 0) b ∧ n = ((b + 1 : ℕ) : ℤ) := fun n => by
    rw [found_eq hpos hgroup hc, List.mem_map]
    simp only [List.mem_filter, List.mem_range, and_assoc, eq_comm (a := n)]
  simp only [hmem]
  constructor
  · intro h i hi hi0 b hb hclear
    obtain ⟨b', hb', -, heq⟩ := (h _).mpr ⟨i, hi, b, hb, rfl, hclear⟩
    have : bits s isBfree ≤ i * bits s isBfree := Nat.le_mul_of_pos_left _ hi0
    omega
  · intro h n
    constructor
    · rintro ⟨b, hb, hclear, rfl⟩
      exact ⟨0, hgroup, b, hb, by simp, hclear⟩
    · rintro ⟨i, hi, b, hb, rfl, hclear⟩
      rcases Nat.eq_zero_or_pos i with rfl | hi0
      · exact ⟨b, hb, hclear, by simp⟩
      · exact absurd hclear (h i hi hi0 b hb)

/-- **The free list is complete** exactly if the first group has all clear bits. -/
theorem readFreeList_complete_iff (hc : Consistent f s group isBfree) :
    (∃ l, readFreeList f s group isBfree = .ok l ∧ l.1.Pairwise (· < ·) ∧
      (∀ n, n ∈ l.1 ↔ FreeNumber f s group isBfree n) ∧ l.2 = l.1.length) ↔
    FirstHasAll f s group isBfree := by
  unfold FirstHasAll
  by_cases hpos : 0 < perGroup s isBfree
  · have hpos' := bits_pos hpos
    have hsmall := bits_lt hpos
    rw [if_pos hpos, exists_readFreeList_iff hpos' hsmall]
    rcases Nat.eq_zero_or_pos group.length with hzero | hgroup
    · simp [hzero, Scan.result, Scan.found, FreeNumber]
    · have hsorted : ((bitScan f s group isBfree).found
          (group.length * (bits s isBfree * 8))).Pairwise (· < ·) := by
        rw [found_eq hpos' hgroup hc]
        refine (List.pairwise_lt_range.filter _).map _ fun a b hab => ?_
        exact_mod_cast Nat.succ_lt_succ hab
      rw [inRange_iff hpos' hsmall hgroup hc, ← mem_found_iff_freeNumber hpos' hgroup hc]
      simp only [Scan.result, hgroup, hsorted, true_and, and_true, true_implies]
  · rw [if_neg hpos, exists_readFreeList_iff_of_nonpos (not_lt.mp hpos)]
    simp only [List.Pairwise.nil, List.not_mem_nil, false_iff, List.length_nil, true_and, and_true]
    constructor
    · rintro ⟨haddr, hnone⟩ i hi
      exact ⟨haddr i hi, fun b hb hclear => hnone _ ⟨i, hi, b, hb, rfl, hclear⟩⟩
    · intro h
      refine ⟨fun i hi => (h i hi).1, ?_⟩
      rintro n ⟨i, hi, b, hb, -, hclear⟩
      exact (h i hi).2 b hb hclear

/-- The second group's bit 7 is clear too, but the first group's count is reached before. -/
def twoGroups : ImageFile :=
  .ofCells 16384 [(1024, 16), (1028, 16), (1056, 8), (1064, 8), (1080, 0x53), (1081, 0xEF),
    (2048, 3), (2052, 4), (2056, 5), (2060, 1), (2080, 6), (2084, 7), (2088, 8), (2092, 1),
    (3072, 0x7F), (4096, 0xFF), (6144, 0x7F), (7168, 0xFF)]

def twoGroupsTable : List GroupDesc := [twoGroups.groupDesc 2048, twoGroups.groupDesc 2080]

theorem twoGroups_incomplete :
    readSuperblock twoGroups = .ok (twoGroups.superBlock 1024) ∧
    readGroup twoGroups (twoGroups.superBlock 1024) = .ok twoGroupsTable ∧
    Consistent twoGroups (twoGroups.superBlock 1024) twoGroupsTable true ∧
    readFreeList twoGroups (twoGroups.superBlock 1024) twoGroupsTable true = .ok ([8], 1) ∧
    ¬ ∃ l, readFreeList twoGroups (twoGroups.superBlock 1024) twoGroupsTable true = .ok l ∧
      l.1.Pairwise (· < ·) ∧
      (∀ n, n ∈ l.1 ↔ FreeNumber twoGroups (twoGroups.superBlock 1024) twoGroupsTable true n) ∧
      l.2 = l.1.length := by
  have hrun : readFreeList twoGroups (twoGroups.superBlock 1024) twoGroupsTable true =
      .ok ([8], 1) := by decide +kernel
  refine ⟨by decide +kernel, by decide +kernel, by decide +kernel, hrun, ?_⟩
  rintro ⟨l, hl, -, hmem, -⟩
  obtain rfl := Except.ok.inj (hrun.symm.trans hl)
  have hfree : FreeNumber twoGroups (twoGroups.superBlock 1024) twoGroupsTable true 16 := by
    decide +kernel
  exact absurd ((hmem 16).mpr hfree) (by decide)

theorem oneGroup_complete :
    ∃ l, readFreeList twoGroups (twoGroups.superBlock 1024) [twoGroups.groupDesc 2048] true =
      .ok l ∧ l.1.Pairwise (· < ·) ∧
      (∀ n, n ∈ l.1 ↔ FreeNumber twoGroups (twoGroups.superBlock 1024)
        [twoGroups.groupDesc 2048] true n) ∧ l.2 = l.1.length :=
  (readFreeList_complete_iff (by decide +kernel)).mpr (by decide +kernel)

/-! ### Lists that hold nothing else -/

variable (f s group isBfree) in
def clearAt (t : ℕ) : Bool :=
  isClear f isBfree (groupOf s group isBfree t) (bitOf s isBfree t)

variable (f s group isBfree) in
/-- Whatever the scan reaches lies in range, and a clear bit behind a bitmap, whose number
belongs to a later group, stands for a clear bit of that group that the scan does not find
itself. -/
def OverrunAgrees : Prop :=
  if 0 < perGroup s isBfree then
    ∀ t < group.length * (bits s isBfree * 8), (bitScan f s group isBfree).Reached t →
      InRange f s group isBfree t ∧
      (clearAt f s group isBfree t → bits s isBfree ≤ bitOf s isBfree t →
        (t / (bits s isBfree * 8) + bitOf s isBfree t / bits s isBfree < group.length ∧
          isClear f isBfree
            (groupAt group (t / (bits s isBfree * 8) + bitOf s isBfree t / bits s isBfree))
            (bitOf s isBfree t % bits s isBfree)) ∧
        ∀ u < group.length * (bits s isBfree * 8), (bitScan f s group isBfree).Reached u →
          clearAt f s group isBfree u → numberOf s isBfree u = numberOf s isBfree t → u = t)
  else
    ∀ i < group.length, IsInt (toInt (bitmap isBfree (groupAt group i)) * blockSize)

lemma freeNumber_iff {i b : ℕ} (hpos : 0 < bits s isBfree) :
    FreeNumber f s group isBfree (i * bits s isBfree + b + 1 : ℕ) ↔
      i + b / bits s isBfree < group.length ∧
        isClear f isBfree (groupAt group (i + b / bits s isBfree)) (b % bits s isBfree) := by
  have hsplit : i * bits s isBfree + b =
      (i + b / bits s isBfree) * bits s isBfree + b % bits s isBfree := by
    rw [Nat.add_mul, Nat.add_assoc, Nat.mul_comm (b / _), Nat.div_add_mod]
  constructor
  · rintro ⟨i', hi', b', hb', heq, hclear⟩
    have heq' : i * bits s isBfree + b = i' * bits s isBfree + b' := by omega
    rw [hsplit] at heq'
    have hi : i + b / bits s isBfree = i' := by
      have := congrArg (· / bits s isBfree) heq'
      rwa [mul_add_div_of_lt (Nat.mod_lt b hpos), mul_add_div_of_lt hb'] at this
    have hb : b % bits s isBfree = b' := by
      rw [hi] at heq'
      omega
    rw [hi, hb]
    exact ⟨hi', hclear⟩
  · rintro ⟨hi, hclear⟩
    exact ⟨_, hi, _, Nat.mod_lt b hpos, by rw [hsplit], hclear⟩

lemma freeNumber_numberOf_iff {t : ℕ} (hpos : 0 < bits s isBfree) :
    FreeNumber f s group isBfree (numberOf s isBfree t) ↔
      t / (bits s isBfree * 8) + bitOf s isBfree t / bits s isBfree < group.length ∧
        isClear f isBfree
          (groupAt group (t / (bits s isBfree * 8) + bitOf s isBfree t / bits s isBfree))
          (bitOf s isBfree t % bits s isBfree) :=
  freeNumber_iff hpos

/-- Positions in the bitmaps have different numbers. -/
lemma eq_of_numberOf_eq {t u : ℕ} (ht : bitOf s isBfree t < bits s isBfree)
    (hu : bitOf s isBfree u < bits s isBfree) (h : numberOf s isBfree u = numberOf s isBfree t) :
    u = t := by
  have heq : u / (bits s isBfree * 8) * bits s isBfree + bitOf s isBfree u =
      t / (bits s isBfree * 8) * bits s isBfree + bitOf s isBfree t := by
    unfold numberOf at h
    omega
  have hdiv : u / (bits s isBfree * 8) = t / (bits s isBfree * 8) := by
    have := congrArg (· / bits s isBfree) heq
    rwa [mul_add_div_of_lt hu, mul_add_div_of_lt ht] at this
  have hmod : u % (bits s isBfree * 8) = t % (bits s isBfree * 8) := by
    rw [hdiv] at heq
    exact Nat.add_left_cancel heq
  rw [← Nat.div_add_mod u (bits s isBfree * 8), hdiv, hmod, Nat.div_add_mod]

lemma mem_found_iff {n : ℕ} {x : ℤ} : x ∈ (bitScan f s group isBfree).found n ↔
    ∃ t < n, (bitScan f s group isBfree).Reached t ∧ clearAt f s group isBfree t ∧
      x = numberOf s isBfree t := by
  unfold Scan.found
  simp only [List.mem_map, List.mem_filter, List.mem_range, decide_eq_true_eq, and_assoc]
  exact exists_congr fun t => and_congr_right fun _ => and_congr_right fun _ =>
    and_congr_right fun _ => eq_comm

lemma nodup_found_iff {n : ℕ} : ((bitScan f s group isBfree).found n).Nodup ↔
    ∀ t < n, (bitScan f s group isBfree).Reached t → clearAt f s group isBfree t →
      ∀ u < n, (bitScan f s group isBfree).Reached u → clearAt f s group isBfree u →
        numberOf s isBfree u = numberOf s isBfree t → u = t := by
  unfold Scan.found
  rw [List.nodup_map_iff_inj_on (List.nodup_range.filter _)]
  simp only [List.mem_filter, List.mem_range, decide_eq_true_eq]
  constructor
  · intro h t ht hr hc u hu hru hcu heq
    exact h u ⟨hu, hru, hcu⟩ t ⟨ht, hr, hc⟩ (congrArg (fun n : ℕ => (n : ℤ)) heq)
  · rintro h u ⟨hu, hru, hcu⟩ t ⟨ht, hr, hc⟩ heq
    exact h t ht hr hc u hu hru hcu (Int.ofNat.inj heq)

/-- **The free list holds free numbers only**, none of them twice, exactly if the clear bits
found behind the bitmaps agree with the bitmaps. -/
theorem readFreeList_free_iff :
    (∃ l, readFreeList f s group isBfree = .ok l ∧
      (∀ n ∈ l.1, FreeNumber f s group isBfree n) ∧ l.1.Nodup) ↔
    OverrunAgrees f s group isBfree := by
  unfold OverrunAgrees
  by_cases hpos : 0 < perGroup s isBfree
  · have hpos' := bits_pos hpos
    rw [if_pos hpos, exists_readFreeList_iff hpos' (bits_lt hpos)]
    simp only [Scan.result, nodup_found_iff]
    constructor
    · rintro ⟨hrange, hfree, hnodup⟩ t ht hr
      refine ⟨hrange t ht hr, fun hc _ => ⟨?_, hnodup t ht hr hc⟩⟩
      exact (freeNumber_numberOf_iff hpos').mp
        (hfree _ (mem_found_iff.mpr ⟨t, ht, hr, hc, rfl⟩))
    · intro h
      refine ⟨fun t ht hr => (h t ht hr).1, fun n hn => ?_, ?_⟩
      · obtain ⟨t, ht, hr, hc, rfl⟩ := mem_found_iff.mp hn
        rw [freeNumber_numberOf_iff hpos']
        by_cases hb : bits s isBfree ≤ bitOf s isBfree t
        · exact ((h t ht hr).2 hc hb).1
        · have hgroup : t / (bits s isBfree * 8) < group.length :=
            Nat.div_lt_of_lt_mul (by rwa [Nat.mul_comm])
          rw [Nat.div_eq_of_lt (not_le.mp hb), Nat.mod_eq_of_lt (not_le.mp hb), Nat.add_zero]
          exact ⟨hgroup, hc⟩
      · intro t ht hr hc u hu hru hcu heq
        by_cases hb : bits s isBfree ≤ bitOf s isBfree t
        · exact ((h t ht hr).2 hc hb).2 u hu hru hcu heq
        · by_cases hb' : bits s isBfree ≤ bitOf s isBfree u
          · exact (((h u hu hru).2 hcu hb').2 t ht hr hc heq.symm).symm
          · exact eq_of_numberOf_eq (not_le.mp hb) (not_le.mp hb') heq
  · rw [if_neg hpos, exists_readFreeList_iff_of_nonpos (not_lt.mp hpos)]
    simp

/-- The bitmap has one clear bit where the count says two, so that the scan goes on behind
the eight bits of the group. -/
def miscounted : ImageFile :=
  .ofCells 8192 [(1024, 8), (1028, 8), (1056, 8), (1064, 8), (1080, 0x53), (1081, 0xEF),
    (2048, 3), (2052, 4), (2056, 5), (2060, 2), (3072, 0x7F), (4096, 0xFF)]

theorem miscounted_overrun :
    readSuperblock miscounted = .ok (miscounted.superBlock 1024) ∧
    readGroup miscounted (miscounted.superBlock 1024) = .ok [miscounted.groupDesc 2048] ∧
    readFreeList miscounted (miscounted.superBlock 1024) [miscounted.groupDesc 2048] true =
      .ok ([8, 9], 2) ∧
    ¬ ∃ l, readFreeList miscounted (miscounted.superBlock 1024) [miscounted.groupDesc 2048]
        true = .ok l ∧
      (∀ n ∈ l.1, FreeNumber miscounted (miscounted.superBlock 1024)
        [miscounted.groupDesc 2048] true n) ∧ l.1.Nodup := by
  have hrun : readFreeList miscounted (miscounted.superBlock 1024) [miscounted.groupDesc 2048]
      true = .ok ([8, 9], 2) := by decide +kernel
  refine ⟨by decide +kernel, by decide +kernel, hrun, ?_⟩
  rintro ⟨l, hl, hfree, -⟩
  obtain rfl := Except.ok.inj (hrun.symm.trans hl)
  have hnot : ¬ FreeNumber miscounted (miscounted.superBlock 1024)
      [miscounted.groupDesc 2048] true 9 := by decide +kernel
  exact hnot (hfree 9 (by decide))

end LowLevelTasks.FreeNumbers
