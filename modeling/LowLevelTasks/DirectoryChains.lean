import LowLevelTasks.DirectoryBlocks
import LowLevelTasks.InodeTable
import Mathlib.Algebra.Ring.Nat

/-!
What the scan of a directory block does with the chain of its records. It ends unless it comes
to a record without a length, and on a well-formed chain it finds the records before the first
one that names no inode.
-/

namespace LowLevelTasks.DirectoryChains

open LowLevelTasks.ImgReader LowLevelTasks.Loops LowLevelTasks.InodeTable
  LowLevelTasks.DirectoryBlocks Relation

variable {f : ImageFile} {block : UInt32} {parent : ℤ} {st st' : BlockScan} {o : ℕ}

/-! ### Single rounds -/

lemma imgRead_ne_running {α : Type} {read : ℕ → α} {o k : ℤ} :
    imgRead read o k ≠ .error .running := by
  refine bind_ne_error ?_ fun a => ?_
  · unfold int
    split <;> simp
  · split <;> simp

lemma int_ne_running {x : ℤ} : int x ≠ .error .running := by
  unfold int
  split <;> simp

lemma entryRound_ne_running {readBlock : ℤ} :
    entryRound f parent readBlock st ≠ .error .running := by
  unfold entryRound
  split
  · refine bind_ne_error imgRead_ne_running fun _ => bind_ne_error imgRead_ne_running fun _ =>
      bind_ne_error int_ne_running fun _ => bind_ne_error imgRead_ne_running fun _ =>
      bind_ne_error int_ne_running fun _ => bind_ne_error int_ne_running fun _ => by simp
  · simp

/-- What a round that goes on tells of its record. -/
lemma inRange_of_yield (hat : At f block o st)
    (h : entryRound f parent (toInt block) st = .ok (.yield st')) :
    (recordAt f block o).inode ≠ 0 ∧ o < 1024 ∧ blockAddress block + o + 8 < 2 ^ 31 ∧
      blockAddress block + o + recLen f block o < 2 ^ 31 := by
  obtain ⟨hoffset, hblock, hfeeler⟩ := hat
  unfold entryRound at h
  split at h
  case isFalse => cases h
  case isTrue hgo =>
    obtain ⟨entry, hentry, h⟩ := bind_eq_ok_iff.mp h
    obtain ⟨name, hname, h⟩ := bind_eq_ok_iff.mp h
    obtain ⟨offset, hmove, h⟩ := bind_eq_ok_iff.mp h
    obtain ⟨feeler, hnext, -⟩ := bind_eq_ok_iff.mp h
    obtain ⟨-, -, hentry⟩ := imgRead_eq_ok_iff.mp hentry
    obtain ⟨⟨-, hname⟩, -⟩ := imgRead_eq_ok_iff.mp hname
    obtain ⟨⟨-, hnext⟩, -⟩ := imgRead_eq_ok_iff.mp hnext
    rw [hblock, add_zero, Int.toNat_natCast] at hentry
    rw [hblock, direntSize] at hname
    rw [hblock, ← hentry, ← Nat.cast_add] at hnext
    rw [hoffset, hfeeler, blockSize] at hgo
    exact ⟨hgo.1, by omega, by omega, by exact_mod_cast hnext⟩

/-- A round that goes on moves to the next record. -/
lemma step_yield (hat : At f block o st)
    (h : entryRound f parent (toInt block) st = .ok (.yield st')) :
    At f block (o + recLen f block o) st' := by
  obtain ⟨hinode, ho, hname, hnext⟩ := inRange_of_yield hat h
  obtain ⟨st'', hst, hat', -⟩ := entryRound_yield parent hat hinode ho hname hnext
  cases hst.symm.trans h
  exact hat'

variable (f block) in
lemma blockStart_ok (h : blockAddress block < 2 ^ 31) :
    ∃ st, blockStart f (toInt block) = .ok st ∧ At f block 0 st ∧ st.dirents = [] := by
  have hread : imgRead f.u32 (blockAddress block : ℤ) 0 = .ok (recordAt f block 0).inode := by
    rw [recordAt_inode]
    exact imgRead_ok (a := blockAddress block + 0) (by simp) (by omega)
  refine ⟨⟨0, blockAddress block, (recordAt f block 0).inode, []⟩, ?_, ⟨rfl, by simp, rfl⟩, rfl⟩
  unfold blockStart
  rw [setBlock_ok h, ok_bind, hread, ok_bind]

lemma blockStart_error (h : 2 ^ 31 ≤ blockAddress block) :
    blockStart f (toInt block) = .error (blockError block) := setBlock_error h

/-! ### Every block -/

variable (f block) in
/-- The record at `o` names an inode, and the next one follows it. -/
def Follows (o o' : ℕ) : Prop :=
  (recordAt f block o).inode ≠ 0 ∧ o < 1024 ∧ o' = o + recLen f block o

variable (f block) in
/-- The records that a scan comes to if it reads all of them. -/
def Visited (o : ℕ) : Prop := ReflTransGen (Follows f block) 0 o

lemma Follows.le {o o' : ℕ} (h : ReflTransGen (Follows f block) o o') : o ≤ o' := by
  induction h with
  | refl => exact le_rfl
  | tail _ h ih => exact ih.trans (h.2.2 ▸ Nat.le_add_right _ _)

variable (f block) in
/-- Every record the scan comes to has a length, unless its name is out of reach. -/
def Advances : Prop :=
  ∀ o, Visited f block o → (recordAt f block o).inode ≠ 0 → o < 1024 →
    blockAddress block + o + 8 < 2 ^ 31 → recLen f block o ≠ 0

/-- The states of the loop stand at the records visited. -/
lemma visited_of_reaches {st₀ : BlockScan} (hat : At f block 0 st₀)
    (h : ReflTransGen (Next (entryRound f parent (toInt block))) st₀ st) :
    ∃ o, Visited f block o ∧ At f block o st := by
  induction h with
  | refl => exact ⟨0, .refl, hat⟩
  | tail _ hnext ih =>
    obtain ⟨o, hvisited, hat⟩ := ih
    obtain ⟨hinode, ho, -⟩ := inRange_of_yield hat hnext
    exact ⟨_, hvisited.tail ⟨hinode, ho, rfl⟩, step_yield hat hnext⟩

variable (parent) in
/-- Before a record without a length the loop goes on in every round. -/
lemma goes_on (hlen : recLen f block o = 0) (hinode : (recordAt f block o).inode ≠ 0)
    (ho : o < 1024) (hname : blockAddress block + o + 8 < 2 ^ 31)
    (h : ∃ a, At f block a st ∧ ReflTransGen (Follows f block) a o) :
    ∃ st', entryRound f parent (toInt block) st = .ok (.yield st') ∧
      ∃ a, At f block a st' ∧ ReflTransGen (Follows f block) a o := by
  obtain ⟨a, hat, hlead⟩ := h
  rcases hlead.cases_head with rfl | ⟨b, ⟨hinode', ha, rfl⟩, hlead'⟩
  · obtain ⟨st', hst, hat', -⟩ :=
      entryRound_yield parent hat hinode ho hname (by omega)
    rw [hlen] at hat'
    exact ⟨st', hst, a, hat', .refl⟩
  · have hle := Follows.le hlead'
    obtain ⟨st', hst, hat', -⟩ :=
      entryRound_yield parent hat hinode' ha (by omega) (by omega)
    exact ⟨st', hst, _, hat', hlead'⟩

/-- A round that goes on comes to a record visited, with a larger offset. -/
lemma Advances.grows (h : Advances f block) {st' : BlockScan}
    (hst : ∃ o, Visited f block o ∧ At f block o st)
    (hyield : entryRound f parent (toInt block) st = .ok (.yield st')) :
    (∃ o, Visited f block o ∧ At f block o st') ∧ st.offset < st'.offset ∧ st.offset < 1024 := by
  obtain ⟨o, hvisited, hat⟩ := hst
  obtain ⟨hinode, ho, hname, -⟩ := inRange_of_yield hat hyield
  have hlen := h o hvisited hinode ho hname
  have hat' := step_yield hat hyield
  refine ⟨⟨_, hvisited.tail ⟨hinode, ho, rfl⟩, hat'⟩, ?_⟩
  rw [hat.1, hat'.1]
  omega

/-- **The scan of a block ends**, with an offset that grows in every round, exactly if the
records it comes to have lengths. -/
theorem readDirBlock_ends_iff :
    ((∃ fuel, readDirBlock f fuel parent (toInt block) ≠ .error .running) ∧
      ∀ st₀ st st', blockStart f (toInt block) = .ok st₀ →
        ReflTransGen (Next (entryRound f parent (toInt block))) st₀ st →
        entryRound f parent (toInt block) st = .ok (.yield st') → st.offset < st'.offset) ↔
    Advances f block := by
  constructor
  · rintro ⟨⟨fuel, hends⟩, -⟩ o hvisited hinode ho hname hlen
    obtain ⟨st₀, hst₀, hat, -⟩ := blockStart_ok f block (by omega)
    refine hends ?_
    unfold readDirBlock
    rw [hst₀, ok_bind, whileLoop_eq_timeout
      (fun st h => goes_on parent hlen hinode ho hname h) ⟨0, hat, hvisited⟩]
    rfl
  · intro h
    by_cases haddr : blockAddress block < 2 ^ 31
    · obtain ⟨st₀, hst₀, hat, -⟩ := blockStart_ok f block haddr
      constructor
      · refine ⟨1025, ?_⟩
        unfold readDirBlock
        rw [hst₀, ok_bind]
        refine bind_ne_error (whileLoop_ne_timeout (p := fun st => ∃ o, Visited f block o ∧
          At f block o st) (fun st => (1024 - st.offset).toNat) (fun st st' hp hyield => ?_)
          (fun st => entryRound_ne_running) ⟨0, .refl, hat⟩ ?_) fun _ => by simp
        · obtain ⟨hp', hlt, hbound⟩ := h.grows hp hyield
          exact ⟨hp', by omega⟩
        · rw [hat.1]
          decide
      · intro st₁ st st' hst₁ hreach hyield
        cases hst₀.symm.trans hst₁
        exact (h.grows (visited_of_reaches hat hreach) hyield).2.1
    · rw [blockStart_error (not_lt.mp haddr)]
      refine ⟨⟨0, ?_⟩, fun _ _ _ h => by cases h⟩
      unfold readDirBlock
      rw [blockStart_error (not_lt.mp haddr)]
      unfold blockError
      split <;> simp [bind, Except.bind]

/-- A directory whose first record has no length. -/
def stuck : ImageFile :=
  .ofCells 7168 [(1024, 8), (1028, 7), (1056, 8), (1064, 8), (1080, 0x53), (1081, 0xEF),
    (2048, 3), (2052, 4), (2056, 5), (5249, 0x41), (5274, 1), (5288, 6), (6144, 2)]

theorem stuck_never_ends :
    readInode stuck (stuck.superBlock 1024) [stuck.groupDesc 2048] =
      .ok [⟨2, stuck.inode 5248⟩] ∧
    (stuck.inode 5248).iMode &&& 0xF000 = 0x4000 ∧ (stuck.inode 5248).iBlock[0] = 6 ∧
    ¬ ∃ fuel, readDirBlock stuck fuel 2 (toInt 6) ≠ .error .running := by
  refine ⟨by decide +kernel, by decide +kernel, by decide +kernel, ?_⟩
  rintro ⟨fuel, hends⟩
  obtain ⟨st₀, hst₀, hat, -⟩ := blockStart_ok stuck 6 (by decide)
  refine hends ?_
  unfold readDirBlock
  rw [hst₀, ok_bind, whileLoop_eq_timeout (fun st h => goes_on 2 (o := 0)
    (by decide +kernel) (by decide +kernel) (by decide) (by decide) h) ⟨0, hat, .refl⟩]
  rfl

/-! ### Well-formed blocks -/

variable (f block) in
/-- The records from an offset on: they have lengths that leave room for the names, and they
end where the block ends. -/
inductive Chain : ℕ → List ℕ → Prop
  | done : Chain 1024 []
  | record {o : ℕ} {os : List ℕ} (haligned : recLen f block o % 4 = 0)
      (hroom : 8 + (recordAt f block o).nameLen.toNat ≤ recLen f block o)
      (hrest : Chain (o + recLen f block o) os) : Chain o (o :: os)

variable (f block) in
/-- The records before the first one without an inode. -/
def live (os : List ℕ) : List ℕ := os.takeWhile fun o => (recordAt f block o).inode ≠ 0

variable (f block) in
def liveLength (os : List ℕ) : ℕ := ((live f block os).map (recLen f block)).sum

lemma Chain.le {os : List ℕ} (h : Chain f block o os) : o ≤ 1024 := by
  induction h with
  | done => exact le_rfl
  | record _ _ _ ih => omega

lemma Chain.mem_le {os : List ℕ} (h : Chain f block o os) {a : ℕ} (ha : a ∈ os) :
    a + 8 + (recordAt f block a).nameLen.toNat ≤ 1024 := by
  induction h with
  | done => cases ha
  | record _ hroom hrest ih =>
    rcases List.mem_cons.mp ha with rfl | ha
    · have := hrest.le
      omega
    · exact ih ha

variable (parent) in
lemma entryRound_stops (hat : At f block o st) (hinode : (recordAt f block o).inode ≠ 0)
    (ho : o < 1024) (hnext : ¬ blockAddress block + o + recLen f block o < 2 ^ 31) :
    ∃ e, entryRound f parent (toInt block) st = .error e := by
  cases h : entryRound f parent (toInt block) st with
  | error e => exact ⟨e, rfl⟩
  | ok r =>
    cases r with
    | yield st' => exact absurd (inRange_of_yield hat h).2.2.2 hnext
    | done st' =>
      unfold entryRound at h
      rw [if_pos ⟨by rwa [hat.2.2], by rw [hat.1, blockSize]; omega⟩] at h
      simp only [bind_eq_ok_iff, Except.ok.injEq, reduceCtorEq, and_false, exists_false] at h

/-- A scan that ends at once finds nothing. -/
lemma chain_stops {os : List ℕ} (hlive : live f block os = [])
    (hdone : entryRound f parent (toInt block) st = .ok (.done st))
    (haddr : blockAddress block + o < 2 ^ 31) :
    (∀ r, (∃ fuel, whileLoop (entryRound f parent (toInt block)) .running fuel st = .ok r) →
      blockAddress block + o + liveLength f block os < 2 ^ 31 ∧
        r.dirents = st.dirents ++ (live f block os).map (scannedAt f block parent)) ∧
    (blockAddress block + o + liveLength f block os < 2 ^ 31 → ∃ r fuel,
      whileLoop (entryRound f parent (toInt block)) .running fuel st = .ok r) := by
  unfold liveLength
  rw [hlive]
  simp only [exists_whileLoop_done hdone]
  refine ⟨?_, fun _ => ⟨st, rfl⟩⟩
  rintro r rfl
  simpa using haddr

variable (parent) in
/-- The scan of a chain finds its live records, if their ends are in range. -/
lemma chain_run {os : List ℕ} (hchain : Chain f block o os) (hat : At f block o st)
    (haddr : blockAddress block + o < 2 ^ 31) :
    (∀ r, (∃ fuel, whileLoop (entryRound f parent (toInt block)) .running fuel st = .ok r) →
      blockAddress block + o + liveLength f block os < 2 ^ 31 ∧
        r.dirents = st.dirents ++ (live f block os).map (scannedAt f block parent)) ∧
    (blockAddress block + o + liveLength f block os < 2 ^ 31 → ∃ r fuel,
      whileLoop (entryRound f parent (toInt block)) .running fuel st = .ok r) := by
  induction hchain generalizing st with
  | done => exact chain_stops rfl (entryRound_done parent hat (by simp)) haddr
  | @record o os haligned hroom hrest ih =>
    by_cases hinode : (recordAt f block o).inode = 0
    · exact chain_stops (List.takeWhile_cons_of_neg (by simpa))
        (entryRound_done parent hat (by simp [hinode])) haddr
    · have hlive : live f block (o :: os) = o :: live f block os :=
        List.takeWhile_cons_of_pos (by simpa)
      have ho := hrest.le
      unfold liveLength at *
      rw [hlive, List.map_cons, List.sum_cons, ← Nat.add_assoc]
      by_cases hnext : blockAddress block + o + recLen f block o < 2 ^ 31
      · obtain ⟨st', hst', hat', hdirents⟩ := entryRound_yield parent hat hinode
          (by omega) (by omega) hnext
        obtain ⟨hres, hend⟩ := ih hat' (by omega)
        rw [← Nat.add_assoc] at hres hend
        simp only [exists_whileLoop_yield hst']
        refine ⟨fun r h => ?_, hend⟩
        obtain ⟨hlt, hr⟩ := hres r h
        refine ⟨hlt, ?_⟩
        rw [hr, hdirents, List.map_cons, List.append_assoc, List.singleton_append]
      · obtain ⟨e, he⟩ := entryRound_stops parent hat hinode (by omega) hnext
        exact ⟨fun r h => absurd h (not_exists_whileLoop he), fun h => by omega⟩

lemma filter_eq_takeWhile_iff {α : Type} (p : α → Bool) (l : List α) :
    l.filter p = l.takeWhile p ↔ (l.filter p).length = (l.takeWhile p).length := by
  have hsplit : l.filter p = l.takeWhile p ++ (l.dropWhile p).filter p := by
    conv_lhs => rw [← List.takeWhile_append_dropWhile (p := p) (l := l)]
    rw [List.filter_append, List.filter_eq_self.mpr fun a ha => List.mem_takeWhile_imp ha]
  refine ⟨fun h => congrArg _ h, fun h => ?_⟩
  rw [hsplit, List.length_append, Nat.add_eq_left, List.length_eq_zero_iff] at h
  rw [hsplit, h, List.append_nil]

/-- What is kept is what comes first only if nothing to keep follows something to drop. -/
lemma length_filter_eq_iff {α : Type} (p : α → Bool) (l : List α) :
    (l.filter p).length = (l.takeWhile p).length ↔ l.Pairwise fun a b => p b → p a := by
  induction l with
  | nil => simp
  | cons a l ih =>
    rw [List.pairwise_cons]
    by_cases ha : p a
    · rw [List.filter_cons_of_pos ha, List.takeWhile_cons_of_pos ha, List.length_cons,
        List.length_cons, Nat.add_right_cancel_iff, ih]
      simp [ha]
    · rw [List.filter_cons_of_neg ha, List.takeWhile_cons_of_neg ha, List.length_nil,
        List.length_eq_zero_iff, List.filter_eq_nil_iff]
      have hvac : ∀ h : ∀ b ∈ l, ¬ p b, l.Pairwise fun a b => p b → p a := fun h =>
        List.pairwise_of_forall_mem_list fun _ _ b hb hpb => absurd hpb (h b hb)
      exact ⟨fun h => ⟨fun b hb hpb => absurd hpb (h b hb), hvac h⟩,
        fun h b hb hpb => ha (h.1 b hb hpb)⟩

lemma scannedAt_eq_entryAt_iff (hname : blockAddress block + o + 8 +
    (recordAt f block o).nameLen.toNat ≤ f.size) :
    scannedAt f block parent o = entryAt f block parent o ↔
      (nameAt f block o).Pairwise fun a b => a = 0 → b = 0 := by
  have hbytes : f.bytes (recordAt f block o).nameLen.toNat (blockAddress block + o + 8) =
      Buffers.strncpy (nameAt f block o).length (nameAt f block o) := by
    unfold ImageFile.bytes nameAt
    rw [Nat.min_eq_left (by omega)]
  rw [← Buffers.strncpy_eq_self_iff, ← hbytes]
  simp [scannedAt, entryAt]

/-- A scan of a well-formed block returns its live records. -/
lemma readDirBlock_eq_ok_iff {os : List ℕ} (hchain : Chain f block 0 os) {out : List Dirent} :
    (∃ fuel, readDirBlock f fuel parent (toInt block) = .ok out) ↔
      blockAddress block + liveLength f block os < 2 ^ 31 ∧
        out = (live f block os).map (scannedAt f block parent) := by
  unfold readDirBlock
  by_cases haddr : blockAddress block < 2 ^ 31
  · obtain ⟨st₀, hst₀, hat, hnil⟩ := blockStart_ok f block haddr
    obtain ⟨hres, hend⟩ := chain_run parent hchain hat (by omega)
    rw [hst₀]
    simp only [ok_bind, bind_eq_ok_iff, Except.ok.injEq]
    rw [add_zero] at hres hend
    rw [hnil, List.nil_append] at hres
    constructor
    · rintro ⟨fuel, r, hr, rfl⟩
      exact hres r ⟨fuel, hr⟩
    · rintro ⟨hlt, rfl⟩
      obtain ⟨r, fuel, hr⟩ := hend hlt
      exact ⟨fuel, r, hr, (hres r ⟨fuel, hr⟩).2⟩
  · rw [blockStart_error (not_lt.mp haddr)]
    constructor
    · rintro ⟨fuel, h⟩
      cases h
    · rintro ⟨hlt, -⟩
      omega

/-- What is found is what there is, record by record. -/
lemma live_eq_iff {os : List ℕ} (hchain : Chain f block 0 os)
    (hsize : blockAddress block + 1024 ≤ f.size) :
    (os.filter fun o => (recordAt f block o).inode ≠ 0).map (entryAt f block parent) =
      (live f block os).map (scannedAt f block parent) ↔
    (os.Pairwise fun a b => (recordAt f block b).inode ≠ 0 → (recordAt f block a).inode ≠ 0) ∧
      ∀ o ∈ os, (recordAt f block o).inode ≠ 0 →
        (nameAt f block o).Pairwise fun a b => a = 0 → b = 0 := by
  have hname : ∀ o ∈ os, scannedAt f block parent o = entryAt f block parent o ↔
      (nameAt f block o).Pairwise fun a b => a = 0 → b = 0 := fun o ho =>
    scannedAt_eq_entryAt_iff (by have := hchain.mem_le ho; omega)
  have hpairs : (os.filter fun o => (recordAt f block o).inode ≠ 0) = live f block os ↔
      os.Pairwise fun a b => (recordAt f block b).inode ≠ 0 → (recordAt f block a).inode ≠ 0 := by
    unfold live
    rw [filter_eq_takeWhile_iff, length_filter_eq_iff]
    simp only [decide_eq_true_eq]
  rw [← hpairs]
  constructor
  · intro h
    have hlength := congrArg List.length h
    rw [List.length_map, List.length_map] at hlength
    have hlive : (os.filter fun o => (recordAt f block o).inode ≠ 0) = live f block os :=
      (filter_eq_takeWhile_iff _ _).mpr hlength
    refine ⟨hlive, fun o ho hinode => (hname o ho).mp ?_⟩
    rw [hlive] at h
    exact (List.map_inj_left.mp h o (hlive ▸ List.mem_filter.mpr ⟨ho, by simpa⟩)).symm
  · rintro ⟨hlive, hnames⟩
    rw [← hlive]
    refine List.map_congr_left fun o ho => ?_
    obtain ⟨ho, hinode⟩ := List.mem_filter.mp ho
    exact ((hname o ho).mpr (hnames o ho (by simpa using hinode))).symm

variable (f block) in
/-- Records without an inode stand at the end only, the names listed have nothing but zeros
behind their first zero, and the live records end in range; or the number of the block is
negative as an `int`, so that it is passed over, and no record names an inode. -/
def DeletedLast (os : List ℕ) : Prop :=
  if block.toNat < 2 ^ 31 then
    (os.Pairwise fun a b => (recordAt f block b).inode ≠ 0 → (recordAt f block a).inode ≠ 0) ∧
    (∀ o ∈ os, (recordAt f block o).inode ≠ 0 →
      (nameAt f block o).Pairwise fun a b => a = 0 → b = 0) ∧
    blockAddress block + liveLength f block os < 2 ^ 31
  else ∀ o ∈ os, (recordAt f block o).inode = 0

instance (os : List ℕ) : Decidable (DeletedLast f block os) :=
  inferInstanceAs (Decidable (@ite Prop _ _ _ _))

/-- **The scan of a well-formed block is exact** only if its deleted records stand last. -/
theorem directBlock_exact_iff {os : List ℕ} (hchain : Chain f block 0 os)
    (hsize : blockAddress block + 1024 ≤ f.size) (hblock : block ≠ 0) :
    (∃ fuel, directBlock f fuel parent block =
      .ok ((os.filter fun o => (recordAt f block o).inode ≠ 0).map (entryAt f block parent))) ↔
    DeletedLast f block os := by
  unfold DeletedLast directBlock
  have hpos : 0 < block.toNat := by
    rw [Nat.pos_iff_ne_zero, ne_eq, ← UInt32.toNat_zero, UInt32.toNat_inj]
    exact hblock
  by_cases hsmall : block.toNat < 2 ^ 31
  · have hint : 0 < toInt block := toInt_pos_iff.mpr ⟨hpos, hsmall⟩
    simp only [if_pos hsmall, if_pos hint]
    rw [readDirBlock_eq_ok_iff hchain, live_eq_iff hchain hsize, and_comm, and_assoc]
  · have hint : ¬ 0 < toInt block := fun h => hsmall (toInt_pos_iff.mp h).2
    simp only [if_neg hsmall, if_neg hint, exists_const]
    rw [Except.ok.injEq, eq_comm, List.map_eq_nil_iff, List.filter_eq_nil_iff]
    simp

/-- The first two entries of a directory. -/
def twoEntries : ImageFile :=
  .ofCells 7168 [(6144, 2), (6148, 12), (6150, 1), (6152, 46), (6156, 2), (6160, 0xF4),
    (6161, 3), (6162, 2), (6164, 46), (6165, 46)]

lemma twoEntries_chain : Chain twoEntries 6 0 [0, 12] := by
  have hlen : recLen twoEntries 6 0 = 12 ∧ recLen twoEntries 6 12 = 1012 := by decide +kernel
  refine .record (by decide +kernel) (by decide +kernel) ?_
  rw [hlen.1]
  refine .record (by decide +kernel) (by decide +kernel) ?_
  rw [hlen.2]
  exact .done

theorem twoEntries_exact : ∃ fuel, directBlock twoEntries fuel 2 6 =
    .ok (([0, 12].filter fun o => (recordAt twoEntries 6 o).inode ≠ 0).map
      (entryAt twoEntries 6 2)) :=
  (directBlock_exact_iff twoEntries_chain (by decide) (by decide)).mpr (by decide +kernel)

/-- A deleted entry between two others. -/
def deletedBetween : ImageFile :=
  .ofCells 7168 [(1024, 8), (1028, 7), (1056, 8), (1064, 8), (1080, 0x53), (1081, 0xEF),
    (2048, 3), (2052, 4), (2056, 5), (5249, 0x41), (5274, 1), (5288, 6), (6144, 2), (6148, 12),
    (6150, 1), (6152, 46), (6160, 12), (6168, 11), (6172, 0xE8), (6173, 3), (6174, 1),
    (6176, 97)]

theorem deletedBetween_hides :
    readInode deletedBetween (deletedBetween.superBlock 1024) [deletedBetween.groupDesc 2048] =
      .ok [⟨2, deletedBetween.inode 5248⟩] ∧
    (deletedBetween.inode 5248).iMode &&& 0xF000 = 0x4000 ∧
    (deletedBetween.inode 5248).iBlock[0] = 6 ∧
    Chain deletedBetween 6 0 [0, 12, 24] ∧ (recordAt deletedBetween 6 24).inode = 11 ∧
    (∃ fuel, directBlock deletedBetween fuel 2 6 = .ok [entryAt deletedBetween 6 2 0]) ∧
    ¬ ∃ fuel, directBlock deletedBetween fuel 2 6 =
      .ok (([0, 12, 24].filter fun o => (recordAt deletedBetween 6 o).inode ≠ 0).map
        (entryAt deletedBetween 6 2)) := by
  have hchain : Chain deletedBetween 6 0 [0, 12, 24] := by
    have hlen : recLen deletedBetween 6 0 = 12 ∧ recLen deletedBetween 6 12 = 12 ∧
        recLen deletedBetween 6 24 = 1000 := by decide +kernel
    refine .record (by decide +kernel) (by decide +kernel) ?_
    rw [hlen.1]
    refine .record (by decide +kernel) (by decide +kernel) ?_
    rw [hlen.2.1]
    refine .record (by decide +kernel) (by decide +kernel) ?_
    rw [hlen.2.2]
    exact .done
  have hread : ∀ fuel, directBlock deletedBetween fuel 2 6 =
      readDirBlock deletedBetween fuel 2 (toInt 6) := fun _ => if_pos (by decide)
  simp only [hread, readDirBlock_eq_ok_iff hchain]
  refine ⟨by decide +kernel, by decide +kernel, by decide +kernel, hchain, ?_⟩
  decide +kernel

end LowLevelTasks.DirectoryChains
