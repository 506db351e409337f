import LowLevelTasks.Buffers
import LowLevelTasks.Folds
import LowLevelTasks.Sublists

/-!
The check of the sublists at the end of project 2b. The flags that the threads have set are
cleared with `memset`, which counts bytes: of `num_lists` flags with four bytes each it clears
the first quarter, and the sublists whose flags are still set are not checked.
-/

namespace LowLevelTasks.FinalCheck

open LowLevelTasks.Buffers LowLevelTasks.SortedList LowLevelTasks.Sublists

/-! ### Flags in memory -/

/-- An `int` in the bytes of an array, the lowest byte first. -/
def readInt (array : List UInt8) (a : ℕ) : ℕ :=
  (array.getD a 0).toNat + 256 * (array.getD (a + 1) 0).toNat +
    65536 * (array.getD (a + 2) 0).toNat + 16777216 * (array.getD (a + 3) 0).toNat

def writeInt (array : List UInt8) (a : ℕ) (v : UInt32) : List UInt8 :=
  (((array.set a v.toUInt8).set (a + 1) (v >>> 8).toUInt8).set (a + 2) (v >>> 16).toUInt8).set
    (a + 3) (v >>> 24).toUInt8

/-- The flag of a sublist. -/
def flag (listCount : List UInt8) (bin : ℕ) : ℕ := readInt listCount (4 * bin)

/-- All threads have returned from their checks. -/
structure Counted (numLists : ℕ) (listCount : List UInt8) : Prop where
  length_eq : listCount.length = 4 * numLists
  flags : ∀ bin < numLists, flag listCount bin = 1

/-! ### The check -/

structure Check where
  listCount : List UInt8
  listCountTotal : ℤ
  /-- The sublists on which `SortedList_length` has run. -/
  checked : List ℕ

section

variable (numElements : ℕ) (h : Heap Addr) (enforce : ℕ)

/-- A round of `check_correct_list_length`; the error is the exit with status 2. -/
def checkRound (s : Check) (bin : ℕ) : Except (List ℕ) Check :=
  if flag s.listCount bin = 0 then
    let count := sortedListLength numElements h (.list bin)
    let checked := s.checked ++ [bin]
    if count = -1 ∧ enforce = 1 then .error checked
    else .ok ⟨writeInt s.listCount (4 * bin) 1, s.listCountTotal + count, checked⟩
  else .ok s

def checkCorrectListLength (numLists : ℕ) (s : Check) : Except (List ℕ) Check :=
  (List.range numLists).foldlM (checkRound numElements h enforce) s

/-- The sublists that are checked, and whether the program exits with status 2. -/
structure Ending where
  checked : List ℕ
  exited : Bool
deriving DecidableEq

/-- What `main` does once it has joined the threads. `dummy` says whether the pointer that is
passed for the time, which is not initialised, can be written through; else the signal handler
ends the program. -/
def finalCheck (numLists : ℕ) (dummy : Bool) (listCount : List UInt8) (listCountTotal : ℤ) :
    Ending :=
  match checkCorrectListLength numElements h 1 numLists
      ⟨memset numLists listCount, listCountTotal, []⟩ with
  | .error checked => ⟨checked, true⟩
  | .ok s => ⟨s.checked, !dummy⟩

def Corrupted (bin : ℕ) : Prop := sortedListLength numElements h (.list bin) = -1

instance {bin : ℕ} : Decidable (Corrupted numElements h bin) := inferInstanceAs (Decidable (_ = _))

/-- Every sublist is checked, up to one for which the program exits, and it exits if there is
such a one. -/
structure Covers (numLists : ℕ) (e : Ending) : Prop where
  checked : ∀ bin < numLists, bin ∈ e.checked ∨
    ∃ bin' < bin, bin' ∈ e.checked ∧ Corrupted numElements h bin'
  exited : e.exited = true ↔ ∃ bin < numLists, Corrupted numElements h bin

end

variable {numElements numLists n bin a i : ℕ} {h : Heap Addr} {array listCount : List UInt8}
variable {s : Check}

/-! ### Bytes -/

lemma getD_memset : (memset n array).getD i 0 = if i < n then 0 else array.getD i 0 := by
  unfold memset overwrite
  rw [List.length_replicate, List.getD_eq_getElem?_getD, List.getD_eq_getElem?_getD]
  split
  · next hi =>
    rw [List.getElem?_append_left (by simpa using hi), List.getElem?_replicate, if_pos hi]
    rfl
  · next hi =>
    rw [List.getElem?_append_right (by simpa using hi), List.length_replicate, List.getElem?_drop,
      Nat.add_sub_cancel' (not_lt.mp hi)]

lemma getD_set_of_ne {v : UInt8} (hne : i ≠ a) : (array.set a v).getD i 0 = array.getD i 0 := by
  rw [List.getD_eq_getElem?_getD, List.getD_eq_getElem?_getD, List.getElem?_set_ne hne.symm]

lemma flag_writeInt_of_ne {bin' : ℕ} {v : UInt32} (hne : bin' ≠ bin) :
    flag (writeInt array (4 * bin) v) bin' = flag array bin' := by
  have hbyte : ∀ k < 4, (writeInt array (4 * bin) v).getD (4 * bin' + k) 0 =
      array.getD (4 * bin' + k) 0 := fun k hk => by
    unfold writeInt
    rw [getD_set_of_ne (by omega), getD_set_of_ne (by omega), getD_set_of_ne (by omega),
      getD_set_of_ne (by omega)]
  have hfirst := hbyte 0 (by omega)
  rw [Nat.add_zero] at hfirst
  unfold flag readInt
  rw [hfirst, hbyte 1 (by omega), hbyte 2 (by omega), hbyte 3 (by omega)]

/-- **A flag is cleared** if its first byte is among those that are counted. -/
lemma flag_memset_iff (hc : Counted numLists listCount) (hbin : bin < numLists) :
    flag (memset numLists listCount) bin = 0 ↔ 4 * bin < numLists := by
  have hone := hc.flags bin hbin
  unfold flag readInt at hone ⊢
  simp only [getD_memset]
  have hbyte : ∀ k, (listCount.getD k 0).toNat < 256 := fun k => UInt8.toNat_lt _
  have h0 := hbyte (4 * bin)
  have h1 := hbyte (4 * bin + 1)
  have h2 := hbyte (4 * bin + 2)
  have h3 := hbyte (4 * bin + 3)
  have hzero : (0 : UInt8).toNat = 0 := rfl
  split_ifs <;> omega

/-! ### Runs -/

/-- What the rounds for the sublists before `n` have done. -/
structure Progress (numElements : ℕ) (h : Heap Addr) (numLists : ℕ) (listCount : List UInt8)
    (n : ℕ) (s : Check) : Prop where
  flags : ∀ bin, n ≤ bin → flag s.listCount bin = flag (memset numLists listCount) bin
  checked : ∀ bin, bin ∈ s.checked ↔ bin < n ∧ 4 * bin < numLists
  sound : ∀ bin < n, 4 * bin < numLists → ¬ Corrupted numElements h bin

/-- The exit at a corrupted sublist, when no one before it has been left out. -/
def Stopped (numElements : ℕ) (h : Heap Addr) (numLists : ℕ) (checked : List ℕ) : Prop :=
  ∃ b < numLists, 4 * b < numLists ∧ Corrupted numElements h b ∧ ∀ bin, bin ∈ checked ↔ bin ≤ b

/-- **One round.** -/
lemma checkRound_spec (hc : Counted numLists listCount) (hn : n < numLists)
    (hs : Progress numElements h numLists listCount n s) :
    (∃ s', checkRound numElements h 1 s n = .ok s' ∧
      Progress numElements h numLists listCount (n + 1) s') ∨
    ∃ checked, checkRound numElements h 1 s n = .error checked ∧
      Stopped numElements h numLists checked := by
  have hflag : flag s.listCount n = 0 ↔ 4 * n < numLists := by
    rw [hs.flags n le_rfl]
    exact flag_memset_iff hc hn
  unfold checkRound
  by_cases hcleared : 4 * n < numLists
  swap
  · rw [if_neg fun h0 => hcleared (hflag.mp h0)]
    refine Or.inl ⟨s, rfl, fun bin hbin => hs.flags bin (by omega), fun bin => ?_, fun bin hbin => ?_⟩
    · rw [hs.checked]
      omega
    · rcases Nat.lt_succ_iff_lt_or_eq.mp hbin with hlt | rfl
      · exact hs.sound bin hlt
      · exact fun hlt => absurd hlt hcleared
  rw [if_pos (hflag.mpr hcleared)]
  have hchecked : ∀ bin, bin ∈ s.checked ++ [n] ↔ bin < n + 1 ∧ 4 * bin < numLists := fun bin => by
    rw [List.mem_append, List.mem_singleton, hs.checked]
    omega
  by_cases hcor : Corrupted numElements h n
  · refine Or.inr ⟨_, if_pos ⟨hcor, rfl⟩, n, hn, hcleared, hcor, fun bin => ?_⟩
    rw [hchecked]
    omega
  · refine Or.inl ⟨_, if_neg fun hc => hcor hc.1, fun bin hbin => ?_, hchecked, fun bin hbin => ?_⟩
    · dsimp only
      rw [flag_writeInt_of_ne (by omega)]
      exact hs.flags bin (by omega)
    · rcases Nat.lt_succ_iff_lt_or_eq.mp hbin with hlt | rfl
      · exact hs.sound bin hlt
      · exact fun _ => hcor

/-- **The rounds** for the first sublists. -/
lemma checkRounds_spec (hc : Counted numLists listCount) (hn : n ≤ numLists) (total : ℤ) :
    (∃ s, (List.range n).foldlM (checkRound numElements h 1)
        ⟨memset numLists listCount, total, []⟩ = .ok s ∧
      Progress numElements h numLists listCount n s) ∨
    ∃ checked, (List.range n).foldlM (checkRound numElements h 1)
        ⟨memset numLists listCount, total, []⟩ = .error checked ∧
      Stopped numElements h numLists checked := by
  induction n with
  | zero => exact Or.inl ⟨_, rfl, fun _ _ => rfl, fun bin => by simp, fun bin hbin => by omega⟩
  | succ n ih =>
    rw [List.range_succ, List.foldlM_append]
    rcases ih (by omega) with ⟨s, hs, hprogress⟩ | ⟨checked, hchecked, hstopped⟩
    · have hlast : ∀ x, checkRound numElements h 1 s n = x →
          (List.foldlM (checkRound numElements h 1) ⟨memset numLists listCount, total, []⟩
            (List.range n) >>= fun s => [n].foldlM (checkRound numElements h 1) s) = x := by
        rintro x rfl
        rw [hs]
        change [n].foldlM (checkRound numElements h 1) s = _
        rw [List.foldlM_cons]
        exact bind_pure _
      rcases checkRound_spec hc hn hprogress with ⟨s', hs', hprogress'⟩ |
        ⟨checked, hchecked, hstopped⟩
      · exact Or.inl ⟨s', hlast _ hs', hprogress'⟩
      · exact Or.inr ⟨checked, hlast _ hchecked, hstopped⟩
    · rw [hchecked]
      exact Or.inr ⟨checked, rfl, hstopped⟩

/-! ### The ending -/

/-- **Exactly when all sublists are covered**: if the program exits at one that is checked, or if
there is only one. -/
theorem covers_iff (hL : 0 < numLists) (hc : Counted numLists listCount) (dummy : Bool)
    (total : ℤ) :
    Covers numElements h numLists (finalCheck numElements h numLists dummy listCount total) ↔
      (∃ bin < numLists, 4 * bin < numLists ∧ Corrupted numElements h bin) ∨
        numLists = 1 ∧ dummy = true := by
  unfold finalCheck checkCorrectListLength
  rcases checkRounds_spec hc le_rfl total with ⟨s, hs, hprogress⟩ |
    ⟨checked, hchecked, b, hb, hcleared, hcor, hmem⟩
  · rw [hs]
    have hsound : ¬ ∃ bin < numLists, 4 * bin < numLists ∧ Corrupted numElements h bin :=
      fun ⟨bin, hbin, hcleared, hcor⟩ => hprogress.sound bin hbin hcleared hcor
    rw [or_iff_right hsound]
    constructor
    · intro hcovers
      have hone : numLists = 1 := by
        rcases hcovers.checked (numLists - 1) (by omega) with hmem | ⟨bin, -, hmem, hcor⟩
        · have := ((hprogress.checked _).mp hmem).2
          omega
        · obtain ⟨hbin, hcleared⟩ := (hprogress.checked bin).mp hmem
          exact absurd hcor (hprogress.sound bin hbin hcleared)
      refine ⟨hone, ?_⟩
      by_contra hdummy
      obtain ⟨bin, hbin, hcor⟩ := hcovers.exited.mp (by simpa using hdummy)
      exact hsound ⟨bin, hbin, by omega, hcor⟩
    · rintro ⟨rfl, rfl⟩
      refine ⟨fun bin hbin => Or.inl ((hprogress.checked bin).mpr ⟨hbin, by omega⟩), ?_⟩
      refine iff_of_false (by simp) ?_
      rintro ⟨bin, hbin, hcor⟩
      exact hsound ⟨bin, hbin, by omega, hcor⟩
  · rw [hchecked]
    refine iff_of_true ⟨fun bin _ => ?_, iff_of_true rfl ⟨b, hb, hcor⟩⟩
      (Or.inl ⟨b, hb, hcleared, hcor⟩)
    rcases Nat.lt_or_ge b bin with hlt | hle
    · exact Or.inr ⟨b, hlt, (hmem b).mpr le_rfl, hcor⟩
    · exact Or.inl ((hmem bin).mpr hle)

/-! ### Two sublists -/

/-- The node behind the second head does not point back at it. -/
def brokenSecond : Heap Addr
  | .list 1 => ⟨none, some (.elem 0), none⟩
  | _ => ⟨none, none, none⟩

lemma counted_two : Counted 2 [1, 0, 0, 0, 1, 0, 0, 0] where
  length_eq := rfl
  flags := by decide

/-- A corrupted first sublist is found. -/
theorem covers_iff_two : Covers 4 (fun a => ⟨none, some a, none⟩) 2
    (finalCheck 4 (fun a => ⟨none, some a, none⟩) 2 true [1, 0, 0, 0, 1, 0, 0, 0] 0) :=
  (covers_iff (by decide) counted_two true 0).mpr (Or.inl ⟨0, by decide, by decide, by decide⟩)

/-- A corrupted second one is not. -/
theorem brokenSecond_missed :
    Counted 2 [1, 0, 0, 0, 1, 0, 0, 0] ∧ Corrupted 4 brokenSecond 1 ∧
      finalCheck 4 brokenSecond 2 true [1, 0, 0, 0, 1, 0, 0, 0] 0 = ⟨[0], false⟩ ∧
      ¬ Covers 4 brokenSecond 2
        (finalCheck 4 brokenSecond 2 true [1, 0, 0, 0, 1, 0, 0, 0] 0) := by
  have hcor : Corrupted 4 brokenSecond 1 := by decide
  have hrun : finalCheck 4 brokenSecond 2 true [1, 0, 0, 0, 1, 0, 0, 0] 0 = ⟨[0], false⟩ := by
    decide
  refine ⟨counted_two, hcor, hrun, fun hcovers => ?_⟩
  rw [hrun] at hcovers
  exact absurd (hcovers.exited.mpr ⟨1, by decide, hcor⟩) (by decide)

end LowLevelTasks.FinalCheck
