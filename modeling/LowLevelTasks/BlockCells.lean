import LowLevelTasks.Messages
import LowLevelTasks.ReferencePass

/-!
The table of blocks while references are read. A cell knows the last reference to its block
only, and forgets with the first one that the block was free. What is said about a reference
follows from the cell it finds, and so from the references before it.
-/

namespace LowLevelTasks.BlockCells

open LowLevelTasks.Lab3b LowLevelTasks.Messages
  LowLevelTasks.ReferencePass LowLevelTasks.Reports LowLevelTasks.RubyArray LowLevelTasks.RubyText
  LowLevelTasks.Tables

/-! ### References -/

/-- Where a reference stands: in a slot of an inode, or in the line of an indirect block. -/
inductive Origin where
  | slot (num : ℕ)
  | indirect (level offset : ℕ)
deriving DecidableEq

structure Ref where
  inode : ℕ
  block : ℕ
  origin : Origin
deriving DecidableEq

/-- The level that is written down for a reference. -/
def Ref.level (x : Ref) : ℕ :=
  match x.origin with
  | .slot num => if 11 < num then num - 11 else 0
  | .indirect level _ => level

def Ref.offset (x : Ref) : ℤ :=
  match x.origin with
  | .slot num => iBlockOffset num
  | .indirect _ offset => offset

def Ref.reference (x : Ref) : Reference := ⟨x.level, x.inode, x.offset⟩

/-- The message that is printed about a reference. -/
def Ref.text (x : Ref) (κ : Flag) : Text :=
  Err.block (κ.symbol ++ levelSymbol x.level) x.block x.inode x.offset

/-- The last reference to a block. -/
def lastTo (refs : List Ref) (b : ℕ) : Option Ref := (refs.filter (·.block = b)).getLast?

variable {refs : List Ref} {x y : Ref} {b : ℕ} {s s' : St} {h : Header} {κ : Flag} {m : Text}

@[simp] lemma lastTo_nil : lastTo [] b = none := rfl

lemma lastTo_concat : lastTo (refs ++ [x]) b = if x.block = b then some x else lastTo refs b := by
  unfold lastTo
  rw [List.filter_append, List.filter_singleton]
  by_cases hx : x.block = b <;> simp [hx]

lemma lastTo_eq_none_iff : lastTo refs b = none ↔ ∀ y ∈ refs, y.block ≠ b := by
  unfold lastTo
  rw [List.getLast?_eq_none_iff, List.filter_eq_nil_iff]
  simp

lemma mem_of_lastTo (hy : lastTo refs b = some y) : y ∈ refs ∧ y.block = b := by
  obtain ⟨hmem, hblock⟩ := List.mem_filter.mp (List.mem_of_getLast? hy)
  exact ⟨hmem, of_decide_eq_true hblock⟩

/-! ### Cells -/

section

variable (blocks : ℕ) (bfrees : List ℕ) (refs : List Ref)

def cellOf (b : ℕ) : Option BlockCell :=
  match lastTo refs b with
  | some x => some (.scanned x.reference)
  | none =>
    if b ∈ bfrees then some .free else if b < blocks then some .unreferenced else none

/-- The table holds what has been read. -/
def Holds (hash : List (Option BlockCell)) : Prop :=
  ∀ b : ℕ, get hash b = cellOf blocks bfrees refs b

end

variable {blocks : ℕ} {bfrees : List ℕ}

lemma cellOf_of_some (hy : lastTo refs b = some y) :
    cellOf blocks bfrees refs b = some (.scanned y.reference) := by
  unfold cellOf
  rw [hy]

lemma cellOf_of_none (hb : lastTo refs b = none) : cellOf blocks bfrees refs b =
    if b ∈ bfrees then some .free else if b < blocks then some .unreferenced else none := by
  unfold cellOf
  rw [hb]

lemma holds_of_blocks {hash : List (Option BlockCell)} (hb : Blocks blocks bfrees [] hash) :
    Holds blocks bfrees [] hash := by
  intro b
  rw [cellOf_of_none lastTo_nil]
  by_cases hfree : b ∈ bfrees
  · rw [if_pos hfree, hb.free b hfree (by simp)]
  · rw [if_neg hfree, hb.other b hfree (by simp)]

/-- A reference is written down. -/
lemma Holds.put (hs : Holds blocks bfrees refs s.blockHash) (x : Ref) :
    ∃ s', s.putBlock x.block (.scanned x.reference) = some s' ∧
      Holds blocks bfrees (refs ++ [x]) s'.blockHash ∧ s'.inodeHash = s.inodeHash ∧
      s'.errList = s.errList := by
  obtain ⟨s', hs', hget, hinodes, herr⟩ := putBlock_spec s x.block (.scanned x.reference)
  refine ⟨s', hs', fun b => ?_, hinodes, herr⟩
  rw [hget]
  by_cases hb : x.block = b
  · rw [if_pos hb.symm, cellOf_of_some (by rw [lastTo_concat, if_pos hb])]
  · have hlast : lastTo (refs ++ [x]) b = lastTo refs b := by rw [lastTo_concat, if_neg hb]
    rw [if_neg (Ne.symm hb), hs b]
    unfold cellOf
    rw [hlast]

/-! ### What is said -/

/-- A pointer in a slot to a block outside the range that may be used. -/
def SlotOutside (h : Header) (x : Ref) : Flag → Prop
  | .res => (x.block : ℤ) ≤ h.reservedBlocks
  | .inv => h.reservedBlocks < x.block ∧ h.blocks ≤ x.block
  | .dup => False

/-- What is said about a pointer in a slot, behind these references. -/
def SlotSays (h : Header) (bfrees : List ℕ) (refs : List Ref) (x : Ref) (m : Text) : Prop :=
  (∃ κ, SlotOutside h x κ ∧ m = x.text κ) ∨
    (lastTo refs x.block = none ∧ x.block ∈ bfrees ∧ m = Err.free "all_blk".toList x.block) ∨
    ∃ y, lastTo refs x.block = some y ∧ (m = x.text .dup ∨ m = y.text .dup)

/-- What is wrong with a reference in the line of an indirect block; one thing is said. -/
def indirectFault (h : Header) (refs : List Ref) (x : Ref) : Option Flag :=
  if h.blocks ≤ x.block then some .inv
  else if (x.block : ℤ) ≤ h.reservedBlocks then some .res
  else if (lastTo refs x.block).isSome then some .dup
  else none

lemma blockErr_eq (hlevel : x.level < 4) (κ : Flag) :
    s.blockErr κ.symbol x.level x.inode x.offset x.block = some (s.err (x.text κ)) :=
  blockErr_of_lt hlevel

lemma level_slot {num : ℕ} (hx : x.origin = .slot num) (hnum : num < 15) : x.level < 4 := by
  unfold Ref.level
  rw [hx]
  dsimp only
  split <;> omega

lemma checkRange_spec (hlevel : x.level < 4) :
    ∃ s', checkRange h s x.level x.inode x.offset x.block = some s' ∧
      s'.blockHash = s.blockHash ∧ s'.inodeHash = s.inodeHash ∧
      ∀ m, m ∈ s'.errList ↔ m ∈ s.errList ∨ ∃ κ, SlotOutside h x κ ∧ m = x.text κ := by
  unfold checkRange
  by_cases hin : h.reservedBlocks < x.block ∧ (x.block : ℤ) < h.blocks
  · refine ⟨s, if_pos hin, rfl, rfl, fun m => (or_iff_left ?_).symm⟩
    rintro ⟨κ, hκ, -⟩
    cases κ <;> unfold SlotOutside at hκ <;> omega
  · rw [if_neg hin]
    by_cases hres : (x.block : ℤ) ≤ h.reservedBlocks
    · refine ⟨s.err (x.text .res), by rw [if_pos hres]; exact blockErr_eq hlevel .res, rfl, rfl,
        fun m => ?_⟩
      rw [mem_err]
      refine or_congr_right ⟨fun hm => ⟨.res, hres, hm⟩, ?_⟩
      rintro ⟨κ, hκ, hm⟩
      cases κ
      · exact absurd hκ.1 hres.not_gt
      · exact hm
      · exact hκ.elim
    · refine ⟨s.err (x.text .inv), by rw [if_neg hres]; exact blockErr_eq hlevel .inv, rfl, rfl,
        fun m => ?_⟩
      rw [mem_err]
      have hinv : SlotOutside h x .inv := by
        unfold SlotOutside
        omega
      refine or_congr_right ⟨fun hm => ⟨.inv, hinv, hm⟩, ?_⟩
      rintro ⟨κ, hκ, hm⟩
      cases κ
      · exact hm
      · exact absurd hκ hres
      · exact hκ.elim

lemma checkCell_spec (hs : Holds blocks bfrees refs s.blockHash) (hlevel : x.level < 4)
    (hlevels : ∀ y ∈ refs, y.level < 4) :
    ∃ s', checkCell s x.level x.inode x.offset x.block = some s' ∧
      s'.blockHash = s.blockHash ∧ s'.inodeHash = s.inodeHash ∧
      ∀ m, m ∈ s'.errList ↔ m ∈ s.errList ∨
        (lastTo refs x.block = none ∧ x.block ∈ bfrees ∧
          m = Err.free "all_blk".toList x.block) ∨
        ∃ y, lastTo refs x.block = some y ∧ (m = x.text .dup ∨ m = y.text .dup) := by
  unfold checkCell
  rw [hs x.block]
  cases hlast : lastTo refs x.block with
  | some y =>
    have hy := hlevels y (mem_of_lastTo hlast).1
    have hblock : (y.block : ℤ) = x.block := by rw [(mem_of_lastTo hlast).2]
    rw [cellOf_of_some hlast]
    refine ⟨(s.err (x.text .dup)).err (y.text .dup), ?_, rfl, rfl, fun m => ?_⟩
    · change (s.blockErr Flag.dup.symbol x.level x.inode x.offset x.block >>= fun s =>
        s.blockErr Flag.dup.symbol y.level y.inode y.offset x.block) = _
      rw [blockErr_eq hlevel, ← hblock]
      exact blockErr_eq hy .dup
    · rw [mem_err, mem_err, or_assoc]
      simp
  | none =>
    rw [cellOf_of_none hlast]
    by_cases hfree : x.block ∈ bfrees
    · rw [if_pos hfree]
      refine ⟨_, rfl, rfl, rfl, fun m => ?_⟩
      rw [mem_err]
      simp [hfree]
    · rw [if_neg hfree]
      refine ⟨s, ?_, rfl, rfl, fun m => by simp [hfree]⟩
      split <;> simp_all

/-! ### One reference -/

/-- **One pointer** in a slot. -/
theorem iBlock_spec (hs : Holds blocks bfrees refs s.blockHash)
    (hlevels : ∀ y ∈ refs, y.level < 4) {num : ℕ} (hx : x.origin = .slot num) (hnum : num < 15)
    (h0 : x.block ≠ 0) :
    ∃ s', Lab3b.iBlock h x.inode s num x.block = some s' ∧
      Holds blocks bfrees (refs ++ [x]) s'.blockHash ∧ s'.inodeHash = s.inodeHash ∧
      ∀ m, m ∈ s'.errList ↔ m ∈ s.errList ∨ SlotSays h bfrees refs x m := by
  have hlevel := level_slot hx hnum
  obtain ⟨s₁, hs₁, hblock₁, hinode₁, hsaid₁⟩ := checkRange_spec (s := s) (h := h) hlevel
  obtain ⟨s₂, hs₂, hblock₂, hinode₂, hsaid₂⟩ := checkCell_spec (hblock₁ ▸ hs) hlevel hlevels
  obtain ⟨s', hs', hholds, hinode, herr⟩ := Holds.put ((hblock₂.trans hblock₁) ▸ hs) x
  have hcast : (x.level : ℤ) = if 11 < num then (num : ℤ) - 11 else 0 := by
    unfold Ref.level
    rw [hx]
    dsimp only
    split <;> omega
  have hoffset : x.offset = iBlockOffset num := by
    unfold Ref.offset
    rw [hx]
  refine ⟨s', ?_, hholds, hinode.trans (hinode₂.trans hinode₁), fun m => ?_⟩
  · unfold Ref.reference at hs'
    rw [hcast, hoffset] at hs₁ hs₂ hs'
    unfold Lab3b.iBlock
    rw [if_neg (by exact_mod_cast h0)]
    simp only [hs₁, hs₂, hs', Option.bind_eq_bind, Option.bind_some]
  · rw [herr, hsaid₂, hsaid₁, or_assoc]
    rfl

lemma indirectFlag_eq (hs : Holds blocks bfrees refs s.blockHash) :
    indirectFlag h s x.block = (indirectFault h refs x).map Flag.symbol := by
  unfold indirectFlag indirectFault
  split
  · rfl
  split
  · rfl
  rw [hs x.block]
  cases hlast : lastTo refs x.block with
  | some y =>
    rw [cellOf_of_some hlast]
    rfl
  | none =>
    rw [cellOf_of_none hlast]
    split_ifs <;> simp_all

/-- **One indirect reference**, which raises an exception where something is wrong with it and
its level has no name. -/
theorem indirect_spec (hs : Holds blocks bfrees refs s.blockHash) {level offset : ℕ}
    (hx : x.origin = .indirect level offset) :
    (∀ κ, indirectFault h refs x = some κ → 4 ≤ level →
      indirect h s x.inode level offset x.block = none) ∧
    ((∀ κ, indirectFault h refs x = some κ → level < 4) →
      ∃ s', indirect h s x.inode level offset x.block = some s' ∧
        Holds blocks bfrees (refs ++ [x]) s'.blockHash ∧ s'.inodeHash = s.inodeHash ∧
        ∀ m, m ∈ s'.errList ↔
          m ∈ s.errList ∨ ∃ κ, indirectFault h refs x = some κ ∧ m = x.text κ) := by
  have hlevel : x.level = level := by
    unfold Ref.level
    rw [hx]
  have hoffset : x.offset = offset := by
    unfold Ref.offset
    rw [hx]
  have hcheck : checkIndirect h s x.inode level offset x.block =
      match indirectFault h refs x with
      | some κ => s.blockErr κ.symbol level x.inode offset x.block
      | none => some s := by
    unfold checkIndirect
    rw [indirectFlag_eq hs]
    cases indirectFault h refs x <;> rfl
  unfold indirect
  rw [hcheck, ← hlevel, ← hoffset]
  cases hfault : indirectFault h refs x with
  | none =>
    refine ⟨fun _ hκ => (nomatch hκ), fun _ => ?_⟩
    obtain ⟨s', hs', hholds, hinode, herr⟩ := hs.put x
    exact ⟨s', hs', hholds, hinode, fun m => by simp [herr]⟩
  | some κ =>
    refine ⟨fun κ' _ hge => ?_, fun hlt => ?_⟩
    · dsimp only
      rw [blockErr_of_ge hge]
      rfl
    · obtain ⟨s', hs', hholds, hinode, herr⟩ := Holds.put (s := s.err (x.text κ)) hs x
      refine ⟨s', ?_, hholds, hinode, fun m => ?_⟩
      · dsimp only
        rw [blockErr_eq (hlt κ rfl)]
        exact hs'
      · rw [herr, mem_err]
        simp

end LowLevelTasks.BlockCells
