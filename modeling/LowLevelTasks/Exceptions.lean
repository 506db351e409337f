import LowLevelTasks.FilledTables
import LowLevelTasks.PointerClasses

/-!
What makes the analyser raise an exception. Each pass indexes a table with the numbers it reads
in its lines, which may be negative, and some lines take for granted what an earlier one should
have written. Whether a text has such a line can be told from the numbers in its lines.
-/

namespace LowLevelTasks.Exceptions

open LowLevelTasks.FilledTables LowLevelTasks.Folds LowLevelTasks.Lab3b
open LowLevelTasks.PointerClasses LowLevelTasks.RubyArray LowLevelTasks.RubyFloat
open LowLevelTasks.RubyText

/-! ### What stands in the lines -/

/-- The type of an inode. -/
def typeOf (line : Text) : Option Text := (split line)[2]?

def numberOf (line : Text) : ℤ := toI (field (split line) 1)

def pointerOf (line : Text) (num : ℕ) : ℤ := toI (field (split line) (num + 12))

/-- The pointers of an inode that are looked at. -/
def pointersOf (line : Text) : List ℤ :=
  if typeOf line = some "s".toList then []
  else ((List.range 15).map (pointerOf line)).filter (· ≠ 0)

/-- A line of a directory as it is read. -/
structure EntryLine where
  dir : ℤ
  inode : ℤ
  name : Text
deriving DecidableEq

def entryOf (line : Text) : EntryLine where
  dir := toI (field (split line) 1)
  inode := toI (field (split line) 3)
  name := remove '\'' ((split line).getLast?.getD [])

/-- A line of an indirect block as it is read. -/
structure PointerLine where
  inode : ℤ
  level : ℤ
  offset : ℤ
  refBlock : ℤ
deriving DecidableEq

def pointerLine? (line : Text) : Option PointerLine :=
  match (split line).map toI with
  | _ :: inode :: level :: offset :: _ :: refBlock :: _ => some ⟨inode, level, offset, refBlock⟩
  | _ => none

section

variable (contents : Text)

def bfrees : List ℤ := (scan "BFREE".toList contents).map fun line => toI (firstDigits line)

def ifrees : List ℤ := (scan "IFREE".toList contents).map fun line => toI (firstDigits line)

def numbers : List ℤ := (scan "INODE".toList contents).map numberOf

def pointers : List ℤ := (scan "INODE".toList contents).flatMap pointersOf

def pointerLines : List PointerLine :=
  (scan "INDIRECT".toList contents).filterMap pointerLine?

end

/-! ### Exceptions -/

/-- The first superblock and the first group have the fields that are read, the quotient of the
sizes is finite, and the counts are not negative. -/
structure Headed (contents : Text) (h : Header) : Prop where
  fields : ∃ superblock blockSize inodeSize firstInode group table size,
    (scan "SUPERBLOCK".toList contents).head? = some superblock ∧
      superblockFields ((split superblock).map toI) =
        some (h.blocks, h.inodes, blockSize, inodeSize, firstInode) ∧
      (scan "GROUP".toList contents).head? = some group ∧
      ((split group).map toI).getLast? = some table ∧
      fdivCeil (h.inodes * inodeSize) blockSize = some size ∧
      h.reservedBlocks = table + size - 1 ∧ h.reservedInodes = firstInode - 1
  blocks : 0 ≤ h.blocks
  inodes : 0 ≤ h.inodes + 1

section

variable (contents : Text) (h : Header)

/-- The lengths of the tables behind the free lists. -/
def blockRoom : ℕ := lengthAfter h.blocks.toNat (bfrees contents)

def inodeRoom : ℕ := lengthAfter (h.inodes + 1).toNat (ifrees contents)

/-- The place the index of an inode stands for, behind the lines of the inodes. -/
def inodePlace (i : ℤ) : Option ℕ :=
  position (lengthAfter (inodeRoom contents h) (numbers contents)) i

/-- A line of an inode was written to the cell. -/
def IsScanned (i : ℤ) : Prop :=
  ∃ p, inodePlace contents h i = some p ∧ Placed (inodeRoom contents h) (numbers contents) p

/-- There is something in the cell. -/
def IsKnown (i : ℤ) : Prop :=
  ∃ p, inodePlace contents h i = some p ∧
    (((p : ℤ) ≤ h.inodes ∨ (p : ℤ) ∈ ifrees contents) ∨
      Placed (inodeRoom contents h) (numbers contents) p)

/-- An entry whose inode is not said to be invalid while nothing is in its cell, or a `..` that
names a scanned inode in a directory that is not scanned. -/
def EntryStops (e : EntryLine) : Prop :=
  e.inode ≤ h.inodes ∧ (¬ IsKnown contents h e.inode ∨
    IsScanned contents h e.inode ∧ e.name = "..".toList ∧ ¬ IsScanned contents h e.dir)

/-- Something is wrong with an indirect reference, behind these ones. -/
def Faulty (u : List PointerLine) (x : PointerLine) : Prop :=
  h.blocks ≤ x.refBlock ∨ x.refBlock ≤ h.reservedBlocks ∨
    ∃ p, position (lengthAfter (blockRoom contents h)
        (pointers contents ++ u.map PointerLine.refBlock)) x.refBlock = some p ∧
      Placed (blockRoom contents h) (pointers contents ++ u.map PointerLine.refBlock) p

/-- A reference that lies before the first block, or one with which something is wrong and whose
level has no name. -/
def PointerStops (u : List PointerLine) (x : PointerLine) : Prop :=
  Before (blockRoom contents h) (pointers contents ++ u.map PointerLine.refBlock) x.refBlock ∨
    Faulty contents h u x ∧ ¬ (-4 ≤ x.level ∧ x.level < 4)

/-- **No line raises an exception.** -/
structure Analysable : Prop where
  header : Headed contents h
  types : ∀ line ∈ scan "INODE".toList contents, typeOf line ≠ none
  numbers : ¬ Somewhere (Before (inodeRoom contents h)) (numbers contents)
  pointers : ¬ Somewhere (Before (blockRoom contents h)) (pointers contents)
  root : IsScanned contents h 2
  entries : ∀ line ∈ scan "DIRENT".toList contents, ¬ EntryStops contents h (entryOf line)
  fields : ∀ line ∈ scan "INDIRECT".toList contents, pointerLine? line ≠ none
  references : ¬ Somewhere (PointerStops contents h) (pointerLines contents)

end

/-! ### References -/

def IsReference (c : BlockCell) : Prop := ∃ x, c = .scanned x

def IsEntry (c : InodeCell) : Prop := ∃ entry, c = .scanned entry

variable {contents line : Text} {h : Header} {s s' : St} {length num : ℕ} {known : ℕ → Prop}
variable {written : List ℤ} {inode level offset block : ℤ} {flag : Text}

lemma indirectSym_eq_none_iff :
    indirectSym flag level = none ↔ ¬ (-4 ≤ level ∧ level < 4) := by
  unfold indirectSym fetch
  rw [Option.map_eq_none_iff]
  by_cases hlow : level < -4
  · have hnone : position 4 level = none := position_eq_none_iff.mpr hlow
    refine iff_of_true ?_ (by omega)
    rw [List.length_cons, List.length_cons, List.length_cons, List.length_singleton, hnone]
    rfl
  · obtain ⟨n, hn⟩ := exists_position (show -((4 : ℕ) : ℤ) ≤ level by omega)
    have hn' : n < 4 ↔ level < 4 := by
      unfold position at hn
      split_ifs at hn <;> have := Option.some.inj hn <;> omega
    rw [List.length_cons, List.length_cons, List.length_cons, List.length_singleton, hn,
      Option.bind_some, List.getElem?_eq_none_iff]
    simp only [List.length_cons, List.length_nil]
    omega

/-- A message about a reference leaves the tables alone, if its level has a name. -/
lemma blockErr_rounds :
    (¬ (-4 ≤ level ∧ level < 4) → s.blockErr flag level inode offset block = none) ∧
      (-4 ≤ level ∧ level < 4 → ∃ s', s.blockErr flag level inode offset block = some s' ∧
        s'.blockHash = s.blockHash ∧ s'.inodeHash = s.inodeHash) := by
  unfold St.blockErr
  refine ⟨fun hlevel => ?_, fun hlevel => ?_⟩
  · rw [Option.map_eq_none_iff]
    exact indirectSym_eq_none_iff.mpr hlevel
  · obtain ⟨sym, hsym⟩ := Option.ne_none_iff_exists'.mp
      fun hnone => indirectSym_eq_none_iff.mp (hnone : indirectSym flag level = none) hlevel
    rw [hsym]
    exact ⟨_, rfl, rfl, rfl⟩

/-- A reference is written to the table, unless it lies before the first block. -/
lemma putBlock_rounds (hf : Filled IsReference length known written s.blockHash)
    (x : Reference) (block : ℤ) :
    (Before length written block → s.putBlock block (.scanned x) = none) ∧
      (¬ Before length written block → ∃ s', s.putBlock block (.scanned x) = some s' ∧
        Filled IsReference length known (written ++ [block]) s'.blockHash ∧
        s'.inodeHash = s.inodeHash) := by
  obtain ⟨hnone, hsome⟩ := hf.put (c := .scanned x) ⟨x, rfl⟩ block
  unfold St.putBlock
  refine ⟨fun hb => by rw [hnone hb]; rfl, fun hb => ?_⟩
  obtain ⟨ys, hys, hfilled⟩ := hsome hb
  rw [hys]
  exact ⟨_, rfl, hfilled, rfl⟩

/-- **One pointer** of an inode. -/
lemma iBlock_rounds (h : Header) (inode block : ℤ) (hs : Named s)
    (hf : Filled IsReference length known written s.blockHash) (hnum : num < 15) :
    (block ≠ 0 ∧ Before length written block → iBlock h inode s num block = none) ∧
      (¬ (block ≠ 0 ∧ Before length written block) → ∃ s', iBlock h inode s num block = some s' ∧
        Named s' ∧ Filled IsReference length known (written ++ [block].filter (· ≠ 0)) s'.blockHash ∧
        s'.inodeHash = s.inodeHash) := by
  by_cases h0 : block = 0
  · refine ⟨fun hb => absurd h0 hb.1, fun _ => ⟨s, if_pos h0, hs, ?_, rfl⟩⟩
    simpa [h0] using hf
  have hlevel : -4 ≤ (if 11 < num then (num : ℤ) - 11 else 0) ∧
      (if 11 < num then (num : ℤ) - 11 else 0) < 4 := by
    split <;> omega
  obtain ⟨s₁, hs₁, hblocks₁, hinodes₁⟩ : ∃ s₁, checkRange h s
      (if 11 < num then (num : ℤ) - 11 else 0) inode (iBlockOffset num) block = some s₁ ∧
        s₁.blockHash = s.blockHash ∧ s₁.inodeHash = s.inodeHash := by
    unfold checkRange
    split
    · exact ⟨s, rfl, rfl, rfl⟩
    · exact blockErr_rounds.2 hlevel
  obtain ⟨s₂, hs₂, hblocks₂, hinodes₂⟩ : ∃ s₂, checkCell s₁
      (if 11 < num then (num : ℤ) - 11 else 0) inode (iBlockOffset num) block = some s₂ ∧
        s₂.blockHash = s₁.blockHash ∧ s₂.inodeHash = s₁.inodeHash := by
    unfold checkCell
    split
    · exact ⟨_, rfl, rfl, rfl⟩
    · next other hget =>
      obtain ⟨hlow, hhigh⟩ := hs other (hblocks₁ ▸ mem_of_get hget)
      obtain ⟨s₃, hs₃, hblocks₃, hinodes₃⟩ := blockErr_rounds.2 hlevel
      obtain ⟨s₄, hs₄, hblocks₄, hinodes₄⟩ := blockErr_rounds.2 ⟨by omega, hhigh⟩
      exact ⟨s₄, Option.bind_eq_some_iff.mpr ⟨s₃, hs₃, hs₄⟩, hblocks₄.trans hblocks₃,
        hinodes₄.trans hinodes₃⟩
    · exact ⟨s₁, rfl, rfl, rfl⟩
  have hrun : iBlock h inode s num block = s₂.putBlock block
      (.scanned ⟨if 11 < num then (num : ℤ) - 11 else 0, inode, iBlockOffset num⟩) := by
    unfold iBlock
    rw [if_neg h0]
    simp only [hs₁, hs₂, Option.bind_eq_bind, Option.bind_some]
  obtain ⟨hnone, hsome⟩ := putBlock_rounds ((hblocks₂.trans hblocks₁) ▸ hf)
    ⟨if 11 < num then (num : ℤ) - 11 else 0, inode, iBlockOffset num⟩ block
  rw [hrun]
  refine ⟨fun hb => hnone hb.2, fun hb => ?_⟩
  obtain ⟨s', hs', hfilled, hinodes'⟩ := hsome fun hbefore => hb ⟨h0, hbefore⟩
  refine ⟨s', hs', named_iBlock hs hnum (hrun.trans hs'), ?_,
    hinodes'.trans (hinodes₂.trans hinodes₁)⟩
  rwa [List.filter_cons_of_pos (by simpa using h0), List.filter_nil]

/-- The pointers of one inode. -/
lemma pointers_rounds (h : Header) (inode : ℤ) (line : Text) (hs : Named s)
    (hf : Filled IsReference length known written s.blockHash) :
    (Somewhere (fun v => Before length (written ++ v))
        (((List.range 15).map (pointerOf line)).filter (· ≠ 0)) →
      (List.range 15).foldlM (fun s num => iBlock h inode s num (pointerOf line num)) s = none) ∧
    (¬ Somewhere (fun v => Before length (written ++ v))
        (((List.range 15).map (pointerOf line)).filter (· ≠ 0)) →
      ∃ s', (List.range 15).foldlM (fun s num => iBlock h inode s num (pointerOf line num)) s =
          some s' ∧ Named s' ∧
        Filled IsReference length known
          (written ++ ((List.range 15).map (pointerOf line)).filter (· ≠ 0)) s'.blockHash ∧
        s'.inodeHash = s.inodeHash) := by
  rw [somewhere_filter, somewhere_map]
  simp only [decide_eq_true_eq]
  refine foldlM_rounds (p := fun u (s' : St) => Named s' ∧
    Filled IsReference length known (written ++ (u.map (pointerOf line)).filter (· ≠ 0))
      s'.blockHash ∧ s'.inodeHash = s.inodeHash) ?_ ⟨hs, by simpa using hf, rfl⟩
  rintro u num v s₁ hrange ⟨hs₁, hf₁, hinodes₁⟩
  have hnum : num < 15 := List.mem_range.mp (by rw [hrange]; simp)
  obtain ⟨hnone, hsome⟩ := iBlock_rounds h inode (pointerOf line num) hs₁ hf₁ hnum
  refine ⟨hnone, fun hb => ?_⟩
  obtain ⟨s', hs', hnamed, hfilled, hinodes'⟩ := hsome hb
  rw [List.map_append, List.map_singleton, List.filter_append, ← List.append_assoc]
  exact ⟨s', hs', hnamed, hfilled, hinodes'.trans hinodes₁⟩

/-- What the table of inodes knows before the first line of an inode. -/
def Initially (contents : Text) (h : Header) (p : ℕ) : Prop :=
  (p : ℤ) ≤ h.inodes ∨ (p : ℤ) ∈ ifrees contents

/-- The tables behind these lines of inodes. -/
structure InodesFilled (contents : Text) (h : Header) (known : ℕ → Prop) (u : List Text)
    (s : St) : Prop where
  named : Named s
  blocks : Filled IsReference (blockRoom contents h) known (u.flatMap pointersOf) s.blockHash
  inodes : Filled IsEntry (inodeRoom contents h) (Initially contents h) (u.map numberOf)
    s.inodeHash

variable {u : List Text}

/-- A line of an inode that has no type, or an index that lies before the first cell. -/
def InodeStops (contents : Text) (h : Header) (u : List Text) (line : Text) : Prop :=
  typeOf line = none ∨ Before (inodeRoom contents h) (u.map numberOf) (numberOf line) ∨
    Somewhere (fun v => Before (blockRoom contents h) (u.flatMap pointersOf ++ v))
      (pointersOf line)

/-- **One inode line.** -/
lemma inodeLine_rounds (hs : InodesFilled contents h known u s) (line : Text) :
    (InodeStops contents h u line → inodeLine h s line = none) ∧
      (¬ InodeStops contents h u line → ∃ s', inodeLine h s line = some s' ∧
        InodesFilled contents h known (u ++ [line]) s') := by
  unfold InodeStops
  cases htype : typeOf line with
  | none =>
    refine ⟨fun _ => ?_, fun hnot => absurd (Or.inl rfl) hnot⟩
    have hnone : (split line)[2]? = none := htype
    unfold inodeLine
    simp only [hnone, Option.bind_eq_bind, Option.bind_none]
  | some type =>
    have htype' : (split line)[2]? = some type := htype
    rw [or_iff_right (by simp)]
    -- the message about a free inode changes no table
    obtain ⟨s₁, hfree, hblocks₁, hinodes₁⟩ : ∃ s₁, (if get s.inodeHash (numberOf line) =
        some .free then s.err (Err.free "all_ino".toList (numberOf line)) else s) = s₁ ∧
          s₁.blockHash = s.blockHash ∧ s₁.inodeHash = s.inodeHash := by
      refine ⟨_, rfl, ?_⟩
      split <;> exact ⟨rfl, rfl⟩
    have hrun : inodeLine h s line =
        (s₁.putInode (numberOf line) (.scanned ⟨toI (field (split line) 6), 0, 0⟩)).bind fun s =>
          if type = "s".toList then some s
          else (List.range 15).foldlM (fun s num =>
            iBlock h (numberOf line) s num (pointerOf line num)) s := by
      rw [← hfree]
      unfold inodeLine
      simp only [htype', Option.bind_eq_bind, Option.bind_some]
      rfl
    obtain ⟨hnone, hsome⟩ := (hinodes₁ ▸ hs.inodes).put
      (⟨_, rfl⟩ : IsEntry (.scanned ⟨toI (field (split line) 6), 0, 0⟩)) (numberOf line)
    by_cases hbefore : Before (inodeRoom contents h) (u.map numberOf) (numberOf line)
    · refine ⟨fun _ => ?_, fun hnot => absurd (Or.inl hbefore) hnot⟩
      rw [hrun]
      unfold St.putInode
      rw [hnone hbefore]
      rfl
    obtain ⟨ys, hys, hfilled⟩ := hsome hbefore
    have hput : s₁.putInode (numberOf line) (.scanned ⟨toI (field (split line) 6), 0, 0⟩) =
        some { s₁ with inodeHash := ys } := by
      unfold St.putInode
      rw [hys]
      rfl
    rw [hrun, hput, Option.bind_some, or_iff_right hbefore]
    have hnamed : Named { s₁ with inodeHash := ys } := hs.named.congr hblocks₁
    have hblocks : Filled IsReference (blockRoom contents h) known (u.flatMap pointersOf)
        ({ s₁ with inodeHash := ys } : St).blockHash := hblocks₁ ▸ hs.blocks
    by_cases hsym : type = "s".toList
    · have hpointers : pointersOf line = [] := if_pos (hsym ▸ htype)
      rw [if_pos hsym, hpointers]
      refine ⟨fun hs => absurd hs somewhere_nil, fun _ => ⟨_, rfl, hnamed, ?_, ?_⟩⟩
      · rw [List.flatMap_append, List.flatMap_singleton, hpointers, List.append_nil]
        exact hblocks
      · rw [List.map_append, List.map_singleton]
        exact hfilled
    · have hpointers : pointersOf line =
          ((List.range 15).map (pointerOf line)).filter (· ≠ 0) := by
        refine if_neg fun heq => hsym ?_
        rw [htype] at heq
        exact Option.some.inj heq
      obtain ⟨hstops, hgoes⟩ := pointers_rounds h (numberOf line) line hnamed hblocks
      rw [if_neg hsym, hpointers]
      refine ⟨hstops, fun hnot => ?_⟩
      obtain ⟨s', hs', hnamed', hblocks', hinodes'⟩ := hgoes hnot
      refine ⟨s', hs', hnamed', ?_, ?_⟩
      · rwa [List.flatMap_append, List.flatMap_singleton, hpointers]
      · rw [List.map_append, List.map_singleton, hinodes']
        exact hfilled

/-- **The inode lines.** -/
lemma inodeLines_rounds (hs : InodesFilled contents h known [] s) :
    (Somewhere (InodeStops contents h) (scan "INODE".toList contents) →
      (scan "INODE".toList contents).foldlM (inodeLine h) s = none) ∧
    (¬ Somewhere (InodeStops contents h) (scan "INODE".toList contents) →
      ∃ s', (scan "INODE".toList contents).foldlM (inodeLine h) s = some s' ∧
        InodesFilled contents h known (scan "INODE".toList contents) s') :=
  foldlM_rounds (fun _ line _ _ _ hs => inodeLine_rounds hs line) hs

lemma somewhere_inodeStops : Somewhere (InodeStops contents h) (scan "INODE".toList contents) ↔
    (∃ line ∈ scan "INODE".toList contents, typeOf line = none) ∨
      Somewhere (Before (inodeRoom contents h)) (numbers contents) ∨
        Somewhere (Before (blockRoom contents h)) (pointers contents) := by
  unfold InodeStops numbers pointers
  rw [somewhere_or, somewhere_or, somewhere_const, somewhere_map, somewhere_flatMap]

/-! ### Free numbers -/

lemma toI_nonneg {s : Text} (h : ∀ c ∈ s, c.isDigit) : 0 ≤ toI s := by
  unfold toI
  split
  · next heq =>
    have hmem : '-' ∈ s := (List.dropWhile_suffix _).mem (by rw [heq]; simp)
    exact absurd (h _ hmem) (by decide)
  · exact Int.natCast_nonneg _
  · exact Int.natCast_nonneg _

lemma free_nonneg (word contents : Text) :
    ∀ i ∈ (scan word contents).map fun line => toI (firstDigits line), 0 ≤ i := by
  rw [List.forall_mem_map]
  exact fun line _ => toI_nonneg fun c hc => List.mem_takeWhile_imp hc

lemma bfreeLines_eq (ls : List Text) (s : St) : ls.foldlM bfreeLine s =
    ((ls.map fun line => toI (firstDigits line)).foldlM (fun xs i => put xs i .free)
      s.blockHash).map fun blockHash => { s with blockHash } := by
  induction ls generalizing s with
  | nil => rfl
  | cons line ls ih =>
    rw [List.foldlM_cons, List.map_cons, List.foldlM_cons]
    unfold bfreeLine St.putBlock
    cases put s.blockHash (toI (firstDigits line)) .free with
    | none => rfl
    | some blockHash => exact ih _

lemma ifreeLines_eq (ls : List Text) (s : St) : ls.foldlM ifreeLine s =
    ((ls.map fun line => toI (firstDigits line)).foldlM (fun xs i => put xs i .free)
      s.inodeHash).map fun inodeHash => { s with inodeHash } := by
  induction ls generalizing s with
  | nil => rfl
  | cons line ls ih =>
    rw [List.foldlM_cons, List.map_cons, List.foldlM_cons]
    unfold ifreeLine St.putInode
    cases put s.inodeHash (toI (firstDigits line)) .free with
    | none => rfl
    | some inodeHash => exact ih _

/-! ### The header -/

/-- The tables before the first pass. -/
def startOf (h : Header) : St :=
  ⟨List.replicate h.blocks.toNat (some .unreferenced),
    List.replicate (h.inodes + 1).toNat (some .unreferenced), []⟩

lemma scanHeader_eq_some_iff :
    scanHeader contents = some (h, s) ↔ Headed contents h ∧ s = startOf h := by
  unfold scanHeader
  simp only [Option.bind_eq_bind, Option.bind_eq_some_iff, Prod.exists]
  constructor
  · rintro ⟨superblock, hsb, blocks, inodes, blockSize, inodeSize, firstInode, hfields, group, hg,
      table, htable, size, hsize, hif⟩
    split at hif
    · cases hif
    · next hcounts =>
      obtain ⟨rfl, rfl⟩ := Prod.mk.inj (Option.some.inj hif)
      rw [not_or, not_lt, not_lt] at hcounts
      exact ⟨⟨⟨superblock, blockSize, inodeSize, firstInode, group, table, size, hsb, hfields, hg,
        htable, hsize, rfl, rfl⟩, hcounts.1, hcounts.2⟩, rfl⟩
  · rintro ⟨⟨⟨superblock, blockSize, inodeSize, firstInode, group, table, size, hsb, hfields, hg,
      htable, hsize, hreserved, hfirst⟩, hblocks, hinodes⟩, rfl⟩
    refine ⟨superblock, hsb, _, _, _, _, _, hfields, group, hg, table, htable, size, hsize, ?_⟩
    rw [if_neg (by omega), ← hreserved, ← hfirst]
    rfl

/-- **The free lists** always succeed. -/
lemma freeLines_rounds (contents : Text) (h : Header) : ∃ s₁ s₂ known,
    (scan "BFREE".toList contents).foldlM bfreeLine (startOf h) = some s₁ ∧
      (scan "IFREE".toList contents).foldlM ifreeLine s₁ = some s₂ ∧
      InodesFilled contents h known [] s₂ := by
  obtain ⟨blockHash, hblocks, hlength, hget⟩ :=
    puts_spec (startOf h).blockHash .free (free_nonneg "BFREE".toList contents)
  obtain ⟨inodeHash, hinodes, hlength', hget'⟩ :=
    puts_spec (startOf h).inodeHash .free (free_nonneg "IFREE".toList contents)
  have hb : ∀ p : ℕ, get (startOf h).blockHash p =
      if p < h.blocks.toNat then some .unreferenced else none := fun p => get_replicate _ p _
  have hi : ∀ p : ℕ, get (startOf h).inodeHash p =
      if p < (h.inodes + 1).toNat then some .unreferenced else none := fun p => get_replicate _ p _
  have hblockCells : ∀ p : ℕ, ∀ c, get blockHash p = some c → ¬ IsReference c := by
    rintro p c hc ⟨x, rfl⟩
    rw [hget, hb] at hc
    split_ifs at hc <;> cases hc
  have hinodeCells : ∀ p : ℕ, ∀ c, get inodeHash p = some c → ¬ IsEntry c := by
    rintro p c hc ⟨entry, rfl⟩
    rw [hget', hi] at hc
    split_ifs at hc <;> cases hc
  have hknown : ∀ p : ℕ, get inodeHash p ≠ none ↔ Initially contents h p := by
    intro p
    unfold Initially ifrees
    rw [hget', hi]
    split_ifs with hfree hlt
    · exact iff_of_true (by simp) (Or.inr hfree)
    · exact iff_of_true (by simp) (Or.inl (by omega))
    · exact iff_of_false (by simp) (by rintro (hle | hmem); exacts [by omega, hfree hmem])
  refine ⟨{ startOf h with blockHash }, { startOf h with blockHash, inodeHash },
    fun p => get blockHash p ≠ none, ?_, ?_, fun x hx => ?_, ?_, ?_⟩
  · rw [bfreeLines_eq, hblocks]
    rfl
  · rw [ifreeLines_eq, hinodes]
    rfl
  · obtain ⟨p, hp⟩ := List.mem_iff_getElem?.mp hx
    exact absurd ⟨x, rfl⟩ (hblockCells p (.scanned x) (by rw [get_natCast, hp]; rfl))
  · refine filled_nil ?_ hblockCells fun p => Iff.rfl
    rw [hlength]
    exact congrArg (lengthAfter · _) List.length_replicate
  · refine filled_nil ?_ hinodeCells hknown
    rw [hlength']
    exact congrArg (lengthAfter · _) List.length_replicate

/-! ### Entries -/

/-- The table of inodes behind the lines of the inodes. -/
def Inodes (contents : Text) (h : Header) (s : St) : Prop :=
  Filled IsEntry (inodeRoom contents h) (Initially contents h) (numbers contents) s.inodeHash

lemma isScanned_iff (hs : Inodes contents h s) (inode : ℤ) :
    IsScanned contents h inode ↔ ∃ entry, get s.inodeHash inode = some (.scanned entry) := by
  have hmarked : (∃ c, get s.inodeHash inode = some c ∧ IsEntry c) ↔
      IsScanned contents h inode := hs.get_marked
  rw [← hmarked]
  constructor
  · rintro ⟨_, hget, entry, rfl⟩
    exact ⟨entry, hget⟩
  · rintro ⟨entry, hget⟩
    exact ⟨_, hget, entry, rfl⟩

lemma isKnown_iff (hs : Inodes contents h s) (inode : ℤ) :
    IsKnown contents h inode ↔ get s.inodeHash inode ≠ none := hs.get_known.symm

lemma entry_eq_some_iff {entry : InodeEntry} :
    s.entry inode = some entry ↔ get s.inodeHash inode = some (.scanned entry) := by
  unfold St.entry
  split <;> simp_all

lemma entry_rounds (hs : Inodes contents h s) (inode : ℤ) :
    (¬ IsScanned contents h inode → s.entry inode = none) ∧
      (IsScanned contents h inode → ∃ entry, s.entry inode = some entry) := by
  rw [isScanned_iff hs inode]
  simp only [entry_eq_some_iff, imp_self, and_true]
  intro hnot
  by_contra hne
  obtain ⟨entry, hentry⟩ := Option.ne_none_iff_exists'.mp hne
  exact hnot ⟨entry, entry_eq_some_iff.mp hentry⟩

/-- The cell of a scanned inode is written over. -/
lemma putInode_rounds (hs : Inodes contents h s) (hi : IsScanned contents h inode)
    (entry : InodeEntry) : ∃ s', s.putInode inode (.scanned entry) = some s' ∧
      Inodes contents h s' ∧ s'.blockHash = s.blockHash := by
  obtain ⟨e, hget⟩ := (isScanned_iff hs inode).mp hi
  obtain ⟨inodeHash, hput, hfilled⟩ :=
    hs.overwrite (c := .scanned entry) ⟨entry, rfl⟩ ⟨_, hget, e, rfl⟩
  unfold St.putInode
  rw [hput]
  exact ⟨_, rfl, hfilled, rfl⟩

lemma setParent_rounds (hs : Inodes contents h s) (inode parent : ℤ) :
    (¬ IsScanned contents h inode → s.setParent inode parent = none) ∧
      (IsScanned contents h inode → ∃ s', s.setParent inode parent = some s' ∧
        Inodes contents h s' ∧ s'.blockHash = s.blockHash) := by
  obtain ⟨hnone, hsome⟩ := entry_rounds hs inode
  unfold St.setParent
  refine ⟨fun hi => by rw [hnone hi]; rfl, fun hi => ?_⟩
  obtain ⟨entry, hentry⟩ := hsome hi
  rw [hentry]
  exact putInode_rounds hs hi _

lemma inodes_ite_err (hs : Inodes contents h s) (c : Prop) [Decidable c] (msg : Text) :
    Inodes contents h (if c then s else s.err msg) ∧
      (if c then s else s.err msg).blockHash = s.blockHash := by
  split
  · exact ⟨hs, rfl⟩
  · exact ⟨hs, rfl⟩

lemma childEntry_rounds (hs : Inodes contents h s) (dir : ℤ) (hi : IsScanned contents h inode) :
    ∃ s', childEntry s dir inode = some s' ∧ Inodes contents h s' ∧
      s'.blockHash = s.blockHash := by
  obtain ⟨entry, hentry⟩ := (entry_rounds hs inode).2 hi
  unfold childEntry
  rw [hentry, Option.bind_eq_bind, Option.bind_some]
  obtain ⟨hs₁, hblocks₁⟩ := inodes_ite_err hs (entry.parent = 0 ∨ entry.parent = dir)
    (Err.parent "parent".toList inode entry.parent dir)
  obtain ⟨s', hs', hinodes', hblocks'⟩ := (setParent_rounds hs₁ inode dir).2 hi
  exact ⟨s', hs', hinodes', hblocks'.trans hblocks₁⟩

lemma parentEntry_rounds (hs : Inodes contents h s) {dir : ℤ} (hd : IsScanned contents h dir)
    (hi : IsScanned contents h inode) : ∃ s', parentEntry s dir inode = some s' ∧
      Inodes contents h s' ∧ s'.blockHash = s.blockHash := by
  obtain ⟨dirEntry, hdirEntry⟩ := (entry_rounds hs dir).2 hd
  obtain ⟨entry, hentry⟩ := (entry_rounds hs inode).2 hi
  unfold parentEntry
  simp only [hdirEntry, hentry, Option.bind_eq_bind, Option.bind_some]
  obtain ⟨hs₁, hblocks₁⟩ := inodes_ite_err hs (dirEntry.parent = 0 ∨ dirEntry.parent = inode)
    (Err.parent "parent".toList dir inode entry.parent)
  obtain ⟨s', hs', hinodes', hblocks'⟩ := (setParent_rounds hs₁ dir inode).2 hd
  exact ⟨s', hs', hinodes', hblocks'.trans hblocks₁⟩

/-- An entry of a scanned inode fails if it is a `..` of a directory that is not scanned. -/
lemma namedEntry_rounds (hs : Inodes contents h s) (dir : ℤ) (name : Text)
    (hi : IsScanned contents h inode) :
    (name = "..".toList ∧ ¬ IsScanned contents h dir → namedEntry s dir inode name = none) ∧
      (¬ (name = "..".toList ∧ ¬ IsScanned contents h dir) → ∃ s',
        namedEntry s dir inode name = some s' ∧ Inodes contents h s' ∧
          s'.blockHash = s.blockHash) := by
  have hdots : "..".toList ≠ ".".toList := by decide
  obtain ⟨hnone, hsome⟩ := entry_rounds hs dir
  unfold namedEntry
  constructor
  · rintro ⟨rfl, hd⟩
    rw [if_neg hdots, if_pos rfl, hnone hd]
    rfl
  intro hnot
  by_cases hself : name = ".".toList
  · rw [if_pos hself]
    exact ⟨_, rfl, inodes_ite_err hs _ _⟩
  rw [if_neg hself]
  by_cases hup : name = "..".toList
  · have hd : IsScanned contents h dir := by
      by_contra hd
      exact hnot ⟨hup, hd⟩
    obtain ⟨dirEntry, hdirEntry⟩ := hsome hd
    rw [if_pos hup, hdirEntry, Option.bind_eq_bind, Option.bind_some]
    split
    · exact parentEntry_rounds hs hd hi
    · exact childEntry_rounds hs dir hi
  · rw [if_neg hup]
    exact childEntry_rounds hs dir hi

/-- **One entry.** -/
lemma dirent_rounds (hs : Inodes contents h s) (e : EntryLine) :
    (EntryStops contents h e → dirent h s e.dir e.inode e.name = none) ∧
      (¬ EntryStops contents h e → ∃ s', dirent h s e.dir e.inode e.name = some s' ∧
        Inodes contents h s' ∧ s'.blockHash = s.blockHash) := by
  have hscanned := isScanned_iff hs e.inode
  have hknown := isKnown_iff hs e.inode
  unfold EntryStops dirent
  cases hcell : get s.inodeHash e.inode with
  | none =>
    rw [hcell] at hscanned hknown
    simp only [reduceCtorEq, exists_false, ne_eq, not_true_eq_false, iff_false] at hscanned hknown
    dsimp only
    by_cases hlarge : h.inodes < e.inode
    · rw [if_pos hlarge]
      exact ⟨fun hstops => absurd hstops.1 (not_le.mpr hlarge), fun _ => ⟨_, rfl, hs, rfl⟩⟩
    · rw [if_neg hlarge]
      exact ⟨fun _ => rfl, fun hnot => absurd ⟨not_lt.mp hlarge, Or.inl hknown⟩ hnot⟩
  | some cell =>
    rw [hcell] at hscanned hknown
    simp only [ne_eq, reduceCtorEq, not_false_eq_true, iff_true] at hknown
    have hother : (∀ entry, cell ≠ .scanned entry) → ¬ (e.inode ≤ h.inodes ∧
        (¬ IsKnown contents h e.inode ∨ IsScanned contents h e.inode ∧ e.name = "..".toList ∧
          ¬ IsScanned contents h e.dir)) := by
      rintro hcell ⟨-, hunknown | ⟨hscan, -⟩⟩
      · exact hunknown hknown
      · obtain ⟨entry, heq⟩ := hscanned.mp hscan
        exact hcell entry (Option.some.inj heq)
    cases cell with
    | unreferenced =>
      exact ⟨fun hstops => absurd hstops (hother fun _ => by simp), fun _ => ⟨_, rfl, hs, rfl⟩⟩
    | free =>
      exact ⟨fun hstops => absurd hstops (hother fun _ => by simp), fun _ => ⟨_, rfl, hs, rfl⟩⟩
    | scanned entry =>
      have hi : IsScanned contents h e.inode := hscanned.mpr ⟨entry, rfl⟩
      dsimp only
      by_cases hlarge : h.inodes < e.inode
      · rw [if_pos hlarge]
        exact ⟨fun hstops => absurd hstops.1 (not_le.mpr hlarge), fun _ => ⟨_, rfl, hs, rfl⟩⟩
      rw [if_neg hlarge]
      obtain ⟨s₁, hs₁, hinodes₁, hblocks₁⟩ :=
        putInode_rounds hs hi { entry with links := entry.links + 1 }
      obtain ⟨hnone, hsome⟩ := namedEntry_rounds hinodes₁ e.dir e.name hi
      rw [hs₁, Option.bind_eq_bind, Option.bind_some]
      refine ⟨fun hstops => hnone ?_, fun hnot => ?_⟩
      · rcases hstops.2 with hunknown | ⟨-, hname, hd⟩
        · exact absurd hknown hunknown
        · exact ⟨hname, hd⟩
      · obtain ⟨s', hs', hinodes', hblocks'⟩ := hsome fun hup =>
          hnot ⟨not_lt.mp hlarge, Or.inr ⟨hi, hup.1, hup.2⟩⟩
        exact ⟨s', hs', hinodes', hblocks'.trans hblocks₁⟩

/-- A line that begins with a word has fields. -/
lemma split_ne_nil {c : Char} {t : Text} (hc : c ≠ ',') : split (c :: t) ≠ [] := by
  intro hnil
  have hfield : field ((c :: t).splitOn ',') 0 ≠ [] := by
    by_cases hcomma : ',' ∈ c :: t
    · obtain ⟨u, v, heq, hu⟩ := List.eq_append_cons_of_mem hcomma
      rw [heq, List.splitOn_append_cons_self_of_not_mem hu]
      rintro rfl
      exact hc (List.cons.inj heq).1
    · rw [List.splitOn_eq_singleton hcomma]
      exact List.cons_ne_nil _ _
  rw [← field_rdropWhile] at hfield
  unfold split at hnil
  rw [hnil] at hfield
  exact hfield rfl

/-- **The entries**, in any order. -/
lemma direntLines_rounds (hs : Inodes contents h s) :
    ((∃ line ∈ scan "DIRENT".toList contents, EntryStops contents h (entryOf line)) →
      (sort (scan "DIRENT".toList contents)).foldlM (direntLine h) s = none) ∧
    ((∀ line ∈ scan "DIRENT".toList contents, ¬ EntryStops contents h (entryOf line)) →
      ∃ s', (sort (scan "DIRENT".toList contents)).foldlM (direntLine h) s = some s' ∧
        s'.blockHash = s.blockHash) := by
  have hsort : ∀ line, line ∈ sort (scan "DIRENT".toList contents) ↔
      line ∈ scan "DIRENT".toList contents := fun line =>
    (List.perm_insertionSort _ _).mem_iff
  obtain ⟨hnone, hsome⟩ :
      (Somewhere (fun _ line => EntryStops contents h (entryOf line))
          (sort (scan "DIRENT".toList contents)) →
        (sort (scan "DIRENT".toList contents)).foldlM (direntLine h) s = none) ∧
      (¬ Somewhere (fun _ line => EntryStops contents h (entryOf line))
          (sort (scan "DIRENT".toList contents)) →
        ∃ s', (sort (scan "DIRENT".toList contents)).foldlM (direntLine h) s = some s' ∧
          Inodes contents h s' ∧ s'.blockHash = s.blockHash) := by
    refine foldlM_rounds (p := fun _ (s' : St) => Inodes contents h s' ∧
      s'.blockHash = s.blockHash) ?_ ⟨hs, rfl⟩
    intro u line v s₁ heq hs₁
    have hscan := (hsort line).mp (by rw [heq]; simp)
    obtain ⟨c, t, rfl, hc⟩ : ∃ c t, line = c :: t ∧ c ≠ ',' := by
      obtain ⟨t, rfl⟩ := List.isPrefixOf_iff_prefix.mp (List.mem_filter.mp hscan).2
      exact ⟨_, _, rfl, by decide⟩
    have hlast := List.getLast?_eq_some_getLast (split_ne_nil (t := t) hc)
    have hline : direntLine h s₁ (c :: t) = dirent h s₁ (entryOf (c :: t)).dir
        (entryOf (c :: t)).inode (entryOf (c :: t)).name := by
      unfold direntLine entryOf
      simp only [hlast, Option.bind_eq_bind, Option.bind_some, Option.getD_some]
    rw [hline]
    obtain ⟨hstops, hgoes⟩ := dirent_rounds hs₁.1 (entryOf (c :: t))
    refine ⟨hstops, fun hnot => ?_⟩
    obtain ⟨s', hs', hinodes', hblocks'⟩ := hgoes hnot
    exact ⟨s', hs', hinodes', hblocks'.trans hs₁.2⟩
  simp only [somewhere_const, hsort] at hnone hsome
  refine ⟨hnone, fun hall => ?_⟩
  obtain ⟨s', hs', -, hblocks⟩ := hsome fun ⟨line, hline, hstops⟩ => hall line hline hstops
  exact ⟨s', hs', hblocks⟩

/-! ### Indirect references -/

/-- The table of blocks behind these references. -/
def Blocks (contents : Text) (h : Header) (known : ℕ → Prop) (u : List PointerLine) (s : St) :
    Prop :=
  Filled IsReference (blockRoom contents h) known
    (pointers contents ++ u.map PointerLine.refBlock) s.blockHash

variable {x : PointerLine} {u : List PointerLine}

lemma faulty_iff (hs : Blocks contents h known u s) :
    Faulty contents h u x ↔ ∃ flag, indirectFlag h s x.refBlock = some flag := by
  unfold Faulty indirectFlag
  rw [← hs.get_marked]
  by_cases hlarge : h.blocks ≤ x.refBlock
  · simp [hlarge]
  by_cases hsmall : x.refBlock ≤ h.reservedBlocks
  · simp [hlarge, hsmall]
  rw [if_neg hlarge, if_neg hsmall, or_iff_right hlarge, or_iff_right hsmall]
  constructor
  · rintro ⟨_, hget, y, rfl⟩
    rw [hget]
    exact ⟨_, rfl⟩
  · rintro ⟨flag, hflag⟩
    split at hflag
    · next y hget => exact ⟨_, hget, y, rfl⟩
    · cases hflag

/-- **One indirect reference.** -/
lemma indirect_rounds (hs : Blocks contents h known u s) (x : PointerLine) :
    (PointerStops contents h u x → indirect h s x.inode x.level x.offset x.refBlock = none) ∧
      (¬ PointerStops contents h u x → ∃ s',
        indirect h s x.inode x.level x.offset x.refBlock = some s' ∧
          Blocks contents h known (u ++ [x]) s') := by
  have hfaulty := faulty_iff (x := x) hs
  have hput : ∀ s₁ : St, s₁.blockHash = s.blockHash →
      (Before (blockRoom contents h) (pointers contents ++ u.map PointerLine.refBlock) x.refBlock →
        s₁.putBlock x.refBlock (.scanned ⟨x.level, x.inode, x.offset⟩) = none) ∧
      (¬ Before (blockRoom contents h) (pointers contents ++ u.map PointerLine.refBlock)
          x.refBlock → ∃ s', s₁.putBlock x.refBlock (.scanned ⟨x.level, x.inode, x.offset⟩) =
            some s' ∧ Blocks contents h known (u ++ [x]) s') := by
    intro s₁ hblocks₁
    have hs₁ : Blocks contents h known u s₁ := by
      unfold Blocks
      rw [hblocks₁]
      exact hs
    obtain ⟨hnone, hsome⟩ := putBlock_rounds hs₁ ⟨x.level, x.inode, x.offset⟩
      x.refBlock
    refine ⟨hnone, fun hb => ?_⟩
    obtain ⟨s', hs', hfilled, -⟩ := hsome hb
    unfold Blocks
    rw [List.map_append, List.map_singleton, ← List.append_assoc]
    exact ⟨s', hs', hfilled⟩
  unfold PointerStops indirect checkIndirect
  cases hflag : indirectFlag h s x.refBlock with
  | none =>
    have hnot : ¬ Faulty contents h u x := by simp [hfaulty, hflag]
    dsimp only
    rw [Option.bind_eq_bind, Option.bind_some]
    obtain ⟨hnone, hsome⟩ := hput s rfl
    exact ⟨fun hstops => hnone (hstops.resolve_right fun hf => hnot hf.1),
      fun hgoes => hsome fun hb => hgoes (Or.inl hb)⟩
  | some flag =>
    have hf : Faulty contents h u x := hfaulty.mpr ⟨flag, hflag⟩
    dsimp only
    by_cases hlevel : -4 ≤ x.level ∧ x.level < 4
    · obtain ⟨s₁, hs₁, hblocks₁, -⟩ : ∃ s₁,
          s.blockErr flag x.level x.inode x.offset x.refBlock = some s₁ ∧
            s₁.blockHash = s.blockHash ∧ s₁.inodeHash = s.inodeHash := blockErr_rounds.2 hlevel
      obtain ⟨hnone, hsome⟩ := hput s₁ hblocks₁
      rw [hs₁, Option.bind_eq_bind, Option.bind_some]
      exact ⟨fun hstops => hnone (hstops.resolve_right fun hf => hf.2 hlevel),
        fun hgoes => hsome fun hb => hgoes (Or.inl hb)⟩
    · rw [blockErr_rounds.1 hlevel]
      exact ⟨fun _ => rfl, fun hgoes => absurd (Or.inr ⟨hf, hlevel⟩) hgoes⟩

/-- **The indirect lines.** -/
lemma indirectLines_rounds (hs : Blocks contents h known [] s) :
    ((∃ line ∈ scan "INDIRECT".toList contents, pointerLine? line = none) ∨
        Somewhere (PointerStops contents h) (pointerLines contents) →
      (scan "INDIRECT".toList contents).foldlM (indirectLine h) s = none) ∧
    (¬ ((∃ line ∈ scan "INDIRECT".toList contents, pointerLine? line = none) ∨
        Somewhere (PointerStops contents h) (pointerLines contents)) →
      ∃ s', (scan "INDIRECT".toList contents).foldlM (indirectLine h) s = some s') := by
  unfold pointerLines
  rw [somewhere_filterMap, ← somewhere_const, ← somewhere_or]
  refine (foldlM_rounds (p := fun u (s' : St) =>
    Blocks contents h known (u.filterMap pointerLine?) s') ?_ hs).imp_right
      fun hsome hnot => (hsome hnot).imp fun _ => And.left
  intro u line v s₁ _ hs₁
  have hline : indirectLine h s₁ line = (pointerLine? line).bind fun x =>
      indirect h s₁ x.inode x.level x.offset x.refBlock := by
    unfold indirectLine pointerLine?
    rcases (split line).map toI with
      _ | ⟨_, _ | ⟨inode, _ | ⟨level, _ | ⟨offset, _ | ⟨_, _ | ⟨refBlock, _⟩⟩⟩⟩⟩⟩ <;> rfl
  rw [hline, List.filterMap_append]
  cases hx : pointerLine? line with
  | none => exact ⟨fun _ => rfl, fun hgoes => absurd (Or.inl rfl) hgoes⟩
  | some x =>
    obtain ⟨hstops, hgoes⟩ := indirect_rounds hs₁ x
    rw [List.filterMap_cons_some hx, List.filterMap_nil]
    simpa using ⟨hstops, hgoes⟩

/-! ### Whole runs -/

/-- **The analyser comes to its end** unless some line raises an exception. -/
theorem analysis_rounds (hh : scanHeader contents = some (h, s)) :
    (¬ Analysable contents h → analysis contents = none) ∧
      (Analysable contents h → ∃ errList, analysis contents = some errList) := by
  obtain ⟨hheaded, rfl⟩ := scanHeader_eq_some_iff.mp hh
  obtain ⟨s₁, s₂, known, hs₁, hs₂, hfilled⟩ := freeLines_rounds contents h
  unfold analysis
  simp only [hh, hs₁, hs₂, Option.bind_eq_bind, Option.bind_some]
  obtain ⟨hnone, hsome⟩ := inodeLines_rounds hfilled
  by_cases hstops : Somewhere (InodeStops contents h) (scan "INODE".toList contents)
  · rw [hnone hstops]
    refine ⟨fun _ => rfl, fun ha => ?_⟩
    rcases somewhere_inodeStops.mp hstops with ⟨line, hline, htype⟩ | hnumber | hpointer
    · exact absurd htype (ha.types line hline)
    · exact absurd hnumber ha.numbers
    · exact absurd hpointer ha.pointers
  obtain ⟨s₃, hs₃, hfilled₃⟩ := hsome hstops
  have hgoes := fun hc => hstops (somewhere_inodeStops.mpr hc)
  rw [hs₃, Option.bind_some]
  have hinodes₃ : Inodes contents h s₃ := hfilled₃.inodes
  obtain ⟨hnone, hsome⟩ := setParent_rounds hinodes₃ 2 2
  by_cases hroot : IsScanned contents h 2
  swap
  · rw [hnone hroot]
    exact ⟨fun _ => rfl, fun ha => absurd ha.root hroot⟩
  obtain ⟨s₄, hs₄, hinodes₄, hblocks₄⟩ := hsome hroot
  rw [hs₄, Option.bind_some]
  obtain ⟨hnone, hsome⟩ := direntLines_rounds hinodes₄
  by_cases hentries : ∃ line ∈ scan "DIRENT".toList contents, EntryStops contents h (entryOf line)
  · rw [hnone hentries]
    obtain ⟨line, hline, hentry⟩ := hentries
    exact ⟨fun _ => rfl, fun ha => absurd hentry (ha.entries line hline)⟩
  obtain ⟨s₅, hs₅, hblocks₅⟩ := hsome fun line hline hentry => hentries ⟨line, hline, hentry⟩
  rw [hs₅, Option.bind_some]
  have hblocks : Blocks contents h known [] s₅ := by
    unfold Blocks
    rw [hblocks₅, hblocks₄, List.map_nil, List.append_nil]
    exact hfilled₃.blocks
  obtain ⟨hnone, hsome⟩ := indirectLines_rounds hblocks
  by_cases hindirects : (∃ line ∈ scan "INDIRECT".toList contents, pointerLine? line = none) ∨
      Somewhere (PointerStops contents h) (pointerLines contents)
  · rw [hnone hindirects]
    refine ⟨fun _ => rfl, fun ha => ?_⟩
    rcases hindirects with ⟨line, hline, hfields⟩ | hpointer
    · exact absurd hfields (ha.fields line hline)
    · exact absurd hpointer ha.references
  obtain ⟨s₆, hs₆⟩ := hsome hindirects
  rw [hs₆, Option.bind_some]
  refine ⟨fun hnot => absurd ⟨hheaded, ?_, ?_, ?_, hroot, ?_, ?_, ?_⟩ hnot, fun _ => ⟨_, rfl⟩⟩
  · exact fun line hline htype => hgoes (Or.inl ⟨line, hline, htype⟩)
  · exact fun hnumber => hgoes (Or.inr (Or.inl hnumber))
  · exact fun hpointer => hgoes (Or.inr (Or.inr hpointer))
  · exact fun line hline hentry => hentries ⟨line, hline, hentry⟩
  · exact fun line hline hfields => hindirects (Or.inl ⟨line, hline, hfields⟩)
  · exact fun hpointer => hindirects (Or.inr hpointer)

/-- **Exactly the texts without an exception.** -/
theorem analysis_ne_none_iff : analysis contents ≠ none ↔ ∃ h, Analysable contents h := by
  cases hh : scanHeader contents with
  | none =>
    refine iff_of_false (fun hne => hne ?_) ?_
    · unfold analysis
      rw [hh]
      rfl
    · rintro ⟨h, ha⟩
      rw [scanHeader_eq_some_iff.mpr ⟨ha.header, rfl⟩] at hh
      cases hh
  | some p =>
    obtain ⟨h, s⟩ := p
    obtain ⟨hnone, hsome⟩ := analysis_rounds hh
    refine ⟨fun hne => ⟨h, ?_⟩, ?_⟩
    · by_contra hnot
      exact hne (hnone hnot)
    · rintro ⟨h', ha⟩
      have heq := hh.symm.trans (scanHeader_eq_some_iff.mpr ⟨ha.header, rfl⟩)
      obtain ⟨rfl, -⟩ := Prod.mk.inj (Option.some.inj heq)
      obtain ⟨errList, herr⟩ := hsome ha
      simp [herr]

end LowLevelTasks.Exceptions
