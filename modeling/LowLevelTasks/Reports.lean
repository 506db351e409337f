import LowLevelTasks.RubyText

/-!
The report of a file system: one line for each record, with the kind of the record as the
first field. The lines may stand in any order. Scanning a report for the lines of one kind
finds its records of that kind, in their order.
-/

namespace LowLevelTasks.Reports

open LowLevelTasks.RubyText

inductive FileType where
  | directory | file | symlink | other
deriving DecidableEq

def FileType.symbol : FileType → Char
  | .directory => 'd'
  | .file => 'f'
  | .symlink => 's'
  | .other => '?'

structure Superblock where
  blocks : ℕ
  inodes : ℕ
  blockSize : ℕ
  inodeSize : ℕ
  blocksPerGroup : ℕ
  inodesPerGroup : ℕ
  firstInode : ℕ
deriving DecidableEq

structure Group where
  index : ℕ
  blocks : ℕ
  inodes : ℕ
  freeBlocks : ℕ
  freeInodes : ℕ
  blockBitmap : ℕ
  inodeBitmap : ℕ
  inodeTable : ℕ
deriving DecidableEq

structure InodeRecord where
  number : ℕ
  type : FileType
  mode : ℕ
  uid : ℕ
  gid : ℕ
  linkCount : ℕ
  ctime : Text
  mtime : Text
  atime : Text
  size : ℕ
  sectors : ℕ
  iBlock : List ℕ
deriving DecidableEq

structure DirentRecord where
  dir : ℕ
  offset : ℕ
  inode : ℕ
  recLen : ℕ
  nameLen : ℕ
  name : Text
deriving DecidableEq

structure IndirectRecord where
  inode : ℕ
  level : ℕ
  offset : ℕ
  block : ℕ
  refBlock : ℕ
deriving DecidableEq

inductive Record where
  | superblock (s : Superblock)
  | group (g : Group)
  | bfree (b : ℕ)
  | ifree (n : ℕ)
  | inode (q : InodeRecord)
  | dirent (e : DirentRecord)
  | indirect (x : IndirectRecord)
deriving DecidableEq

def Superblock.fields (s : Superblock) : List Text :=
  "SUPERBLOCK".toList :: [s.blocks, s.inodes, s.blockSize, s.inodeSize, s.blocksPerGroup,
    s.inodesPerGroup, s.firstInode].map decimal

def Group.fields (g : Group) : List Text :=
  "GROUP".toList :: [g.index, g.blocks, g.inodes, g.freeBlocks, g.freeInodes, g.blockBitmap,
    g.inodeBitmap, g.inodeTable].map decimal

/-- The mode is written in octal. -/
def InodeRecord.fields (q : InodeRecord) : List Text :=
  ["INODE".toList, decimal q.number, [q.type.symbol], Nat.toDigits 8 q.mode, decimal q.uid,
    decimal q.gid, decimal q.linkCount, q.ctime, q.mtime, q.atime, decimal q.size] ++
    (q.sectors :: q.iBlock).map decimal

/-- The name is written in quotes. -/
def DirentRecord.fields (e : DirentRecord) : List Text :=
  "DIRENT".toList :: [e.dir, e.offset, e.inode, e.recLen, e.nameLen].map decimal ++
    ['\'' :: e.name ++ ['\'']]

def IndirectRecord.fields (x : IndirectRecord) : List Text :=
  "INDIRECT".toList :: [x.inode, x.level, x.offset, x.block, x.refBlock].map decimal

def Record.fields : Record → List Text
  | .superblock s => s.fields
  | .group g => g.fields
  | .bfree b => ["BFREE".toList, decimal b]
  | .ifree n => ["IFREE".toList, decimal n]
  | .inode q => q.fields
  | .dirent e => e.fields
  | .indirect x => x.fields

def Record.text (x : Record) : Text := csv x.fields

lemma text_bfree (b : ℕ) : (Record.bfree b).text = "BFREE,".toList ++ decimal b := by
  simp [Record.text, Record.fields, csv]

lemma text_ifree (n : ℕ) : (Record.ifree n).text = "IFREE,".toList ++ decimal n := by
  simp [Record.text, Record.fields, csv]

/-- A text that may stand in a field. -/
def PlainText (s : Text) : Prop := ',' ∉ s ∧ '\n' ∉ s

instance (s : Text) : Decidable (PlainText s) := inferInstanceAs (Decidable (_ ∧ _))

/-- All pointers of an inode are reported, but for symbolic links. -/
def InodeRecord.Plain (q : InodeRecord) : Prop :=
  (∀ time ∈ [q.ctime, q.mtime, q.atime], PlainText time) ∧
    (q.type ≠ .symlink → q.iBlock.length = 15)

def DirentRecord.Plain (e : DirentRecord) : Prop := PlainText e.name ∧ '\'' ∉ e.name

def Record.Plain : Record → Prop
  | .inode q => q.Plain
  | .dirent e => e.Plain
  | _ => True

instance (q : InodeRecord) : Decidable q.Plain := inferInstanceAs (Decidable (_ ∧ _))

instance (e : DirentRecord) : Decidable e.Plain := inferInstanceAs (Decidable (_ ∧ _))

instance : (x : Record) → Decidable x.Plain
  | .inode q => inferInstanceAs (Decidable q.Plain)
  | .dirent e => inferInstanceAs (Decidable e.Plain)
  | .superblock _ | .group _ | .bfree _ | .ifree _ | .indirect _ => .isTrue trivial

/-- A report whose fields can be told apart. -/
structure Report where
  records : List Record
  plain : ∀ x ∈ records, x.Plain

def Report.text (r : Report) : Text := unlines (r.records.map Record.text)

/-! ### The records of a kind -/

def Record.superblock? : Record → Option Superblock
  | .superblock s => some s
  | _ => none

def Record.group? : Record → Option Group
  | .group g => some g
  | _ => none

def Record.bfree? : Record → Option ℕ
  | .bfree b => some b
  | _ => none

def Record.ifree? : Record → Option ℕ
  | .ifree n => some n
  | _ => none

def Record.inode? : Record → Option InodeRecord
  | .inode q => some q
  | _ => none

def Record.dirent? : Record → Option DirentRecord
  | .dirent e => some e
  | _ => none

def Record.indirect? : Record → Option IndirectRecord
  | .indirect x => some x
  | _ => none

variable (r : Report)

def Report.superblocks : List Superblock := r.records.filterMap Record.superblock?

def Report.groups : List Group := r.records.filterMap Record.group?

def Report.bfrees : List ℕ := r.records.filterMap Record.bfree?

def Report.ifrees : List ℕ := r.records.filterMap Record.ifree?

def Report.inodes : List InodeRecord := r.records.filterMap Record.inode?

def Report.dirents : List DirentRecord := r.records.filterMap Record.dirent?

def Report.indirects : List IndirectRecord := r.records.filterMap Record.indirect?

variable {r}

lemma plain_of_mem_inodes {q : InodeRecord} (hq : q ∈ r.inodes) : q.Plain := by
  obtain ⟨x, hx, hxq⟩ := List.mem_filterMap.mp hq
  cases x <;> simp only [Record.inode?, reduceCtorEq, Option.some.injEq] at hxq
  exact hxq ▸ r.plain _ hx

lemma plain_of_mem_dirents {e : DirentRecord} (he : e ∈ r.dirents) : e.Plain := by
  obtain ⟨x, hx, hxe⟩ := List.mem_filterMap.mp he
  cases x <;> simp only [Record.dirent?, reduceCtorEq, Option.some.injEq] at hxe
  exact hxe ▸ r.plain _ hx

/-! ### Fields and lines -/

lemma notMem_map_decimal {c : Char} (hc : ¬ c.isDigit) {ns : List ℕ} :
    ∀ f ∈ ns.map decimal, c ∉ f := by
  intro f hf hcf
  obtain ⟨n, -, rfl⟩ := List.mem_map.mp hf
  exact hc (isDigit_of_mem_decimal hcf)

/-- Neither a comma nor a newline stands in a field. -/
lemma Record.Plain.notMem_fields {x : Record} (hx : x.Plain) {c : Char}
    (hc : c = ',' ∨ c = '\n') : ∀ f ∈ x.fields, c ∉ f := by
  have hdigit : ¬ c.isDigit := by rcases hc with rfl | rfl <;> decide
  have hplain : ∀ s, PlainText s → c ∉ s := by
    rintro s ⟨hcomma, hnewline⟩
    rcases hc with rfl | rfl <;> assumption
  have hword : ∀ w ∈ ["SUPERBLOCK".toList, "GROUP".toList, "BFREE".toList, "IFREE".toList,
      "INODE".toList, "DIRENT".toList, "INDIRECT".toList], c ∉ w := by
    rcases hc with rfl | rfl <;> decide
  have hdec : ∀ n, c ∉ decimal n := fun n h => hdigit (isDigit_of_mem_decimal h)
  cases x with
  | inode q =>
    obtain ⟨htimes, -⟩ := hx
    simp only [List.forall_mem_cons, List.not_mem_nil, false_implies, implies_true,
      and_true] at htimes hword
    unfold Record.fields InodeRecord.fields
    rw [List.forall_mem_append]
    refine ⟨?_, notMem_map_decimal hdigit⟩
    simp only [List.forall_mem_cons, List.not_mem_nil, false_implies, implies_true, and_true,
      hdec, not_false_eq_true, true_and]
    have hmode : c ∉ Nat.toDigits 8 q.mode := fun h =>
      hdigit (Nat.isDigit_of_mem_toDigits (by omega) (by omega) h)
    have htype : c ∉ [q.type.symbol] := by
      cases q.type <;> rcases hc with rfl | rfl <;> decide
    exact ⟨hword.2.2.2.2.1, htype, hmode, hplain _ htimes.1, hplain _ htimes.2.1,
      hplain _ htimes.2.2⟩
  | dirent e =>
    unfold Record.fields DirentRecord.fields
    rw [List.forall_mem_append, List.forall_mem_cons, List.forall_mem_singleton]
    refine ⟨⟨hword _ (by simp), notMem_map_decimal hdigit⟩, ?_⟩
    have hquote : c ≠ '\'' := by rcases hc with rfl | rfl <;> decide
    simp [hquote, hplain _ hx.1]
  | bfree | ifree =>
    simp only [Record.fields, List.forall_mem_cons, List.not_mem_nil, false_implies,
      implies_true, and_true]
    exact ⟨hword _ (by simp), hdec _⟩
  | superblock | group | indirect =>
    refine List.forall_mem_cons.mpr ⟨hword _ (by simp), notMem_map_decimal hdigit⟩

lemma newline_notMem_text {x : Record} (hx : x.Plain) : '\n' ∉ x.text :=
  notMem_csv (by decide) (hx.notMem_fields (Or.inr rfl))

lemma Report.newline_notMem (r : Report) : ∀ x ∈ r.records, '\n' ∉ x.text :=
  fun x hx => newline_notMem_text (r.plain x hx)

section scan

variable {xs : List Record} (h : ∀ x ∈ xs, '\n' ∉ x.text)
include h

/-- **Scanning for a kind** of records finds the lines of those records. -/
theorem scan_text {α : Type} {word : Text} {p : Record → Option α} {c : α → Record}
    (hp : ∀ x, word.isPrefixOf x.text = (p x).isSome) (hc : ∀ x a, p x = some a → x = c a)
    (hw : word ≠ []) :
    scan word (unlines (xs.map Record.text)) = (xs.filterMap p).map fun a => (c a).text := by
  rw [scan_unlines hw (List.forall_mem_map.mpr h)]
  clear h
  induction xs with
  | nil => rfl
  | cons x xs ih =>
    rw [List.map_cons, List.filter_cons, hp]
    cases hx : p x with
    | none => simpa [List.filterMap_cons, hx] using ih
    | some a =>
      rw [List.filterMap_cons_some hx, List.map_cons, ← hc x a hx]
      simpa using ih

lemma scan_superblock : scan "SUPERBLOCK".toList (unlines (xs.map Record.text)) =
    (xs.filterMap Record.superblock?).map fun s => (Record.superblock s).text :=
  scan_text h (by rintro (_ | _) <;> rfl) (by rintro (_ | _) _ h <;> cases h; rfl) (by decide)

lemma scan_group : scan "GROUP".toList (unlines (xs.map Record.text)) =
    (xs.filterMap Record.group?).map fun g => (Record.group g).text :=
  scan_text h (by rintro (_ | _) <;> rfl) (by rintro (_ | _) _ h <;> cases h; rfl) (by decide)

lemma scan_bfree : scan "BFREE".toList (unlines (xs.map Record.text)) =
    (xs.filterMap Record.bfree?).map fun b => (Record.bfree b).text :=
  scan_text h (by rintro (_ | _) <;> rfl) (by rintro (_ | _) _ h <;> cases h; rfl) (by decide)

lemma scan_ifree : scan "IFREE".toList (unlines (xs.map Record.text)) =
    (xs.filterMap Record.ifree?).map fun n => (Record.ifree n).text :=
  scan_text h (by rintro (_ | _) <;> rfl) (by rintro (_ | _) _ h <;> cases h; rfl) (by decide)

lemma scan_inode : scan "INODE".toList (unlines (xs.map Record.text)) =
    (xs.filterMap Record.inode?).map fun q => (Record.inode q).text :=
  scan_text h (by rintro (_ | _) <;> rfl) (by rintro (_ | _) _ h <;> cases h; rfl) (by decide)

lemma scan_dirent : scan "DIRENT".toList (unlines (xs.map Record.text)) =
    (xs.filterMap Record.dirent?).map fun e => (Record.dirent e).text :=
  scan_text h (by rintro (_ | _) <;> rfl) (by rintro (_ | _) _ h <;> cases h; rfl) (by decide)

lemma scan_indirect : scan "INDIRECT".toList (unlines (xs.map Record.text)) =
    (xs.filterMap Record.indirect?).map fun x => (Record.indirect x).text :=
  scan_text h (by rintro (_ | _) <;> rfl) (by rintro (_ | _) _ h <;> cases h; rfl) (by decide)

end scan

/-- Splitting the line of a record recovers its fields. -/
theorem split_text {x : Record} (hx : x.Plain) : split x.text = x.fields := by
  have hcomma := hx.notMem_fields (Or.inl rfl)
  obtain ⟨last, hlast, hne⟩ : ∃ last, x.fields.getLast? = some last ∧ last ≠ [] := by
    cases x with
    | inode q =>
      obtain ⟨n, hn⟩ : ∃ n, (q.sectors :: q.iBlock).getLast? = some n := by
        simp [List.getLast?_eq_some_getLast]
      refine ⟨decimal n, ?_, decimal_ne_nil⟩
      unfold Record.fields InodeRecord.fields
      rw [List.getLast?_append, List.getLast?_map, hn]
      rfl
    | dirent e =>
      refine ⟨'\'' :: e.name ++ ['\''], ?_, by simp⟩
      unfold Record.fields DirentRecord.fields
      rw [List.getLast?_concat]
    | superblock | group | bfree | ifree | indirect => exact ⟨decimal _, rfl, decimal_ne_nil⟩
  exact split_csv hcomma hlast hne

/-- The name may have commas: it is behind the fields that are read. -/
lemma field_dirent (e : DirentRecord) {k : ℕ} (hk : k < 6) :
    field (split (Record.dirent e).text) k = field e.fields k := by
  have hcomma : ∀ f ∈ "DIRENT".toList ::
      [e.dir, e.offset, e.inode, e.recLen, e.nameLen].map decimal, ',' ∉ f :=
    List.forall_mem_cons.mpr ⟨by decide, notMem_map_decimal (by decide)⟩
  have hsplit : (csv e.fields).splitOn ',' = ("DIRENT".toList ::
      [e.dir, e.offset, e.inode, e.recLen, e.nameLen].map decimal) ++
        ('\'' :: e.name ++ ['\'']).splitOn ',' := splitOn_csv_concat _ hcomma
  have hlength : k < ("DIRENT".toList ::
      [e.dir, e.offset, e.inode, e.recLen, e.nameLen].map decimal).length := hk
  unfold split
  rw [field_rdropWhile]
  change field ((csv e.fields).splitOn ',') k = _
  unfold field DirentRecord.fields at *
  rw [hsplit, List.getD_append _ _ _ _ hlength, List.getD_append _ _ _ _ hlength]

end LowLevelTasks.Reports
