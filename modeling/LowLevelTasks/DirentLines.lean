import LowLevelTasks.CsvWriter

/-!
The lines of a directory. The writer does not know where an entry stands: the offset it
writes is the sum of the lengths of the entries of that directory that it has written before.
-/

namespace LowLevelTasks.DirentLines

open LowLevelTasks.CsvWriter LowLevelTasks.ImgReader LowLevelTasks.Loops LowLevelTasks.RubyText
  LowLevelTasks.ScanImage

/-- The sums of the lengths before each entry, from an offset on. -/
def offsets : ℕ → List Dirent → List ℕ
  | _, [] => []
  | offset, d :: ds => offset :: offsets (offset + d.entry.recLen.toNat) ds

/-- The entries of a directory, with their places among all entries. -/
def entriesOf (img : Image) (inode : ℤ) : List (Dirent × ℕ) :=
  img.dirents.zipIdx.filter (·.1.direntParent = inode)

section

variable (memory : ℕ → Memory)

/-- The line of an entry that is written with this offset. -/
def entryLine (d : Dirent × ℕ) (offset : ℕ) : List UInt8 :=
  encode (csv ["DIRENT".toList, intText d.1.direntParent, decimal offset,
    unsignedText d.1.entry.inode, decimal d.1.entry.recLen.toNat,
    decimal d.1.entry.nameLen.toNat] ++ ",'".toList) ++ file d.1.entry (memory d.2) ++
      encode "'\n".toList

def entryLines (offset : ℕ) (ds : List (Dirent × ℕ)) : List UInt8 :=
  (ds.zip (offsets offset (ds.map Prod.fst))).flatMap fun x => entryLine memory x.1 x.2

end

variable {memory : ℕ → Memory} {img : Image} {offset : ℕ} {inode : ℤ} {ds ds' : List Dirent}

@[simp] lemma lengths_nil : lengths [] = 0 := rfl

@[simp] lemma lengths_cons (d : Dirent) (ds : List Dirent) :
    lengths (d :: ds) = d.entry.recLen.toNat + lengths ds := by simp [lengths]

@[simp] lemma lengths_append : lengths (ds ++ ds') = lengths ds + lengths ds' := by
  simp [lengths]

lemma offsets_append :
    offsets offset (ds ++ ds') = offsets offset ds ++ offsets (offset + lengths ds) ds' := by
  induction ds generalizing offset with
  | nil => rfl
  | cons d ds ih =>
    rw [List.cons_append, offsets, offsets, ih, lengths_cons, List.cons_append, Nat.add_assoc]

lemma map_entriesOf (img : Image) (inode : ℤ) :
    (entriesOf img inode).map Prod.fst = img.dirents.filter (·.direntParent = inode) := by
  have hfilter := List.filter_map (f := Prod.fst) (p := fun d : Dirent => d.direntParent = inode)
    (l := img.dirents.zipIdx)
  rw [List.zipIdx_map_fst] at hfilter
  exact hfilter.symm

lemma entryLines_cons (d : Dirent × ℕ) (ds : List (Dirent × ℕ)) :
    entryLines memory offset (d :: ds) =
      entryLine memory d offset ++ entryLines memory (offset + d.1.entry.recLen.toNat) ds := rfl

/-- One round of the writer over the entries. -/
lemma printDirentLine_eq_ok_iff {d : Dirent × ℕ} {out : List UInt8} {st : ℤ × List UInt8}
    (hd : d.1.direntParent = inode) :
    printDirentLine memory inode ((offset : ℤ), out) d = .ok st ↔
      offset + d.1.entry.recLen.toNat < 2 ^ 31 ∧
        st = (((offset + d.1.entry.recLen.toNat : ℕ) : ℤ), out ++ entryLine memory d offset) := by
  have hline : out ++ encode (csv ["DIRENT".toList, intText d.1.direntParent,
      intText (offset : ℤ), unsignedText d.1.entry.inode, decimal d.1.entry.recLen.toNat,
      decimal d.1.entry.nameLen.toNat] ++ ",'".toList) ++ file d.1.entry (memory d.2) ++
        encode "'\n".toList = out ++ entryLine memory d offset := by
    unfold entryLine
    rw [List.append_assoc, List.append_assoc, ← List.append_assoc (encode _)]
    rfl
  unfold printDirentLine
  rw [if_pos hd, bind_eq_ok_iff, hline]
  simp only [← Nat.cast_add, int_eq_ok_iff, Except.ok.injEq]
  constructor
  · rintro ⟨_, ⟨hint, rfl⟩, rfl⟩
    unfold IsInt at hint
    exact ⟨by omega, rfl⟩
  · rintro ⟨hlt, rfl⟩
    exact ⟨_, ⟨by unfold IsInt; omega, rfl⟩, rfl⟩

/-- The entries of other directories are passed over. -/
lemma foldlM_printDirentLine_iff (ds : List (Dirent × ℕ)) {out : List UInt8}
    {st : ℤ × List UInt8} (hoffset : offset < 2 ^ 31) :
    ds.foldlM (printDirentLine memory inode) ((offset : ℤ), out) = .ok st ↔
      offset + lengths ((ds.filter (·.1.direntParent = inode)).map Prod.fst) < 2 ^ 31 ∧
        st = (((offset + lengths ((ds.filter (·.1.direntParent = inode)).map Prod.fst) : ℕ) : ℤ),
          out ++ entryLines memory offset (ds.filter (·.1.direntParent = inode))) := by
  induction ds generalizing offset out with
  | nil =>
    change Except.ok _ = Except.ok st ↔ _
    simp [entryLines, eq_comm]
    exact fun _ => hoffset
  | cons d ds ih =>
    rw [List.foldlM_cons, bind_eq_ok_iff]
    by_cases hd : d.1.direntParent = inode
    · rw [List.filter_cons_of_pos (by simpa), List.map_cons, lengths_cons, entryLines_cons,
        ← Nat.add_assoc, ← List.append_assoc]
      simp only [printDirentLine_eq_ok_iff hd]
      constructor
      · rintro ⟨_, ⟨hlt, rfl⟩, hrest⟩
        exact (ih hlt).mp hrest
      · rintro ⟨hlt, rfl⟩
        have hlt' : offset + d.1.entry.recLen.toNat < 2 ^ 31 := by omega
        exact ⟨_, ⟨hlt', rfl⟩, (ih hlt').mpr ⟨hlt, rfl⟩⟩
    · have hskip : printDirentLine memory inode ((offset : ℤ), out) d = .ok ((offset : ℤ), out) :=
        if_neg hd
      rw [List.filter_cons_of_neg (by simpa)]
      simp only [hskip, Except.ok.injEq, exists_eq_left', ih hoffset]

/-- **The lines of a directory** are written as long as the lengths of its entries add up to
an `int`. -/
theorem printDirent_eq_ok_iff {out : List UInt8} :
    printDirent memory img inode = .ok out ↔
      lengths ((entriesOf img inode).map Prod.fst) < 2 ^ 31 ∧
        out = entryLines memory 0 (entriesOf img inode) := by
  have hrun := fun st => @foldlM_printDirentLine_iff memory 0 inode img.dirents.zipIdx [] st
    (by omega)
  unfold printDirent
  rw [bind_eq_ok_iff]
  simp only [Nat.cast_zero, Nat.zero_add, List.nil_append] at hrun
  simp only [hrun, Except.ok.injEq]
  constructor
  · rintro ⟨_, ⟨hlt, rfl⟩, rfl⟩
    exact ⟨hlt, rfl⟩
  · rintro ⟨hlt, rfl⟩
    exact ⟨_, ⟨hlt, rfl⟩, rfl⟩

end LowLevelTasks.DirentLines
