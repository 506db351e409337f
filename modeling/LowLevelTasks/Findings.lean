import LowLevelTasks.ArraySizes

/-!
Whether the analyser delivers what it finds. An exception drops all messages, and a report of an
image can raise one: a root inode that is not allocated has no line, and the root directory is set
without a look at its cell.
-/

namespace LowLevelTasks.Findings

open LowLevelTasks.ArraySizes LowLevelTasks.CsvWriter LowLevelTasks.DirectoryBlocks
open LowLevelTasks.Exceptions
open LowLevelTasks.FreeList LowLevelTasks.ImgReader LowLevelTasks.IndirectBlocks
open LowLevelTasks.InodeTable LowLevelTasks.Lab3b LowLevelTasks.Loops
open LowLevelTasks.RubyText LowLevelTasks.ScanImage

/-- A report that is written for an image. -/
structure WrittenReport where
  bytes : List UInt8
  written : ∃ (strftime : UInt32 → Text) (memory : ℕ → Memory) (fuel : ℕ) (file : ImageFile)
    (img : Image), scanImage fuel file = .ok img ∧ printCsv strftime memory img = .ok bytes

/-- The analyser on a file. The first scan raises an exception if the bytes are not a text, and
some line does if an array would get too long; which one comes first does not matter. -/
def lab3bFile (bytes : List UInt8) : Outcome :=
  match decode bytes with
  | some contents => if Sized contents then lab3b contents else ⟨[], 1⟩
  | none => ⟨[], 1⟩

/-- The messages that are found are printed, and the status says whether there are any. -/
def Delivers (r : WrittenReport) : Prop :=
  ∃ contents errList, decode r.bytes = some contents ∧ analysis contents = some errList ∧
    lab3bFile r.bytes = ⟨errList, if errList = [] then 0 else 2⟩

lemma lab3bFile_encode {contents : Text} (h : Sized contents) :
    lab3bFile (encode contents) = lab3b contents := by
  rw [lab3bFile, decode_encode]
  exact if_pos h

/-- **Exactly when the findings are delivered**: no line of the report raises an exception. -/
theorem delivers_iff (r : WrittenReport) :
    Delivers r ↔ ∃ contents h, decode r.bytes = some contents ∧ Sized contents ∧
      Analysable contents h := by
  unfold Delivers lab3bFile
  constructor
  · rintro ⟨contents, errList, hdecode, herr, hrun⟩
    obtain ⟨h, ha⟩ := analysis_ne_none_iff.mp (by rw [herr]; exact Option.some_ne_none errList)
    refine ⟨contents, h, hdecode, ?_, ha⟩
    by_contra hnot
    simp only [hdecode, if_neg hnot, Outcome.mk.injEq] at hrun
    split at hrun <;> omega
  · rintro ⟨contents, h, hdecode, hsized, ha⟩
    obtain ⟨errList, herr⟩ := Option.ne_none_iff_exists'.mp (analysis_ne_none_iff.mpr ⟨h, ha⟩)
    refine ⟨contents, errList, hdecode, herr, ?_⟩
    simp only [hdecode, if_pos hsized, lab3b, herr]
    cases errList with
    | nil => rfl
    | cons m ms => simp

/-! ### A file without a root directory -/

/-- Its one inode has the number 3, and a pointer to a block that does not exist. -/
def rootless : ImageFile :=
  .ofCells 8192 [(1024, 8), (1028, 8), (1056, 8), (1064, 8), (1080, 0x53), (1081, 0xEF),
    (1108, 11), (1112, 128), (2048, 3), (2052, 4), (2056, 5), (3072, 0xFF), (4096, 0xFF),
    (5376, 0xED), (5377, 0x81), (5402, 1), (5416, 200)]

def rootlessInode : NumberedInode := ⟨3, rootless.inode 5376⟩

def rootlessImage : Image where
  sblock := rootless.superBlock 1024
  group := [rootless.groupDesc 2048]
  bfree := []
  ifree := []
  inodes := [rootlessInode]
  dirents := []
  indirects := []

def rootlessText : Text :=
  unlines ["SUPERBLOCK,8,8,1024,128,8,8,11".toList, "GROUP,0,8,8,0,0,3,4,5".toList,
    ("INODE,3,f,755,0,0,1,01/01/70 00:00:00,01/01/70 00:00:00,01/01/70 00:00:00,0,0," ++
      "200,0,0,0,0,0,0,0,0,0,0,0,0,0,0").toList]

lemma scanImage_rootless : scanImage 3 rootless = .ok rootlessImage := by
  have hsblock : readSuperblock rootless = .ok rootlessImage.sblock := by decide +kernel
  have hgroup : readGroup rootless rootlessImage.sblock = .ok rootlessImage.group := by
    decide +kernel
  have hfree : ∀ isBfree, readFreeList rootless rootlessImage.sblock rootlessImage.group isBfree =
      .ok ([], 0) := by decide +kernel
  have hinodes : readInode rootless rootlessImage.sblock rootlessImage.group =
      .ok rootlessImage.inodes := by decide +kernel
  have hdirents : readDirent rootless 3 rootlessImage.inodes = .ok [] := by decide +kernel
  have htop : topBlocks rootlessInode.inode = [(1, 0), (2, 0), (3, 0)] := by decide +kernel
  have hindirect : inodeIndirect rootless rootlessInode = .ok [] := by
    refine inodeIndirect_ofCells ?_
    rw [htop]
    decide
  have hindirects : readIndirect rootless rootlessImage.inodes = .ok [] := by
    unfold readIndirect rootlessImage
    rw [collect, hindirect]
    rfl
  exact scanImage_ok hsblock hgroup (hfree true) (hfree false) hinodes hdirents hindirects

def rootlessReport : WrittenReport where
  bytes := encode rootlessText
  written := ⟨fun _ => "01/01/70 00:00:00".toList, fun _ => ⟨[], []⟩, 3, rootless, rootlessImage,
    scanImage_rootless, by decide +kernel⟩

/-- The invalid pointer is found, and its message is lost. -/
theorem rootlessReport_lost :
    ((scanHeader rootlessText).bind fun p =>
      (scan "INODE".toList rootlessText).foldlM (inodeLine p.1) p.2).map St.errList =
        some ["INVALID BLOCK 200 IN INODE 3 AT OFFSET 0".toList] ∧
      lab3bFile rootlessReport.bytes = ⟨[], 1⟩ ∧ ¬ Delivers rootlessReport := by
  have hnone : analysis rootlessText = none := by decide +kernel
  have hfile : lab3bFile rootlessReport.bytes = ⟨[], 1⟩ := by
    change lab3bFile (encode rootlessText) = ⟨[], 1⟩
    rw [lab3bFile, decode_encode]
    simp only [lab3b, hnone, ite_self]
  refine ⟨by decide +kernel, hfile, ?_⟩
  rintro ⟨contents, errList, -, -, hrun⟩
  rw [hfile] at hrun
  have hstatus := congrArg Outcome.status hrun
  dsimp only at hstatus
  split at hstatus <;> omega

end LowLevelTasks.Findings
