import LowLevelTasks.RubyArray
import LowLevelTasks.RubyFloat
import LowLevelTasks.RubyText

/-!
The analyser of file system reports. It reads the report kind by kind: the header, the free
blocks and inodes, the inodes with their block pointers, the directory entries in the order of
their lines, and the indirect references. Two tables say what is known of every block and
every inode, and the messages are collected in a set that is printed at the end. Whatever
raises an exception on the way drops the messages.
-/

namespace LowLevelTasks.Lab3b

open LowLevelTasks.RubyArray LowLevelTasks.RubyFloat LowLevelTasks.RubyText

/-! ### Messages -/

def unpack (flag : Text) : Text :=
  upcase <| sub "dup".toList "duplicate".toList <| sub "all".toList "allocated".toList <|
    sub "ino".toList "inode".toList <| sub "blk".toList "block".toList <|
    sub "trip".toList "tripple".toList <| sub "doub".toList "double".toList <|
    sub "ind".toList "indirect".toList <| sub "res".toList "reserved".toList <|
    sub "inv".toList "invalid".toList <| tr '_' ' ' flag

namespace Err

def block (flag : Text) (block inode offset : ℤ) : Text :=
  unpack flag ++ " BLOCK ".toList ++ intText block ++ " IN INODE ".toList ++ intText inode ++
    " AT OFFSET ".toList ++ intText offset

def unref (block : ℤ) : Text := "UNREFERENCED BLOCK ".toList ++ intText block

def free (flag : Text) (element : ℤ) : Text :=
  let type := unpack flag
  let negative := if type.head? = some 'U' then "NOT ".toList else []
  type ++ " ".toList ++ intText element ++ " ".toList ++ negative ++ "ON FREELIST".toList

def link (inode links linkcount : ℤ) : Text :=
  "INODE ".toList ++ intText inode ++ " HAS ".toList ++ intText links ++
    " LINKS BUT LINKCOUNT IS ".toList ++ intText linkcount

def dir (flag : Text) (dirInode inode : ℤ) (name : Text) : Text :=
  "DIRECTORY INODE ".toList ++ intText dirInode ++ " NAME '".toList ++ name ++ "' ".toList ++
    unpack flag ++ " INODE ".toList ++ intText inode

def parent (flag : Text) (dirInode inode correctInode : ℤ) : Text :=
  let type := if flag = "self".toList then ".".toList else "..".toList
  "DIRECTORY INODE ".toList ++ intText dirInode ++ " NAME '".toList ++ type ++
    "' LINK TO INODE ".toList ++ intText inode ++ " SHOULD BE ".toList ++ intText correctInode

end Err

/-! ### Tables -/

structure Reference where
  level : ℤ
  inode : ℤ
  offset : ℤ
deriving DecidableEq

inductive BlockCell where
  | unreferenced | free
  | scanned (reference : Reference)
deriving DecidableEq

structure InodeEntry where
  linkCount : ℤ
  links : ℤ
  parent : ℤ
deriving DecidableEq

inductive InodeCell where
  | unreferenced | free
  | scanned (entry : InodeEntry)
deriving DecidableEq

/-- What `scan_header` reads off the report. -/
structure Header where
  blocks : ℤ
  inodes : ℤ
  reservedBlocks : ℤ
  reservedInodes : ℤ
deriving DecidableEq

structure St where
  blockHash : List (Option BlockCell)
  inodeHash : List (Option InodeCell)
  errList : List Text

/-- A message joins the set. -/
def St.err (s : St) (msg : Text) : St :=
  { s with errList := if msg ∈ s.errList then s.errList else s.errList ++ [msg] }

def St.putBlock (s : St) (block : ℤ) (cell : BlockCell) : Option St :=
  (put s.blockHash block cell).map fun blockHash => { s with blockHash }

def St.putInode (s : St) (inode : ℤ) (cell : InodeCell) : Option St :=
  (put s.inodeHash inode cell).map fun inodeHash => { s with inodeHash }

/-- The entry of a scanned inode; there is nothing to index in the other cells. -/
def St.entry (s : St) (inode : ℤ) : Option InodeEntry :=
  match get s.inodeHash inode with
  | some (.scanned entry) => some entry
  | _ => none

def St.setParent (s : St) (inode parent : ℤ) : Option St := do
  let entry ← s.entry inode
  s.putInode inode (.scanned { entry with parent })

/-! ### The passes -/

/-- The counts of the superblock, the two sizes, and its last field. -/
def superblockFields : List ℤ → Option (ℤ × ℤ × ℤ × ℤ × ℤ)
  | _ :: blocks :: inodes :: blockSize :: inodeSize :: field :: fields =>
    some (blocks, inodes, blockSize, inodeSize, (field :: fields).getLast (by simp))
  | _ => none

def scanHeader (contents : Text) : Option (Header × St) := do
  let superblock ← (scan "SUPERBLOCK".toList contents).head?
  let (blocks, inodes, blockSize, inodeSize, nonreservedInode) ←
    superblockFields ((split superblock).map toI)
  let group ← (scan "GROUP".toList contents).head?
  let inodeTableBlock ← ((split group).map toI).getLast?
  let inodeTableSize ← fdivCeil (inodes * inodeSize) blockSize
  let h : Header :=
    ⟨blocks, inodes, inodeTableBlock + inodeTableSize - 1, nonreservedInode - 1⟩
  let blockHash := List.replicate blocks.toNat (some .unreferenced)
  let inodeHash := List.replicate (inodes + 1).toNat (some .unreferenced)
  if blocks < 0 ∨ inodes + 1 < 0 then none else some (h, ⟨blockHash, inodeHash, []⟩)

def indirectSym (flag : Text) (level : ℤ) : Option Text :=
  (fetch [[], "_ind".toList, "_doub_ind".toList, "_trip_ind".toList] level).map (flag ++ ·)

/-- The offsets of the three pointers behind the direct ones. -/
def iBlockOffset (num : ℕ) : ℤ := if num ≤ 11 then 0 else [12, 268, 65804].getD (num - 12) 0

def bfreeLine (s : St) (line : Text) : Option St := s.putBlock (toI (firstDigits line)) .free

def ifreeLine (s : St) (line : Text) : Option St := s.putInode (toI (firstDigits line)) .free

/-- A message about a reference to a block. -/
def St.blockErr (s : St) (flag : Text) (level inode offset block : ℤ) : Option St :=
  (indirectSym flag level).map fun flag => s.err (Err.block flag block inode offset)

variable (h : Header)

/-- A pointer outside the blocks that may be used. -/
def checkRange (s : St) (level inode offset block : ℤ) : Option St :=
  if h.reservedBlocks < block ∧ block < h.blocks then some s
  else
    let flag := if block ≤ h.reservedBlocks then "res".toList else "inv".toList
    s.blockErr flag level inode offset block

/-- A pointer to a block that is free, or that something else references. -/
def checkCell (s : St) (level inode offset block : ℤ) : Option St :=
  match get s.blockHash block with
  | some .free => some (s.err (Err.free "all_blk".toList block))
  | some (.scanned other) => do
    let s ← s.blockErr "dup".toList level inode offset block
    s.blockErr "dup".toList other.level other.inode other.offset block
  | _ => some s

/-- One pointer of an inode. -/
def iBlock (inode : ℤ) (s : St) (num : ℕ) (block : ℤ) : Option St :=
  if block = 0 then some s
  else do
    let level : ℤ := if 11 < num then num - 11 else 0
    let offset := iBlockOffset num
    let s ← checkRange h s level inode offset block
    let s ← checkCell s level inode offset block
    s.putBlock block (.scanned ⟨level, inode, offset⟩)

def inodeLine (s : St) (line : Text) : Option St := do
  let e := split line
  let inode := toI (field e 1)
  let type ← e[2]?
  let linkCount := toI (field e 6)
  let s := if get s.inodeHash inode = some .free then s.err (Err.free "all_ino".toList inode)
    else s
  let s ← s.putInode inode (.scanned ⟨linkCount, 0, 0⟩)
  if type = "s".toList then some s
  else (List.range 15).foldlM (fun s num => iBlock h inode s num (toI (field e (num + 12)))) s

/-- The parent of `inode` is compared with the directory the entry stands in. -/
def childEntry (s : St) (dirInode inode : ℤ) : Option St := do
  let entry ← s.entry inode
  let s := if entry.parent = 0 ∨ entry.parent = dirInode then s
    else s.err (Err.parent "parent".toList inode entry.parent dirInode)
  s.setParent inode dirInode

/-- The parent of the directory is compared with the one its `..` names. -/
def parentEntry (s : St) (dirInode inode : ℤ) : Option St := do
  let dirEntry ← s.entry dirInode
  let entry ← s.entry inode
  let s := if dirEntry.parent = 0 ∨ dirEntry.parent = inode then s
    else s.err (Err.parent "parent".toList dirInode inode entry.parent)
  s.setParent dirInode inode

/-- What the entry `name` of a directory does, once the link of the inode is counted. -/
def namedEntry (s : St) (dirInode inode : ℤ) (name : Text) : Option St :=
  if name = ".".toList then
    some (if inode = dirInode then s
      else s.err (Err.parent "self".toList dirInode inode dirInode))
  else if name = "..".toList then do
    let dirEntry ← s.entry dirInode
    -- a `..` that agrees with the table is taken for an ordinary entry
    if inode ≠ dirEntry.parent then parentEntry s dirInode inode else childEntry s dirInode inode
  else childEntry s dirInode inode

def dirent (s : St) (dirInode inode : ℤ) (name : Text) : Option St :=
  match get s.inodeHash inode with
  | some .unreferenced | some .free => some (s.err (Err.dir "unall".toList dirInode inode name))
  | cell =>
    if h.inodes < inode then some (s.err (Err.dir "inv".toList dirInode inode name))
    else
      match cell with
      | some (.scanned entry) => do
        let s ← s.putInode inode (.scanned { entry with links := entry.links + 1 })
        namedEntry s dirInode inode name
      | _ => none

def direntLine (s : St) (line : Text) : Option St := do
  let e := split line
  let name ← e.getLast?
  dirent h s (toI (field e 1)) (toI (field e 3)) (remove '\'' name)

/-- What is wrong with an indirect reference; the last test that applies decides. -/
def indirectFlag (s : St) (refBlock : ℤ) : Option Text :=
  if h.blocks ≤ refBlock then some "inv".toList
  else if refBlock ≤ h.reservedBlocks then some "res".toList
  else
    match get s.blockHash refBlock with
    | some (.scanned _) => some "dup".toList
    | _ => none

def checkIndirect (s : St) (inode level offset refBlock : ℤ) : Option St :=
  match indirectFlag h s refBlock with
  | some flag => s.blockErr flag level inode offset refBlock
  | none => some s

/-- One indirect reference. -/
def indirect (s : St) (inode level offset refBlock : ℤ) : Option St := do
  let s ← checkIndirect h s inode level offset refBlock
  s.putBlock refBlock (.scanned ⟨level, inode, offset⟩)

def indirectLine (s : St) (line : Text) : Option St :=
  match (split line).map toI with
  | _ :: inode :: level :: offset :: _ :: refBlock :: _ => indirect h s inode level offset refBlock
  | _ => none

def finalBlock (s : St) (val : Option BlockCell × ℕ) : St :=
  if h.reservedBlocks < val.2 ∧ val.1 = some .unreferenced then s.err (Err.unref val.2) else s

def finalInode (s : St) (val : Option InodeCell × ℕ) : St :=
  let s := if h.reservedInodes < val.2 ∧ val.1 = some .unreferenced then
      s.err (Err.free "unall_ino".toList val.2)
    else s
  match val.1 with
  | some (.scanned e) =>
    if e.links ≠ e.linkCount then s.err (Err.link val.2 e.links e.linkCount) else s
  | _ => s

def finalReports (s : St) : St :=
  s.inodeHash.zipIdx.foldl (finalInode h) (s.blockHash.zipIdx.foldl (finalBlock h) s)

/-- The messages of a whole analysis, if nothing raises an exception. -/
def analysis (contents : Text) : Option (List Text) := do
  let (h, s) ← scanHeader contents
  let s ← (scan "BFREE".toList contents).foldlM bfreeLine s
  let s ← (scan "IFREE".toList contents).foldlM ifreeLine s
  let s ← (scan "INODE".toList contents).foldlM (inodeLine h) s
  let s ← s.setParent 2 2
  let s ← (sort (scan "DIRENT".toList contents)).foldlM (direntLine h) s
  let s ← (scan "INDIRECT".toList contents).foldlM (indirectLine h) s
  some (finalReports h s).errList

/-- What the program prints, and the status it exits with. -/
structure Outcome where
  printed : List Text
  status : ℕ
deriving DecidableEq

def lab3b (contents : Text) : Outcome :=
  match analysis contents with
  | some errList => ⟨errList, if 0 < errList.length then 2 else 0⟩
  | none => ⟨[], 1⟩

end LowLevelTasks.Lab3b
