import LowLevelTasks.DirentLines
import LowLevelTasks.Passes

/-!
The names of directory entries, from the writer of the report to its analyser. Nothing is
escaped on the way: a name is put between quotes in the last field of a line, and what is read
back is the last field of the line without quotes.
-/

namespace LowLevelTasks.EntryNames

open LowLevelTasks.Buffers LowLevelTasks.CsvWriter LowLevelTasks.DirectoryBlocks
  LowLevelTasks.DirentLines LowLevelTasks.ImgReader LowLevelTasks.Lab3b LowLevelTasks.Passes
  LowLevelTasks.RubyText

/-! ### Names and their lines -/

/-- A name as ext2 allows it. -/
structure FileName where
  bytes : List UInt8
  length_pos : 0 < bytes.length
  length_le : bytes.length ≤ 255
  valid : ∀ b ∈ bytes, b ≠ 0 ∧ b ≠ 47

/-- An entry with this name, as it is scanned. -/
def FileName.dirent (n : FileName) (parent : ℤ) (inode : UInt32) (recLen : UInt16) : Dirent :=
  ⟨parent, ⟨inode, recLen, .ofNat n.bytes.length, n.bytes⟩⟩

variable {n : FileName} {parent : ℤ} {inode : UInt32} {recLen : UInt16} {m : Memory}

lemma toNat_nameLen : (n.dirent parent inode recLen).entry.nameLen.toNat = n.bytes.length := by
  have := n.length_le
  exact UInt8.toNat_ofNat_of_lt' (by unfold UInt8.size; omega)

lemma strncpy_name (rest : List UInt8) : strncpy n.bytes.length (n.bytes ++ rest) = n.bytes := by
  have htake : (n.bytes ++ rest).take n.bytes.length = n.bytes := List.take_left
  rw [strncpy_of_noNul (by rw [htake]; exact fun b hb => (n.valid b hb).1), htake, Nat.sub_self,
    List.replicate_zero, List.append_nil]

lemma takeWhile_name (rest : List UInt8) :
    (n.bytes ++ rest).takeWhile (· ≠ 0) = n.bytes ++ rest.takeWhile (· ≠ 0) :=
  List.takeWhile_append_of_pos fun b hb => by simpa using (n.valid b hb).1

/-- A name that leaves room for a zero in the buffer is written as it is. -/
lemma file_of_le (h : n.bytes.length ≤ 254) :
    file (n.dirent parent inode recLen).entry m = n.bytes := by
  unfold file
  rw [toNat_nameLen]
  change (padded 255 (strncpy n.bytes.length (n.bytes ++ m.heap)) ++ m.stack).takeWhile _ = _
  rw [strncpy_name, padded_of_lt (by omega), List.append_assoc, takeWhile_name]
  simp

/-- Behind a name that fills the buffer the bytes on the stack are written. -/
lemma file_of_full (h : n.bytes.length = 255) :
    file (n.dirent parent inode recLen).entry m = n.bytes ++ m.stack.takeWhile (· ≠ 0) := by
  unfold file
  rw [toNat_nameLen]
  change (padded 255 (strncpy n.bytes.length (n.bytes ++ m.heap)) ++ m.stack).takeWhile _ = _
  rw [strncpy_name]
  unfold padded
  rw [h, Nat.sub_self, List.replicate_zero, List.append_nil, takeWhile_name]

def lineFields (d : Dirent) (offset : ℕ) : List Text :=
  ["DIRENT".toList, intText d.direntParent, decimal offset, unsignedText d.entry.inode,
    decimal d.entry.recLen.toNat, decimal d.entry.nameLen.toNat]

/-- The line of an entry whose name is written as a text. -/
def lineText (d : Dirent) (offset : ℕ) (name : Text) : Text :=
  csv (lineFields d offset ++ ['\'' :: name ++ ['\'']])

variable {memory : ℕ → Memory} {d : Dirent} {k offset : ℕ} {name : Text}

lemma entryLine_eq (h : file d.entry (memory k) = encode name) :
    entryLine memory (d, k) offset = encode (lineText d offset name ++ ['\n']) := by
  have hline : lineText d offset name ++ ['\n'] =
      csv (lineFields d offset) ++ ",'".toList ++ name ++ "'\n".toList := by
    unfold lineText
    rw [csv_concat (by simp [lineFields])]
    simp only [List.append_assoc, List.cons_append, List.nil_append]
    rfl
  rw [hline, encode_append, encode_append _ name, ← h]
  rfl

/-! ### Reading lines -/

/-- Neither a comma nor a newline stands in the fields before the name. -/
lemma notMem_lineFields {c : Char} (hc : c = ',' ∨ c = '\n') :
    ∀ f ∈ lineFields d offset, c ∉ f := by
  have hdecimal : ∀ m, c ∉ decimal m := fun m h => by
    have := isDigit_of_mem_decimal h
    rcases hc with rfl | rfl <;> revert this <;> decide
  have hint : ∀ x, c ∉ intText x := by
    refine notMem_intText ?_ ?_ <;> rcases hc with rfl | rfl <;> decide
  unfold lineFields unsignedText
  simp only [List.forall_mem_cons, hint, hdecimal, not_false_eq_true, List.not_mem_nil,
    false_implies, implies_true, and_true]
  rcases hc with rfl | rfl <;> decide

/-- A name without commas is the last field. -/
lemma split_lineText (h : ',' ∉ name) :
    split (lineText d offset name) = lineFields d offset ++ ['\'' :: name ++ ['\'']] := by
  refine split_csv ?_ List.getLast?_concat (by simp)
  rw [List.forall_mem_append, List.forall_mem_singleton]
  exact ⟨notMem_lineFields (Or.inl rfl), by simp [h]⟩

lemma readName_lineText (d : Dirent) (offset : ℕ) (h : ',' ∉ name) (hquote : '\'' ∉ name) :
    readName (lineText d offset name) = some name := by
  have hremove : remove '\'' name = name :=
    List.filter_eq_self.mpr fun c hc => decide_eq_true fun heq => hquote (heq ▸ hc)
  unfold readName
  rw [split_lineText h, List.getLast?_concat, Option.map_some, Option.some.injEq]
  unfold remove at *
  simpa using hremove

/-- What is read back never has a comma or a quote. -/
lemma notMem_readName {line : Text} (h : readName line = some name) :
    ',' ∉ name ∧ '\'' ∉ name := by
  obtain ⟨last, hlast, rfl⟩ := Option.map_eq_some_iff.mp h
  have hmem : last ∈ line.splitOn ',' :=
    (List.rdropWhile_prefix _ _).subset (List.mem_of_getLast? hlast)
  unfold remove
  exact ⟨fun hc => notMem_of_mem_splitOn hmem (List.mem_of_mem_filter hc),
    fun hc => by simpa using (List.mem_filter.mp hc).2⟩

lemma notMem_nameRead (e : Reports.DirentRecord) : ',' ∉ nameRead e ∧ '\'' ∉ nameRead e := by
  unfold nameRead
  cases h : readName (Reports.Record.dirent e).text with
  | none => simp
  | some name => exact notMem_readName h

/-- The name that the analyser reads off the line of an entry with this name. -/
def shownName (name : Text) : Text := remove '\'' (name.rtakeWhile (· ≠ ','))

lemma rtakeWhile_quoted (name : Text) :
    remove '\'' (('\'' :: name ++ ['\'']).rtakeWhile (· ≠ ',')) = shownName name := by
  unfold shownName
  rw [List.rtakeWhile_concat_pos _ _ _ (by decide)]
  unfold List.rtakeWhile
  rw [List.reverse_cons, List.takeWhile_append]
  split
  · next hall =>
    rw [(List.takeWhile_prefix _).eq_of_length hall]
    simp [remove]
  · simp [remove]

lemma nameRead_eq (e : Reports.DirentRecord) : nameRead e = shownName e.name := by
  have hcomma : ∀ x ∈ "DIRENT".toList ::
      [e.dir, e.offset, e.inode, e.recLen, e.nameLen].map decimal, ',' ∉ x :=
    List.forall_mem_cons.mpr ⟨by decide, Reports.notMem_map_decimal (by decide)⟩
  have hsplit : (csv e.fields).splitOn ',' = ("DIRENT".toList ::
      [e.dir, e.offset, e.inode, e.recLen, e.nameLen].map decimal) ++
        ('\'' :: e.name ++ ['\'']).splitOn ',' := splitOn_csv_concat _ hcomma
  have hlast : ((csv e.fields).splitOn ',').getLast? =
      some (('\'' :: e.name ++ ['\'']).rtakeWhile (· ≠ ',')) := by
    rw [hsplit, List.getLast?_append, getLast?_splitOn]
    rfl
  obtain ⟨init, hinit⟩ := List.getLast?_eq_some_iff.mp hlast
  unfold nameRead readName split
  change (((((csv e.fields).splitOn ',').rdropWhile List.isEmpty).getLast?).map _).getD [] = _
  rw [hinit, List.rdropWhile_concat_neg _ _ _ (by simp), List.getLast?_concat,
    Option.map_some, Option.getD_some, rtakeWhile_quoted]

/-- The analyser takes nothing but the name, the directory and the inode from the line. -/
lemma direntLine_lineText {h : Header} {s : St} (hcomma : ',' ∉ name) (hquote : '\'' ∉ name) :
    direntLine h s (lineText d offset name) =
      Lab3b.dirent h s d.direntParent (toInt d.entry.inode) name := by
  have hname := readName_lineText d offset hcomma hquote
  obtain ⟨last, hlast, hremove⟩ := Option.map_eq_some_iff.mp hname
  have hparent : toI (field (split (lineText d offset name)) 1) = d.direntParent := by
    rw [split_lineText hcomma]
    exact toI_intText _
  have hinode : toI (field (split (lineText d offset name)) 3) = toInt d.entry.inode := by
    rw [split_lineText hcomma]
    exact toI_intText _
  unfold direntLine
  simp only [hlast, hparent, hinode, Option.bind_eq_bind, Option.bind_some, hremove]

/-! ### Lines in a report -/

def kinds : List Text :=
  ["SUPERBLOCK".toList, "GROUP".toList, "BFREE".toList, "IFREE".toList, "INODE".toList,
    "DIRENT".toList, "INDIRECT".toList]

/-- A text after which a line begins. -/
def LineEnd (before : Text) : Prop := before = [] ∨ ∃ init, before = init ++ ['\n']

lemma scan_nil {word : Text} (hw : word ≠ []) : scan word [] = [] := by
  obtain ⟨c, word, rfl⟩ := List.exists_cons_of_ne_nil hw
  rfl

lemma scan_append {word before rest : Text} (hw : word ≠ []) (hbefore : LineEnd before) :
    scan word (before ++ rest) = scan word before ++ scan word rest := by
  rcases hbefore with rfl | ⟨init, rfl⟩
  · rw [scan_nil hw, List.nil_append, List.nil_append]
  · rw [List.append_assoc, List.singleton_append, scan_append_newline, scan_append_newline,
      scan_nil hw, List.append_nil]

lemma newline_notMem_of_mem_scan {word contents line : Text} (h : line ∈ scan word contents) :
    '\n' ∉ line := notMem_of_mem_splitOn (List.mem_of_mem_filter h)

lemma isPrefixOf_lineText {word : Text} (hword : word ∈ kinds) :
    word.isPrefixOf (lineText d offset name) = (word == "DIRENT".toList) := by
  unfold lineText
  rw [csv_concat (by simp [lineFields])]
  simp only [kinds, List.mem_cons, List.not_mem_nil, or_false] at hword
  rcases hword with rfl | rfl | rfl | rfl | rfl | rfl | rfl <;> rfl

lemma newline_mem_lineText_iff : '\n' ∈ lineText d offset name ↔ '\n' ∈ name := by
  have hfields : '\n' ∉ csv (lineFields d offset) :=
    notMem_csv (by decide) (notMem_lineFields (Or.inr rfl))
  unfold lineText
  rw [csv_concat (by simp [lineFields])]
  simp [hfields]

/-! ### Names that survive -/

/-- The line of an entry with the name stands in a report: the report can be read, just this
line is found in it, and what is read off it is the name, the directory and the inode. -/
structure ReadBack (n : FileName) (parent : ℤ) (inode : UInt32) (before line after : Text) :
    Prop where
  scanned : ∀ word ∈ kinds, scan word (before ++ line ++ '\n' :: after) =
    scan word before ++ (if word = "DIRENT".toList then [line] else []) ++ scan word after
  name : (readName line).map encode = some n.bytes
  treated : ∀ h s, ∃ name, encode name = n.bytes ∧
    direntLine h s line = Lab3b.dirent h s parent (toInt inode) name
  self : readName line = some ".".toList ↔ n.bytes = encode ".".toList
  up : readName line = some "..".toList ↔ n.bytes = encode "..".toList

def Survives (n : FileName) : Prop :=
  ∀ (memory : ℕ → Memory) (parent : ℤ) (inode : UInt32) (recLen : UInt16) (k offset : ℕ)
    (before after : Text), LineEnd before → ∃ line,
      decode (encode before ++ entryLine memory (n.dirent parent inode recLen, k) offset ++
        encode after) = some (before ++ line ++ '\n' :: after) ∧
      ReadBack n parent inode before line after

/-- The name is a text without the characters that mean something in a report, and leaves room
for a zero in the buffer. -/
structure Unmarked (n : FileName) : Prop where
  text : ∃ name, decode n.bytes = some name ∧ ',' ∉ name ∧ '\'' ∉ name ∧ '\n' ∉ name
  short : n.bytes.length ≤ 254

lemma encode_injective : Function.Injective encode := fun s t h => by
  have hdecode := congrArg decode h
  rwa [decode_encode, decode_encode, Option.some.injEq] at hdecode

/-- A line that is written with a text for the name. -/
lemma decode_line {before after : Text} (h : file d.entry (memory k) = encode name) :
    decode (encode before ++ entryLine memory (d, k) offset ++ encode after) =
      some (before ++ lineText d offset name ++ '\n' :: after) := by
  rw [entryLine_eq h, ← encode_append, ← encode_append, decode_encode]
  simp

lemma Unmarked.survives (h : Unmarked n) : Survives n := by
  obtain ⟨⟨name, hdecode, hcomma, hquote, hnewline⟩, hshort⟩ := h
  have hname : encode name = n.bytes := encode_of_decode hdecode
  intro memory parent inode recLen k offset before after hbefore
  have hread := readName_lineText (n.dirent parent inode recLen) offset hcomma hquote
  have hnamed : ∀ t : Text, readName (lineText (n.dirent parent inode recLen) offset name) =
      some t ↔ n.bytes = encode t := fun t => by
    rw [hread, ← hname, encode_injective.eq_iff, Option.some.injEq]
  refine ⟨_, decode_line (by rw [file_of_le hshort, hname]), ?_, ?_, fun h s => ?_, hnamed _,
    hnamed _⟩
  · intro word hword
    have hne : word ≠ [] := by
      rintro rfl
      revert hword
      decide
    rw [List.append_assoc, scan_append hne hbefore,
      scan_line (newline_mem_lineText_iff.not.mpr hnewline), isPrefixOf_lineText hword,
      List.append_assoc]
    simp only [beq_iff_eq]
  · rw [hread, Option.map_some, hname]
  · exact ⟨name, hname, direntLine_lineText hcomma hquote⟩

lemma Survives.unmarked (h : Survives n) : Unmarked n := by
  -- where a name fills the buffer, something stands behind it
  obtain ⟨line, hdecode, hread⟩ := h (fun _ => ⟨[], encode ['x']⟩) 0 0 0 0 0 [] [] (Or.inl rfl)
  obtain ⟨name, hname, hbytes⟩ := Option.map_eq_some_iff.mp hread.name
  obtain ⟨hcomma, hquote⟩ := notMem_readName hname
  have hmem : line ∈ scan "DIRENT".toList ([] ++ line ++ '\n' :: []) := by
    rw [hread.scanned _ (by decide)]
    rw [if_pos rfl]
    exact List.mem_append_left _ (List.mem_append_right _ (List.mem_singleton.mpr rfl))
  have hnewline := newline_notMem_of_mem_scan hmem
  obtain ⟨rest, hrest, hfile⟩ : ∃ rest, (n.bytes.length = 255 → rest = ['x']) ∧
      (rest = [] ∨ rest = ['x']) ∧
      file (n.dirent 0 0 0).entry ⟨[], encode ['x']⟩ = encode (name ++ rest) := by
    by_cases hfull : n.bytes.length = 255
    · refine ⟨['x'], fun _ => rfl, Or.inr rfl, ?_⟩
      rw [file_of_full hfull, encode_append, hbytes]
      rfl
    · have := n.length_le
      refine ⟨[], fun h => absurd h hfull, Or.inl rfl, ?_⟩
      rw [file_of_le (by omega), List.append_nil, hbytes]
  obtain ⟨hx, hfile⟩ := hfile
  rw [decode_line hfile, Option.some.injEq, List.nil_append, List.nil_append,
    List.append_cancel_right_eq] at hdecode
  subst hdecode
  rw [newline_mem_lineText_iff, List.mem_append, not_or] at hnewline
  have hback : readName (lineText (n.dirent 0 0 0) 0 (name ++ rest)) = some (name ++ rest) := by
    refine readName_lineText _ _ ?_ ?_
    · rcases hx with rfl | rfl <;> simp [hcomma]
    · rcases hx with rfl | rfl <;> simp [hquote]
  rw [hback, Option.some.injEq, List.append_right_eq_self] at hname
  refine ⟨⟨name, by rw [← hbytes, decode_encode], hcomma, hquote, hnewline.1⟩, ?_⟩
  by_contra hlong
  have := n.length_le
  have hrest := hrest (by omega)
  rw [hname] at hrest
  cases hrest

/-- **The name of an entry survives the report** exactly if nothing in it is taken for a
separator, a quote or the end of a line, it is valid text, and it is not as long as it may be. -/
theorem survives_iff (n : FileName) : Survives n ↔ Unmarked n :=
  ⟨Survives.unmarked, Unmarked.survives⟩

/-- A name of two lines, the second of which looks like a record. -/
def twoLines : FileName where
  bytes := encode "a\nBFREE,5".toList
  length_pos := by decide +kernel
  length_le := by decide +kernel
  valid := by decide +kernel

/-- The analyser finds a free block in the name. -/
theorem twoLines_misread :
    decode (entryLine (fun _ => ⟨[], []⟩) (twoLines.dirent 2 11 20, 0) 24) =
      some "DIRENT,2,24,11,20,9,'a\nBFREE,5'\n".toList ∧
    scan "BFREE".toList "DIRENT,2,24,11,20,9,'a\nBFREE,5'\n".toList = ["BFREE,5'".toList] ∧
    scan "DIRENT".toList "DIRENT,2,24,11,20,9,'a\nBFREE,5'\n".toList =
      ["DIRENT,2,24,11,20,9,'a".toList] ∧
    readName "DIRENT,2,24,11,20,9,'a".toList = some "a".toList ∧
    ¬ Survives twoLines := by
  have hname : decode twoLines.bytes = some "a\nBFREE,5".toList := decode_encode _
  have hline : entryLine (fun _ => ⟨[], []⟩) (twoLines.dirent 2 11 20, 0) 24 =
      encode "DIRENT,2,24,11,20,9,'a\nBFREE,5'\n".toList := by decide +kernel
  refine ⟨by rw [hline, decode_encode], by decide +kernel, by decide +kernel, by decide +kernel,
    fun h => ?_⟩
  obtain ⟨name, hdecode, -, -, hnewline⟩ := h.unmarked.text
  rw [hname, Option.some.injEq] at hdecode
  subst hdecode
  exact hnewline (by decide)

end LowLevelTasks.EntryNames
