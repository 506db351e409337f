import LowLevelTasks.Tables

/-!
The texts of the messages. A message is a row of words with single spaces between them, so
that it can be taken apart again: what kind of message a text is, and which numbers it names,
can be told from the text.
-/

namespace LowLevelTasks.Messages

open LowLevelTasks.Lab3b LowLevelTasks.RubyArray LowLevelTasks.RubyText

/-! ### Words -/

def words (msg : Text) : List Text := msg.splitOn ' '

def sentence (ws : List Text) : Text := [' '].intercalate ws

lemma sentence_cons_cons (w w' : Text) (ws : List Text) :
    sentence (w :: w' :: ws) = w ++ ' ' :: sentence (w' :: ws) := by
  unfold sentence
  rw [List.intercalate_cons_cons, List.append_assoc, List.singleton_append]

lemma sentence_singleton (w : Text) : sentence [w] = w := List.intercalate_singleton

lemma sentence_append (u : List Text) (w : Text) (v : List Text) (hu : u ≠ []) :
    sentence (u ++ w :: v) = sentence u ++ ' ' :: sentence (w :: v) := by
  induction u with
  | nil => exact absurd rfl hu
  | cons w' u ih =>
    cases u with
    | nil => simp [sentence]
    | cons w'' u =>
      rw [List.cons_append, List.cons_append, sentence_cons_cons, sentence_cons_cons,
        List.append_assoc]
      exact congrArg (fun t => w' ++ ' ' :: t) (ih (by simp))

lemma words_sentence {ws : List Text} (hne : ws ≠ []) (h : ∀ w ∈ ws, ' ' ∉ w) :
    words (sentence ws) = ws := List.splitOn_intercalate _ h hne

lemma head_words {w : Text} (rest : Text) (hw : ' ' ∉ w) :
    (words (w ++ ' ' :: rest)).head? = some w := by
  unfold words
  rw [List.splitOn_append_cons_self_of_not_mem hw, List.head?_cons]

lemma space_notMem_intText (n : ℤ) : ' ' ∉ intText n :=
  notMem_intText (by decide) (by decide) n

lemma intText_injective : Function.Injective intText := fun m n h => by
  have h' := congrArg toI h
  rwa [toI_intText, toI_intText] at h'

/-! ### Messages about references -/

inductive Flag where
  | inv | res | dup
deriving DecidableEq

def Flag.symbol : Flag → Text
  | .inv => "inv".toList
  | .res => "res".toList
  | .dup => "dup".toList

def Flag.word : Flag → Text
  | .inv => "INVALID".toList
  | .res => "RESERVED".toList
  | .dup => "DUPLICATE".toList

def levelSymbol : ℕ → Text
  | 0 => []
  | 1 => "_ind".toList
  | 2 => "_doub_ind".toList
  | _ => "_trip_ind".toList

def levelWords : ℕ → List Text
  | 0 => []
  | 1 => ["INDIRECT".toList]
  | 2 => ["DOUBLE".toList, "INDIRECT".toList]
  | _ => ["TRIPPLE".toList, "INDIRECT".toList]

/-- A reference as a message describes it. The levels are those of a pointer to the block. -/
structure Description where
  level : Fin 4
  inode : ℤ
  offset : ℤ
  block : ℤ
deriving DecidableEq

def Description.text (d : Description) (κ : Flag) : Text :=
  Err.block (κ.symbol ++ levelSymbol d.level) d.block d.inode d.offset

variable {κ κ' : Flag} {d d' : Description} {level : ℕ} {inode offset block : ℤ} {s : St}

lemma indirectSym_natCast (flag : Text) (level : ℕ) : indirectSym flag level =
    if level < 4 then some (flag ++ levelSymbol level) else none := by
  unfold indirectSym fetch
  rw [position_natCast]
  match level with
  | 0 | 1 | 2 | 3 => rfl
  | level + 4 =>
    rw [if_neg (by omega), Option.bind_some, List.getElem?_eq_none (by simp), Option.map_none]

lemma blockErr_of_lt (hlevel : level < 4) : s.blockErr κ.symbol level inode offset block =
    some (s.err (Description.text ⟨⟨level, hlevel⟩, inode, offset, block⟩ κ)) := by
  unfold St.blockErr
  rw [indirectSym_natCast, if_pos hlevel]
  rfl

lemma blockErr_of_ge (hlevel : 4 ≤ level) :
    s.blockErr κ.symbol level inode offset block = none := by
  unfold St.blockErr
  rw [indirectSym_natCast, if_neg (by omega)]
  rfl

def Description.words (d : Description) (κ : Flag) : List Text :=
  (κ.word :: levelWords d.level) ++ ["BLOCK".toList, intText d.block, "IN".toList,
    "INODE".toList, intText d.inode, "AT".toList, "OFFSET".toList, intText d.offset]

lemma Description.text_eq : d.text κ = sentence (d.words κ) := by
  have hunpack : ∀ level : Fin 4, unpack (κ.symbol ++ levelSymbol level) =
      sentence (κ.word :: levelWords level) := by
    cases κ <;> decide
  unfold Description.text Err.block Description.words
  rw [hunpack, sentence_append _ _ _ (by simp)]
  simp [sentence]

lemma words_text : words (d.text κ) = d.words κ := by
  rw [d.text_eq]
  refine words_sentence (by simp [Description.words]) ?_
  have hword : ∀ level : Fin 4, ∀ w ∈ κ.word :: levelWords level, ' ' ∉ w := by
    cases κ <;> decide
  unfold Description.words
  rw [List.forall_mem_append]
  refine ⟨hword d.level, ?_⟩
  simp only [List.forall_mem_cons, space_notMem_intText, not_false_eq_true, List.not_mem_nil,
    false_implies, implies_true, and_true]
  decide

lemma head_words_text : (words (d.text κ)).head? = some κ.word := by
  rw [words_text]
  rfl

/-- **What a message says** can be read off its text. -/
theorem text_inj : d.text κ = d'.text κ' ↔ κ = κ' ∧ d = d' := by
  refine ⟨fun h => ?_, fun ⟨hκ, hd⟩ => by rw [hκ, hd]⟩
  have hwords := congrArg words h
  rw [words_text, words_text] at hwords
  have hflag : ∀ level level' : Fin 4, κ.word :: levelWords level = κ'.word :: levelWords level' →
      κ = κ' ∧ level = level' := by
    cases κ <;> cases κ' <;> decide
  obtain ⟨hhead, hrest⟩ := List.append_inj' hwords rfl
  obtain ⟨hκ, hlevel⟩ := hflag _ _ hhead
  simp only [List.cons.injEq, intText_injective.eq_iff, true_and, and_true] at hrest
  obtain ⟨hblock, hinode, hoffset⟩ := hrest
  obtain ⟨level, inode, offset, block⟩ := d
  obtain ⟨level', inode', offset', block'⟩ := d'
  simp_all

/-! ### Other messages -/

/-- A message that is a row of words is taken apart into these. -/
lemma words_eq {msg : Text} {ws : List Text} (hmsg : msg = sentence ws) (hne : ws ≠ [])
    (h : ∀ w ∈ ws, ' ' ∉ w) : words msg = ws := by
  rw [hmsg, words_sentence hne h]

lemma words_unref (b : ℤ) :
    words (Err.unref b) = ["UNREFERENCED".toList, "BLOCK".toList, intText b] := by
  have hmsg : Err.unref b = sentence (["UNREFERENCED".toList, "BLOCK".toList] ++ [intText b]) := by
    rw [sentence_append _ _ _ (by simp), sentence_singleton]
    rfl
  refine words_eq hmsg (by simp) ?_
  simp only [List.forall_mem_cons, space_notMem_intText, not_false_eq_true, List.not_mem_nil,
    false_implies, implies_true, and_true]
  decide

/-- A message about a free block or inode that is allocated. -/
lemma words_allocated {flag w : Text} (hunpack : unpack flag = "ALLOCATED".toList ++ ' ' :: w)
    (hw : ' ' ∉ w) (n : ℤ) : words (Err.free flag n) =
      ["ALLOCATED".toList, w, intText n, "ON".toList, "FREELIST".toList] := by
  refine words_eq ?_ (by simp) ?_
  · unfold Err.free
    rw [hunpack]
    simp [sentence]
  · simp only [List.forall_mem_cons, space_notMem_intText, hw, not_false_eq_true,
      List.not_mem_nil, false_implies, implies_true, and_true, true_and]
    decide

lemma words_allocatedBlock (b : ℤ) : words (Err.free "all_blk".toList b) =
    ["ALLOCATED".toList, "BLOCK".toList, intText b, "ON".toList, "FREELIST".toList] :=
  words_allocated (by decide) (by decide) b

lemma words_allocatedInode (n : ℤ) : words (Err.free "all_ino".toList n) =
    ["ALLOCATED".toList, "INODE".toList, intText n, "ON".toList, "FREELIST".toList] :=
  words_allocated (by decide) (by decide) n

lemma words_unallocatedInode (n : ℤ) : words (Err.free "unall_ino".toList n) =
    ["UNALLOCATED".toList, "INODE".toList, intText n, "NOT".toList, "ON".toList,
      "FREELIST".toList] := by
  have hunpack : unpack "unall_ino".toList = "UNALLOCATED INODE".toList := by decide
  refine words_eq ?_ (by simp) ?_
  · unfold Err.free
    rw [hunpack]
    simp [sentence]
  · simp only [List.forall_mem_cons, space_notMem_intText, not_false_eq_true, List.not_mem_nil,
      false_implies, implies_true, and_true, true_and]
    decide

lemma head_words_unallocatedInode (n : ℤ) :
    (words (Err.free "unall_ino".toList n)).head? = some "UNALLOCATED".toList := by
  rw [words_unallocatedInode, List.head?_cons]

lemma words_link (n links linkCount : ℤ) : words (Err.link n links linkCount) =
    ["INODE".toList, intText n, "HAS".toList, intText links, "LINKS".toList, "BUT".toList,
      "LINKCOUNT".toList, "IS".toList, intText linkCount] := by
  refine words_eq ?_ (by simp) ?_
  · unfold Err.link
    simp [sentence]
  · simp only [List.forall_mem_cons, space_notMem_intText, not_false_eq_true, List.not_mem_nil,
      false_implies, implies_true, and_true, true_and]
    decide

lemma head_words_link (n links linkCount : ℤ) :
    (words (Err.link n links linkCount)).head? = some "INODE".toList := by
  rw [words_link, List.head?_cons]

lemma head_words_dir (flag name : Text) (dir n : ℤ) :
    (words (Err.dir flag dir n name)).head? = some "DIRECTORY".toList := by
  have htext : "DIRECTORY INODE ".toList = "DIRECTORY".toList ++ ' ' :: "INODE ".toList := rfl
  unfold Err.dir
  rw [htext]
  simp only [List.append_assoc]
  exact head_words _ (by decide)

lemma text_ne_free (b : ℤ) : d.text κ ≠ Err.free "all_blk".toList b := fun heq => by
  have hhead := head_words_text (d := d) (κ := κ)
  rw [heq, words_allocatedBlock, List.head?_cons, Option.some.injEq] at hhead
  revert hhead
  cases κ <;> decide

lemma text_ne_unref (b : ℤ) : d.text κ ≠ Err.unref b := fun heq => by
  have hhead := head_words_text (d := d) (κ := κ)
  rw [heq, words_unref, List.head?_cons, Option.some.injEq] at hhead
  revert hhead
  cases κ <;> decide

lemma unref_injective : Function.Injective Err.unref := fun b b' h => by
  have hwords := congrArg words h
  rw [words_unref, words_unref] at hwords
  simpa [intText_injective.eq_iff] using hwords

lemma allocatedBlock_injective : Function.Injective (Err.free "all_blk".toList) := fun b b' h => by
  have hwords := congrArg words h
  rw [words_allocatedBlock, words_allocatedBlock] at hwords
  simpa [intText_injective.eq_iff] using hwords

lemma allocatedInode_injective : Function.Injective (Err.free "all_ino".toList) := fun n n' h => by
  have hwords := congrArg words h
  rw [words_allocatedInode, words_allocatedInode] at hwords
  simpa [intText_injective.eq_iff] using hwords

lemma unallocatedInode_injective :
    Function.Injective (Err.free "unall_ino".toList) := fun n n' h => by
  have hwords := congrArg words h
  rw [words_unallocatedInode, words_unallocatedInode] at hwords
  simpa [intText_injective.eq_iff] using hwords

lemma link_inj {n n' links links' linkCount linkCount' : ℤ} :
    Err.link n links linkCount = Err.link n' links' linkCount' ↔
      n = n' ∧ links = links' ∧ linkCount = linkCount' := by
  refine ⟨fun h => ?_, fun ⟨hn, hlinks, hcount⟩ => by rw [hn, hlinks, hcount]⟩
  have hwords := congrArg words h
  rw [words_link, words_link] at hwords
  simpa [intText_injective.eq_iff] using hwords

/-! ### Messages about parents -/

/-- The name in a message about a parent. -/
def dots (flag : Text) : Text := if flag = "self".toList then ".".toList else "..".toList

lemma words_parent (flag : Text) (dir n parent : ℤ) : words (Err.parent flag dir n parent) =
    ["DIRECTORY".toList, "INODE".toList, intText dir, "NAME".toList, '\'' :: dots flag ++ ['\''],
      "LINK".toList, "TO".toList, "INODE".toList, intText n, "SHOULD".toList, "BE".toList,
      intText parent] := by
  refine words_eq ?_ (by simp) ?_
  · unfold Err.parent dots
    simp [sentence]
  · have hdots : ' ' ∉ '\'' :: dots flag ++ ['\''] := by
      unfold dots
      split <;> decide
    simp only [List.forall_mem_cons, space_notMem_intText, hdots, not_false_eq_true,
      List.not_mem_nil, false_implies, implies_true, and_true, true_and]
    decide

lemma head_words_parent (flag : Text) (dir n parent : ℤ) :
    (words (Err.parent flag dir n parent)).head? = some "DIRECTORY".toList := by
  rw [words_parent, List.head?_cons]

lemma parent_inj {flag : Text} {dir dir' n n' parent parent' : ℤ} :
    Err.parent flag dir n parent = Err.parent flag dir' n' parent' ↔
      dir = dir' ∧ n = n' ∧ parent = parent' := by
  refine ⟨fun h => ?_, fun ⟨hdir, hn, hparent⟩ => by rw [hdir, hn, hparent]⟩
  have hwords := congrArg words h
  rw [words_parent, words_parent] at hwords
  simpa [intText_injective.eq_iff] using hwords

lemma self_ne_parent {dir dir' n n' parent parent' : ℤ} :
    Err.parent "self".toList dir n parent ≠ Err.parent "parent".toList dir' n' parent' :=
  fun h => by
    have hwords := congrArg words h
    rw [words_parent, words_parent] at hwords
    simp only [List.cons.injEq] at hwords
    exact absurd hwords.2.2.2.2.1 (by decide)

/-! ### Messages about entries -/

/-- The three parts of a message with a name in quotes. -/
lemma quoted_inj {u v s t name name' : Text} (hu : '\'' ∉ u) (hv : '\'' ∉ v)
    (hs : '\'' ∉ s) (ht : '\'' ∉ t) (hname : '\'' ∉ name)
    (h : u ++ '\'' :: (name ++ '\'' :: s) = v ++ '\'' :: (name' ++ '\'' :: t)) :
    u = v ∧ name = name' ∧ s = t := by
  have hname' : '\'' ∉ name' := by
    have hcount := congrArg (List.count '\'') h
    simp only [List.count_append, List.count_cons_self, List.count_eq_zero_of_not_mem hu,
      List.count_eq_zero_of_not_mem hv, List.count_eq_zero_of_not_mem hs,
      List.count_eq_zero_of_not_mem ht, List.count_eq_zero_of_not_mem hname] at hcount
    exact List.count_eq_zero.mp (by omega)
  have hsplit := congrArg (List.splitOn '\'') h
  rw [List.splitOn_append_cons_self_of_not_mem hu, List.splitOn_append_cons_self_of_not_mem hv,
    List.splitOn_append_cons_self_of_not_mem hname,
    List.splitOn_append_cons_self_of_not_mem hname', List.cons.injEq, List.cons.injEq] at hsplit
  refine ⟨hsplit.1, hsplit.2.1, ?_⟩
  calc s = ['\''].intercalate (s.splitOn '\'') := (List.intercalate_splitOn _).symm
    _ = ['\''].intercalate (t.splitOn '\'') := by rw [hsplit.2.2]
    _ = t := List.intercalate_splitOn _

lemma quote_notMem_intText (n : ℤ) : '\'' ∉ intText n :=
  notMem_intText (by decide) (by decide) n

lemma unpack_unall : unpack "unall".toList = "UNALLOCATED".toList := by decide

lemma unpack_inv : unpack "inv".toList = "INVALID".toList := by decide

/-- What is wrong with the inode of an entry. -/
def dirFlag (unallocated : Bool) : Text := if unallocated then "unall".toList else "inv".toList

/-- What stands before the name, and what stands behind it. -/
def beforeName (dir : ℤ) : Text := "DIRECTORY INODE ".toList ++ (intText dir ++ " NAME ".toList)

def behindName (flag : Text) (n : ℤ) : Text :=
  ' ' :: unpack flag ++ (" INODE ".toList ++ intText n)

lemma quote_notMem_beforeName (dir : ℤ) : '\'' ∉ beforeName dir := by
  have hdir := quote_notMem_intText dir
  unfold beforeName
  simp [hdir]

lemma beforeName_injective : Function.Injective beforeName := fun _ _ h =>
  intText_injective (List.append_cancel_right (List.append_cancel_left h))

lemma quote_notMem_behindName (unallocated : Bool) (n : ℤ) :
    '\'' ∉ behindName (dirFlag unallocated) n := by
  have hn := quote_notMem_intText n
  unfold behindName dirFlag
  cases unallocated
  · rw [if_neg (by simp), unpack_inv]
    simp [hn]
  · rw [if_pos rfl, unpack_unall]
    simp [hn]

lemma behindName_inj {b b' : Bool} {n n' : ℤ} :
    behindName (dirFlag b) n = behindName (dirFlag b') n' ↔ b = b' ∧ n = n' := by
  refine ⟨fun h => ?_, fun ⟨hb, hn⟩ => by rw [hb, hn]⟩
  unfold behindName dirFlag at h
  cases b <;> cases b' <;> simp only [Bool.false_eq_true, if_false, if_true, unpack_inv,
    unpack_unall, List.cons_append, List.cons.injEq, true_and] at h
  · exact ⟨rfl, intText_injective (List.append_cancel_left (List.append_cancel_left h))⟩
  · simp at h
  · simp at h
  · exact ⟨rfl, intText_injective (List.append_cancel_left (List.append_cancel_left h))⟩

lemma dir_eq (flag name : Text) (dir n : ℤ) : Err.dir flag dir n name =
    beforeName dir ++ '\'' :: (name ++ '\'' :: behindName flag n) := by
  unfold Err.dir beforeName behindName
  simp

/-- A name without quotes is told apart from what stands around it. -/
lemma dir_inj {b b' : Bool} {name name' : Text} (hname : '\'' ∉ name) {dir dir' n n' : ℤ} :
    Err.dir (dirFlag b) dir n name = Err.dir (dirFlag b') dir' n' name' ↔
      b = b' ∧ dir = dir' ∧ n = n' ∧ name = name' := by
  refine ⟨fun h => ?_, fun ⟨hb, hdir, hn, hname⟩ => by rw [hb, hdir, hn, hname]⟩
  rw [dir_eq, dir_eq] at h
  obtain ⟨hbefore, hname', hbehind⟩ := quoted_inj (quote_notMem_beforeName dir)
    (quote_notMem_beforeName dir') (quote_notMem_behindName b n) (quote_notMem_behindName b' n')
    hname h
  obtain ⟨hb, hn⟩ := behindName_inj.mp hbehind
  exact ⟨hb, beforeName_injective hbefore, hn, hname'⟩

lemma dir_ne_parent (b : Bool) (flag name : Text) (dir dir' n n' parent : ℤ) :
    Err.dir (dirFlag b) dir n name ≠ Err.parent flag dir' n' parent := fun h => by
  have hparent : Err.parent flag dir' n' parent = beforeName dir' ++ '\'' :: (dots flag ++
      '\'' :: (" LINK TO INODE ".toList ++ intText n' ++ " SHOULD BE ".toList ++
        intText parent)) := by
    unfold Err.parent beforeName dots
    simp
  have hdots : '\'' ∉ dots flag := by
    unfold dots
    split <;> decide
  have htail : '\'' ∉ " LINK TO INODE ".toList ++ intText n' ++ " SHOULD BE ".toList ++
      intText parent := by
    have hn := quote_notMem_intText n'
    have hp := quote_notMem_intText parent
    simp [hn, hp]
  rw [dir_eq, hparent] at h
  obtain ⟨-, -, hrest⟩ := quoted_inj (quote_notMem_beforeName dir') (quote_notMem_beforeName dir)
    htail (quote_notMem_behindName b n) hdots h.symm
  unfold behindName dirFlag at hrest
  cases b
  · rw [if_neg (by simp), unpack_inv] at hrest
    simp at hrest
  · rw [if_pos rfl, unpack_unall] at hrest
    simp at hrest

end LowLevelTasks.Messages
