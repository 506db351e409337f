import LowLevelTasks.LineRuns

/-!
What is printed about blocks. Some reports make the analyser raise an exception, after which
nothing is printed; which ones is known from their records. For all others each message about
a block is there for a reason that stands in the report.
-/

namespace LowLevelTasks.BlockReports

open LowLevelTasks.BlockCells LowLevelTasks.Folds LowLevelTasks.InodeCells LowLevelTasks.Lab3b
open LowLevelTasks.LineRuns LowLevelTasks.Messages LowLevelTasks.Passes
open LowLevelTasks.ReferencePass LowLevelTasks.Reports LowLevelTasks.RubyArray
open LowLevelTasks.RubyText LowLevelTasks.Tables

variable {r : LineReport} {h : Header} {s s' : St} {m : Text}

/-! ### The indirect references -/

/-- What is said about the reference of an indirect block, behind these references. -/
def PointerSays (h : Header) (refs : List Ref) (x : Ref) (m : Text) : Prop :=
  ∃ κ, indirectFault h refs x = some κ ∧ m = x.text κ

/-- Something is wrong with the reference, and the level of its block has no name. -/
def Unnamed (h : Header) (refs : List Ref) (x : Ref) : Prop :=
  indirectFault h refs x ≠ none ∧ 4 ≤ x.level

variable {blocks : ℕ}

/-- **One indirect line.** -/
theorem indirectRecord_spec {bfrees : List ℕ} {refs : List Ref} {x : IndirectRecord}
    (hs : Holds blocks bfrees refs s.blockHash) :
    (Unnamed h refs (indirectRef x) → indirectRecord h s x = none) ∧
      (¬ Unnamed h refs (indirectRef x) → ∃ s', indirectRecord h s x = some s' ∧
        Holds blocks bfrees (refs ++ [indirectRef x]) s'.blockHash ∧
        s'.inodeHash = s.inodeHash ∧
        ∀ m, m ∈ s'.errList ↔ m ∈ s.errList ∨ PointerSays h refs (indirectRef x) m) := by
  obtain ⟨hnone, hsome⟩ := indirect_spec (h := h) (x := indirectRef x) hs rfl
  constructor
  · rintro ⟨hfault, hlevel⟩
    obtain ⟨κ, hκ⟩ := Option.ne_none_iff_exists'.mp hfault
    exact hnone κ hκ hlevel
  · intro hnamed
    refine hsome fun κ hκ => ?_
    by_contra hlevel
    exact hnamed ⟨by simp [hκ], not_lt.mp hlevel⟩

/-- **The indirect lines.** -/
theorem indirectRecords_spec (hs : Holds blocks r.bfrees r.slots s.blockHash) :
    (Somewhere (fun u x => Unnamed h (r.slots ++ u) x) r.pointers →
      r.indirects.foldlM (indirectRecord h) s = none) ∧
    (¬ Somewhere (fun u x => Unnamed h (r.slots ++ u) x) r.pointers →
      ∃ s', r.indirects.foldlM (indirectRecord h) s = some s' ∧
        Holds blocks r.bfrees r.refs s'.blockHash ∧ s'.inodeHash = s.inodeHash ∧
        ∀ m, m ∈ s'.errList ↔ m ∈ s.errList ∨
          Somewhere (fun u x => PointerSays h (r.slots ++ u) x m) r.pointers) := by
  unfold LineReport.refs LineReport.pointers
  simp only [somewhere_map]
  refine foldlM_rounds (p := fun u (s' : St) =>
    Holds blocks r.bfrees (r.slots ++ u.map indirectRef) s'.blockHash ∧
      s'.inodeHash = s.inodeHash ∧ ∀ m, m ∈ s'.errList ↔ m ∈ s.errList ∨
        Somewhere (fun u x => PointerSays h (r.slots ++ u.map indirectRef) (indirectRef x) m) u)
    ?_ ⟨by simpa using hs, rfl, fun m => by simp⟩
  rintro u x v s₁ - ⟨hs₁, hinodes, hsaid⟩
  obtain ⟨hnone, hsome⟩ := indirectRecord_spec (h := h) (x := x) hs₁
  refine ⟨hnone, fun hnamed => ?_⟩
  obtain ⟨s', hs', hholds, hinodes', hsaid'⟩ := hsome hnamed
  rw [List.map_append, List.map_singleton, ← List.append_assoc]
  refine ⟨s', hs', hholds, hinodes'.trans hinodes, fun m => ?_⟩
  rw [hsaid', hsaid, somewhere_concat, or_assoc]

/-! ### The final reports -/

lemma mem_finalBlocks (vals : List (Option BlockCell × ℕ)) (s : St) :
    m ∈ (vals.foldl (finalBlock h) s).errList ↔ m ∈ s.errList ∨
      ∃ val ∈ vals, (h.reservedBlocks < val.2 ∧ val.1 = some .unreferenced) ∧
        m = Err.unref val.2 := by
  induction vals generalizing s with
  | nil => simp
  | cons val vals ih =>
    have hstep : m ∈ (finalBlock h s val).errList ↔ m ∈ s.errList ∨
        (h.reservedBlocks < val.2 ∧ val.1 = some .unreferenced) ∧ m = Err.unref val.2 := by
      unfold finalBlock
      split
      · next hc => simp [mem_err, hc]
      · next hc => simp [hc]
    rw [List.foldl_cons, ih, hstep, or_assoc]
    simp

lemma mem_err_of_head {msg w : Text} (hmsg : (words msg).head? = some w)
    (hm : (words m).head? ≠ some w) : m ∈ (s.err msg).errList ↔ m ∈ s.errList := by
  rw [mem_err]
  exact or_iff_left fun heq => hm (heq ▸ hmsg)

lemma said_finalInode (hm : ∀ w ∈ ["INODE".toList, "UNALLOCATED".toList],
    (words m).head? ≠ some w) (s : St) (val : Option InodeCell × ℕ) :
    m ∈ (finalInode h s val).errList ↔ m ∈ s.errList := by
  have hfirst : ∀ (c : Prop) [Decidable c], m ∈ (if c then
      s.err (Err.free "unall_ino".toList val.2) else s).errList ↔ m ∈ s.errList := by
    intro c _
    split
    · exact mem_err_of_head (head_words_unallocatedInode _) (hm _ (by simp))
    · rfl
  unfold finalInode
  dsimp only
  split
  · split
    · rw [mem_err_of_head (head_words_link _ _ _) (hm _ (by simp)), hfirst]
    · exact hfirst _
  · exact hfirst _

lemma said_finalInodes (hm : ∀ w ∈ ["INODE".toList, "UNALLOCATED".toList],
    (words m).head? ≠ some w) (s : St) : m ∈ (finalReports h s).errList ↔
      m ∈ (s.blockHash.zipIdx.foldl (finalBlock h) s).errList := by
  unfold finalReports
  exact foldl_keeps (p := fun s' => m ∈ s'.errList ↔
    m ∈ (s.blockHash.zipIdx.foldl (finalBlock h) s).errList)
    (fun val _ s' hs' => (said_finalInode hm s' val).trans hs') Iff.rfl

lemma exists_mem_zipIdx {α : Type} (xs : List (Option α)) (p : α → ℕ → Prop) :
    (∃ val ∈ xs.zipIdx, ∃ c, val.1 = some c ∧ p c val.2) ↔
      ∃ n : ℕ, ∃ c, get xs n = some c ∧ p c n := by
  constructor
  · rintro ⟨val, hval, c, hc, hp⟩
    exact ⟨val.2, c, by rw [get_of_mem_zipIdx hval, hc], hp⟩
  · rintro ⟨n, c, hget, hp⟩
    rw [get_natCast, Option.join_eq_some_iff] at hget
    exact ⟨(some c, n), List.mem_zipIdx_iff_getElem?.mpr hget, c, rfl, hp⟩

/-- Nothing is known of the block. -/
structure Unreferenced (r : LineReport) (h : Header) (b : ℕ) : Prop where
  above : h.reservedBlocks < b
  below : (b : ℤ) < h.blocks
  used : b ∉ r.bfrees
  unreferenced : ∀ x ∈ r.refs, x.block ≠ b

lemma cell_unreferenced_iff (hs : Holds blocks r.bfrees r.refs s.blockHash)
    (hblocks : h.blocks = blocks) (b : ℕ) :
    get s.blockHash b = some .unreferenced ∧ h.reservedBlocks < b ↔ Unreferenced r h b := by
  rw [hs b]
  constructor
  · rintro ⟨hcell, habove⟩
    cases hlast : lastTo r.refs b with
    | some x =>
      rw [cellOf_of_some hlast] at hcell
      cases hcell
    | none =>
      rw [cellOf_of_none hlast] at hcell
      split_ifs at hcell with hfree hlt
      · cases hcell
      · exact ⟨habove, by omega, hfree, lastTo_eq_none_iff.mp hlast⟩
  · rintro ⟨habove, hbelow, hused, hunref⟩
    rw [cellOf_of_none (lastTo_eq_none_iff.mpr hunref), if_neg hused, if_pos (by omega)]
    exact ⟨rfl, habove⟩

/-- **The final reports** about blocks. -/
theorem mem_finalReports (hs : Holds blocks r.bfrees r.refs s.blockHash)
    (hblocks : h.blocks = blocks) (hm : OfBlocks m) :
    m ∈ (finalReports h s).errList ↔ m ∈ s.errList ∨
      ∃ b, Unreferenced r h b ∧ m = Err.unref (b : ℕ) := by
  rw [said_finalInodes fun w hw hhead => not_ofBlocks hhead (by simp_all) hm, mem_finalBlocks]
  refine or_congr_right ?_
  have hzip := exists_mem_zipIdx s.blockHash fun c b =>
    (c = .unreferenced ∧ h.reservedBlocks < b) ∧ m = Err.unref b
  constructor
  · rintro ⟨val, hval, ⟨habove, hcell⟩, hmsg⟩
    obtain ⟨b, c, hget, ⟨rfl, habove⟩, hmsg⟩ :=
      hzip.mp ⟨val, hval, _, hcell, ⟨rfl, habove⟩, hmsg⟩
    exact ⟨b, (cell_unreferenced_iff hs hblocks b).mp ⟨hget, habove⟩, hmsg⟩
  · rintro ⟨b, hb, hmsg⟩
    obtain ⟨hget, habove⟩ := (cell_unreferenced_iff hs hblocks b).mpr hb
    obtain ⟨val, hval, c, hcell, ⟨rfl, habove⟩, hmsg⟩ :=
      hzip.mpr ⟨b, _, hget, ⟨rfl, habove⟩, hmsg⟩
    exact ⟨val, hval, ⟨habove, hcell⟩, hmsg⟩

/-! ### Whole runs -/

/-- The analyser comes to the end of the report. -/
structure Completes (r : LineReport) (h : Header) : Prop where
  root : 2 ∈ r.numbers
  entries : ¬ ∃ e ∈ r.dirents, Stray h.inodes r.numbers e
  levels : ¬ Somewhere (fun u x => Unnamed h (r.slots ++ u) x) r.pointers

/-- There is a reason in the report for this message about a block. -/
def Said (r : LineReport) (h : Header) (m : Text) : Prop :=
  Somewhere (fun u x => SlotSays h r.bfrees u x m) r.slots ∨
    Somewhere (fun u x => PointerSays h (r.slots ++ u) x m) r.pointers ∨
    ∃ b, Unreferenced r h b ∧ m = Err.unref (b : ℕ)

/-- The passes from the root directory on. -/
def passesFrom (r : LineReport) (h : Header) (s : St) : Option (List Text) := do
  let s ← s.setParent 2 2
  let s ← (sortLines r.dirents).foldlM (direntRead h) s
  let s ← r.indirects.foldlM (indirectRecord h) s
  some (finalReports h s).errList

/-- The root directory and the pass over the entries. -/
def entriesFrom (r : LineReport) (h : Header) (s : St) : Option (Header × St) := do
  let s ← s.setParent 2 2
  let s ← (sortLines r.dirents).foldlM (direntRead h) s
  some (h, s)

/-- What the passes up to the root directory leave. -/
structure InodesRead (r : LineReport) (h : Header) (blocks inodes : ℕ) (s : St) : Prop where
  blocks_eq : h.blocks = blocks
  inodes_eq : h.inodes = inodes
  holds : Holds blocks r.bfrees r.slots s.blockHash
  numbered : Numbered inodes r.numbers s
  parents : Parents r.numbers (fun _ => 0) s
  said : ∀ m, ¬ OfFreeInode m → (m ∈ s.errList ↔
    Somewhere (fun u x => SlotSays h r.bfrees u x m) r.slots)

/-- What they leave of the inodes. -/
structure InodesKnown (r : LineReport) (h : Header) (inodes : ℕ) (s : St) : Prop where
  known : Known inodes r.ifrees r.inodes [] s
  said : ∀ m, m ∈ s.errList ↔ FreeScanned r.ifrees r.inodes m ∨
    Somewhere (fun u x => SlotSays h r.bfrees u x m) r.slots

/-- The passes up to the root directory. -/
lemma inodePasses_spec (hh : r.header? = some h) : ∃ blocks inodes s,
    analysis r.text = passesFrom r h s ∧ entriesRead r.text = entriesFrom r h s ∧
      InodesRead r h blocks inodes s ∧ InodesKnown r h inodes s := by
  obtain ⟨sb, g, hheader, hblocks, hinodes, hrun, hentries⟩ := exists_of_header? hh
  obtain ⟨s₁, s₂, hs₁, hs₂, hb, hi, herr⟩ := freeLists_spec sb r.bfrees r.ifrees
  obtain ⟨s, hs, hholds, hk, hparents, hsaid⟩ :=
    inodeRecords_spec (h := h) (holds_of_blocks hb) (known_of_inodes hi) herr
  unfold LineReport.bfrees at hs₁
  unfold LineReport.ifrees at hs₂
  unfold LineReport.inodes at hs
  refine ⟨sb.blocks, sb.inodes, s, ?_, ?_, ⟨hblocks, hinodes, hholds, numbered_of_known hk,
    hparents, fun m hm => ?_⟩, hk, hsaid⟩
  · rw [hrun]
    unfold linesAnalysis passesFrom
    simp only [hheader, hs₁, hs₂, hs, Option.bind_eq_bind, Option.bind_some]
    rfl
  · rw [hentries]
    unfold linesRead entriesFrom
    simp only [hheader, hs₁, hs₂, hs, Option.bind_eq_bind, Option.bind_some]
    rfl
  · rw [hsaid]
    exact or_iff_right fun hfree => hm hfree.ofFreeInode

/-- The states of a run that comes to its end: behind the lines of the inodes, with the root
directory, behind the entries, and behind the indirect references. -/
structure Run (r : LineReport) (h : Header) (blocks inodes : ℕ) (s₁ s₂ s₃ s₄ : St) : Prop where
  read : InodesRead r h blocks inodes s₁
  known : InodesKnown r h inodes s₁
  root : s₁.setParent 2 2 = some s₂
  entries : (sortLines r.dirents).foldlM (direntRead h) s₂ = some s₃
  aside : Aside inodes r.numbers s₂ s₃
  inodeHash : s₄.inodeHash = s₃.inodeHash
  holds : Holds blocks r.bfrees r.refs s₄.blockHash
  said : ∀ m, m ∈ s₄.errList ↔ m ∈ s₃.errList ∨
    Somewhere (fun u x => PointerSays h (r.slots ++ u) x m) r.pointers
  out : analysis r.text = some (finalReports h s₄).errList

/-- Only the cell of the root directory has changed. -/
lemma Run.rooted {blocks inodes : ℕ} {s₁ s₂ s₃ s₄ : St}
    (hrun : Run r h blocks inodes s₁ s₂ s₃ s₄) :
    Quiet s₁ s₂ ∧ s₂.blockHash = s₁.blockHash ∧ s₂.errList = s₁.errList := by
  have hroot : s₁.setParent ((2 : ℕ) : ℤ) 2 = some s₂ := hrun.root
  obtain ⟨entry, -, hput⟩ := Option.bind_eq_some_iff.mp hroot
  obtain ⟨_, -, rfl⟩ := Option.map_eq_some_iff.mp hput
  exact ⟨quiet_setParent hroot, rfl, rfl⟩

/-- **The analyser comes to an end** or not. -/
theorem run_or_none (hh : r.header? = some h) :
    (¬ Completes r h → analysis r.text = none) ∧
      (Completes r h → ∃ blocks inodes s₁ s₂ s₃ s₄, Run r h blocks inodes s₁ s₂ s₃ s₄) := by
  obtain ⟨blocks, inodes, s₁, hrun, -, hread, hknown⟩ := inodePasses_spec hh
  rw [hrun]
  unfold passesFrom
  by_cases hroot : 2 ∈ r.numbers
  swap
  · have hnone : s₁.setParent 2 2 = none := hread.numbered.setParent_none hroot 2
    rw [hnone]
    exact ⟨fun _ => rfl, fun hc => absurd hc.root hroot⟩
  obtain ⟨s₂, hs₂, hn₂, hblocks₂, -⟩ := hread.numbered.setParent hroot 2
  have hs₂' : s₁.setParent 2 2 = some s₂ := hs₂
  rw [hs₂', Option.bind_eq_bind, Option.bind_some]
  obtain ⟨hnone, hsome⟩ := direntReads_spec (r := r) hn₂ hread.inodes_eq
  by_cases hentries : ∃ e ∈ r.dirents, Stray h.inodes r.numbers e
  · rw [hnone hentries]
    exact ⟨fun _ => rfl, fun hc => absurd hentries hc.entries⟩
  obtain ⟨s₃, hs₃, haside⟩ := hsome hentries
  rw [hs₃, Option.bind_some]
  obtain ⟨hnone, hsome⟩ := indirectRecords_spec (r := r) (h := h)
    (haside.blocks.trans hblocks₂ ▸ hread.holds)
  by_cases hlevels : Somewhere (fun u x => Unnamed h (r.slots ++ u) x) r.pointers
  · rw [hnone hlevels]
    exact ⟨fun _ => rfl, fun hc => absurd hlevels hc.levels⟩
  obtain ⟨s₄, hs₄, hholds, hinodes, hsaid⟩ := hsome hlevels
  refine ⟨fun hc => absurd ⟨hroot, hentries, hlevels⟩ hc, fun _ =>
    ⟨blocks, inodes, s₁, s₂, s₃, s₄, hread, hknown, hs₂', hs₃, haside, hinodes, hholds, hsaid, ?_⟩⟩
  rw [hrun]
  unfold passesFrom
  simp only [hs₂', hs₃, hs₄, Option.bind_eq_bind, Option.bind_some]

/-- **Whole runs**: the analyser comes to an end or not, and if it does, the messages about
blocks are those there is a reason for. -/
theorem analysis_spec (hh : r.header? = some h) :
    (¬ Completes r h → analysis r.text = none) ∧
      (Completes r h → ∃ out, analysis r.text = some out ∧
        ∀ m, OfBlocks m → (m ∈ out ↔ Said r h m)) := by
  obtain ⟨hnone, hsome⟩ := run_or_none hh
  refine ⟨hnone, fun hc => ?_⟩
  obtain ⟨blocks, inodes, s₁, s₂, s₃, s₄, hrun⟩ := hsome hc
  refine ⟨_, hrun.out, fun m hm => ?_⟩
  obtain ⟨-, -, herr₂⟩ := hrun.rooted
  rw [mem_finalReports hrun.holds hrun.read.blocks_eq hm, hrun.said, hrun.aside.said m hm, herr₂,
    hrun.read.said m hm.not_ofFreeInode, or_assoc]
  rfl

/-! ### Messages about references -/

def slotsTo (r : LineReport) (b : ℕ) : List Ref := r.slots.filter (·.block = b)

def pointersTo (r : LineReport) (b : ℕ) : List Ref := r.pointers.filter (·.block = b)

/-- The references for which there is a reason to print a message. -/
def Reported (r : LineReport) (h : Header) (κ : Flag) (x : Ref) : Prop :=
  (x ∈ r.slots ∧ (SlotOutside h x κ ∨ κ = .dup ∧ 2 ≤ (slotsTo r x.block).length)) ∨
    Somewhere (fun u y => y = x ∧ indirectFault h (r.slots ++ u) y = some κ) r.pointers

def description (x : Ref) : Description :=
  ⟨⟨min x.level 3, by omega⟩, x.inode, x.offset, x.block⟩

variable {κ : Flag} {d : Description} {x : Ref} {refs : List Ref} {b : ℕ}

lemma text_description : (description x).text κ = x.text κ := by
  have hsymbol : levelSymbol (min x.level 3) = levelSymbol x.level := by
    match x.level with
    | 0 | 1 | 2 => rfl
    | level + 3 => rw [min_eq_right (by omega)]; rfl
  unfold Description.text Ref.text description
  rw [← hsymbol]

lemma ofBlocks_text : OfBlocks (x.text κ) := by
  rw [← text_description]
  exact Or.inl ⟨κ, head_words_text⟩

lemma ofBlocks_of_slotSays {bfrees : List ℕ} (hm : SlotSays h bfrees refs x m) : OfBlocks m := by
  rcases hm with ⟨κ, -, heq⟩ | ⟨-, -, heq⟩ | ⟨y, -, heq | heq⟩
  · exact heq ▸ ofBlocks_text
  · exact Or.inr (Or.inr ⟨_, heq⟩)
  · exact heq ▸ ofBlocks_text
  · exact heq ▸ ofBlocks_text

lemma ofBlocks_of_pointerSays (hm : PointerSays h refs x m) : OfBlocks m := by
  obtain ⟨κ, -, heq⟩ := hm
  exact heq ▸ ofBlocks_text

lemma text_eq_iff {κ' : Flag} : d.text κ = x.text κ' ↔ κ = κ' ∧ description x = d := by
  rw [← text_description, text_inj, eq_comm (a := d)]

lemma block_of_description (hx : description x = d) : x.block = d.block.toNat := by
  rw [← hx]
  rfl

/-- A block with two references: both are known when the second one is read. -/
lemma somewhere_dup {q : Ref → Prop} (hq : ∀ x, q x → x.block = b) :
    Somewhere (fun u x => ∃ y, lastTo u x.block = some y ∧ (q x ∨ q y)) refs ↔
      2 ≤ (refs.filter (·.block = b)).length ∧ ∃ x ∈ refs, q x := by
  have hmem : (∃ x ∈ refs, q x) ↔ ∃ x ∈ refs.filter (·.block = b), q x := by
    constructor
    · rintro ⟨x, hx, hqx⟩
      exact ⟨x, List.mem_filter.mpr ⟨hx, by simp [hq x hqx]⟩, hqx⟩
    · rintro ⟨x, hx, hqx⟩
      exact ⟨x, (List.mem_filter.mp hx).1, hqx⟩
  rw [hmem, ← somewhere_pairs, somewhere_filter]
  refine somewhere_congr fun u x v _ => ?_
  simp only [decide_eq_true_eq]
  constructor
  · rintro ⟨y, hy, hqxy⟩
    have hblock : x.block = b :=
      hqxy.elim (hq x) fun hqy => (mem_of_lastTo hy).2.symm.trans (hq y hqy)
    exact ⟨hblock, y, hblock ▸ hy, hqxy⟩
  · rintro ⟨hblock, y, hy, hqxy⟩
    exact ⟨y, hblock ▸ hy, hqxy⟩

lemma slotSays_text {bfrees : List ℕ} : SlotSays h bfrees refs x (d.text κ) ↔
    (SlotOutside h x κ ∧ description x = d) ∨
      κ = .dup ∧ ∃ y, lastTo refs x.block = some y ∧ (description x = d ∨ description y = d) := by
  unfold SlotSays
  simp only [text_eq_iff, text_ne_free, and_false, false_or]
  refine or_congr ⟨?_, ?_⟩ ⟨?_, ?_⟩
  · rintro ⟨κ', hout, rfl, hd⟩
    exact ⟨hout, hd⟩
  · rintro ⟨hout, hd⟩
    exact ⟨κ, hout, rfl, hd⟩
  · rintro ⟨y, hy, ⟨hκ, hd⟩ | ⟨hκ, hd⟩⟩
    · exact ⟨hκ, y, hy, Or.inl hd⟩
    · exact ⟨hκ, y, hy, Or.inr hd⟩
  · rintro ⟨hκ, y, hy, hd | hd⟩
    · exact ⟨y, hy, Or.inl ⟨hκ, hd⟩⟩
    · exact ⟨y, hy, Or.inr ⟨hκ, hd⟩⟩

lemma pointerSays_text : PointerSays h refs x (d.text κ) ↔
    indirectFault h refs x = some κ ∧ description x = d := by
  unfold PointerSays
  simp only [text_eq_iff]
  constructor
  · rintro ⟨κ', hfault, rfl, hd⟩
    exact ⟨hfault, hd⟩
  · rintro ⟨hfault, hd⟩
    exact ⟨κ, hfault, rfl, hd⟩

/-- The messages about references, and the references they are about. -/
theorem said_text : Said r h (d.text κ) ↔ ∃ x, Reported r h κ x ∧ description x = d := by
  have hslots : Somewhere (fun u x => SlotSays h r.bfrees u x (d.text κ)) r.slots ↔
      ∃ x ∈ r.slots, (SlotOutside h x κ ∨ κ = .dup ∧ 2 ≤ (slotsTo r x.block).length) ∧
        description x = d := by
    simp only [slotSays_text]
    rw [somewhere_or, somewhere_const]
    constructor
    · rintro (⟨x, hx, hout, hd⟩ | ⟨u, x, v, heq, hκ, hdup⟩)
      · exact ⟨x, hx, Or.inl hout, hd⟩
      · obtain ⟨hlength, y, hy, hd⟩ :=
          (somewhere_dup fun x => block_of_description).mp ⟨u, x, v, heq, hdup⟩
        exact ⟨y, hy, Or.inr ⟨hκ, by rwa [block_of_description hd]⟩, hd⟩
    · rintro ⟨x, hx, hout | ⟨hκ, hlength⟩, hd⟩
      · exact Or.inl ⟨x, hx, hout, hd⟩
      · rw [block_of_description hd] at hlength
        obtain ⟨u, y, v, heq, hdup⟩ :=
          (somewhere_dup fun x => block_of_description).mpr ⟨hlength, x, hx, hd⟩
        exact Or.inr ⟨u, y, v, heq, hκ, hdup⟩
  unfold Said
  simp only [hslots, pointerSays_text, text_ne_unref, and_false, exists_false, or_false]
  constructor
  · rintro (⟨x, hx, hout, hd⟩ | ⟨u, x, v, heq, hfault, hd⟩)
    · exact ⟨x, Or.inl ⟨hx, hout⟩, hd⟩
    · exact ⟨x, Or.inr ⟨u, x, v, heq, rfl, hfault⟩, hd⟩
  · rintro ⟨x, ⟨hx, hout⟩ | ⟨u, y, v, heq, rfl, hfault⟩, hd⟩
    · exact Or.inl ⟨x, hx, hout, hd⟩
    · exact Or.inr ⟨u, y, v, heq, hfault, hd⟩

/-! ### What is printed -/

def printed (r : LineReport) : List Text := (lab3b r.text).printed

/-- **Messages about blocks** are printed if the analyser comes to an end and there is a reason
in the report. -/
theorem mem_printed (hh : r.header? = some h) (hm : OfBlocks m) :
    m ∈ printed r ↔ Completes r h ∧ Said r h m := by
  obtain ⟨hnone, hsome⟩ := analysis_spec hh
  unfold printed lab3b
  by_cases hc : Completes r h
  · obtain ⟨out, hout, hsaid⟩ := hsome hc
    rw [hout]
    exact (hsaid m hm).trans (and_iff_right hc).symm
  · rw [hnone hc]
    exact ⟨fun hmem => (nomatch hmem), fun hmem => absurd hmem.1 hc⟩

theorem mem_printed_text (hh : r.header? = some h) :
    d.text κ ∈ printed r ↔ Completes r h ∧ ∃ x, Reported r h κ x ∧ description x = d := by
  rw [mem_printed hh (Or.inl ⟨κ, head_words_text⟩), said_text]

/-! ### A file system with a root directory only -/

/-- Blocks 6 and 7 may be used. -/
def rootReport (iBlock : List ℕ) (hlength : iBlock.length = 15) (bfrees : List ℕ)
    (indirects : List IndirectRecord) : LineReport where
  records :=
    .superblock ⟨8, 11, 4096, 128, 8192, 11, 12⟩ :: .group ⟨0, 8, 11, 0, 0, 3, 4, 5⟩ ::
      .inode ⟨2, .directory, 0o755, 0, 0, 0, "08/10/17 23:21:52".toList,
        "08/10/17 23:21:52".toList, "08/10/17 23:21:52".toList, 1024, 2, iBlock⟩ ::
      (bfrees.map .bfree ++ indirects.map .indirect)
  readable := by
    have htime : PlainText "08/10/17 23:21:52".toList := by decide
    simp only [List.forall_mem_cons, List.forall_mem_append, List.forall_mem_map, Readable,
      implies_true, true_and, and_true]
    refine ⟨fun time ht => ?_, fun _ => hlength⟩
    rw [List.eq_of_mem_replicate (n := 3) ht]
    exact htime

def rootHeader : Header := ⟨8, 11, 5, 11⟩

lemma header_rootReport {iBlock : List ℕ} {hlength : iBlock.length = 15} {bfrees : List ℕ}
    {indirects : List IndirectRecord} :
    (rootReport iBlock hlength bfrees indirects).header? = some rootHeader := by
  have hheader : header ⟨8, 11, 4096, 128, 8192, 11, 12⟩ ⟨0, 8, 11, 0, 0, 3, 4, 5⟩ =
      some rootHeader := by decide +kernel
  exact hheader

lemma completes_rootReport {iBlock : List ℕ} {hlength : iBlock.length = 15} {bfrees : List ℕ} :
    Completes (rootReport iBlock hlength bfrees []) rootHeader := by
  have hdirents : (rootReport iBlock hlength bfrees []).dirents = [] := by
    simp [LineReport.dirents, rootReport, Record.dirent?]
  have hpointers : (rootReport iBlock hlength bfrees []).pointers = [] := by
    simp [LineReport.pointers, LineReport.indirects, rootReport, Record.indirect?]
  refine ⟨?_, ?_, ?_⟩
  · simp [LineReport.numbers, LineReport.inodes, rootReport, Record.inode?]
  · simp [hdirents]
  · simp [hpointers]

end LowLevelTasks.BlockReports
