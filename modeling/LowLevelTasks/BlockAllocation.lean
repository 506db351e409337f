import LowLevelTasks.BlockReports

/-!
Which blocks are reported as allocated though they are free, or as unreferenced. The pass
over the inodes looks whether a block is free, and the one over the indirect blocks does not.
-/

namespace LowLevelTasks.BlockAllocation

open LowLevelTasks.BlockCells LowLevelTasks.BlockReports LowLevelTasks.Folds LowLevelTasks.Lab3b
open LowLevelTasks.LineRuns LowLevelTasks.Messages LowLevelTasks.Reports

/-- The block lies behind the reserved ones, inside the file system. -/
def InRange (h : Header) (b : ℕ) : Prop := h.reservedBlocks < b ∧ (b : ℤ) < h.blocks

/-- Something references the block. -/
def ReferencedBy (refs : List Ref) (b : ℕ) : Prop := ∃ x ∈ refs, x.block = b

/-- **The reports are exact**: a block is reported as allocated if it is free and referenced,
and as unreferenced if it is neither. -/
structure AllocationExact (r : LineReport) (h : Header) : Prop where
  allocated : ∀ b, InRange h b →
    (Err.free "all_blk".toList b ∈ printed r ↔ b ∈ r.bfrees ∧ ReferencedBy r.refs b)
  unreferenced : ∀ b, InRange h b →
    (Err.unref b ∈ printed r ↔ b ∉ r.bfrees ∧ ¬ ReferencedBy r.refs b)

variable {r : LineReport} {h : Header} {b : ℕ}

lemma referencedBy_refs :
    ReferencedBy r.refs b ↔ ReferencedBy r.slots b ∨ ReferencedBy r.pointers b := by
  unfold ReferencedBy LineReport.refs
  simp [or_and_right, exists_or]

lemma said_allocated : Said r h (Err.free "all_blk".toList b) ↔
    b ∈ r.bfrees ∧ ReferencedBy r.slots b := by
  have hslots : ∀ refs x, SlotSays h r.bfrees refs x (Err.free "all_blk".toList b) ↔
      (∀ y ∈ refs, ¬ (y.block = b ∧ b ∈ r.bfrees)) ∧ x.block = b ∧ b ∈ r.bfrees := by
    intro refs x
    unfold SlotSays
    simp only [← text_description, (text_ne_free _).symm, and_false, exists_false, or_false,
      false_or, allocatedBlock_injective.eq_iff, Nat.cast_inj, lastTo_eq_none_iff]
    constructor
    · rintro ⟨hnone, hfree, rfl⟩
      exact ⟨fun y hy hyb => hnone y hy hyb.1, rfl, hfree⟩
    · rintro ⟨hnone, rfl, hfree⟩
      exact ⟨fun y hy hyb => hnone y hy ⟨hyb, hfree⟩, hfree, rfl⟩
  have hpointers : ∀ refs x, ¬ PointerSays h refs x (Err.free "all_blk".toList b) := by
    rintro refs x ⟨κ, -, heq⟩
    rw [← text_description] at heq
    exact text_ne_free _ heq.symm
  have hunref : ∀ b' : ℕ, Err.free "all_blk".toList b ≠ Err.unref b' := fun b' heq => by
    have hwords := congrArg words heq
    rw [words_allocatedBlock, words_unref] at hwords
    exact absurd (List.cons.inj hwords).1 (by decide)
  unfold Said ReferencedBy
  simp only [hslots, hpointers, somewhere_const, hunref, and_false, exists_false, or_false,
    somewhere_first]
  constructor
  · rintro ⟨x, hx, hxb, hfree⟩
    exact ⟨hfree, x, hx, hxb⟩
  · rintro ⟨hfree, x, hx, hxb⟩
    exact ⟨x, hx, hxb, hfree⟩

lemma said_unreferenced : Said r h (Err.unref b) ↔ Unreferenced r h b := by
  have htext : ∀ x : Ref, ∀ κ, Err.unref b ≠ x.text κ := fun x κ heq => by
    rw [← text_description] at heq
    exact text_ne_unref _ heq.symm
  have hfree : ∀ b' : ℕ, Err.unref b ≠ Err.free "all_blk".toList b' := fun b' heq => by
    have hwords := congrArg words heq
    rw [words_allocatedBlock, words_unref] at hwords
    exact absurd (List.cons.inj hwords).1 (by decide)
  unfold Said SlotSays PointerSays
  simp only [htext, hfree, and_false, exists_false, or_false, false_or, somewhere_const,
    unref_injective.eq_iff, Nat.cast_inj, exists_eq_right']

/-- **Exactly when the reports are exact.** -/
theorem allocationExact_iff (hh : r.header? = some h) :
    AllocationExact r h ↔
      (Completes r h → ∀ b, InRange h b → b ∈ r.bfrees → ReferencedBy r.pointers b →
        ReferencedBy r.slots b) ∧
      (¬ Completes r h → ∀ b, InRange h b → (b ∈ r.bfrees ↔ ¬ ReferencedBy r.refs b)) := by
  have hallocated : ∀ b : ℕ, Err.free "all_blk".toList b ∈ printed r ↔
      Completes r h ∧ b ∈ r.bfrees ∧ ReferencedBy r.slots b := fun b => by
    rw [mem_printed hh (Or.inr (Or.inr ⟨_, rfl⟩)), said_allocated]
  have hunreferenced : ∀ b : ℕ, Err.unref b ∈ printed r ↔ Completes r h ∧ Unreferenced r h b :=
    fun b => by rw [mem_printed hh (Or.inr (Or.inl ⟨_, rfl⟩)), said_unreferenced]
  constructor
  · intro hexact
    refine ⟨fun hc b hb hfree hpointer => ?_, fun hc b hb => ?_⟩
    · have hmem := (hexact.allocated b hb).mpr ⟨hfree, referencedBy_refs.mpr (Or.inr hpointer)⟩
      exact ((hallocated b).mp hmem).2.2
    · have h1 : ¬ (b ∈ r.bfrees ∧ ReferencedBy r.refs b) := fun hboth =>
        hc ((hallocated b).mp ((hexact.allocated b hb).mpr hboth)).1
      have h2 : ¬ (b ∉ r.bfrees ∧ ¬ ReferencedBy r.refs b) := fun hneither =>
        hc ((hunreferenced b).mp ((hexact.unreferenced b hb).mpr hneither)).1
      tauto
  · rintro ⟨hdone, hfailed⟩
    refine ⟨fun b hb => ?_, fun b hb => ?_⟩
    · rw [hallocated, referencedBy_refs]
      by_cases hc : Completes r h
      · have := hdone hc b hb
        tauto
      · have := hfailed hc b hb
        rw [referencedBy_refs] at this
        tauto
    · rw [hunreferenced]
      have hcell : Unreferenced r h b ↔ b ∉ r.bfrees ∧ ¬ ReferencedBy r.refs b := by
        constructor
        · rintro ⟨-, -, hused, hnone⟩
          exact ⟨hused, fun ⟨x, hx, hxb⟩ => hnone x hx hxb⟩
        · rintro ⟨hused, hnone⟩
          exact ⟨hb.1, hb.2, hused, fun x hx hxb => hnone ⟨x, hx, hxb⟩⟩
      rw [hcell]
      constructor
      · exact fun hmem => hmem.2
      · intro hmem
        by_contra hc
        have := hfailed (fun hc' => hc ⟨hc', hmem⟩) b hb
        tauto

theorem allocationExact_iff_sample :
    AllocationExact (rootReport (6 :: List.replicate 14 0) rfl [7] []) rootHeader := by
  refine (allocationExact_iff header_rootReport).mpr ⟨fun _ b _ _ hpointer => ?_, fun hc => ?_⟩
  · obtain ⟨x, hx, -⟩ := hpointer
    cases hx
  · exact absurd completes_rootReport hc

/-- Block 6 is free, and an indirect block references it. -/
def freePointer : LineReport :=
  rootReport (7 :: List.replicate 14 0) rfl [6] [⟨2, 1, 12, 7, 6⟩]

/-- The free block that is referenced is not reported. -/
theorem freePointer_unreported :
    freePointer.header? = some rootHeader ∧ InRange rootHeader 6 ∧ 6 ∈ freePointer.bfrees ∧
      ReferencedBy freePointer.refs 6 ∧ printed freePointer = [] ∧
      ¬ AllocationExact freePointer rootHeader := by
  have hrange : InRange rootHeader 6 := ⟨by decide, by decide⟩
  have hfree : 6 ∈ freePointer.bfrees := by decide
  have hreferenced : ReferencedBy freePointer.refs 6 :=
    ⟨⟨2, 6, .indirect 1 12⟩, by decide, rfl⟩
  have hprinted : printed freePointer = [] := by decide +kernel
  refine ⟨header_rootReport, hrange, hfree, hreferenced, hprinted, fun hexact => ?_⟩
  have hmem := (hexact.allocated 6 hrange).mpr ⟨hfree, hreferenced⟩
  rw [hprinted] at hmem
  cases hmem

end LowLevelTasks.BlockAllocation
