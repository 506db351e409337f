import LowLevelTasks.BlockAllocation

/-!
Which references to a block with several are reported. The pass over the inodes also reports
the reference that it finds in the table, and the one over the indirect blocks does not, so
that a reference is left out if all behind it stand in the lines of indirect blocks.
-/

namespace LowLevelTasks.DuplicateReports

open LowLevelTasks.BlockAllocation LowLevelTasks.BlockCells LowLevelTasks.BlockReports
open LowLevelTasks.Folds LowLevelTasks.Lab3b LowLevelTasks.LineRuns LowLevelTasks.Messages
open LowLevelTasks.RubyText

def refsTo (r : LineReport) (b : ℕ) : List Ref := r.refs.filter (·.block = b)

/-- **Duplicates are reported completely.** -/
structure DuplicatesComplete (r : LineReport) (h : Header) : Prop where
  one : ∀ b, InRange h b → (refsTo r b).length = 1 →
    ∀ d : Description, d.block = b → d.text .dup ∉ printed r
  all : ∀ b, InRange h b → 2 ≤ (refsTo r b).length → ∀ x ∈ refsTo r b,
    ∃ d : Description, d.block = b ∧ d.inode = x.inode ∧ d.text .dup ∈ printed r

/-- For a reference to the block that is not reported, one that is stands in the same inode. -/
structure Covered (r : LineReport) (b : ℕ) : Prop where
  slot : ∀ x, slotsTo r b = [x] → pointersTo r b ≠ [] → ∃ y ∈ pointersTo r b, y.inode = x.inode
  pointer : ∀ x ys, slotsTo r b = [] → pointersTo r b = x :: ys → ys ≠ [] →
    ∃ y ∈ ys, y.inode = x.inode

variable {r : LineReport} {h : Header} {b : ℕ} {x : Ref}

lemma refsTo_eq : refsTo r b = slotsTo r b ++ pointersTo r b := List.filter_append ..

lemma block_of_mem (hx : x ∈ refsTo r b) : x.block = b := by
  simpa using (List.mem_filter.mp hx).2

/-- The references in the lines of indirect blocks that are reported as duplicates. -/
def laterPointers (r : LineReport) (b : ℕ) : List Ref :=
  if slotsTo r b = [] then (pointersTo r b).tail else pointersTo r b

lemma fault_dup_iff (hb : InRange h x.block) {refs : List Ref} :
    indirectFault h refs x = some .dup ↔ ∃ y ∈ refs, y.block = x.block := by
  obtain ⟨habove, hbelow⟩ := hb
  have hnone : lastTo refs x.block = none ↔ ∀ y ∈ refs, y.block ≠ x.block := lastTo_eq_none_iff
  unfold indirectFault
  rw [if_neg (by omega), if_neg (by omega)]
  cases hlast : lastTo refs x.block with
  | none => simpa using hnone.mp hlast
  | some y => simpa using ⟨y, mem_of_lastTo hlast⟩

lemma somewhere_pointer (hb : InRange h b) {q : Ref → Prop} :
    Somewhere (fun u y => (q y ∧ y.block = b) ∧ indirectFault h (r.slots ++ u) y = some .dup)
      r.pointers ↔ ∃ y ∈ laterPointers r b, q y := by
  have hfault : Somewhere (fun u y => (q y ∧ y.block = b) ∧
      indirectFault h (r.slots ++ u) y = some .dup) r.pointers ↔
      Somewhere (fun u y => (slotsTo r b ≠ [] ∨ u ≠ []) ∧ q y) (pointersTo r b) := by
    unfold pointersTo
    rw [somewhere_filter]
    refine somewhere_congr fun u y v _ => ?_
    have hmem : ∀ refs : List Ref, (∃ z ∈ refs, z.block = b) ↔ refs.filter (·.block = b) ≠ [] :=
      fun refs => by simp [List.filter_eq_nil_iff]
    rw [decide_eq_true_eq]
    constructor
    · rintro ⟨⟨hq, rfl⟩, hdup⟩
      rw [fault_dup_iff hb, hmem, List.filter_append] at hdup
      exact ⟨rfl, by simpa [slotsTo, or_iff_not_imp_left] using hdup, hq⟩
    · rintro ⟨rfl, hearlier, hq⟩
      rw [fault_dup_iff hb, hmem, List.filter_append]
      exact ⟨⟨hq, rfl⟩, by simpa [slotsTo, or_iff_not_imp_left] using hearlier⟩
  rw [hfault]
  unfold laterPointers
  by_cases hslots : slotsTo r b = []
  · simp only [hslots, ne_eq, not_true_eq_false, false_or, if_true]
    exact somewhere_tail
  · simp only [hslots, ne_eq, not_false_eq_true, true_or, true_and, if_false]
    exact somewhere_const

/-- The references to a block that are reported as duplicates. -/
theorem reported_dup_iff (hb : InRange h b) : Reported r h .dup x ∧ x.block = b ↔
    (x ∈ slotsTo r b ∧ 2 ≤ (slotsTo r b).length) ∨ x ∈ laterPointers r b := by
  have hpointer := somewhere_pointer (r := r) hb (q := (· = x))
  rw [exists_eq_right] at hpointer
  unfold Reported
  rw [← hpointer]
  have hslot : x ∈ slotsTo r b ↔ x ∈ r.slots ∧ x.block = b := by simp [slotsTo]
  rw [hslot]
  constructor
  · rintro ⟨⟨hx, hout | ⟨-, hlength⟩⟩ | ⟨u, y, v, heq, rfl, hfault⟩, rfl⟩
    · exact hout.elim
    · exact Or.inl ⟨⟨hx, rfl⟩, hlength⟩
    · exact Or.inr ⟨u, y, v, heq, ⟨rfl, rfl⟩, hfault⟩
  · rintro (⟨⟨hx, rfl⟩, hlength⟩ | ⟨u, y, v, heq, ⟨rfl, hyb⟩, hfault⟩)
    · exact ⟨Or.inl ⟨hx, Or.inr ⟨rfl, hlength⟩⟩, rfl⟩
    · exact ⟨Or.inr ⟨u, y, v, heq, rfl, hfault⟩, hyb⟩

/-- The reference is one of those that are reported as duplicates. -/
def ReportedDup (r : LineReport) (b : ℕ) (x : Ref) : Prop :=
  (x ∈ slotsTo r b ∧ 2 ≤ (slotsTo r b).length) ∨ x ∈ laterPointers r b

lemma dup_mem_printed (hh : r.header? = some h) (hb : InRange h b) {d : Description}
    (hd : d.block = b) : d.text .dup ∈ printed r ↔
      Completes r h ∧ ∃ x, ReportedDup r b x ∧ description x = d := by
  rw [mem_printed_text hh]
  refine and_congr_right fun _ => exists_congr fun x => ?_
  unfold ReportedDup
  rw [← reported_dup_iff hb]
  refine ⟨fun ⟨hx, hxd⟩ => ⟨⟨hx, ?_⟩, hxd⟩, fun ⟨⟨hx, _⟩, hxd⟩ => ⟨hx, hxd⟩⟩
  rw [block_of_description hxd, hd, Int.toNat_natCast]

lemma length_refsTo : (refsTo r b).length = (slotsTo r b).length + (pointersTo r b).length := by
  rw [refsTo_eq, List.length_append]

lemma ReportedDup.mem (hx : ReportedDup r b x) : x ∈ refsTo r b := by
  rw [refsTo_eq, List.mem_append]
  rcases hx with ⟨hx, -⟩ | hx
  · exact Or.inl hx
  · unfold laterPointers at hx
    split at hx
    · exact Or.inr (List.mem_of_mem_tail hx)
    · exact Or.inr hx

/-- What is reported is not the only reference. -/
lemma ReportedDup.two_le (hx : ReportedDup r b x) : 2 ≤ (refsTo r b).length := by
  rw [length_refsTo]
  rcases hx with ⟨-, hlength⟩ | hx
  · omega
  · unfold laterPointers at hx
    split at hx
    · have := List.length_pos_of_mem hx
      rw [List.length_tail] at this
      omega
    · next hslots =>
      have := List.length_pos_iff.mpr hslots
      have := List.length_pos_of_mem hx
      omega

/-- A reference is reported, or another one in the same inode is. -/
lemma Covered.exists (hc : Covered r b) (hlength : 2 ≤ (refsTo r b).length)
    (hx : x ∈ refsTo r b) : ∃ y, ReportedDup r b y ∧ y.inode = x.inode := by
  have hlength' := hlength
  rw [length_refsTo] at hlength'
  rw [refsTo_eq, List.mem_append] at hx
  unfold ReportedDup laterPointers
  match hslots : slotsTo r b with
  | [] =>
    rw [hslots] at hx hlength'
    rw [if_pos rfl]
    cases hpointers : pointersTo r b with
    | nil =>
      rw [hpointers] at hlength'
      simp at hlength'
    | cons z ys =>
      rw [hpointers] at hx hlength'
      have hys : ys ≠ [] := by
        rintro rfl
        simp at hlength'
      rcases hx with hx | hx
      · cases hx
      rcases List.mem_cons.mp hx with rfl | hx
      · obtain ⟨y, hy, hinode⟩ := hc.pointer _ _ hslots hpointers hys
        exact ⟨y, Or.inr hy, hinode⟩
      · exact ⟨x, Or.inr hx, rfl⟩
  | [z] =>
    rw [hslots] at hx hlength'
    rw [if_neg (by simp)]
    rcases hx with hx | hx
    · obtain rfl := List.mem_singleton.mp hx
      have hpointers : pointersTo r b ≠ [] := by
        intro hnil
        rw [hnil] at hlength'
        simp at hlength'
      obtain ⟨y, hy, hinode⟩ := hc.slot x hslots hpointers
      exact ⟨y, Or.inr hy, hinode⟩
    · exact ⟨x, Or.inr hx, rfl⟩
  | z :: z' :: zs =>
    rw [hslots] at hx
    rw [if_neg (by simp)]
    rcases hx with hx | hx
    · exact ⟨x, Or.inl ⟨hx, by simp⟩, rfl⟩
    · exact ⟨x, Or.inr hx, rfl⟩

/-- If each reference is reported, or another one in its inode, then those that are left out
are covered. -/
lemma covered_of_reported (hall : 2 ≤ (refsTo r b).length → ∀ x ∈ refsTo r b,
    ∃ y, ReportedDup r b y ∧ y.inode = x.inode) : Covered r b := by
  constructor
  · intro x hslots hpointers
    have hlater : laterPointers r b = pointersTo r b := if_neg (by rw [hslots]; simp)
    have hlength : 2 ≤ (refsTo r b).length := by
      have := List.length_pos_iff.mpr hpointers
      rw [length_refsTo, hslots, List.length_singleton]
      omega
    have hx : x ∈ refsTo r b := by
      rw [refsTo_eq, hslots]
      simp
    obtain ⟨y, ⟨-, hone⟩ | hy, hinode⟩ := hall hlength x hx
    · rw [hslots, List.length_singleton] at hone
      omega
    · exact ⟨y, hlater ▸ hy, hinode⟩
  · intro x ys hslots hpointers hys
    have hlater : laterPointers r b = ys := by
      unfold laterPointers
      rw [if_pos hslots, hpointers, List.tail_cons]
    have hlength : 2 ≤ (refsTo r b).length := by
      have := List.length_pos_iff.mpr hys
      rw [length_refsTo, hpointers, List.length_cons]
      omega
    have hx : x ∈ refsTo r b := by
      rw [refsTo_eq, hpointers]
      simp
    obtain ⟨y, ⟨hy, -⟩ | hy, hinode⟩ := hall hlength x hx
    · rw [hslots] at hy
      cases hy
    · exact ⟨y, hlater ▸ hy, hinode⟩

/-- Completeness, without the texts. A block with one reference is never reported. -/
lemma duplicatesComplete_iff_reported (hh : r.header? = some h) :
    DuplicatesComplete r h ↔ ∀ b, InRange h b → 2 ≤ (refsTo r b).length → ∀ x ∈ refsTo r b,
      Completes r h ∧ ∃ y, ReportedDup r b y ∧ y.inode = x.inode := by
  constructor
  · intro hall b hb hlength x hx
    obtain ⟨d, hblock, hinode, hmem⟩ := hall.all b hb hlength x hx
    obtain ⟨hc, y, hy, hyd⟩ := (dup_mem_printed hh hb hblock).mp hmem
    rw [← hyd] at hinode
    exact ⟨hc, y, hy, Int.natCast_inj.mp hinode⟩
  · intro hall
    refine ⟨fun b hb hone d hd hmem => ?_, fun b hb hlength x hx => ?_⟩
    · obtain ⟨-, x, hx, -⟩ := (dup_mem_printed hh hb hd).mp hmem
      have := hx.two_le
      omega
    · obtain ⟨hc, y, hy, hinode⟩ := hall b hb hlength x hx
      have hblock : (description y).block = b := by
        unfold description
        rw [block_of_mem hy.mem]
      refine ⟨description y, hblock, ?_, (dup_mem_printed hh hb hblock).mpr ⟨hc, y, hy, rfl⟩⟩
      unfold description
      rw [hinode]

/-- **Exactly when duplicates are reported completely.** -/
theorem duplicatesComplete_iff (hh : r.header? = some h) :
    DuplicatesComplete r h ↔
      (Completes r h → ∀ b, InRange h b → Covered r b) ∧
      (¬ Completes r h → ∀ b, InRange h b → (refsTo r b).length < 2) := by
  rw [duplicatesComplete_iff_reported hh]
  constructor
  · intro hall
    refine ⟨fun _ b hb => covered_of_reported fun hlength x hx => (hall b hb hlength x hx).2,
      fun hc b hb => ?_⟩
    by_contra hlength
    obtain ⟨x, hx⟩ := List.exists_mem_of_length_pos (l := refsTo r b) (by omega)
    exact hc (hall b hb (by omega) x hx).1
  · rintro ⟨hcovered, hfailed⟩ b hb hlength x hx
    have hc : Completes r h := by
      by_contra hc
      have := hfailed hc b hb
      omega
    exact ⟨hc, (hcovered hc b hb).exists hlength hx⟩

theorem duplicatesComplete_iff_sample :
    DuplicatesComplete (rootReport (6 :: 6 :: List.replicate 13 0) rfl [] []) rootHeader := by
  refine (duplicatesComplete_iff header_rootReport).mpr ⟨fun _ b _ => ⟨?_, ?_⟩, fun hc => ?_⟩
  · intro x _ hpointers
    exact absurd rfl hpointers
  · intro x ys _ hpointers
    cases hpointers
  · exact absurd completes_rootReport hc

/-- Block 6 is referenced by the root, and by an indirect block of inode 3. -/
def twoInodes : LineReport := rootReport (6 :: List.replicate 14 0) rfl [] [⟨3, 1, 12, 7, 6⟩]

/-- The first reference is not reported. -/
theorem twoInodes_incomplete :
    twoInodes.header? = some rootHeader ∧ InRange rootHeader 6 ∧
      refsTo twoInodes 6 = [⟨2, 6, .slot 0⟩, ⟨3, 6, .indirect 1 12⟩] ∧
      printed twoInodes = ["DUPLICATE INDIRECT BLOCK 6 IN INODE 3 AT OFFSET 12".toList,
        "UNREFERENCED BLOCK 7".toList] ∧
      ¬ DuplicatesComplete twoInodes rootHeader := by
  have hrefs : refsTo twoInodes 6 = [⟨2, 6, .slot 0⟩, ⟨3, 6, .indirect 1 12⟩] := by decide
  have hprinted : printed twoInodes =
      ["DUPLICATE INDIRECT BLOCK 6 IN INODE 3 AT OFFSET 12".toList,
        "UNREFERENCED BLOCK 7".toList] := by decide +kernel
  have hrange : InRange rootHeader 6 := ⟨by decide, by decide⟩
  refine ⟨header_rootReport, hrange, hrefs, hprinted, fun hall => ?_⟩
  obtain ⟨d, -, hinode, hmem⟩ := hall.all 6 hrange (by rw [hrefs]; decide) ⟨2, 6, .slot 0⟩
    (by rw [hrefs]; simp)
  have hfirst : "DUPLICATE INDIRECT BLOCK 6 IN INODE 3 AT OFFSET 12".toList =
      Description.text ⟨1, 3, 12, 6⟩ .dup := by decide
  have hsecond : "UNREFERENCED BLOCK 7".toList = Err.unref 7 := by decide
  rw [hprinted, hfirst, hsecond, List.mem_pair] at hmem
  rcases hmem with hmem | hmem
  · obtain ⟨-, rfl⟩ := text_inj.mp hmem
    cases hinode
  · exact text_ne_unref _ hmem

end LowLevelTasks.DuplicateReports
