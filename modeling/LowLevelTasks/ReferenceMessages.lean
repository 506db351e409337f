import LowLevelTasks.BlockReports

/-!
Whether the messages about references say the truth. The offset of a direct pointer is always
given as 0, and the level of an indirect line is that of the block the reference stands in,
not of the block it leads to.
-/

namespace LowLevelTasks.ReferenceMessages

open LowLevelTasks.BlockCells LowLevelTasks.BlockReports LowLevelTasks.Folds LowLevelTasks.Lab3b
open LowLevelTasks.LineRuns LowLevelTasks.Messages LowLevelTasks.RubyText

/-- What there is to say about a reference: the level of the block it leads to, and where in
the file that block stands. -/
def truth (x : Ref) : Option Description :=
  match x.origin with
  | .slot 12 => some ⟨1, x.inode, 12, x.block⟩
  | .slot 13 => some ⟨2, x.inode, 268, x.block⟩
  | .slot 14 => some ⟨3, x.inode, 65804, x.block⟩
  | .slot num => some ⟨0, x.inode, num, x.block⟩
  | .indirect level offset =>
    if h : 1 ≤ level ∧ level < 5 then some ⟨⟨level - 1, by omega⟩, x.inode, offset, x.block⟩
    else none

/-- **The messages describe the references**: each says the truth about a reference that there
is a reason to report, none of these is left out, and no two of them get the same message. -/
structure Described (r : LineReport) (h : Header) : Prop where
  sound : ∀ m ∈ printed r, ∀ κ : Flag, (words m).head? = some κ.word →
    ∃ x d, Reported r h κ x ∧ truth x = some d ∧ m = d.text κ
  complete : Completes r h → ∀ κ x, Reported r h κ x → ∃ d, truth x = some d ∧ d.text κ ∈ printed r
  apart : Completes r h → ∀ κ x y, Reported r h κ x → Reported r h κ y → x ≠ y →
    x.text κ ≠ y.text κ

variable {r : LineReport} {h : Header} {κ : Flag} {x y : Ref} {m : Text} {d : Description}

/-! ### What is printed and what is true -/

lemma word_injective : Function.Injective Flag.word := fun κ κ' heq => by
  revert heq
  cases κ <;> cases κ' <;> decide

/-- A message of one of the three kinds is about a reference. -/
lemma exists_of_mem_printed (hh : r.header? = some h) (hm : m ∈ printed r)
    (hκ : (words m).head? = some κ.word) : ∃ x, Reported r h κ x ∧ m = x.text κ := by
  have htext : ∀ {x : Ref} {κ'}, m = x.text κ' → ∃ d : Description, m = d.text κ := by
    intro x κ' heq
    rw [heq, ← text_description, head_words_text, Option.some.injEq] at hκ
    exact ⟨description x, by rw [heq, text_description, word_injective hκ]⟩
  have hd : ∃ d : Description, m = d.text κ := by
    rcases ((mem_printed hh (Or.inl ⟨κ, hκ⟩)).mp hm).2 with
      ⟨u, x, v, -, ⟨κ', -, hm'⟩ | ⟨-, -, hm'⟩ | ⟨y, -, hm' | hm'⟩⟩ | ⟨u, x, v, -, κ', -, hm'⟩ |
      ⟨b, -, hm'⟩
    · exact htext hm'
    · rw [hm', words_allocatedBlock, List.head?_cons, Option.some.injEq] at hκ
      exact absurd hκ (by cases κ <;> decide)
    · exact htext hm'
    · exact htext hm'
    · exact htext hm'
    · rw [hm', words_unref, List.head?_cons, Option.some.injEq] at hκ
      exact absurd hκ (by cases κ <;> decide)
  obtain ⟨d, hd⟩ := hd
  rw [hd, mem_printed_text hh] at hm
  obtain ⟨-, x, hx, hxd⟩ := hm
  exact ⟨x, hx, by rw [hd, ← hxd, text_description]⟩

/-- A reference that is reported in a run that ends. -/
lemma origin_of_reported (hc : Completes r h) (hx : Reported r h κ x) :
    (∃ num < 15, x.origin = .slot num) ∨
      ∃ level < 4, ∃ offset, x.origin = .indirect level offset := by
  rcases hx with ⟨hx, -⟩ | ⟨u, y, v, heq, rfl, hfault⟩
  · exact Or.inl (isSlot_of_mem_slots hx).2
  · have hmem : y ∈ r.pointers := by rw [heq]; simp
    obtain ⟨z, -, rfl⟩ := List.mem_map.mp hmem
    refine Or.inr ⟨z.level, ?_, z.offset, rfl⟩
    by_contra hlevel
    exact hc.levels ⟨u, _, v, heq, by simp [hfault], not_lt.mp hlevel⟩

/-- What is said about a pointer, and what is true. -/
lemma description_slot {num : ℕ} (hnum : num < 15) (hx : x.origin = .slot num) :
    (num ≤ 11 ∧ description x = ⟨0, x.inode, 0, x.block⟩ ∧
      truth x = some ⟨0, x.inode, num, x.block⟩) ∨
    (12 ≤ num ∧ truth x = some (description x) ∧ (num = 12 ∧ (description x).offset = 12 ∨
      num = 13 ∧ (description x).offset = 268 ∨ num = 14 ∧ (description x).offset = 65804) ∧
      (description x).level.val = num - 11) := by
  obtain ⟨inode, block, origin⟩ := x
  obtain rfl : origin = .slot num := hx
  have hcases : num ≤ 11 ∨ num = 12 ∨ num = 13 ∨ num = 14 := by omega
  rcases hcases with hle | rfl | rfl | rfl
  · refine Or.inl ⟨hle, ?_, ?_⟩
    · simp [description, Ref.level, Ref.offset, iBlockOffset, hle, not_lt.mpr hle]
    · unfold truth
      split <;> simp_all
  · exact Or.inr ⟨by omega, rfl, Or.inl ⟨rfl, rfl⟩, rfl⟩
  · exact Or.inr ⟨by omega, rfl, Or.inr (Or.inl ⟨rfl, rfl⟩), rfl⟩
  · exact Or.inr ⟨by omega, rfl, Or.inr (Or.inr ⟨rfl, rfl⟩), rfl⟩

lemma description_indirect {level offset : ℕ} (hlevel : level < 4)
    (hx : x.origin = .indirect level offset) :
    description x = ⟨⟨level, hlevel⟩, x.inode, offset, x.block⟩ := by
  obtain ⟨inode, block, origin⟩ := x
  obtain rfl : origin = .indirect level offset := hx
  simp [description, Ref.level, Ref.offset, min_eq_left (Nat.le_of_lt_succ hlevel)]

lemma truth_indirect {level offset : ℕ} (hx : x.origin = .indirect level offset)
    (hd : truth x = some d) : 1 ≤ level ∧ d.level.val + 1 = level ∧ d.inode = x.inode ∧
      d.offset = offset ∧ d.block = x.block := by
  obtain ⟨inode, block, origin⟩ := x
  obtain rfl : origin = .indirect level offset := hx
  unfold truth at hd
  dsimp only at hd
  split at hd
  · next hlevel =>
    obtain rfl := Option.some.inj hd
    exact ⟨hlevel.1, Nat.sub_add_cancel hlevel.1, rfl, rfl, rfl⟩
  · cases hd

/-! ### Indirect lines -/

section indirect

variable {inode block level offset : ℕ} (hh : r.header? = some h) (hc : Completes r h)
  (hd : Described r h)
include hh hc hd

/-- A message that is not about its own reference tells the truth about another one, a level
higher or in an inode. -/
lemma reported_below (hx : Reported r h κ ⟨inode, block, .indirect level offset⟩) :
    1 ≤ level ∧ (level = 1 ∧ offset = 0 ∨ level = 2 ∧ offset = 12 ∨ level = 3 ∧ offset = 268 ∨
      level = 4 ∨ Reported r h κ ⟨inode, block, .indirect (level - 1) offset⟩) := by
  obtain ⟨d, htruth, hmem⟩ := hd.complete hc κ _ hx
  obtain ⟨hone, hlevel, hinode, hoffset, hblock⟩ := truth_indirect rfl htruth
  refine ⟨hone, ?_⟩
  obtain ⟨-, ⟨inode', block', origin⟩, hy, hyd⟩ := (mem_printed_text hh).mp hmem
  rcases origin_of_reported hc hy with ⟨num, hnum, heq⟩ | ⟨level', hlt, offset', heq⟩
  · rcases description_slot hnum heq with ⟨-, hsaid, -⟩ | ⟨-, -, hoffsets, hnum'⟩
    · rw [← hyd, hsaid] at hlevel hoffset
      dsimp only [Fin.val_zero] at hlevel hoffset
      omega
    · rw [← hyd] at hlevel hoffset
      omega
  · obtain rfl : origin = .indirect level' offset' := heq
    rw [description_indirect hlt rfl] at hyd
    subst hyd
    dsimp only at hlevel hinode hoffset hblock
    obtain rfl : inode' = inode := by exact_mod_cast hinode
    obtain rfl : block' = block := by exact_mod_cast hblock
    obtain rfl : offset' = offset := by exact_mod_cast hoffset
    obtain rfl : level' = level - 1 := by omega
    exact Or.inr (Or.inr (Or.inr (Or.inr hy)))

/-- What a message says is true of another reference, a level lower or in an inode. -/
lemma reported_above (hx : Reported r h κ ⟨inode, block, .indirect level offset⟩) :
    level = 0 ∨ level = 1 ∧ offset = 12 ∨ level = 2 ∧ offset = 268 ∨
      level = 3 ∧ offset = 65804 ∨
      Reported r h κ ⟨inode, block, .indirect (level + 1) offset⟩ := by
  have hlevel : level < 4 := by
    rcases origin_of_reported hc hx with ⟨num, -, heq⟩ | ⟨level', hlt, offset', heq⟩
    · cases heq
    · obtain ⟨rfl, -⟩ := Origin.indirect.inj heq
      exact hlt
  have hsaid := description_indirect (x := ⟨inode, block, .indirect level offset⟩) hlevel rfl
  obtain ⟨⟨inode', block', origin⟩, d, hy, htruth, hm⟩ :=
    hd.sound _ ((mem_printed_text hh).mpr ⟨hc, _, hx, rfl⟩) κ head_words_text
  obtain ⟨-, hdx⟩ := text_inj.mp hm
  rw [← hdx, hsaid] at htruth
  rcases origin_of_reported hc hy with ⟨num, hnum, heq⟩ | ⟨level', -, offset', heq⟩
  · rcases description_slot hnum heq with ⟨-, -, htrue⟩ | ⟨-, htrue, hoffsets, hnum'⟩
    · rw [htrue, Option.some.injEq] at htruth
      exact Or.inl (congrArg (fun d : Description => d.level.val) htruth).symm
    · rw [htrue, Option.some.injEq] at htruth
      rw [htruth] at hoffsets hnum'
      dsimp only at hoffsets hnum'
      omega
  · obtain rfl : origin = .indirect level' offset' := heq
    obtain ⟨hone, hlevel', hinode, hoffset, hblock⟩ := truth_indirect rfl htruth
    dsimp only at hlevel' hinode hoffset hblock
    obtain rfl : inode = inode' := by exact_mod_cast hinode
    obtain rfl : block = block' := by exact_mod_cast hblock
    obtain rfl : offset = offset' := by exact_mod_cast hoffset
    obtain rfl : level + 1 = level' := by omega
    exact Or.inr (Or.inr (Or.inr (Or.inr hy)))

/-- Going from level to level ends in pointers with different offsets, so that no indirect
line can be reported. -/
theorem not_reported_indirect : ¬ Reported r h κ ⟨inode, block, .indirect level offset⟩ := by
  have h4 : ∀ level, 4 ≤ level →
      ¬ Reported r h κ ⟨inode, block, .indirect level offset⟩ := fun level hle hx => by
    rcases origin_of_reported hc hx with ⟨num, -, heq⟩ | ⟨level', hlt, offset', heq⟩
    · cases heq
    · obtain ⟨rfl, -⟩ := Origin.indirect.inj heq
      omega
  have h0 : ¬ Reported r h κ ⟨inode, block, .indirect 0 offset⟩ := fun hx => by
    have := (reported_below hh hc hd hx).1
    omega
  have hoffset1 : Reported r h κ ⟨inode, block, .indirect 1 offset⟩ → offset = 0 := fun hx => by
    have := (reported_below hh hc hd hx).2
    simp only [Nat.sub_self, h0, or_false] at this
    omega
  have hoffset2 : Reported r h κ ⟨inode, block, .indirect 2 offset⟩ →
      offset = 12 ∨ offset = 0 := fun hx => by
    have := (reported_below hh hc hd hx).2
    rcases this with h | h | h | h | hbelow
    · omega
    · omega
    · omega
    · omega
    · exact Or.inr (hoffset1 hbelow)
  have h3 : ¬ Reported r h κ ⟨inode, block, .indirect 3 offset⟩ := fun hx => by
    have habove := reported_above hh hc hd hx
    simp only [h4 4 le_rfl, or_false] at habove
    rcases (reported_below hh hc hd hx).2 with h | h | h | h | hbelow
    · omega
    · omega
    · omega
    · omega
    · have := hoffset2 hbelow
      omega
  have h2 : ¬ Reported r h κ ⟨inode, block, .indirect 2 offset⟩ := fun hx => by
    have habove := reported_above hh hc hd hx
    simp only [h3, or_false] at habove
    have := hoffset2 hx
    omega
  have h1 : ¬ Reported r h κ ⟨inode, block, .indirect 1 offset⟩ := fun hx => by
    have habove := reported_above hh hc hd hx
    simp only [h2, or_false] at habove
    have := hoffset1 hx
    omega
  match level with
  | 0 => exact h0
  | 1 => exact h1
  | 2 => exact h2
  | 3 => exact h3
  | level + 4 => exact h4 _ (by omega)

end indirect

/-! ### Pointers -/

/-- The pointers about which the truth is said. -/
def TrueSlot (x : Ref) : Prop := x.origin ∈ [.slot 0, .slot 12, .slot 13, .slot 14]

lemma truth_of_trueSlot (hx : TrueSlot x) : truth x = some (description x) := by
  obtain ⟨inode, block, origin⟩ := x
  unfold TrueSlot at hx
  simp only [List.mem_cons, List.not_mem_nil, or_false] at hx
  rcases hx with rfl | rfl | rfl | rfl <;> rfl

lemma description_injective (hx : TrueSlot x) (hy : TrueSlot y)
    (heq : description x = description y) : x = y := by
  obtain ⟨inode, block, origin⟩ := x
  obtain ⟨inode', block', origin'⟩ := y
  have hinode : (inode : ℤ) = inode' := congrArg Description.inode heq
  have hblock : (block : ℤ) = block' := congrArg Description.block heq
  have hlevel := congrArg (fun d : Description => d.level.val) heq
  unfold TrueSlot at hx hy
  simp only [List.mem_cons, List.not_mem_nil, or_false] at hx hy
  obtain rfl : inode = inode' := by exact_mod_cast hinode
  obtain rfl : block = block' := by exact_mod_cast hblock
  rcases hx with rfl | rfl | rfl | rfl <;> rcases hy with rfl | rfl | rfl | rfl <;>
    first | rfl | exact absurd hlevel (by simp [description, Ref.level])

/-- **Exactly when the messages describe the references.** -/
theorem described_iff (hh : r.header? = some h) :
    Described r h ↔ (Completes r h → ∀ κ x, Reported r h κ x → TrueSlot x) := by
  constructor
  · intro hd hc κ x hx
    obtain ⟨inode, block, origin⟩ := x
    rcases origin_of_reported hc hx with ⟨num, hnum, heq⟩ | ⟨level, -, offset, heq⟩
    · obtain rfl : origin = .slot num := heq
      unfold TrueSlot
      rcases description_slot (x := ⟨inode, block, .slot num⟩) hnum rfl with
        ⟨hle, -, htrue⟩ | ⟨hge, -⟩
      · -- the true offset of the pointer has to be printed for it or another pointer
        obtain ⟨d, htruth, hmem⟩ := hd.complete hc κ _ hx
        rw [htrue, Option.some.injEq] at htruth
        obtain ⟨-, y, hy, hyd⟩ := (mem_printed_text hh).mp hmem
        rw [← htruth] at hyd
        obtain ⟨inode', block', origin'⟩ := y
        rcases origin_of_reported hc hy with ⟨num', hnum', heq'⟩ | ⟨level', -, offset', heq'⟩
        · rcases description_slot hnum' heq' with ⟨-, hsaid, -⟩ | ⟨hge, -, -, hlevel⟩
          · rw [hsaid] at hyd
            have hoffset : (0 : ℤ) = num := congrArg Description.offset hyd
            simp only [List.mem_cons, Origin.slot.injEq, List.not_mem_nil, or_false]
            omega
          · rw [hyd] at hlevel
            dsimp only [Fin.val_zero] at hlevel
            omega
        · obtain rfl : origin' = .indirect level' offset' := heq'
          exact absurd hy (not_reported_indirect hh hc hd)
      · simp only [List.mem_cons, Origin.slot.injEq, List.not_mem_nil, or_false]
        omega
    · obtain rfl : origin = .indirect level offset := heq
      exact absurd hx (not_reported_indirect hh hc hd)
  · intro htrue
    refine ⟨fun m hm κ hκ => ?_, fun hc κ x hx => ?_, fun hc κ x y hx hy hne heq => ?_⟩
    · have hc : Completes r h := ((mem_printed hh (Or.inl ⟨κ, hκ⟩)).mp hm).1
      obtain ⟨x, hx, hmx⟩ := exists_of_mem_printed hh hm hκ
      exact ⟨x, description x, hx, truth_of_trueSlot (htrue hc κ x hx),
        hmx.trans text_description.symm⟩
    · exact ⟨description x, truth_of_trueSlot (htrue hc κ x hx),
        (mem_printed_text hh).mpr ⟨hc, x, hx, rfl⟩⟩
    · rw [← text_description, ← text_description, text_inj] at heq
      exact hne (description_injective (htrue hc κ x hx) (htrue hc κ y hy) heq.2)

theorem described_iff_sample :
    Described (rootReport (200 :: List.replicate 14 0) rfl [] []) rootHeader := by
  refine (described_iff header_rootReport).mpr fun _ κ x hx => ?_
  rcases hx with ⟨hx, -⟩ | hx
  · obtain rfl : x = ⟨2, 200, .slot 0⟩ := List.mem_singleton.mp hx
    exact List.mem_cons_self
  · exact absurd hx somewhere_nil

/-- Two pointers of the root lead to one block outside the file system. -/
def twoPointers : LineReport :=
  rootReport (0 :: 200 :: 200 :: List.replicate 12 0) rfl [] []

/-- The two get the same messages, and an indirect line gives its own level for a data block. -/
theorem twoPointers_merged :
    twoPointers.header? = some rootHeader ∧
      Reported twoPointers rootHeader .inv ⟨2, 200, .slot 1⟩ ∧
      Reported twoPointers rootHeader .inv ⟨2, 200, .slot 2⟩ ∧
      printed twoPointers = ["INVALID BLOCK 200 IN INODE 2 AT OFFSET 0".toList,
        "DUPLICATE BLOCK 200 IN INODE 2 AT OFFSET 0".toList, "UNREFERENCED BLOCK 6".toList,
        "UNREFERENCED BLOCK 7".toList] ∧
      ¬ Described twoPointers rootHeader ∧
      printed (rootReport (6 :: List.replicate 11 0 ++ [7, 0, 0]) rfl [] [⟨2, 1, 12, 7, 200⟩]) =
        ["INVALID INDIRECT BLOCK 200 IN INODE 2 AT OFFSET 12".toList] := by
  have hone : Reported twoPointers rootHeader .inv ⟨2, 200, .slot 1⟩ :=
    Or.inl ⟨by decide, Or.inl ⟨by decide, by decide⟩⟩
  have htwo : Reported twoPointers rootHeader .inv ⟨2, 200, .slot 2⟩ :=
    Or.inl ⟨by decide, Or.inl ⟨by decide, by decide⟩⟩
  refine ⟨header_rootReport, hone, htwo, by decide +kernel, fun hd => ?_, by decide +kernel⟩
  exact hd.apart completes_rootReport _ _ _ hone htwo (by decide) rfl

end LowLevelTasks.ReferenceMessages
