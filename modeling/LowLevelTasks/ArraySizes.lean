import LowLevelTasks.Exceptions
import LowLevelTasks.LineRuns

/-!
How long the tables of the analyser may get. A number in a report can be larger than any index of
an array, but those of a report whose numbers have 32 bits are not.
-/

namespace LowLevelTasks.ArraySizes

open LowLevelTasks.Exceptions LowLevelTasks.Lab3b LowLevelTasks.LineRuns LowLevelTasks.Passes
open LowLevelTasks.Reports LowLevelTasks.RubyArray LowLevelTasks.RubyText

/-- The indices that the passes write to. -/
def stored (contents : Text) : List ℤ :=
  bfrees contents ++ ifrees contents ++ numbers contents ++ pointers contents ++
    (pointerLines contents).map PointerLine.refBlock

/-- No array would get too long, and the number of an entry, which is looked up first, is a `long`.
Else there is an ArgumentError, an IndexError or a RangeError. Names with newlines in them can
spill lines with such numbers. -/
structure Sized (contents : Text) : Prop where
  header : ∀ p ∈ scanHeader contents, p.1.blocks ≤ maxLength ∧ p.1.inodes + 1 ≤ maxLength
  stored : ∀ i ∈ stored contents, i < maxLength
  entries : ∀ line ∈ scan "DIRENT".toList contents,
    -2 ^ 63 ≤ (entryOf line).inode ∧ (entryOf line).inode < 2 ^ 63

instance (contents : Text) : Decidable (Sized contents) :=
  decidable_of_iff
    ((∀ p ∈ scanHeader contents, p.1.blocks ≤ maxLength ∧ p.1.inodes + 1 ≤ maxLength) ∧
      (∀ i ∈ stored contents, i < maxLength) ∧
      ∀ line ∈ scan "DIRENT".toList contents,
        -2 ^ 63 ≤ (entryOf line).inode ∧ (entryOf line).inode < 2 ^ 63)
    ⟨fun ⟨h1, h2, h3⟩ => ⟨h1, h2, h3⟩, fun ⟨h1, h2, h3⟩ => ⟨h1, h2, h3⟩⟩

/-- No number that the tables are indexed with has more than 32 bits. -/
structure Narrow (r : LineReport) : Prop where
  free : ∀ n ∈ r.bfrees ++ r.ifrees, n < 2 ^ 32
  inodes : ∀ q ∈ r.inodes, q.number < 2 ^ 32 ∧ ∀ b ∈ q.iBlock, b < 2 ^ 32
  dirents : ∀ e ∈ r.dirents, e.inode < 2 ^ 32
  indirects : ∀ x ∈ r.indirects, x.refBlock < 2 ^ 32

variable {r : LineReport}

lemma numberOf_text {q : InodeRecord} (hq : q.Plain) :
    numberOf (Record.inode q).text = q.number := by
  have hfield : field q.fields 1 = decimal q.number := rfl
  unfold numberOf
  rw [split_text (x := .inode q) hq]
  change toI (field q.fields 1) = _
  rw [hfield, toI_decimal]

/-- A pointer that is read is one of the line, or zero. -/
lemma pointerOf_text {q : InodeRecord} (hq : q.Plain) (num : ℕ) :
    pointerOf (Record.inode q).text num = (q.iBlock.getD num 0 : ℕ) := by
  have hfield : field q.fields (num + 12) = ((q.iBlock.map decimal).getD num []) := by
    unfold field InodeRecord.fields
    simp [List.getD_eq_getElem?_getD]
  unfold pointerOf
  rw [split_text (x := .inode q) hq]
  change toI (field q.fields (num + 12)) = _
  rw [hfield]
  cases hnum : q.iBlock[num]? with
  | none => simp [List.getD_eq_getElem?_getD, hnum]; decide
  | some b => simp [List.getD_eq_getElem?_getD, hnum]

lemma pointersOf_text_lt {q : InodeRecord} (hq : q.Plain) (hb : ∀ b ∈ q.iBlock, b < 2 ^ 32) :
    ∀ i ∈ pointersOf (Record.inode q).text, i < 2 ^ 32 := by
  intro i hi
  unfold pointersOf at hi
  split at hi
  · cases hi
  · obtain ⟨num, -, rfl⟩ := List.mem_map.mp (List.mem_filter.mp hi).1
    rw [pointerOf_text hq, List.getD_eq_getElem?_getD]
    cases hnum : q.iBlock[num]? with
    | none => simp
    | some b =>
      have := hb b (List.mem_of_getElem? hnum)
      rw [Option.getD_some]
      exact_mod_cast this

lemma refBlock_text (x : IndirectRecord) :
    (pointerLine? (Record.indirect x).text).map PointerLine.refBlock = some (x.refBlock : ℤ) := by
  have hsplit : split (Record.indirect x).text = x.fields := split_text (x := .indirect x) trivial
  unfold pointerLine?
  rw [hsplit]
  simp [IndirectRecord.fields]

/-- **No array gets too long** for such a report. -/
lemma Narrow.sized (hr : Narrow r) {h : Header} (hh : r.header? = some h)
    (hblocks : h.blocks < 2 ^ 32) (hinodes : h.inodes < 2 ^ 32) : Sized r.text := by
  have hline : ∀ x ∈ r.records, '\n' ∉ x.text := fun x hx => newline_notMem_text (r.readable x hx)
  have hfree := List.forall_mem_append.mp hr.free
  have hmax : (2 : ℤ) ^ 32 < maxLength := by decide
  refine ⟨fun p hp => ?_, ?_, ?_⟩
  · obtain ⟨sb, hsb, hg⟩ := Option.bind_eq_some_iff.mp hh
    obtain ⟨g, hg, hheader⟩ := Option.bind_eq_some_iff.mp hg
    have hp : scanHeader r.text = some p := hp
    unfold LineReport.text at hp
    rw [scanHeader_lines hline hsb hg, hheader] at hp
    obtain rfl := Option.some.inj hp
    exact ⟨by dsimp only; omega, by dsimp only; omega⟩
  · have hbfrees : ∀ i ∈ bfrees r.text, i < 2 ^ 32 := by
      unfold bfrees LineReport.text
      rw [scan_bfree hline, List.map_map, List.forall_mem_map]
      intro b hb
      have := hfree.1 b hb
      rw [Function.comp_apply, text_bfree, firstDigits_append b rfl, toI_decimal]
      exact_mod_cast this
    have hifrees : ∀ i ∈ ifrees r.text, i < 2 ^ 32 := by
      unfold ifrees LineReport.text
      rw [scan_ifree hline, List.map_map, List.forall_mem_map]
      intro n hn
      have := hfree.2 n hn
      rw [Function.comp_apply, text_ifree, firstDigits_append n rfl, toI_decimal]
      exact_mod_cast this
    have hnumbers : ∀ i ∈ numbers r.text, i < 2 ^ 32 := by
      unfold numbers LineReport.text
      rw [scan_inode hline, List.map_map, List.forall_mem_map]
      intro q hq
      have := (hr.inodes q hq).1
      rw [Function.comp_apply, numberOf_text (plain_of_mem_inodes hq)]
      exact_mod_cast this
    have hpointers : ∀ i ∈ pointers r.text, i < 2 ^ 32 := by
      unfold pointers LineReport.text
      rw [scan_inode hline, List.flatMap_map]
      intro i hi
      obtain ⟨q, hq, hi⟩ := List.mem_flatMap.mp hi
      exact pointersOf_text_lt (plain_of_mem_inodes hq) (hr.inodes q hq).2 i hi
    have hrefs : ∀ i ∈ (pointerLines r.text).map PointerLine.refBlock, i < 2 ^ 32 := by
      unfold pointerLines LineReport.text
      rw [scan_indirect hline, List.map_filterMap, List.filterMap_map]
      intro i hi
      obtain ⟨x, hx, hi⟩ := List.mem_filterMap.mp hi
      rw [Function.comp_apply, refBlock_text, Option.some.injEq] at hi
      have := hr.indirects x hx
      rw [← hi]
      exact_mod_cast this
    unfold stored
    simp only [List.forall_mem_append]
    exact ⟨⟨⟨⟨fun i hi => (hbfrees i hi).trans hmax, fun i hi => (hifrees i hi).trans hmax⟩,
      fun i hi => (hnumbers i hi).trans hmax⟩, fun i hi => (hpointers i hi).trans hmax⟩,
      fun i hi => (hrefs i hi).trans hmax⟩
  · unfold LineReport.text
    rw [scan_dirent hline, List.forall_mem_map]
    intro e he
    have hinode : (entryOf (Record.dirent e).text).inode = e.inode := by
      have hfield : field e.fields 3 = decimal e.inode := rfl
      unfold entryOf
      dsimp only
      rw [field_dirent e (by decide : 3 < 6), hfield, toI_decimal]
    have := hr.dirents e he
    rw [hinode]
    omega

end LowLevelTasks.ArraySizes
