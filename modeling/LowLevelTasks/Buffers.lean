import Mathlib.Data.List.Basic
import Mathlib.Data.List.TakeWhile

/-!
Character buffers: copying a string of bounded length, and clearing the start of a buffer.
-/

namespace LowLevelTasks.Buffers

/-- The `n` bytes that `strncpy` writes: those before the first zero, then zeros. -/
def strncpy (n : ℕ) (src : List UInt8) : List UInt8 :=
  (src.take n).takeWhile (· ≠ 0) ++
    List.replicate (n - ((src.take n).takeWhile (· ≠ 0)).length) 0

/-- A buffer with its first bytes overwritten. -/
def overwrite (bytes buf : List UInt8) : List UInt8 := bytes ++ buf.drop bytes.length

def memset (n : ℕ) (buf : List UInt8) : List UInt8 := overwrite (List.replicate n 0) buf

variable {n : ℕ} {src buf bytes : List UInt8}

@[simp] lemma length_strncpy : (strncpy n src).length = n := by
  have hle : ((src.take n).takeWhile (· ≠ 0)).length ≤ n :=
    (List.takeWhile_prefix _).length_le.trans (List.length_take_le n src)
  unfold strncpy
  rw [List.length_append, List.length_replicate]
  omega

/-- Only the first `n` bytes of the source count. -/
lemma strncpy_take : strncpy n (src.take n) = strncpy n src := by
  unfold strncpy
  rw [List.take_take, Nat.min_self]

lemma strncpy_of_noNul (h : ∀ b ∈ src.take n, b ≠ 0) :
    strncpy n src = src.take n ++ List.replicate (n - (src.take n).length) 0 := by
  have htake : (src.take n).takeWhile (· ≠ 0) = src.take n :=
    List.takeWhile_eq_self_iff.mpr fun b hb => by simpa using h b hb
  unfold strncpy
  rw [htake]

/-- A buffer of `n` bytes that holds a line, with zeros behind it. -/
def padded (n : ℕ) (line : List UInt8) : List UInt8 :=
  line ++ List.replicate (n - line.length) 0

section

variable {line word : List UInt8} {b : UInt8}

@[simp] lemma padded_nil : padded n [] = List.replicate n 0 := rfl

@[simp] lemma take_padded : (padded n line).take line.length = line := by simp [padded]

lemma padded_of_lt (h : line.length < n) :
    padded n line = line ++ 0 :: List.replicate (n - (line.length + 1)) 0 := by
  unfold padded
  rw [← List.replicate_succ]
  congr 2
  omega

lemma padded_snoc (h : line.length < n) :
    (padded n line).set line.length b = padded n (line ++ [b]) := by
  rw [padded_of_lt h, List.set_append_right _ _ (Nat.le_refl _), Nat.sub_self,
    List.set_cons_zero]
  simp [padded]

lemma padded_dropLast (hne : line ≠ []) (h : line.length ≤ n) :
    (padded n line).set (line.length - 1) 0 = padded n line.dropLast := by
  obtain ⟨line, b, rfl⟩ := (List.eq_nil_or_concat line).resolve_left hne
  rw [List.concat_eq_append, List.length_append, List.length_singleton] at h
  rw [List.concat_eq_append, List.dropLast_concat, List.length_append, List.length_singleton,
    Nat.add_sub_cancel, ← padded_snoc (by omega), List.set_set, padded_of_lt (by omega),
    List.set_append_right _ _ (Nat.le_refl _), Nat.sub_self, List.set_cons_zero]

lemma memset_padded (h : line.length ≤ n) :
    memset line.length (padded n line) = List.replicate n 0 := by
  unfold memset overwrite padded
  rw [List.length_replicate, List.drop_left, List.replicate_append_replicate]
  congr 1
  omega

/-- A line is copied into a buffer of zeros. -/
lemma overwrite_padded (hzero : 0 ∉ line) :
    overwrite (strncpy line.length (padded n line)) (List.replicate n 0) = padded n line := by
  rw [strncpy_of_noNul (by rw [take_padded]; exact fun b hb => ne_of_mem_of_not_mem hb hzero)]
  simp [overwrite, padded]

/-- A word without zeros stands at the start of a buffer if it does in its line. -/
lemma prefix_padded (hzero : 0 ∉ word) : word <+: padded n line ↔ word <+: line := by
  refine ⟨fun h => ?_, fun h => h.trans (List.prefix_append _ _)⟩
  rcases Nat.le_total word.length line.length with hle | hle
  · exact List.prefix_of_prefix_length_le h (List.prefix_append _ _) hle
  · obtain ⟨rest, rfl⟩ := List.prefix_of_prefix_length_le (List.prefix_append _ _) h hle
    have hrest : rest <+: List.replicate (n - line.length) 0 :=
      (List.prefix_append_right_inj _).mp h
    cases rest with
    | nil => exact (List.append_nil line).symm ▸ List.prefix_rfl
    | cons b rest =>
      have hb := List.eq_of_mem_replicate (hrest.subset List.mem_cons_self)
      exact absurd (by simp [hb]) hzero

end

/-- A copy is faithful if nothing but zeros follows the first zero. -/
theorem strncpy_eq_self_iff :
    strncpy src.length src = src ↔ src.Pairwise fun a b => a = 0 → b = 0 := by
  unfold strncpy
  rw [List.take_length]
  induction src with
  | nil => simp
  | cons b src ih =>
    rw [List.pairwise_cons]
    by_cases hb : b = 0
    · subst hb
      rw [List.takeWhile_cons_of_neg (by simp), List.nil_append, List.length_nil, Nat.sub_zero,
        eq_comm, List.eq_replicate_iff]
      simp only [List.forall_mem_cons, true_and, true_implies]
      refine ⟨fun h => ⟨h, ?_⟩, fun h => h.1⟩
      exact List.pairwise_of_forall_mem_list fun _ _ c hc _ => h c hc
    · rw [List.takeWhile_cons_of_pos (by simpa using hb), List.length_cons, List.length_cons,
        Nat.add_sub_add_right, List.cons_append, List.cons.injEq, ih]
      simp [hb]

end LowLevelTasks.Buffers
