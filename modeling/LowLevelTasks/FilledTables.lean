import LowLevelTasks.Folds
import LowLevelTasks.RubyArray

/-!
Arrays that are filled by writes to indices from either end. An index from the end stands for
another place once the array has grown, and one that lies before the first element is refused.
-/

namespace LowLevelTasks.FilledTables

open LowLevelTasks.Folds LowLevelTasks.RubyArray

/-- The length after these writes. -/
def lengthAfter (length : ℕ) (is : List ℤ) : ℕ := is.foldl grow length

/-- Behind these writes the index lies before the first element. -/
def Before (length : ℕ) (u : List ℤ) (i : ℤ) : Prop := i < -(lengthAfter length u : ℤ)

instance {length : ℕ} {u : List ℤ} {i : ℤ} : Decidable (Before length u i) :=
  inferInstanceAs (Decidable (_ < _))

/-- One of the writes was to this place. -/
def Placed (length : ℕ) (is : List ℤ) (p : ℕ) : Prop :=
  Somewhere (fun u i => position (lengthAfter length u) i = some p) is

variable {α : Type} {length p : ℕ} {is : List ℤ} {i : ℤ} {xs ys : List (Option α)} {c : α}

@[simp] lemma lengthAfter_nil : lengthAfter length [] = length := rfl

@[simp] lemma lengthAfter_concat :
    lengthAfter length (is ++ [i]) = grow (lengthAfter length is) i := by
  simp [lengthAfter]

@[simp] lemma placed_nil : ¬ Placed length [] p := somewhere_nil

lemma placed_concat : Placed length (is ++ [i]) p ↔
    Placed length is p ∨ position (lengthAfter length is) i = some p := somewhere_concat

/-- The table is as long as the writes have made it, it has marked cells where they were, and the
other cells that hold something are those of `known`. -/
structure Filled (marked : α → Prop) (length : ℕ) (known : ℕ → Prop) (written : List ℤ)
    (xs : List (Option α)) : Prop where
  length_eq : xs.length = lengthAfter length written
  marked : ∀ p : ℕ, (∃ c, get xs p = some c ∧ marked c) ↔ Placed length written p
  known : ∀ p : ℕ, get xs p ≠ none ↔ known p ∨ Placed length written p

variable {marked : α → Prop} {known : ℕ → Prop} {written : List ℤ}

/-- Before the first write of a mark. -/
lemma filled_nil (hlength : xs.length = length)
    (h : ∀ p : ℕ, ∀ c, get xs p = some c → ¬ marked c)
    (hknown : ∀ p : ℕ, get xs p ≠ none ↔ known p) : Filled marked length known [] xs where
  length_eq := hlength
  marked p := iff_of_false (fun ⟨c, hc, hm⟩ => h p c hc hm) placed_nil
  known p := by simpa using hknown p

/-- A run of writes from the front. -/
lemma puts_spec (xs : List (Option α)) (c : α) (h : ∀ i ∈ is, 0 ≤ i) :
    ∃ ys, is.foldlM (fun xs i => put xs i c) xs = some ys ∧
      ys.length = lengthAfter xs.length is ∧
        ∀ p : ℕ, get ys p = if (p : ℤ) ∈ is then some c else get xs p := by
  refine foldlM_inv (p := fun u (ys : List (Option α)) => ys.length = lengthAfter xs.length u ∧
    ∀ p : ℕ, get ys p = if (p : ℤ) ∈ u then some c else get xs p) ?_ ⟨rfl, fun p => by simp⟩
  rintro u i v ys rfl ⟨hlength, hget⟩
  obtain ⟨n, rfl⟩ := Int.eq_ofNat_of_zero_le (h i (by simp))
  obtain ⟨zs, hzs, hlength', hget'⟩ := put_position c (position_natCast ys.length n)
  refine ⟨zs, hzs, by rw [hlength', hlength, lengthAfter_concat], fun p => ?_⟩
  rw [hget', hget]
  by_cases hp : p = n
  · simp [hp]
  · have hp' : (p : ℤ) ≠ n := by omega
    simp [hp, hp']

/-- **One write** of a marked cell, which fails where the index lies before the first element. -/
theorem Filled.put (hf : Filled marked length known written xs) (hc : marked c) (i : ℤ) :
    (Before length written i → put xs i c = none) ∧
      (¬ Before length written i → ∃ ys, put xs i c = some ys ∧
        Filled marked length known (written ++ [i]) ys) := by
  unfold Before
  rw [← hf.length_eq]
  refine ⟨fun hi => put_eq_none_iff.mpr hi, fun hi => ?_⟩
  obtain ⟨n, hn⟩ := exists_position (Int.not_lt.mp hi)
  obtain ⟨ys, hys, hlength, hget⟩ := put_position c hn
  have hplaced : ∀ p, Placed length (written ++ [i]) p ↔ Placed length written p ∨ p = n :=
    fun p => by
      rw [placed_concat, ← hf.length_eq, hn, Option.some.injEq, eq_comm (a := n)]
  refine ⟨ys, hys, ?_, fun p => ?_, fun p => ?_⟩
  · rw [hlength, hf.length_eq, lengthAfter_concat]
  · rw [hplaced, hget]
    by_cases hp : p = n
    · simp [hp, hc]
    · simp only [hp, if_false, or_false]
      exact hf.marked p
  · rw [hplaced, hget]
    by_cases hp : p = n
    · simp [hp]
    · simp only [hp, if_false, or_false]
      exact hf.known p

/-- A marked cell is written over by another one. -/
lemma Filled.overwrite (hf : Filled marked length known written xs) (hc : marked c)
    (hi : ∃ d, get xs i = some d ∧ marked d) :
    ∃ ys, RubyArray.put xs i c = some ys ∧ Filled marked length known written ys := by
  obtain ⟨d, hd, hm⟩ := hi
  obtain ⟨n, hn, hd⟩ := exists_position_of_get hd
  have hplaced : Placed length written n := (hf.marked n).mp ⟨d, hd, hm⟩
  have hlt : n < xs.length := by
    by_contra hge
    rw [get_natCast, List.getElem?_eq_none (not_lt.mp hge)] at hd
    cases hd
  obtain ⟨ys, hys, hlength, hget⟩ := put_position c hn
  refine ⟨ys, hys, ?_, fun p => ?_, fun p => ?_⟩
  · rw [hlength, grow_eq hn, max_eq_left hlt, hf.length_eq]
  · rw [hget]
    by_cases hp : p = n
    · simp [hp, hc, hplaced]
    · rw [if_neg hp]
      exact hf.marked p
  · rw [hget]
    by_cases hp : p = n
    · simp [hp, hplaced]
    · rw [if_neg hp]
      exact hf.known p

/-- A cell is marked if its index stands for a place that has been written to. -/
lemma Filled.get_marked (hf : Filled marked length known written xs) :
    (∃ c, get xs i = some c ∧ marked c) ↔
      ∃ p, position (lengthAfter length written) i = some p ∧ Placed length written p := by
  rw [← hf.length_eq, get_eq_bind]
  constructor
  · rintro ⟨c, hc, hm⟩
    obtain ⟨p, hp, hc⟩ := Option.bind_eq_some_iff.mp hc
    exact ⟨p, hp, (hf.marked p).mp ⟨c, hc, hm⟩⟩
  · rintro ⟨p, hp, hplaced⟩
    obtain ⟨c, hc, hm⟩ := (hf.marked p).mpr hplaced
    exact ⟨c, Option.bind_eq_some_iff.mpr ⟨p, hp, hc⟩, hm⟩

lemma Filled.get_known (hf : Filled marked length known written xs) :
    get xs i ≠ none ↔ ∃ p, position (lengthAfter length written) i = some p ∧
      (known p ∨ Placed length written p) := by
  rw [← hf.length_eq, get_eq_bind]
  simp only [← hf.known, Option.ne_none_iff_exists', Option.bind_eq_some_iff]
  tauto

end LowLevelTasks.FilledTables
