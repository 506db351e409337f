import Mathlib.Data.Int.Log
import Mathlib.Data.Rat.Floor
import Mathlib.Tactic.FieldSimp
import Mathlib.Tactic.Linarith
import Mathlib.Tactic.NormNum

/-!
The rounded-up quotient of two integers as `fdiv` and `ceil` compute it: the quotient is
rounded to a double first. For operands below `2 ^ 53` the rounding does not show.
-/

namespace LowLevelTasks.RubyFloat

/-- The nearest integer, and the even one of two that are as near. -/
def roundHalfEven (x : ℚ) : ℤ :=
  if Int.fract x < 1 / 2 then ⌊x⌋
  else if 1 / 2 < Int.fract x then ⌊x⌋ + 1
  else if ⌊x⌋ % 2 = 0 then ⌊x⌋
  else ⌊x⌋ + 1

/-- The distance of the doubles around a number. -/
def ulp (x : ℚ) : ℚ := 2 ^ max (Int.log 2 |x| - 52) (-1074)

def toDouble (x : ℚ) : ℚ := roundHalfEven (x / ulp x) * ulp x

/-- `x.fdiv(y).ceil`, which fails where the quotient is infinite or not a number. -/
def fdivCeil (x y : ℤ) : Option ℤ :=
  if y = 0 ∨ 2 ^ 1024 ≤ |toDouble (x / y)| then none else some ⌈toDouble (x / y)⌉

@[simp] lemma roundHalfEven_intCast (n : ℤ) : roundHalfEven n = n := by
  simp [roundHalfEven]

lemma abs_roundHalfEven_sub_le (x : ℚ) : |(roundHalfEven x : ℚ) - x| ≤ 1 / 2 := by
  have hx := Int.floor_add_fract x
  have h0 := Int.fract_nonneg x
  have h1 := Int.fract_lt_one x
  unfold roundHalfEven
  rw [abs_le]
  split_ifs <;> push_cast <;> constructor <;> linarith

section

variable {x y : ℕ}

lemma ulp_pos (q : ℚ) : 0 < ulp q := zpow_pos two_pos _

/-- Quotients of operands below `2 ^ 53` are far from the smallest doubles. -/
lemma ulp_eq (hx : 0 < x) (hy : 0 < y) (hy' : y < 2 ^ 53) :
    ulp (x / y : ℚ) = 2 ^ (Int.log 2 (x / y : ℚ) - 52) := by
  have hq : (0 : ℚ) < x / y := by positivity
  have hlog : -53 ≤ Int.log 2 (x / y : ℚ) := by
    rw [← Int.zpow_le_iff_le_log (by omega) hq]
    have hy1 : (y : ℚ) ≤ 2 ^ 53 := by exact_mod_cast hy'.le
    have hx1 : (1 : ℚ) ≤ x := by exact_mod_cast hx
    rw [zpow_neg, le_div_iff₀ (by positivity)]
    calc ((2 : ℕ) ^ (53 : ℤ) : ℚ)⁻¹ * y ≤ ((2 : ℕ) ^ (53 : ℤ) : ℚ)⁻¹ * 2 ^ 53 := by gcongr
      _ = 1 := by norm_num
      _ ≤ x := hx1
  unfold ulp
  rw [abs_of_pos hq, max_eq_left (by omega)]

/-- The error of the rounding, relative to the quotient. -/
lemma abs_toDouble_sub_le (hx : 0 < x) (hy : 0 < y) (hy' : y < 2 ^ 53) :
    |toDouble (x / y : ℚ) - x / y| ≤ x / y / 2 ^ 53 := by
  have hq : (0 : ℚ) < x / y := by positivity
  have hu := ulp_pos (x / y : ℚ)
  have hlog : (2 : ℚ) ^ Int.log 2 (x / y : ℚ) ≤ x / y := by
    exact_mod_cast Int.zpow_log_le_self Nat.one_lt_two hq
  have hround := abs_roundHalfEven_sub_le (x / y / ulp (x / y) : ℚ)
  have herr : toDouble (x / y : ℚ) - x / y =
      (roundHalfEven (x / y / ulp (x / y) : ℚ) - x / y / ulp (x / y)) * ulp (x / y) := by
    unfold toDouble
    rw [sub_mul, div_mul_cancel₀ _ hu.ne']
  calc |toDouble (x / y : ℚ) - x / y|
      ≤ 1 / 2 * ulp (x / y : ℚ) := by
        rw [herr, abs_mul, abs_of_pos hu]
        gcongr
    _ = 2 ^ Int.log 2 (x / y : ℚ) / 2 ^ 53 := by
        rw [ulp_eq hx hy hy', zpow_sub₀ (by norm_num)]
        norm_num
        ring
    _ ≤ x / y / 2 ^ 53 := by gcongr

/-- Whole numbers below `2 ^ 53` are doubles. -/
lemma toDouble_natCast {n : ℕ} (hn : n < 2 ^ 53) : toDouble n = n := by
  rcases Nat.eq_zero_or_pos n with rfl | hpos
  · simp [toDouble, roundHalfEven]
  have hlog : Int.log 2 (n : ℚ) = Nat.log 2 n := by
    rw [Int.log_natCast]
  have hle : Nat.log 2 n ≤ 52 := by
    have := Nat.log_lt_of_lt_pow hpos.ne' hn
    omega
  have hu : ulp n = ((2 : ℚ) ^ (52 - Nat.log 2 n))⁻¹ := by
    unfold ulp
    rw [abs_of_nonneg (by positivity), hlog, max_eq_left (by omega), ← zpow_natCast,
      ← zpow_neg]
    congr 1
    omega
  have hint : (n : ℚ) / ulp n = ((n * 2 ^ (52 - Nat.log 2 n) : ℕ) : ℤ) := by
    rw [hu, div_inv_eq_mul]
    push_cast
    rfl
  unfold toDouble
  rw [hint, roundHalfEven_intCast, ← hint, div_mul_cancel₀ _ (ulp_pos _).ne']

/-- **The rounding does not show** below `2 ^ 53`. -/
theorem fdivCeil_natCast (hx : x < 2 ^ 53) (hy : 0 < y) (hy' : y < 2 ^ 53) :
    fdivCeil x y = some ⌈(x / y : ℚ)⌉ := by
  rcases Nat.eq_zero_or_pos x with rfl | hpos
  · simp [fdivCeil, toDouble, roundHalfEven, hy.ne']
  have hy0 : (0 : ℚ) < y := by exact_mod_cast hy
  obtain ⟨k, hk⟩ : ∃ k : ℕ, ⌈(x / y : ℚ)⌉ = k :=
    Int.eq_ofNat_of_zero_le (Int.ceil_nonneg (by positivity))
  obtain ⟨hlo, hhi⟩ := Int.ceil_eq_iff.mp hk
  rw [lt_div_iff₀ hy0] at hlo
  rw [div_le_iff₀ hy0] at hhi
  have hlo' : ((k : ℤ) - 1) * y + 1 ≤ x := Int.add_one_le_of_lt (by exact_mod_cast hlo)
  have hhi' : x ≤ k * y := by exact_mod_cast hhi
  -- a quotient that is not whole is at least `1 / y` away from the whole numbers around it
  have herr : |toDouble (x / y : ℚ) - x / y| < 1 / y := by
    refine (abs_toDouble_sub_le hpos hy hy').trans_lt ?_
    have hx' : (x : ℚ) < 2 ^ 53 := by exact_mod_cast hx
    rw [div_right_comm]
    gcongr
    exact (div_lt_one (by positivity)).mpr hx'
  obtain ⟨h1, h2⟩ := abs_lt.mp herr
  have hlower : (k : ℚ) - 1 < toDouble (x / y) := by
    have : (k : ℚ) - 1 ≤ x / y - 1 / y := by
      rw [← sub_div, le_div_iff₀ hy0]
      have : (((k : ℤ) - 1) * y + 1 : ℚ) ≤ x := by exact_mod_cast hlo'
      push_cast at this
      linarith
    linarith
  have hupper : toDouble (x / y : ℚ) ≤ k := by
    rcases hhi'.eq_or_lt with heq | hlt
    · have hkx : k ≤ x := heq ▸ Nat.le_mul_of_pos_right k hy
      have : (x / y : ℚ) = k := by
        rw [heq]
        push_cast
        field_simp
      rw [this, toDouble_natCast (by omega)]
    · have : (x / y : ℚ) + 1 / y ≤ k := by
        rw [← add_div, div_le_iff₀ hy0]
        exact_mod_cast hlt
      linarith
  have hkbig : (k : ℚ) < 2 ^ 54 := by
    have : (x : ℚ) / y ≤ x := div_le_self (by positivity) (by exact_mod_cast hy)
    have : (x : ℚ) < 2 ^ 53 := by exact_mod_cast hx
    have hceil := Int.ceil_lt_add_one (x / y : ℚ)
    rw [hk] at hceil
    push_cast at hceil
    linarith
  have hfinite : |toDouble (x / y : ℚ)| < 2 ^ 1024 := by
    have hk0 : (0 : ℚ) ≤ k := Nat.cast_nonneg k
    have hle : |toDouble (x / y : ℚ)| ≤ 2 ^ 54 := abs_le.mpr ⟨by linarith, by linarith⟩
    exact hle.trans_lt (pow_lt_pow_right₀ (by norm_num) (by omega))
  unfold fdivCeil
  push_cast
  rw [if_neg (by rw [not_or, not_le]; exact ⟨by omega, hfinite⟩), hk]
  exact congrArg some (Int.ceil_eq_iff.mpr ⟨by exact_mod_cast hlower, by exact_mod_cast hupper⟩)

end

end LowLevelTasks.RubyFloat
