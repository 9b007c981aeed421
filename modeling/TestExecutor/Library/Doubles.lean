import Mathlib.Algebra.Order.Field.Rat
import Mathlib.Data.Int.Log
import Mathlib.Data.Rat.Floor
import Mathlib.Tactic.Linarith
import Mathlib.Tactic.NormNum
import Mathlib.Tactic.Positivity
import Mathlib.Tactic.Ring

/-!
# Double precision

A `double` operation gives the exact result, rounded to 53 binary digits, to the nearest and to the
even one of two.  Results that overflow, and those below the normal numbers, are left out.

* `roundEven`, `abs_roundEven_sub` — the nearest integer;
* `lastPlace`, `roundDouble` — the value of the last digit, and the nearest `double`;
* `abs_roundDouble_sub` — the relative error of a rounding;
* `roundDouble_natCast` — small integers are `double`s.
-/

namespace TestExecutor.Library

/-! ### Integers -/

/-- The nearest integer, and the even one of two. -/
def roundEven (x : ℚ) : ℤ :=
  if 2 * Int.fract x < 1 ∨ (2 * Int.fract x = 1 ∧ ⌊x⌋ % 2 = 0) then ⌊x⌋ else ⌊x⌋ + 1

@[simp] theorem roundEven_intCast (n : ℤ) : roundEven n = n := by
  simp [roundEven]

theorem abs_roundEven_sub (x : ℚ) : |(roundEven x : ℚ) - x| ≤ 1 / 2 := by
  have hfract : x = ⌊x⌋ + Int.fract x := (Int.floor_add_fract x).symm
  have hpos := Int.fract_nonneg x
  have hlt := Int.fract_lt_one x
  rw [roundEven, abs_le]
  split
  · rename_i h
    have hhalf : 2 * Int.fract x ≤ 1 := by
      rcases h with h | h
      · exact le_of_lt h
      · exact le_of_eq h.1
    constructor <;> linarith
  · rename_i h
    have hhalf : 1 ≤ 2 * Int.fract x := not_lt.mp fun hless => h (Or.inl hless)
    push_cast
    constructor <;> linarith

/-! ### The nearest double -/

/-- The value of the last of 53 digits. -/
def lastPlace (x : ℚ) : ℚ := (2 : ℚ) ^ (Int.log 2 |x| - 52)

/-- The nearest `double`. -/
def roundDouble (x : ℚ) : ℚ := roundEven (x / lastPlace x) * lastPlace x

variable {x : ℚ}

theorem lastPlace_pos (x : ℚ) : 0 < lastPlace x := by
  rw [lastPlace]
  exact zpow_pos two_pos _

/-- A power of two that is not above a number, and the next one above it. -/
theorem log_two_eq {z : ℤ} (hle : (2 : ℚ) ^ z ≤ x) (hlt : x < (2 : ℚ) ^ (z + 1)) :
    Int.log 2 x = z := by
  have hpos : 0 < x := lt_of_lt_of_le (zpow_pos two_pos z) hle
  have hlower : z ≤ Int.log 2 x := (Int.zpow_le_iff_le_log Nat.one_lt_two hpos).mp hle
  have hupper : Int.log 2 x < z + 1 := (Int.lt_zpow_iff_log_lt Nat.one_lt_two hpos).mp hlt
  omega

theorem lastPlace_le (hx : x ≠ 0) : lastPlace x * 2 ^ 52 ≤ |x| := by
  have hpow : lastPlace x * 2 ^ 52 = (2 : ℚ) ^ Int.log 2 |x| := by
    rw [lastPlace, ← zpow_natCast, ← zpow_add₀ two_ne_zero]
    norm_num
  rw [hpow]
  exact Int.zpow_log_le_self Nat.one_lt_two (abs_pos.mpr hx)

/-- The error is at most half of the last place. -/
theorem abs_roundDouble_sub_le (x : ℚ) : |roundDouble x - x| ≤ lastPlace x / 2 := by
  have hpos := lastPlace_pos x
  have hsplit : roundDouble x - x = (roundEven (x / lastPlace x) - x / lastPlace x) * lastPlace x := by
    rw [roundDouble, sub_mul, div_mul_cancel₀ _ (ne_of_gt hpos)]
  rw [hsplit, abs_mul, abs_of_pos hpos]
  calc |(roundEven (x / lastPlace x) : ℚ) - x / lastPlace x| * lastPlace x
      ≤ 1 / 2 * lastPlace x := mul_le_mul_of_nonneg_right (abs_roundEven_sub _) (le_of_lt hpos)
    _ = lastPlace x / 2 := by ring

/-- **The relative error of a rounding.** -/
theorem abs_roundDouble_sub (x : ℚ) (hx : x ≠ 0) : |roundDouble x - x| ≤ |x| / 2 ^ 53 := by
  have herror := abs_roundDouble_sub_le x
  have hplace := lastPlace_le hx
  rw [le_div_iff₀ (by positivity)]
  linarith

/-- **Small integers are `double`s.** -/
theorem roundDouble_natCast {n : ℕ} (h : n < 2 ^ 53) : roundDouble n = n := by
  rcases Nat.eq_zero_or_pos n with rfl | hpos
  · simp [roundDouble, roundEven]
  · have hlog : Nat.log 2 n ≤ 52 := by
      have := (Nat.log_lt_iff_lt_pow Nat.one_lt_two (Nat.ne_of_gt hpos)).mpr h
      omega
    have hplace : lastPlace (n : ℚ) = ((2 : ℚ) ^ (52 - Nat.log 2 n))⁻¹ := by
      rw [lastPlace, Nat.abs_cast, Int.log_natCast, ← zpow_natCast, ← zpow_neg]
      congr 1
      omega
    have hquotient : (n : ℚ) / lastPlace n = ((n * 2 ^ (52 - Nat.log 2 n) : ℕ) : ℤ) := by
      rw [hplace, div_inv_eq_mul]
      push_cast
      rfl
    rw [roundDouble, hquotient, roundEven_intCast, ← hquotient,
      div_mul_cancel₀ _ (ne_of_gt (lastPlace_pos _))]

/-- `0.58` in double precision is a little too small. -/
example : roundDouble (29 / 50) < 29 / 50 := by
  have hlog : Int.log 2 |(29 / 50 : ℚ)| = -1 := by
    rw [abs_of_pos (by norm_num)]
    exact log_two_eq (by norm_num) (by norm_num)
  rw [roundDouble, lastPlace, hlog, roundEven]
  norm_num

end TestExecutor.Library
