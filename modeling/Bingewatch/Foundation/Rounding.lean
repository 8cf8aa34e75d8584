import Mathlib.Algebra.Order.Ring.Rat
import Mathlib.Algebra.Order.Group.Abs
import Mathlib.Algebra.Order.Round
import Mathlib.Data.Int.Log
import Mathlib.Data.Rat.Floor
import Mathlib.Tactic.FieldSimp
import Mathlib.Tactic.Linarith

/-!
# Rounding to floating-point numbers

The numbers with `bits` significant binary digits, and the rounding of a rational number to the
nearest of them, the even one of two. The exponent has no bounds: this is the rounding of a
floating-point format as long as results neither overflow nor become subnormal.

An operation of the format is the exact operation with its result rounded once, so its error is the
one of `abs_roundTo_sub_le`, relative to the exact result.
-/

set_option autoImplicit false

namespace Bingewatch.Foundation

/-- The integer nearest to `x`, the even one of two. -/
def roundEven (x : Rat) : Int :=
  if round x - x = 1 / 2 ∧ round x % 2 = 1 then round x - 1 else round x

theorem abs_roundEven_sub_le (x : Rat) : |(roundEven x : Rat) - x| ≤ 1 / 2 := by
  unfold roundEven
  split
  · next tie =>
      push_cast
      have low : (round x : Rat) - 1 - x = -(1 / 2) := by linarith [tie.1]
      rw [low, abs_neg, abs_of_nonneg (by norm_num)]
  · rw [abs_sub_comm]
    exact abs_sub_round x

theorem roundEven_nonneg {x : Rat} (positive : 0 ≤ x) : 0 ≤ roundEven x := by
  have near := (abs_le.mp (abs_roundEven_sub_le x)).1
  by_contra negative
  have low : (roundEven x : Rat) ≤ -1 := by exact_mod_cast (by omega : roundEven x ≤ -1)
  linarith

/-- The distance of the numbers with `bits` digits around `x`. -/
def unitAt (bits : Nat) (x : Rat) : Rat := 2 ^ (Int.log 2 |x| + 1 - bits)

theorem unitAt_pos (bits : Nat) (x : Rat) : 0 < unitAt bits x :=
  zpow_pos (by norm_num) _

theorem unitAt_le (bits : Nat) {x : Rat} (nonzero : x ≠ 0) :
    unitAt bits x ≤ 2 * |x| / 2 ^ bits := by
  have power : ((2 : Nat) : Rat) ^ Int.log 2 |x| ≤ |x| :=
    Int.zpow_log_le_self (by norm_num) (abs_pos.mpr nonzero)
  rw [unitAt, zpow_sub₀ (by norm_num), zpow_add₀ (by norm_num), zpow_one, zpow_natCast]
  have power : (2 : Rat) ^ Int.log 2 |x| * 2 ≤ 2 * |x| := by
    push_cast at power
    linarith
  gcongr

/-- The number with `bits` digits nearest to `x`. -/
def roundTo (bits : Nat) (x : Rat) : Rat := roundEven (x / unitAt bits x) * unitAt bits x

theorem roundTo_nonneg (bits : Nat) {x : Rat} (positive : 0 ≤ x) : 0 ≤ roundTo bits x := by
  have unit := unitAt_pos bits x
  have whole : (0 : Rat) ≤ roundEven (x / unitAt bits x) := by
    exact_mod_cast roundEven_nonneg (div_nonneg positive unit.le)
  exact mul_nonneg whole unit.le

/-- The error of one rounding. -/
theorem abs_roundTo_sub_le (bits : Nat) (x : Rat) : |roundTo bits x - x| ≤ |x| / 2 ^ bits := by
  rcases eq_or_ne x 0 with rfl | nonzero
  · simp [roundTo, roundEven]
  have unit := unitAt_pos bits x
  have split : roundTo bits x - x =
      ((roundEven (x / unitAt bits x) : Rat) - x / unitAt bits x) * unitAt bits x := by
    rw [roundTo, sub_mul, div_mul_cancel₀ _ unit.ne']
  calc |roundTo bits x - x|
      = |(roundEven (x / unitAt bits x) : Rat) - x / unitAt bits x| * unitAt bits x := by
        rw [split, abs_mul, abs_of_pos unit]
    _ ≤ 1 / 2 * (2 * |x| / 2 ^ bits) :=
        mul_le_mul (abs_roundEven_sub_le _) (unitAt_le bits nonzero) unit.le (by norm_num)
    _ = |x| / 2 ^ bits := by ring

/-- The same for a number that is not negative. -/
theorem roundTo_near (bits : Nat) {x : Rat} (positive : 0 ≤ x) :
    x - x / 2 ^ bits ≤ roundTo bits x ∧ roundTo bits x ≤ x + x / 2 ^ bits := by
  have error := abs_le.mp (abs_roundTo_sub_le bits x)
  rw [abs_of_nonneg positive] at error
  constructor <;> linarith [error.1, error.2]

/-- With three digits, the numbers from 8 to 16 are the even ones: two ties, and 10.5. -/
example : roundTo 3 9 = 8 ∧ roundTo 3 11 = 12 ∧ roundTo 3 (21 / 2) = 10 := by decide +kernel

end Bingewatch.Foundation
