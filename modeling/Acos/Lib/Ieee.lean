import Mathlib.Algebra.Order.Field.Power
import Mathlib.Data.Rat.Defs
import Mathlib.Tactic.Linarith
import Mathlib.Tactic.Positivity
import Mathlib.Tactic.Ring

/-! Binary floating-point formats: what the bits of a number mean, and how the field of the exponent
tells how large it is. -/
namespace Acos.Ieee

/-- How many bits there are for the exponent and behind the point; one more is for the sign. -/
structure Format where
  exponentBits : ℕ
  fractionBits : ℕ
  deriving DecidableEq, Repr

/-- What a pattern stands for. There are two zeros. -/
inductive Datum where
  | nan (quiet : Bool)
  | infinity (negative : Bool)
  | number (negative : Bool) (value : ℚ)
  deriving DecidableEq, Repr

namespace Format

def bias (f : Format) : ℕ := 2 ^ (f.exponentBits - 1) - 1

/-- The exponent of the numbers that are no numbers. -/
def maxExponent (f : Format) : ℕ := 2 ^ f.exponentBits - 1

def negative (f : Format) (b : ℕ) : Bool := b / 2 ^ (f.exponentBits + f.fractionBits) % 2 = 1

def exponent (f : Format) (b : ℕ) : ℕ := b / 2 ^ f.fractionBits % 2 ^ f.exponentBits

def fraction (f : Format) (b : ℕ) : ℕ := b % 2 ^ f.fractionBits

/-- The least number that is written with a leading one. -/
def minNormal (f : Format) : ℚ := 2 ^ (1 - f.bias : ℤ)

/-- Without an exponent there is no leading one. -/
def magnitude (f : Format) (e m : ℕ) : ℚ :=
  if e = 0 then m / 2 ^ f.fractionBits * f.minNormal
  else (1 + m / 2 ^ f.fractionBits) * 2 ^ (e - f.bias : ℤ)

def datum (f : Format) (b : ℕ) : Datum :=
  if f.exponent b = f.maxExponent then
    if f.fraction b = 0 then .infinity (f.negative b)
    else .nan (2 ^ (f.fractionBits - 1) ≤ f.fraction b)
  else
    .number (f.negative b)
      (if f.negative b then -f.magnitude (f.exponent b) (f.fraction b)
      else f.magnitude (f.exponent b) (f.fraction b))

section
variable (f : Format) {e m : ℕ}

theorem minNormal_pos : 0 < f.minNormal := zpow_pos two_pos _

theorem magnitude_nonneg (e m : ℕ) : 0 ≤ f.magnitude e m := by
  have hmin := f.minNormal_pos
  unfold magnitude
  split <;> positivity

theorem magnitude_lt_iff (hm : m < 2 ^ f.fractionBits) :
    f.magnitude e m < f.minNormal ↔ e = 0 := by
  have hmin := f.minNormal_pos
  unfold magnitude
  split_ifs with he
  · have hfraction : (m : ℚ) / 2 ^ f.fractionBits < 1 := by
      rw [div_lt_one (by positivity)]
      exact_mod_cast hm
    have hless := mul_lt_mul_of_pos_right hfraction hmin
    rw [one_mul] at hless
    exact iff_of_true hless he
  · refine iff_of_false (not_lt.mpr ?_) he
    have hpower : f.minNormal ≤ 2 ^ (e - f.bias : ℤ) :=
      zpow_le_zpow_right₀ one_le_two (by omega)
    have hfraction : (1 : ℚ) ≤ 1 + m / 2 ^ f.fractionBits :=
      le_add_of_nonneg_right (by positivity)
    calc f.minNormal ≤ 2 ^ (e - f.bias : ℤ) := hpower
      _ = 1 * 2 ^ (e - f.bias : ℤ) := (one_mul _).symm
      _ ≤ (1 + m / 2 ^ f.fractionBits) * 2 ^ (e - f.bias : ℤ) :=
        mul_le_mul_of_nonneg_right hfraction (by positivity)

theorem magnitude_eq_zero_iff (e m : ℕ) : f.magnitude e m = 0 ↔ e = 0 ∧ m = 0 := by
  have hmin := f.minNormal_pos.ne'
  unfold magnitude
  split_ifs with he
  · simp [he, hmin]
  · have hpos : (0 : ℚ) < (1 + m / 2 ^ f.fractionBits) * 2 ^ (e - f.bias : ℤ) := by positivity
    simp [he, hpos.ne']

theorem fraction_lt (b : ℕ) : f.fraction b < 2 ^ f.fractionBits :=
  Nat.mod_lt b (Nat.two_pow_pos _)

end

end Format

/-- 64 bits. -/
def double : Format := ⟨11, 52⟩

end Acos.Ieee
