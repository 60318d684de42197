import Mathlib.Algebra.Order.Ring.Int

/-! Conversions to the fixed-width integer types of C. -/
namespace Acos.MachineInt

/-- Conversion to `int32_t`. -/
def i32 (x : ℤ) : ℤ := (x + 2 ^ 31) % 2 ^ 32 - 2 ^ 31

/-- Conversion to `uint32_t`. -/
def u32 (x : ℤ) : ℤ := x % 2 ^ 32

/-- Conversion to `int64_t`. -/
def i64 (x : ℤ) : ℤ := (x + 2 ^ 63) % 2 ^ 64 - 2 ^ 63

/-- Conversion to `uint64_t` and `size_t`. -/
def u64 (x : ℤ) : ℤ := x % 2 ^ 64

theorem i32_of_range {x : ℤ} (hlo : -2 ^ 31 ≤ x) (hhi : x < 2 ^ 31) : i32 x = x := by
  unfold i32
  omega

theorem u32_of_range {x : ℤ} (hlo : 0 ≤ x) (hhi : x < 2 ^ 32) : u32 x = x := by
  unfold u32
  omega

theorem i64_of_range {x : ℤ} (hlo : -2 ^ 63 ≤ x) (hhi : x < 2 ^ 63) : i64 x = x := by
  unfold i64
  omega

theorem u64_of_range {x : ℤ} (hlo : 0 ≤ x) (hhi : x < 2 ^ 64) : u64 x = x := by
  unfold u64
  omega

theorem i32_natCast {k : ℕ} (h : k < 2 ^ 31) : i32 k = k := i32_of_range (by omega) (by omega)

theorem i32_natCast_cases {k : ℕ} (h : k < 2 ^ 32) : i32 k = k ∨ i32 k = k - 2 ^ 32 := by
  unfold i32
  omega

theorem u32_natCast {k : ℕ} (h : k < 2 ^ 32) : u32 k = k := u32_of_range (by omega) (by omega)

end Acos.MachineInt
