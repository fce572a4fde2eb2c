/-
C's integer conversions: the value an integer takes when it is stored in, or converted to, a
fixed-width type. Arithmetic is done on unbounded integers and converted where the C code converts.
-/
import Mathlib.Tactic

namespace CS330.Lib

/-- Conversion to a signed 32-bit integer. -/
def i32 (x : ℤ) : ℤ := (x + 2 ^ 31) % 2 ^ 32 - 2 ^ 31

/-- Conversion to a signed 64-bit integer. -/
def i64 (x : ℤ) : ℤ := (x + 2 ^ 63) % 2 ^ 64 - 2 ^ 63

/-- Conversion to an unsigned 32-bit integer. -/
def u32 (x : ℤ) : ℕ := (x % 2 ^ 32).toNat

/-- Conversion to an unsigned 64-bit integer. -/
def u64 (x : ℤ) : ℕ := (x % 2 ^ 64).toNat

theorem i32_of_range {x : ℤ} (h : -2 ^ 31 ≤ x) (h' : x < 2 ^ 31) : i32 x = x := by
  unfold i32; omega

theorem u32_of_range {x : ℤ} (h : 0 ≤ x) (h' : x < 2 ^ 32) : (u32 x : ℤ) = x := by
  unfold u32; omega

@[simp] theorem u32_natCast {n : ℕ} (h : n < 2 ^ 32) : u32 n = n := by
  unfold u32; omega

@[simp] theorem u64_natCast {n : ℕ} (h : n < 2 ^ 64) : u64 n = n := by
  unfold u64; omega

theorem u32_lt (x : ℤ) : u32 x < 2 ^ 32 := by
  unfold u32; omega

end CS330.Lib
