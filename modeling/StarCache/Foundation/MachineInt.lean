import Mathlib.Data.Int.ModEq
import Mathlib.Tactic.Ring

/-!
# Fixed-width integers

Conversions of an exact integer to the fixed-width types of the program, and
the ranges on which they change nothing.
-/

namespace MachineInt

/-- Conversion to a 32-bit unsigned integer. -/
@[irreducible] def u32 (n : Int) : Nat := (n % 4294967296).toNat

/-- Conversion to a 64-bit unsigned integer. -/
@[irreducible] def u64 (n : Int) : Nat := (n % 18446744073709551616).toNat

/-- Conversion to a 32-bit signed integer. -/
@[irreducible] def i32 (n : Int) : Int := Int.bmod n 4294967296

/-- Conversion to a 64-bit signed integer. -/
@[irreducible] def i64 (n : Int) : Int := Int.bmod n 18446744073709551616

/-- The number is one of the signed 64-bit integers. -/
def fitsI64 (n : Int) : Bool := i64 n == n

theorem u32_natCast (n : Nat) : u32 n = n % 4294967296 := by
  unfold u32
  omega

theorem u64_natCast (n : Nat) : u64 n = n % 18446744073709551616 := by
  unfold u64
  omega

theorem u32_of_lt {n : Nat} (h : n < 4294967296) : u32 n = n := by
  rw [u32_natCast, Nat.mod_eq_of_lt h]

theorem u64_of_lt {n : Nat} (h : n < 18446744073709551616) : u64 n = n := by
  rw [u64_natCast, Nat.mod_eq_of_lt h]

theorem u32_lt (n : Int) : u32 n < 4294967296 := by
  unfold u32
  omega

theorem u64_lt (n : Int) : u64 n < 18446744073709551616 := by
  unfold u64
  omega

/-- A product and a 32-bit result see only the low 32 bits of an `int`. -/
theorem u32_add_i32_mul (a n m : Int) : u32 (a + i32 n * m) = u32 (a + n * m) := by
  have hmod : i32 n ≡ n [ZMOD 4294967296] := by
    unfold i32
    exact Int.bmod_emod
  unfold u32
  rw [((hmod.mul_right m).add_left a).eq]

theorem u32_i32 (n : Int) : u32 (i32 n) = u32 n := by
  simpa using u32_add_i32_mul 0 n 1

theorem i32_of_lt {n : Nat} (h : n < 2147483648) : i32 n = n := by
  unfold i32
  rw [Int.bmod_def]
  split <;> omega

theorem i64_eq {n : Int} (hle : -2 ^ 63 ≤ n) (hlt : n < 2 ^ 63) : i64 n = n := by
  unfold i64
  rw [Int.bmod_def]
  split <;> omega

theorem fitsI64_iff {n : Int} : fitsI64 n = true ↔ i64 n = n := beq_iff_eq

end MachineInt
