import Mathlib

/-!
# LlmPager.Lib.Machine

Numbers cut to the integers of a machine: a `usize` handed over as an `i32`,
products that wrap, indices that are a `size_t`. Each is the number itself as
long as it fits.
-/

namespace LlmPager.Lib

/-- `n as i32`. -/
def asI32 (n : Nat) : Int := Int.bmod n (2 ^ 32)

/-- The value of an `i32` sum or product. -/
def wrapI32 (x : Int) : Int := Int.bmod x (2 ^ 32)

/-- The value of a `size_t` expression. -/
def sizeT (x : Int) : Nat := (x % 2 ^ 64).toNat

/-- `x as u8`. -/
def asU8 (x : Int) : UInt8 := UInt8.ofNat (x % 256).toNat

theorem asI32_of_lt {n : Nat} (h : n < 2 ^ 31) : asI32 n = n := by
  unfold asI32
  rw [Int.bmod_eq_of_le] <;> omega

theorem wrapI32_of_lt {n : Nat} (h : n < 2 ^ 31) : wrapI32 n = n := asI32_of_lt h

theorem sizeT_of_lt {n : Nat} (h : n < 2 ^ 64) : sizeT n = n := by
  unfold sizeT
  omega

end LlmPager.Lib
