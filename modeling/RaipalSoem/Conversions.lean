import Mathlib.Tactic.SplitIfs
import Mathlib.Tactic.Ring

/-!
# Conversions between sizes and integers

`size_t` has 64 bits and `int` has 32. The code casts sizes to `int` for the calls of
the master library, and an `int` that is passed for a size is sign-extended.
-/

namespace RaipalSoem

/-- `static_cast<int>` of a size. -/
def intOfSize (size : Nat) : Int := (size : Int).bmod (2 ^ 32)

/-- The conversion of an `int` to `size_t`. -/
def sizeOfInt (value : Int) : Nat := (value % 2 ^ 64).toNat

/-- The cast never yields more than the size itself. -/
theorem intOfSize_le (size : Nat) : intOfSize size ≤ size := by
  unfold intOfSize
  rw [Int.bmod_def]
  split_ifs <;> omega

/-- The cast yields an `int`. -/
theorem intOfSize_lt (size : Nat) : intOfSize size < 2 ^ 31 := by
  unfold intOfSize
  rw [Int.bmod_def]
  split_ifs <;> omega

/-- A value that is not negative keeps its value as a size. -/
theorem sizeOfInt_natCast {value : Nat} (h : value < 2 ^ 64) : sizeOfInt value = value := by
  unfold sizeOfInt
  omega

/-- A negative `int` becomes a huge size. -/
theorem le_sizeOfInt_of_neg {value : Int} (h : value < 0) (hint : -2 ^ 31 ≤ value) :
    2 ^ 63 ≤ sizeOfInt value := by
  unfold sizeOfInt
  omega

end RaipalSoem
