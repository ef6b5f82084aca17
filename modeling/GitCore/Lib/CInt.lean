import Mathlib.Algebra.Order.Ring.Int
import Mathlib.Data.Nat.Bitwise

/-! # Conversions to and from `int`

An unsigned number that is stored in an `int` of 32 bits, and an `int` that becomes an
`unsigned long` of 64 bits again. -/

namespace GitCore

/-- A number as it is stored in an `int`. -/
def toInt32 (n : Nat) : Int :=
  if n % 2 ^ 32 < 2 ^ 31 then ((n % 2 ^ 32 : Nat) : Int) else ((n % 2 ^ 32 : Nat) : Int) - 2 ^ 32

/-- An `int` as an `unsigned long`. -/
def toULong (i : Int) : Nat := (i % 2 ^ 64).toNat

variable {n : Nat}

theorem toInt32_of_lt (h : n < 2 ^ 31) : toInt32 n = n := by
  have hmod : n % 2 ^ 32 = n := Nat.mod_eq_of_lt (by omega)
  rw [toInt32, hmod, if_pos h]

theorem toInt32_lt (n : Nat) : toInt32 n < 2 ^ 31 := by
  unfold toInt32
  split <;> omega

theorem toInt32_le (n : Nat) : toInt32 n ≤ n := by
  unfold toInt32
  split <;> omega

/-- The upper half of 32 bits becomes negative. -/
theorem toInt32_of_le (h : 2 ^ 31 ≤ n) (h' : n < 2 ^ 32) :
    toInt32 n = (n : Int) - 2 ^ 32 := by
  rw [toInt32, Nat.mod_eq_of_lt h', if_neg (Nat.not_lt.mpr h)]

/-- **A mask of 32 bits survives the way through an `int`**: the bits that the sign adds are not in
the mask. -/
theorem and_toULong_toInt32 (h : n < 2 ^ 32) : n &&& toULong (toInt32 n) = n := by
  by_cases hsmall : n < 2 ^ 31
  · have hsame : toULong (toInt32 n) = n := by
      rw [toInt32_of_lt hsmall, toULong]
      omega
    rw [hsame, Nat.and_self]
  have hsign : toULong (toInt32 n) = 2 ^ 32 * (2 ^ 32 - 1) + n := by
    rw [toInt32_of_le (Nat.le_of_not_lt hsmall) h, toULong]
    omega
  apply Nat.eq_of_testBit_eq
  intro i
  rw [hsign, Nat.testBit_and, Nat.testBit_two_pow_mul_add _ h]
  by_cases hi : i < 32
  · rw [if_pos hi, Bool.and_self]
  · rw [Nat.testBit_lt_two_pow (h.trans_le (Nat.pow_le_pow_right Nat.two_pos (Nat.le_of_not_lt hi))),
      Bool.false_and]

end GitCore
