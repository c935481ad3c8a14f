-- SUMMARY: C's 32-bit integer conversions and rounding up to a multiple of four.
import Mathlib.Data.Nat.Bitwise
import Mathlib.Tactic.Common

/-!
# C integers

`int` values are integers and `unsigned` values naturals; a conversion reduces
them modulo 2^32. Where the value is in range the conversion is the identity.
-/

namespace CInt

/-- Conversion to `int`, modulo 2^32 as every C compiler does it. -/
def toInt (x : Int) : Int := x.bmod (2 ^ 32)

/-- Conversion to `unsigned`. -/
def toUnsigned (x : Int) : Int := x % 2 ^ 32

/-- The value of a plain `char`, which is signed on some targets. -/
def ofChar (signed : Bool) (b : UInt8) : Int :=
  if signed = true ∧ 128 ≤ b.toNat then b.toNat - 256 else b.toNat

/-- `x` is a value of type `int`. -/
def IsInt (x : Int) : Prop := -2 ^ 31 ≤ x ∧ x < 2 ^ 31

/-- `(len + 4U - 1) & ~(4U - 1)`, computed in `unsigned`. -/
def align4 (len : Nat) : Nat := ((UInt32.ofNat len + 4 - 1) &&& ~~~(4 - 1)).toNat

theorem toInt_of_isInt {x : Int} (h : IsInt x) : toInt x = x := by
  obtain ⟨h₁, h₂⟩ := h
  simp only [toInt, Int.bmod]
  split <;> omega

theorem toUnsigned_of_nonneg {x : Int} (h₀ : 0 ≤ x) (h : IsInt x) : toUnsigned x = x := by
  obtain ⟨_, h₂⟩ := h
  simp only [toUnsigned]
  omega

/-- Reducing a value that is not far below zero never makes it larger. -/
theorem toInt_le {x : Int} (h : -2 ^ 31 ≤ x) : toInt x ≤ x := by
  simp only [toInt, Int.bmod]
  split <;> omega

theorem toInt_lt (x : Int) : toInt x < 2 ^ 31 := by
  simp only [toInt, Int.bmod]
  split <;> omega

/-- Clearing the two low bits of a 32-bit value. -/
private theorem land_mask (n : Nat) (hn : n < 2 ^ 32) : n &&& 4294967292 = n / 4 * 4 := by
  have hmask : (4294967292 : Nat) = (2 ^ 30 - 1) <<< 2 := by decide
  have hdiv : n / 4 * 4 = (n >>> 2) <<< 2 := by
    rw [Nat.shiftLeft_eq, Nat.shiftRight_eq_div_pow]
  apply Nat.eq_of_testBit_eq
  intro i
  rw [hdiv, hmask, Nat.testBit_and, Nat.testBit_shiftLeft, Nat.testBit_shiftLeft,
    Nat.testBit_two_pow_sub_one, Nat.testBit_shiftRight]
  by_cases hi : 2 ≤ i
  · have hadd : 2 + (i - 2) = i := by omega
    rw [hadd]
    by_cases hi' : i < 32
    · simp [hi, show i - 2 < 30 by omega]
    · have hbit : n.testBit i = false :=
        Nat.testBit_lt_two_pow (lt_of_lt_of_le hn (Nat.pow_le_pow_right (by omega) (by omega)))
      simp [hbit]
  · simp [hi]

theorem align4_eq {len : Nat} (h : len + 3 < 2 ^ 32) : align4 len = (len + 3) / 4 * 4 := by
  have hadd : (UInt32.ofNat len + 4 - 1).toNat = len + 3 := by
    rw [UInt32.toNat_sub, UInt32.toNat_add]
    simp only [UInt32.toNat_ofNat', UInt32.reduceToNat]
    omega
  have hmask : (~~~(4 - 1 : UInt32)).toNat = 4294967292 := by decide
  rw [align4, UInt32.toNat_and, hadd, hmask, land_mask _ h]

end CInt
