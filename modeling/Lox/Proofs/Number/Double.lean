import Mathlib
import Lox.Number.Binary64

/-!
# Doubles in the library

What the rest takes from the library's theory of doubles. A number that is not
undefined is equal to itself, the fields of a word are quotients and remainders
of its number, and a word that stands for a number or infinity is also the word
of its double.

That theory is reached through Mathlib as a whole and through no single file of
it, so this is the one module that imports all of Mathlib.
-/

set_option autoImplicit false

namespace Lox.Number

open Float.Model (Format)
open Float.Model.UnpackedFloat

theorem beq_self_of_isNaN_eq_false {value : Float} (isNumber : value.isNaN = false) :
    (value == value) = true := by
  rw [Float.isNaN_eq_decide_eq_nan] at isNumber
  exact Float.beq_self_iff.mpr (of_decide_eq_false isNumber)

section Fields

variable (word : BitVec Format.binary64.numBits)

theorem toNat_unpackExponent :
    (unpackExponent word).toNat = word.toNat / 2 ^ 52 % 2 ^ 11 := by
  rw [unpackExponent_def, BitVec.extractLsb'_toNat, Nat.shiftRight_eq_div_pow]

theorem toNat_unpackMantissa :
    (unpackMantissa word).toNat = word.toNat % 2 ^ 52 := by
  rw [unpackMantissa_def, BitVec.extractLsb'_toNat, Nat.shiftRight_zero]

theorem toNat_unpackSign :
    (unpackSign word).toNat = word.toNat / 2 ^ 63 % 2 := by
  rw [unpackSign_def, BitVec.extractLsb'_toNat, Nat.shiftRight_eq_div_pow]
  rfl

end Fields

/-- A word that is a number or infinity is the word of its double. -/
theorem toBits_ofBits {word : UInt64} (number : word.toNat ≤ infinityBits) :
    (Float.ofBits word).toBits = word := by
  have bound : infinityBits = 2047 * 2 ^ 52 := rfl
  -- All exponent bits are set in infinity only, and then no fraction bit is.
  have valid : Format.binary64.Valid word.toBitVec := by
    refine ⟨fun infinite fraction => absurd (BitVec.eq_of_toNat_eq ?_) fraction⟩
    have exponent := toNat_unpackExponent word.toBitVec
    have all : (-1#11).toNat = 2047 := rfl
    rw [infinite, all, UInt64.toNat_toBitVec] at exponent
    rw [toNat_unpackMantissa, UInt64.toNat_toBitVec, BitVec.toNat_zero]
    omega
  exact congrArg UInt64.ofBitVec (pack_unpack_of_valid valid)

end Lox.Number
