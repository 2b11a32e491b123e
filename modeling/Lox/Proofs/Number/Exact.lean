import Lox.Proofs.Number.Binary64

/-!
# The exact values of doubles

A finite double stands for a mantissa times a power of two, which is its number
of units over the number of units in one.
-/

set_option autoImplicit false

namespace Lox.Number

open Float.Model (Format)
open Float.Model.UnpackedFloat

/-- The rational number that a finite unpacked double stands for. -/
def unpackedRational? : Float.Model.UnpackedFloat → Option ℚ
  | .finite sign mantissa exponent _ => some (sign.apply mantissa * 2 ^ exponent)
  | .zero _ => some 0
  | .infinity _ | .notANumber => none

/-- The rational number that a finite double stands for. -/
def rational? (value : Float) : Option ℚ := unpackedRational? value.toModel.unpack

/-- The double stands for a whole number. -/
def IsWhole (value : Float) : Prop := ∃ whole : ℤ, rational? value = some (whole : ℚ)

theorem isInf_of_isFinite {value : Float} (finite : value.isFinite = true) :
    value.isInf = false := by
  revert finite
  change value.toModel.unpack.isFinite = true → value.toModel.unpack.isInf = false
  cases value.toModel.unpack <;> simp [isFinite, isInf]

theorem unitsPerOne_pos : 0 < unitsPerOne := by
  obtain ⟨exponent, _, units⟩ := unitsPerOne_eq_pow
  rw [units]
  exact Nat.two_pow_pos exponent

/-- What a mantissa with an exponent of at least that of one unit is in units. -/
theorem mantissa_mul_zpow (mantissa shift : Nat) :
    (mantissa : ℚ) * 2 ^ ((shift : ℤ) - 1074) = ((mantissa * 2 ^ shift : ℕ) : ℚ) / unitsPerOne := by
  obtain ⟨exponent, same, units⟩ := unitsPerOne_eq_pow
  have unit : (1074 : ℤ) = (exponent : ℤ) := by rw [same]; rfl
  rw [units, Nat.pow_eq, unit, zpow_sub₀ two_ne_zero, zpow_natCast, zpow_natCast]
  push_cast
  ring

/-! ## Words -/

section Word

variable {word : BitVec Format.binary64.numBits} (positive : unpackSign word = 0#1)

include positive

theorem unpackedRational?_subnormal (least : (unpackExponent word).toNat = 0) :
    unpackedRational? (unpack .binary64 word) =
      some (((unpackMantissa word).toNat : ℚ) * 2 ^ ((0 : ℕ) - 1074 : ℤ)) := by
  have subnormal : unpackExponent word = 0#_ := BitVec.eq_of_toNat_eq least
  rw [unpack, positive, subnormal, if_neg (by decide), if_pos rfl]
  split
  · next zero =>
    rw [zero]
    simp [unpackedRational?]
  · rfl

/-- All exponent bits are set in infinity only. The leading bit of the mantissa is not stored. -/
theorem unpackedRational?_normal {shift : Nat} (exponent : (unpackExponent word).toNat = shift + 1)
    (finite : shift < 2046) :
    unpackedRational? (unpack .binary64 word) =
      some (((2 ^ 52 + (unpackMantissa word).toNat : ℕ) : ℚ) * 2 ^ ((shift : ℤ) - 1074)) := by
  have notInfinite : unpackExponent word ≠ -1#_ := by
    intro infinite
    have all : (-1#11).toNat = 2047 := rfl
    rw [infinite, all] at exponent
    omega
  have normal : unpackExponent word ≠ 0#_ := by
    intro zero
    rw [zero] at exponent
    cases exponent
  have leading : (1#1 ++ unpackMantissa word).toNat = 2 ^ 52 + (unpackMantissa word).toNat := by
    rw [BitVec.toNat_append]
    exact (Nat.shiftLeft_add_eq_or_of_lt (unpackMantissa word).isLt 1).symm
  have power : ((shift + 1 : ℕ) : ℤ) - (Format.binary64.exponentBias + 52) = shift - 1074 := by
    have bias : Format.binary64.exponentBias = 1023 := rfl
    rw [bias]
    omega
  rw [unpack, positive, if_neg notInfinite, if_neg normal, unpackedRational?, exponent, leading]
  exact congrArg
    (fun power : ℤ => some (((2 ^ 52 + (unpackMantissa word).toNat : ℕ) : ℚ) * 2 ^ power)) power

end Word

/-- A word without a sign stands for as many units as its bits do. -/
theorem unpackedRational?_word {bits : Nat} {word : BitVec Format.binary64.numBits}
    (same : word.toNat = bits) (finite : bits < infinityBits) :
    unpackedRational? (unpack .binary64 word) = some ((unitsOfBits bits : ℚ) / unitsPerOne) := by
  have bound : infinityBits = 2047 * fractionSpan := rfl
  have span : fractionSpan = 2 ^ 52 := rfl
  have positive : unpackSign word = 0#1 :=
    BitVec.eq_of_toNat_eq (by rw [toNat_unpackSign, same, BitVec.toNat_zero]; omega)
  have mantissa : (unpackMantissa word).toNat = bits % fractionSpan := by
    rw [toNat_unpackMantissa, same, span]
  have exponent : (unpackExponent word).toNat = bits / fractionSpan := by
    rw [toNat_unpackExponent, same, span, Nat.mod_eq_of_lt (by omega)]
  have small : bits / fractionSpan < 2047 := (Nat.div_lt_iff_lt_mul (by decide)).mpr finite
  cases isExponent : bits / fractionSpan with
  | zero =>
      rw [unpackedRational?_subnormal positive (exponent.trans isExponent), mantissa_mul_zpow,
        mantissa, unitsOfBits_zero isExponent]
  | succ shift =>
      rw [unpackedRational?_normal positive (exponent.trans isExponent) (by omega),
        mantissa_mul_zpow, mantissa, unitsOfBits_succ isExponent, span]

theorem rational?_ofBits {bits : Nat} (finite : bits < infinityBits) :
    rational? (Float.ofBits (UInt64.ofNat bits)) = some ((unitsOfBits bits : ℚ) / unitsPerOne) := by
  have number := Nat.le_of_lt finite
  have toNat := toNat_ofNat_of_number number
  have word := congrArg (fun word : UInt64 => unpack .binary64 word.toBitVec)
    (toBits_ofBits (toNat.trans_le number))
  exact (congrArg unpackedRational? word).trans (unpackedRational?_word toNat finite)

theorem isWhole_ofBits_iff {bits : Nat} (finite : bits < infinityBits) :
    IsWhole (Float.ofBits (UInt64.ofNat bits)) ↔ unitsOfBits bits % unitsPerOne = 0 := by
  have one : (unitsPerOne : ℚ) ≠ 0 := Nat.cast_ne_zero.mpr unitsPerOne_pos.ne'
  have whole_iff (whole : ℤ) : rational? (Float.ofBits (UInt64.ofNat bits)) = some (whole : ℚ) ↔
      (unitsOfBits bits : ℤ) = unitsPerOne * whole := by
    rw [rational?_ofBits finite, Option.some.injEq, div_eq_iff one, mul_comm]
    exact_mod_cast Iff.rfl
  rw [IsWhole, ← Nat.dvd_iff_mod_eq_zero, ← Int.natCast_dvd_natCast]
  simp only [whole_iff, dvd_def]

end Lox.Number
