import Mathlib.Tactic.Positivity
import Mathlib.Tactic.Ring
import Lox.Proofs.Number.Double

/-!
# Doubles that are read back

Rounding a whole number of units that is a double gives that double, whatever
factor the ratio is extended by. And the bits of a number that is not undefined
are the bits that it was made of.
-/

set_option autoImplicit false

namespace Lox.Number

theorem fractionSpan_eq : fractionSpan = 2 ^ 52 := rfl

/-- The number one is a power of two of units. The exponent is not written in
place, where it would be evaluated. -/
theorem unitsPerOne_eq_pow : ∃ exponent, exponent = 1074 ∧ unitsPerOne = Nat.pow 2 exponent := by
  refine ⟨1074, rfl, ?_⟩
  delta unitsPerOne
  with_reducible rfl

theorem roundHalfEven_mul (whole : Nat) {denominator : Nat} (positive : 0 < denominator) :
    roundHalfEven (whole * denominator) denominator = whole := by
  simp only [roundHalfEven, Nat.mul_mod_left, Nat.mul_zero, positive, if_true]
  exact Nat.mul_div_cancel whole positive

/-- A ratio that is a coefficient and a shift is rounded to these two, if the
shift is the one that its digits ask for. -/
theorem bitsOfRatio_mul {coefficient shift factor : Nat} (positive : 0 < factor)
    (digits : (coefficient * 2 ^ shift).log2 - 52 = shift) :
    bitsOfRatio (coefficient * 2 ^ shift * factor) factor =
      min infinityBits (shift * fractionSpan + coefficient) := by
  have scaled : coefficient * 2 ^ shift * factor = coefficient * (factor * 2 ^ shift) := by ring
  have denominator : 0 < factor * 2 ^ shift := Nat.mul_pos positive (Nat.two_pow_pos shift)
  simp only [bitsOfRatio, Nat.mul_div_cancel _ positive, digits]
  rw [scaled]
  exact congrArg (fun rounded => min infinityBits (shift * fractionSpan + rounded))
    (roundHalfEven_mul coefficient denominator)

theorem log2_normal {fraction : Nat} (shift : Nat) (less : fraction < fractionSpan) :
    ((fractionSpan + fraction) * 2 ^ shift).log2 = 52 + shift := by
  have power := Nat.two_pow_pos shift
  rw [fractionSpan_eq] at less ⊢
  rw [Nat.log2_eq_iff (by positivity), Nat.pow_add, Nat.add_assoc, Nat.add_comm shift 1,
    ← Nat.add_assoc, Nat.pow_add]
  exact ⟨Nat.mul_le_mul_right _ (by omega), Nat.mul_lt_mul_of_pos_right (by omega) power⟩

theorem unitsOfBits_zero {bits : Nat} (exponent : bits / fractionSpan = 0) :
    unitsOfBits bits = bits % fractionSpan * 2 ^ 0 := by
  simp only [unitsOfBits, exponent, if_true, Nat.pow_zero, Nat.mul_one]

theorem unitsOfBits_succ {bits shift : Nat} (exponent : bits / fractionSpan = shift + 1) :
    unitsOfBits bits = (fractionSpan + bits % fractionSpan) * 2 ^ shift := by
  simp only [unitsOfBits, exponent]
  rfl

/-- The units of a double are rounded to the double itself. -/
theorem bitsOfRatio_unitsOfBits {bits factor : Nat} (number : bits ≤ infinityBits)
    (positive : 0 < factor) : bitsOfRatio (unitsOfBits bits * factor) factor = bits := by
  have parts := Nat.div_add_mod bits fractionSpan
  have less : bits % fractionSpan < fractionSpan := Nat.mod_lt _ (by decide)
  cases exponent : bits / fractionSpan with
  | zero =>
      have digits : (bits % fractionSpan * 2 ^ 0).log2 - 52 = 0 := by
        by_cases zero : bits % fractionSpan = 0
        · simp [zero]
        · rw [Nat.pow_zero, Nat.mul_one]
          have few := (Nat.log2_lt zero).mpr less
          omega
      rw [exponent, Nat.mul_zero, Nat.zero_add] at parts
      rw [unitsOfBits_zero exponent, bitsOfRatio_mul positive digits, Nat.zero_mul, Nat.zero_add, parts,
        Nat.min_eq_right number]
  | succ shift =>
      have digits : ((fractionSpan + bits % fractionSpan) * 2 ^ shift).log2 - 52 = shift := by
        rw [log2_normal shift less]
        omega
      have total : shift * fractionSpan + (fractionSpan + bits % fractionSpan) = bits := by
        rw [exponent] at parts
        rw [← Nat.add_assoc, ← Nat.succ_mul, Nat.mul_comm]
        exact parts
      rw [unitsOfBits_succ exponent, bitsOfRatio_mul positive digits, total,
        Nat.min_eq_right number]

section Word

variable {bits : Nat} (number : bits ≤ infinityBits)

include number

theorem toNat_ofNat_of_number : (UInt64.ofNat bits).toNat = bits := by
  have bound : infinityBits < UInt64.size := by decide
  exact UInt64.toNat_ofNat_of_lt' (Nat.lt_of_le_of_lt number bound)

theorem toNat_toBits_ofBits : (Float.ofBits (UInt64.ofNat bits)).toBits.toNat = bits := by
  have word := toNat_ofNat_of_number number
  rw [toBits_ofBits (by rw [word]; exact number), word]

theorem magnitudeBits_ofBits : magnitudeBits (Float.ofBits (UInt64.ofNat bits)) = bits := by
  have bound : infinityBits = 2047 * 2 ^ 52 := rfl
  have sign : Nat.pow 2 63 = 2 ^ 63 := rfl
  rw [magnitudeBits, toNat_toBits_ofBits number, sign, Nat.mod_eq_of_lt (by omega)]

theorem isNegative_ofBits : isNegative (Float.ofBits (UInt64.ofNat bits)) = false := by
  have bound : infinityBits = 2047 * 2 ^ 52 := rfl
  have sign : Nat.pow 2 63 = 2 ^ 63 := rfl
  rw [isNegative, toNat_toBits_ofBits number, sign, decide_eq_false_iff_not]
  omega

end Word

/-- The only one of these words that is no finite number. -/
theorem isInf_ofBits_infinityBits : (Float.ofBits (UInt64.ofNat infinityBits)).isInf = true := by
  decide +kernel

end Lox.Number
