import Lox.Proofs.Number.Binary64
import Lox.Proofs.Source.Spelling

/-!
# Numbers that are read back

The text of a finite number that is not negative is a number token for the
same number: it has digits, perhaps with a point between digits, and the decimal
that it denotes rounds to the number.
-/

set_option autoImplicit false

namespace Lox.Number

open TokenKind (Digits)

/-! ## Digits -/

theorem ofDigits_digits (value : Nat) : ofDigits (digits value) = value :=
  Nat.ofDigitChars_ten_toDigits

theorem ofDigits_append (text more : List Char) :
    ofDigits (text ++ more) = 10 ^ more.length * ofDigits text + ofDigits more := by
  have both := Nat.ofDigitChars_append (b := 10) (l := text) (m := more) 0
  exact both.trans Nat.ofDigitChars_eq_ofDigitChars_zero

theorem digits_spell (value : Nat) : Digits (digits value) :=
  ⟨Nat.toDigits_ne_nil, fun _ member => Nat.isDigit_of_mem_toDigits (by decide) (by decide) member⟩

/-- Zeros in front do not change a whole number. -/
theorem ofDigits_leftpad (value width : Nat) :
    ofDigits ((digits value).leftpad width '0') = value := by
  rw [List.leftpad, ofDigits_append, ofDigits_digits]
  have zeros : ofDigits (List.replicate (width - (digits value).length) '0') = 0 :=
    Nat.ofDigitChars_replicate_zero
  rw [zeros, Nat.mul_zero, Nat.zero_add]

theorem leftpad_spell (value width : Nat) : Digits ((digits value).leftpad width '0') := by
  refine ⟨by simp [List.leftpad, (digits_spell value).1], fun char member => ?_⟩
  rw [List.leftpad, List.mem_append] at member
  obtain zero | digit := member
  · rw [List.eq_of_mem_replicate zero]
    decide
  · exact (digits_spell value).2 char digit

theorem length_leftpad {value width : Nat} (positive : 0 < width) (less : value < 10 ^ width) :
    ((digits value).leftpad width '0').length = width := by
  have few : (digits value).length ≤ width := (Nat.length_toDigits_le_iff (by decide) positive).mpr less
  rw [List.length_leftpad]
  exact Nat.max_eq_left few

/-! ## Decimals -/

namespace Decimal

/-- A decimal with places is written as digits with a point, which read as the decimal. -/
theorem write_read (decimal : Decimal) (positive : 0 < decimal.places) :
    ∃ whole fraction, decimal.write = whole ++ '.' :: fraction ∧ Digits whole ∧ Digits fraction ∧
      read whole fraction = decimal := by
  obtain ⟨coefficient, places⟩ := decimal
  have power : 0 < 10 ^ places := Nat.pow_pos (by decide)
  have length := length_leftpad positive (Nat.mod_lt coefficient power)
  refine ⟨digits (coefficient / 10 ^ places), (digits (coefficient % 10 ^ places)).leftpad places '0',
    rfl, digits_spell _, leftpad_spell _ _, ?_⟩
  rw [read, mk.injEq, ofDigits_append, ofDigits_digits, ofDigits_leftpad, length]
  exact ⟨Nat.div_add_mod coefficient (10 ^ places), rfl⟩

theorem nearest?_bits {bits places coefficient : Nat}
    (found : nearest? bits places = some coefficient) : (mk coefficient places).bits = bits := by
  unfold nearest? at found
  extract_lets scaled below belowFits aboveFits at found
  split at found
  · next fits =>
    obtain rfl := Option.some.inj found
    exact fits.1
  · split at found
    · next fits =>
      obtain rfl := Option.some.inj found
      exact fits
    · cases found

theorem pow_two_dvd_pow_ten {exponent places : Nat} (enough : exponent ≤ places) :
    Nat.pow 2 exponent ∣ 10 ^ places :=
  (Nat.pow_dvd_pow 2 enough).trans (pow_dvd_pow_of_dvd (by decide) places)

/-- With enough places a double is written exactly. -/
theorem exact_bits {bits places : Nat} (number : bits ≤ infinityBits) (enough : 1074 ≤ places) :
    (mk (unitsOfBits bits * 10 ^ places / unitsPerOne) places).bits = bits := by
  obtain ⟨exponent, same, units⟩ := unitsPerOne_eq_pow
  have divides : unitsPerOne ∣ 10 ^ places := units ▸ pow_two_dvd_pow_ten (same.trans_le enough)
  have restored : unitsOfBits bits * 10 ^ places / unitsPerOne * unitsPerOne =
      unitsOfBits bits * 10 ^ places := Nat.div_mul_cancel (divides.mul_left _)
  rw [Decimal.bits, restored]
  exact bitsOfRatio_unitsOfBits number (Nat.pow_pos (by decide))

theorem shortestFrom_bits {bits : Nat} (number : bits ≤ infinityBits) (more : Nat) :
    ∀ places, 1074 ≤ places + more → (shortestFrom bits more places).bits = bits := by
  induction more with
  | zero =>
      intro places enough
      rw [shortestFrom]
      exact exact_bits number enough
  | succ more ih =>
      intro places enough
      rw [shortestFrom]
      cases found : nearest? bits places with
      | none => exact ih (places + 1) (by omega)
      | some coefficient => exact nearest?_bits found

theorem shortestFrom_places (bits more : Nat) :
    ∀ places, places ≤ (shortestFrom bits more places).places := by
  induction more with
  | zero => exact fun places => Nat.le_refl places
  | succ more ih =>
      intro places
      rw [shortestFrom]
      cases nearest? bits places with
      | none => exact Nat.le_trans (Nat.le_succ places) (ih (places + 1))
      | some coefficient => exact Nat.le_refl places

theorem bits_le (decimal : Decimal) : decimal.bits ≤ infinityBits := Nat.min_le_left _ _

end Decimal

/-! ## Texts of numbers -/

theorem magnitudeText_spells {bits : Nat} (number : bits ≤ infinityBits) :
    (TokenKind.number (Float.ofBits (UInt64.ofNat bits))).Spells (magnitudeText bits) := by
  have spelled (decimal : Decimal) (same : decimal.bits = bits) :
      decimal.toFloat = Float.ofBits (UInt64.ofNat bits) := by
    rw [Decimal.toFloat, same]
  unfold magnitudeText
  extract_lets units
  split
  · next whole =>
    have units_eq : units / unitsPerOne * unitsPerOne = units :=
      Nat.div_mul_cancel (Nat.dvd_of_mod_eq_zero whole)
    rw [← spelled (.read (digits (units / unitsPerOne)) [])]
    · exact .whole (digits_spell _)
    · rw [Decimal.read, List.append_nil, ofDigits_digits, Decimal.bits, units_eq]
      have single := bitsOfRatio_unitsOfBits number Nat.one_pos
      rwa [Nat.mul_one] at single
  · obtain ⟨whole, fraction, written, digits, digits', read⟩ :=
      Decimal.write_read (.shortest bits) (Decimal.shortestFrom_places bits 1073 1)
    rw [written, ← spelled (.shortest bits) (Decimal.shortestFrom_bits number 1073 1 (by decide)),
      ← read]
    exact .decimal digits digits'

section Finite

variable {decimal : Decimal} (finite : decimal.toFloat.isInf = false)

include finite

theorem bits_lt : decimal.bits < infinityBits := by
  refine Nat.lt_of_le_of_ne decimal.bits_le fun infinite => ?_
  rw [Decimal.toFloat, infinite, isInf_ofBits_infinityBits] at finite
  cases finite

theorem toList_text : (text decimal.toFloat).toList = magnitudeText decimal.bits := by
  have less := bits_lt finite
  have number := decimal.bits_le
  simp only [text, Decimal.toFloat, magnitudeBits_ofBits number, isNegative_ofBits number]
  rw [if_neg (Nat.not_lt_of_le number), if_neg (Nat.ne_of_lt less)]
  simp

/-- The text of a finite number that was read is a token for this number. -/
theorem text_spells : (TokenKind.number decimal.toFloat).Spells (text decimal.toFloat).toList := by
  rw [toList_text finite]
  exact magnitudeText_spells decimal.bits_le

end Finite

end Lox.Number
