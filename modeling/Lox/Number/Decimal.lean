import Lox.Number.Binary64

/-!
# Decimal numerals

A decimal is a coefficient with a number of places behind the point. It is
read from digits, rounded to the nearest double, and written in positional
notation. Writing a double chooses the decimal with the fewest places that
rounds back to that double.
-/

set_option autoImplicit false

namespace Lox.Number

/-- The decimal `coefficient / 10 ^ places`. -/
structure Decimal where
  coefficient : Nat
  places : Nat
  deriving DecidableEq, Repr

def digitValue (digit : Char) : Nat := digit.toNat - '0'.toNat

/-- The whole number that a list of decimal digits denotes, most significant first. -/
def ofDigits (digits : List Char) : Nat :=
  digits.foldl (fun value digit => 10 * value + digitValue digit) 0

def digits (value : Nat) : List Char := Nat.toDigits 10 value

namespace Decimal

/-- The decimal with the given digits before and behind the point. -/
def read (whole fraction : List Char) : Decimal :=
  ⟨ofDigits (whole ++ fraction), fraction.length⟩

def bits (decimal : Decimal) : Nat :=
  bitsOfRatio (decimal.coefficient * unitsPerOne) (Nat.pow 10 decimal.places)

/-- The double nearest to a decimal: infinity when it is too large for a finite one. -/
def toFloat (decimal : Decimal) : Float := Float.ofBits (UInt64.ofNat decimal.bits)

/-- Positional notation, with exactly `places` digits behind the point. -/
def write (decimal : Decimal) : List Char :=
  digits (decimal.coefficient / Nat.pow 10 decimal.places) ++ '.' ::
    (digits (decimal.coefficient % Nat.pow 10 decimal.places)).leftpad decimal.places '0'

/-- The nearest coefficient with the given places that rounds to the given
double. Only the two neighbours of the exact value can do so; if both do, the
nearer is taken, and the larger of two equally near. -/
def nearest? (bits places : Nat) : Option Nat :=
  let scaled := unitsOfBits bits * Nat.pow 10 places
  let below := scaled / unitsPerOne
  let belowFits := (Decimal.mk below places).bits = bits
  let aboveFits := (Decimal.mk (below + 1) places).bits = bits
  if belowFits ∧ (¬ aboveFits ∨ 2 * (scaled % unitsPerOne) < unitsPerOne) then some below
  else if aboveFits then some (below + 1)
  else none

/-- The first decimal that rounds to the given double, trying `places` and then
one place more at a time. After `more` trials the value is written out exactly. -/
def shortestFrom (bits : Nat) : Nat → Nat → Decimal
  | 0, places => ⟨unitsOfBits bits * Nat.pow 10 places / unitsPerOne, places⟩
  | more + 1, places =>
      let trial := (nearest? bits places).map fun coefficient => ⟨coefficient, places⟩
      trial.getD (shortestFrom bits more (places + 1))

/-- The decimal with the fewest places, and at least one, that rounds to the
given double. One unit has 1074 places, so that many write any double exactly. -/
def shortest (bits : Nat) : Decimal := shortestFrom bits 1073 1

end Decimal

end Lox.Number
