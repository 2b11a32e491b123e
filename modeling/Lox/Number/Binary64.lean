/-!
# Doubles as whole numbers of units

Every finite double is a whole number of units, one unit being the least
positive double. Two functions on the magnitude bits (the word without its
sign) go between the two views: `unitsOfBits` gives the exact number of units,
and `bitsOfRatio` rounds a ratio of whole numbers to the nearest double, a tie
going to the even neighbour. The magnitude bits of doubles are ordered as the
doubles are, so overflow is a minimum with the bits of infinity.
-/

set_option autoImplicit false

namespace Lox.Number

/-- The number of units in the number one. -/
def unitsPerOne : Nat := Nat.pow 2 1074

/-- The width of a double's fraction field, as a factor. -/
def fractionSpan : Nat := Nat.pow 2 52

/-- The magnitude bits of infinity; larger ones stand for no number. -/
def infinityBits : Nat := 2047 * fractionSpan

/-- The exact value, in units, of the double with the given magnitude bits. -/
def unitsOfBits (bits : Nat) : Nat :=
  let exponent := bits / fractionSpan
  let fraction := bits % fractionSpan
  if exponent = 0 then fraction else (fractionSpan + fraction) * Nat.pow 2 (exponent - 1)

/-- The whole number nearest to a ratio; of two equally near, the even one. -/
def roundHalfEven (numerator denominator : Nat) : Nat :=
  let below := numerator / denominator
  let excess := 2 * (numerator % denominator)
  if excess < denominator then below
  else if denominator < excess then below + 1
  else below + below % 2

/-- The magnitude bits of the double nearest to a ratio of units. The shift is
the least that leaves a coefficient of at most 53 binary digits. A coefficient
that rounds up to 54 digits carries into the exponent field, as it should. -/
def bitsOfRatio (numerator denominator : Nat) : Nat :=
  let shift := (numerator / denominator).log2 - 52
  min infinityBits
    (shift * fractionSpan + roundHalfEven numerator (denominator * Nat.pow 2 shift))

/-- The bits of a double without its sign. -/
def magnitudeBits (value : Float) : Nat := value.toBits.toNat % Nat.pow 2 63

/-- Whether the sign bit of a double is set. -/
def isNegative (value : Float) : Bool := Nat.pow 2 63 ≤ value.toBits.toNat

end Lox.Number
