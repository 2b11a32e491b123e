import Lox.Number.Decimal

/-!
# The text of a number

A whole number is written with all its digits and no point. Any other finite
number is written in positional notation with the fewest places that read back.
There is never an exponent. Zero keeps its sign, and an undefined number has none.
-/

set_option autoImplicit false

namespace Lox.Number

/-- The text of the finite double with the given magnitude bits. -/
def magnitudeText (bits : Nat) : List Char :=
  let units := unitsOfBits bits
  if units % unitsPerOne = 0 then digits (units / unitsPerOne)
  else (Decimal.shortest bits).write

/-- The text that printing shows for a number. -/
def text (value : Float) : String :=
  let bits := magnitudeBits value
  if infinityBits < bits then "NaN"
  else
    let unsigned := if bits = infinityBits then ['i', 'n', 'f'] else magnitudeText bits
    String.ofList (if isNegative value then '-' :: unsigned else unsigned)

end Lox.Number
