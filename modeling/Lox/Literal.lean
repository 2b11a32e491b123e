import Lox.Number.Text

/-!
# Literals

The constants that a program can write down, and the text that shows them.
-/

set_option autoImplicit false

namespace Lox

inductive Literal where
  | nil
  | bool (value : Bool)
  | number (value : Float)
  | string (text : String)
  deriving DecidableEq, Repr

namespace Literal

def boolText : Bool → String
  | true => "true"
  | false => "false"

/-- The text of a literal. A string is shown bare, without quotes. -/
def text : Literal → String
  | nil => "nil"
  | bool value => boolText value
  | number value => Number.text value
  | string text => text

end Literal

end Lox
