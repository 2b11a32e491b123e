import Lox.Source.Item
import Lox.Grammar.Fault
import Lox.Evaluation.Fault

/-!
# Errors

All that can be wrong with a program and its evaluation. Errors that are found
before anything is executed are called static.
-/

set_option autoImplicit false

namespace Lox

inductive Error where
  | lexical (error : LexicalError)
  | syntactic (error : SyntaxError)
  | evaluation (fault : Fault)
  deriving DecidableEq, Repr

namespace Error

def message : Error → String
  | lexical error =>
      locationText error.line error.column ++ ": " ++ error.fault.message
  | syntactic error => error.token.describe error.fault.message
  | evaluation fault => fault.message

def line? : Error → Option Nat
  | lexical error => some error.line
  | syntactic error => some error.token.line
  | evaluation (.runtime error) => some error.token.line
  | evaluation _ => none

/-- Whether an error is found before anything is executed. -/
def isStatic : Error → Bool
  | lexical _ => true
  | syntactic _ => true
  | evaluation _ => false

end Error

end Lox
