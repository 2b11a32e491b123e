import Lox.Evaluation.Value

/-!
# Faults of an evaluation

Why an evaluation stops early. A runtime fault points at a token of the tree.
An internal fault needs a tree that the parser never builds. The output can be
full. And an evaluation is given a bound on its depth, which it may reach.
-/

set_option autoImplicit false

namespace Lox

/-- The text in front of every message that has a place. -/
def locationText (line column : Nat) : String :=
  "[line " ++ toString line ++ ":" ++ toString column ++ "] Error"

/-- A message about a token: where it stands, how it is written, and what is wrong. -/
def Token.describe (token : Token) (message : String) : String :=
  let place := if token.kind = .endOfSource then " at end" else " at '" ++ token.lexeme ++ "'"
  locationText token.line token.column ++ place ++ ": " ++ message

/-- What is wrong with the values met at a token. -/
inductive RuntimeFault where
  | undefinedVariable
  | conditionNotBoolean (actual : ValueType)
  | operandNotBoolean (actual : ValueType)
  | operandNotNumber
  | operandsNotNumbers
  | operandsNotAddable
  | notCallable
  | wrongArity (expected actual : Nat)
  deriving DecidableEq, Repr

structure RuntimeError where
  fault : RuntimeFault
  token : Token
  deriving DecidableEq, Repr

def RuntimeError.message (error : RuntimeError) : String :=
  match error.fault with
  | .undefinedVariable => "Undefined variable '" ++ error.token.lexeme ++ "'."
  | .conditionNotBoolean actual => "Condition must be a boolean, got " ++ actual.name ++ "."
  | .operandNotBoolean actual => "Operand must be a boolean, got " ++ actual.name ++ "."
  | .operandNotNumber => "Operand must be a number."
  | .operandsNotNumbers => "Operands must be numbers."
  | .operandsNotAddable => "Operands must be two numbers or two strings."
  | .notCallable => "Can only call functions."
  | .wrongArity expected actual =>
      "Expected " ++ toString expected ++ " arguments but got " ++ toString actual ++ "."

inductive InternalFault where
  | notBinary (operator : String)
  | notLogical (operator : String)
  | notUnary (operator : String)
  | returnOutsideCall
  deriving DecidableEq, Repr

def InternalFault.message : InternalFault → String
  | notBinary operator => "'" ++ operator ++ "' is not a binary operator."
  | notLogical operator => "'" ++ operator ++ "' is not a logical operator."
  | notUnary operator => "'" ++ operator ++ "' is not a unary operator."
  | returnOutsideCall => "'return' escaped every function call."

inductive Fault where
  | runtime (error : RuntimeError)
  | internal (fault : InternalFault)
  | outputFull
  | tooDeep
  deriving DecidableEq, Repr

def Fault.message : Fault → String
  | runtime error => error.token.describe error.message
  | internal fault => "Internal error: " ++ fault.message
  | outputFull => "sink full"
  | tooDeep => "evaluation too deep"

end Lox
