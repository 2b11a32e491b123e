import Lox.Evaluation.Fault

/-!
# Operators

What operators do with the values of their operands. They touch nothing else.
-/

set_option autoImplicit false

namespace Lox

/-- A runtime fault at a token, as the outcome of an operator. -/
def Fault.at {α : Type} (fault : RuntimeFault) (token : Token) : Except Fault α :=
  .error (.runtime ⟨fault, token⟩)

namespace Operator

def numeric (operator : Token) (left right : Value) (apply : Float → Float → Value) :
    Except Fault Value :=
  match left, right with
  | .number left, .number right => .ok (apply left right)
  | _, _ => Fault.at .operandsNotNumbers operator

/-- The sum of two numbers, or one string behind another. -/
def add (operator : Token) (left right : Value) : Except Fault Value :=
  match left, right with
  | .number left, .number right => .ok (.number (left + right))
  | .string left, .string right => .ok (.string (left ++ right))
  | _, _ => Fault.at .operandsNotAddable operator

def binary (operator : Token) (left right : Value) : Except Fault Value :=
  match operator.kind with
  | .symbol .minus => numeric operator left right fun left right => .number (left - right)
  | .symbol .plus => add operator left right
  | .symbol .slash => numeric operator left right fun left right => .number (left / right)
  | .symbol .star => numeric operator left right fun left right => .number (left * right)
  | .symbol .greater => numeric operator left right fun left right => .bool (right < left)
  | .symbol .greaterEqual => numeric operator left right fun left right => .bool (right ≤ left)
  | .symbol .less => numeric operator left right fun left right => .bool (left < right)
  | .symbol .lessEqual => numeric operator left right fun left right => .bool (left ≤ right)
  | .symbol .equalEqual => .ok (.bool (left.equals right))
  | .symbol .bangEqual => .ok (.bool (!left.equals right))
  | _ => .error (.internal (.notBinary operator.lexeme))

def truth (operator : Token) : Value → Except Fault Bool
  | .bool value => .ok value
  | value => Fault.at (.operandNotBoolean value.type) operator

def negate (operator : Token) : Value → Except Fault Value
  | .number value => .ok (.number (-value))
  | _ => Fault.at .operandNotNumber operator

def unary (operator : Token) (operand : Value) : Except Fault Value :=
  match operator.kind with
  | .symbol .minus => negate operator operand
  | .symbol .bang => do return .bool (!(← truth operator operand))
  | _ => .error (.internal (.notUnary operator.lexeme))

/-- The truth value of a left operand that decides a logical operator by itself. -/
def decisive? : TokenKind → Option Bool
  | .keyword .orWord => some true
  | .keyword .andWord => some false
  | _ => none

def condition (keyword : Token) : Value → Except Fault Bool
  | .bool value => .ok value
  | value => Fault.at (.conditionNotBoolean value.type) keyword

end Operator

end Lox
