import Lox.Grammar.Parser
import Lox.Syntax.Tree

/-!
# Parsing expressions

Every level of precedence is a parser built from a parser for whole
expressions, which it uses only behind a token of its own. `expression` ties
the knot with the number of tokens ahead as a bound: each use of the inner
parser has fewer tokens ahead, and without tokens there is no expression.

A name and an equals sign begin an assignment. If the value cannot be read,
the name is taken as an expression by itself, which leaves the equals sign ahead.
-/

set_option autoImplicit false

namespace Lox

namespace TokenKind

def isEquality (kind : TokenKind) : Bool :=
  kind = .symbol .bangEqual || kind = .symbol .equalEqual

def isComparison (kind : TokenKind) : Bool :=
  kind = .symbol .greater || kind = .symbol .greaterEqual ||
    kind = .symbol .less || kind = .symbol .lessEqual

def isTermOperator (kind : TokenKind) : Bool :=
  kind = .symbol .minus || kind = .symbol .plus

def isFactorOperator (kind : TokenKind) : Bool :=
  kind = .symbol .star || kind = .symbol .slash

def isUnaryOperator (kind : TokenKind) : Bool :=
  kind = .symbol .bang || kind = .symbol .minus

end TokenKind

namespace Parser

/-- The name to which the tokens ahead begin to assign. -/
def assignedName? : List Token → Option Token
  | name :: equals :: _ =>
      if name.kind = .name ∧ equals.kind = .symbol .equal then some name else none
  | _ => none

/-- A literal, a name, or an expression in parentheses. -/
def primary (expression : Parser Expr) : Parser Expr := do
  match ← ahead with
  | [] => failHere .noExpression
  | token :: _ =>
      match token.literal? with
      | some value => do
          skip 1
          return .literal value
      | none =>
          if token.kind = .name then do
            skip 1
            return .variable token
          else if token.kind = .symbol .leftParen then do
            skip 1
            let inner ← expression
            let _ ← expect .groupingClosing
            return .grouping inner
          else failHere .noExpression

/-- The rest of a call behind its opening parenthesis. -/
def finishCall (expression : Parser Expr) (callee : Expr) : Parser Expr := do
  let arguments ← listUntil (.symbol .rightParen) expression
  let paren ← expect .argumentsClosing
  if argumentLimit < arguments.length then fail ⟨.tooManyArguments, some paren⟩
  else return .call callee paren arguments

/-- The argument lists behind an expression, each one a call of what stands before it. -/
def callsFrom (expression : Parser Expr) : Nat → Expr → Parser Expr
  | 0, callee => return callee
  | bound + 1, callee => do
      match ← accept (.symbol .leftParen) with
      | some _ => callsFrom expression bound (← finishCall expression callee)
      | none => return callee

def call (expression : Parser Expr) : Parser Expr := do
  let callee ← primary expression
  callsFrom expression (← remaining) callee

/-- Operators in front of an operand, the innermost last. -/
def unaryWithin (operand : Parser Expr) : Nat → Parser Expr
  | 0 => operand
  | bound + 1 => do
      match ← acceptIf TokenKind.isUnaryOperator with
      | some operator => return .unary (some operator) (← unaryWithin operand bound)
      | none => operand

def unary (expression : Parser Expr) : Parser Expr := do
  unaryWithin (call expression) (← remaining)

/-- Operators and operands behind a first operand, grouped from the left. -/
def chainFrom (accepts : TokenKind → Bool) (node : Expr → Token → Expr → Expr)
    (operand : Parser Expr) : Nat → Expr → Parser Expr
  | 0, left => return left
  | bound + 1, left => do
      match ← acceptIf accepts with
      | some operator => do
          let right ← operand
          chainFrom accepts node operand bound (node left operator right)
      | none => return left

/-- One operand or more with an operator between any two, grouped from the left. -/
def chain (accepts : TokenKind → Bool) (node : Expr → Token → Expr → Expr)
    (operand : Parser Expr) : Parser Expr := do
  let left ← operand
  chainFrom accepts node operand (← remaining) left

def factor (expression : Parser Expr) : Parser Expr :=
  chain TokenKind.isFactorOperator .binary (unary expression)

def term (expression : Parser Expr) : Parser Expr :=
  chain TokenKind.isTermOperator .binary (factor expression)

def comparison (expression : Parser Expr) : Parser Expr :=
  chain TokenKind.isComparison .binary (term expression)

def equality (expression : Parser Expr) : Parser Expr :=
  chain TokenKind.isEquality .binary (comparison expression)

def conjunction (expression : Parser Expr) : Parser Expr :=
  chain (· = .keyword .andWord) .logical (equality expression)

def disjunction (expression : Parser Expr) : Parser Expr :=
  chain (· = .keyword .orWord) .logical (conjunction expression)

/-- An assignment to a name, or a disjunction. -/
def assignment (expression : Parser Expr) : Parser Expr := do
  match assignedName? (← ahead) with
  | none => disjunction expression
  | some name =>
      rewinding .assignment
        (do
          skip 2
          return .assign (some name) (← expression))
        (fun _ => disjunction expression)

/-- An expression of at most the given number of tokens. -/
def expressionWithin : Nat → Cursor → Reply Expr
  | 0, cursor => failHere .noExpression cursor
  | bound + 1, cursor => assignment (expressionWithin bound) cursor

def expression : Parser Expr := fun cursor =>
  expressionWithin cursor.remaining cursor

end Parser

end Lox
