import Lox.Token

/-!
# Syntax faults

What can be wrong with a token list. Where the grammar leaves no choice of token,
an expectation names the one place of the grammar that asks for it; the kind of
token and the wording both follow from that place.
-/

set_option autoImplicit false

namespace Lox

/-- A place of the grammar at which only one kind of token may stand. -/
inductive Expectation where
  | variableName | variableEnd
  | forOpening | forConditionEnd | forClosing
  | ifOpening | ifClosing
  | whileOpening | whileClosing
  | printEnd | returnEnd | expressionEnd
  | functionName | parametersOpening | parameterName | parametersClosing
  | bodyOpening | blockClosing
  | argumentsClosing | groupingClosing
  deriving DecidableEq, Repr

namespace Expectation

def kind : Expectation → TokenKind
  | variableName | functionName | parameterName => .name
  | variableEnd | forConditionEnd | printEnd | returnEnd | expressionEnd => .symbol .semicolon
  | forOpening | ifOpening | whileOpening | parametersOpening => .symbol .leftParen
  | forClosing | ifClosing | whileClosing | parametersClosing => .symbol .rightParen
  | argumentsClosing | groupingClosing => .symbol .rightParen
  | bodyOpening => .symbol .leftBrace
  | blockClosing => .symbol .rightBrace

def description : Expectation → String
  | variableName => "variable name"
  | variableEnd => "';' after variable declaration"
  | forOpening => "'(' after 'for'"
  | forConditionEnd => "';' after loop condition"
  | forClosing => "')' after for clauses"
  | ifOpening => "'(' after 'if'"
  | ifClosing => "')' after if condition"
  | whileOpening => "'(' after 'while'"
  | whileClosing => "')' after condition"
  | printEnd => "';' after value"
  | returnEnd => "';' after return value"
  | expressionEnd => "';' after expression"
  | functionName => "function name"
  | parametersOpening => "'(' after function name"
  | parameterName => "a parameter name"
  | parametersClosing => "')' after parameters"
  | bodyOpening => "'\x7b' before function body"
  | blockClosing => "'\x7d' after block"
  | argumentsClosing => "')' after arguments"
  | groupingClosing => "')' after expression"

end Expectation

/-- The greatest number of parameters of a function and of arguments of a call. -/
def argumentLimit : Nat := 255

inductive SyntaxFault where
  | missing (expectation : Expectation)
  | noExpression
  | returnOutsideFunction
  | tooManyParameters
  | tooManyArguments
  deriving DecidableEq, Repr

def SyntaxFault.message : SyntaxFault → String
  | missing expectation => "Expected " ++ expectation.description ++ "."
  | noExpression => "Expected expression."
  | returnOutsideFunction => "Cannot return from top-level code."
  | tooManyParameters => "Cannot have more than " ++ toString argumentLimit ++ " parameters."
  | tooManyArguments => "Cannot have more than " ++ toString argumentLimit ++ " arguments."

structure SyntaxError where
  fault : SyntaxFault
  token : Token
  deriving DecidableEq, Repr

end Lox
