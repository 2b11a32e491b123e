import Lox.Syntax.Tree

/-!
# Values

What an expression evaluates to. A function value holds the scope that was
current when its declaration was executed, and the number of that execution
among all executions of function declarations. Two function values are equal
when both agree, so a function is equal to its copies and to nothing else.
-/

set_option autoImplicit false

namespace Lox

/-- The index of a scope in the order of creation. -/
abbrev ScopeId := Nat

/-- A function that a program has declared. -/
structure Closure where
  identity : Nat
  scope : ScopeId
  name : Token
  parameters : List Token
  body : List Stmt

inductive Builtin where
  | clock
  deriving DecidableEq, Repr

def Builtin.arity : Builtin → Nat
  | clock => 0

inductive ValueType where
  | boolean | function | nil | number | string
  deriving DecidableEq, Repr

def ValueType.name : ValueType → String
  | boolean => "boolean"
  | function => "function"
  | nil => "nil"
  | number => "number"
  | string => "string"

inductive Value where
  | nil
  | bool (value : Bool)
  | number (value : Float)
  | string (text : String)
  | function (closure : Closure)
  | builtin (function : Builtin)

namespace Value

def ofLiteral : Literal → Value
  | .nil => nil
  | .bool value => bool value
  | .number value => number value
  | .string text => string text

def type : Value → ValueType
  | nil => .nil
  | bool _ => .boolean
  | number _ => .number
  | string _ => .string
  | function _ => .function
  | builtin _ => .function

/-- The text that printing shows for a value. -/
def text : Value → String
  | nil => Literal.nil.text
  | bool value => (Literal.bool value).text
  | number value => (Literal.number value).text
  | string text => text
  | function closure => "<fn " ++ closure.name.lexeme ++ ">"
  | builtin _ => "<native fn>"

/-- Whether two values are equal in the language. Numbers compare as doubles do, so
an undefined number is not equal to itself; values of different types never are. -/
def equals : Value → Value → Bool
  | nil, nil => true
  | bool left, bool right => left == right
  | number left, number right => left == right
  | string left, string right => left == right
  | function left, function right =>
      left.identity == right.identity && left.scope == right.scope
  | builtin left, builtin right => left == right
  | _, _ => false

theorem function_of_equals {value : Value} {closure : Closure}
    (equal : value.equals (.function closure) = true) :
    ∃ same, value = .function same ∧ same.identity = closure.identity ∧
      same.scope = closure.scope := by
  cases value with
  | function same =>
      simp only [equals, Bool.and_eq_true, beq_iff_eq] at equal
      exact ⟨same, rfl, equal⟩
  | nil | bool | number | string | builtin => cases equal

end Value

end Lox
