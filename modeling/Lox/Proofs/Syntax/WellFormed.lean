import Lox.Syntax.Tree

/-!
# Well-formed trees

The trees that evaluation has a meaning for: every operator is one of its
node, no name or operator is missing, and only the body of a function returns.
The tokens that a fault can point at are all of a given origin.
-/

set_option autoImplicit false

namespace Lox

namespace TokenKind

def unaryOperators : List TokenKind := [.symbol .bang, .symbol .minus]

def binaryOperators : List TokenKind :=
  [.symbol .minus, .symbol .plus, .symbol .slash, .symbol .star,
   .symbol .greater, .symbol .greaterEqual, .symbol .less, .symbol .lessEqual,
   .symbol .equalEqual, .symbol .bangEqual]

/-- The operators whose right operand may be left out of an evaluation. -/
def logicalOperators : List TokenKind := [.keyword .orWord, .keyword .andWord]

end TokenKind

section Definitions

variable (origin : Token → Prop)

/-- Expressions that evaluation has a meaning for, with tokens of an origin. -/
inductive Expr.WellFormed : Expr → Prop where
  | literal {value} : WellFormed (.literal value)
  | variable {name} : origin name → WellFormed (.variable name)
  | assign {name value} :
      origin name → WellFormed value → WellFormed (.assign (some name) value)
  | unary {operator operand} :
      operator.kind ∈ TokenKind.unaryOperators → origin operator →
      WellFormed operand → WellFormed (.unary (some operator) operand)
  | binary {left operator right} :
      operator.kind ∈ TokenKind.binaryOperators → origin operator →
      WellFormed left → WellFormed right → WellFormed (.binary left operator right)
  | logical {left operator right} :
      operator.kind ∈ TokenKind.logicalOperators → origin operator →
      WellFormed left → WellFormed right → WellFormed (.logical left operator right)
  | call {callee paren arguments} :
      origin paren → WellFormed callee → (∀ argument ∈ arguments, WellFormed argument) →
      WellFormed (.call callee paren arguments)
  | grouping {inner} : WellFormed inner → WellFormed (.grouping inner)

/-- Statements that execution has a meaning for, and whether they stand inside
the body of a function. -/
inductive Stmt.WellFormed : Bool → Stmt → Prop where
  | expression {inBody value} :
      value.WellFormed origin → WellFormed inBody (.expression value)
  | print {inBody value} : value.WellFormed origin → WellFormed inBody (.print value)
  | variable {inBody name initializer} :
      (∀ value ∈ initializer, Expr.WellFormed origin value) →
      WellFormed inBody (.variable name initializer)
  | block {inBody statements} :
      (∀ stmt ∈ statements, WellFormed inBody stmt) → WellFormed inBody (.block statements)
  | branch {inBody keyword condition thenBranch elseBranch} :
      origin keyword → condition.WellFormed origin → WellFormed inBody thenBranch →
      (∀ stmt ∈ elseBranch, WellFormed inBody stmt) →
      WellFormed inBody (.branch keyword condition thenBranch elseBranch)
  | loop {inBody keyword condition body} :
      origin keyword → condition.WellFormed origin → WellFormed inBody body →
      WellFormed inBody (.loop keyword condition body)
  | function {inBody name parameters body} :
      (∀ stmt ∈ body, WellFormed true stmt) →
      WellFormed inBody (.function name parameters body)
  | returning {keyword value} :
      (∀ result ∈ value, Expr.WellFormed origin result) →
      WellFormed true (.returning keyword value)

end Definitions

section Origins

variable {origin wider : Token → Prop}

theorem Expr.WellFormed.mono {expr : Expr} (wellFormed : expr.WellFormed origin)
    (included : ∀ token, origin token → wider token) : expr.WellFormed wider := by
  induction wellFormed with
  | literal => exact .literal
  | «variable» name => exact .variable (included _ name)
  | assign name _ ih => exact .assign (included _ name) ih
  | unary kind operator _ ih => exact .unary kind (included _ operator) ih
  | binary kind operator _ _ left right => exact .binary kind (included _ operator) left right
  | logical kind operator _ _ left right => exact .logical kind (included _ operator) left right
  | call paren _ _ callee arguments => exact .call (included _ paren) callee arguments
  | grouping _ ih => exact .grouping ih

theorem Stmt.WellFormed.mono {inBody : Bool} {stmt : Stmt}
    (wellFormed : stmt.WellFormed origin inBody)
    (included : ∀ token, origin token → wider token) : stmt.WellFormed wider inBody := by
  induction wellFormed with
  | expression value => exact .expression (value.mono included)
  | print value => exact .print (value.mono included)
  | «variable» value => exact .variable fun _ given => (value _ given).mono included
  | block _ ih => exact .block ih
  | branch keyword condition _ _ thenBranch elseBranch =>
      exact .branch (included _ keyword) (condition.mono included) thenBranch elseBranch
  | loop keyword condition _ body => exact .loop (included _ keyword) (condition.mono included) body
  | function _ ih => exact .function ih
  | returning value => exact .returning fun _ given => (value _ given).mono included

end Origins

end Lox
