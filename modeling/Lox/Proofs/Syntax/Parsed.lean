import Lox.Proofs.Syntax.WellFormed

/-!
# Trees made of tokens

What parsing can build: a well-formed tree whose names are name tokens and
whose literals are those of tokens, or stand where an expression was left out.
All tokens are of a given origin.
-/

set_option autoImplicit false

namespace Lox

section Definitions

variable (origin : Token → Prop)

/-- A literal that a token of the origin denotes, or that stands for an
expression that was left out. -/
def Literal.Denoted (value : Literal) : Prop :=
  (∃ token, origin token ∧ token.literal? = some value) ∨ value = .nil ∨ value = .bool true

/-- Expressions that are made of tokens of an origin. -/
inductive Expr.Parsed : Expr → Prop where
  | literal {value} : value.Denoted origin → Parsed (.literal value)
  | variable {name} : origin name → name.kind = .name → Parsed (.variable name)
  | assign {name value} :
      origin name → name.kind = .name → Parsed value → Parsed (.assign (some name) value)
  | unary {operator operand} :
      operator.kind ∈ TokenKind.unaryOperators → origin operator →
      Parsed operand → Parsed (.unary (some operator) operand)
  | binary {left operator right} :
      operator.kind ∈ TokenKind.binaryOperators → origin operator →
      Parsed left → Parsed right → Parsed (.binary left operator right)
  | logical {left operator right} :
      operator.kind ∈ TokenKind.logicalOperators → origin operator →
      Parsed left → Parsed right → Parsed (.logical left operator right)
  | call {callee paren arguments} :
      origin paren → Parsed callee → (∀ argument ∈ arguments, Parsed argument) →
      Parsed (.call callee paren arguments)
  | grouping {inner} : Parsed inner → Parsed (.grouping inner)

/-- Statements that are made of tokens of an origin, and whether they stand
inside the body of a function. -/
inductive Stmt.Parsed : Bool → Stmt → Prop where
  | expression {inBody value} : value.Parsed origin → Parsed inBody (.expression value)
  | print {inBody value} : value.Parsed origin → Parsed inBody (.print value)
  | variable {inBody name initializer} :
      origin name → name.kind = .name → (∀ value ∈ initializer, Expr.Parsed origin value) →
      Parsed inBody (.variable name initializer)
  | block {inBody statements} :
      (∀ stmt ∈ statements, Parsed inBody stmt) → Parsed inBody (.block statements)
  | branch {inBody keyword condition thenBranch elseBranch} :
      origin keyword → condition.Parsed origin → Parsed inBody thenBranch →
      (∀ stmt ∈ elseBranch, Parsed inBody stmt) →
      Parsed inBody (.branch keyword condition thenBranch elseBranch)
  | loop {inBody keyword condition body} :
      origin keyword → condition.Parsed origin → Parsed inBody body →
      Parsed inBody (.loop keyword condition body)
  | function {inBody name parameters body} :
      origin name → name.kind = .name → (∀ name ∈ parameters, origin name ∧ name.kind = .name) →
      (∀ stmt ∈ body, Parsed true stmt) → Parsed inBody (.function name parameters body)
  | returning {keyword value} :
      (∀ result ∈ value, Expr.Parsed origin result) → Parsed true (.returning keyword value)

end Definitions

variable {origin : Token → Prop}

theorem Expr.Parsed.wellFormed {expr : Expr} (parsed : expr.Parsed origin) :
    expr.WellFormed origin := by
  induction parsed with
  | literal _ => exact .literal
  | «variable» name _ => exact .variable name
  | assign name _ _ ih => exact .assign name ih
  | unary kind operator _ ih => exact .unary kind operator ih
  | binary kind operator _ _ left right => exact .binary kind operator left right
  | logical kind operator _ _ left right => exact .logical kind operator left right
  | call paren _ _ callee arguments => exact .call paren callee arguments
  | grouping _ ih => exact .grouping ih

theorem Stmt.Parsed.wellFormed {inBody : Bool} {stmt : Stmt} (parsed : stmt.Parsed origin inBody) :
    stmt.WellFormed origin inBody := by
  induction parsed with
  | expression value => exact .expression value.wellFormed
  | print value => exact .print value.wellFormed
  | «variable» _ _ value => exact .variable fun _ given => (value _ given).wellFormed
  | block _ ih => exact .block ih
  | branch keyword condition _ _ thenBranch elseBranch =>
      exact .branch keyword condition.wellFormed thenBranch elseBranch
  | loop keyword condition _ body => exact .loop keyword condition.wellFormed body
  | function _ _ _ _ ih => exact .function ih
  | returning value => exact .returning fun _ given => (value _ given).wellFormed

theorem Stmt.Parsed.pair {inBody : Bool} {first second : Stmt}
    (parsedFirst : first.Parsed origin inBody) (parsedSecond : second.Parsed origin inBody) :
    (Stmt.block [first, second]).Parsed origin inBody :=
  .block (by simp [parsedFirst, parsedSecond])

end Lox
