import Lox.Token

/-!
# Syntax trees

Expressions and statements keep the tokens that later messages point at. A
tree need not come from a source text: any token may stand at any node, and
an assignment may lack its name and a unary node its operator. The parser
never builds such nodes; evaluating one gives its operand.

Equality of trees is decidable. It compares the tokens with their places.
-/

set_option autoImplicit false

namespace Lox

inductive Expr where
  | literal (value : Literal)
  | variable (name : Token)
  | assign (name : Option Token) (value : Expr)
  | unary (operator : Option Token) (operand : Expr)
  | binary (left : Expr) (operator : Token) (right : Expr)
  | logical (left : Expr) (operator : Token) (right : Expr)
  | call (callee : Expr) (paren : Token) (arguments : List Expr)
  | grouping (inner : Expr)
  deriving Repr

inductive Stmt where
  | expression (value : Expr)
  | print (value : Expr)
  | variable (name : Token) (initializer : Option Expr)
  | block (statements : List Stmt)
  | branch (keyword : Token) (condition : Expr) (thenBranch : Stmt) (elseBranch : Option Stmt)
  | loop (keyword : Token) (condition : Expr) (body : Stmt)
  | function (name : Token) (parameters : List Token) (body : List Stmt)
  | returning (keyword : Token) (value : Option Expr)
  deriving Repr

namespace Stmt

/-- A counting loop, as a block that runs the initializer and then loops. The
increment follows the body in a block of its own, so no name that the body
declares is in scope for it. -/
def counting (keyword : Token) (initializer : Stmt) (condition : Expr)
    (increment : Option Expr) (body : Stmt) : Stmt :=
  let body :=
    match increment with
    | some step => block [body, expression step]
    | none => body
  block [initializer, loop keyword condition body]

end Stmt

/-! ## Equality -/

mutual

def Expr.same : Expr → Expr → Bool
  | .literal value, .literal value' => value = value'
  | .variable name, .variable name' => name = name'
  | .assign name value, .assign name' value' => name = name' && value.same value'
  | .unary operator operand, .unary operator' operand' =>
      operator = operator' && operand.same operand'
  | .binary left operator right, .binary left' operator' right' =>
      left.same left' && operator = operator' && right.same right'
  | .logical left operator right, .logical left' operator' right' =>
      left.same left' && operator = operator' && right.same right'
  | .call callee paren arguments, .call callee' paren' arguments' =>
      callee.same callee' && paren = paren' && Expr.sameList arguments arguments'
  | .grouping inner, .grouping inner' => inner.same inner'
  | _, _ => false

def Expr.sameList : List Expr → List Expr → Bool
  | [], [] => true
  | expr :: rest, expr' :: rest' => expr.same expr' && Expr.sameList rest rest'
  | _, _ => false

end

mutual

theorem Expr.same_iff : ∀ left right : Expr, left.same right = true ↔ left = right
  | .literal _, right => by cases right <;> simp [Expr.same]
  | .variable _, right => by cases right <;> simp [Expr.same]
  | .assign _ value, right => by cases right <;> simp [Expr.same, same_iff value]
  | .unary _ operand, right => by cases right <;> simp [Expr.same, same_iff operand]
  | .binary first _ second, right => by
      cases right <;> simp [Expr.same, same_iff first, same_iff second, and_assoc]
  | .logical first _ second, right => by
      cases right <;> simp [Expr.same, same_iff first, same_iff second, and_assoc]
  | .call callee _ arguments, right => by
      cases right <;> simp [Expr.same, same_iff callee, sameList_iff arguments, and_assoc]
  | .grouping inner, right => by cases right <;> simp [Expr.same, same_iff inner]

theorem Expr.sameList_iff : ∀ left right : List Expr, sameList left right = true ↔ left = right
  | [], right => by cases right <;> simp [Expr.sameList]
  | expr :: rest, right => by
      cases right <;> simp [Expr.sameList, same_iff expr, sameList_iff rest]

end

instance : DecidableEq Expr := fun left right =>
  decidable_of_iff _ (Expr.same_iff left right)

mutual

def Stmt.same : Stmt → Stmt → Bool
  | .expression value, .expression value' => value = value'
  | .print value, .print value' => value = value'
  | .variable name initializer, .variable name' initializer' =>
      name = name' && initializer = initializer'
  | .block statements, .block statements' => Stmt.sameList statements statements'
  | .branch keyword condition thenBranch elseBranch,
      .branch keyword' condition' thenBranch' elseBranch' =>
      keyword = keyword' && condition = condition' && thenBranch.same thenBranch' &&
        Stmt.sameOption elseBranch elseBranch'
  | .loop keyword condition body, .loop keyword' condition' body' =>
      keyword = keyword' && condition = condition' && body.same body'
  | .function name parameters body, .function name' parameters' body' =>
      name = name' && parameters = parameters' && Stmt.sameList body body'
  | .returning keyword value, .returning keyword' value' => keyword = keyword' && value = value'
  | _, _ => false

def Stmt.sameList : List Stmt → List Stmt → Bool
  | [], [] => true
  | stmt :: rest, stmt' :: rest' => stmt.same stmt' && Stmt.sameList rest rest'
  | _, _ => false

def Stmt.sameOption : Option Stmt → Option Stmt → Bool
  | none, none => true
  | some stmt, some stmt' => stmt.same stmt'
  | _, _ => false

end

mutual

theorem Stmt.same_iff : ∀ left right : Stmt, left.same right = true ↔ left = right
  | .expression _, right => by cases right <;> simp [Stmt.same]
  | .print _, right => by cases right <;> simp [Stmt.same]
  | .variable _ _, right => by cases right <;> simp [Stmt.same]
  | .block statements, right => by cases right <;> simp [Stmt.same, sameList_iff statements]
  | .branch _ _ thenBranch elseBranch, right => by
      cases right <;> simp [Stmt.same, same_iff thenBranch, sameOption_iff elseBranch, and_assoc]
  | .loop _ _ body, right => by cases right <;> simp [Stmt.same, same_iff body, and_assoc]
  | .function _ _ body, right => by
      cases right <;> simp [Stmt.same, sameList_iff body, and_assoc]
  | .returning _ _, right => by cases right <;> simp [Stmt.same]

theorem Stmt.sameList_iff : ∀ left right : List Stmt, sameList left right = true ↔ left = right
  | [], right => by cases right <;> simp [Stmt.sameList]
  | stmt :: rest, right => by
      cases right <;> simp [Stmt.sameList, same_iff stmt, sameList_iff rest]

theorem Stmt.sameOption_iff :
    ∀ left right : Option Stmt, sameOption left right = true ↔ left = right
  | none, right => by cases right <;> simp [Stmt.sameOption]
  | some stmt, right => by cases right <;> simp [Stmt.sameOption, same_iff stmt]

end

instance : DecidableEq Stmt := fun left right =>
  decidable_of_iff _ (Stmt.same_iff left right)

end Lox
