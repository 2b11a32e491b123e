import Lox.Syntax.Tree

/-!
# Printed trees

A tree is shown in prefix form, every node in parentheses that hold its head
and then its parts. An operator shows its lexeme and a literal its text, a
string without quotes. A node without its name or operator shows its operand alone.
-/

set_option autoImplicit false

namespace Lox

/-- A head and its parts in parentheses, separated by single spaces. -/
def parenthesized (head : String) (parts : List String) : String :=
  "(" ++ " ".intercalate (head :: parts) ++ ")"

mutual

def Expr.text : Expr → String
  | .literal value => value.text
  | .variable name => name.lexeme
  | .assign (some name) value => parenthesized ("= " ++ name.lexeme) [value.text]
  | .assign none value => value.text
  | .unary (some operator) operand => parenthesized operator.lexeme [operand.text]
  | .unary none operand => operand.text
  | .binary left operator right => parenthesized operator.lexeme [left.text, right.text]
  | .logical left operator right => parenthesized operator.lexeme [left.text, right.text]
  | .call callee _ arguments => parenthesized "call" (callee.text :: Expr.texts arguments)
  | .grouping inner => parenthesized "group" [inner.text]

def Expr.texts : List Expr → List String
  | [] => []
  | expr :: rest => expr.text :: Expr.texts rest

end

mutual

def Stmt.text : Stmt → String
  | .expression value => parenthesized ";" [value.text]
  | .print value => parenthesized "print" [value.text]
  | .variable name none => parenthesized ("var " ++ name.lexeme) []
  | .variable name (some value) => parenthesized ("var " ++ name.lexeme) [value.text]
  | .block statements => parenthesized "block" (Stmt.texts statements)
  | .branch _ condition thenBranch none =>
      parenthesized "if" [condition.text, thenBranch.text]
  | .branch _ condition thenBranch (some elseBranch) =>
      parenthesized "if" [condition.text, thenBranch.text, elseBranch.text]
  | .loop _ condition body => parenthesized "while" [condition.text, body.text]
  | .function name parameters body =>
      let names := " ".intercalate (parameters.map Token.lexeme)
      parenthesized ("fun " ++ name.lexeme ++ " (" ++ names ++ ")") (Stmt.texts body)
  | .returning _ none => parenthesized "return" []
  | .returning _ (some value) => parenthesized "return" [value.text]

def Stmt.texts : List Stmt → List String
  | [] => []
  | stmt :: rest => stmt.text :: Stmt.texts rest

end

end Lox
