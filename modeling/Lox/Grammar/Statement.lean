import Lox.Grammar.Expression

/-!
# Parsing statements

A statement is built from a parser for the statements inside it and one for
the declarations inside its blocks, used only behind a token of its own, with
the number of tokens ahead as a bound. Only the body of a function may return,
so the parsers look at the number of function bodies around the cursor.
-/

set_option autoImplicit false

namespace Lox

namespace Parser

/-- An expression, or a literal in its place when a token of the given kind is ahead. -/
def expressionUnless (ending : TokenKind) (value : Literal) : Parser Expr := do
  if ← isNext ending then return .literal value
  else expression

/-- An expression, unless a token of the given kind is ahead. -/
def optionalExpression (ending : TokenKind) : Parser (Option Expr) := do
  if ← isNext ending then return none
  else return some (← expression)

/-- An equals sign and an expression, if an equals sign is ahead. -/
def initializer : Parser (Option Expr) := do
  match ← accept (.symbol .equal) with
  | some _ => return some (← expression)
  | none => return none

def variableDeclaration : Parser Stmt := do
  let name ← expect .variableName
  let value ← initializer
  let _ ← expect .variableEnd
  return .variable name value

/-- An expression, or nothing, that stands as a statement. -/
def expressionStatement : Parser Stmt := do
  let value ← expressionUnless (.symbol .semicolon) .nil
  let _ ← expect .expressionEnd
  return .expression value

def printStatement : Parser Stmt := do
  let value ← expressionUnless (.symbol .semicolon) .nil
  let _ ← expect .printEnd
  return .print value

def returnStatement (keyword : Token) : Parser Stmt := do
  if (← depth) = 0 then fail ⟨.returnOutsideFunction, some keyword⟩
  else do
    let value ← optionalExpression (.symbol .semicolon)
    let _ ← expect .returnEnd
    return .returning keyword value

/-- The first clause of a counting loop. A declaration that cannot be read
keeps its failure, with the cursor back where it began; anything else is noted
not to be a declaration and read as an expression statement. -/
def loopInitializer : Parser Stmt := do
  if ← isNext (.keyword .varWord) then
    rewinding .loopDeclaration
      (do
        skip 1
        variableDeclaration)
      fail
  else do
    note .loopDeclaration
    expressionStatement

def forStatement (statement : Parser Stmt) (keyword : Token) : Parser Stmt := do
  let _ ← expect .forOpening
  let first ← loopInitializer
  let condition ← expressionUnless (.symbol .semicolon) (.bool true)
  let _ ← expect .forConditionEnd
  let increment ← optionalExpression (.symbol .rightParen)
  let _ ← expect .forClosing
  let body ← statement
  return .counting keyword first condition increment body

/-- A conditional behind its keyword. An alternative belongs to the nearest
conditional that has none yet. -/
def ifStatement (statement : Parser Stmt) (keyword : Token) : Parser Stmt := do
  let _ ← expect .ifOpening
  let condition ← expression
  let _ ← expect .ifClosing
  let thenBranch ← statement
  match ← accept (.keyword .elseWord) with
  | some _ => return .branch keyword condition thenBranch (some (← statement))
  | none => return .branch keyword condition thenBranch none

def whileStatement (statement : Parser Stmt) (keyword : Token) : Parser Stmt := do
  let _ ← expect .whileOpening
  let condition ← expression
  let _ ← expect .whileClosing
  let body ← statement
  return .loop keyword condition body

/-- Declarations up to a closing brace or the end, the brace not read. -/
def declarationsWithin (declaration : Parser Stmt) : Nat → Parser (List Stmt)
  | 0 => return []
  | bound + 1 => do
      if (← ahead).isEmpty || (← isNext (.symbol .rightBrace)) then return []
      else do
        let first ← declaration
        return first :: (← declarationsWithin declaration bound)

def block (declaration : Parser Stmt) : Parser (List Stmt) := do
  let statements ← declarationsWithin declaration (← remaining)
  let _ ← expect .blockClosing
  return statements

def functionDeclaration (declaration : Parser Stmt) : Parser Stmt := do
  let name ← expect .functionName
  let _ ← expect .parametersOpening
  let parameters ← listUntil (.symbol .rightParen) (expect .parameterName)
  if argumentLimit < parameters.length then fail ⟨.tooManyParameters, some name⟩
  else do
    let _ ← expect .parametersClosing
    let _ ← expect .bodyOpening
    let body ← inBody (block declaration)
    return .function name parameters body

/-- A statement, from the statements and declarations that may stand inside it. -/
def statementOver (statement declaration : Parser Stmt) : Parser Stmt := do
  match ← ahead with
  | [] => expressionStatement
  | token :: _ =>
      match token.kind with
      | .keyword .forWord => do
          skip 1
          forStatement statement token
      | .keyword .ifWord => do
          skip 1
          ifStatement statement token
      | .keyword .printWord => do
          skip 1
          printStatement
      | .keyword .returnWord => do
          skip 1
          returnStatement token
      | .keyword .whileWord => do
          skip 1
          whileStatement statement token
      | .symbol .leftBrace => do
          skip 1
          return .block (← block declaration)
      | _ => expressionStatement

/-- A declaration, from the statements and declarations that may stand inside it. -/
def declarationOver (statement declaration : Parser Stmt) : Parser Stmt := do
  match ← ahead with
  | [] => expressionStatement
  | token :: _ =>
      match token.kind with
      | .keyword .funWord => do
          skip 1
          functionDeclaration declaration
      | .keyword .varWord => do
          skip 1
          variableDeclaration
      | _ => statementOver statement declaration

mutual

/-- A statement of at most the given number of tokens. -/
def statementWithin : Nat → Cursor → Reply Stmt
  | 0, cursor => expressionStatement cursor
  | bound + 1, cursor =>
      statementOver (statementWithin bound) (declarationWithin bound) cursor

def declarationWithin : Nat → Cursor → Reply Stmt
  | 0, cursor => expressionStatement cursor
  | bound + 1, cursor =>
      declarationOver (statementWithin bound) (declarationWithin bound) cursor

end

def declaration : Parser Stmt := fun cursor =>
  declarationWithin cursor.remaining cursor

end Parser

end Lox
