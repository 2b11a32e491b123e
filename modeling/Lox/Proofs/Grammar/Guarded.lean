import Lox.Grammar.Program

/-!
# Parsing with guards

The grammar, read by a parser that holds the whole token list, the end of the
source among its tokens, and the index of the token ahead. Nothing in this form
keeps the index inside the list, so everything that could go wrong is guarded:
an index is looked up in the list, it may not be moved behind the first end of
the source, a function body may only be left if one is around, every production
has to end inside as many function bodies as it began in, and a declaration that
succeeds has to move the index on. Nested uses of the parser and passes through
its loops are counted against a bound. Where a guard or the bound does not hold,
the parser breaks off without any outcome.
-/

set_option autoImplicit false

namespace Lox

/-- The index of the token ahead, the number of function bodies around it, and
the rewinds on the way there. -/
structure Place where
  index : Nat
  depth : Nat
  rewinds : List (Attempt × Nat)

/-- A parser over a whole token list, which has no outcome if it breaks off. -/
def Guarded (α : Type) : Type :=
  List Token → Place → Option (Except SyntaxError α × Place)

namespace Guarded

variable {α β : Type}

protected def pure (value : α) : Guarded α := fun _ place => some (.ok value, place)

protected def bind (first : Guarded α) (next : α → Guarded β) : Guarded β := fun tokens place =>
  match first tokens place with
  | some (.ok value, reached) => next value tokens reached
  | some (.error error, reached) => some (.error error, reached)
  | none => none

instance : Monad Guarded where
  pure := Guarded.pure
  bind := Guarded.bind

def fail (error : SyntaxError) : Guarded α := fun _ place => some (.error error, place)

def breakOff : Guarded α := fun _ _ => none

/-- The outcome of a parser as a value, from where it stopped. -/
def outcome (parser : Guarded α) : Guarded (Except SyntaxError α) := fun tokens place =>
  (parser tokens place).map fun (outcome, reached) => (.ok outcome, reached)

/-! ## Guards -/

/-- The token with an index, which has to be one of the list. -/
def tokenAt (index : Nat) : Guarded Token := fun tokens place =>
  (tokens[index]?).map fun token => (.ok token, place)

/-- Moves to an index, which may not be behind that of the first end of the source. -/
def goTo (index : Nat) : Guarded Unit := fun tokens place =>
  if index ≤ tokens.findIdx Token.isEnding then some (.ok (), { place with index }) else none

/-- Reads inside one more function body. There has to be one to leave afterwards. -/
def inBody (body : Guarded α) : Guarded α := fun tokens place =>
  match body tokens { place with depth := place.depth + 1 } with
  | some (outcome, reached) =>
      if 0 < reached.depth then some (outcome, { reached with depth := reached.depth - 1 })
      else none
  | none => none

/-- Ends inside as many function bodies as it began in, with any outcome. -/
def production (parser : Guarded α) : Guarded α := fun tokens place =>
  match parser tokens place with
  | some (outcome, reached) => if reached.depth = place.depth then some (outcome, reached) else none
  | none => none

/-- Moves on if it succeeds. -/
def progressing (parser : Guarded α) : Guarded α := fun tokens place =>
  match parser tokens place with
  | some (.ok value, reached) =>
      if place.index < reached.index then some (.ok value, reached) else none
  | some (.error error, reached) => some (.error error, reached)
  | none => none

/-! ## Tokens -/

def index : Guarded Nat := fun _ place => some (.ok place.index, place)

def depth : Guarded Nat := fun _ place => some (.ok place.depth, place)

def note (attempt : Attempt) (index : Nat) : Guarded Unit := fun _ place =>
  some (.ok (), { place with rewinds := place.rewinds ++ [(attempt, index)] })

def peek : Guarded Token := do tokenAt (← index)

def isAtEnd : Guarded Bool := return (← peek).isEnding

/-- Moves on, unless at the end of the source, and gives the token before the one ahead. -/
def advance : Guarded Token := do
  if !(← isAtEnd) then goTo ((← index) + 1)
  tokenAt ((← index) - 1)

def isNext (kind : TokenKind) : Guarded Bool := do
  if ← isAtEnd then return false
  else return (← peek).kind = kind

def accept (kind : TokenKind) : Guarded (Option Token) := do
  if ← isNext kind then return some (← advance)
  else return none

/-- Reads the token ahead if it is of one of the kinds, tried in turn. -/
def acceptAny : List TokenKind → Guarded (Option Token)
  | [] => return none
  | kind :: kinds => do
      match ← accept kind with
      | some token => return some token
      | none => acceptAny kinds

def failHere (fault : SyntaxFault) : Guarded α := do fail ⟨fault, ← peek⟩

def expect (expectation : Expectation) : Guarded Token := do
  match ← accept expectation.kind with
  | some token => return token
  | none => failHere (.missing expectation)

/-- One item or more with a comma between any two. -/
def commaSeparated (item : Guarded α) : Nat → Guarded (List α)
  | 0 => breakOff
  | passes + 1 => do
      let first ← item
      match ← accept (.symbol .comma) with
      | some _ => return first :: (← commaSeparated item passes)
      | none => return [first]

/-- Items up to a token of the closing kind. -/
def listUntil (closing : TokenKind) (item : Guarded α) (bound : Nat) : Guarded (List α) := do
  if ← isNext closing then return []
  else commaSeparated item bound

/-! ## Expressions -/

section Expressions

variable (inner : Guarded Expr) (bound : Nat)

def primary : Guarded Expr := production do
  let token ← peek
  match token.literal? with
  | some value => do
      let _ ← advance
      return .literal value
  | none =>
      if token.kind = .name then do
        let _ ← advance
        return .variable token
      else if token.kind = .symbol .leftParen then do
        let _ ← advance
        let expr ← inner
        let _ ← expect .groupingClosing
        return .grouping expr
      else fail ⟨.noExpression, token⟩

def finishCall (callee : Expr) : Guarded Expr := production do
  let arguments ← listUntil (.symbol .rightParen) inner bound
  let paren ← expect .argumentsClosing
  if argumentLimit < arguments.length then fail ⟨.tooManyArguments, paren⟩
  else return .call callee paren arguments

def callsFrom : Nat → Expr → Guarded Expr
  | 0, _ => breakOff
  | passes + 1, callee => do
      match ← accept (.symbol .leftParen) with
      | some _ => callsFrom passes (← finishCall inner bound callee)
      | none => return callee

def call : Guarded Expr := production do
  let callee ← primary inner
  callsFrom inner bound bound callee

def unaryWithin (operand : Guarded Expr) : Nat → Guarded Expr
  | 0 => breakOff
  | nesting + 1 => production do
      match ← acceptAny [.symbol .bang, .symbol .minus] with
      | some operator => return .unary (some operator) (← unaryWithin operand nesting)
      | none => operand

def unary : Guarded Expr := unaryWithin (call inner bound) bound

def chainFrom (operators : List TokenKind) (node : Expr → Token → Expr → Expr)
    (operand : Guarded Expr) : Nat → Expr → Guarded Expr
  | 0, _ => breakOff
  | passes + 1, left => do
      match ← acceptAny operators with
      | some operator => do
          let right ← operand
          chainFrom operators node operand passes (node left operator right)
      | none => return left

def chain (operators : List TokenKind) (node : Expr → Token → Expr → Expr)
    (operand : Guarded Expr) : Guarded Expr := production do
  let left ← operand
  chainFrom operators node operand bound left

def factor : Guarded Expr :=
  chain bound [.symbol .star, .symbol .slash] .binary (unary inner bound)

def term : Guarded Expr :=
  chain bound [.symbol .minus, .symbol .plus] .binary (factor inner bound)

def comparison : Guarded Expr :=
  chain bound [.symbol .greater, .symbol .greaterEqual, .symbol .less, .symbol .lessEqual] .binary
    (term inner bound)

def equality : Guarded Expr :=
  chain bound [.symbol .bangEqual, .symbol .equalEqual] .binary (comparison inner bound)

def conjunction : Guarded Expr := chain bound [.keyword .andWord] .logical (equality inner bound)

def disjunction : Guarded Expr := chain bound [.keyword .orWord] .logical (conjunction inner bound)

/-- An assignment to a name, or nothing if the tokens ahead do not begin one. -/
def assignmentTarget : Guarded (Option Expr) := production do
  match ← accept .name with
  | none => return none
  | some name =>
      match ← accept (.symbol .equal) with
      | none => return none
      | some _ => return some (.assign (some name) (← inner))

/-- Goes back to where an assignment was tried in vain, and reads a disjunction. -/
def disjunctionInstead (checkpoint : Nat) : Guarded Expr := do
  if checkpoint + 1 < (← index) then note .assignment checkpoint
  goTo checkpoint
  disjunction inner bound

def assignment : Guarded Expr := production do
  let checkpoint ← index
  match ← outcome (assignmentTarget inner) with
  | .ok (some assigned) => return assigned
  | _ => disjunctionInstead inner bound checkpoint

end Expressions

def expression : Nat → Guarded Expr
  | 0 => breakOff
  | bound + 1 => assignment (expression bound) (bound + 1)

/-! ## Statements -/

section Simple

variable (bound : Nat)

def expressionUnless (ending : TokenKind) (value : Literal) : Guarded Expr := production do
  if ← isNext ending then return .literal value
  else expression bound

def optionalExpression (ending : TokenKind) : Guarded (Option Expr) := do
  if ← isNext ending then return none
  else return some (← expression bound)

def initializer : Guarded (Option Expr) := do
  match ← accept (.symbol .equal) with
  | some _ => return some (← expression bound)
  | none => return none

def variableDeclaration : Guarded Stmt := production do
  let name ← expect .variableName
  let value ← initializer bound
  let _ ← expect .variableEnd
  return .variable name value

def expressionStatement : Guarded Stmt := production do
  let value ← expressionUnless bound (.symbol .semicolon) .nil
  let _ ← expect .expressionEnd
  return .expression value

def printStatement : Guarded Stmt := production do
  let value ← expressionUnless bound (.symbol .semicolon) .nil
  let _ ← expect .printEnd
  return .print value

def returnStatement (keyword : Token) : Guarded Stmt := production do
  if (← depth) = 0 then fail ⟨.returnOutsideFunction, keyword⟩
  else do
    let value ← optionalExpression bound (.symbol .semicolon)
    let _ ← expect .returnEnd
    return .returning keyword value

/-- A declaration, or nothing if the token ahead does not begin one. -/
def loopDeclaration : Guarded (Option Stmt) := do
  match ← accept (.keyword .varWord) with
  | some _ => return some (← variableDeclaration bound)
  | none => return none

/-- Goes back to where a declaration was tried in vain, and reads an
expression statement. If that fails too, the failure of the declaration
counts, if it began as one. -/
def expressionInstead (declaration : Except SyntaxError (Option Stmt)) (checkpoint : Nat) :
    Guarded Stmt := do
  goTo checkpoint
  note .loopDeclaration checkpoint
  let first ← tokenAt checkpoint
  match ← outcome (expressionStatement bound), declaration with
  | .ok statement, _ => return statement
  | .error late, .error early => fail (if first.kind = .keyword .varWord then early else late)
  | .error late, .ok _ => fail late

def loopInitializer : Guarded Stmt := production do
  let checkpoint ← index
  match ← outcome (loopDeclaration bound) with
  | .ok (some declared) => return declared
  | declaration => expressionInstead bound declaration checkpoint

end Simple

section Nested

variable (statement declaration : Guarded Stmt) (bound : Nat)

def forStatement (keyword : Token) : Guarded Stmt := production do
  let _ ← expect .forOpening
  let first ← loopInitializer bound
  let condition ← expressionUnless bound (.symbol .semicolon) (.bool true)
  let _ ← expect .forConditionEnd
  let increment ← optionalExpression bound (.symbol .rightParen)
  let _ ← expect .forClosing
  let body ← statement
  return .counting keyword first condition increment body

def ifStatement (keyword : Token) : Guarded Stmt := production do
  let _ ← expect .ifOpening
  let condition ← expression bound
  let _ ← expect .ifClosing
  let thenBranch ← statement
  match ← accept (.keyword .elseWord) with
  | some _ => return .branch keyword condition thenBranch (some (← statement))
  | none => return .branch keyword condition thenBranch none

def whileStatement (keyword : Token) : Guarded Stmt := production do
  let _ ← expect .whileOpening
  let condition ← expression bound
  let _ ← expect .whileClosing
  let body ← statement
  return .loop keyword condition body

def declarationsUntilBrace : Nat → Guarded (List Stmt)
  | 0 => breakOff
  | passes + 1 => do
      if ← isNext (.symbol .rightBrace) then return []
      else if ← isAtEnd then return []
      else do
        let first ← declaration
        return first :: (← declarationsUntilBrace passes)

def block : Guarded (List Stmt) := production do
  let statements ← declarationsUntilBrace declaration bound
  let _ ← expect .blockClosing
  return statements

def functionDeclaration : Guarded Stmt := production do
  let name ← expect .functionName
  let _ ← expect .parametersOpening
  let parameters ← listUntil (.symbol .rightParen) (expect .parameterName) bound
  if argumentLimit < parameters.length then fail ⟨.tooManyParameters, name⟩
  else do
    let _ ← expect .parametersClosing
    let _ ← expect .bodyOpening
    let body ← inBody (block declaration bound)
    return .function name parameters body

def statementOver : Guarded Stmt := production do
  match ← accept (.keyword .forWord) with
  | some keyword => forStatement statement bound keyword
  | none =>
  match ← accept (.keyword .ifWord) with
  | some keyword => ifStatement statement bound keyword
  | none =>
  match ← accept (.keyword .printWord) with
  | some _ => printStatement bound
  | none =>
  match ← accept (.keyword .returnWord) with
  | some keyword => returnStatement bound keyword
  | none =>
  match ← accept (.keyword .whileWord) with
  | some keyword => whileStatement statement bound keyword
  | none =>
  match ← accept (.symbol .leftBrace) with
  | some _ => return .block (← block declaration bound)
  | none => expressionStatement bound

def declarationOver : Guarded Stmt := progressing (production do
  match ← accept (.keyword .funWord) with
  | some _ => functionDeclaration declaration bound
  | none =>
  match ← accept (.keyword .varWord) with
  | some _ => variableDeclaration bound
  | none => statementOver statement declaration bound)

end Nested

mutual

def statement : Nat → Guarded Stmt
  | 0 => breakOff
  | bound + 1 => statementOver (statement bound) (declaration bound) (bound + 1)

def declaration : Nat → Guarded Stmt
  | 0 => breakOff
  | bound + 1 => declarationOver (statement bound) (declaration bound) (bound + 1)

end

/-! ## Programs -/

/-- Declarations up to the end of the source or to one that cannot be read. -/
def program (bound : Nat) : Nat → Guarded (List Stmt × Option SyntaxError)
  | 0 => breakOff
  | passes + 1 => do
      if ← isAtEnd then return ([], none)
      else
        match ← outcome (declaration bound) with
        | .ok first => do
            let (rest, error) ← program bound passes
            return (first :: rest, error)
        | .error error => return ([], some error)

end Guarded

/-- A token list with the end of the source behind it, unless that is its last token. -/
def completed (tokens : List Token) : List Token :=
  match tokens.getLast? with
  | some last => if last.isEnding then tokens else tokens ++ [Token.ending last.line]
  | none => [Token.ending 1]

/-- Parses a token list with all guards, or breaks off. -/
def parseGuarded (bound : Nat) (tokens : List Token) : Option ParsedTokens :=
  match Guarded.program bound bound (completed tokens) ⟨0, 0, []⟩ with
  | some (.ok (statements, error), reached) => some ⟨statements, error, reached.rewinds⟩
  | _ => none

end Lox
