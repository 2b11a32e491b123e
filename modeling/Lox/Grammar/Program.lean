import Lox.Grammar.Statement

/-!
# Parsing a token list

A program is the declarations up to the end of the source, which is the first
token of that kind or, if there is none, a token made up behind the last one.
Parsing stops at the first failure and keeps the statements before it.
-/

set_option autoImplicit false

namespace Lox

/-- Statements parsed in turn, the failure that ended them early, and the rewinds on the way. -/
structure Parse where
  statements : List Stmt
  failure : Option Failure
  rewinds : List Rewind

namespace Parse

/-- Declarations until no token is ahead or one cannot be read. The bound is at
least the number of tokens ahead. -/
def within : Nat → Cursor → Parse
  | 0, _ => ⟨[], none, []⟩
  | bound + 1, cursor =>
      if cursor.rest.isEmpty then ⟨[], none, []⟩
      else
        match Parser.declaration cursor with
        | ⟨.ok first, reached, rewinds⟩ =>
            let later := within bound reached
            { later with
              statements := first :: later.statements
              rewinds := rewinds ++ later.rewinds }
        | ⟨.error failure, _, rewinds⟩ => ⟨[], some failure, rewinds⟩

/-- All declarations of a list without the end of the source. -/
def ofBody (tokens : List Token) : Parse :=
  within tokens.length (.ofTokens tokens 0)

end Parse

/-- A parsed token list, a failure now being an error at a token, and every
rewind given with the index of the token that it went back to. -/
structure ParsedTokens where
  statements : List Stmt
  error : Option SyntaxError
  rewinds : List (Attempt × Nat)

def Token.isEnding (token : Token) : Bool := token.kind = .endOfSource

def bodyOf (tokens : List Token) : List Token := tokens.takeWhile (!·.isEnding)

/-- The end of the source: the first such token, or one on the line of the last token. -/
def endingOf (tokens : List Token) : Token :=
  (tokens.find? Token.isEnding).getD (Token.ending ((tokens.getLast?.map Token.line).getD 1))

/-- A failure as an error, at the end of the source if no token was found. -/
def Failure.toError (ending : Token) (failure : Failure) : SyntaxError :=
  ⟨failure.fault, failure.found.getD ending⟩

def parseTokens (tokens : List Token) : ParsedTokens :=
  let body := bodyOf tokens
  let parse := Parse.ofBody body
  { statements := parse.statements
    error := parse.failure.map (Failure.toError (endingOf tokens))
    rewinds := parse.rewinds.map fun rewind => (rewind.attempt, body.length - rewind.remaining) }

end Lox
