import Lox.Grammar.Fault

/-!
# Parsers

A parser takes a cursor, the tokens ahead together with the number of function
bodies around them, and replies with a value or a failure and with the cursor
at which it stopped. The tokens ahead never hold the end of the source: a parser
at the end has none left, and a failure there has found no token.

The grammar is parsed by descent without going back, but for two places. There
`rewinding` tries one production and, if that fails, takes another up from the
same cursor. A reply tells which of these rewinds took place.
-/

set_option autoImplicit false

namespace Lox

/-- The tokens ahead, counted, and the number of function bodies around them. -/
structure Cursor where
  rest : List Token
  remaining : Nat
  depth : Nat
  remaining_eq : remaining = rest.length

namespace Cursor

def ofTokens (tokens : List Token) (depth : Nat) : Cursor :=
  ⟨tokens, tokens.length, depth, rfl⟩

def skip (cursor : Cursor) (count : Nat) : Cursor :=
  ⟨cursor.rest.drop count, cursor.remaining - count, cursor.depth, by
    rw [cursor.remaining_eq, List.length_drop]⟩

/-- The cursor with another number of function bodies around it. -/
def atDepth (cursor : Cursor) (depth : Nat) : Cursor := { cursor with depth }

end Cursor

/-- The production that was tried in vain before a rewind. -/
inductive Attempt where
  | assignment
  | loopDeclaration
  deriving DecidableEq, Repr

/-- A return to an earlier cursor, with the number of tokens ahead of it. -/
structure Rewind where
  attempt : Attempt
  remaining : Nat
  deriving DecidableEq, Repr

/-- A syntax fault with the token that was found, or none at the end of the source. -/
structure Failure where
  fault : SyntaxFault
  found : Option Token
  deriving DecidableEq, Repr

/-- A value or a failure, the cursor reached, and the rewinds on the way. -/
structure Reply (α : Type) where
  outcome : Except Failure α
  cursor : Cursor
  rewinds : List Rewind

def Parser (α : Type) : Type := Cursor → Reply α

namespace Parser

variable {α β : Type}

protected def pure (value : α) : Parser α := fun cursor => ⟨.ok value, cursor, []⟩

/-- Goes on with the value of the first parser, unless that failed. -/
@[inline] protected def bind (first : Parser α) (next : α → Parser β) : Parser β :=
  fun cursor =>
    match first cursor with
    | ⟨.ok value, reached, rewinds⟩ =>
        let later := next value reached
        { later with rewinds := rewinds ++ later.rewinds }
    | ⟨.error failure, reached, rewinds⟩ => ⟨.error failure, reached, rewinds⟩

instance : Monad Parser where
  pure := Parser.pure
  bind := Parser.bind

def fail (failure : Failure) : Parser α := fun cursor => ⟨.error failure, cursor, []⟩

/-- Fails at the token ahead. -/
def failHere (fault : SyntaxFault) : Parser α := fun cursor =>
  fail ⟨fault, cursor.rest.head?⟩ cursor

def ahead : Parser (List Token) := fun cursor => ⟨.ok cursor.rest, cursor, []⟩

def remaining : Parser Nat := fun cursor => ⟨.ok cursor.remaining, cursor, []⟩

def depth : Parser Nat := fun cursor => ⟨.ok cursor.depth, cursor, []⟩

def skip (count : Nat) : Parser Unit := fun cursor =>
  ⟨.ok (), cursor.skip count, []⟩

def isNext (kind : TokenKind) : Parser Bool := do
  return (← ahead).head?.any (·.kind = kind)

/-- Reads the token ahead if its kind is accepted. -/
def acceptIf (accepts : TokenKind → Bool) : Parser (Option Token) := do
  match ← ahead with
  | token :: _ =>
      if accepts token.kind then do
        skip 1
        return some token
      else return none
  | [] => return none

def accept (kind : TokenKind) : Parser (Option Token) := acceptIf (· = kind)

/-- Reads the token that a place of the grammar asks for. -/
def expect (expectation : Expectation) : Parser Token := do
  match ← accept expectation.kind with
  | some token => return token
  | none => failHere (.missing expectation)

/-- Reads with one more function body around the cursor. -/
def inBody (body : Parser α) : Parser α := fun cursor =>
  let reply := body (cursor.atDepth (cursor.depth + 1))
  { reply with cursor := reply.cursor.atDepth (reply.cursor.depth - 1) }

/-- Notes that a production was tried in vain and the cursor is where it began. -/
def note (attempt : Attempt) : Parser Unit := fun cursor =>
  ⟨.ok (), cursor, [⟨attempt, cursor.remaining⟩]⟩

/-- Tries a production. If it fails, notes that, and goes on from where it began. -/
def rewinding (attempt : Attempt) (tried : Parser α) (otherwise : Failure → Parser α) :
    Parser α := fun cursor =>
  match tried cursor with
  | ⟨.ok value, reached, rewinds⟩ => ⟨.ok value, reached, rewinds⟩
  | ⟨.error failure, _, rewinds⟩ =>
      let later := (do note attempt; otherwise failure : Parser α) cursor
      { later with rewinds := rewinds ++ later.rewinds }

/-- One item or more with a comma between any two. The bound is at least the
number of tokens ahead. -/
def commaSeparated (item : Parser α) : Nat → Parser (List α)
  | 0 => do return [← item]
  | bound + 1 => do
      let first ← item
      match ← accept (.symbol .comma) with
      | some _ => return first :: (← commaSeparated item bound)
      | none => return [first]

/-- Items with a comma between any two, up to a token of the closing kind,
which is not read. There may be none. -/
def listUntil (closing : TokenKind) (item : Parser α) : Parser (List α) := do
  if ← isNext closing then return []
  else commaSeparated item (← remaining)

end Parser

end Lox
