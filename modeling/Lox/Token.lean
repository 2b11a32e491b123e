import Lox.Literal

/-!
# Tokens

A token has a kind, the text it was written as, and a place in the source. The
kinds are the symbols, the reserved words, names, the two kinds of literal text,
and the end of the source. A token's kind and its text are independent: the parser
and the evaluator look at the kind, messages and printed trees show the text.
-/

set_option autoImplicit false

namespace Lox

inductive Symbol where
  | leftParen | rightParen | leftBrace | rightBrace
  | comma | dot | minus | plus | semicolon | slash | star
  | bang | bangEqual | equal | equalEqual
  | greater | greaterEqual | less | lessEqual
  deriving DecidableEq, Repr

namespace Symbol

def spelling : Symbol → List Char
  | leftParen => ['('] | rightParen => [')']
  | leftBrace => ['\x7b'] | rightBrace => ['\x7d']
  | comma => [','] | dot => ['.'] | minus => ['-'] | plus => ['+']
  | semicolon => [';'] | slash => ['/'] | star => ['*']
  | bang => ['!'] | bangEqual => ['!', '=']
  | equal => ['='] | equalEqual => ['=', '=']
  | greater => ['>'] | greaterEqual => ['>', '=']
  | less => ['<'] | lessEqual => ['<', '=']

/-- All symbols, the longer spellings first. -/
def all : List Symbol :=
  [bangEqual, equalEqual, greaterEqual, lessEqual,
   leftParen, rightParen, leftBrace, rightBrace, comma, dot, minus, plus,
   semicolon, slash, star, bang, equal, greater, less]

theorem mem_all (symbol : Symbol) : symbol ∈ all := by
  cases symbol <;> decide

end Symbol

inductive Keyword where
  | andWord | classWord | elseWord | falseWord | forWord | funWord | ifWord | nilWord
  | orWord | printWord | returnWord | superWord | thisWord | trueWord | varWord | whileWord
  deriving DecidableEq, Repr

namespace Keyword

def spelling : Keyword → List Char
  | andWord => ['a', 'n', 'd']
  | classWord => ['c', 'l', 'a', 's', 's']
  | elseWord => ['e', 'l', 's', 'e']
  | falseWord => ['f', 'a', 'l', 's', 'e']
  | forWord => ['f', 'o', 'r']
  | funWord => ['f', 'u', 'n']
  | ifWord => ['i', 'f']
  | nilWord => ['n', 'i', 'l']
  | orWord => ['o', 'r']
  | printWord => ['p', 'r', 'i', 'n', 't']
  | returnWord => ['r', 'e', 't', 'u', 'r', 'n']
  | superWord => ['s', 'u', 'p', 'e', 'r']
  | thisWord => ['t', 'h', 'i', 's']
  | trueWord => ['t', 'r', 'u', 'e']
  | varWord => ['v', 'a', 'r']
  | whileWord => ['w', 'h', 'i', 'l', 'e']

def all : List Keyword :=
  [andWord, classWord, elseWord, falseWord, forWord, funWord, ifWord, nilWord,
   orWord, printWord, returnWord, superWord, thisWord, trueWord, varWord, whileWord]

def ofSpelling? (word : List Char) : Option Keyword :=
  all.find? (·.spelling = word)

theorem ofSpelling?_spelling (keyword : Keyword) :
    ofSpelling? keyword.spelling = some keyword := by
  cases keyword <;> decide

theorem ofSpelling?_eq_some_iff {word : List Char} {keyword : Keyword} :
    ofSpelling? word = some keyword ↔ keyword.spelling = word := by
  constructor
  · intro found
    simpa using List.find?_some found
  · rintro rfl
    exact ofSpelling?_spelling keyword

end Keyword

/-- What a token is, with the value that it carries when it is a literal. -/
inductive TokenKind where
  | symbol (symbol : Symbol)
  | keyword (keyword : Keyword)
  | name
  | number (value : Float)
  | string (text : String)
  | endOfSource
  deriving DecidableEq, Repr

/-- The literal that a token of this kind denotes by itself. -/
def TokenKind.literal? : TokenKind → Option Literal
  | number value => some (.number value)
  | string text => some (.string text)
  | keyword .trueWord => some (.bool true)
  | keyword .falseWord => some (.bool false)
  | keyword .nilWord => some .nil
  | _ => none

/-- A token of the source. The column counts characters of the spaced line,
lines and columns both from one. -/
structure Token where
  kind : TokenKind
  lexeme : String
  line : Nat
  column : Nat
  deriving DecidableEq, Repr

namespace Token

/-- The token that stands for the end of a source on the given line. -/
def ending (line : Nat) : Token := ⟨.endOfSource, "", line, 1⟩

def literal? (token : Token) : Option Literal := token.kind.literal?

end Token

end Lox
