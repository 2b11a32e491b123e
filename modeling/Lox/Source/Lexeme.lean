import Lox.Token

/-!
# The lexeme at a place in a line

`Lexeme.read` decides what begins at a character that is not a space, from that
character and the rest of its line. Numbers, words, and symbols take the longest
text that they can. A point belongs to a number only between digits. Text in
quotes runs to the next quote and takes along every quote that follows
directly; all but the outermost two count as text.
-/

set_option autoImplicit false

namespace Lox

/-- What begins at a character that is not a space. -/
inductive Lexeme where
  /-- A comment, which runs to the end of the line. -/
  | comment
  /-- A quote without a second one on the line. -/
  | unterminated
  /-- A character that begins nothing. -/
  | unrecognized
  /-- A token, with the characters that it takes beyond the first. -/
  | token (kind : TokenKind) (more : List Char)
  deriving DecidableEq, Repr

namespace Lexeme

def beginsWord (char : Char) : Bool := char.isLower || char == '_'

def continuesWord (char : Char) : Bool := char.isAlphanum || char == '_'

def inQuotes (char : Char) : Bool := char != '"'

/-- The kind of a word: a reserved word only as a whole, else a name. -/
def wordKind (word : List Char) : TokenKind :=
  match Keyword.ofSpelling? word with
  | some keyword => .keyword keyword
  | none => .name

/-- The digits behind the point, when the text goes on with a point and a digit. -/
def fraction : List Char → List Char
  | '.' :: rest => rest.takeWhile Char.isDigit
  | _ => []

def number (first : Char) (rest : List Char) : Lexeme :=
  let whole := rest.takeWhile Char.isDigit
  let behind := fraction (rest.dropWhile Char.isDigit)
  let value := (Number.Decimal.read (first :: whole) behind).toFloat
  .token (.number value) (if behind.isEmpty then whole else whole ++ '.' :: behind)

def word (first : Char) (rest : List Char) : Lexeme :=
  let more := rest.takeWhile continuesWord
  .token (wordKind (first :: more)) more

/-- The text in quotes whose opening quote has just been read. -/
def quoted (rest : List Char) : Lexeme :=
  match rest.dropWhile inQuotes with
  | [] => .unterminated
  | closing =>
      let more := rest.takeWhile inQuotes ++ closing.takeWhile (· == '"')
      .token (.string (String.ofList more.dropLast)) more

/-- The first symbol of the table that the text begins with. -/
def symbol? (text : List Char) : Option Symbol :=
  Symbol.all.find? fun symbol => symbol.spelling.isPrefixOf text

/-- What begins at a character that is not a space, from it and the rest of its line. -/
def read (first : Char) (rest : List Char) : Lexeme :=
  if first = '"' then quoted rest
  else if first.isDigit then number first rest
  else if beginsWord first then word first rest
  else if first = '/' ∧ rest.head? = some '/' then .comment
  else
    match symbol? (first :: rest) with
    | some symbol => .token (.symbol symbol) (symbol.spelling.drop 1)
    | none => .unrecognized

end Lexeme

end Lox
