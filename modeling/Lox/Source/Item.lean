import Lox.Source.Line
import Lox.Source.Lexeme

/-!
# Items

Reading a line gives a list of items, each a token or a lexical error. An
error does not end the reading: the character that begins nothing is skipped,
and a quote that is never closed takes the rest of its line.
-/

set_option autoImplicit false

namespace Lox

inductive LexicalFault where
  | unrecognized (char : Char)
  | unterminated
  deriving DecidableEq, Repr

def LexicalFault.message : LexicalFault → String
  | unrecognized char => "Unexpected character '" ++ String.singleton char ++ "'."
  | unterminated => "Unterminated string literal."

structure LexicalError where
  fault : LexicalFault
  line : Nat
  column : Nat
  deriving DecidableEq, Repr

/-- What one place of a line gives. -/
abbrev Item := Except LexicalError Token

namespace Item

/-- The items of a spaced line from the given column on. -/
def ofSpaced (line : Nat) (column : Nat) : List Char → List Item
  | [] => []
  | char :: rest =>
      if char = ' ' then ofSpaced line (column + 1) rest
      else
        match Lexeme.read char rest with
        | .comment => []
        | .unterminated => [.error ⟨.unterminated, line, column⟩]
        | .unrecognized =>
            .error ⟨.unrecognized char, line, column⟩ :: ofSpaced line (column + 1) rest
        | .token kind more =>
            .ok ⟨kind, String.ofList (char :: more), line, column⟩ ::
              ofSpaced line (column + 1 + more.length) (rest.drop more.length)
termination_by text => text.length
decreasing_by all_goals simp only [List.length_cons, List.length_drop]; omega

/-- The items of a source line with the given number. -/
def ofLine (line : Nat) (text : List Char) : List Item :=
  ofSpaced line 1 (Source.spaced text)

def tokens (items : List Item) : List Token := items.filterMap Except.toOption

def error? : Item → Option LexicalError
  | .ok _ => none
  | .error error => some error

def errors (items : List Item) : List LexicalError := items.filterMap error?

end Item

end Lox
