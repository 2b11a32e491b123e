/-!
# Source lines

A source is cut into lines at each line feed, and every line is then spaced:
its words are joined by single spaces, a word being a longest run without
white space. Text behind the last line feed is a line only if there is any.
Spacing drops what stands at either end of a line, so a carriage return before
the line feed never shows.
-/

set_option autoImplicit false

namespace Lox

/-- The ranges of the Unicode property White_Space, both ends included. -/
def whiteSpaceRanges : List (Nat × Nat) :=
  [(0x09, 0x0d), (0x20, 0x20), (0x85, 0x85), (0xa0, 0xa0), (0x1680, 0x1680),
   (0x2000, 0x200a), (0x2028, 0x2029), (0x202f, 0x202f), (0x205f, 0x205f), (0x3000, 0x3000)]

def isWhiteSpace (char : Char) : Bool :=
  whiteSpaceRanges.any fun (first, last) => first ≤ char.toNat && char.toNat ≤ last

namespace Source

theorem length_dropWhile_le {α : Type} (keep : α → Bool) (list : List α) :
    (list.dropWhile keep).length ≤ list.length :=
  (List.dropWhile_sublist keep).length_le

def inLine (char : Char) : Bool := char != '\n'

/-- The lines of a text, without their line feeds. -/
def lines : List Char → List (List Char)
  | [] => []
  | char :: rest =>
      let text := char :: rest
      text.takeWhile inLine :: lines ((text.dropWhile inLine).drop 1)
termination_by text => text.length
decreasing_by
  rw [List.length_drop]
  have := length_dropWhile_le inLine (char :: rest)
  simp only [List.length_cons] at this ⊢
  omega

def inWord (char : Char) : Bool := !isWhiteSpace char

/-- The longest runs without white space, in order. -/
def words : List Char → List (List Char)
  | [] => []
  | char :: rest =>
      if isWhiteSpace char then words rest
      else (char :: rest.takeWhile inWord) :: words (rest.dropWhile inWord)
termination_by text => text.length
decreasing_by
  · simp
  · have := length_dropWhile_le inWord rest
    simp only [List.length_cons]
    omega

/-- A line with its words joined by single spaces. -/
def spaced (line : List Char) : List Char := [' '].intercalate (words line)

end Source

end Lox
