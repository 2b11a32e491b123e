import Lox.Source.Lexeme

/-!
# What a lexeme takes of its line

Whatever begins at a character is found on the line: a token takes the
characters directly behind it, a comment begins with two slashes, and only a
quote can be unterminated. No text reads as the end of the source.
-/

set_option autoImplicit false

namespace Lox

namespace Lexeme

/-- What a lexeme tells of the character that it begins at and the rest of the line. -/
def Fits (first : Char) (rest : List Char) : Lexeme → Prop
  | comment => ['/', '/'] <+: first :: rest
  | unterminated => first = '"'
  | unrecognized => True
  | token kind more => kind ≠ .endOfSource ∧ more <+: rest

theorem fraction_eq_nil_or (rest : List Char) :
    fraction rest = [] ∨ '.' :: fraction rest <+: rest := by
  unfold fraction
  split
  · next digits => exact .inr (List.cons_prefix_cons.mpr ⟨rfl, List.takeWhile_prefix _⟩)
  · exact .inl rfl

/-- What a prefix of the rest behind a longest run begins with, the run does too. -/
theorem takeWhile_append_isPrefix {keep : Char → Bool} {rest more : List Char}
    (behind : more <+: rest.dropWhile keep) : rest.takeWhile keep ++ more <+: rest := by
  have joined := (List.prefix_append_right_inj (rest.takeWhile keep)).mpr behind
  rwa [List.takeWhile_append_dropWhile] at joined

theorem number_fits (first : Char) (rest : List Char) : (number first rest).Fits first rest := by
  refine ⟨by simp, ?_⟩
  obtain none | behind := fraction_eq_nil_or (rest.dropWhile Char.isDigit)
  · simpa [none] using List.takeWhile_prefix Char.isDigit
  · split
    · exact List.takeWhile_prefix _
    · exact takeWhile_append_isPrefix behind

theorem wordKind_ne_endOfSource (word : List Char) : wordKind word ≠ .endOfSource := by
  unfold wordKind
  split <;> simp

theorem word_fits (first : Char) (rest : List Char) : (word first rest).Fits first rest :=
  ⟨wordKind_ne_endOfSource _, List.takeWhile_prefix _⟩

theorem quoted_fits (rest : List Char) : (quoted rest).Fits '"' rest := by
  unfold quoted
  split
  · rfl
  · exact ⟨by simp, takeWhile_append_isPrefix (List.takeWhile_prefix _)⟩

theorem isPrefix_of_symbol? {text : List Char} {symbol : Symbol} (found : symbol? text = some symbol) :
    symbol.spelling <+: text := by
  have begins := List.find?_some found
  exact List.isPrefixOf_iff_prefix.mp begins

theorem isPrefix_drop_of_cons {spelling rest : List Char} {first : Char}
    (begins : spelling <+: first :: rest) : spelling.drop 1 <+: rest := by
  cases spelling with
  | nil => simp
  | cons char more => exact (List.cons_prefix_cons.mp begins).2

theorem read_fits (first : Char) (rest : List Char) : (Lexeme.read first rest).Fits first rest := by
  unfold Lexeme.read
  split
  · next quote =>
    subst quote
    exact quoted_fits rest
  · split
    · exact number_fits first rest
    · split
      · exact word_fits first rest
      · split
        · next slashes =>
          obtain ⟨rfl, head⟩ := slashes
          obtain ⟨behind, rfl⟩ := List.head?_eq_some_iff.mp head
          exact ⟨behind, rfl⟩
        · split
          · next symbol found =>
            exact ⟨by simp, isPrefix_drop_of_cons (isPrefix_of_symbol? found)⟩
          · trivial

end Lexeme

end Lox
