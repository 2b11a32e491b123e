import Lox.Proofs.Source.Growth
import Lox.Proofs.Source.Regions

/-!
# Maximal munch

What stands at a place of a line is the longest text there that is a token,
unless a comment or a quote begins there. This is said by rules that do not
read. Reading follows them, and they allow nothing else, neither for a lexeme
nor for a whole line.
-/

set_option autoImplicit false

namespace Lox

/-- What a text begins with. Quoted text ends with the first quote, or with the
last one of several that stand side by side. -/
inductive Lexeme.MaximalMunch : List Char → Lexeme → Prop where
  | comment {rest} : MaximalMunch ('/' :: '/' :: rest) .comment
  | unterminated {rest} : '"' ∉ rest → MaximalMunch ('"' :: rest) .unterminated
  | quoted {inner extra rest} :
      '"' ∉ inner → (∀ char ∈ extra, char = '"') → rest.head? ≠ some '"' →
      MaximalMunch ('"' :: (inner ++ extra ++ '"' :: rest))
        (.token (.string (String.ofList (inner ++ extra))) (inner ++ extra ++ ['"']))
  | longest {kind first more text} :
      ¬['/', '/'] <+: text → kind.Longest (first :: more) text →
      MaximalMunch text (.token kind more)
  | unrecognized {char rest} :
      char ≠ '"' → (∀ (kind : TokenKind) lexeme, kind.Spells lexeme → ¬lexeme <+: char :: rest) →
      MaximalMunch (char :: rest) .unrecognized

/-- The items of a text that begins at the given column of its line. -/
inductive Item.MaximalMunch (line : Nat) : Nat → List Char → List Item → Prop where
  | ended {column} : MaximalMunch line column [] []
  | space {column rest items} :
      MaximalMunch line (column + 1) rest items → MaximalMunch line column (' ' :: rest) items
  | comment {column text} : Lexeme.MaximalMunch text .comment → MaximalMunch line column text []
  | unterminated {column text} :
      Lexeme.MaximalMunch text .unterminated →
      MaximalMunch line column text [.error ⟨.unterminated, line, column⟩]
  | unrecognized {column char rest items} :
      char ≠ ' ' → Lexeme.MaximalMunch (char :: rest) .unrecognized →
      MaximalMunch line (column + 1) rest items →
      MaximalMunch line column (char :: rest) (.error ⟨.unrecognized char, line, column⟩ :: items)
  | token {column first more rest kind items} :
      Lexeme.MaximalMunch (first :: (more ++ rest)) (.token kind more) →
      MaximalMunch line (column + 1 + more.length) rest items →
      MaximalMunch line column (first :: (more ++ rest))
        (.ok ⟨kind, String.ofList (first :: more), line, column⟩ :: items)

namespace Lexeme

theorem quoted_maximalMunch (rest : List Char) : MaximalMunch ('"' :: rest) (quoted rest) := by
  by_cases closed : '"' ∈ rest
  · obtain ⟨inner, behind, rfl, noQuote⟩ := List.eq_append_cons_of_mem closed
    obtain ⟨extra, behind, split, quotes, ends, _⟩ := quotes_split behind
    rw [split, ← List.append_assoc, quoted_of_parts noQuote quotes ends]
    exact .quoted noQuote quotes ends
  · rw [quoted_of_unclosed closed]
    exact .unterminated closed

/-! ## Reading is maximal munch -/

theorem read_maximalMunch (first : Char) (rest : List Char) :
    MaximalMunch (first :: rest) (Lexeme.read first rest) := by
  have noComment : first ≠ '/' → ¬['/', '/'] <+: first :: rest := fun notSlash begins =>
    notSlash (List.cons_prefix_cons.mp begins).1.symm
  unfold Lexeme.read
  split
  · next quote =>
    subst quote
    exact quoted_maximalMunch rest
  · next notQuote =>
    split
    · next digit =>
      obtain ⟨kind, more, read, longest⟩ := number_longest digit rest
      rw [read]
      exact .longest (noComment (by rintro rfl; cases digit)) longest
    · next notDigit =>
      split
      · next begins =>
        exact .longest (noComment (by rintro rfl; cases begins)) (word_longest begins rest)
      · next notWord =>
        rw [Bool.not_eq_true] at notDigit notWord
        split
        · next slashes =>
          obtain ⟨rfl, head⟩ := slashes
          obtain ⟨behind, rfl⟩ := List.head?_eq_some_iff.mp head
          exact .comment
        · next noSlashes =>
          split
          · next symbol found =>
            have longest := symbol_longest notDigit notWord found
            obtain ⟨_, more, spelling, _⟩ := symbol.spelling_shape
            rw [spelling] at longest ⊢
            refine .longest (fun begins => noSlashes ?_) longest
            obtain ⟨behind, text⟩ := begins
            obtain ⟨rfl, rfl⟩ := List.cons.inj text
            exact ⟨rfl, rfl⟩
          · next noSymbol =>
            refine .unrecognized notQuote fun kind lexeme spells begins => ?_
            obtain ⟨symbol, rfl⟩ := spells.of_other begins notDigit notWord
            have stands := List.isPrefixOf_iff_prefix.mpr begins
            exact List.find?_eq_none.mp noSymbol symbol symbol.mem_all stands

theorem maximalMunch_iff {first : Char} {rest : List Char} {lexeme : Lexeme} :
    MaximalMunch (first :: rest) lexeme ↔ Lexeme.read first rest = lexeme := by
  constructor
  · intro munch
    have reading := read_maximalMunch first rest
    cases munch with
    | comment => rfl
    | unterminated noQuote => rw [Lexeme.read, if_pos rfl, quoted_of_unclosed noQuote]
    | quoted noQuote quotes ends =>
        rw [Lexeme.read, if_pos rfl, quoted_of_parts noQuote quotes ends]
    | @longest kind _ more _ noComment longest =>
        cases read : Lexeme.read first rest with
        | comment =>
            rw [read] at reading
            cases reading
            exact absurd ⟨_, rfl⟩ noComment
        | unterminated =>
            rw [read] at reading
            cases reading
            exact absurd rfl (longest.spells.notQuote longest.begins)
        | unrecognized =>
            rw [read] at reading
            cases reading with
            | unrecognized _ none => exact absurd longest.begins (none _ _ longest.spells)
        | token other more' =>
            rw [read] at reading
            cases reading with
            | quoted => exact absurd rfl (longest.spells.notQuote longest.begins)
            | longest _ longest' =>
                obtain ⟨same, rfl⟩ := longest'.unique longest
                rw [(List.cons.inj same).2]
    | unrecognized notQuote none =>
        cases read : Lexeme.read first rest with
        | comment =>
            rw [read] at reading
            cases reading
            exact absurd ⟨_, rfl⟩ (none _ _ (.symbol .slash))
        | unterminated =>
            rw [read] at reading
            cases reading
            exact absurd rfl notQuote
        | unrecognized => rfl
        | token other more' =>
            rw [read] at reading
            cases reading with
            | quoted => exact absurd rfl notQuote
            | longest _ longest' => exact absurd longest'.begins (none _ _ longest'.spells)
  · intro read
    subst read
    exact read_maximalMunch first rest

end Lexeme

namespace Item

/-! ## Items of a line -/

theorem ofSpaced_maximalMunch (line column : Nat) (text : List Char) :
    MaximalMunch line column text (ofSpaced line column text) := by
  fun_induction ofSpaced line column text with
  | case1 => exact .ended
  | case2 column rest ih => exact .space ih
  | case3 column char rest notSpace read => exact .comment (Lexeme.maximalMunch_iff.mpr read)
  | case4 column char rest notSpace read => exact .unterminated (Lexeme.maximalMunch_iff.mpr read)
  | case5 column char rest notSpace read ih =>
      exact .unrecognized notSpace (Lexeme.maximalMunch_iff.mpr read) ih
  | case6 column char rest notSpace kind more read ih =>
      have munch := Lexeme.maximalMunch_iff.mpr read
      have fits := Lexeme.read_fits char rest
      rw [read] at fits
      obtain ⟨_, behind, rfl⟩ := fits
      rw [List.drop_left] at ih ⊢
      exact .token munch ih

/-- No token and no comment begins with a space. -/
theorem notSpace_of_munch {char : Char} {rest : List Char} {lexeme : Lexeme}
    (munch : Lexeme.MaximalMunch (char :: rest) lexeme) (known : lexeme ≠ .unrecognized) :
    char ≠ ' ' := by
  intro space
  subst space
  have blank : Lexeme.read ' ' rest = .unrecognized :=
    Lexeme.maximalMunch_iff.mp (.unrecognized (by decide) fun _ _ spells begins =>
      spells.notSpace begins rfl)
  exact known ((Lexeme.maximalMunch_iff.mp munch).symm.trans blank)

/-- The rules leave no choice: reading gives the only items that follow them. -/
theorem maximalMunch_iff {line column : Nat} {text : List Char} {items : List Item} :
    MaximalMunch line column text items ↔ ofSpaced line column text = items := by
  constructor
  · intro munch
    induction munch with
    | ended => rw [ofSpaced]
    | space _ ih => rw [ofSpaced, if_pos rfl, ih]
    | @comment column text munch =>
        cases text with
        | nil => cases munch
        | cons char rest =>
            rw [ofSpaced, if_neg (notSpace_of_munch munch (by simp)), Lexeme.maximalMunch_iff.mp munch]
    | @unterminated column text munch =>
        cases text with
        | nil => cases munch
        | cons char rest =>
            rw [ofSpaced, if_neg (notSpace_of_munch munch (by simp)), Lexeme.maximalMunch_iff.mp munch]
    | unrecognized notSpace munch _ ih =>
        rw [ofSpaced, if_neg notSpace, Lexeme.maximalMunch_iff.mp munch]
        simp only [ih]
    | token munch _ ih =>
        rw [ofSpaced, if_neg (notSpace_of_munch munch (by simp)), Lexeme.maximalMunch_iff.mp munch]
        simp only [List.drop_left, ih]
  · intro read
    subst read
    exact ofSpaced_maximalMunch line column text

end Item

/-- The items of a line are what maximal munch gives from its first column
on, and no other items are. Each lexeme can be found by taking one character
after another. And a source scans to the items of its lines in turn, with one
end behind them. -/
theorem items_are_maximal_munch (source : String) :
    (∀ number line items, Item.MaximalMunch number 1 (Source.spaced line) items ↔
        Item.ofLine number line = items) ∧
      (∀ first rest, Lexeme.grow none [] (first :: rest) = Lexeme.read first rest) ∧
      let lines := Source.lines source.toList
      (Scanner.ofSource source).scan.items =
        (lines.zipIdx 1).flatMap (fun (line, number) => Item.ofLine number line) ++
          [.ok (Token.ending (max lines.length 1))] :=
  ⟨fun _ _ _ => Item.maximalMunch_iff, Lexeme.grow_eq_read, Scanner.scan_items source⟩

end Lox
