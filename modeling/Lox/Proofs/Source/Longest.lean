import Lox.Proofs.Source.Lexeme
import Lox.Proofs.Source.Spelling

/-!
# The longest token ahead

Reading looks for runs of characters and compares spellings with what is
ahead. That this finds the longest text that is a token is shown for numbers,
words, and symbols in turn. Quoted text is cut at its quotes instead.
-/

set_option autoImplicit false

namespace Lox

namespace TokenKind

/-- A text is a token of the kind, and of all texts with which the other
text begins and that are tokens, it is the longest. -/
structure Longest (kind : TokenKind) (lexeme text : List Char) : Prop where
  spells : kind.Spells lexeme
  begins : lexeme <+: text
  longest : ∀ {other : TokenKind} {longer : List Char}, other.Spells longer → longer <+: text →
    longer.length ≤ lexeme.length

/-- There is one longest token at most. -/
theorem Longest.unique {kind other : TokenKind} {lexeme lexeme' text : List Char}
    (longest : kind.Longest lexeme text) (longest' : other.Longest lexeme' text) :
    lexeme = lexeme' ∧ kind = other := by
  have lengths := Nat.le_antisymm (longest'.longest longest.spells longest.begins)
    (longest.longest longest'.spells longest'.begins)
  have same : lexeme = lexeme' :=
    (List.prefix_of_prefix_length_le longest.begins longest'.begins lengths.le).eq_of_length lengths
  subst same
  exact ⟨rfl, longest.spells.unique longest'.spells⟩

end TokenKind

namespace Lexeme

open TokenKind (Digits)

/-! ## Runs of characters -/

theorem isPrefix_takeWhile {keep : Char → Bool} {lexeme text : List Char}
    (all : ∀ char ∈ lexeme, keep char = true) (begins : lexeme <+: text) :
    lexeme <+: text.takeWhile keep := by
  obtain ⟨behind, rfl⟩ := begins
  rw [List.takeWhile_append_of_pos all]
  exact List.prefix_append _ _

/-- Digits in front of a point are all the digits ahead, and those behind it
are ahead behind the point. -/
theorem point_of_isPrefix {whole behind text : List Char} (digits : Digits whole)
    (digits' : Digits behind) (begins : whole ++ '.' :: behind <+: text) :
    whole = text.takeWhile Char.isDigit ∧ behind <+: fraction (text.dropWhile Char.isDigit) := by
  obtain ⟨later, rfl⟩ := begins
  rw [List.append_assoc, List.cons_append]
  obtain ⟨run, ends⟩ := digits.takeWhile_point (behind ++ later)
  refine ⟨run.symm, ?_⟩
  rw [ends, fraction, List.takeWhile_append_of_pos digits'.2]
  exact List.prefix_append _ _

theorem digits_fraction {text : List Char} (some : fraction text ≠ []) : Digits (fraction text) := by
  refine ⟨some, fun char member => ?_⟩
  unfold fraction at member
  split at member
  · exact List.mem_takeWhile_imp member
  · cases member

theorem number_longest {first : Char} (digit : first.isDigit = true) (rest : List Char) :
    ∃ kind more, number first rest = .token kind more ∧
      kind.Longest (first :: more) (first :: rest) := by
  have run : (first :: rest).takeWhile Char.isDigit = first :: rest.takeWhile Char.isDigit := by
    simp [digit]
  have ends : (first :: rest).dropWhile Char.isDigit = rest.dropWhile Char.isDigit := by
    simp [digit]
  have whole : Digits (first :: rest.takeWhile Char.isDigit) :=
    (Digits.single digit).append fun _ => List.mem_takeWhile_imp
  refine ⟨_, _, rfl, ?_⟩
  by_cases none : fraction (rest.dropWhile Char.isDigit) = []
  · simp only [none, List.isEmpty_nil, if_true]
    refine ⟨.whole whole, ?_, fun spells begins => ?_⟩
    · exact List.cons_prefix_cons.mpr ⟨rfl, List.takeWhile_prefix _⟩
    · obtain digits | ⟨_, behind, rfl, digits, digits'⟩ := spells.of_digit begins digit
      · have within := isPrefix_takeWhile digits.2 begins
        rw [run] at within
        exact within.length_le
      · obtain ⟨_, within⟩ := point_of_isPrefix digits digits' begins
        rw [ends, none, List.prefix_nil] at within
        exact absurd within digits'.1
  · have notEmpty : (fraction (rest.dropWhile Char.isDigit)).isEmpty = false := by
      simpa using none
    simp only [notEmpty, Bool.false_eq_true, if_false]
    have point := (fraction_eq_nil_or (rest.dropWhile Char.isDigit)).resolve_left none
    refine ⟨.decimal whole (digits_fraction none), ?_, fun spells begins => ?_⟩
    · exact List.cons_prefix_cons.mpr ⟨rfl, takeWhile_append_isPrefix point⟩
    · obtain digits | ⟨_, behind, rfl, digits, digits'⟩ := spells.of_digit begins digit
      · have within := isPrefix_takeWhile digits.2 begins
        rw [run] at within
        have length := within.length_le
        simp only [List.length_cons, List.length_append] at length ⊢
        omega
      · obtain ⟨rfl, within⟩ := point_of_isPrefix digits digits' begins
        rw [ends] at within
        have length := within.length_le
        simp only [run, List.length_cons, List.length_append]
        omega

theorem word_longest {first : Char} (begins : beginsWord first = true) (rest : List Char) :
    (wordKind (first :: rest.takeWhile continuesWord)).Longest
      (first :: rest.takeWhile continuesWord) (first :: rest) where
  spells := TokenKind.wordKind_spells begins List.all_takeWhile
  begins := List.cons_prefix_cons.mpr ⟨rfl, List.takeWhile_prefix _⟩
  longest := by
    intro other longer spells stands
    obtain ⟨more, rfl, continues⟩ := spells.of_word stands begins
    have within := isPrefix_takeWhile continues (List.cons_prefix_cons.mp stands).2
    exact Nat.succ_le_succ within.length_le

/-! ## Symbols -/

/-- The first one found in an ordered list comes before all others that could be found. -/
theorem find?_pairwise {α : Type} {before : α → α → Prop} {list : List α} {accepts : α → Bool}
    {found other : α} (ordered : list.Pairwise before) (finds : list.find? accepts = some found)
    (member : other ∈ list) (accepted : accepts other = true) : found = other ∨ before found other := by
  induction ordered with
  | nil => cases member
  | @cons first rest earlier _ ih =>
      rw [List.find?_cons] at finds
      split at finds
      · obtain rfl := Option.some.inj finds
        cases List.mem_cons.mp member with
        | inl same => exact .inl same.symm
        | inr later => exact .inr (earlier other later)
      · next rejected =>
        cases List.mem_cons.mp member with
        | inl same =>
            rw [same, rejected] at accepted
            cases accepted
        | inr later => exact ih finds later

theorem symbol_longest {first : Char} {rest : List Char} {symbol : Symbol}
    (notDigit : first.isDigit = false) (notWord : beginsWord first = false)
    (found : symbol? (first :: rest) = some symbol) :
    (TokenKind.symbol symbol).Longest symbol.spelling (first :: rest) where
  spells := .symbol symbol
  begins := isPrefix_of_symbol? found
  longest := by
    intro other longer spells begins
    obtain ⟨candidate, rfl⟩ := spells.of_other begins notDigit notWord
    have ordered : Symbol.all.Pairwise fun first second =>
        second.spelling.length ≤ first.spelling.length := by decide
    have stands := List.isPrefixOf_iff_prefix.mpr begins
    cases find?_pairwise ordered found candidate.mem_all stands with
    | inl same => exact same ▸ Nat.le_refl _
    | inr shorter => exact shorter

/-! ## Quoted text -/

/-- Quotes that stand side by side, the last of them apart. -/
theorem quotes_split (rest : List Char) : ∃ extra behind, '"' :: rest = extra ++ '"' :: behind ∧
    (∀ char ∈ extra, char = '"') ∧ behind.head? ≠ some '"' ∧
    ('"' :: rest).takeWhile (· == '"') = extra ++ ['"'] := by
  induction rest with
  | nil => exact ⟨[], [], rfl, by simp, by simp, rfl⟩
  | cons char rest ih =>
      by_cases quote : char = '"'
      · subst quote
        obtain ⟨extra, behind, split, quotes, ends, run⟩ := ih
        refine ⟨'"' :: extra, behind, by rw [split]; rfl, ?_, ends, ?_⟩
        · exact List.forall_mem_cons.mpr ⟨rfl, quotes⟩
        · rw [List.takeWhile_cons, run]
          rfl
      · exact ⟨[], char :: rest, rfl, by simp, by simpa using quote, by simp [quote]⟩

theorem inQuotes_of_not_mem {inner : List Char} (noQuote : '"' ∉ inner) :
    ∀ char ∈ inner, inQuotes char = true := by
  intro char member
  simp only [inQuotes, bne_iff_ne]
  rintro rfl
  exact noQuote member

theorem quoted_of_unclosed {rest : List Char} (noQuote : '"' ∉ rest) :
    quoted rest = .unterminated := by
  have none : rest.dropWhile inQuotes = [] :=
    List.dropWhile_eq_nil_iff.mpr (inQuotes_of_not_mem noQuote)
  rw [quoted, none]

theorem quoted_of_parts {inner extra rest : List Char} (noQuote : '"' ∉ inner)
    (quotes : ∀ char ∈ extra, char = '"') (ends : rest.head? ≠ some '"') :
    quoted (inner ++ extra ++ '"' :: rest) =
      .token (.string (String.ofList (inner ++ extra))) (inner ++ extra ++ ['"']) := by
  have inside := inQuotes_of_not_mem noQuote
  have run : (extra ++ '"' :: rest).takeWhile (· == '"') = extra ++ ['"'] := by
    rw [List.takeWhile_append_of_pos (by simpa using quotes)]
    cases rest with
    | nil => rfl
    | cons char rest =>
        have notQuote : char ≠ '"' := by simpa using ends
        simp [notQuote]
  obtain ⟨behind, closing⟩ : ∃ behind, extra ++ '"' :: rest = '"' :: behind := by
    cases extra with
    | nil => exact ⟨rest, rfl⟩
    | cons char extra =>
        obtain rfl := quotes char List.mem_cons_self
        exact ⟨extra ++ '"' :: rest, rfl⟩
  have stops : ('"' :: behind).takeWhile inQuotes = [] ∧
      ('"' :: behind).dropWhile inQuotes = '"' :: behind := ⟨rfl, rfl⟩
  rw [closing] at run
  rw [List.append_assoc, closing, quoted, List.dropWhile_append_of_pos inside,
    List.takeWhile_append_of_pos inside, stops.1, stops.2]
  simp only [List.append_nil, run, ← List.append_assoc, List.dropLast_concat]

end Lexeme

end Lox
