import Mathlib.Data.List.TakeWhile
import Lox.Source.Lexeme

/-!
# How tokens are spelled

Every token but a string is told by its text alone: a number by its digits,
with a point between digits at most, a reserved word and a symbol by their
spelling, and a name by being a word that is not reserved. `ofSpelling?` decides
which of these a text is; no text is two of them.
-/

set_option autoImplicit false

namespace Lox

/-! ## Symbols and words -/

namespace Symbol

def ofSpelling? (text : List Char) : Option Symbol :=
  all.find? (·.spelling = text)

theorem ofSpelling?_eq_some_iff {text : List Char} {symbol : Symbol} :
    ofSpelling? text = some symbol ↔ symbol.spelling = text := by
  constructor
  · intro found
    simpa using List.find?_some found
  · intro spelled
    subst spelled
    cases symbol <;> decide

/-- What a symbol begins with begins nothing else, and at most an equals sign is behind it. -/
theorem spelling_shape (symbol : Symbol) : ∃ first more, symbol.spelling = first :: more ∧
    first.isDigit = false ∧ Lexeme.beginsWord first = false ∧ first ≠ '"' ∧ first ≠ ' ' ∧
    (more = [] ∨ more = ['=']) := by
  cases symbol <;> exact ⟨_, _, rfl, by decide⟩

end Symbol

theorem Keyword.spelling_shape (keyword : Keyword) : ∃ first more, keyword.spelling = first :: more ∧
    Lexeme.beginsWord first = true ∧ more.all Lexeme.continuesWord = true := by
  cases keyword <;> exact ⟨_, _, rfl, by decide⟩

theorem Lexeme.beginsWord_iff {char : Char} :
    beginsWord char = true ↔ char.isLower = true ∨ char = '_' := by
  simp [beginsWord]

theorem Lexeme.continuesWord_iff {char : Char} :
    continuesWord char = true ↔ char.isAlphanum = true ∨ char = '_' := by
  simp [continuesWord]

theorem Lexeme.continuesWord_of_beginsWord {char : Char} (begins : beginsWord char = true) :
    continuesWord char = true := by
  obtain lower | rfl := beginsWord_iff.mp begins
  · have alpha : char.isAlpha = true := Bool.or_eq_true_iff.mpr (.inr lower)
    exact continuesWord_iff.mpr (.inl (Bool.or_eq_true_iff.mpr (.inl alpha)))
  · rfl

theorem Lexeme.continuesWord_of_isDigit {char : Char} (digit : char.isDigit = true) :
    continuesWord char = true :=
  continuesWord_iff.mpr (.inl (Bool.or_eq_true_iff.mpr (.inr digit)))

theorem Lexeme.isDigit_of_beginsWord {char : Char} (begins : beginsWord char = true) :
    char.isDigit = false := by
  obtain lower | rfl := beginsWord_iff.mp begins
  · refine Bool.eq_false_iff.mpr fun digit => ?_
    have above : 'a' ≤ char := of_decide_eq_true (Bool.and_eq_true_iff.mp lower).1
    have below : char ≤ '9' := of_decide_eq_true (Bool.and_eq_true_iff.mp digit).2
    exact absurd (Char.le_trans above below) (by decide)
  · rfl

/-! ## Texts of tokens -/

namespace TokenKind

/-- At least one digit and nothing else. -/
def Digits (text : List Char) : Prop := text ≠ [] ∧ ∀ char ∈ text, char.isDigit = true

instance (text : List Char) : Decidable (Digits text) := inferInstanceAs (Decidable (_ ∧ _))

/-- The texts that are a token of some kind by themselves. -/
inductive Spells : TokenKind → List Char → Prop where
  | whole {digits} :
      Digits digits → Spells (.number (Number.Decimal.read digits []).toFloat) digits
  | decimal {whole fraction} :
      Digits whole → Digits fraction →
      Spells (.number (Number.Decimal.read whole fraction).toFloat) (whole ++ '.' :: fraction)
  | keyword (keyword : Keyword) : Spells (.keyword keyword) keyword.spelling
  | name {first more} :
      (first.isLower = true ∨ first = '_') →
      (∀ char ∈ more, char.isAlphanum = true ∨ char = '_') →
      (∀ keyword : Keyword, keyword.spelling ≠ first :: more) → Spells .name (first :: more)
  | symbol (symbol : Symbol) : Spells (.symbol symbol) symbol.spelling

/-- The number that a text beginning with a digit is. -/
def numberOf? (text : List Char) : Option TokenKind :=
  match text.dropWhile Char.isDigit with
  | [] => some (.number (Number.Decimal.read text []).toFloat)
  | '.' :: fraction =>
      if Digits fraction then
        some (.number (Number.Decimal.read (text.takeWhile Char.isDigit) fraction).toFloat)
      else none
  | _ => none

/-- The kind of token that a text is by itself. -/
def ofSpelling? : List Char → Option TokenKind
  | [] => none
  | first :: more =>
      if first.isDigit then numberOf? (first :: more)
      else if Lexeme.beginsWord first then
        if more.all Lexeme.continuesWord then some (Lexeme.wordKind (first :: more)) else none
      else (Symbol.ofSpelling? (first :: more)).map .symbol

/-- A point ends the digits in front of it. -/
theorem Digits.takeWhile_point {text : List Char} (digits : Digits text) (behind : List Char) :
    (text ++ '.' :: behind).takeWhile Char.isDigit = text ∧
      (text ++ '.' :: behind).dropWhile Char.isDigit = '.' :: behind := by
  rw [List.takeWhile_append_of_pos digits.2, List.dropWhile_append_of_pos digits.2]
  simp

theorem Digits.head {text : List Char} (digits : Digits text) :
    ∃ first more, text = first :: more ∧ first.isDigit = true := by
  obtain ⟨first, more, rfl⟩ := List.exists_cons_of_ne_nil digits.1
  exact ⟨first, more, rfl, digits.2 first List.mem_cons_self⟩

theorem Digits.single {digit : Char} (isDigit : digit.isDigit = true) : Digits [digit] :=
  ⟨List.cons_ne_nil _ _, by simpa using isDigit⟩

theorem Digits.append {text more : List Char} (digits : Digits text)
    (others : ∀ char ∈ more, char.isDigit = true) : Digits (text ++ more) := by
  refine ⟨List.append_ne_nil_of_left_ne_nil digits.1 more, fun char member => ?_⟩
  rw [List.mem_append] at member
  cases member with
  | inl inText => exact digits.2 char inText
  | inr inMore => exact others char inMore

theorem numberOf?_whole {text : List Char} (digits : Digits text) :
    numberOf? text = some (.number (Number.Decimal.read text []).toFloat) := by
  have rest : text.dropWhile Char.isDigit = [] := List.dropWhile_eq_nil_iff.mpr digits.2
  rw [numberOf?, rest]

theorem numberOf?_decimal {whole fraction : List Char} (digits : Digits whole)
    (digits' : Digits fraction) :
    numberOf? (whole ++ '.' :: fraction) =
      some (.number (Number.Decimal.read whole fraction).toFloat) := by
  obtain ⟨run, rest⟩ := digits.takeWhile_point fraction
  rw [numberOf?, rest, run]
  simp [digits']

theorem numberOf?_spells {first : Char} {more : List Char} {kind : TokenKind}
    (digit : first.isDigit = true) (found : numberOf? (first :: more) = some kind) :
    kind.Spells (first :: more) := by
  have parts := List.takeWhile_append_dropWhile (p := Char.isDigit) (l := first :: more)
  have digits : Digits ((first :: more).takeWhile Char.isDigit) := by
    refine ⟨by simp [digit], fun char member => ?_⟩
    exact List.mem_takeWhile_imp member
  rw [numberOf?] at found
  split at found
  · next whole =>
    obtain rfl := Option.some.inj found
    rw [whole, List.append_nil] at parts
    rw [parts] at digits
    exact .whole digits
  · next fraction rest =>
    split at found
    · next digits' =>
      obtain rfl := Option.some.inj found
      rw [rest] at parts
      have spelled := Spells.decimal digits digits'
      rw [parts] at spelled
      exact spelled
    · cases found
  · cases found

theorem wordKind_spells {first : Char} {more : List Char} (begins : Lexeme.beginsWord first = true)
    (continues : more.all Lexeme.continuesWord = true) :
    (Lexeme.wordKind (first :: more)).Spells (first :: more) := by
  unfold Lexeme.wordKind
  split
  · next keyword found =>
    rw [← Keyword.ofSpelling?_eq_some_iff.mp found]
    exact .keyword keyword
  · next notReserved =>
    refine .name (Lexeme.beginsWord_iff.mp begins) (fun char member => ?_) fun keyword spelled => ?_
    · exact Lexeme.continuesWord_iff.mp (List.all_eq_true.mp continues char member)
    · rw [Keyword.ofSpelling?_eq_some_iff.mpr spelled] at notReserved
      cases notReserved

/-- A text is one kind of token at most, and it can be told which. -/
theorem ofSpelling?_eq_some_iff {text : List Char} {kind : TokenKind} :
    ofSpelling? text = some kind ↔ kind.Spells text := by
  constructor
  · intro found
    unfold ofSpelling? at found
    split at found
    · cases found
    · next first more =>
      split at found
      · next digit => exact numberOf?_spells digit found
      · split at found
        · next begins =>
          split at found
          · next continues =>
            obtain rfl := Option.some.inj found
            exact wordKind_spells begins continues
          · cases found
        · obtain ⟨symbol, spelled, rfl⟩ := Option.map_eq_some_iff.mp found
          rw [← Symbol.ofSpelling?_eq_some_iff.mp spelled]
          exact .symbol symbol
  · intro spelled
    cases spelled with
    | whole digits =>
        obtain ⟨first, more, rfl, digit⟩ := digits.head
        simp only [ofSpelling?, digit, if_true, numberOf?_whole digits]
    | @decimal whole fraction digits digits' =>
        have number := numberOf?_decimal digits digits'
        obtain ⟨first, more, rfl, digit⟩ := digits.head
        simpa [ofSpelling?, digit] using number
    | keyword keyword =>
        have reserved := Keyword.ofSpelling?_spelling keyword
        obtain ⟨first, more, spelling, begins, continues⟩ := keyword.spelling_shape
        rw [spelling] at reserved ⊢
        simp [ofSpelling?, Lexeme.isDigit_of_beginsWord begins, begins, continues, Lexeme.wordKind,
          reserved]
    | @name first more begins continues notReserved =>
        have begins := Lexeme.beginsWord_iff.mpr begins
        have continues : more.all Lexeme.continuesWord = true :=
          List.all_eq_true.mpr fun char member =>
            Lexeme.continuesWord_iff.mpr (continues char member)
        have kind : Lexeme.wordKind (first :: more) = .name := by
          unfold Lexeme.wordKind
          split
          · next keyword found =>
            exact absurd (Keyword.ofSpelling?_eq_some_iff.mp found) (notReserved keyword)
          · rfl
        simp [ofSpelling?, Lexeme.isDigit_of_beginsWord begins, begins, continues, kind]
    | symbol symbol =>
        have found := Symbol.ofSpelling?_eq_some_iff.mpr (rfl : symbol.spelling = _)
        obtain ⟨first, more, spelling, notDigit, notWord, _⟩ := symbol.spelling_shape
        rw [spelling] at found ⊢
        simp [ofSpelling?, notDigit, notWord, found]

theorem Spells.unique {text : List Char} {kind other : TokenKind} (spells : kind.Spells text)
    (spells' : other.Spells text) : kind = other :=
  Option.some.inj ((ofSpelling?_eq_some_iff.mpr spells).symm.trans
    (ofSpelling?_eq_some_iff.mpr spells'))

/-! ## What characters there are -/

/-- Besides the characters of its symbol a token has those of words and the point. -/
theorem Spells.notMem {kind : TokenKind} {text : List Char} (spells : kind.Spells text) {char : Char}
    (notInWord : Lexeme.continuesWord char = false) (notPoint : char ≠ '.')
    (notInSymbol : ∀ symbol, kind = .symbol symbol → char ∉ symbol.spelling) : char ∉ text := by
  have notInDigits : ∀ {digits : List Char}, Digits digits → char ∉ digits := by
    intro digits allDigits member
    rw [Lexeme.continuesWord_of_isDigit (allDigits.2 char member)] at notInWord
    cases notInWord
  have notWord {first : Char} {more : List Char} (begins : Lexeme.beginsWord first = true)
      (continues : more.all Lexeme.continuesWord = true) : char ∉ first :: more := by
    intro member
    have inWord : Lexeme.continuesWord char = true := by
      obtain rfl | inMore := List.mem_cons.mp member
      · exact Lexeme.continuesWord_of_beginsWord begins
      · exact List.all_eq_true.mp continues char inMore
    rw [inWord] at notInWord
    cases notInWord
  cases spells with
  | whole digits => exact notInDigits digits
  | decimal whole fraction =>
      simp only [List.mem_append, List.mem_cons, not_or]
      exact ⟨notInDigits whole, notPoint, notInDigits fraction⟩
  | keyword keyword =>
      obtain ⟨first, more, spelling, begins, continues⟩ := keyword.spelling_shape
      rw [spelling]
      exact notWord begins continues
  | name begins continues _ =>
      refine notWord (Lexeme.beginsWord_iff.mpr begins) (List.all_eq_true.mpr fun char member => ?_)
      exact Lexeme.continuesWord_iff.mpr (continues char member)
  | symbol symbol => exact notInSymbol symbol rfl

theorem Spells.quote_notMem {kind : TokenKind} {text : List Char} (spells : kind.Spells text) :
    '"' ∉ text :=
  spells.notMem (by decide) (by decide) fun symbol _ => by cases symbol <;> decide

theorem Spells.space_notMem {kind : TokenKind} {text : List Char} (spells : kind.Spells text) :
    ' ' ∉ text :=
  spells.notMem (by decide) (by decide) fun symbol _ => by cases symbol <;> decide

/-! ## What the first character tells -/

/-- A number begins with a digit, a word does not, and a symbol with none of their characters. -/
theorem Spells.shape {kind : TokenKind} {text : List Char} (spells : kind.Spells text) :
    ∃ first more, text = first :: more ∧ first ≠ '"' ∧ first ≠ ' ' ∧
      ((first.isDigit = true ∧ (Digits text ∨
          ∃ whole fraction, text = whole ++ '.' :: fraction ∧ Digits whole ∧ Digits fraction)) ∨
        (Lexeme.beginsWord first = true ∧ more.all Lexeme.continuesWord = true) ∨
        (first.isDigit = false ∧ Lexeme.beginsWord first = false ∧
          ∃ symbol : Symbol, symbol.spelling = text)) := by
  have ofDigit : ∀ {char : Char}, char.isDigit = true → char ≠ '"' ∧ char ≠ ' ' := by
    intro char digit
    constructor <;> rintro rfl <;> exact absurd digit (by decide)
  have ofWord : ∀ {char : Char}, Lexeme.beginsWord char = true → char ≠ '"' ∧ char ≠ ' ' := by
    intro char begins
    constructor <;> rintro rfl <;> exact absurd begins (by decide)
  cases spells with
  | whole digits =>
      obtain ⟨first, more, rfl, digit⟩ := digits.head
      exact ⟨first, more, rfl, (ofDigit digit).1, (ofDigit digit).2, .inl ⟨digit, .inl digits⟩⟩
  | @decimal whole fraction digits digits' =>
      obtain ⟨first, more, rfl, digit⟩ := digits.head
      exact ⟨first, _, rfl, (ofDigit digit).1, (ofDigit digit).2,
        .inl ⟨digit, .inr ⟨_, fraction, rfl, digits, digits'⟩⟩⟩
  | keyword keyword =>
      obtain ⟨first, more, spelling, begins, continues⟩ := keyword.spelling_shape
      exact ⟨first, more, spelling, (ofWord begins).1, (ofWord begins).2,
        .inr (.inl ⟨begins, continues⟩)⟩
  | @name first more begins continues _ =>
      have begins := Lexeme.beginsWord_iff.mpr begins
      refine ⟨first, more, rfl, (ofWord begins).1, (ofWord begins).2, .inr (.inl ⟨begins, ?_⟩)⟩
      exact List.all_eq_true.mpr fun char member =>
        Lexeme.continuesWord_iff.mpr (continues char member)
  | symbol symbol =>
      obtain ⟨first, more, spelling, notDigit, notWord, notQuote, notSpace, _⟩ :=
        symbol.spelling_shape
      exact ⟨first, more, spelling, notQuote, notSpace,
        .inr (.inr ⟨notDigit, notWord, symbol, rfl⟩)⟩

section Beginnings

variable {kind : TokenKind} {lexeme rest : List Char} {first : Char} (spells : kind.Spells lexeme)
  (begins : lexeme <+: first :: rest)

include spells begins

theorem Spells.notQuote : first ≠ '"' := by
  obtain ⟨_, more, rfl, notQuote, _⟩ := spells.shape
  obtain ⟨rfl, _⟩ := List.cons_prefix_cons.mp begins
  exact notQuote

theorem Spells.notSpace : first ≠ ' ' := by
  obtain ⟨_, more, rfl, _, notSpace, _⟩ := spells.shape
  obtain ⟨rfl, _⟩ := List.cons_prefix_cons.mp begins
  exact notSpace

theorem Spells.of_digit (digit : first.isDigit = true) :
    Digits lexeme ∨
      ∃ whole fraction, lexeme = whole ++ '.' :: fraction ∧ Digits whole ∧ Digits fraction := by
  obtain ⟨_, more, rfl, _, _, shape⟩ := spells.shape
  obtain ⟨rfl, _⟩ := List.cons_prefix_cons.mp begins
  obtain ⟨_, number⟩ | ⟨word, _⟩ | ⟨notDigit, _⟩ := shape
  · exact number
  · rw [Lexeme.isDigit_of_beginsWord word] at digit
    cases digit
  · rw [notDigit] at digit
    cases digit

theorem Spells.of_word (word : Lexeme.beginsWord first = true) :
    ∃ more, lexeme = first :: more ∧ ∀ char ∈ more, Lexeme.continuesWord char = true := by
  obtain ⟨_, more, rfl, _, _, shape⟩ := spells.shape
  obtain ⟨rfl, _⟩ := List.cons_prefix_cons.mp begins
  obtain ⟨digit, _⟩ | ⟨_, continues⟩ | ⟨_, notWord, _⟩ := shape
  · rw [Lexeme.isDigit_of_beginsWord word] at digit
    cases digit
  · exact ⟨more, rfl, List.all_eq_true.mp continues⟩
  · rw [notWord] at word
    cases word

theorem Spells.of_other (notDigit : first.isDigit = false)
    (notWord : Lexeme.beginsWord first = false) : ∃ symbol : Symbol, symbol.spelling = lexeme := by
  obtain ⟨_, more, rfl, _, _, shape⟩ := spells.shape
  obtain ⟨rfl, _⟩ := List.cons_prefix_cons.mp begins
  obtain ⟨digit, _⟩ | ⟨word, _⟩ | ⟨_, _, symbol⟩ := shape
  · rw [notDigit] at digit
    cases digit
  · rw [notWord] at word
    cases word
  · exact symbol

end Beginnings

end TokenKind

end Lox
