import Lox.Grammar.Expression
import Lox.Proofs.Grammar.Derivation
import Lox.Proofs.Grammar.Reading

/-!
# Parsers and relations

A parser is sound for a relation of the grammar if it reads nothing else, and
complete if it reads every phrase of the relation that is not continued by what
follows it. Completeness is limited to token lists of some length, since the
parsers inside a production are given no more tokens than that.
-/

set_option autoImplicit false

namespace Lox

def Cursor.inBody (cursor : Cursor) : Bool := 0 < cursor.depth

@[simp] theorem Cursor.before_inBody (cursor : Cursor) (tokens : List Token) :
    (cursor.before tokens).inBody = cursor.inBody := rfl

/-- What may follow a statement: an alternative only if the statement is complete. -/
def Grammar.Statement.Ends (complete : Bool) (rest : List Token) : Prop :=
  complete = false → ∀ token ∈ rest.head?, token.kind ≠ .keyword .elseWord

theorem Grammar.Statement.ends_true (rest : List Token) : Statement.Ends true rest := by
  simp [Ends]

namespace Level

def joins : Level → TokenKind → Bool
  | disjunction => (· = .keyword .orWord)
  | conjunction => (· = .keyword .andWord)
  | equality => TokenKind.isEquality
  | comparison => TokenKind.isComparison
  | term => TokenKind.isTermOperator
  | factor => TokenKind.isFactorOperator
  | assignment | unary | call | primary => fun _ => false

theorem joins_iff {level : Level} {kind : TokenKind} :
    level.joins kind = true ↔ kind ∈ level.operators := by
  cases level <;>
    simp [joins, operators, TokenKind.isEquality, TokenKind.isComparison,
      TokenKind.isTermOperator, TokenKind.isFactorOperator, or_assoc]

/-- The parser of a level, over a parser for whole expressions. -/
def parser (inner : Parser Expr) : Level → Parser Expr
  | assignment => Parser.assignment inner
  | disjunction => Parser.disjunction inner
  | conjunction => Parser.conjunction inner
  | equality => Parser.equality inner
  | comparison => Parser.comparison inner
  | term => Parser.term inner
  | factor => Parser.factor inner
  | unary => Parser.unary inner
  | call => Parser.call inner
  | primary => Parser.primary inner

/-- The levels with operators differ in their operators and their operands only. -/
theorem parser_eq_chain {level : Level} (hasOperators : level.operators ≠ [])
    (inner : Parser Expr) :
    level.parser inner = Parser.chain level.joins level.node (level.tighter.parser inner) := by
  cases level with
  | disjunction | conjunction | equality | comparison | term | factor => rfl
  | assignment | unary | call | primary => exact absurd rfl hasOperators

end Level

namespace Parser

variable {α : Type} {derives : α → List Token → List Token → Prop} {start reached : Cursor}

/-- Whatever the parser reads is a phrase. -/
def Sound (parser : Parser α) (derives : α → List Token → List Token → Prop) : Prop :=
  ∀ start value reached, parser.Reads start value reached →
    ∃ rest, derives value start.rest rest ∧ reached = start.before rest

/-- The parser reads every phrase within a number of tokens that has the given end. -/
def CompleteWithin (parser : Parser α) (bound : Nat)
    (derives : α → List Token → List Token → Prop) (ends : List Token → Prop) : Prop :=
  ∀ start value rest, start.rest.length ≤ bound → derives value start.rest rest → ends rest →
    parser.Reads start value (start.before rest)

theorem expect_parameterName_sound : Sound (expect .parameterName) Grammar.Parameter := by
  intro start name reached read
  obtain ⟨rest, ahead, isName, rfl⟩ := reads_expect.mp read
  exact ⟨rest, ahead ▸ .intro isName, rfl⟩

theorem expect_parameterName_complete (bound : Nat) :
    CompleteWithin (expect .parameterName) bound Grammar.Parameter (fun _ => True) := by
  intro start name rest _ derived _
  generalize ahead : start.rest = tokens at derived
  cases derived with
  | intro isName => exact reads_expect.mpr ⟨rest, ahead, isName, rfl⟩

/-! ## Lists -/

theorem commaSeparated_sound {item : Parser α} (sound : Sound item derives) (bound : Nat) :
    Sound (commaSeparated item bound) (Grammar.CommaSeparated derives) := by
  induction bound with
  | zero =>
      intro start values reached read
      simp only [commaSeparated, reads_bind, reads_pure] at read
      obtain ⟨value, middle, readItem, rfl, rfl⟩ := read
      obtain ⟨rest, derived, rfl⟩ := sound _ _ _ readItem
      exact ⟨rest, .single derived, rfl⟩
  | succ bound ih =>
      intro start values reached read
      simp only [commaSeparated, reads_bind] at read
      obtain ⟨value, _, readItem, comma, afterComma, readComma, read⟩ := read
      obtain ⟨middle, derived, rfl⟩ := sound _ _ _ readItem
      cases comma with
      | none =>
          obtain ⟨-, rfl⟩ := reads_accept_none.mp readComma
          obtain ⟨rfl, rfl⟩ := reads_pure.mp read
          exact ⟨middle, .single derived, rfl⟩
      | some comma =>
          obtain ⟨later, ahead, isComma, rfl⟩ := reads_accept_some.mp readComma
          simp only [reads_bind, reads_pure] at read
          obtain ⟨others, _, readOthers, rfl, rfl⟩ := read
          obtain ⟨rest, derivedOthers, rfl⟩ := ih _ _ _ readOthers
          have ahead : middle = comma :: later := ahead
          exact ⟨rest, .cons (ahead ▸ derived) isComma derivedOthers, rfl⟩

theorem listUntil_sound {item : Parser α} (sound : Sound item derives) (closing : TokenKind) :
    Sound (listUntil closing item) (Grammar.Listed derives) := by
  intro start values reached read
  simp only [listUntil, reads_bind, reads_isNext] at read
  obtain ⟨isClosing, _, ⟨-, rfl⟩, read⟩ := read
  split at read
  · obtain ⟨rfl, rfl⟩ := reads_pure.mp read
    exact ⟨_, .none, (Cursor.before_eq rfl).symm⟩
  · simp only [reads_bind, reads_remaining] at read
    obtain ⟨_, _, ⟨rfl, rfl⟩, read⟩ := read
    obtain ⟨rest, derived, rfl⟩ := commaSeparated_sound sound _ _ _ _ read
    exact ⟨rest, .some derived, rfl⟩

theorem commaSeparated_complete {item : Parser α} {ends : List Token → Prop} {bound : Nat}
    (complete : CompleteWithin item bound derives ends)
    (shrinks : ∀ {value tokens rest}, derives value tokens rest → rest.length < tokens.length)
    (endsAtComma : ∀ comma rest, comma.kind = .symbol .comma → ends (comma :: rest))
    {values : List α} {tokens rest : List Token}
    (derived : Grammar.CommaSeparated derives values tokens rest) (ended : ends rest)
    (noComma : ∀ token ∈ rest.head?, token.kind ≠ .symbol .comma) :
    ∀ (count : Nat) (start : Cursor), start.rest = tokens → tokens.length ≤ bound →
      tokens.length ≤ count → (commaSeparated item count).Reads start values (start.before rest) := by
  induction derived with
  | single derived =>
      rintro count start rfl few enough
      have readItem := complete _ _ _ few derived ended
      cases count with
      | zero => simpa [commaSeparated, reads_bind] using readItem
      | succ count =>
          simp only [commaSeparated, reads_bind]
          refine ⟨_, _, readItem, none, _, reads_accept_none.mpr ⟨noComma, rfl⟩, ?_⟩
          exact reads_pure.mpr ⟨rfl, rfl⟩
  | @cons value others tokens comma middle rest derived isComma _ ih =>
      rintro count start rfl few enough
      have shorter := shrinks derived
      simp only [List.length_cons] at shorter
      obtain ⟨count, rfl⟩ : ∃ earlier, count = earlier + 1 := ⟨count - 1, by omega⟩
      have readItem := complete _ _ _ few derived (endsAtComma _ _ isComma)
      have readOthers := ih ended noComma count (start.before middle) rfl (by omega) (by omega)
      simp only [commaSeparated, reads_bind]
      refine ⟨_, _, readItem, some comma, _, reads_accept_some.mpr ⟨_, rfl, isComma, rfl⟩, ?_⟩
      simp only [reads_bind, reads_pure]
      exact ⟨_, _, readOthers, rfl, rfl⟩

theorem listUntil_complete {item : Parser α} {ends : List Token → Prop} {bound : Nat}
    {closing : TokenKind} (complete : CompleteWithin item bound derives ends)
    (shrinks : ∀ {value tokens rest}, derives value tokens rest → rest.length < tokens.length)
    (endsAtComma : ∀ comma rest, comma.kind = .symbol .comma → ends (comma :: rest))
    (opens : ∀ {value tokens rest}, derives value tokens rest →
      ∀ token ∈ tokens.head?, token.kind ≠ closing)
    (notComma : closing ≠ .symbol .comma)
    {values : List α} {token : Token} {rest : List Token}
    (derived : Grammar.Listed derives values start.rest (token :: rest))
    (isClosing : token.kind = closing) (ended : ends (token :: rest))
    (few : start.rest.length ≤ bound) :
    (listUntil closing item).Reads start values (start.before (token :: rest)) := by
  simp only [listUntil, reads_bind, reads_isNext]
  refine ⟨_, _, ⟨rfl, rfl⟩, ?_⟩
  generalize ahead : start.rest = tokens at derived
  cases derived with
  | none => simp [isClosing, Cursor.before_eq ahead]
  | some derived =>
      have notClosing : ∀ first ∈ tokens.head?, first.kind ≠ closing := by
        cases derived with
        | single derived | cons derived => exact opens derived
      have noClosing : tokens.head?.any (·.kind = closing) = false := by
        cases head : tokens.head? with
        | none => rfl
        | some first => simpa using notClosing first head
      simp only [noClosing, Bool.false_eq_true, ↓reduceIte, reads_bind, reads_remaining]
      refine ⟨_, _, ⟨rfl, rfl⟩, ?_⟩
      subst ahead
      exact commaSeparated_complete complete shrinks endsAtComma derived ended
        (by simpa [isClosing] using notComma) _ _ rfl few (Nat.le_refl _)

end Parser

end Lox
