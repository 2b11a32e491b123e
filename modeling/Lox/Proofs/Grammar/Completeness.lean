import Lox.Grammar.Program
import Lox.Proofs.Grammar.Recognition

/-!
# Completeness of parsing

Every phrase of the grammar is read to its end, unless what follows would
continue it. The grammar groups operators to the left by recursion on the left
operand, a parser by a loop behind its first operand. What ties them is that
reading a phrase leaves the parser in its loop with the tree of the phrase in
hand; this is what the induction over a derivation carries.
-/

set_option autoImplicit false

namespace Lox

/-! ## How tightly a token binds -/

namespace Level

/-- The levels numbered from the tightest. No level has the number of an equals sign. -/
def rank : Level → Nat
  | primary => 0
  | call => 1
  | unary => 2
  | factor => 3
  | term => 4
  | comparison => 5
  | equality => 6
  | conjunction => 7
  | disjunction => 8
  | assignment => 10

theorem rank_tighter_lt {level : Level} (notPrimary : level ≠ .primary) :
    level.tighter.rank < level.rank := by
  cases level <;> simp_all [tighter, rank]

theorem rank_tighter_le (level : Level) : level.tighter.rank ≤ level.rank := by
  cases level <;> decide

end Level

/-- The number of the level at which a token of this kind goes on with an
expression that stands before it, or one that no level has. -/
def TokenKind.binding : TokenKind → Nat
  | .symbol .leftParen => 1
  | .symbol .star | .symbol .slash => 3
  | .symbol .minus | .symbol .plus => 4
  | .symbol .greater | .symbol .greaterEqual | .symbol .less | .symbol .lessEqual => 5
  | .symbol .bangEqual | .symbol .equalEqual => 6
  | .keyword .andWord => 7
  | .keyword .orWord => 8
  | .symbol .equal => 9
  | _ => 11

theorem TokenKind.binding_of_mem_operators {level : Level} {kind : TokenKind}
    (joins : kind ∈ level.operators) : kind.binding = level.rank := by
  cases level <;> simp only [Level.operators, List.mem_cons, List.not_mem_nil, or_false] at joins <;>
    rcases joins with rfl | rfl | rfl | rfl <;> rfl

/-- No token ahead goes on with an expression at a level numbered below. -/
def Grammar.Stops (rank : Nat) (rest : List Token) : Prop :=
  ∀ token ∈ rest.head?, rank ≤ token.kind.binding

namespace Grammar.Stops

theorem mono {rank lower : Nat} {rest : List Token} (stops : Stops rank rest)
    (le : lower ≤ rank) : Stops lower rest :=
  fun token member => Nat.le_trans le (stops token member)

theorem cons {rank : Nat} {token : Token} (rest : List Token) (le : rank ≤ token.kind.binding) :
    Stops rank (token :: rest) := by
  simpa [Stops] using le

end Grammar.Stops

namespace Parser

open Grammar (Expression Statement Stops)

variable {inner : Parser Expr} {start reached : Cursor}

/-! ## Expressions -/

def resume (inner : Parser Expr) (level : Level) (budget : Nat) (left : Expr) : Parser Expr :=
  match level with
  | .assignment | .unary | .primary => pure left
  | .call => callsFrom inner budget left
  | level => chainFrom level.joins level.node (level.tighter.parser inner) budget left

/-- Having read a tree, the parser of the level reads whatever its loop reads from there. -/
def Resumes (inner : Parser Expr) (level : Level) (left : Expr) (start : Cursor)
    (rest : List Token) : Prop :=
  ∃ budget, rest.length ≤ budget ∧ ∀ expr reached,
    (resume inner level budget left).Reads (start.before rest) expr reached →
    (level.parser inner).Reads start expr reached

theorem resume_eq_chainFrom {level : Level} (hasOperators : level.operators ≠ []) (budget : Nat)
    (left : Expr) :
    resume inner level budget left =
      chainFrom level.joins level.node (level.tighter.parser inner) budget left := by
  cases level with
  | disjunction | conjunction | equality | comparison | term | factor => rfl
  | assignment | unary | call | primary => exact absurd rfl hasOperators

theorem chainFrom_ends {level : Level} {operand : Parser Expr} {rest : List Token}
    (stops : Stops (level.rank + 1) rest) (budget : Nat) (left : Expr) :
    (chainFrom level.joins level.node operand budget left).Reads (start.before rest) left
      (start.before rest) := by
  cases budget with
  | zero => exact reads_pure.mpr ⟨rfl, rfl⟩
  | succ budget =>
      simp only [chainFrom, reads_bind]
      refine ⟨none, _, reads_acceptIf_none.mpr ⟨?_, rfl⟩, reads_pure.mpr ⟨rfl, rfl⟩⟩
      intro token ahead
      rw [Bool.eq_false_iff]
      intro joins
      have binds := TokenKind.binding_of_mem_operators (Level.joins_iff.mp joins)
      have below := stops token ahead
      omega

theorem callsFrom_ends {rest : List Token} (stops : Stops (Level.call.rank + 1) rest) (budget : Nat)
    (callee : Expr) :
    (callsFrom inner budget callee).Reads (start.before rest) callee (start.before rest) := by
  cases budget with
  | zero => exact reads_pure.mpr ⟨rfl, rfl⟩
  | succ budget =>
      simp only [callsFrom, reads_bind]
      refine ⟨none, _, reads_accept_none.mpr ⟨?_, rfl⟩, reads_pure.mpr ⟨rfl, rfl⟩⟩
      intro token ahead opened
      have below := stops token ahead
      simp [opened, TokenKind.binding, Level.rank] at below

theorem Resumes.reads {level : Level} {left : Expr} {rest : List Token}
    (resumes : Resumes inner level left start rest) (stops : Stops (level.rank + 1) rest) :
    (level.parser inner).Reads start left (start.before rest) := by
  obtain ⟨budget, _, goesOn⟩ := resumes
  apply goesOn
  cases level with
  | assignment | unary | primary => exact reads_pure.mpr ⟨rfl, rfl⟩
  | call => exact callsFrom_ends stops budget left
  | disjunction | conjunction | equality | comparison | term | factor =>
      exact chainFrom_ends stops budget left

theorem Resumes.of_reads {level : Level} {left : Expr} {rest : List Token}
    (read : (level.parser inner).Reads start left (start.before rest))
    (noLoop : level = .assignment ∨ level = .unary ∨ level = .primary) :
    Resumes inner level left start rest := by
  refine ⟨rest.length, Nat.le_refl _, ?_⟩
  intro expr reached resumed
  rcases noLoop with rfl | rfl | rfl
  all_goals
    obtain ⟨rfl, rfl⟩ := reads_pure.mp resumed
    exact read

theorem assignedName?_eq_none {level : Level} {expr : Expr} {tokens rest : List Token}
    (derived : Expression level expr tokens rest) (notAssignment : level ≠ .assignment)
    (noEquals : ∀ token ∈ rest.head?, token.kind ≠ .symbol .equal) :
    assignedName? tokens = none := by
  induction derived using Expression.induct with
  | @literal token value rest denoted =>
      have notName : token.kind ≠ .name := by
        intro isName
        simp [Token.literal?, TokenKind.literal?, isName] at denoted
      cases rest <;> simp [assignedName?, notName]
  | @named name rest isName =>
      cases rest with
      | nil => rfl
      | cons next later => simpa [assignedName?, isName] using noEquals
  | @grouping opening _ tokens _ _ opened _ _ _ => cases tokens <;> simp [assignedName?, opened]
  | call _ opened _ _ _ ih _ => exact ih (by simp) (by simp [opened])
  | @unary operator _ tokens _ isUnary _ _ =>
      have notName : operator.kind ≠ .name := by rcases isUnary with same | same <;> simp [same]
      cases tokens <;> simp [assignedName?, notName]
  | @binary level _ _ operator _ _ _ _ joins _ ih _ =>
      refine ih notAssignment ?_
      intro token ahead isEqual
      obtain rfl : operator = token := by simpa using ahead
      have binds := TokenKind.binding_of_mem_operators joins
      rw [isEqual] at binds
      cases level <;> simp [TokenKind.binding, Level.rank] at binds
  | assign _ _ _ _ => exact absurd rfl notAssignment
  | @tighter level _ _ _ _ ih => exact ih (by cases level <;> simp [Level.tighter]) noEquals

theorem resumes_of_tighter {level : Level} {expr : Expr} {rest : List Token}
    (derived : Expression level.tighter expr start.rest rest)
    (resumes : Resumes inner level.tighter expr start rest) (stops : Stops level.rank rest) :
    Resumes inner level expr start rest := by
  by_cases hasOperators : level.operators ≠ []
  · have binds : level ≠ .primary := by rintro rfl; exact hasOperators rfl
    have read := resumes.reads (stops.mono (Level.rank_tighter_lt binds))
    refine ⟨rest.length, Nat.le_refl _, ?_⟩
    intro result reached resumed
    rw [resume_eq_chainFrom hasOperators] at resumed
    rw [Level.parser_eq_chain hasOperators]
    simp only [chain, reads_bind, reads_remaining]
    exact ⟨_, _, read, _, _, ⟨rfl, rfl⟩, resumed⟩
  cases level with
  | disjunction | conjunction | equality | comparison | term | factor =>
      exact absurd (by decide) hasOperators
  | primary => exact resumes
  | call =>
      have read := resumes.reads (stops.mono (by decide))
      refine ⟨rest.length, Nat.le_refl _, ?_⟩
      intro result reached resumed
      simp only [Level.parser, call, reads_bind, reads_remaining]
      exact ⟨_, _, read, _, _, ⟨rfl, rfl⟩, resumed⟩
  | unary =>
      have read := resumes.reads (stops.mono (by decide))
      refine .of_reads ?_ (.inr (.inl rfl))
      obtain ⟨first, later, ahead, -, operand⟩ := derived.opens
      have notUnary : first.kind.isUnaryOperator = false := by
        have opens := operand (.inl rfl)
        rw [Bool.eq_false_iff]
        intro isUnary
        rcases (by simpa [TokenKind.isUnaryOperator] using isUnary :
          first.kind = .symbol .bang ∨ first.kind = .symbol .minus) with same | same <;>
          simp [same, TokenKind.opensOperand] at opens
      simp only [Level.parser, unary, reads_bind, reads_remaining]
      refine ⟨_, _, ⟨rfl, rfl⟩, ?_⟩
      simp only [ahead, List.length_cons, unaryWithin, reads_bind]
      refine ⟨none, start, reads_acceptIf_none.mpr ⟨?_, rfl⟩, read⟩
      simpa [ahead] using notUnary
  | assignment =>
      have read := resumes.reads (stops.mono (by decide))
      refine .of_reads ?_ (.inl rfl)
      have noEquals : ∀ token ∈ rest.head?, token.kind ≠ .symbol .equal := by
        intro token member isEqual
        have below := stops token member
        simp [isEqual, TokenKind.binding, Level.rank] at below
      have unassigned := assignedName?_eq_none derived (by decide) noEquals
      simp only [Level.parser, assignment, reads_bind, reads_ahead]
      refine ⟨_, _, ⟨rfl, rfl⟩, ?_⟩
      simp only [unassigned]
      exact read

/-! ### Expressions without a loop -/

theorem primary_reads_literal {token : Token} {value : Literal} {rest : List Token}
    (ahead : start.rest = token :: rest) (denoted : token.literal? = some value) :
    (primary inner).Reads start (.literal value) (start.before rest) := by
  simp only [primary, reads_bind, reads_ahead]
  refine ⟨_, _, ⟨rfl, rfl⟩, ?_⟩
  simp only [ahead, denoted, reads_bind, reads_skip, reads_pure]
  exact ⟨(), _, rfl, trivial, rfl⟩

theorem primary_reads_name {name : Token} {rest : List Token}
    (ahead : start.rest = name :: rest) (isName : name.kind = .name) :
    (primary inner).Reads start (.variable name) (start.before rest) := by
  have noLiteral : name.literal? = none := by simp [Token.literal?, isName, TokenKind.literal?]
  simp only [primary, reads_bind, reads_ahead]
  refine ⟨_, _, ⟨rfl, rfl⟩, ?_⟩
  simp only [ahead, noLiteral, isName, ↓reduceIte, reads_bind, reads_skip, reads_pure]
  exact ⟨(), _, rfl, trivial, rfl⟩

theorem primary_reads_grouping {opening closing : Token} {value : Expr} {tokens rest : List Token}
    (ahead : start.rest = opening :: tokens) (opened : opening.kind = .symbol .leftParen)
    (closed : closing.kind = .symbol .rightParen)
    (read : inner.Reads (start.before tokens) value (start.before (closing :: rest))) :
    (primary inner).Reads start (.grouping value) (start.before rest) := by
  have noLiteral : opening.literal? = none := by simp [Token.literal?, opened, TokenKind.literal?]
  simp only [primary, reads_bind, reads_ahead]
  refine ⟨_, _, ⟨rfl, rfl⟩, ?_⟩
  simp only [ahead, noLiteral, opened, reduceCtorEq, ↓reduceIte, reads_bind, reads_skip,
    reads_pure]
  exact ⟨(), _, rfl, value, _, read, closing, _, reads_expect.mpr ⟨rest, rfl, closed, rfl⟩,
    rfl, rfl⟩

theorem unary_reads_operator {operator : Token} {operand : Expr} {tokens rest : List Token}
    (ahead : start.rest = operator :: tokens) (isUnary : operator.kind.isUnaryOperator = true)
    (read : (unary inner).Reads (start.before tokens) operand (start.before rest)) :
    (unary inner).Reads start (.unary (some operator) operand) (start.before rest) := by
  simp only [unary, reads_bind, reads_remaining] at read ⊢
  obtain ⟨_, _, ⟨rfl, rfl⟩, read⟩ := read
  refine ⟨_, _, ⟨rfl, rfl⟩, ?_⟩
  simp only [ahead, List.length_cons, unaryWithin, reads_bind]
  refine ⟨some operator, _, reads_acceptIf_some.mpr ⟨tokens, ahead, isUnary, rfl⟩, ?_⟩
  simp only [reads_bind, reads_pure]
  exact ⟨_, _, read, rfl, rfl⟩

theorem assignment_reads_value {name equals : Token} {value : Expr} {tokens rest : List Token}
    (ahead : start.rest = name :: equals :: tokens) (isName : name.kind = .name)
    (isEqual : equals.kind = .symbol .equal)
    (read : inner.Reads (start.before tokens) value (start.before rest)) :
    (assignment inner).Reads start (.assign (some name) value) (start.before rest) := by
  simp only [assignment, reads_bind, reads_ahead]
  refine ⟨_, _, ⟨rfl, rfl⟩, ?_⟩
  simp only [ahead, assignedName?, isName, isEqual, and_self, ↓reduceIte]
  refine reads_rewinding.mpr (.inl ?_)
  simp only [reads_bind, reads_skip, reads_pure]
  exact ⟨(), _, rfl, value, _, by simpa [ahead] using read, rfl, rfl⟩

/-! ### Expressions of every level -/

variable {bound : Nat} (start)

/-- The end that an expression needs to be read as a whole. -/
abbrev ExpressionEnds (rest : List Token) : Prop := Stops Level.assignment.rank rest

theorem finishCall_complete
    (complete : CompleteWithin inner bound (Expression .assignment) ExpressionEnds)
    {arguments : List Expr} {paren : Token} {rest : List Token}
    (listed : Grammar.Listed (Expression .assignment) arguments start.rest (paren :: rest))
    (closed : paren.kind = .symbol .rightParen) (few : arguments.length ≤ argumentLimit)
    (short : start.rest.length ≤ bound) (callee : Expr) :
    (finishCall inner callee).Reads start (.call callee paren arguments) (start.before rest) := by
  have read : (listUntil (.symbol .rightParen) inner).Reads start arguments
      (start.before (paren :: rest)) := by
    refine listUntil_complete complete Expression.length_lt ?_ ?_ (by decide) listed closed ?_ short
    · intro comma later isComma
      exact .cons later (by rw [isComma]; decide)
    · intro expr tokens later derived token member isClosing
      obtain ⟨first, others, split, opens, -⟩ := derived.opens
      obtain rfl : first = token := by simpa [split] using member
      simp [isClosing, TokenKind.opensExpression, TokenKind.opensOperand] at opens
    · exact .cons rest (by rw [closed]; decide)
  simp only [finishCall, reads_bind]
  refine ⟨_, _, read, paren, start.before rest, reads_expect.mpr ⟨rest, rfl, closed, rfl⟩, ?_⟩
  rw [if_neg (Nat.not_lt.mpr few)]
  exact reads_pure.mpr ⟨rfl, rfl⟩

theorem resumes_of_expression
    (complete : CompleteWithin inner bound (Expression .assignment) ExpressionEnds)
    {level : Level} {expr : Expr} {tokens rest : List Token}
    (derived : Expression level expr tokens rest) :
    ∀ start : Cursor, start.rest = tokens → tokens.length ≤ bound + 1 → Stops level.rank rest →
      Resumes inner level expr start rest := by
  induction derived using Expression.induct with
  | literal denoted =>
      intro start ahead _ _
      exact .of_reads (primary_reads_literal ahead denoted) (.inr (.inr rfl))
  | named isName =>
      intro start ahead _ _
      exact .of_reads (primary_reads_name ahead isName) (.inr (.inr rfl))
  | @grouping opening value tokens closing rest opened derived closed _ =>
      intro start ahead short _
      have readInner := complete (start.before tokens) value (closing :: rest)
        (by simpa using short) derived (.cons rest (by rw [closed]; decide))
      exact .of_reads (primary_reads_grouping ahead opened closed readInner) (.inr (.inr rfl))
  | @call callee tokens opening arguments middle paren rest derived opened listed closed few ih _ =>
      intro start ahead short _
      have shorter := derived.length_lt
      simp only [List.length_cons] at shorter
      obtain ⟨budget, enough, goesOn⟩ := ih start ahead short (.cons middle (by rw [opened]; decide))
      simp only [List.length_cons] at enough
      obtain ⟨budget, rfl⟩ : ∃ earlier, budget = earlier + 1 := ⟨budget - 1, by omega⟩
      have notLonger := listed.length_le Expression.length_lt
      simp only [List.length_cons] at notLonger
      refine ⟨budget, by omega, fun result reached resumed => goesOn _ _ ?_⟩
      have readCall := finishCall_complete (start.before middle) complete listed closed few
        (by simp only [Cursor.before_rest]; omega) callee
      simp only [resume, callsFrom, reads_bind]
      refine ⟨some opening, _, reads_accept_some.mpr ⟨middle, rfl, opened, rfl⟩, ?_⟩
      simp only [reads_bind]
      exact ⟨_, _, readCall, resumed⟩
  | @unary operator operand tokens rest isUnary derived ih =>
      intro start ahead short stops
      obtain ⟨_, -, goesOn⟩ := ih (start.before tokens) rfl
        (by simp only [List.length_cons] at short; omega) stops
      have readOperand := goesOn operand (start.before rest) (reads_pure.mpr ⟨rfl, rfl⟩)
      have isOperator : operator.kind.isUnaryOperator = true := by
        simpa [TokenKind.isUnaryOperator] using isUnary
      exact .of_reads (unary_reads_operator ahead isOperator readOperand) (.inr (.inl rfl))
  | @binary level left tokens operator right middle rest derivedLeft joins derivedRight ihLeft
      ihRight =>
      intro start ahead short stops
      have hasOperators : level.operators ≠ [] := List.ne_nil_of_mem joins
      have binds := TokenKind.binding_of_mem_operators joins
      have notPrimary : level ≠ .primary := by rintro rfl; exact hasOperators rfl
      have shorterLeft := derivedLeft.length_lt
      have shorterRight := derivedRight.length_lt
      simp only [List.length_cons] at shorterLeft
      obtain ⟨budget, enough, goesOn⟩ := ihLeft start ahead short (.cons middle (Nat.le_of_eq binds.symm))
      simp only [List.length_cons] at enough
      obtain ⟨budget, rfl⟩ : ∃ earlier, budget = earlier + 1 := ⟨budget - 1, by omega⟩
      have below := Level.rank_tighter_lt notPrimary
      have readRight := (ihRight (start.before middle) rfl (by omega)
        (stops.mono level.rank_tighter_le)).reads (stops.mono below)
      refine ⟨budget, by omega, fun result reached resumed => goesOn _ _ ?_⟩
      rw [resume_eq_chainFrom hasOperators] at resumed ⊢
      simp only [chainFrom, reads_bind]
      refine ⟨some operator, _,
        reads_acceptIf_some.mpr ⟨middle, rfl, Level.joins_iff.mpr joins, rfl⟩, ?_⟩
      simp only [reads_bind]
      exact ⟨_, _, readRight, resumed⟩
  | @assign name equals value tokens rest isName isEqual derived _ =>
      intro start ahead short stops
      have readValue := complete (start.before tokens) value rest
        (by simp only [List.length_cons] at short; simp only [Cursor.before_rest]; omega)
        derived stops
      exact .of_reads (assignment_reads_value ahead isName isEqual readValue) (.inl rfl)
  | @tighter level expr tokens rest derived ih =>
      rintro start rfl short stops
      have resumes := ih start rfl short (stops.mono level.rank_tighter_le)
      exact resumes_of_tighter derived resumes stops

theorem expressionWithin_complete (bound : Nat) :
    CompleteWithin (expressionWithin bound) bound (Expression .assignment) ExpressionEnds := by
  induction bound with
  | zero =>
      intro start expr rest short derived _
      have := derived.length_lt
      omega
  | succ bound ih =>
      intro start expr rest short derived ends
      obtain ⟨_, -, goesOn⟩ := resumes_of_expression ih derived start rfl short ends
      exact goesOn expr (start.before rest) (reads_pure.mpr ⟨rfl, rfl⟩)

theorem expression_complete {expr : Expr} {rest : List Token}
    (derived : Expression .assignment expr start.rest rest) (ends : ExpressionEnds rest) :
    expression.Reads start expr (start.before rest) :=
  expressionWithin_complete start.remaining start expr rest
    (Nat.le_of_eq start.remaining_eq.symm) derived ends

/-! ## Clauses -/

/-- Whether a token of this kind ends every expression and begins none. -/
def closes (kind : TokenKind) : Prop :=
  kind.opensExpression = false ∧ Level.assignment.rank ≤ kind.binding

theorem closes_semicolon : closes (.symbol .semicolon) := ⟨rfl, by decide⟩

theorem closes_rightParen : closes (.symbol .rightParen) := ⟨rfl, by decide⟩

theorem reads_isNext_of_head {token : Token} {tokens : List Token} {kind : TokenKind}
    (ahead : start.rest = token :: tokens) (isKind : token.kind = kind) :
    (isNext kind).Reads start true start := by
  simp [ahead, isKind]

theorem reads_isNext_of_expression {expr : Expr} {rest : List Token} {kind : TokenKind}
    (derived : Expression .assignment expr start.rest rest) (ends : closes kind) :
    (isNext kind).Reads start false start := by
  obtain ⟨first, later, ahead, opens, -⟩ := derived.opens
  have notKind : first.kind ≠ kind := by
    rintro rfl
    simp [ends.1] at opens
  simp [ahead, notKind]

theorem expression_complete_of_closes {expr : Expr} {token : Token} {rest : List Token}
    (derived : Expression .assignment expr start.rest (token :: rest)) (ends : closes token.kind) :
    expression.Reads start expr (start.before (token :: rest)) :=
  expression_complete start derived (.cons rest ends.2)

theorem expressionUnless_complete {given : Option Expr} {token : Token} {rest : List Token}
    (derived : Grammar.OptionalExpression given start.rest (token :: rest))
    (ends : closes token.kind) (value : Literal) :
    (expressionUnless token.kind value).Reads start (given.getD (.literal value))
      (start.before (token :: rest)) := by
  simp only [expressionUnless, reads_bind]
  generalize ahead : start.rest = tokens at derived
  cases derived with
  | none =>
      refine ⟨_, _, reads_isNext_of_head start ahead rfl, ?_⟩
      exact reads_pure.mpr ⟨rfl, Cursor.before_eq ahead⟩
  | some derived =>
      subst ahead
      exact ⟨_, _, reads_isNext_of_expression start derived ends, expression_complete_of_closes start derived ends⟩

theorem optionalExpression_complete {given : Option Expr} {token : Token} {rest : List Token}
    (derived : Grammar.OptionalExpression given start.rest (token :: rest))
    (ends : closes token.kind) :
    (optionalExpression token.kind).Reads start given (start.before (token :: rest)) := by
  simp only [optionalExpression, reads_bind]
  generalize ahead : start.rest = tokens at derived
  cases derived with
  | none =>
      refine ⟨_, _, reads_isNext_of_head start ahead rfl, ?_⟩
      exact reads_pure.mpr ⟨rfl, Cursor.before_eq ahead⟩
  | some derived =>
      subst ahead
      refine ⟨_, _, reads_isNext_of_expression start derived ends, ?_⟩
      simp only [Bool.false_eq_true, ↓reduceIte, reads_bind, reads_pure]
      exact ⟨_, _, expression_complete_of_closes start derived ends, rfl, rfl⟩

theorem initializer_complete {value : Option Expr} {token : Token} {rest : List Token}
    (derived : Grammar.Initializer value start.rest (token :: rest))
    (isSemicolon : token.kind = .symbol .semicolon) :
    initializer.Reads start value (start.before (token :: rest)) := by
  simp only [initializer, reads_bind]
  generalize ahead : start.rest = tokens at derived
  cases derived with
  | none =>
      refine ⟨none, start, reads_accept_none.mpr ⟨?_, rfl⟩, ?_⟩
      · simp [ahead, isSemicolon]
      · exact reads_pure.mpr ⟨rfl, Cursor.before_eq ahead⟩
  | @some equals expr later _ isEqual derived =>
      have readValue := expression_complete_of_closes (start.before later) derived
        (isSemicolon ▸ closes_semicolon)
      refine ⟨some equals, _, reads_accept_some.mpr ⟨later, ahead, isEqual, rfl⟩, ?_⟩
      simp only [reads_bind, reads_pure]
      exact ⟨_, _, readValue, rfl, rfl⟩

theorem variableDeclaration_complete {keyword : Token} {stmt : Stmt} {tokens rest : List Token}
    (derived : Grammar.VariableDeclaration stmt (keyword :: tokens) rest) :
    variableDeclaration.Reads (start.before tokens) stmt (start.before rest) := by
  cases derived with
  | @intro _ name value later semicolon _ _ isName derivedValue isSemicolon =>
      have readValue := initializer_complete (start.before later) derivedValue isSemicolon
      simp only [variableDeclaration, reads_bind, reads_pure]
      exact ⟨_, _, reads_expect.mpr ⟨later, rfl, isName, rfl⟩, _, _, readValue, _, _,
        reads_expect.mpr ⟨rest, rfl, isSemicolon, rfl⟩, rfl, rfl⟩

theorem expressionStatement_complete {stmt : Stmt} {rest : List Token}
    (derived : Grammar.ExpressionStatement stmt start.rest rest) :
    expressionStatement.Reads start stmt (start.before rest) := by
  generalize ahead : start.rest = tokens at derived
  cases derived with
  | @intro value _ semicolon _ derivedValue isSemicolon =>
      subst ahead
      have readValue := expressionUnless_complete start derivedValue (isSemicolon ▸ closes_semicolon) .nil
      rw [isSemicolon] at readValue
      simp only [expressionStatement, reads_bind, reads_pure]
      exact ⟨_, _, readValue, _, _, reads_expect.mpr ⟨rest, rfl, isSemicolon, rfl⟩, rfl, rfl⟩

theorem loopInitializer_complete {stmt : Stmt} {rest : List Token}
    (derived : Grammar.LoopInitializer stmt start.rest rest) :
    loopInitializer.Reads start stmt (start.before rest) := by
  simp only [loopInitializer, reads_bind]
  generalize ahead : start.rest = tokens at derived
  cases derived with
  | declared derived =>
      obtain ⟨keyword, later, split, word⟩ :
          ∃ keyword later, tokens = keyword :: later ∧ keyword.kind = .keyword .varWord := by
        cases derived with
        | intro word => exact ⟨_, _, rfl, word⟩
      subst split
      have read := variableDeclaration_complete start derived
      refine ⟨_, _, reads_isNext_of_head start ahead word, ?_⟩
      refine reads_rewinding.mpr (.inl ?_)
      simp only [reads_bind, reads_skip]
      exact ⟨(), _, rfl, by simpa [ahead] using read⟩
  | expression derived =>
      subst ahead
      obtain ⟨first, later, ahead, opens⟩ := derived.opens
      have notVar : first.kind ≠ .keyword .varWord := by
        intro same
        simp [same, TokenKind.opensExpression, TokenKind.opensOperand] at opens
      refine ⟨false, start, by simp [ahead, notVar], ?_⟩
      simp only [Bool.false_eq_true, ↓reduceIte, reads_bind, reads_note]
      exact ⟨(), _, rfl, expressionStatement_complete start derived⟩

/-! ## Statements -/

/-- The parser reads every statement within a number of tokens that leaves no alternative behind. -/
def CompleteForStatements (statement : Parser Stmt) (bound : Nat) : Prop :=
  ∀ start complete stmt rest, start.rest.length ≤ bound →
    Statement (.statement complete) start.inBody stmt start.rest rest →
    Statement.Ends complete rest → statement.Reads start stmt (start.before rest)

/-- The parser reads every declaration within a number of tokens with no alternative behind it. -/
def CompleteForDeclarations (declaration : Parser Stmt) (bound : Nat) : Prop :=
  ∀ start stmt rest, start.rest.length ≤ bound →
    Statement .declaration start.inBody stmt start.rest rest →
    Statement.Ends false rest → declaration.Reads start stmt (start.before rest)

theorem declarations_end {inBody : Bool} {statements : List Stmt} {tokens rest : List Token}
    (derived : Grammar.Declarations inBody statements tokens rest)
    (ends : Statement.Ends false rest) : Statement.Ends false tokens := by
  cases derived with
  | nil => exact ends
  | cons first _ =>
      obtain ⟨token, later, rfl, goesOn⟩ := first.declaration_opens
      simpa [Statement.Ends] using goesOn.1

variable {statement declaration : Parser Stmt}

theorem declarationsWithin_complete (complete : CompleteForDeclarations declaration bound)
    {ending : Token} {rest : List Token} (isEnding : ending.kind = .symbol .rightBrace)
    (count : Nat) : ∀ (start : Cursor) {statements : List Stmt}, start.rest.length ≤ bound →
      start.rest.length ≤ count →
      Grammar.Declarations start.inBody statements start.rest (ending :: rest) →
      (declarationsWithin declaration count).Reads start statements (start.before (ending :: rest)) := by
  induction count with
  | zero =>
      intro start statements _ enough derived
      have notLonger := derived.length_le
      simp only [List.length_cons] at notLonger
      omega
  | succ count ih =>
      intro start statements short enough derived
      simp only [declarationsWithin, reads_bind, reads_ahead, reads_isNext]
      refine ⟨_, _, ⟨rfl, rfl⟩, _, _, ⟨rfl, rfl⟩, ?_⟩
      generalize ahead : start.rest = tokens at derived
      cases derived with
      | nil => simp [isEnding, Cursor.before_eq ahead]
      | @cons _ first others _ middle _ derivedFirst derivedOthers =>
          subst ahead
          obtain ⟨token, later, ahead, -, notBrace⟩ := derivedFirst.declaration_opens
          have shorter := derivedFirst.length_lt
          have endsFirst : Statement.Ends false middle :=
            declarations_end derivedOthers (by simp [Statement.Ends, isEnding])
          have readFirst := complete _ _ _ short derivedFirst endsFirst
          have readOthers := ih (start.before middle)
            (by simp only [Cursor.before_rest]; omega) (by simp only [Cursor.before_rest]; omega)
            derivedOthers
          simp only [ahead, List.isEmpty_cons, List.head?_cons, Option.any_some, notBrace,
            decide_false, Bool.or_false, Bool.false_eq_true, ↓reduceIte, reads_bind, reads_pure]
          exact ⟨_, _, readFirst, _, _, readOthers, rfl, rfl⟩

theorem block_complete (complete : CompleteForDeclarations declaration bound)
    {statements : List Stmt} {ending : Token} {rest : List Token} (short : start.rest.length ≤ bound)
    (derived : Grammar.Declarations start.inBody statements start.rest (ending :: rest))
    (isEnding : ending.kind = .symbol .rightBrace) :
    (block declaration).Reads start statements (start.before rest) := by
  have read := declarationsWithin_complete complete isEnding _ start short (Nat.le_refl _) derived
  simp only [block, reads_bind, reads_remaining, reads_pure]
  exact ⟨_, _, ⟨rfl, rfl⟩, _, _, read, _, _, reads_expect.mpr ⟨rest, rfl, isEnding, rfl⟩, rfl, rfl⟩

theorem functionDeclaration_complete (complete : CompleteForDeclarations declaration bound)
    {name opening closing brace ending : Token} {parameters : List Token} {body : List Stmt}
    {middle tokens rest : List Token} (short : middle.length ≤ bound) (isName : name.kind = .name)
    (opened : opening.kind = .symbol .leftParen)
    (listed : Grammar.Listed Grammar.Parameter parameters middle (closing :: brace :: tokens))
    (few : parameters.length ≤ argumentLimit) (closed : closing.kind = .symbol .rightParen)
    (braced : brace.kind = .symbol .leftBrace)
    (derived : Grammar.Declarations true body tokens (ending :: rest))
    (isEnding : ending.kind = .symbol .rightBrace) :
    (functionDeclaration declaration).Reads (start.before (name :: opening :: middle))
      (.function name parameters body) (start.before rest) := by
  have readParameters : (listUntil (.symbol .rightParen) (expect .parameterName)).Reads
      (start.before middle) parameters (start.before (closing :: brace :: tokens)) := by
    refine listUntil_complete (expect_parameterName_complete bound) Grammar.Parameter.length_lt
      (fun _ _ _ => trivial) ?_ (by decide) listed closed trivial short
    intro value tokens rest derived token member isClosing
    cases derived with
    | intro isName =>
        obtain rfl : value = token := by simpa using member
        simp [isName] at isClosing
  have notLonger := listed.length_le Grammar.Parameter.length_lt
  simp only [List.length_cons] at notLonger
  have inBody : ((start.before tokens).atDepth (start.depth + 1)).inBody = true := by
    simp [Cursor.inBody, Cursor.atDepth]
  have readBody : (block declaration).Reads ((start.before tokens).atDepth (start.depth + 1)) body
      (((start.before tokens).atDepth (start.depth + 1)).before rest) :=
    block_complete _ complete (by simp only [Cursor.atDepth, Cursor.before_rest]; omega)
      (inBody.symm ▸ derived) isEnding
  simp only [functionDeclaration, reads_bind]
  refine ⟨_, _, reads_expect.mpr ⟨_, rfl, isName, rfl⟩, _, _,
    reads_expect.mpr ⟨_, rfl, opened, rfl⟩, _, _, readParameters, ?_⟩
  rw [if_neg (Nat.not_lt.mpr few)]
  simp only [reads_bind, reads_pure]
  refine ⟨_, _, reads_expect.mpr ⟨_, rfl, closed, rfl⟩, _, _,
    reads_expect.mpr ⟨_, rfl, braced, rfl⟩, _, _, reads_inBody.mpr ⟨_, readBody, rfl⟩, rfl, ?_⟩
  simp [Cursor.before, Cursor.ofTokens, Cursor.atDepth]

section Productions

variable {keyword opening closing semicolon : Token} {condition : Expr} {stmt : Stmt}
  {complete : Bool} {tokens middle rest : List Token}

theorem forStatement_complete (completeStatement : CompleteForStatements statement bound)
    {first body : Stmt} {given increment : Option Expr} {clauses steps : List Token}
    (short : tokens.length ≤ bound) (opened : opening.kind = .symbol .leftParen)
    (derivedFirst : Grammar.LoopInitializer first tokens clauses)
    (derivedCondition : Grammar.OptionalExpression given clauses (semicolon :: steps))
    (isSemicolon : semicolon.kind = .symbol .semicolon)
    (derivedIncrement : Grammar.OptionalExpression increment steps (closing :: middle))
    (closed : closing.kind = .symbol .rightParen)
    (derivedBody : Statement (.statement complete) start.inBody body middle rest)
    (ends : Statement.Ends complete rest) :
    (forStatement statement keyword).Reads (start.before (opening :: tokens))
      (.block [first, .loop keyword (given.getD (.literal (.bool true)))
        (Grammar.withIncrement body increment)])
      (start.before rest) := by
  have shorterFirst := derivedFirst.length_lt
  have shorterCondition := derivedCondition.length_le
  have shorterIncrement := derivedIncrement.length_le
  simp only [List.length_cons] at shorterCondition shorterIncrement
  have readFirst := loopInitializer_complete (start.before tokens) derivedFirst
  have readCondition := expressionUnless_complete (start.before clauses) derivedCondition
    (isSemicolon ▸ closes_semicolon) (.bool true)
  rw [isSemicolon] at readCondition
  have readIncrement := optionalExpression_complete (start.before steps) derivedIncrement
    (closed ▸ closes_rightParen)
  rw [closed] at readIncrement
  have readBody := completeStatement (start.before middle) complete body rest
    (by simp only [Cursor.before_rest]; omega) derivedBody ends
  simp only [forStatement, reads_bind, reads_pure]
  refine ⟨_, _, reads_expect.mpr ⟨_, rfl, opened, rfl⟩, _, _, readFirst, _, _, readCondition, _, _,
    reads_expect.mpr ⟨_, rfl, isSemicolon, rfl⟩, _, _, readIncrement, _, _,
    reads_expect.mpr ⟨_, rfl, closed, rfl⟩, _, _, readBody, ?_, rfl⟩
  cases increment with
  | none => rfl
  | some increment => rfl

theorem ifStatement_complete_conditional
    (completeStatement : CompleteForStatements statement bound) {branch : Stmt}
    (short : tokens.length ≤ bound) (opened : opening.kind = .symbol .leftParen)
    (derivedCondition : Expression .assignment condition tokens (closing :: middle))
    (closed : closing.kind = .symbol .rightParen)
    (derivedBranch : Statement (.statement complete) start.inBody branch middle rest)
    (ends : Statement.Ends false rest) :
    (ifStatement statement keyword).Reads (start.before (opening :: tokens))
      (.branch keyword condition branch none) (start.before rest) := by
  have shorter := derivedCondition.length_lt
  simp only [List.length_cons] at shorter
  have readCondition := expression_complete_of_closes (start.before tokens)
    derivedCondition (closed ▸ closes_rightParen)
  have readBranch := completeStatement (start.before middle) complete branch rest
    (by simp only [Cursor.before_rest]; omega) derivedBranch (fun _ => ends rfl)
  simp only [ifStatement, reads_bind]
  exact ⟨_, _, reads_expect.mpr ⟨_, rfl, opened, rfl⟩, _, _, readCondition, _, _,
    reads_expect.mpr ⟨_, rfl, closed, rfl⟩, _, _, readBranch, none, _,
    reads_accept_none.mpr ⟨ends rfl, rfl⟩, reads_pure.mpr ⟨rfl, rfl⟩⟩

theorem ifStatement_complete_alternative
    (completeStatement : CompleteForStatements statement bound) {word : Token}
    {branch other : Stmt} {later : List Token} (short : tokens.length ≤ bound)
    (opened : opening.kind = .symbol .leftParen)
    (derivedCondition : Expression .assignment condition tokens (closing :: middle))
    (closed : closing.kind = .symbol .rightParen)
    (derivedBranch : Statement (.statement true) start.inBody branch middle (word :: later))
    (isElse : word.kind = .keyword .elseWord)
    (derivedOther : Statement (.statement complete) start.inBody other later rest)
    (ends : Statement.Ends complete rest) :
    (ifStatement statement keyword).Reads (start.before (opening :: tokens))
      (.branch keyword condition branch (some other)) (start.before rest) := by
  have shorter := derivedCondition.length_lt
  have shorterBranch := derivedBranch.length_lt
  simp only [List.length_cons] at shorter shorterBranch
  have readCondition := expression_complete_of_closes (start.before tokens)
    derivedCondition (closed ▸ closes_rightParen)
  have readBranch := completeStatement (start.before middle) true branch (word :: later)
    (by simp only [Cursor.before_rest]; omega) derivedBranch (Statement.ends_true _)
  have readOther := completeStatement (start.before later) complete other rest
    (by simp only [Cursor.before_rest]; omega) derivedOther ends
  simp only [ifStatement, reads_bind]
  refine ⟨_, _, reads_expect.mpr ⟨_, rfl, opened, rfl⟩, _, _, readCondition, _, _,
    reads_expect.mpr ⟨_, rfl, closed, rfl⟩, _, _, readBranch, some word, _,
    reads_accept_some.mpr ⟨later, rfl, isElse, rfl⟩, ?_⟩
  simp only [reads_bind, reads_pure]
  exact ⟨_, _, readOther, rfl, rfl⟩

theorem whileStatement_complete (completeStatement : CompleteForStatements statement bound)
    {body : Stmt} (short : tokens.length ≤ bound) (opened : opening.kind = .symbol .leftParen)
    (derivedCondition : Expression .assignment condition tokens (closing :: middle))
    (closed : closing.kind = .symbol .rightParen)
    (derivedBody : Statement (.statement complete) start.inBody body middle rest)
    (ends : Statement.Ends complete rest) :
    (whileStatement statement keyword).Reads (start.before (opening :: tokens))
      (.loop keyword condition body) (start.before rest) := by
  have shorter := derivedCondition.length_lt
  simp only [List.length_cons] at shorter
  have readCondition := expression_complete_of_closes (start.before tokens)
    derivedCondition (closed ▸ closes_rightParen)
  have readBody := completeStatement (start.before middle) complete body rest
    (by simp only [Cursor.before_rest]; omega) derivedBody ends
  simp only [whileStatement, reads_bind, reads_pure]
  exact ⟨_, _, reads_expect.mpr ⟨_, rfl, opened, rfl⟩, _, _, readCondition, _, _,
    reads_expect.mpr ⟨_, rfl, closed, rfl⟩, _, _, readBody, rfl, rfl⟩

theorem printStatement_complete {value : Option Expr}
    (derivedValue : Grammar.OptionalExpression value tokens (semicolon :: rest))
    (isSemicolon : semicolon.kind = .symbol .semicolon) :
    printStatement.Reads (start.before tokens) (.print (value.getD (.literal .nil)))
      (start.before rest) := by
  have readValue := expressionUnless_complete (start.before tokens) derivedValue
    (isSemicolon ▸ closes_semicolon) .nil
  rw [isSemicolon] at readValue
  simp only [printStatement, reads_bind, reads_pure]
  exact ⟨_, _, readValue, _, _, reads_expect.mpr ⟨rest, rfl, isSemicolon, rfl⟩, rfl, rfl⟩

theorem returnStatement_complete {value : Option Expr} (inside : start.inBody = true)
    (derivedValue : Grammar.OptionalExpression value tokens (semicolon :: rest))
    (isSemicolon : semicolon.kind = .symbol .semicolon) :
    (returnStatement keyword).Reads (start.before tokens) (.returning keyword value)
      (start.before rest) := by
  have readValue := optionalExpression_complete (start.before tokens) derivedValue
    (isSemicolon ▸ closes_semicolon)
  rw [isSemicolon] at readValue
  have notZero : start.depth ≠ 0 := by
    have := of_decide_eq_true inside
    omega
  simp only [returnStatement, reads_bind, reads_depth]
  refine ⟨_, _, ⟨rfl, rfl⟩, ?_⟩
  simp only [Cursor.before_depth, notZero, ↓reduceIte, reads_bind, reads_pure]
  exact ⟨_, _, readValue, _, _, reads_expect.mpr ⟨rest, rfl, isSemicolon, rfl⟩, rfl, rfl⟩

end Productions

theorem statementOver_complete (completeStatement : CompleteForStatements statement bound)
    (completeDeclaration : CompleteForDeclarations declaration bound) :
    CompleteForStatements (statementOver statement declaration) (bound + 1) := by
  intro start complete stmt rest short derived ends
  simp only [statementOver, reads_bind, reads_ahead]
  refine ⟨_, _, ⟨rfl, rfl⟩, ?_⟩
  generalize ahead : start.rest = tokens at derived
  generalize inside : start.inBody = inBody at derived
  rw [ahead] at short
  cases derived with
  | counting word opened derivedFirst derivedCondition isSemicolon derivedIncrement closed
      derivedBody =>
      subst inside
      simp only [List.length_cons] at short
      simp only [ahead, word, reads_bind, reads_skip]
      exact ⟨(), _, rfl, forStatement_complete start completeStatement (by omega) opened derivedFirst
        derivedCondition isSemicolon derivedIncrement closed derivedBody ends⟩
  | conditional word opened derivedCondition closed derivedBranch =>
      subst inside
      simp only [List.length_cons] at short
      simp only [ahead, word, reads_bind, reads_skip]
      exact ⟨(), _, rfl, ifStatement_complete_conditional start completeStatement (by omega) opened
        derivedCondition closed derivedBranch ends⟩
  | alternative word opened derivedCondition closed derivedBranch isElse derivedOther =>
      subst inside
      simp only [List.length_cons] at short
      simp only [ahead, word, reads_bind, reads_skip]
      exact ⟨(), _, rfl, ifStatement_complete_alternative start completeStatement (by omega) opened
        derivedCondition closed derivedBranch isElse derivedOther ends⟩
  | print word derivedValue isSemicolon =>
      simp only [ahead, word, reads_bind, reads_skip]
      exact ⟨(), _, rfl, printStatement_complete start derivedValue isSemicolon⟩
  | returning word derivedValue isSemicolon =>
      simp only [ahead, word, reads_bind, reads_skip]
      exact ⟨(), _, rfl, returnStatement_complete start inside derivedValue isSemicolon⟩
  | loop word opened derivedCondition closed derivedBody =>
      subst inside
      simp only [List.length_cons] at short
      simp only [ahead, word, reads_bind, reads_skip]
      exact ⟨(), _, rfl, whileStatement_complete start completeStatement (by omega) opened
        derivedCondition closed derivedBody ends⟩
  | @block _ opening statements tokens ending _ opened derivedStatements isEnding =>
      subst inside
      have read := block_complete (start.before tokens) completeDeclaration
        (by simpa using short) derivedStatements isEnding
      simp only [ahead, opened, reads_bind, reads_skip, reads_pure]
      exact ⟨(), _, rfl, _, _, read, rfl, rfl⟩
  | expression derived =>
      obtain ⟨first, later, rfl, opens⟩ := derived.opens
      rw [← ahead] at derived
      have read := expressionStatement_complete start derived
      dsimp only
      split
      case h_7 => exact read
      all_goals
        next word => simp [word, TokenKind.opensExpression, TokenKind.opensOperand] at opens

theorem declarationOver_complete (completeStatement : CompleteForStatements statement bound)
    (completeDeclaration : CompleteForDeclarations declaration bound) :
    CompleteForDeclarations (declarationOver statement declaration) (bound + 1) := by
  intro start stmt rest short derived ends
  simp only [declarationOver, reads_bind, reads_ahead]
  refine ⟨_, _, ⟨rfl, rfl⟩, ?_⟩
  generalize ahead : start.rest = tokens at derived
  rw [ahead] at short
  cases derived with
  | function word isName opened listed few closed braced derivedBody isEnding =>
      simp only [List.length_cons] at short
      simp only [ahead, word, reads_bind, reads_skip]
      exact ⟨(), _, rfl, functionDeclaration_complete start completeDeclaration (by omega) isName opened
        listed few closed braced derivedBody isEnding⟩
  | declared derived =>
      obtain ⟨keyword, later, rfl, word⟩ :
          ∃ keyword later, tokens = keyword :: later ∧ keyword.kind = .keyword .varWord := by
        cases derived with
        | intro word => exact ⟨_, _, rfl, word⟩
      simp only [word, reads_bind, reads_skip, ahead]
      exact ⟨(), _, rfl, variableDeclaration_complete start derived⟩
  | statement derived =>
      obtain ⟨first, later, rfl, -, notFun, notVar⟩ := derived.opens
      have read := statementOver_complete completeStatement completeDeclaration start _ stmt rest
        (by rw [ahead]; exact short) (ahead ▸ derived) (fun _ => ends rfl)
      dsimp only
      split
      · next word => exact absurd word notFun
      · next word => exact absurd word notVar
      · exact read

theorem within_complete (bound : Nat) :
    CompleteForStatements (statementWithin bound) bound ∧
      CompleteForDeclarations (declarationWithin bound) bound := by
  induction bound with
  | zero =>
      constructor
      · intro start complete stmt rest short derived _
        have := derived.length_lt
        omega
      · intro start stmt rest short derived _
        have := derived.length_lt
        omega
  | succ bound ih => exact ⟨statementOver_complete ih.1 ih.2, declarationOver_complete ih.1 ih.2⟩

theorem declaration_complete {stmt : Stmt} {rest : List Token}
    (derived : Statement .declaration start.inBody stmt start.rest rest)
    (ends : Statement.Ends false rest) :
    Parser.declaration.Reads start stmt (start.before rest) :=
  (within_complete start.remaining).2 start stmt rest (Nat.le_of_eq start.remaining_eq.symm)
    derived ends

end Parser

/-- All tokens of a derivation are parsed, without a failure. -/
theorem Parse.within_complete (bound : Nat) : ∀ (start : Cursor) {statements : List Stmt},
    start.rest.length ≤ bound → Grammar.Declarations start.inBody statements start.rest [] →
    (Parse.within bound start).failure = none ∧
      (Parse.within bound start).statements = statements := by
  induction bound with
  | zero =>
      intro start statements short derived
      have none : start.rest = [] := List.length_eq_zero_iff.mp (Nat.le_zero.mp short)
      rw [none] at derived
      cases derived with
      | nil => exact ⟨rfl, rfl⟩
      | cons first _ =>
          obtain ⟨_, _, split, _⟩ := first.declaration_opens
          cases split
  | succ bound ih =>
      intro start statements short derived
      generalize ahead : start.rest = tokens at derived
      cases derived with
      | nil => simp [Parse.within, ahead]
      | @cons _ first others _ middle _ derivedFirst derivedOthers =>
          subst ahead
          have ends : Grammar.Statement.Ends false middle :=
            Parser.declarations_end derivedOthers (by simp [Grammar.Statement.Ends])
          have shorter := derivedFirst.length_lt
          obtain ⟨_, _, ahead, _⟩ := derivedFirst.declaration_opens
          obtain ⟨succeeded, stopped⟩ := Parser.declaration_complete start derivedFirst ends
          obtain ⟨noFailure, parsed⟩ := ih (start.before middle)
            (by simp only [Cursor.before_rest]; omega) derivedOthers
          have result : Parser.declaration start =
              ⟨.ok first, start.before middle, (Parser.declaration start).rewinds⟩ := by
            rw [← succeeded, ← stopped]
          unfold Parse.within
          simp only [ahead, List.isEmpty_cons, Bool.false_eq_true, ↓reduceIte]
          rw [result]
          exact ⟨noFailure, by simp [parsed]⟩

end Lox
