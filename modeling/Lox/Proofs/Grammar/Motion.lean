import Lox.Grammar.Program

/-!
# How the cursor moves

A parser starts at one cursor and stops at another, whether or not it succeeds.
All of them move it by skipping tokens ahead, by entering and leaving a
function body, and by going back to where they began. A relation between
cursors that goes along with these moves holds of every parser.
-/

set_option autoImplicit false

namespace Lox

/-- A relation between the cursors at which a parser may start and stop. -/
structure Motion where
  allows : Cursor → Cursor → Prop
  refl : ∀ cursor, allows cursor cursor
  trans : ∀ {first second third}, allows first second → allows second third → allows first third
  skip : ∀ cursor count, allows cursor (cursor.skip count)
  inBody : ∀ {start reached}, allows (start.atDepth (start.depth + 1)) reached →
    allows start (reached.atDepth (reached.depth - 1))

namespace Parser

variable {α β : Type} {motion : Motion}

theorem bind_of_ok {first : Parser α} {next : α → Parser β} {start middle : Cursor} {value : α}
    {rewinds : List Rewind} (succeeded : first start = ⟨.ok value, middle, rewinds⟩) :
    (first >>= next) start =
      { next value middle with rewinds := rewinds ++ (next value middle).rewinds } := by
  simp only [bind, Parser.bind, succeeded]

theorem bind_of_error {first : Parser α} {next : α → Parser β} {start middle : Cursor}
    {failure : Failure} {rewinds : List Rewind}
    (failed : first start = ⟨.error failure, middle, rewinds⟩) :
    (first >>= next) start = ⟨.error failure, middle, rewinds⟩ := by
  simp only [bind, Parser.bind, failed]

theorem rewinding_of_ok {attempt : Attempt} {tried : Parser α} {otherwise : Failure → Parser α}
    {start reached : Cursor} {value : α} {rewinds : List Rewind}
    (succeeded : tried start = ⟨.ok value, reached, rewinds⟩) :
    rewinding attempt tried otherwise start = ⟨.ok value, reached, rewinds⟩ := by
  simp only [rewinding, succeeded]

theorem rewinding_of_error {attempt : Attempt} {tried : Parser α} {otherwise : Failure → Parser α}
    {start reached : Cursor} {failure : Failure} {rewinds : List Rewind}
    (failed : tried start = ⟨.error failure, reached, rewinds⟩) :
    rewinding attempt tried otherwise start =
      { otherwise failure start with
        rewinds := rewinds ++ ⟨attempt, start.remaining⟩ :: (otherwise failure start).rewinds } := by
  simp only [rewinding, failed]
  rfl

/-- Wherever the parser starts, it stops where the motion allows. -/
def Moves (motion : Motion) (parser : Parser α) : Prop :=
  ∀ start, motion.allows start (parser start).cursor

theorem moves_pure (value : α) : (pure value : Parser α).Moves motion :=
  fun start => motion.refl start

theorem moves_fail (failure : Failure) : (fail failure : Parser α).Moves motion :=
  fun start => motion.refl start

theorem moves_failHere (fault : SyntaxFault) : (failHere fault : Parser α).Moves motion :=
  fun start => motion.refl start

theorem moves_bind {first : Parser α} {next : α → Parser β} (movesFirst : first.Moves motion)
    (movesNext : ∀ value, (next value).Moves motion) : (first >>= next).Moves motion := by
  intro start
  have toMiddle := movesFirst start
  rcases reply : first start with ⟨failure | value, middle, rewinds⟩
  · rw [reply] at toMiddle
    rw [bind_of_error reply]
    exact toMiddle
  · rw [reply] at toMiddle
    rw [bind_of_ok reply]
    exact motion.trans toMiddle (movesNext value middle)

theorem moves_ahead : ahead.Moves motion := fun start => motion.refl start

theorem moves_remaining : remaining.Moves motion := fun start => motion.refl start

theorem moves_depth : depth.Moves motion := fun start => motion.refl start

theorem moves_skip (count : Nat) : (skip count).Moves motion :=
  fun start => motion.skip start count

theorem moves_note (attempt : Attempt) : (note attempt).Moves motion :=
  fun start => motion.refl start

theorem moves_isNext (kind : TokenKind) : (isNext kind).Moves motion :=
  moves_bind moves_ahead fun _ => moves_pure _

theorem moves_acceptIf (accepts : TokenKind → Bool) : (acceptIf accepts).Moves motion := by
  apply moves_bind moves_ahead
  intro tokens
  split
  · split
    · exact moves_bind (moves_skip 1) fun _ => moves_pure _
    · exact moves_pure _
  · exact moves_pure _

theorem moves_accept (kind : TokenKind) : (accept kind).Moves motion := moves_acceptIf _

theorem moves_expect (expectation : Expectation) : (expect expectation).Moves motion := by
  apply moves_bind (moves_accept _)
  intro accepted
  split
  · exact moves_pure _
  · exact moves_failHere _

theorem moves_inBody {body : Parser α} (moves : body.Moves motion) : (inBody body).Moves motion :=
  fun start => motion.inBody (moves (start.atDepth (start.depth + 1)))

theorem moves_rewinding {attempt : Attempt} {tried : Parser α} {otherwise : Failure → Parser α}
    (movesTried : tried.Moves motion) (movesOtherwise : ∀ failure, (otherwise failure).Moves motion) :
    (rewinding attempt tried otherwise).Moves motion := by
  intro start
  rcases reply : tried start with ⟨failure | value, reached, rewinds⟩
  · rw [rewinding_of_error reply]
    exact movesOtherwise failure start
  · have toReached := movesTried start
    rw [reply] at toReached
    rw [rewinding_of_ok reply]
    exact toReached

theorem moves_commaSeparated {item : Parser α} (moves : item.Moves motion) (bound : Nat) :
    (commaSeparated item bound).Moves motion := by
  induction bound with
  | zero => exact moves_bind moves fun _ => moves_pure _
  | succ bound ih =>
      apply moves_bind moves
      intro first
      apply moves_bind (moves_accept _)
      intro comma
      split
      · exact moves_bind ih fun _ => moves_pure _
      · exact moves_pure _

theorem moves_listUntil {item : Parser α} (moves : item.Moves motion) (closing : TokenKind) :
    (listUntil closing item).Moves motion := by
  apply moves_bind (moves_isNext closing)
  intro isClosing
  split
  · exact moves_pure _
  · exact moves_bind moves_remaining fun _ => moves_commaSeparated moves _

/-! ## Expressions -/

section Expressions

variable {inner : Parser Expr} (moves : inner.Moves motion)

include moves in
theorem moves_primary : (primary inner).Moves motion := by
  apply moves_bind moves_ahead
  intro tokens
  split
  · exact moves_failHere _
  · split
    · exact moves_bind (moves_skip 1) fun _ => moves_pure _
    · split
      · exact moves_bind (moves_skip 1) fun _ => moves_pure _
      · split
        · apply moves_bind (moves_skip 1)
          intro _
          apply moves_bind moves
          intro _
          exact moves_bind (moves_expect _) fun _ => moves_pure _
        · exact moves_failHere _

include moves in
theorem moves_finishCall (callee : Expr) : (finishCall inner callee).Moves motion := by
  apply moves_bind (moves_listUntil moves _)
  intro arguments
  apply moves_bind (moves_expect _)
  intro paren
  split
  · exact moves_fail _
  · exact moves_pure _

include moves in
theorem moves_callsFrom (bound : Nat) : ∀ callee, (callsFrom inner bound callee).Moves motion := by
  induction bound with
  | zero => exact fun callee => moves_pure callee
  | succ bound ih =>
      intro callee
      apply moves_bind (moves_accept _)
      intro opening
      split
      · exact moves_bind (moves_finishCall moves callee) ih
      · exact moves_pure _

include moves in
theorem moves_call : (call inner).Moves motion := by
  apply moves_bind (moves_primary moves)
  intro callee
  exact moves_bind moves_remaining fun _ => moves_callsFrom moves _ callee

theorem moves_unaryWithin {operand : Parser Expr} (moves : operand.Moves motion) (bound : Nat) :
    (unaryWithin operand bound).Moves motion := by
  induction bound with
  | zero => exact moves
  | succ bound ih =>
      apply moves_bind (moves_acceptIf _)
      intro operator
      split
      · exact moves_bind ih fun _ => moves_pure _
      · exact moves

theorem moves_chainFrom {accepts : TokenKind → Bool} {node : Expr → Token → Expr → Expr}
    {operand : Parser Expr} (moves : operand.Moves motion) (bound : Nat) :
    ∀ left, (chainFrom accepts node operand bound left).Moves motion := by
  induction bound with
  | zero => exact fun left => moves_pure left
  | succ bound ih =>
      intro left
      apply moves_bind (moves_acceptIf accepts)
      intro operator
      split
      · exact moves_bind moves fun _ => ih _
      · exact moves_pure _

theorem moves_chain {accepts : TokenKind → Bool} {node : Expr → Token → Expr → Expr}
    {operand : Parser Expr} (moves : operand.Moves motion) :
    (chain accepts node operand).Moves motion := by
  apply moves_bind moves
  intro left
  exact moves_bind moves_remaining fun _ => moves_chainFrom moves _ left

include moves in
theorem moves_unary : (unary inner).Moves motion :=
  moves_bind moves_remaining fun _ => moves_unaryWithin (moves_call moves) _

include moves in
theorem moves_disjunction : (disjunction inner).Moves motion := by
  have factors : (factor inner).Moves motion := moves_chain (moves_unary moves)
  have comparisons : (comparison inner).Moves motion := moves_chain (moves_chain factors)
  have conjunctions : (conjunction inner).Moves motion := moves_chain (moves_chain comparisons)
  exact moves_chain conjunctions

include moves in
theorem moves_assignment : (assignment inner).Moves motion := by
  apply moves_bind moves_ahead
  intro tokens
  split
  · exact moves_disjunction moves
  · apply moves_rewinding
    · apply moves_bind (moves_skip 2)
      intro _
      exact moves_bind moves fun _ => moves_pure _
    · exact fun _ => moves_disjunction moves

end Expressions

theorem moves_expressionWithin (bound : Nat) : Moves motion (expressionWithin bound) := by
  induction bound with
  | zero => exact moves_failHere _
  | succ bound ih => exact moves_assignment ih

theorem moves_expression : expression.Moves motion :=
  fun start => moves_expressionWithin start.remaining start

/-! ## Statements -/

theorem moves_expressionUnless (ending : TokenKind) (value : Literal) :
    (expressionUnless ending value).Moves motion := by
  apply moves_bind (moves_isNext ending)
  intro isEnding
  split
  · exact moves_pure _
  · exact moves_expression

theorem moves_optionalExpression (ending : TokenKind) :
    (optionalExpression ending).Moves motion := by
  apply moves_bind (moves_isNext ending)
  intro isEnding
  split
  · exact moves_pure _
  · exact moves_bind moves_expression fun _ => moves_pure _

theorem moves_initializer : initializer.Moves motion := by
  apply moves_bind (moves_accept _)
  intro equals
  split
  · exact moves_bind moves_expression fun _ => moves_pure _
  · exact moves_pure _

theorem moves_variableDeclaration : variableDeclaration.Moves motion := by
  apply moves_bind (moves_expect _)
  intro name
  apply moves_bind moves_initializer
  intro value
  exact moves_bind (moves_expect _) fun _ => moves_pure _

theorem moves_expressionStatement : expressionStatement.Moves motion := by
  apply moves_bind (moves_expressionUnless _ _)
  intro value
  exact moves_bind (moves_expect _) fun _ => moves_pure _

theorem moves_printStatement : printStatement.Moves motion := by
  apply moves_bind (moves_expressionUnless _ _)
  intro value
  exact moves_bind (moves_expect _) fun _ => moves_pure _

theorem moves_returnStatement (keyword : Token) : (returnStatement keyword).Moves motion := by
  apply moves_bind moves_depth
  intro bodies
  split
  · exact moves_fail _
  · apply moves_bind (moves_optionalExpression _)
    intro value
    exact moves_bind (moves_expect _) fun _ => moves_pure _

theorem moves_loopInitializer : loopInitializer.Moves motion := by
  apply moves_bind (moves_isNext _)
  intro isDeclaration
  split
  · exact moves_rewinding (moves_bind (moves_skip 1) fun _ => moves_variableDeclaration) moves_fail
  · exact moves_bind (moves_note _) fun _ => moves_expressionStatement

section Statements

variable {statement declaration : Parser Stmt} (movesStatement : statement.Moves motion)
  (movesDeclaration : declaration.Moves motion)

include movesStatement in
theorem moves_forStatement (keyword : Token) : (forStatement statement keyword).Moves motion := by
  apply moves_bind (moves_expect _)
  intro _
  apply moves_bind moves_loopInitializer
  intro first
  apply moves_bind (moves_expressionUnless _ _)
  intro condition
  apply moves_bind (moves_expect _)
  intro _
  apply moves_bind (moves_optionalExpression _)
  intro increment
  apply moves_bind (moves_expect _)
  intro _
  exact moves_bind movesStatement fun _ => moves_pure _

include movesStatement in
theorem moves_ifStatement (keyword : Token) : (ifStatement statement keyword).Moves motion := by
  apply moves_bind (moves_expect _)
  intro _
  apply moves_bind moves_expression
  intro condition
  apply moves_bind (moves_expect _)
  intro _
  apply moves_bind movesStatement
  intro thenBranch
  apply moves_bind (moves_accept _)
  intro word
  split
  · exact moves_bind movesStatement fun _ => moves_pure _
  · exact moves_pure _

include movesStatement in
theorem moves_whileStatement (keyword : Token) : (whileStatement statement keyword).Moves motion := by
  apply moves_bind (moves_expect _)
  intro _
  apply moves_bind moves_expression
  intro condition
  apply moves_bind (moves_expect _)
  intro _
  exact moves_bind movesStatement fun _ => moves_pure _

include movesDeclaration in
theorem moves_declarationsWithin (bound : Nat) :
    (declarationsWithin declaration bound).Moves motion := by
  induction bound with
  | zero => exact moves_pure _
  | succ bound ih =>
      apply moves_bind moves_ahead
      intro tokens
      apply moves_bind (moves_isNext _)
      intro isClosing
      split
      · exact moves_pure _
      · exact moves_bind movesDeclaration fun _ => moves_bind ih fun _ => moves_pure _

include movesDeclaration in
theorem moves_block : (block declaration).Moves motion := by
  apply moves_bind moves_remaining
  intro bound
  apply moves_bind (moves_declarationsWithin movesDeclaration bound)
  intro statements
  exact moves_bind (moves_expect _) fun _ => moves_pure _

include movesDeclaration in
theorem moves_functionDeclaration : (functionDeclaration declaration).Moves motion := by
  apply moves_bind (moves_expect _)
  intro name
  apply moves_bind (moves_expect _)
  intro _
  apply moves_bind (moves_listUntil (moves_expect _) _)
  intro parameters
  split
  · exact moves_fail _
  · apply moves_bind (moves_expect _)
    intro _
    apply moves_bind (moves_expect _)
    intro _
    exact moves_bind (moves_inBody (moves_block movesDeclaration)) fun _ => moves_pure _

include movesStatement movesDeclaration in
theorem moves_statementOver : (statementOver statement declaration).Moves motion := by
  apply moves_bind moves_ahead
  intro tokens
  split
  · exact moves_expressionStatement
  · split
    · exact moves_bind (moves_skip 1) fun _ => moves_forStatement movesStatement _
    · exact moves_bind (moves_skip 1) fun _ => moves_ifStatement movesStatement _
    · exact moves_bind (moves_skip 1) fun _ => moves_printStatement
    · exact moves_bind (moves_skip 1) fun _ => moves_returnStatement _
    · exact moves_bind (moves_skip 1) fun _ => moves_whileStatement movesStatement _
    · apply moves_bind (moves_skip 1)
      intro _
      exact moves_bind (moves_block movesDeclaration) fun _ => moves_pure _
    · exact moves_expressionStatement

include movesStatement movesDeclaration in
theorem moves_declarationOver : (declarationOver statement declaration).Moves motion := by
  apply moves_bind moves_ahead
  intro tokens
  split
  · exact moves_expressionStatement
  · split
    · exact moves_bind (moves_skip 1) fun _ => moves_functionDeclaration movesDeclaration
    · exact moves_bind (moves_skip 1) fun _ => moves_variableDeclaration
    · exact moves_statementOver movesStatement movesDeclaration

end Statements

theorem moves_within (bound : Nat) :
    Moves motion (statementWithin bound) ∧ Moves motion (declarationWithin bound) := by
  induction bound with
  | zero => exact ⟨moves_expressionStatement, moves_expressionStatement⟩
  | succ bound ih => exact ⟨moves_statementOver ih.1 ih.2, moves_declarationOver ih.1 ih.2⟩

theorem moves_declaration : declaration.Moves motion :=
  fun start => (moves_within start.remaining).2 start

end Parser

/-- The tokens ahead where a parser stops are the last of those where it began. -/
def Motion.onward : Motion where
  allows start reached := reached.rest <:+ start.rest
  refl _ := List.suffix_refl _
  trans first second := second.trans first
  skip _ count := List.drop_suffix count _
  inBody moved := moved

end Lox
