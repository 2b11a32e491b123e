import Lox.Proofs.Grammar.Soundness
import Lox.Proofs.Syntax.Likeness

/-!
# The clauses of a counting loop

A counting loop has three clauses and a body, and what is read for it is built
from these. The body is a statement and no declaration, so it declares nothing
in the scope that it stands in.
-/

set_option autoImplicit false

namespace Lox

namespace Grammar

/-- What stands behind the keyword of a counting loop: an initializer, a
condition and an increment that may both be missing, and a body. -/
inductive CountingClauses : Bool → Stmt → Option Expr → Option Expr → Stmt →
    List Token → List Token → Prop where
  | intro {complete inBody opening first tokens condition clauses semicolon increment steps closing
      body middle rest} :
      opening.kind = .symbol .leftParen → LoopInitializer first tokens clauses →
      OptionalExpression condition clauses (semicolon :: steps) →
      semicolon.kind = .symbol .semicolon →
      OptionalExpression increment steps (closing :: middle) →
      closing.kind = .symbol .rightParen →
      Statement (.statement complete) inBody body middle rest →
      CountingClauses inBody first condition increment body (opening :: tokens) rest

/-- A statement behind the keyword of counting loops is built from their clauses. -/
theorem Statement.clauses {complete inBody : Bool} {stmt : Stmt} {keyword : Token}
    {tokens rest : List Token}
    (derived : Statement (.statement complete) inBody stmt (keyword :: tokens) rest)
    (word : keyword.kind = .keyword .forWord) :
    ∃ first condition increment body,
      CountingClauses inBody first condition increment body tokens rest ∧
      stmt = .counting keyword first (condition.getD (.literal (.bool true))) increment body := by
  generalize ahead : keyword :: tokens = start at derived
  cases derived with
  | @counting _ _ _ _ first _ condition _ _ increment _ _ body _ _
      _ opened derivedFirst derivedCondition ended derivedIncrement closed derivedBody =>
      obtain ⟨rfl, rfl⟩ := List.cons.inj ahead
      refine ⟨first, condition, increment, body, .intro opened derivedFirst derivedCondition ended
        derivedIncrement closed derivedBody, ?_⟩
      cases increment with
      | none => rfl
      | some increment => rfl
  | conditional other | alternative other | print other | returning other | loop other
  | block other =>
      obtain ⟨rfl, rfl⟩ := List.cons.inj ahead
      simp [word] at other
  | expression value =>
      obtain ⟨first, later, split, opens⟩ := value.opens
      obtain ⟨rfl, _⟩ := List.cons.inj (ahead.trans split)
      simp [word, TokenKind.opensExpression, TokenKind.opensOperand] at opens

theorem ExpressionStatement.declaresNothing {stmt : Stmt} {tokens rest : List Token}
    (derived : ExpressionStatement stmt tokens rest) : stmt.DeclaresNothing := by
  cases derived with
  | intro => exact .expression

/-- A statement that is no declaration declares nothing in its own scope. -/
theorem Statement.declaresNothing : ∀ {complete inBody : Bool} {stmt : Stmt}
    {tokens rest : List Token}, Statement (.statement complete) inBody stmt tokens rest →
    stmt.DeclaresNothing
  | _, _, _, _, _, .counting _ _ _ _ _ _ _ _ => .block
  | _, _, _, _, _, .conditional _ _ _ _ branch => .branch branch.declaresNothing (by simp)
  | _, _, _, _, _, .alternative _ _ _ _ branch _ other =>
      .branch branch.declaresNothing (by simpa using other.declaresNothing)
  | _, _, _, _, _, .print _ _ _ => .print
  | _, _, _, _, _, .returning _ _ _ => .returning
  | _, _, _, _, _, .loop _ _ _ _ body => .loop body.declaresNothing
  | _, _, _, _, _, .block _ _ _ => .block
  | _, _, _, _, _, .expression value => value.declaresNothing

end Grammar

/-- What is read behind the keyword of counting loops is built from their clauses. -/
theorem Parser.statementWithin_clauses {bound : Nat} {start reached : Cursor} {stmt : Stmt}
    {keyword : Token} {tokens : List Token}
    (read : Parser.Reads (Parser.statementWithin bound) start stmt reached)
    (ahead : start.rest = keyword :: tokens) (word : keyword.kind = .keyword .forWord) :
    ∃ first condition increment body rest,
      Grammar.CountingClauses start.inBody first condition increment body tokens rest ∧
      reached = start.before rest ∧
      stmt = .counting keyword first (condition.getD (.literal (.bool true))) increment body := by
  obtain ⟨complete, rest, derived, _, atRest⟩ := (within_sound bound).1 start stmt reached read
  rw [ahead] at derived
  obtain ⟨first, condition, increment, body, clauses, built⟩ := derived.clauses word
  exact ⟨first, condition, increment, body, rest, clauses, atRest, built⟩

end Lox
