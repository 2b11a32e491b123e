import Lox.Grammar.Program
import Lox.Proofs.Grammar.Recognition

/-!
# Soundness of parsing

Every tree that a production reads is derived by the grammar from the tokens
that were read. A production is given the parsers for the phrases inside it and
is sound if they are. A rewind needs no argument here: whatever was tried in
vain, the alternative reads a phrase from where the attempt began.
-/

set_option autoImplicit false

namespace Lox.Parser

open Grammar (Expression Statement)

variable {start reached : Cursor} {inner : Parser Expr}

/-! ## Expressions -/

theorem primary_sound (sound : Sound inner (Expression .assignment)) :
    Sound (primary inner) (Expression .primary) := by
  intro start expr reached read
  simp only [primary, reads_bind, reads_ahead] at read
  obtain ⟨_, _, ⟨rfl, rfl⟩, read⟩ := read
  split at read
  · simp at read
  · next token later ahead =>
    split at read
    · next value denoted =>
      simp only [reads_bind, reads_skip, reads_pure] at read
      obtain ⟨_, _, rfl, rfl, rfl⟩ := read
      exact ⟨later, ahead ▸ .literal denoted, by simp [ahead]⟩
    · split at read
      · next isName =>
        simp only [reads_bind, reads_skip, reads_pure] at read
        obtain ⟨_, _, rfl, rfl, rfl⟩ := read
        exact ⟨later, ahead ▸ .named isName, by simp [ahead]⟩
      · split at read
        · next opened =>
          simp only [reads_bind, reads_skip, reads_pure, ahead, List.drop_succ_cons,
            List.drop_zero] at read
          obtain ⟨_, _, rfl, value, _, readInner, closing, _, readClosing, rfl, rfl⟩ := read
          obtain ⟨middle, derived, rfl⟩ := sound _ _ _ readInner
          obtain ⟨rest, aheadClosing, closed, rfl⟩ := reads_expect.mp readClosing
          have aheadClosing : middle = closing :: rest := aheadClosing
          exact ⟨rest, ahead ▸ .grouping opened (aheadClosing ▸ derived) closed, rfl⟩
        · simp at read

theorem finishCall_sound (sound : Sound inner (Expression .assignment)) {callee expr : Expr}
    {tokens : List Token} {opening : Token} (opened : opening.kind = .symbol .leftParen)
    (derived : Expression .call callee tokens (opening :: start.rest))
    (read : (finishCall inner callee).Reads start expr reached) :
    ∃ rest, Expression .call expr tokens rest ∧ reached = start.before rest := by
  simp only [finishCall, reads_bind] at read
  obtain ⟨arguments, _, readArguments, paren, _, readParen, read⟩ := read
  obtain ⟨middle, listed, rfl⟩ := listUntil_sound sound _ _ _ _ readArguments
  obtain ⟨rest, ahead, closed, rfl⟩ := reads_expect.mp readParen
  have ahead : middle = paren :: rest := ahead
  split at read
  · simp at read
  · next few =>
    obtain ⟨rfl, rfl⟩ := reads_pure.mp read
    exact ⟨rest, .call derived opened (ahead ▸ listed) closed (Nat.not_lt.mp few), rfl⟩

theorem callsFrom_sound (sound : Sound inner (Expression .assignment)) {tokens : List Token}
    (bound : Nat) : ∀ {start reached : Cursor} {callee expr : Expr},
      Expression .call callee tokens start.rest →
      (callsFrom inner bound callee).Reads start expr reached →
      ∃ rest, Expression .call expr tokens rest ∧ reached = start.before rest := by
  induction bound with
  | zero =>
      intro start reached callee expr derived read
      obtain ⟨rfl, rfl⟩ := reads_pure.mp read
      exact ⟨_, derived, (Cursor.before_eq rfl).symm⟩
  | succ bound ih =>
      intro start reached callee expr derived read
      simp only [callsFrom, reads_bind] at read
      obtain ⟨opening, _, readOpening, read⟩ := read
      cases opening with
      | none =>
          obtain ⟨-, rfl⟩ := reads_accept_none.mp readOpening
          obtain ⟨rfl, rfl⟩ := reads_pure.mp read
          exact ⟨_, derived, (Cursor.before_eq rfl).symm⟩
      | some opening =>
          obtain ⟨later, ahead, opened, rfl⟩ := reads_accept_some.mp readOpening
          simp only [reads_bind] at read
          obtain ⟨called, _, readCall, read⟩ := read
          obtain ⟨middle, derivedCall, rfl⟩ :=
            finishCall_sound sound opened (ahead ▸ derived) readCall
          obtain ⟨rest, derived, rfl⟩ := ih derivedCall read
          exact ⟨rest, derived, rfl⟩

theorem call_sound (sound : Sound inner (Expression .assignment)) :
    Sound (call inner) (Expression .call) := by
  intro start expr reached read
  simp only [call, reads_bind, reads_remaining] at read
  obtain ⟨callee, _, readCallee, _, _, ⟨rfl, rfl⟩, read⟩ := read
  obtain ⟨middle, derived, rfl⟩ := primary_sound sound _ _ _ readCallee
  have callee : Expression .call callee start.rest middle := .tighter derived
  obtain ⟨rest, derived, rfl⟩ := callsFrom_sound sound _ callee read
  exact ⟨rest, derived, rfl⟩

theorem unaryWithin_sound {operand : Parser Expr} (sound : Sound operand (Expression .call))
    (bound : Nat) : Sound (unaryWithin operand bound) (Expression .unary) := by
  have soundOperand : Sound operand (Expression .unary) := by
    intro start expr reached read
    obtain ⟨rest, derived, stopped⟩ := sound _ _ _ read
    exact ⟨rest, .tighter derived, stopped⟩
  induction bound with
  | zero => exact soundOperand
  | succ bound ih =>
      intro start expr reached read
      simp only [unaryWithin, reads_bind] at read
      obtain ⟨operator, _, readOperator, read⟩ := read
      cases operator with
      | none =>
          obtain ⟨-, rfl⟩ := reads_acceptIf_none.mp readOperator
          exact soundOperand _ _ _ read
      | some operator =>
          obtain ⟨later, ahead, isUnary, rfl⟩ := reads_acceptIf_some.mp readOperator
          simp only [reads_bind, reads_pure] at read
          obtain ⟨value, _, readOperand, rfl, rfl⟩ := read
          obtain ⟨rest, derived, rfl⟩ := ih _ _ _ readOperand
          have isUnary : operator.kind = .symbol .bang ∨ operator.kind = .symbol .minus := by
            simpa [TokenKind.isUnaryOperator] using isUnary
          exact ⟨rest, ahead ▸ .unary isUnary derived, rfl⟩

theorem chainFrom_sound {level : Level} {operand : Parser Expr}
    (sound : Sound operand (Expression level.tighter)) {tokens : List Token} (bound : Nat) :
    ∀ {start reached : Cursor} {left expr : Expr}, Expression level left tokens start.rest →
      (chainFrom level.joins level.node operand bound left).Reads start expr reached →
      ∃ rest, Expression level expr tokens rest ∧ reached = start.before rest := by
  induction bound with
  | zero =>
      intro start reached left expr derived read
      obtain ⟨rfl, rfl⟩ := reads_pure.mp read
      exact ⟨_, derived, (Cursor.before_eq rfl).symm⟩
  | succ bound ih =>
      intro start reached left expr derived read
      simp only [chainFrom, reads_bind] at read
      obtain ⟨operator, _, readOperator, read⟩ := read
      cases operator with
      | none =>
          obtain ⟨-, rfl⟩ := reads_acceptIf_none.mp readOperator
          obtain ⟨rfl, rfl⟩ := reads_pure.mp read
          exact ⟨_, derived, (Cursor.before_eq rfl).symm⟩
      | some operator =>
          obtain ⟨later, ahead, accepted, rfl⟩ := reads_acceptIf_some.mp readOperator
          simp only [reads_bind] at read
          obtain ⟨right, _, readRight, read⟩ := read
          obtain ⟨middle, derivedRight, rfl⟩ := sound _ _ _ readRight
          have joined := Expression.binary (ahead ▸ derived) (Level.joins_iff.mp accepted) derivedRight
          obtain ⟨rest, derived, rfl⟩ := ih joined read
          exact ⟨rest, derived, rfl⟩

theorem chain_sound {level : Level} (hasOperators : level.operators ≠ [])
    (sound : Sound (level.tighter.parser inner) (Expression level.tighter)) :
    Sound (level.parser inner) (Expression level) := by
  rw [Level.parser_eq_chain hasOperators]
  intro start expr reached read
  simp only [chain, reads_bind, reads_remaining] at read
  obtain ⟨left, _, readLeft, _, _, ⟨rfl, rfl⟩, read⟩ := read
  obtain ⟨middle, derived, rfl⟩ := sound _ _ _ readLeft
  obtain ⟨rest, derived, rfl⟩ := chainFrom_sound sound _ (.tighter derived) read
  exact ⟨rest, derived, rfl⟩

theorem unary_sound (sound : Sound inner (Expression .assignment)) :
    Sound (unary inner) (Expression .unary) := by
  intro start expr reached read
  simp only [unary, reads_bind, reads_remaining] at read
  obtain ⟨_, _, ⟨rfl, rfl⟩, read⟩ := read
  exact unaryWithin_sound (call_sound sound) _ _ _ _ read

theorem disjunction_sound (sound : Sound inner (Expression .assignment)) :
    Sound (disjunction inner) (Expression .disjunction) := by
  have factor : Sound (Level.factor.parser inner) (Expression .factor) :=
    chain_sound (by decide) (unary_sound sound)
  have term : Sound (Level.term.parser inner) (Expression .term) :=
    chain_sound (by decide) factor
  have comparison : Sound (Level.comparison.parser inner) (Expression .comparison) :=
    chain_sound (by decide) term
  have equality : Sound (Level.equality.parser inner) (Expression .equality) :=
    chain_sound (by decide) comparison
  have conjunction : Sound (Level.conjunction.parser inner) (Expression .conjunction) :=
    chain_sound (by decide) equality
  have disjunction : Sound (Level.disjunction.parser inner) (Expression .disjunction) :=
    chain_sound (by decide) conjunction
  exact disjunction

theorem assignedName?_eq_some {tokens : List Token} {name : Token}
    (assigned : assignedName? tokens = some name) :
    ∃ equals rest, tokens = name :: equals :: rest ∧ name.kind = .name ∧
      equals.kind = .symbol .equal := by
  unfold assignedName? at assigned
  split at assigned
  · next first second rest =>
    split at assigned
    · next kinds =>
      cases assigned
      exact ⟨second, rest, rfl, kinds.1, kinds.2⟩
    · cases assigned
  · cases assigned

theorem assignment_sound (sound : Sound inner (Expression .assignment)) :
    Sound (assignment inner) (Expression .assignment) := by
  have soundOtherwise : Sound (disjunction inner) (Expression .assignment) := by
    intro start expr reached read
    obtain ⟨rest, derived, stopped⟩ := disjunction_sound sound _ _ _ read
    exact ⟨rest, .tighter derived, stopped⟩
  intro start expr reached read
  simp only [assignment, reads_bind, reads_ahead] at read
  obtain ⟨_, _, ⟨rfl, rfl⟩, read⟩ := read
  split at read
  · exact soundOtherwise _ _ _ read
  · next name assigned =>
    rcases reads_rewinding.mp read with read | ⟨_, _, read⟩
    · obtain ⟨equals, later, ahead, isName, isEqual⟩ := assignedName?_eq_some assigned
      simp only [reads_bind, reads_skip, reads_pure, ahead, List.drop_succ_cons,
        List.drop_zero] at read
      obtain ⟨_, _, rfl, value, _, readValue, rfl, rfl⟩ := read
      obtain ⟨rest, derived, rfl⟩ := sound _ _ _ readValue
      exact ⟨rest, ahead ▸ .assign isName isEqual derived, rfl⟩
    · exact soundOtherwise _ _ _ read

theorem expressionWithin_sound (bound : Nat) :
    Sound (expressionWithin bound) (Expression .assignment) := by
  induction bound with
  | zero =>
      intro start expr reached read
      exact absurd read reads_failHere
  | succ bound ih => exact assignment_sound ih

theorem expression_sound : Sound expression (Expression .assignment) :=
  fun start => expressionWithin_sound start.remaining start

/-! ## Clauses -/

theorem expressionUnless_sound {ending : TokenKind} {value : Literal} {expr : Expr}
    (read : (expressionUnless ending value).Reads start expr reached) :
    ∃ given rest, Grammar.OptionalExpression given start.rest rest ∧
      expr = given.getD (.literal value) ∧ reached = start.before rest := by
  simp only [expressionUnless, reads_bind, reads_isNext] at read
  obtain ⟨_, _, ⟨-, rfl⟩, read⟩ := read
  split at read
  · obtain ⟨rfl, rfl⟩ := reads_pure.mp read
    exact ⟨none, _, .none, rfl, (Cursor.before_eq rfl).symm⟩
  · obtain ⟨rest, derived, rfl⟩ := expression_sound _ _ _ read
    exact ⟨some expr, rest, .some derived, rfl, rfl⟩

theorem optionalExpression_sound (ending : TokenKind) :
    Sound (optionalExpression ending) Grammar.OptionalExpression := by
  intro start given reached read
  simp only [optionalExpression, reads_bind, reads_isNext] at read
  obtain ⟨_, _, ⟨-, rfl⟩, read⟩ := read
  split at read
  · obtain ⟨rfl, rfl⟩ := reads_pure.mp read
    exact ⟨_, .none, (Cursor.before_eq rfl).symm⟩
  · simp only [reads_bind, reads_pure] at read
    obtain ⟨expr, _, readExpr, rfl, rfl⟩ := read
    obtain ⟨rest, derived, rfl⟩ := expression_sound _ _ _ readExpr
    exact ⟨rest, .some derived, rfl⟩

theorem initializer_sound : Sound initializer Grammar.Initializer := by
  intro start value reached read
  simp only [initializer, reads_bind] at read
  obtain ⟨equals, _, readEquals, read⟩ := read
  cases equals with
  | none =>
      obtain ⟨-, rfl⟩ := reads_accept_none.mp readEquals
      obtain ⟨rfl, rfl⟩ := reads_pure.mp read
      exact ⟨_, .none, (Cursor.before_eq rfl).symm⟩
  | some equals =>
      obtain ⟨later, ahead, isEqual, rfl⟩ := reads_accept_some.mp readEquals
      simp only [reads_bind, reads_pure] at read
      obtain ⟨expr, _, readExpr, rfl, rfl⟩ := read
      obtain ⟨rest, derived, rfl⟩ := expression_sound _ _ _ readExpr
      exact ⟨rest, ahead ▸ .some isEqual derived, rfl⟩

theorem variableDeclaration_sound {keyword : Token} (word : keyword.kind = .keyword .varWord)
    {stmt : Stmt} (read : variableDeclaration.Reads start stmt reached) :
    ∃ rest, Grammar.VariableDeclaration stmt (keyword :: start.rest) rest ∧
      reached = start.before rest := by
  simp only [variableDeclaration, reads_bind, reads_pure] at read
  obtain ⟨name, _, readName, value, _, readValue, semicolon, _, readSemicolon, rfl, rfl⟩ := read
  obtain ⟨later, ahead, isName, rfl⟩ := reads_expect.mp readName
  obtain ⟨middle, derived, rfl⟩ := initializer_sound _ _ _ readValue
  obtain ⟨rest, aheadSemicolon, isSemicolon, rfl⟩ := reads_expect.mp readSemicolon
  have aheadSemicolon : middle = semicolon :: rest := aheadSemicolon
  exact ⟨rest, ahead ▸ .intro word isName (aheadSemicolon ▸ derived) isSemicolon, rfl⟩

theorem expressionStatement_sound : Sound expressionStatement Grammar.ExpressionStatement := by
  intro start stmt reached read
  simp only [expressionStatement, reads_bind, reads_pure] at read
  obtain ⟨expr, _, readExpr, semicolon, _, readSemicolon, rfl, rfl⟩ := read
  obtain ⟨given, middle, derived, rfl, rfl⟩ := expressionUnless_sound readExpr
  obtain ⟨rest, ahead, isSemicolon, rfl⟩ := reads_expect.mp readSemicolon
  have ahead : middle = semicolon :: rest := ahead
  exact ⟨rest, .intro (ahead ▸ derived) isSemicolon, rfl⟩

theorem loopInitializer_sound : Sound loopInitializer Grammar.LoopInitializer := by
  intro start stmt reached read
  simp only [loopInitializer, reads_bind, reads_isNext] at read
  obtain ⟨_, start, ⟨rfl, rfl⟩, read⟩ := read
  split at read
  · next isNext =>
    obtain ⟨keyword, later, ahead, word⟩ :
        ∃ keyword later, start.rest = keyword :: later ∧ keyword.kind = .keyword .varWord := by
      cases ahead : start.rest with
      | nil => simp [ahead] at isNext
      | cons keyword later => exact ⟨keyword, later, rfl, by simpa [ahead] using isNext⟩
    rcases reads_rewinding.mp read with read | ⟨_, _, read⟩
    · simp only [reads_bind, reads_skip, ahead, List.drop_succ_cons, List.drop_zero] at read
      obtain ⟨_, _, rfl, read⟩ := read
      obtain ⟨rest, derived, rfl⟩ := variableDeclaration_sound word read
      exact ⟨rest, ahead ▸ .declared derived, rfl⟩
    · exact absurd read reads_fail
  · simp only [reads_bind, reads_note] at read
    obtain ⟨_, _, rfl, read⟩ := read
    obtain ⟨rest, derived, rfl⟩ := expressionStatement_sound _ _ _ read
    exact ⟨rest, .expression derived, rfl⟩

/-! ## Statements

The parsers for the statements and declarations inside a production are given
as hypotheses. A statement is read as far as it goes, so one that is not
complete has no alternative behind it.
-/

/-- Whatever the parser reads is a statement, and it leaves no alternative behind. -/
def SoundForStatements (statement : Parser Stmt) : Prop :=
  ∀ start stmt reached, statement.Reads start stmt reached →
    ∃ complete rest, Statement (.statement complete) start.inBody stmt start.rest rest ∧
      Statement.Ends complete rest ∧ reached = start.before rest

/-- Whatever the parser reads is a declaration. -/
def SoundForDeclarations (declaration : Parser Stmt) : Prop :=
  ∀ start stmt reached, declaration.Reads start stmt reached →
    ∃ rest, Statement .declaration start.inBody stmt start.rest rest ∧ reached = start.before rest

variable {statement declaration : Parser Stmt} {keyword : Token} {stmt : Stmt}

theorem forStatement_sound (sound : SoundForStatements statement)
    (word : keyword.kind = .keyword .forWord)
    (read : (forStatement statement keyword).Reads start stmt reached) :
    ∃ complete rest, Statement (.statement complete) start.inBody stmt (keyword :: start.rest) rest ∧
      Statement.Ends complete rest ∧ reached = start.before rest := by
  simp only [forStatement, reads_bind, reads_pure] at read
  obtain ⟨opening, _, readOpening, first, _, readFirst, condition, _, readCondition, semicolon, _,
    readSemicolon, increment, _, readIncrement, closing, _, readClosing, body, _, readBody, rfl,
    rfl⟩ := read
  obtain ⟨clauses, ahead, opened, rfl⟩ := reads_expect.mp readOpening
  obtain ⟨conditions, derivedFirst, rfl⟩ := loopInitializer_sound _ _ _ readFirst
  obtain ⟨given, atSemicolon, derivedCondition, rfl, rfl⟩ := expressionUnless_sound readCondition
  obtain ⟨steps, aheadSemicolon, isSemicolon, rfl⟩ := reads_expect.mp readSemicolon
  obtain ⟨atClosing, derivedIncrement, rfl⟩ := optionalExpression_sound _ _ _ _ readIncrement
  obtain ⟨middle, aheadClosing, closed, rfl⟩ := reads_expect.mp readClosing
  obtain ⟨complete, rest, derivedBody, ends, rfl⟩ := sound _ _ _ readBody
  have aheadSemicolon : atSemicolon = semicolon :: steps := aheadSemicolon
  have aheadClosing : atClosing = closing :: middle := aheadClosing
  have derived := Statement.counting word opened derivedFirst (aheadSemicolon ▸ derivedCondition)
    isSemicolon (aheadClosing ▸ derivedIncrement) closed derivedBody
  refine ⟨complete, rest, ?_, ends, rfl⟩
  rw [ahead]
  cases increment with
  | none => exact derived
  | some increment => exact derived

theorem ifStatement_sound (sound : SoundForStatements statement)
    (word : keyword.kind = .keyword .ifWord)
    (read : (ifStatement statement keyword).Reads start stmt reached) :
    ∃ complete rest, Statement (.statement complete) start.inBody stmt (keyword :: start.rest) rest ∧
      Statement.Ends complete rest ∧ reached = start.before rest := by
  simp only [ifStatement, reads_bind] at read
  obtain ⟨opening, _, readOpening, condition, _, readCondition, closing, _, readClosing, branch, _,
    readBranch, alternative, _, readWord, read⟩ := read
  obtain ⟨tokens, ahead, opened, rfl⟩ := reads_expect.mp readOpening
  obtain ⟨atClosing, derivedCondition, rfl⟩ := expression_sound _ _ _ readCondition
  obtain ⟨middle, aheadClosing, closed, rfl⟩ := reads_expect.mp readClosing
  obtain ⟨complete, later, derivedBranch, ends, rfl⟩ := sound _ _ _ readBranch
  have aheadClosing : atClosing = closing :: middle := aheadClosing
  subst aheadClosing
  cases alternative with
  | none =>
      obtain ⟨noAlternative, rfl⟩ := reads_accept_none.mp readWord
      obtain ⟨rfl, rfl⟩ := reads_pure.mp read
      refine ⟨false, later, ?_, fun _ => noAlternative, rfl⟩
      exact ahead ▸ .conditional word opened derivedCondition closed derivedBranch
  | some alternative =>
      obtain ⟨others, aheadWord, isElse, rfl⟩ := reads_accept_some.mp readWord
      have aheadWord : later = alternative :: others := aheadWord
      subst aheadWord
      -- A branch that is not complete would have taken the alternative for itself.
      have isComplete : complete = true := by
        cases complete with
        | true => rfl
        | false => exact absurd isElse (ends rfl alternative rfl)
      subst isComplete
      simp only [reads_bind, reads_pure] at read
      obtain ⟨other, _, readOther, rfl, rfl⟩ := read
      obtain ⟨complete, rest, derivedOther, ends, rfl⟩ := sound _ _ _ readOther
      refine ⟨complete, rest, ?_, ends, rfl⟩
      exact ahead ▸ .alternative word opened derivedCondition closed derivedBranch isElse derivedOther

theorem whileStatement_sound (sound : SoundForStatements statement)
    (word : keyword.kind = .keyword .whileWord)
    (read : (whileStatement statement keyword).Reads start stmt reached) :
    ∃ complete rest, Statement (.statement complete) start.inBody stmt (keyword :: start.rest) rest ∧
      Statement.Ends complete rest ∧ reached = start.before rest := by
  simp only [whileStatement, reads_bind, reads_pure] at read
  obtain ⟨opening, _, readOpening, condition, _, readCondition, closing, _, readClosing, body, _,
    readBody, rfl, rfl⟩ := read
  obtain ⟨tokens, ahead, opened, rfl⟩ := reads_expect.mp readOpening
  obtain ⟨atClosing, derivedCondition, rfl⟩ := expression_sound _ _ _ readCondition
  obtain ⟨middle, aheadClosing, closed, rfl⟩ := reads_expect.mp readClosing
  obtain ⟨complete, rest, derivedBody, ends, rfl⟩ := sound _ _ _ readBody
  have aheadClosing : atClosing = closing :: middle := aheadClosing
  subst aheadClosing
  exact ⟨complete, rest, ahead ▸ .loop word opened derivedCondition closed derivedBody, ends, rfl⟩

theorem printStatement_sound (word : keyword.kind = .keyword .printWord)
    (read : printStatement.Reads start stmt reached) :
    ∃ rest, Statement (.statement true) start.inBody stmt (keyword :: start.rest) rest ∧
      reached = start.before rest := by
  simp only [printStatement, reads_bind, reads_pure] at read
  obtain ⟨value, _, readValue, semicolon, _, readSemicolon, rfl, rfl⟩ := read
  obtain ⟨given, middle, derived, rfl, rfl⟩ := expressionUnless_sound readValue
  obtain ⟨rest, ahead, isSemicolon, rfl⟩ := reads_expect.mp readSemicolon
  have ahead : middle = semicolon :: rest := ahead
  exact ⟨rest, .print word (ahead ▸ derived) isSemicolon, rfl⟩

theorem returnStatement_sound (word : keyword.kind = .keyword .returnWord)
    (read : (returnStatement keyword).Reads start stmt reached) :
    ∃ rest, Statement (.statement true) start.inBody stmt (keyword :: start.rest) rest ∧
      reached = start.before rest := by
  simp only [returnStatement, reads_bind, reads_depth] at read
  obtain ⟨_, start, ⟨rfl, rfl⟩, read⟩ := read
  split at read
  · exact absurd read reads_fail
  · next inside =>
    have inBody : start.inBody = true := by simpa [Cursor.inBody] using Nat.pos_of_ne_zero inside
    simp only [reads_bind, reads_pure] at read
    obtain ⟨value, _, readValue, semicolon, _, readSemicolon, rfl, rfl⟩ := read
    obtain ⟨middle, derived, rfl⟩ := optionalExpression_sound _ _ _ _ readValue
    obtain ⟨rest, ahead, isSemicolon, rfl⟩ := reads_expect.mp readSemicolon
    have ahead : middle = semicolon :: rest := ahead
    exact ⟨rest, inBody ▸ .returning word (ahead ▸ derived) isSemicolon, rfl⟩

theorem declarationsWithin_sound (sound : SoundForDeclarations declaration) (bound : Nat) :
    ∀ {start reached : Cursor} {statements : List Stmt},
      (declarationsWithin declaration bound).Reads start statements reached →
      ∃ rest, Grammar.Declarations start.inBody statements start.rest rest ∧
        reached = start.before rest := by
  induction bound with
  | zero =>
      intro start reached statements read
      obtain ⟨rfl, rfl⟩ := reads_pure.mp read
      exact ⟨_, .nil, (Cursor.before_eq rfl).symm⟩
  | succ bound ih =>
      intro start reached statements read
      simp only [declarationsWithin, reads_bind, reads_ahead, reads_isNext] at read
      obtain ⟨_, _, ⟨rfl, rfl⟩, _, start, ⟨rfl, rfl⟩, read⟩ := read
      split at read
      · obtain ⟨rfl, rfl⟩ := reads_pure.mp read
        exact ⟨_, .nil, (Cursor.before_eq rfl).symm⟩
      · simp only [reads_bind, reads_pure] at read
        obtain ⟨first, _, readFirst, others, _, readOthers, rfl, rfl⟩ := read
        obtain ⟨middle, derivedFirst, rfl⟩ := sound _ _ _ readFirst
        obtain ⟨rest, derivedOthers, rfl⟩ := ih readOthers
        exact ⟨rest, .cons derivedFirst derivedOthers, rfl⟩

theorem block_sound (sound : SoundForDeclarations declaration) {statements : List Stmt}
    (read : (block declaration).Reads start statements reached) :
    ∃ ending rest, Grammar.Declarations start.inBody statements start.rest (ending :: rest) ∧
      ending.kind = .symbol .rightBrace ∧ reached = start.before rest := by
  simp only [block, reads_bind, reads_remaining, reads_pure] at read
  obtain ⟨_, start, ⟨rfl, rfl⟩, statements, _, readStatements, ending, _, readEnding, rfl, rfl⟩ :=
    read
  obtain ⟨middle, derived, rfl⟩ := declarationsWithin_sound sound _ readStatements
  obtain ⟨rest, ahead, isEnding, rfl⟩ := reads_expect.mp readEnding
  have ahead : middle = ending :: rest := ahead
  exact ⟨ending, rest, ahead ▸ derived, isEnding, rfl⟩

theorem functionDeclaration_sound (sound : SoundForDeclarations declaration)
    (word : keyword.kind = .keyword .funWord)
    (read : (functionDeclaration declaration).Reads start stmt reached) :
    ∃ rest, Statement .declaration start.inBody stmt (keyword :: start.rest) rest ∧
      reached = start.before rest := by
  simp only [functionDeclaration, reads_bind] at read
  obtain ⟨name, _, readName, opening, _, readOpening, parameters, _, readParameters, read⟩ := read
  obtain ⟨later, ahead, isName, rfl⟩ := reads_expect.mp readName
  obtain ⟨tokens, aheadOpening, opened, rfl⟩ := reads_expect.mp readOpening
  obtain ⟨atClosing, listed, rfl⟩ :=
    listUntil_sound expect_parameterName_sound _ _ _ _ readParameters
  have aheadOpening : later = opening :: tokens := aheadOpening
  subst aheadOpening
  split at read
  · exact absurd read reads_fail
  · next few =>
    simp only [reads_bind, reads_pure] at read
    obtain ⟨closing, _, readClosing, brace, _, readBrace, body, _, readBody, rfl, rfl⟩ := read
    obtain ⟨atBrace, aheadClosing, closed, rfl⟩ := reads_expect.mp readClosing
    obtain ⟨inner, aheadBrace, braced, rfl⟩ := reads_expect.mp readBrace
    obtain ⟨_, readBlock, rfl⟩ := reads_inBody.mp readBody
    obtain ⟨ending, rest, derivedBody, isEnding, rfl⟩ := block_sound sound readBlock
    have aheadClosing : atClosing = closing :: atBrace := aheadClosing
    have aheadBrace : atBrace = brace :: inner := aheadBrace
    subst aheadClosing aheadBrace
    have inBody : ((start.before inner).atDepth (start.depth + 1)).inBody = true := by
      simp [Cursor.inBody, Cursor.atDepth]
    refine ⟨rest, ahead ▸ .function word isName opened listed (Nat.not_lt.mp few) closed braced
      (inBody ▸ derivedBody) isEnding, ?_⟩
    simp [Cursor.before, Cursor.ofTokens, Cursor.atDepth]

theorem expressionStatement_soundForStatements : SoundForStatements expressionStatement := by
  intro start stmt reached read
  obtain ⟨rest, derived, rfl⟩ := expressionStatement_sound _ _ _ read
  exact ⟨true, rest, .expression derived, Statement.ends_true rest, rfl⟩

theorem statementOver_sound (soundStatement : SoundForStatements statement)
    (soundDeclaration : SoundForDeclarations declaration) :
    SoundForStatements (statementOver statement declaration) := by
  intro start stmt reached read
  simp only [statementOver, reads_bind, reads_ahead] at read
  obtain ⟨_, start, ⟨rfl, rfl⟩, read⟩ := read
  split at read
  · exact expressionStatement_soundForStatements _ _ _ read
  · next keyword later ahead =>
    rw [ahead]
    split at read
    case h_7 => exact ahead ▸ expressionStatement_soundForStatements _ _ _ read
    all_goals
      simp only [reads_bind, reads_skip, ahead, List.drop_succ_cons, List.drop_zero] at read
      obtain ⟨⟨⟩, _, rfl, read⟩ := read
    · next word => exact forStatement_sound soundStatement word read
    · next word => exact ifStatement_sound soundStatement word read
    · next word =>
      obtain ⟨rest, derived, rfl⟩ := printStatement_sound word read
      exact ⟨true, rest, derived, Statement.ends_true rest, rfl⟩
    · next word =>
      obtain ⟨rest, derived, rfl⟩ := returnStatement_sound word read
      exact ⟨true, rest, derived, Statement.ends_true rest, rfl⟩
    · next word => exact whileStatement_sound soundStatement word read
    · next word =>
      simp only [reads_pure] at read
      obtain ⟨statements, _, readBlock, rfl, rfl⟩ := read
      obtain ⟨ending, rest, derived, isEnding, rfl⟩ := block_sound soundDeclaration readBlock
      exact ⟨true, rest, .block word derived isEnding, Statement.ends_true rest, rfl⟩

theorem declarationOver_sound (soundStatement : SoundForStatements statement)
    (soundDeclaration : SoundForDeclarations declaration) :
    SoundForDeclarations (declarationOver statement declaration) := by
  have soundOtherwise {parser : Parser Stmt} (sound : SoundForStatements parser) :
      SoundForDeclarations parser := by
    intro start stmt reached read
    obtain ⟨complete, rest, derived, _, rfl⟩ := sound _ _ _ read
    exact ⟨rest, .statement derived, rfl⟩
  intro start stmt reached read
  simp only [declarationOver, reads_bind, reads_ahead] at read
  obtain ⟨_, start, ⟨rfl, rfl⟩, read⟩ := read
  split at read
  · exact soundOtherwise expressionStatement_soundForStatements _ _ _ read
  · next keyword later ahead =>
    split at read
    · next word =>
      simp only [reads_bind, reads_skip, ahead, List.drop_succ_cons, List.drop_zero] at read
      obtain ⟨_, _, rfl, read⟩ := read
      exact ahead ▸ functionDeclaration_sound soundDeclaration word read
    · next word =>
      simp only [reads_bind, reads_skip, ahead, List.drop_succ_cons, List.drop_zero] at read
      obtain ⟨_, _, rfl, read⟩ := read
      obtain ⟨rest, derived, rfl⟩ := variableDeclaration_sound word read
      exact ⟨rest, ahead ▸ .declared derived, rfl⟩
    · exact soundOtherwise (statementOver_sound soundStatement soundDeclaration) _ _ _ read

theorem within_sound (bound : Nat) :
    SoundForStatements (statementWithin bound) ∧ SoundForDeclarations (declarationWithin bound) := by
  induction bound with
  | zero =>
      refine ⟨expressionStatement_soundForStatements, ?_⟩
      intro start stmt reached read
      obtain ⟨complete, rest, derived, _, rfl⟩ := expressionStatement_soundForStatements _ _ _ read
      exact ⟨rest, .statement derived, rfl⟩
  | succ bound ih =>
      exact ⟨statementOver_sound ih.1 ih.2, declarationOver_sound ih.1 ih.2⟩

theorem declaration_sound : SoundForDeclarations Parser.declaration :=
  fun start => (within_sound start.remaining).2 start

end Lox.Parser

namespace Lox.Parse

/-- A parse without a failure is a derivation of all its tokens. -/
theorem within_sound (bound : Nat) : ∀ (start : Cursor), start.rest.length ≤ bound →
    (within bound start).failure = none →
    Grammar.Declarations start.inBody (within bound start).statements start.rest [] := by
  induction bound with
  | zero =>
      intro start few _
      have none : start.rest = [] := List.length_eq_zero_iff.mp (Nat.le_zero.mp few)
      rw [none]
      exact .nil
  | succ bound ih =>
      intro start few succeeded
      unfold within at succeeded ⊢
      split at succeeded
      · next none =>
        have none : start.rest = [] := by simpa using none
        simp only [none, List.isEmpty_nil, ↓reduceIte]
        exact .nil
      · next some =>
        simp only [some, Bool.false_eq_true, ↓reduceIte]
        split at succeeded
        · next first reached rewinds result =>
          have read : Parser.declaration.Reads start first reached := by
            simp [Parser.Reads, result]
          obtain ⟨rest, derived, rfl⟩ := Parser.declaration_sound _ _ _ read
          have shorter := derived.length_lt
          exact .cons derived (ih _ (by simp; omega) succeeded)
        · cases succeeded

end Lox.Parse
