import Lox.Proofs.Grammar.Speculation

/-!
# Programs with an assignment tried in vain

No statement goes on behind an equals sign that an expression has left ahead,
and no failure of a statement is made good by another one. So a program in
which some assignment was tried in vain is rejected, at an equals sign.
-/

set_option autoImplicit false

namespace Lox

namespace Parser

variable {count : Nat}

/-! ## Clauses -/

theorem speculates_expressionUnless (ending : TokenKind) (value : Literal) :
    (expressionUnless ending value).Speculates true count := by
  apply speculates_bind_of_strict (quiet_isNext ending).speculates (moves_isNext ending)
  intro isEnding
  split
  · exact (quiet_pure _).speculates
  · exact speculates_expression count

theorem speculates_optionalExpression (ending : TokenKind) :
    (optionalExpression ending).Speculates true count := by
  apply speculates_bind_of_strict (quiet_isNext ending).speculates (moves_isNext ending)
  intro isEnding
  split
  · exact (quiet_pure _).speculates
  · exact speculates_bind (speculates_expression count) moves_expression
      (fun _ => (quiet_pure _).speculates) fun _ => halts_pure _

theorem speculates_initializer : initializer.Speculates true count := by
  apply speculates_bind_of_strict (quiet_acceptIf _).speculates (moves_acceptIf _)
  intro equals
  cases equals with
  | none => exact (quiet_pure _).speculates
  | some equals =>
      exact speculates_bind (speculates_expression count) moves_expression
        (fun _ => (quiet_pure _).speculates) fun _ => halts_pure _

theorem speculates_variableDeclaration : variableDeclaration.Speculates false count := by
  apply speculates_expect
  intro name
  exact speculates_upTo _ speculates_initializer moves_initializer fun _ _ =>
    (quiet_pure _).speculates

theorem speculates_expressionStatement : expressionStatement.Speculates false count :=
  speculates_upTo _ (speculates_expressionUnless _ _) (moves_expressionUnless _ _) fun _ _ =>
    (quiet_pure _).speculates

theorem speculates_printStatement : printStatement.Speculates false count :=
  speculates_upTo _ (speculates_expressionUnless _ _) (moves_expressionUnless _ _) fun _ _ =>
    (quiet_pure _).speculates

theorem speculates_returnStatement (keyword : Token) :
    (returnStatement keyword).Speculates false count := by
  apply speculates_bind_of_strict quiet_depth.speculates moves_depth
  intro bodies
  split
  · exact (quiet_fail _).speculates
  · exact speculates_upTo _ (speculates_optionalExpression _) (moves_optionalExpression _)
      fun _ _ => (quiet_pure _).speculates

theorem speculates_rewinding_fail {α : Type} {tried : Parser α}
    (speculates : tried.Speculates false count) :
    (rewinding .loopDeclaration tried fail).Speculates false count := by
  intro start few rewind member isAssignment
  have attempt := speculates start few rewind
  rcases reply : tried start with ⟨failure | value, reached, rewinds⟩
  · rw [reply] at attempt
    rw [rewinding_of_error reply] at member ⊢
    simp only [fail, List.mem_append, List.mem_singleton] at member
    obtain earlier | rfl := member
    · exact attempt earlier isAssignment
    · cases isAssignment
  · rw [reply] at attempt
    rw [rewinding_of_ok reply] at member ⊢
    exact attempt member isAssignment

theorem speculates_loopInitializer : loopInitializer.Speculates false count := by
  apply speculates_bind_of_strict (quiet_isNext _).speculates (moves_isNext _)
  intro isDeclaration
  split
  · apply speculates_rewinding_fail
    exact speculates_bind_of_strict (quiet_skip 1).speculates (moves_skip 1) fun _ =>
      speculates_variableDeclaration
  · exact speculates_bind_of_strict quiet_note.speculates (moves_note _) fun _ =>
      speculates_expressionStatement

/-! ## Statements -/

theorem quiet_listUntil {α : Type} {item : Parser α} (quiet : item.Quiet) (closing : TokenKind) :
    (listUntil closing item).Quiet := by
  have items : ∀ bound, (commaSeparated item bound).Quiet := by
    intro bound
    induction bound with
    | zero => exact quiet_bind quiet fun _ => quiet_pure _
    | succ bound ih =>
        apply quiet_bind quiet
        intro first
        apply quiet_bind (quiet_acceptIf _)
        intro comma
        cases comma with
        | none => exact quiet_pure _
        | some comma => exact quiet_bind ih fun _ => quiet_pure _
  apply quiet_bind (quiet_isNext closing)
  intro isClosing
  split
  · exact quiet_pure _
  · exact quiet_bind quiet_remaining items

theorem speculates_behind {α : Type} {next : Unit → Parser α} {mayEnd : Bool}
    (speculates : (next ()).Speculates mayEnd count) :
    (skip 1 >>= next).Speculates mayEnd count :=
  speculates_bind_of_strict (quiet_skip 1).speculates (moves_skip 1) fun _ => speculates

section Statements

variable {statement declaration : Parser Stmt}
  (speculatesStatement : statement.Speculates false count)
  (movesStatement : statement.Moves .onward)
  (speculatesDeclaration : declaration.Speculates false count)
  (movesDeclaration : declaration.Moves .onward)

include speculatesStatement movesStatement in
theorem speculates_forStatement (keyword : Token) :
    (forStatement statement keyword).Speculates false count := by
  apply speculates_expect
  intro _
  apply speculates_bind_of_strict speculates_loopInitializer moves_loopInitializer
  intro first
  apply speculates_upTo _ (speculates_expressionUnless _ _) (moves_expressionUnless _ _)
  intro condition _
  apply speculates_upTo _ (speculates_optionalExpression _) (moves_optionalExpression _)
  intro increment _
  exact speculates_bind_of_strict speculatesStatement movesStatement fun _ =>
    (quiet_pure _).speculates

include speculatesStatement movesStatement in
theorem speculates_ifStatement (keyword : Token) :
    (ifStatement statement keyword).Speculates false count := by
  apply speculates_expect
  intro _
  apply speculates_upTo _ (speculates_expression count) moves_expression
  intro condition _
  apply speculates_bind_of_strict speculatesStatement movesStatement
  intro thenBranch
  apply speculates_bind_of_strict (quiet_acceptIf _).speculates (moves_acceptIf _)
  intro word
  cases word with
  | none => exact (quiet_pure _).speculates
  | some word =>
      exact speculates_bind_of_strict speculatesStatement movesStatement fun _ =>
        (quiet_pure _).speculates

include speculatesStatement movesStatement in
theorem speculates_whileStatement (keyword : Token) :
    (whileStatement statement keyword).Speculates false count := by
  apply speculates_expect
  intro _
  apply speculates_upTo _ (speculates_expression count) moves_expression
  intro condition _
  exact speculates_bind_of_strict speculatesStatement movesStatement fun _ =>
    (quiet_pure _).speculates

include speculatesDeclaration movesDeclaration in
theorem speculates_block : (block declaration).Speculates false count := by
  have declarations : ∀ bound, (declarationsWithin declaration bound).Speculates false count := by
    intro bound
    induction bound with
    | zero => exact (quiet_pure _).speculates
    | succ bound ih =>
        apply speculates_bind_of_strict quiet_ahead.speculates moves_ahead
        intro tokens
        apply speculates_bind_of_strict (quiet_isNext _).speculates (moves_isNext _)
        intro isClosing
        split
        · exact (quiet_pure _).speculates
        · apply speculates_bind_of_strict speculatesDeclaration movesDeclaration
          intro first
          exact speculates_bind_of_strict ih (moves_declarationsWithin movesDeclaration bound)
            fun _ => (quiet_pure _).speculates
  apply speculates_bind_of_strict quiet_remaining.speculates moves_remaining
  intro bound
  apply speculates_bind_of_strict (declarations bound)
    (moves_declarationsWithin movesDeclaration bound)
  exact fun statements => speculates_expect _ fun _ => (quiet_pure _).speculates

theorem speculates_inBody {α : Type} {body : Parser α} (speculates : body.Speculates false count) :
    (inBody body).Speculates false count := by
  intro start few rewind member isAssignment
  obtain ⟨ofAssignment, stuck⟩ := speculates (start.atDepth (start.depth + 1)) few rewind member
    isAssignment
  refine ⟨ofAssignment, ?_⟩
  simp only [Reply.Stuck, inBody] at stuck ⊢
  cases outcome : (body (start.atDepth (start.depth + 1))).outcome with
  | ok value =>
      rw [outcome] at stuck
      exact absurd stuck.1 Bool.false_ne_true
  | error failure =>
      rw [outcome] at stuck
      exact stuck

include speculatesDeclaration movesDeclaration in
theorem speculates_functionDeclaration :
    (functionDeclaration declaration).Speculates false count := by
  apply speculates_expect
  intro name
  apply speculates_expect
  intro _
  apply speculates_bind_of_strict (quiet_listUntil (quiet_expect _) _).speculates
    (moves_listUntil (moves_expect _) _)
  intro parameters
  split
  · exact (quiet_fail _).speculates
  · apply speculates_expect
    intro _
    apply speculates_expect
    intro _
    exact speculates_bind_of_strict
      (speculates_inBody (speculates_block speculatesDeclaration movesDeclaration))
      (moves_inBody (moves_block movesDeclaration)) fun _ => (quiet_pure _).speculates

include speculatesStatement movesStatement speculatesDeclaration movesDeclaration in
theorem speculates_statementOver :
    (statementOver statement declaration).Speculates false count := by
  apply speculates_bind_of_strict quiet_ahead.speculates moves_ahead
  intro tokens
  split
  · exact speculates_expressionStatement
  · split
    · exact speculates_behind (speculates_forStatement speculatesStatement movesStatement _)
    · exact speculates_behind (speculates_ifStatement speculatesStatement movesStatement _)
    · exact speculates_behind speculates_printStatement
    · exact speculates_behind (speculates_returnStatement _)
    · exact speculates_behind (speculates_whileStatement speculatesStatement movesStatement _)
    · apply speculates_behind
      exact speculates_bind_of_strict (speculates_block speculatesDeclaration movesDeclaration)
        (moves_block movesDeclaration) fun _ => (quiet_pure _).speculates
    · exact speculates_expressionStatement

include speculatesStatement movesStatement speculatesDeclaration movesDeclaration in
theorem speculates_declarationOver :
    (declarationOver statement declaration).Speculates false count := by
  apply speculates_bind_of_strict quiet_ahead.speculates moves_ahead
  intro tokens
  split
  · exact speculates_expressionStatement
  · split
    · exact speculates_behind (speculates_functionDeclaration speculatesDeclaration movesDeclaration)
    · exact speculates_behind speculates_variableDeclaration
    · exact speculates_statementOver speculatesStatement movesStatement speculatesDeclaration
        movesDeclaration

end Statements

theorem speculates_within (count bound : Nat) :
    Speculates false count (statementWithin bound) ∧
      Speculates false count (declarationWithin bound) := by
  induction bound with
  | zero => exact ⟨speculates_expressionStatement, speculates_expressionStatement⟩
  | succ bound ih =>
      obtain ⟨movesStatement, movesDeclaration⟩ := moves_within bound
      exact ⟨speculates_statementOver ih.1 movesStatement ih.2 movesDeclaration,
        speculates_declarationOver ih.1 movesStatement ih.2 movesDeclaration⟩

theorem speculates_declaration (count : Nat) : declaration.Speculates false count :=
  fun start => (speculates_within count start.remaining).2 start

end Parser

/-! ## Programs -/

theorem Parse.within_speculates (bound : Nat) :
    ∀ start, ∀ rewind ∈ (within bound start).rewinds, rewind.attempt = .assignment →
      rewind.OfAssignment start.rest ∧ ∃ failure ∈ (within bound start).failure, failure.AtEquals := by
  induction bound with
  | zero =>
      intro start rewind member
      cases member
  | succ bound ih =>
      intro start rewind member isAssignment
      rw [within] at member ⊢
      split at member
      · cases member
      · next notEnded =>
        rw [if_neg notEnded]
        have tried := Parser.speculates_declaration _ start (Nat.le_refl _) rewind
        have moves : Parser.declaration.Moves .onward := Parser.moves_declaration
        have moved : (Parser.declaration start).cursor.rest <:+ start.rest := moves start
        rcases reply : Parser.declaration start with ⟨failure | first, reached, rewinds⟩
        · rw [reply] at tried member
          obtain ⟨ofAssignment, equals⟩ := tried member isAssignment
          exact ⟨ofAssignment, failure, rfl, equals⟩
        · rw [reply] at tried member moved
          obtain earlier | later := List.mem_append.mp member
          · obtain ⟨-, never, -⟩ := tried earlier isAssignment
            exact absurd never Bool.false_ne_true
          · obtain ⟨ofAssignment, failed⟩ := ih reached rewind later isAssignment
            exact ⟨ofAssignment.mono moved, failed⟩

/-- The index of the rewind is that of the name, and the program is rejected. -/
theorem parseTokens_of_rewound {tokens : List Token} {index : Nat}
    (rewound : (.assignment, index) ∈ (parseTokens tokens).rewinds) :
    (∃ name equals value depth failure,
      (bodyOf tokens).drop index = name :: equals :: value ∧ name.kind = .name ∧
        equals.kind = .symbol .equal ∧
        Parser.expression.Fails (.ofTokens value depth) failure) ∧
      ∃ expectation token, (parseTokens tokens).error = some ⟨.missing expectation, token⟩ ∧
        token.kind = .symbol .equal := by
  obtain ⟨rewind, member, same⟩ := List.mem_map.mp rewound
  obtain ⟨isAssignment, rfl⟩ := Prod.mk.inj same
  obtain ⟨ofAssignment, failure, failed, expectation, token, rfl, isEqual⟩ :=
    Parse.within_speculates _ (.ofTokens (bodyOf tokens) 0) rewind member isAssignment
  obtain ⟨name, equals, value, depth, failure, stands, isName, isEquals, remaining, fails⟩ :=
    ofAssignment
  constructor
  · refine ⟨name, equals, value, depth, failure, ?_, isName, isEquals, fails⟩
    rw [remaining]
    exact (List.suffix_iff_eq_drop.mp stands).symm
  · refine ⟨expectation, token, ?_, isEqual⟩
    simp only [parseTokens, Parse.ofBody, Option.mem_def.mp failed]
    rfl

/-- An assignment that a program tries in vain goes back to a name with an
equals sign behind it and no value behind that, and the program is rejected
because some place of the grammar asks for another token than an equals sign
there is. So an accepted program tries none in vain. Wherever a name and an
equals sign are ahead, an expression is read: the assignment if its value can
be, and else the name alone, with the equals sign ahead and the attempt noted. -/
theorem rejected_of_assignment_in_vain (tokens : List Token) :
    (∀ index, (.assignment, index) ∈ (parseTokens tokens).rewinds →
        (∃ name equals value depth failure,
          (bodyOf tokens).drop index = name :: equals :: value ∧ name.kind = .name ∧
            equals.kind = .symbol .equal ∧
            Parser.expression.Fails (.ofTokens value depth) failure) ∧
          ∃ expectation token, (parseTokens tokens).error = some ⟨.missing expectation, token⟩ ∧
            token.kind = .symbol .equal) ∧
      ((parseTokens tokens).error = none →
        ∀ index, (.assignment, index) ∉ (parseTokens tokens).rewinds) ∧
      ∀ (start : Cursor) (name equals : Token) (value : List Token),
        start.rest = name :: equals :: value → name.kind = .name → equals.kind = .symbol .equal →
        (∃ expr reached, Parser.expression.Reads start expr reached) ∧
          (∀ expr reached, Parser.expression.Reads (start.before value) expr reached →
            Parser.expression.Reads start (.assign (some name) expr) reached) ∧
          ∀ failure, Parser.expression.Fails (start.before value) failure →
            Parser.expression.Reads start (.variable name) (start.before (equals :: value)) ∧
              ⟨.assignment, start.remaining⟩ ∈ (Parser.expression start).rewinds := by
  refine ⟨fun index => parseTokens_of_rewound, ?_, ?_⟩
  · intro accepted index rewound
    obtain ⟨-, expectation, token, error, -⟩ := parseTokens_of_rewound rewound
    cases accepted.symm.trans error
  · intro start name equals value ahead isName isEqual
    have replies := Parser.expression_of_assignedName ahead isName isEqual
    refine ⟨?_, replies⟩
    rcases reply : Parser.expression (start.before value) with ⟨failure | expr, reached, rewinds⟩
    · exact ⟨_, _, (replies.2 failure (congrArg Reply.outcome reply)).1⟩
    · exact ⟨_, _, replies.1 expr reached ⟨congrArg Reply.outcome reply, congrArg Reply.cursor reply⟩⟩

end Lox
