import Lox.Proofs.Grammar.Bound
import Lox.Proofs.Grammar.Completeness
import Lox.Proofs.Grammar.Soundness

/-!
# Assignments tried in vain

A name and an equals sign are read as an assignment, and if no value can be
read behind them, the name is taken as an expression by itself. That leaves the
equals sign ahead, where no place of the grammar asks for one. So what is tried
in vain is never accepted: an expression ends there with the equals sign still
ahead, and whatever is built around the expression fails at it.
-/

set_option autoImplicit false

namespace Lox

/-- An equals sign is the first token ahead. -/
def Cursor.AtEquals (cursor : Cursor) : Prop :=
  ∃ token ∈ cursor.rest.head?, token.kind = .symbol .equal

/-- A place of the grammar that asks for another token has found an equals sign. -/
def Failure.AtEquals (failure : Failure) : Prop :=
  ∃ expectation token, failure = ⟨.missing expectation, some token⟩ ∧ token.kind = .symbol .equal

/-- The rewind goes back to a name with an equals sign behind it, because what
follows them could not be read as a value. -/
def Rewind.OfAssignment (tokens : List Token) (rewind : Rewind) : Prop :=
  ∃ name equals value depth failure, name :: equals :: value <:+ tokens ∧
    name.kind = .name ∧ equals.kind = .symbol .equal ∧ rewind.remaining = value.length + 2 ∧
    Parser.expression.Fails (.ofTokens value depth) failure

theorem Rewind.OfAssignment.mono {tokens more : List Token} {rewind : Rewind}
    (tried : rewind.OfAssignment tokens) (suffix : tokens <:+ more) : rewind.OfAssignment more := by
  obtain ⟨name, equals, value, depth, failure, stands, rest⟩ := tried
  exact ⟨name, equals, value, depth, failure, stands.trans suffix, rest⟩

theorem Expectation.kind_ne_equal (expectation : Expectation) :
    expectation.kind ≠ .symbol .equal := by
  cases expectation <;> simp [Expectation.kind]

/-- The reply goes no further than an equals sign. It is a failure there, or,
if a reply may end before one, a success with the equals sign ahead. -/
def Reply.Stuck {α : Type} (mayEnd : Bool) (reply : Reply α) : Prop :=
  match reply.outcome with
  | .ok _ => mayEnd = true ∧ reply.cursor.AtEquals
  | .error failure => failure.AtEquals

namespace Parser

variable {α β : Type} {mayEnd : Bool} {count : Nat}

/-- Whenever an assignment was tried in vain, the parser is stuck at an equals
sign. The first clause says what was tried. -/
def Speculates (mayEnd : Bool) (count : Nat) (parser : Parser α) : Prop :=
  ∀ start, start.rest.length ≤ count →
    ∀ rewind ∈ (parser start).rewinds, rewind.attempt = .assignment →
      rewind.OfAssignment start.rest ∧ (parser start).Stuck mayEnd

/-- From an equals sign the parser gets stuck at once. -/
def Halts (mayEnd : Bool) (parser : Parser α) : Prop :=
  ∀ start : Cursor, start.AtEquals → (parser start).Stuck mayEnd

/-! ## At an equals sign -/

theorem halts_pure (value : α) : (pure value : Parser α).Halts true :=
  fun _ equals => ⟨rfl, equals⟩

/-- What always fails at an equals sign does so whatever would come next. -/
theorem halts_bind_of_strict {first : Parser α} {next : α → Parser β}
    (haltsFirst : first.Halts false) : (first >>= next).Halts mayEnd := by
  intro start equals
  have stuck := haltsFirst start equals
  rcases reply : first start with ⟨failure | value, middle, rewinds⟩
  · rw [reply] at stuck
    rw [bind_of_error reply]
    exact stuck
  · rw [reply] at stuck
    exact absurd stuck.1 Bool.false_ne_true

theorem halts_acceptIf {accepts : TokenKind → Bool} {next : Option Token → Parser β}
    (refuses : accepts (.symbol .equal) = false) (halts : (next none).Halts mayEnd) :
    (acceptIf accepts >>= next).Halts mayEnd := by
  rintro start ⟨token, ahead, isEqual⟩
  obtain ⟨rest, tokens⟩ := List.head?_eq_some_iff.mp ahead
  have refused : acceptIf accepts start = ⟨.ok none, start, []⟩ := by
    rw [acceptIf, bind_ahead, tokens]
    simp only [isEqual, refuses]
    rfl
  rw [bind_of_ok refused]
  exact halts start ⟨token, ahead, isEqual⟩

theorem halts_expect (expectation : Expectation) : (expect expectation).Halts false := by
  apply halts_acceptIf
  · simpa using (Expectation.kind_ne_equal expectation).symm
  · rintro start ⟨token, ahead, isEqual⟩
    have head : start.rest.head? = some token := ahead
    exact ⟨expectation, token, by rw [head], isEqual⟩

theorem halts_chainFrom {accepts : TokenKind → Bool} {node : Expr → Token → Expr → Expr}
    {operand : Parser Expr} (refuses : accepts (.symbol .equal) = false) (bound : Nat) (left : Expr) :
    (chainFrom accepts node operand bound left).Halts true := by
  cases bound with
  | zero => exact halts_pure left
  | succ bound => exact halts_acceptIf refuses (halts_pure left)

theorem halts_callsFrom {inner : Parser Expr} (bound : Nat) (callee : Expr) :
    (callsFrom inner bound callee).Halts true := by
  cases bound with
  | zero => exact halts_pure callee
  | succ bound => exact halts_acceptIf (by decide) (halts_pure callee)

/-! ## Joining parsers -/

/-- If the first parser may end at an equals sign after an assignment tried in
vain, the next one must halt there. -/
theorem speculates_bind_of_ends {mayEndFirst : Bool} {first : Parser α} {next : α → Parser β}
    (speculatesFirst : first.Speculates mayEndFirst count) (moves : first.Moves .onward)
    (speculatesNext : ∀ value, (next value).Speculates mayEnd count)
    (haltsNext : mayEndFirst = true → ∀ value, (next value).Halts mayEnd) :
    (first >>= next).Speculates mayEnd count := by
  intro start few rewind member isAssignment
  have tried := speculatesFirst start few rewind
  have moved : (first start).cursor.rest <:+ start.rest := moves start
  rcases reply : first start with ⟨failure | value, middle, rewinds⟩
  · rw [reply] at tried
    rw [bind_of_error reply] at member ⊢
    exact tried member isAssignment
  · rw [reply] at tried moved
    rw [bind_of_ok reply] at member ⊢
    obtain earlier | later := List.mem_append.mp member
    · obtain ⟨ofAssignment, ends, equals⟩ := tried earlier isAssignment
      exact ⟨ofAssignment, haltsNext ends value middle equals⟩
    · have few' : middle.rest.length ≤ count := Nat.le_trans moved.length_le few
      obtain ⟨ofAssignment, stuck⟩ := speculatesNext value middle few' rewind later isAssignment
      exact ⟨ofAssignment.mono moved, stuck⟩

theorem speculates_bind {first : Parser α} {next : α → Parser β}
    (speculatesFirst : first.Speculates true count) (moves : first.Moves .onward)
    (speculatesNext : ∀ value, (next value).Speculates mayEnd count)
    (haltsNext : ∀ value, (next value).Halts mayEnd) :
    (first >>= next).Speculates mayEnd count :=
  speculates_bind_of_ends speculatesFirst moves speculatesNext fun _ => haltsNext

/-- Behind a parser that fails when it has tried an assignment in vain, nothing
is asked of what comes next at an equals sign. -/
theorem speculates_bind_of_strict {first : Parser α} {next : α → Parser β}
    (speculatesFirst : first.Speculates false count) (moves : first.Moves .onward)
    (speculatesNext : ∀ value, (next value).Speculates mayEnd count) :
    (first >>= next).Speculates mayEnd count :=
  speculates_bind_of_ends speculatesFirst moves speculatesNext fun never =>
    absurd never Bool.false_ne_true

theorem Speculates.fewer {less : Nat} {parser : Parser α} (speculates : parser.Speculates mayEnd count)
    (le : less ≤ count) : parser.Speculates mayEnd less :=
  fun start few => speculates start (Nat.le_trans few le)

theorem speculates_skip {next : Unit → Parser β} (skipped : Nat)
    (speculates : (next ()).Speculates mayEnd count) :
    (skip skipped >>= next).Speculates mayEnd (count + skipped) := by
  intro start few rewind member isAssignment
  rw [bind_skip] at member ⊢
  have few' : (start.skip skipped).rest.length ≤ count := by
    simp only [Cursor.skip, List.length_drop]
    omega
  obtain ⟨ofAssignment, stuck⟩ := speculates _ few' rewind member isAssignment
  exact ⟨ofAssignment.mono (List.drop_suffix _ _), stuck⟩

/-- The parser tries no assignment. -/
def Quiet (parser : Parser α) : Prop :=
  ∀ start, ∀ rewind ∈ (parser start).rewinds, rewind.attempt ≠ .assignment

theorem Quiet.speculates {parser : Parser α} (quiet : parser.Quiet) :
    parser.Speculates mayEnd count :=
  fun start _ rewind member isAssignment => absurd isAssignment (quiet start rewind member)

theorem quiet_pure (value : α) : (pure value : Parser α).Quiet := by
  intro start rewind member
  cases member

theorem quiet_fail (failure : Failure) : (fail failure : Parser α).Quiet := by
  intro start rewind member
  cases member

theorem quiet_failHere (fault : SyntaxFault) : (failHere fault : Parser α).Quiet :=
  fun start => quiet_fail ⟨fault, start.rest.head?⟩ start

theorem quiet_ahead : ahead.Quiet := by
  intro start rewind member
  cases member

theorem quiet_remaining : remaining.Quiet := by
  intro start rewind member
  cases member

theorem quiet_depth : depth.Quiet := by
  intro start rewind member
  cases member

theorem quiet_skip (skipped : Nat) : (skip skipped).Quiet := by
  intro start rewind member
  cases member

theorem quiet_note : (note .loopDeclaration).Quiet := by
  intro start rewind member isAssignment
  obtain rfl := List.mem_singleton.mp member
  cases isAssignment

theorem quiet_bind {first : Parser α} {next : α → Parser β} (quietFirst : first.Quiet)
    (quietNext : ∀ value, (next value).Quiet) : (first >>= next).Quiet := by
  intro start rewind member
  have quiet := quietFirst start rewind
  rcases reply : first start with ⟨failure | value, middle, rewinds⟩
  · rw [reply] at quiet
    rw [bind_of_error reply] at member
    exact quiet member
  · rw [reply] at quiet
    rw [bind_of_ok reply] at member
    obtain earlier | later := List.mem_append.mp member
    · exact quiet earlier
    · exact quietNext value middle rewind later

theorem quiet_isNext (kind : TokenKind) : (isNext kind).Quiet :=
  quiet_bind quiet_ahead fun _ => quiet_pure _

theorem quiet_acceptIf (accepts : TokenKind → Bool) : (acceptIf accepts).Quiet := by
  apply quiet_bind quiet_ahead
  intro tokens
  split
  · split
    · exact quiet_bind (quiet_skip 1) fun _ => quiet_pure _
    · exact quiet_pure _
  · exact quiet_pure _

theorem quiet_expect (expectation : Expectation) : (expect expectation).Quiet := by
  apply quiet_bind (quiet_acceptIf _)
  intro accepted
  cases accepted with
  | none => exact quiet_failHere _
  | some token => exact quiet_pure _

/-- A token that is read behind whatever speculates makes up for it. -/
theorem speculates_expect {next : Token → Parser β} (expectation : Expectation)
    (speculates : ∀ token, (next token).Speculates mayEnd count) :
    (expect expectation >>= next).Speculates mayEnd count :=
  speculates_bind_of_strict (quiet_expect _).speculates (moves_expect _) speculates

/-- Behind an expression that was left at an equals sign, no other token is read. -/
theorem speculates_upTo {clause : Parser α} {next : α → Token → Parser β} (expectation : Expectation)
    (speculates : clause.Speculates true count) (moves : clause.Moves .onward)
    (speculatesNext : ∀ value token, (next value token).Speculates mayEnd count) :
    (clause >>= fun value => expect expectation >>= next value).Speculates mayEnd count := by
  apply speculates_bind speculates moves
  · exact fun value => speculates_expect expectation (speculatesNext value)
  · exact fun value => halts_bind_of_strict (halts_expect expectation)

theorem speculates_acceptIf {accepts : TokenKind → Bool} {next : Option Token → Parser β}
    (speculatesBehind : ∀ token, (next (some token)).Speculates mayEnd count)
    (speculatesElse : (next none).Speculates mayEnd (count + 1)) :
    (acceptIf accepts >>= next).Speculates mayEnd (count + 1) := by
  intro start few rewind member isAssignment
  have quiet := quiet_acceptIf accepts start rewind
  rcases reply : acceptIf accepts start with ⟨failure | accepted, middle, rewinds⟩
  · rw [reply] at quiet
    rw [bind_of_error reply] at member
    exact absurd isAssignment (quiet member)
  · have read : (acceptIf accepts).Reads start accepted middle := by simp [Reads, reply]
    rw [reply] at quiet
    rw [bind_of_ok reply] at member ⊢
    obtain earlier | later := List.mem_append.mp member
    · exact absurd isAssignment (quiet earlier)
    · cases accepted with
      | none =>
          obtain ⟨-, rfl⟩ := reads_acceptIf_none.mp read
          exact speculatesElse middle few rewind later isAssignment
      | some token =>
          obtain ⟨rest, ahead, -, rfl⟩ := reads_acceptIf_some.mp read
          rw [ahead] at few ⊢
          have few' : rest.length ≤ count := Nat.le_of_succ_le_succ few
          obtain ⟨ofAssignment, stuck⟩ :=
            speculatesBehind token (start.before rest) few' rewind later isAssignment
          exact ⟨ofAssignment.mono (List.suffix_cons token rest), stuck⟩

theorem speculates_listUntil {item : Parser α} (speculates : item.Speculates true count)
    (moves : item.Moves .onward) (closing : TokenKind) :
    (listUntil closing item).Speculates true count := by
  have items : ∀ bound, (commaSeparated item bound).Speculates true count := by
    intro bound
    induction bound with
    | zero =>
        exact speculates_bind speculates moves (fun _ => (quiet_pure _).speculates)
          fun _ => halts_pure _
    | succ bound ih =>
        apply speculates_bind speculates moves
        · intro first
          apply speculates_bind_of_strict (quiet_acceptIf _).speculates (moves_acceptIf _)
          intro comma
          cases comma with
          | none => exact (quiet_pure _).speculates
          | some comma =>
              exact speculates_bind ih (moves_commaSeparated moves bound)
                (fun _ => (quiet_pure _).speculates) fun _ => halts_pure _
        · exact fun first => halts_acceptIf (by decide) (halts_pure _)
  apply speculates_bind_of_strict (quiet_isNext closing).speculates (moves_isNext closing)
  intro isClosing
  split
  · exact (quiet_pure _).speculates
  · exact speculates_bind_of_strict quiet_remaining.speculates moves_remaining items

/-! ## Expressions -/

/-- A name before an equals sign is a whole expression for all levels but assignments. -/
theorem disjunction_reads_name {start : Cursor} {name equals : Token} {value : List Token}
    (ahead : start.rest = name :: equals :: value) (isName : name.kind = .name)
    (isEqual : equals.kind = .symbol .equal) :
    (disjunction expression).Reads start (.variable name) (start.before (equals :: value)) := by
  have derived : Grammar.Expression .disjunction (.variable name) (name :: equals :: value)
      (equals :: value) :=
    .tighter (.tighter (.tighter (.tighter (.tighter (.tighter (.tighter (.tighter
      (.named isName))))))))
  have complete : CompleteWithin expression start.rest.length (Grammar.Expression .assignment)
      ExpressionEnds :=
    fun _ _ _ _ derived ends => expression_complete _ derived ends
  have resumes := resumes_of_expression complete derived start ahead
    (ahead ▸ Nat.le_succ _) (.cons value (by rw [isEqual]; decide))
  exact resumes.reads (.cons value (by rw [isEqual]; decide))

/-- An assignment fails with the failure of its value. -/
theorem fails_of_assign {start reached : Cursor} {name equals : Token} {value : List Token}
    {failure : Failure} {rewinds : List Rewind} (ahead : start.rest = name :: equals :: value)
    (failed : (do skip 2; return .assign (some name) (← expression) : Parser Expr) start =
      ⟨.error failure, reached, rewinds⟩) :
    expression.Fails (start.before value) failure := by
  have behind : start.skip 2 = start.before value := by
    rw [Cursor.skip_eq_before, ahead]
    rfl
  rw [bind_skip, behind] at failed
  rcases reply : expression (start.before value) with ⟨failure' | expr, middle, tried⟩
  · rw [bind_of_error reply] at failed
    cases failed
    exact congrArg Reply.outcome reply
  · rw [bind_of_ok reply] at failed
    cases congrArg Reply.outcome failed

section Expressions

variable (speculates : expression.Speculates true count)

include speculates in
theorem speculates_primary : (primary expression).Speculates true (count + 1) := by
  apply speculates_bind_of_strict quiet_ahead.speculates moves_ahead
  intro tokens
  split
  · exact (quiet_failHere _).speculates
  · split
    · exact (quiet_bind (quiet_skip 1) fun _ => quiet_pure _).speculates
    · split
      · exact (quiet_bind (quiet_skip 1) fun _ => quiet_pure _).speculates
      · split
        · apply speculates_skip 1
          exact speculates_upTo _ speculates moves_expression fun _ _ => (quiet_pure _).speculates
        · exact (quiet_failHere _).speculates

include speculates in
theorem speculates_finishCall (callee : Expr) :
    (finishCall expression callee).Speculates true count := by
  apply speculates_upTo _ (speculates_listUntil speculates moves_expression _)
    (moves_listUntil moves_expression _)
  intro arguments paren
  split
  · exact (quiet_fail _).speculates
  · exact (quiet_pure _).speculates

include speculates in
theorem speculates_callsFrom (bound : Nat) :
    ∀ callee, (callsFrom expression bound callee).Speculates true (count + 1) := by
  induction bound with
  | zero => exact fun callee => (quiet_pure callee).speculates
  | succ bound ih =>
      intro callee
      apply speculates_acceptIf
      · intro opening
        apply speculates_bind (speculates_finishCall speculates callee)
          (moves_finishCall moves_expression callee)
        · exact fun called => (ih called).fewer (Nat.le_succ count)
        · exact fun called => halts_callsFrom bound called
      · exact (quiet_pure callee).speculates

include speculates in
theorem speculates_unary : (unary expression).Speculates true (count + 1) := by
  have calls : (call expression).Speculates true (count + 1) := by
    apply speculates_bind (speculates_primary speculates) (moves_primary moves_expression)
    · intro callee
      exact speculates_bind_of_strict quiet_remaining.speculates moves_remaining fun bound =>
        speculates_callsFrom speculates bound callee
    · exact fun callee start => halts_callsFrom start.remaining callee start
  apply speculates_bind_of_strict quiet_remaining.speculates moves_remaining
  intro bound
  induction bound with
  | zero => exact calls
  | succ bound ih =>
      apply speculates_bind_of_strict (quiet_acceptIf _).speculates (moves_acceptIf _)
      intro operator
      cases operator with
      | none => exact calls
      | some operator =>
          exact speculates_bind ih (moves_unaryWithin (moves_call moves_expression) bound)
            (fun _ => (quiet_pure _).speculates) fun _ => halts_pure _

theorem speculates_chain {accepts : TokenKind → Bool} {node : Expr → Token → Expr → Expr}
    {operand : Parser Expr} (refuses : accepts (.symbol .equal) = false)
    (speculates : operand.Speculates true count) (moves : operand.Moves .onward) :
    (chain accepts node operand).Speculates true count := by
  have rest : ∀ bound left, (chainFrom accepts node operand bound left).Speculates true count := by
    intro bound
    induction bound with
    | zero => exact fun left => (quiet_pure left).speculates
    | succ bound ih =>
        intro left
        apply speculates_bind_of_strict (quiet_acceptIf _).speculates (moves_acceptIf _)
        intro operator
        cases operator with
        | none => exact (quiet_pure left).speculates
        | some operator =>
            exact speculates_bind speculates moves (fun _ => ih _)
              fun _ => halts_chainFrom refuses bound _
  apply speculates_bind speculates moves
  · intro left
    exact speculates_bind_of_strict quiet_remaining.speculates moves_remaining fun bound =>
      rest bound left
  · exact fun left start => halts_chainFrom refuses start.remaining left start

include speculates in
theorem speculates_disjunction : (disjunction expression).Speculates true (count + 1) := by
  have movesFactor : (factor expression).Moves .onward := moves_chain (moves_unary moves_expression)
  have movesTerm : (term expression).Moves .onward := moves_chain movesFactor
  have movesComparison : (comparison expression).Moves .onward := moves_chain movesTerm
  have movesEquality : (equality expression).Moves .onward := moves_chain movesComparison
  have factors : (factor expression).Speculates true (count + 1) :=
    speculates_chain (by decide) (speculates_unary speculates) (moves_unary moves_expression)
  have terms : (term expression).Speculates true (count + 1) :=
    speculates_chain (by decide) factors movesFactor
  have comparisons : (comparison expression).Speculates true (count + 1) :=
    speculates_chain (by decide) terms movesTerm
  have equalities : (equality expression).Speculates true (count + 1) :=
    speculates_chain (by decide) comparisons movesComparison
  have conjunctions : (conjunction expression).Speculates true (count + 1) :=
    speculates_chain (by decide) equalities movesEquality
  exact speculates_chain (by decide) conjunctions (moves_chain movesEquality)

include speculates in
theorem speculates_assignment : (assignment expression).Speculates true (count + 1) := by
  have disjunctions := speculates_disjunction speculates
  intro start few rewind member isAssignment
  rw [assignment, bind_ahead] at member ⊢
  cases assigned : assignedName? start.rest with
  | none =>
      rw [assigned] at member
      exact disjunctions start few rewind member isAssignment
  | some name =>
      rw [assigned] at member
      obtain ⟨equals, value, ahead, isName, isEqual⟩ := assignedName?_eq_some assigned
      have values : (do skip 2; return .assign (some name) (← expression) : Parser Expr).Speculates
          true (count + 2) := by
        apply speculates_skip 2
        exact speculates_bind speculates moves_expression (fun _ => (quiet_pure _).speculates)
          fun _ => halts_pure _
      have tried := values start (Nat.le_succ_of_le few) rewind
      rcases reply : (do skip 2; return .assign (some name) (← expression) : Parser Expr) start with
        ⟨failure | expr, reached, rewinds⟩
      · have stuck : (disjunction expression start).Stuck true := by
          have read := disjunction_reads_name ahead isName isEqual
          simp only [Reply.Stuck, read.1, read.2]
          exact ⟨trivial, equals, rfl, isEqual⟩
        simp only [rewinding_of_error reply] at member ⊢
        simp only [List.mem_append, List.mem_cons] at member
        refine ⟨?_, stuck⟩
        obtain earlier | rfl | later := member
        · rw [reply] at tried
          exact (tried earlier isAssignment).1
        · have fails : expression.Fails (.ofTokens value start.depth) failure :=
            fails_of_assign ahead reply
          refine ⟨name, equals, value, start.depth, failure, ?_, isName, isEqual, ?_, fails⟩
          · exact ahead ▸ List.suffix_refl _
          · rw [start.remaining_eq, ahead]
            rfl
        · exact (disjunctions start few rewind later isAssignment).1
      · rw [reply] at tried
        simp only [rewinding_of_ok reply] at member ⊢
        exact tried member isAssignment

end Expressions

theorem speculates_expression (count : Nat) : expression.Speculates true count := by
  induction count with
  | zero =>
      intro start none rewind member
      have ended : start.rest = [] := List.length_eq_zero_iff.mp (Nat.le_zero.mp none)
      rw [expression, expressionWithin_of_nil ended] at member
      cases member
  | succ count ih =>
      have assignments := speculates_assignment ih
      rwa [← expression_eq_assignment] at assignments

/-- From a name and an equals sign an expression is always read: the assignment
if there is a value behind them, and else the name, which is noted. -/
theorem expression_of_assignedName {start : Cursor} {name equals : Token} {value : List Token}
    (ahead : start.rest = name :: equals :: value) (isName : name.kind = .name)
    (isEqual : equals.kind = .symbol .equal) :
    (∀ expr reached, expression.Reads (start.before value) expr reached →
        expression.Reads start (.assign (some name) expr) reached) ∧
      ∀ failure, expression.Fails (start.before value) failure →
        expression.Reads start (.variable name) (start.before (equals :: value)) ∧
          ⟨.assignment, start.remaining⟩ ∈ (expression start).rewinds := by
  have assigned : assignedName? start.rest = some name := by
    simp [ahead, assignedName?, isName, isEqual]
  have behind : start.skip 2 = start.before value := by
    rw [Cursor.skip_eq_before, ahead]
    rfl
  have replies : expression start = rewinding .assignment
      (do skip 2; return .assign (some name) (← expression)) (fun _ => disjunction expression)
      start := by
    calc expression start
        = assignment expression start := congrFun expression_eq_assignment start
      _ = _ := by rw [assignment, bind_ahead, assigned]
  constructor
  · intro expr reached read
    have tried : (do skip 2; return .assign (some name) (← expression) : Parser Expr).Reads start
        (.assign (some name) expr) reached := by
      simp only [reads_bind, reads_skip, reads_pure]
      exact ⟨(), _, rfl, expr, reached, by simpa [ahead] using read, rfl, rfl⟩
    rw [Reads, replies]
    exact reads_rewinding.mpr (.inl tried)
  · intro failure fails
    have tried : (do skip 2; return .assign (some name) (← expression) : Parser Expr) start =
        ⟨.error failure, (expression (start.before value)).cursor,
          (expression (start.before value)).rewinds⟩ := by
      rw [bind_skip, behind]
      rcases reply : expression (start.before value) with ⟨outcome, reached, rewinds⟩
      obtain rfl : outcome = .error failure := (congrArg Reply.outcome reply).symm.trans fails
      exact bind_of_error reply
    constructor
    · rw [Reads, replies]
      exact reads_rewinding.mpr
        (.inr ⟨failure, congrArg Reply.outcome tried, disjunction_reads_name ahead isName isEqual⟩)
    · rw [replies, rewinding_of_error tried]
      simp

end Parser

end Lox
