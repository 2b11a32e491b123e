import Lox.Proofs.Grammar.Motion
import Lox.Proofs.Syntax.Likeness

/-!
# Parsing does not look at places

Two token lists are parsed side by side, each token of one being related to the
token in its place of the other. As long as related tokens are written alike,
every parser does the same on both sides: it gives alike values, or fails with
the same fault at related tokens, goes back as often, and stops at cursors with
related tokens ahead.
-/

set_option autoImplicit false

namespace Lox

section Definitions

variable (like : Token → Token → Prop)

/-- Cursors with related tokens ahead, inside as many function bodies. -/
structure Cursor.Alike (left right : Cursor) : Prop where
  rest : List.Forall₂ like left.rest right.rest
  depth : left.depth = right.depth

structure Failure.Alike (left right : Failure) : Prop where
  fault : left.fault = right.fault
  found : Option.Rel like left.found right.found

/-- Replies with related values, or with alike failures, after the same rewinds. -/
inductive Reply.Alike {α β : Type} (given : α → β → Prop) : Reply α → Reply β → Prop where
  | ok {value value' cursor cursor' rewinds} :
      given value value' → Cursor.Alike like cursor cursor' →
      Alike given ⟨.ok value, cursor, rewinds⟩ ⟨.ok value', cursor', rewinds⟩
  | error {failure failure' cursor cursor' rewinds} :
      Failure.Alike like failure failure' → Cursor.Alike like cursor cursor' →
      Alike given ⟨.error failure, cursor, rewinds⟩ ⟨.error failure', cursor', rewinds⟩

/-- From alike cursors the two parsers give alike replies. -/
def Parser.Parallel {α β : Type} (given : α → β → Prop) (left : Parser α) (right : Parser β) :
    Prop :=
  ∀ start start', Cursor.Alike like start start' →
    Reply.Alike like given (left start) (right start')

structure SyntaxError.Alike (left right : SyntaxError) : Prop where
  fault : left.fault = right.fault
  token : like left.token right.token

structure Parse.Alike (left right : Parse) : Prop where
  statements : List.Forall₂ (Stmt.Alike like) left.statements right.statements
  failure : Option.Rel (Failure.Alike like) left.failure right.failure
  rewinds : left.rewinds = right.rewinds

structure ParsedTokens.Alike (left right : ParsedTokens) : Prop where
  statements : List.Forall₂ (Stmt.Alike like) left.statements right.statements
  error : Option.Rel (SyntaxError.Alike like) left.error right.error
  rewinds : left.rewinds = right.rewinds

end Definitions

variable {like : Token → Token → Prop}

/-! ## Cursors and replies -/

theorem head?_alike {tokens tokens' : List Token} (alike : List.Forall₂ like tokens tokens') :
    Option.Rel like tokens.head? tokens'.head? := by
  cases alike with
  | nil => exact .none
  | cons token _ => exact .some token

theorem isEmpty_alike {tokens tokens' : List Token} (alike : List.Forall₂ like tokens tokens') :
    tokens.isEmpty = tokens'.isEmpty := by
  cases alike <;> rfl

namespace Cursor.Alike

variable {left right : Cursor}

theorem remaining (alike : Cursor.Alike like left right) : left.remaining = right.remaining := by
  rw [left.remaining_eq, right.remaining_eq, alike.rest.length_eq]

theorem skip (alike : Cursor.Alike like left right) (count : Nat) :
    Cursor.Alike like (left.skip count) (right.skip count) :=
  ⟨List.forall₂_drop count alike.rest, alike.depth⟩

theorem atDepth (alike : Cursor.Alike like left right) (depth : Nat) :
    Cursor.Alike like (left.atDepth depth) (right.atDepth depth) :=
  ⟨alike.rest, rfl⟩

end Cursor.Alike

theorem Reply.Alike.after {α β : Type} {given : α → β → Prop} {left : Reply α} {right : Reply β}
    (alike : Reply.Alike like given left right) (before : List Rewind) :
    Reply.Alike like given { left with rewinds := before ++ left.rewinds }
      { right with rewinds := before ++ right.rewinds } := by
  cases alike with
  | ok values cursors => exact .ok values cursors
  | error failures cursors => exact .error failures cursors

namespace Parser

/-! ## Combinators -/

section Combinators

variable {α α' β β' : Type} {given : α → α' → Prop} {later : β → β' → Prop}

theorem parallel_pure {value : α} {value' : α'} (values : given value value') :
    Parallel like given (pure value) (pure value') :=
  fun _ _ alike => .ok values alike

theorem parallel_fail {failure failure' : Failure} (failures : failure.Alike like failure') :
    Parallel like given (fail failure) (fail failure') :=
  fun _ _ alike => .error failures alike

theorem parallel_failHere (fault : SyntaxFault) :
    Parallel like given (failHere fault) (failHere fault) :=
  fun _ _ alike => .error ⟨rfl, head?_alike alike.rest⟩ alike

theorem parallel_bind {first : Parser α} {first' : Parser α'} {next : α → Parser β}
    {next' : α' → Parser β'} (parallel : Parallel like given first first')
    (follows : ∀ value value', given value value' →
      Parallel like later (next value) (next' value')) :
    Parallel like later (first >>= next) (first' >>= next') := by
  intro start start' alike
  have replies := parallel start start' alike
  cases reply : first start
  cases reply' : first' start'
  rw [reply, reply'] at replies
  cases replies with
  | ok values cursors =>
      rw [bind_of_ok reply, bind_of_ok reply']
      exact (follows _ _ values _ _ cursors).after _
  | error failures cursors =>
      rw [bind_of_error reply, bind_of_error reply']
      exact .error failures cursors

/-- A parser that gives the same on both sides, such as the answer to a test of the cursor. -/
theorem parallel_bind_same {first first' : Parser α} {next : α → Parser β} {next' : α → Parser β'}
    (parallel : Parallel like Eq first first')
    (follows : ∀ value, Parallel like later (next value) (next' value)) :
    Parallel like later (first >>= next) (first' >>= next') := by
  refine parallel_bind parallel ?_
  intro value value' same
  cases same
  exact follows value

theorem parallel_ite {condition : Prop} [Decidable condition] {first second : Parser α}
    {first' second' : Parser α'} (whenTrue : condition → Parallel like given first first')
    (whenFalse : ¬condition → Parallel like given second second') :
    Parallel like given (if condition then first else second)
      (if condition then first' else second') := by
  by_cases holds : condition
  · rw [if_pos holds, if_pos holds]
    exact whenTrue holds
  · rw [if_neg holds, if_neg holds]
    exact whenFalse holds

theorem parallel_ahead : Parallel like (List.Forall₂ like) ahead ahead :=
  fun _ _ alike => .ok alike.rest alike

theorem parallel_remaining : Parallel like Eq remaining remaining :=
  fun _ _ alike => .ok alike.remaining alike

theorem parallel_depth : Parallel like Eq depth depth :=
  fun _ _ alike => .ok alike.depth alike

theorem parallel_skip (count : Nat) : Parallel like Eq (skip count) (skip count) :=
  fun _ _ alike => .ok rfl (alike.skip count)

theorem parallel_note (attempt : Attempt) : Parallel like Eq (note attempt) (note attempt) := by
  intro start start' alike
  rw [note, note, alike.remaining]
  exact .ok rfl alike

theorem parallel_inBody {body : Parser α} {body' : Parser α'}
    (parallel : Parallel like given body body') :
    Parallel like given (inBody body) (inBody body') := by
  intro start start' alike
  have replies := parallel _ _ (alike.atDepth (start.depth + 1))
  simp only [inBody, ← alike.depth]
  generalize body (start.atDepth (start.depth + 1)) = reply at replies
  generalize body' (start'.atDepth (start.depth + 1)) = reply' at replies
  cases replies with
  | ok values cursors =>
      rw [← cursors.depth]
      exact .ok values (cursors.atDepth _)
  | error failures cursors =>
      rw [← cursors.depth]
      exact .error failures (cursors.atDepth _)

theorem parallel_rewinding {attempt : Attempt} {tried : Parser α} {tried' : Parser α'}
    {otherwise : Failure → Parser α} {otherwise' : Failure → Parser α'}
    (parallel : Parallel like given tried tried')
    (resumes : ∀ failure failure', failure.Alike like failure' →
      Parallel like given (otherwise failure) (otherwise' failure')) :
    Parallel like given (rewinding attempt tried otherwise)
      (rewinding attempt tried' otherwise') := by
  intro start start' alike
  have replies := parallel start start' alike
  cases reply : tried start
  cases reply' : tried' start'
  rw [reply, reply'] at replies
  cases replies with
  | ok values cursors =>
      rw [rewinding_of_ok reply, rewinding_of_ok reply']
      exact .ok values cursors
  | error failures cursors =>
      rw [rewinding_of_error reply, rewinding_of_error reply', ← alike.remaining]
      exact ((resumes _ _ failures start start' alike).after [_]).after _

section Written

variable (written : Token.WrittenAlike like)

include written

theorem parallel_isNext (kind : TokenKind) : Parallel like Eq (isNext kind) (isNext kind) := by
  refine parallel_bind parallel_ahead ?_
  intro tokens tokens' alike
  refine parallel_pure ?_
  cases alike with
  | nil => rfl
  | cons token _ => simp only [List.head?_cons, Option.any_some, (written _ _ token).1]

theorem parallel_acceptIf (accepts : TokenKind → Bool) :
    Parallel like (Option.Rel like) (acceptIf accepts) (acceptIf accepts) := by
  refine parallel_bind parallel_ahead ?_
  intro tokens tokens' alike
  cases alike with
  | nil => exact parallel_pure .none
  | cons token _ =>
      simp only [(written _ _ token).1]
      refine parallel_ite (fun _ => ?_) (fun _ => parallel_pure .none)
      exact parallel_bind_same (parallel_skip 1) fun _ => parallel_pure (.some token)

theorem parallel_accept (kind : TokenKind) :
    Parallel like (Option.Rel like) (accept kind) (accept kind) :=
  parallel_acceptIf written _

theorem parallel_expect (expectation : Expectation) :
    Parallel like like (expect expectation) (expect expectation) := by
  refine parallel_bind (parallel_accept written _) ?_
  intro accepted accepted' alike
  cases alike with
  | none => exact parallel_failHere _
  | some token => exact parallel_pure token

theorem parallel_commaSeparated {item : Parser α} {item' : Parser α'}
    (items : Parallel like given item item') (bound : Nat) :
    Parallel like (List.Forall₂ given) (commaSeparated item bound) (commaSeparated item' bound) := by
  induction bound with
  | zero => exact parallel_bind items fun _ _ first => parallel_pure (.cons first .nil)
  | succ bound ih =>
      refine parallel_bind items ?_
      intro _ _ first
      refine parallel_bind (parallel_accept written _) ?_
      intro comma comma' commas
      cases commas with
      | none => exact parallel_pure (.cons first .nil)
      | some _ => exact parallel_bind ih fun _ _ others => parallel_pure (.cons first others)

theorem parallel_listUntil {item : Parser α} {item' : Parser α'}
    (items : Parallel like given item item') (closing : TokenKind) :
    Parallel like (List.Forall₂ given) (listUntil closing item) (listUntil closing item') := by
  refine parallel_bind_same (parallel_isNext written closing) ?_
  intro isClosing
  refine parallel_ite (fun _ => parallel_pure .nil) (fun _ => ?_)
  exact parallel_bind_same parallel_remaining (parallel_commaSeparated written items)

end Written

end Combinators

/-! ## Expressions -/

variable (written : Token.WrittenAlike like)

section Expressions

variable {inner : Parser Expr} (parallel : Parallel like (Expr.Alike like) inner inner)

include written parallel

theorem parallel_primary : Parallel like (Expr.Alike like) (primary inner) (primary inner) := by
  refine parallel_bind parallel_ahead ?_
  intro tokens tokens' alike
  cases alike with
  | nil => exact parallel_failHere _
  | @cons token token' _ _ likely _ =>
      have kinds := (written _ _ likely).1
      have literals : token'.literal? = token.literal? := by
        rw [Token.literal?, Token.literal?, kinds]
      simp only [literals, kinds]
      cases token.literal? with
      | some value => exact parallel_bind_same (parallel_skip 1) fun _ => parallel_pure .literal
      | none =>
          refine parallel_ite (fun _ => ?_) (fun _ => ?_)
          · exact parallel_bind_same (parallel_skip 1) fun _ => parallel_pure (.variable likely)
          · refine parallel_ite (fun _ => ?_) (fun _ => parallel_failHere _)
            refine parallel_bind_same (parallel_skip 1) fun _ => ?_
            refine parallel_bind parallel fun _ _ values => ?_
            refine parallel_bind (parallel_expect written _) fun _ _ _ => ?_
            exact parallel_pure (.grouping values)

theorem parallel_finishCall {callee callee' : Expr} (callees : callee.Alike like callee') :
    Parallel like (Expr.Alike like) (finishCall inner callee) (finishCall inner callee') := by
  refine parallel_bind (parallel_listUntil written parallel _) ?_
  intro arguments arguments' alikeArguments
  refine parallel_bind (parallel_expect written _) ?_
  intro paren paren' parens
  rw [← alikeArguments.length_eq]
  refine parallel_ite (fun _ => ?_) (fun _ => ?_)
  · exact parallel_fail ⟨rfl, .some parens⟩
  · exact parallel_pure (.call callees parens alikeArguments)

theorem parallel_callsFrom (bound : Nat) {callee callee' : Expr}
    (callees : callee.Alike like callee') :
    Parallel like (Expr.Alike like) (callsFrom inner bound callee)
      (callsFrom inner bound callee') := by
  induction bound generalizing callee callee' with
  | zero => exact parallel_pure callees
  | succ bound ih =>
      refine parallel_bind (parallel_accept written _) ?_
      intro opening opening' openings
      cases openings with
      | none => exact parallel_pure callees
      | some _ => exact parallel_bind (parallel_finishCall written parallel callees) fun _ _ => ih

theorem parallel_call : Parallel like (Expr.Alike like) (call inner) (call inner) := by
  refine parallel_bind (parallel_primary written parallel) ?_
  intro callee callee' callees
  exact parallel_bind_same parallel_remaining fun bound =>
    parallel_callsFrom written parallel bound callees

omit parallel in
theorem parallel_unaryWithin {operand : Parser Expr}
    (operands : Parallel like (Expr.Alike like) operand operand) (bound : Nat) :
    Parallel like (Expr.Alike like) (unaryWithin operand bound) (unaryWithin operand bound) := by
  induction bound with
  | zero => exact operands
  | succ bound ih =>
      refine parallel_bind (parallel_acceptIf written _) ?_
      intro operator operator' operators
      cases operators with
      | none => exact operands
      | some likely =>
          exact parallel_bind ih fun _ _ values => parallel_pure (.unary (.some likely) values)

theorem parallel_unary : Parallel like (Expr.Alike like) (unary inner) (unary inner) :=
  parallel_bind_same parallel_remaining
    (parallel_unaryWithin written (parallel_call written parallel))

section Chains

variable {accepts : TokenKind → Bool} {node : Expr → Token → Expr → Expr}
  (nodes : ∀ {left left' operator operator' right right'}, Expr.Alike like left left' →
    like operator operator' → Expr.Alike like right right' →
      (node left operator right).Alike like (node left' operator' right'))
  {operand : Parser Expr} (operands : Parallel like (Expr.Alike like) operand operand)

include nodes operands

omit parallel in
theorem parallel_chainFrom (bound : Nat) {left left' : Expr} (lefts : left.Alike like left') :
    Parallel like (Expr.Alike like) (chainFrom accepts node operand bound left)
      (chainFrom accepts node operand bound left') := by
  induction bound generalizing left left' with
  | zero => exact parallel_pure lefts
  | succ bound ih =>
      refine parallel_bind (parallel_acceptIf written accepts) ?_
      intro operator operator' operators
      cases operators with
      | none => exact parallel_pure lefts
      | some likely => exact parallel_bind operands fun _ _ rights => ih (nodes lefts likely rights)

omit parallel in
theorem parallel_chain :
    Parallel like (Expr.Alike like) (chain accepts node operand) (chain accepts node operand) := by
  refine parallel_bind operands ?_
  intro left left' lefts
  exact parallel_bind_same parallel_remaining fun bound =>
    parallel_chainFrom written nodes operands bound lefts

end Chains

theorem parallel_disjunction :
    Parallel like (Expr.Alike like) (disjunction inner) (disjunction inner) := by
  have factors : Parallel like (Expr.Alike like) (factor inner) (factor inner) :=
    parallel_chain written .binary (parallel_unary written parallel)
  have comparisons : Parallel like (Expr.Alike like) (comparison inner) (comparison inner) :=
    parallel_chain written .binary (parallel_chain written .binary factors)
  have conjunctions : Parallel like (Expr.Alike like) (conjunction inner) (conjunction inner) :=
    parallel_chain written .logical (parallel_chain written .binary comparisons)
  exact parallel_chain written .logical conjunctions

omit parallel in
theorem assignedName?_alike {tokens tokens' : List Token} (alike : List.Forall₂ like tokens tokens') :
    Option.Rel like (assignedName? tokens) (assignedName? tokens') := by
  cases alike with
  | nil => exact .none
  | cons name rest =>
      cases rest with
      | nil => exact .none
      | cons equals _ =>
          simp only [assignedName?, (written _ _ name).1, (written _ _ equals).1]
          split
          · exact .some name
          · exact .none

theorem parallel_assignment :
    Parallel like (Expr.Alike like) (assignment inner) (assignment inner) := by
  have disjunctions := parallel_disjunction written parallel
  refine parallel_bind parallel_ahead ?_
  intro tokens tokens' alike
  have names := assignedName?_alike written alike
  generalize assignedName? tokens = name? at names
  generalize assignedName? tokens' = name'? at names
  cases names with
  | none => exact disjunctions
  | some likely =>
      refine parallel_rewinding ?_ fun _ _ _ => disjunctions
      refine parallel_bind_same (parallel_skip 2) fun _ => ?_
      exact parallel_bind parallel fun _ _ values => parallel_pure (.assign (.some likely) values)

end Expressions

section Written

include written

theorem parallel_expressionWithin (bound : Nat) :
    Parallel like (Expr.Alike like) (expressionWithin bound) (expressionWithin bound) := by
  induction bound with
  | zero => exact parallel_failHere _
  | succ bound ih => exact parallel_assignment written ih

theorem parallel_expression : Parallel like (Expr.Alike like) expression expression := by
  intro start start' alike
  rw [expression, expression, ← alike.remaining]
  exact parallel_expressionWithin written start.remaining start start' alike

/-! ## Statements -/

theorem parallel_expressionUnless (ending : TokenKind) (value : Literal) :
    Parallel like (Expr.Alike like) (expressionUnless ending value)
      (expressionUnless ending value) := by
  refine parallel_bind_same (parallel_isNext written ending) fun _ => ?_
  exact parallel_ite (fun _ => parallel_pure .literal) fun _ => parallel_expression written

theorem parallel_optionalExpression (ending : TokenKind) :
    Parallel like (Option.Rel (Expr.Alike like)) (optionalExpression ending)
      (optionalExpression ending) := by
  refine parallel_bind_same (parallel_isNext written ending) fun _ => ?_
  refine parallel_ite (fun _ => parallel_pure .none) fun _ => ?_
  exact parallel_bind (parallel_expression written) fun _ _ values => parallel_pure (.some values)

theorem parallel_initializer :
    Parallel like (Option.Rel (Expr.Alike like)) initializer initializer := by
  refine parallel_bind (parallel_accept written _) ?_
  intro equals equals' alike
  cases alike with
  | none => exact parallel_pure .none
  | some _ =>
      refine parallel_bind (parallel_expression written) fun _ _ values => ?_
      exact parallel_pure (.some values)

theorem parallel_variableDeclaration :
    Parallel like (Stmt.Alike like) variableDeclaration variableDeclaration := by
  refine parallel_bind (parallel_expect written _) fun _ _ names => ?_
  refine parallel_bind (parallel_initializer written) fun _ _ values => ?_
  refine parallel_bind (parallel_expect written _) fun _ _ _ => ?_
  exact parallel_pure (.variable names values)

theorem parallel_expressionStatement :
    Parallel like (Stmt.Alike like) expressionStatement expressionStatement := by
  refine parallel_bind (parallel_expressionUnless written _ _) fun _ _ values => ?_
  refine parallel_bind (parallel_expect written _) fun _ _ _ => ?_
  exact parallel_pure (.expression values)

theorem parallel_printStatement :
    Parallel like (Stmt.Alike like) printStatement printStatement := by
  refine parallel_bind (parallel_expressionUnless written _ _) fun _ _ values => ?_
  refine parallel_bind (parallel_expect written _) fun _ _ _ => ?_
  exact parallel_pure (.print values)

theorem parallel_returnStatement {keyword keyword' : Token} (keywords : like keyword keyword') :
    Parallel like (Stmt.Alike like) (returnStatement keyword) (returnStatement keyword') := by
  refine parallel_bind_same parallel_depth fun _ => ?_
  refine parallel_ite (fun _ => parallel_fail ⟨rfl, .some keywords⟩) fun _ => ?_
  refine parallel_bind (parallel_optionalExpression written _) fun _ _ values => ?_
  refine parallel_bind (parallel_expect written _) fun _ _ _ => ?_
  exact parallel_pure (.returning keywords values)

theorem parallel_loopInitializer :
    Parallel like (Stmt.Alike like) loopInitializer loopInitializer := by
  refine parallel_bind_same (parallel_isNext written _) fun _ => ?_
  refine parallel_ite (fun _ => ?_) fun _ => ?_
  · refine parallel_rewinding ?_ fun _ _ => parallel_fail
    exact parallel_bind_same (parallel_skip 1) fun _ => parallel_variableDeclaration written
  · exact parallel_bind_same (parallel_note _) fun _ => parallel_expressionStatement written

end Written

omit written in
theorem counting_alike {keyword keyword' : Token} {first first' body body' : Stmt}
    {condition condition' : Expr} {increment increment' : Option Expr}
    (keywords : like keyword keyword') (firsts : first.Alike like first')
    (conditions : condition.Alike like condition')
    (increments : Option.Rel (Expr.Alike like) increment increment')
    (bodies : body.Alike like body') :
    (Stmt.counting keyword first condition increment body).Alike like
      (.counting keyword' first' condition' increment' body') := by
  cases increments with
  | none => exact .block (.cons firsts (.cons (.loop keywords conditions bodies) .nil))
  | some step =>
      have stepped := Stmt.Alike.block (.cons bodies (.cons (.expression step) .nil))
      exact .block (.cons firsts (.cons (.loop keywords conditions stepped) .nil))

section Statements

variable {statement declaration : Parser Stmt}
  (statements : Parallel like (Stmt.Alike like) statement statement)
  (declarations : Parallel like (Stmt.Alike like) declaration declaration)

section Bodies

variable {keyword keyword' : Token} (keywords : like keyword keyword')

include written statements keywords

theorem parallel_forStatement :
    Parallel like (Stmt.Alike like) (forStatement statement keyword)
      (forStatement statement keyword') := by
  refine parallel_bind (parallel_expect written _) fun _ _ _ => ?_
  refine parallel_bind (parallel_loopInitializer written) fun _ _ firsts => ?_
  refine parallel_bind (parallel_expressionUnless written _ _) fun _ _ conditions => ?_
  refine parallel_bind (parallel_expect written _) fun _ _ _ => ?_
  refine parallel_bind (parallel_optionalExpression written _) fun _ _ increments => ?_
  refine parallel_bind (parallel_expect written _) fun _ _ _ => ?_
  refine parallel_bind statements fun _ _ bodies => ?_
  exact parallel_pure (counting_alike keywords firsts conditions increments bodies)

theorem parallel_ifStatement :
    Parallel like (Stmt.Alike like) (ifStatement statement keyword)
      (ifStatement statement keyword') := by
  refine parallel_bind (parallel_expect written _) fun _ _ _ => ?_
  refine parallel_bind (parallel_expression written) fun _ _ conditions => ?_
  refine parallel_bind (parallel_expect written _) fun _ _ _ => ?_
  refine parallel_bind statements fun _ _ thenBranches => ?_
  refine parallel_bind (parallel_accept written _) fun word word' words => ?_
  cases words with
  | none => exact parallel_pure (.branch keywords conditions thenBranches .none)
  | some _ =>
      refine parallel_bind statements fun _ _ elseBranches => ?_
      exact parallel_pure (.branch keywords conditions thenBranches (.some elseBranches))

theorem parallel_whileStatement :
    Parallel like (Stmt.Alike like) (whileStatement statement keyword)
      (whileStatement statement keyword') := by
  refine parallel_bind (parallel_expect written _) fun _ _ _ => ?_
  refine parallel_bind (parallel_expression written) fun _ _ conditions => ?_
  refine parallel_bind (parallel_expect written _) fun _ _ _ => ?_
  refine parallel_bind statements fun _ _ bodies => ?_
  exact parallel_pure (.loop keywords conditions bodies)

end Bodies

include written declarations

theorem parallel_declarationsWithin (bound : Nat) :
    Parallel like (List.Forall₂ (Stmt.Alike like)) (declarationsWithin declaration bound)
      (declarationsWithin declaration bound) := by
  induction bound with
  | zero => exact parallel_pure .nil
  | succ bound ih =>
      refine parallel_bind parallel_ahead ?_
      intro tokens tokens' alike
      refine parallel_bind_same (parallel_isNext written _) fun _ => ?_
      rw [← isEmpty_alike alike]
      refine parallel_ite (fun _ => parallel_pure .nil) fun _ => ?_
      refine parallel_bind declarations fun _ _ first => ?_
      exact parallel_bind ih fun _ _ others => parallel_pure (.cons first others)

theorem parallel_block :
    Parallel like (List.Forall₂ (Stmt.Alike like)) (block declaration) (block declaration) := by
  refine parallel_bind_same parallel_remaining fun bound => ?_
  refine parallel_bind (parallel_declarationsWithin written declarations bound) fun _ _ body => ?_
  exact parallel_bind (parallel_expect written _) fun _ _ _ => parallel_pure body

theorem parallel_functionDeclaration :
    Parallel like (Stmt.Alike like) (functionDeclaration declaration)
      (functionDeclaration declaration) := by
  refine parallel_bind (parallel_expect written _) fun _ _ names => ?_
  refine parallel_bind (parallel_expect written _) fun _ _ _ => ?_
  refine parallel_bind (parallel_listUntil written (parallel_expect written _) _) ?_
  intro parameters parameters' alike
  rw [← alike.length_eq]
  refine parallel_ite (fun _ => parallel_fail ⟨rfl, .some names⟩) fun _ => ?_
  refine parallel_bind (parallel_expect written _) fun _ _ _ => ?_
  refine parallel_bind (parallel_expect written _) fun _ _ _ => ?_
  refine parallel_bind (parallel_inBody (parallel_block written declarations)) fun _ _ body => ?_
  exact parallel_pure (.function names alike body)

include statements

theorem parallel_statementOver :
    Parallel like (Stmt.Alike like) (statementOver statement declaration)
      (statementOver statement declaration) := by
  have others := parallel_expressionStatement written
  refine parallel_bind parallel_ahead ?_
  intro tokens tokens' alike
  cases alike with
  | nil => exact others
  | @cons token token' _ _ likely _ =>
      simp only [(written _ _ likely).1]
      cases token.kind with
      | keyword word =>
          cases word with
          | forWord =>
              exact parallel_bind_same (parallel_skip 1) fun _ =>
                parallel_forStatement written statements likely
          | ifWord =>
              exact parallel_bind_same (parallel_skip 1) fun _ =>
                parallel_ifStatement written statements likely
          | printWord =>
              exact parallel_bind_same (parallel_skip 1) fun _ => parallel_printStatement written
          | returnWord =>
              exact parallel_bind_same (parallel_skip 1) fun _ =>
                parallel_returnStatement written likely
          | whileWord =>
              exact parallel_bind_same (parallel_skip 1) fun _ =>
                parallel_whileStatement written statements likely
          | _ => exact others
      | symbol symbol =>
          cases symbol with
          | leftBrace =>
              refine parallel_bind_same (parallel_skip 1) fun _ => ?_
              refine parallel_bind (parallel_block written declarations) fun _ _ body => ?_
              exact parallel_pure (.block body)
          | _ => exact others
      | _ => exact others

theorem parallel_declarationOver :
    Parallel like (Stmt.Alike like) (declarationOver statement declaration)
      (declarationOver statement declaration) := by
  have others := parallel_statementOver written statements declarations
  refine parallel_bind parallel_ahead ?_
  intro tokens tokens' alike
  cases alike with
  | nil => exact parallel_expressionStatement written
  | @cons token token' _ _ likely _ =>
      simp only [(written _ _ likely).1]
      cases token.kind with
      | keyword word =>
          cases word with
          | funWord =>
              exact parallel_bind_same (parallel_skip 1) fun _ =>
                parallel_functionDeclaration written declarations
          | varWord =>
              exact parallel_bind_same (parallel_skip 1) fun _ =>
                parallel_variableDeclaration written
          | _ => exact others
      | _ => exact others

end Statements

include written

theorem parallel_within (bound : Nat) :
    Parallel like (Stmt.Alike like) (statementWithin bound) (statementWithin bound) ∧
      Parallel like (Stmt.Alike like) (declarationWithin bound) (declarationWithin bound) := by
  induction bound with
  | zero => exact ⟨parallel_expressionStatement written, parallel_expressionStatement written⟩
  | succ bound ih =>
      obtain ⟨statements, declarations⟩ := ih
      exact ⟨parallel_statementOver written statements declarations,
        parallel_declarationOver written statements declarations⟩

theorem parallel_declaration : Parallel like (Stmt.Alike like) declaration declaration := by
  intro start start' alike
  rw [declaration, declaration, ← alike.remaining]
  exact (parallel_within written start.remaining).2 start start' alike

end Parser

/-! ## Token lists -/

theorem Parse.Alike.succeeds {left right : Parse} (alike : left.Alike like right)
    (succeeded : left.failure = none) : right.failure = none := by
  have failures := optionRel_isSome alike.failure
  rw [succeeded] at failures
  exact Option.isNone_iff_eq_none.mp (Option.isSome_eq_false_iff.mp failures.symm)

theorem Failure.Alike.toError {failure failure' : Failure} (alike : failure.Alike like failure')
    {ending ending' : Token} (endings : like ending ending') :
    (failure.toError ending).Alike like (failure'.toError ending') := by
  refine ⟨alike.fault, ?_⟩
  obtain ⟨fault, found⟩ := failure
  obtain ⟨fault', found'⟩ := failure'
  cases alike.found with
  | none => exact endings
  | some token => exact token

section Tokens

variable (written : Token.WrittenAlike like)

include written

theorem Parse.within_alike (bound : Nat) {start start' : Cursor}
    (alike : start.Alike like start') :
    (Parse.within bound start).Alike like (Parse.within bound start') := by
  induction bound generalizing start start' with
  | zero => exact ⟨.nil, .none, rfl⟩
  | succ bound ih =>
      simp only [Parse.within, ← isEmpty_alike alike.rest]
      split
      · exact ⟨.nil, .none, rfl⟩
      · have replies := Parser.parallel_declaration written start start' alike
        generalize Parser.declaration start = reply at replies
        generalize Parser.declaration start' = reply' at replies
        cases replies with
        | ok first cursors =>
            obtain ⟨others, failures, rewinds⟩ := ih cursors
            exact ⟨.cons first others, failures, congrArg (_ ++ ·) rewinds⟩
        | error failures _ => exact ⟨.nil, .some failures, rfl⟩

theorem Parse.ofBody_alike {tokens tokens' : List Token}
    (alike : List.Forall₂ like tokens tokens') :
    (Parse.ofBody tokens).Alike like (Parse.ofBody tokens') := by
  have start : Cursor.Alike like (.ofTokens tokens 0) (.ofTokens tokens' 0) := ⟨alike, rfl⟩
  rw [Parse.ofBody, Parse.ofBody, ← alike.length_eq]
  exact Parse.within_alike written tokens.length start

theorem bodyOf_alike {tokens tokens' : List Token} (alike : List.Forall₂ like tokens tokens') :
    List.Forall₂ like (bodyOf tokens) (bodyOf tokens') := by
  induction alike with
  | nil => exact .nil
  | cons token _ ih =>
      simp only [bodyOf, List.takeWhile_cons, Token.isEnding, (written _ _ token).1]
      split
      · exact .cons token ih
      · exact .nil

/-- Related tokens are parsed alike if the ends of the two sources are related as well. -/
theorem parseTokens_alike {tokens tokens' : List Token} (alike : List.Forall₂ like tokens tokens')
    (endings : like (endingOf tokens) (endingOf tokens')) :
    (parseTokens tokens).Alike like (parseTokens tokens') := by
  have bodies := bodyOf_alike written alike
  obtain ⟨statements, failures, rewinds⟩ := Parse.ofBody_alike written bodies
  refine ⟨statements, optionRel_map failures fun _ _ alike => alike.toError endings, ?_⟩
  simp only [parseTokens, rewinds, bodies.length_eq]

end Tokens

end Lox
