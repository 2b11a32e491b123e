import Lox.Proofs.Grammar.Agreement
import Lox.Proofs.Grammar.Soundness

/-!
# No guard fails

The parser with guards never breaks off, on any token list. What the guards
ask for holds throughout a parse: no index leaves the list or gets behind the
first end of the source, no function body is left that was not entered, and
every declaration moves on. So the two parsers give the same result, and no
token behind the end of the source has a part in it.
-/

set_option autoImplicit false

namespace Lox

/-! ## What the statement parsers do -/

namespace Parser

variable {statement declaration : Parser Stmt} {start : Cursor}

/-- Whatever the parser reads takes at least one token. -/
def Progresses {α : Type} (parser : Parser α) : Prop :=
  ∀ start value reached, parser.Reads start value reached → reached.rest.length < start.rest.length

theorem SoundForDeclarations.progresses (sound : SoundForDeclarations declaration) :
    declaration.Progresses := by
  intro start stmt reached read
  obtain ⟨rest, derived, rfl⟩ := sound start stmt reached read
  exact derived.length_lt

theorem bind_isNext {α : Type} (kind : TokenKind) (next : Bool → Parser α) (start : Cursor) :
    (isNext kind >>= next) start = next (start.rest.head?.any (·.kind = kind)) start := rfl

theorem statementOver_of_nil (ended : start.rest = []) :
    statementOver statement declaration start = expressionStatement start := by
  rw [statementOver, bind_ahead, ended]

theorem declarationOver_of_nil (ended : start.rest = []) :
    declarationOver statement declaration start = expressionStatement start := by
  rw [declarationOver, bind_ahead, ended]

/-- At the end of the source it does not matter which statements may stand inside. -/
theorem within_agrees_over {count limit : Nat} (few : count ≤ limit) :
    Agrees count (statementWithin limit)
        (statementOver (statementWithin (limit - 1)) (declarationWithin (limit - 1))) ∧
      Agrees count (declarationWithin limit)
        (declarationOver (statementWithin (limit - 1)) (declarationWithin (limit - 1))) := by
  cases limit with
  | zero =>
      have ended : ∀ start : Cursor, start.rest.length ≤ count → start.rest = [] :=
        fun start le => List.length_eq_zero_iff.mp (by omega)
      exact ⟨fun start le => (statementOver_of_nil (ended start le)).symm,
        fun start le => (declarationOver_of_nil (ended start le)).symm⟩
  | succ limit => exact ⟨fun _ _ => rfl, fun _ _ => rfl⟩

/-- The keywords of statements, asked for in turn. -/
theorem statementOver_eq_accept : statementOver statement declaration = (do
    match ← accept (.keyword .forWord) with
    | some keyword => forStatement statement keyword
    | none =>
    match ← accept (.keyword .ifWord) with
    | some keyword => ifStatement statement keyword
    | none =>
    match ← accept (.keyword .printWord) with
    | some _ => printStatement
    | none =>
    match ← accept (.keyword .returnWord) with
    | some keyword => returnStatement keyword
    | none =>
    match ← accept (.keyword .whileWord) with
    | some keyword => whileStatement statement keyword
    | none =>
    match ← accept (.symbol .leftBrace) with
    | some _ => return .block (← block declaration)
    | none => expressionStatement) := by
  funext start
  rw [statementOver, bind_ahead]
  cases ahead : start.rest with
  | nil => simp only [accept, bind_acceptIf_of_nil ahead]
  | cons token later =>
      simp only [accept, bind_acceptIf_of_cons ahead]
      cases token.kind with
      | keyword word => cases word <;> simp [bind_skip]
      | symbol symbol => cases symbol <;> simp [bind_skip]
      | _ => simp

/-- The keywords of declarations, asked for in turn. -/
theorem declarationOver_eq_accept : declarationOver statement declaration = (do
    match ← accept (.keyword .funWord) with
    | some _ => functionDeclaration declaration
    | none =>
    match ← accept (.keyword .varWord) with
    | some _ => variableDeclaration
    | none => statementOver statement declaration) := by
  funext start
  rw [declarationOver, bind_ahead]
  cases ahead : start.rest with
  | nil => simp only [accept, bind_acceptIf_of_nil ahead, statementOver_of_nil ahead]
  | cons token later =>
      simp only [accept, bind_acceptIf_of_cons ahead]
      cases token.kind with
      | keyword word => cases word <;> simp [bind_skip]
      | _ => simp

section NoExpression

variable {inner : Parser Expr} {failure : Failure}

/-- Nothing is tried behind an operand that cannot be read. -/
theorem disjunction_of_error (failed : primary inner start = ⟨.error failure, start, []⟩)
    (noOperator : ∀ token ∈ start.rest.head?, token.kind.isUnaryOperator = false) :
    disjunction inner start = ⟨.error failure, start, []⟩ := by
  have calls : call inner start = ⟨.error failure, start, []⟩ := bind_of_error failed
  have unaries : unary inner start = ⟨.error failure, start, []⟩ := by
    rw [unary, bind_remaining]
    cases start.remaining with
    | zero => exact calls
    | succ limit =>
        rw [unaryWithin]
        cases ahead : start.rest with
        | nil => rwa [bind_acceptIf_of_nil ahead]
        | cons token later =>
            rw [bind_acceptIf_of_cons ahead, noOperator token (by simp [ahead])]
            exact calls
  have factors : factor inner start = ⟨.error failure, start, []⟩ := bind_of_error unaries
  have comparisons : comparison inner start = ⟨.error failure, start, []⟩ :=
    bind_of_error (bind_of_error factors)
  exact bind_of_error (bind_of_error (bind_of_error comparisons))

variable {keyword : Token} {later : List Token} (ahead : start.rest = keyword :: later)
  (word : keyword.kind = .keyword .varWord)

include ahead word

/-- No expression statement begins with the keyword of a variable declaration. -/
theorem expressionStatement_of_varWord :
    expressionStatement start = ⟨.error ⟨.noExpression, some keyword⟩, start, []⟩ := by
  have noLiteral : keyword.literal? = none := by simp [Token.literal?, word, TokenKind.literal?]
  have primaries : primary expression start =
      ⟨.error ⟨.noExpression, some keyword⟩, start, []⟩ := by
    rw [primary, bind_ahead, ahead]
    simp [noLiteral, word, failHere, fail, ahead]
  have noAssignment : assignedName? start.rest = none := by
    rw [ahead]
    cases later <;> simp [assignedName?, word]
  have expressions : expression start = ⟨.error ⟨.noExpression, some keyword⟩, start, []⟩ := by
    rw [expression_eq_assignment, assignment, bind_ahead, noAssignment]
    apply disjunction_of_error primaries
    simp [ahead, word, TokenKind.isUnaryOperator]
  have values : expressionUnless (.symbol .semicolon) .nil start =
      ⟨.error ⟨.noExpression, some keyword⟩, start, []⟩ := by
    rw [expressionUnless, bind_isNext, ahead]
    simpa [word] using expressions
  exact bind_of_error values

end NoExpression

end Parser

namespace Guarded

variable {α : Type} {tokens : List Token} {place : Place} {cursor : Cursor} {count bound : Nat}

theorem follows_depth : Follows tokens count depth .depth := by
  intro place cursor stands _
  refine ⟨place, ?_, stands, rfl, (List.append_nil _).symm⟩
  rw [depth, stands.depth]
  rfl

theorem follows_progressing {guarded : Guarded α} {parser : Parser α}
    (follows : Follows tokens count guarded parser) (progresses : parser.Progresses) :
    Follows tokens count (progressing guarded) parser := by
  intro place cursor stands few
  obtain ⟨reached, ended, standsReached, depth, rewound⟩ := follows place cursor stands few
  refine ⟨reached, ?_, standsReached, depth, rewound⟩
  rcases reply : parser cursor with ⟨failure | value, stopped, rewinds⟩
  · rw [reply] at ended
    rw [progressing, ended]
    rfl
  · rw [reply] at ended standsReached
    have shorter := progresses cursor value stopped (by simp [Parser.Reads, reply])
    have moved : place.index + 1 ≤ reached.index := stands.index_add_le standsReached shorter
    rw [progressing, ended]
    exact if_pos (Nat.lt_of_succ_le moved)

/-! ## Simple statements -/

section Simple

variable (complete : Complete tokens) (enough : count < bound)

include complete enough

theorem follows_expressionUnless (ending : TokenKind) (value : Literal) :
    Follows tokens count (expressionUnless bound ending value)
      (.expressionUnless ending value) := by
  apply follows_production
  apply follows_bind (follows_isNext complete ending) (Parser.moves_isNext ending)
  intro isEnding
  split
  · exact follows_pure _
  · exact follows_expression complete enough

theorem follows_optionalExpression (ending : TokenKind) :
    Follows tokens count (optionalExpression bound ending) (.optionalExpression ending) := by
  apply follows_bind (follows_isNext complete ending) (Parser.moves_isNext ending)
  intro isEnding
  split
  · exact follows_pure _
  · exact follows_bind (follows_expression complete enough) Parser.moves_expression
      fun _ => follows_pure _

theorem follows_initializer : Follows tokens count (initializer bound) .initializer := by
  apply follows_accept complete
  · intro equals less fewer
    exact follows_bind (follows_expression complete (Nat.lt_trans fewer enough))
      Parser.moves_expression fun _ => follows_pure _
  · exact follows_pure none

theorem follows_variableDeclaration :
    Follows tokens count (variableDeclaration bound) .variableDeclaration := by
  apply follows_production
  apply follows_expecting complete
  intro name
  apply follows_bind (follows_initializer complete enough) Parser.moves_initializer
  intro value
  exact follows_expecting complete fun _ => follows_pure _

theorem follows_expressionStatement :
    Follows tokens count (expressionStatement bound) .expressionStatement := by
  apply follows_production
  apply follows_bind (follows_expressionUnless complete enough _ _)
    (Parser.moves_expressionUnless _ _)
  intro value
  exact follows_expecting complete fun _ => follows_pure _

theorem follows_printStatement :
    Follows tokens count (printStatement bound) .printStatement := by
  apply follows_production
  apply follows_bind (follows_expressionUnless complete enough _ _)
    (Parser.moves_expressionUnless _ _)
  intro value
  exact follows_expecting complete fun _ => follows_pure _

theorem follows_returnStatement (keyword : Token) :
    Follows tokens count (returnStatement bound keyword) (.returnStatement keyword) := by
  apply follows_production
  apply follows_bind follows_depth Parser.moves_depth
  intro bodies
  split
  · exact follows_fail _ _
  · apply follows_bind (follows_optionalExpression complete enough _)
      (Parser.moves_optionalExpression _)
    intro value
    exact follows_expecting complete fun _ => follows_pure _

omit enough in
/-- After the note of the rewind, the expression statement decides all but which failure counts. -/
theorem expressionInstead_eq {first : Token} (stands : place.Stands tokens cursor)
    (isFirst : tokens[place.index]? = some first) {result : Except SyntaxError Stmt}
    {reached stopped : Place}
    (ended : expressionStatement bound tokens { reached with
      index := place.index
      rewinds := reached.rewinds ++ [(.loopDeclaration, place.index)] } = some (result, stopped))
    (declaration : Except SyntaxError (Option Stmt)) :
    expressionInstead bound declaration place.index tokens reached =
      some (result.mapError fun late =>
        match declaration with
        | .error early => if first.kind = .keyword .varWord then early else late
        | .ok _ => late, stopped) := by
  have looked (there : Place) : tokenAt place.index tokens there = some (.ok first, there) := by
    simp only [tokenAt, isFirst, Option.map_some]
  refine (bind_of_ok (goTo_eq complete stands reached)).trans ?_
  refine (bind_of_ok rfl).trans ?_
  refine (bind_of_ok (looked _)).trans ?_
  refine (bind_of_ok (outcome_eq ended)).trans ?_
  rcases result with late | statement
  · rcases declaration with early | declared
    · rfl
    · rfl
  · rfl

/-- A declaration that cannot be read is no expression statement either, and keeps its failure. -/
theorem agreesAt_loopInitializer_of_varWord (stands : place.Stands tokens cursor)
    (few : cursor.rest.length ≤ count) {keyword : Token} {later : List Token}
    (ahead : cursor.rest = keyword :: later) (word : keyword.kind = .keyword .varWord) :
    AgreesAt tokens place cursor (loopInitializer bound) .loopInitializer := by
  have behind : (cursor.skip 1).rest.length ≤ count := by
    simp only [Cursor.skip, List.length_drop]
    omega
  have read := (asks_accept complete (.keyword .varWord)).more stands ahead
  simp only [word, decide_true, if_true] at read
  obtain ⟨reached, ended, standsReached, depth, rewound⟩ :=
    follows_variableDeclaration complete enough _ _ (stands.next ahead) behind
  apply agreesAt_production
  apply agreesAt_index
  rw [AgreesAt, Parser.loopInitializer, Parser.bind_isNext, ahead]
  simp only [List.head?_cons, Option.any_some, word, decide_true, if_true]
  rcases reply : Parser.variableDeclaration (cursor.skip 1) with
    ⟨failure | stmt, stopped, rewinds⟩
  · rw [reply] at ended standsReached rewound
    have failed : (do Parser.skip 1; Parser.variableDeclaration : Parser Stmt) cursor =
        ⟨.error failure, stopped, rewinds⟩ := reply
    have tried : loopDeclaration bound tokens place =
        some (.error (failure.toError (endingOf tokens)), reached) :=
      (bind_of_ok read).trans (bind_of_error ended)
    rw [Parser.rewinding_of_error failed]
    apply agrees_outcome tried
    have again := agrees_again stands few (follows_expressionStatement complete enough) depth
      rewound .loopDeclaration
    rw [Parser.expressionStatement_of_varWord ahead word] at again
    obtain ⟨last, endedLast, standsLast, depthLast, rewoundLast⟩ := again
    have current := stands.getElem?_of_cons complete ahead
    refine ⟨last, ?_, standsLast, depthLast, rewoundLast⟩
    refine (expressionInstead_eq complete stands current endedLast _).trans ?_
    exact congrArg (fun error => some (Except.error error, last)) (if_pos word)
  · rw [reply] at ended standsReached rewound
    have succeeded : (do Parser.skip 1; Parser.variableDeclaration : Parser Stmt) cursor =
        ⟨.ok stmt, stopped, rewinds⟩ := reply
    have tried : loopDeclaration bound tokens place = some (.ok (some stmt), reached) :=
      (bind_of_ok read).trans (bind_of_ok ended)
    rw [Parser.rewinding_of_ok succeeded]
    apply agrees_outcome tried
    exact ⟨reached, rfl, standsReached, depth, rewound⟩

theorem agreesAt_loopInitializer_otherwise (stands : place.Stands tokens cursor)
    (few : cursor.rest.length ≤ count)
    (otherwise : cursor.rest.head?.any (·.kind = .keyword .varWord) = false) :
    AgreesAt tokens place cursor (loopInitializer bound) .loopInitializer := by
  have refused : ∀ token ∈ cursor.rest.head?, decide (token.kind = .keyword .varWord) = false := by
    intro token isFirst
    rwa [Option.mem_def.mp isFirst] at otherwise
  have tried : loopDeclaration bound tokens place = some (.ok none, place) :=
    bind_of_ok ((asks_accept complete (.keyword .varWord)).refuses stands refused)
  apply agreesAt_production
  apply agreesAt_index
  have noted : (do Parser.note .loopDeclaration; Parser.expressionStatement : Parser Stmt) cursor =
      { Parser.expressionStatement cursor with
        rewinds := [] ++
          ⟨.loopDeclaration, cursor.remaining⟩ :: (Parser.expressionStatement cursor).rewinds } :=
    rfl
  rw [AgreesAt, Parser.loopInitializer, Parser.bind_isNext, otherwise, if_neg Bool.false_ne_true,
    noted]
  apply agrees_outcome tried
  have nothing : place.rewinds = place.rewinds ++ indexed tokens [] := (List.append_nil _).symm
  obtain ⟨last, ended, standsLast, depth, rewound⟩ := agrees_again stands few
    (follows_expressionStatement complete enough) rfl nothing .loopDeclaration
  obtain ⟨current, isCurrent⟩ := stands.exists_token complete
  refine ⟨last, ?_, standsLast, depth, rewound⟩
  refine (expressionInstead_eq complete stands isCurrent ended _).trans ?_
  rcases reply : Parser.expressionStatement cursor with ⟨failure | stmt, stopped, rewinds⟩
  · rfl
  · rfl

theorem follows_loopInitializer :
    Follows tokens count (loopInitializer bound) .loopInitializer := by
  intro place cursor stands few
  cases next : cursor.rest.head?.any (·.kind = .keyword .varWord) with
  | false => exact agreesAt_loopInitializer_otherwise complete enough stands few next
  | true =>
      cases ahead : cursor.rest with
      | nil => simp [ahead] at next
      | cons keyword later =>
          have word : keyword.kind = .keyword .varWord := by simpa [ahead] using next
          exact agreesAt_loopInitializer_of_varWord complete enough stands few ahead word

end Simple

/-! ## Statements around statements -/

section Nested

variable (complete : Complete tokens) (enough : count < bound)
  {statement declaration : Guarded Stmt} {statement' declaration' : Parser Stmt}

include complete

section Statement

variable (follows : Follows tokens count statement statement')
  (moves : statement'.Moves .onward)

include follows moves enough

theorem follows_forStatement (keyword : Token) :
    Follows tokens count (forStatement statement bound keyword)
      (.forStatement statement' keyword) := by
  apply follows_production
  apply follows_expecting complete
  intro opening
  apply follows_bind (follows_loopInitializer complete enough) Parser.moves_loopInitializer
  intro first
  apply follows_bind (follows_expressionUnless complete enough _ _)
    (Parser.moves_expressionUnless _ _)
  intro condition
  apply follows_expecting complete
  intro semicolon
  apply follows_bind (follows_optionalExpression complete enough _)
    (Parser.moves_optionalExpression _)
  intro increment
  apply follows_expecting complete
  intro closing
  exact follows_bind follows moves fun _ => follows_pure _

theorem follows_ifStatement (keyword : Token) :
    Follows tokens count (ifStatement statement bound keyword)
      (.ifStatement statement' keyword) := by
  apply follows_production
  apply follows_expecting complete
  intro opening
  apply follows_bind (follows_expression complete enough) Parser.moves_expression
  intro condition
  apply follows_expecting complete
  intro closing
  apply follows_bind follows moves
  intro thenBranch
  apply follows_accept complete
  · intro word less fewer
    exact follows_bind (follows.fewer (Nat.le_of_lt fewer)) moves fun _ => follows_pure _
  · exact follows_pure _

theorem follows_whileStatement (keyword : Token) :
    Follows tokens count (whileStatement statement bound keyword)
      (.whileStatement statement' keyword) := by
  apply follows_production
  apply follows_expecting complete
  intro opening
  apply follows_bind (follows_expression complete enough) Parser.moves_expression
  intro condition
  apply follows_expecting complete
  intro closing
  exact follows_bind follows moves fun _ => follows_pure _

end Statement

section Declarations

variable (moves : declaration'.Moves .onward) (progresses : declaration'.Progresses)

include moves progresses

omit moves progresses in
theorem declarationsUntilBrace_of_nil (stands : place.Stands tokens cursor)
    (ended : cursor.rest = []) (passes : Nat) :
    declarationsUntilBrace declaration (passes + 1) tokens place = some (.ok [], place) := by
  have atEnd := isAtEnd_eq complete stands
  rw [ended] at atEnd
  rw [declarationsUntilBrace, bind_of_ok (isNext_eq complete stands _), ended]
  exact bind_of_ok atEnd

/-- Every declaration takes a token, so there are no more passes than tokens. -/
theorem follows_declarationsUntilBrace (limit : Nat) : ∀ {fewer passes : Nat}, fewer ≤ limit →
    fewer < passes → Follows tokens fewer declaration declaration' →
      Follows tokens fewer (declarationsUntilBrace declaration passes)
        (.declarationsWithin declaration' limit) := by
  induction limit with
  | zero =>
      intro fewer passes few ample _ place cursor stands none
      obtain ⟨passes, rfl⟩ := Nat.exists_eq_succ_of_ne_zero (Nat.ne_zero_of_lt ample)
      have ended : cursor.rest = [] := List.length_eq_zero_iff.mp (by omega)
      rw [AgreesAt, declarationsUntilBrace_of_nil complete stands ended]
      exact ⟨place, rfl, stands, rfl, (List.append_nil _).symm⟩
  | succ limit ih =>
      intro fewer passes few ample follows place cursor stands fewAhead
      obtain ⟨passes, rfl⟩ := Nat.exists_eq_succ_of_ne_zero (Nat.ne_zero_of_lt ample)
      rw [AgreesAt, Parser.declarationsWithin, Parser.bind_ahead, Parser.bind_isNext]
      cases ahead : cursor.rest with
      | nil =>
          rw [declarationsUntilBrace_of_nil complete stands ahead]
          exact ⟨place, rfl, stands, rfl, (List.append_nil _).symm⟩
      | cons token later =>
          have next := isNext_eq complete stands (.symbol .rightBrace)
          have more := isAtEnd_eq complete stands
          rw [ahead] at next more
          rw [List.head?_cons, Option.any_some] at next ⊢
          cases isBrace : decide (token.kind = .symbol .rightBrace) with
          | true =>
              rw [isBrace] at next
              rw [declarationsUntilBrace, bind_of_ok next]
              exact ⟨place, rfl, stands, rfl, (List.append_nil _).symm⟩
          | false =>
              rw [isBrace] at next
              rw [declarationsUntilBrace, bind_of_ok next, if_neg Bool.false_ne_true,
                bind_of_ok more]
              apply agreesAt_bind (follows place cursor stands fewAhead)
              intro middle first reached rewinds standsMiddle reply
              have shorter := progresses cursor first reached (by simp [Parser.Reads, reply])
              have behind : Follows tokens reached.rest.length
                  (declarationsUntilBrace declaration passes)
                  (.declarationsWithin declaration' limit) :=
                ih (by omega) (by omega) (follows.fewer (by omega))
              exact follows_bind behind (Parser.moves_declarationsWithin moves limit)
                (fun _ => follows_pure _) middle reached standsMiddle (Nat.le_refl _)

include enough

theorem follows_block (follows : Follows tokens count declaration declaration') :
    Follows tokens count (block declaration bound) (.block declaration') := by
  apply follows_production
  apply follows_remaining
  intro limit le
  have declarations := follows_declarationsUntilBrace complete moves progresses limit
    (Nat.le_refl _) (Nat.lt_of_le_of_lt le enough) (follows.fewer le)
  apply follows_bind declarations (Parser.moves_declarationsWithin moves limit)
  intro statements
  exact follows_expecting complete fun _ => follows_pure _

theorem follows_functionDeclaration (follows : Follows tokens count declaration declaration') :
    Follows tokens count (functionDeclaration declaration bound)
      (.functionDeclaration declaration') := by
  apply follows_production
  apply follows_expecting complete
  intro name
  apply follows_expecting complete
  intro opening
  have parameters := follows_listUntil complete (Parser.moves_expect .parameterName)
    (follows_expect complete .parameterName) (.symbol .rightParen) enough
  apply follows_bind parameters (Parser.moves_listUntil (Parser.moves_expect _) _)
  intro parameters
  split
  · exact follows_fail _ _
  · apply follows_expecting complete
    intro closing
    apply follows_expecting complete
    intro brace
    have bodies := follows_inBody (follows_block complete enough moves progresses follows)
    exact follows_bind bodies (Parser.moves_inBody (Parser.moves_block moves))
      fun _ => follows_pure _

end Declarations

section Over

variable (followsStatement : ∀ less < count, Follows tokens less statement statement')
  (movesStatement : statement'.Moves .onward)
  (followsDeclaration : ∀ less < count, Follows tokens less declaration declaration')
  (movesDeclaration : declaration'.Moves .onward) (progresses : declaration'.Progresses)

include enough followsStatement movesStatement followsDeclaration movesDeclaration progresses

theorem follows_statementOver :
    Follows tokens count (statementOver statement declaration bound)
      (.statementOver statement' declaration') := by
  apply follows_production
  rw [Parser.statementOver_eq_accept]
  apply follows_accept complete
  · intro keyword less fewer
    exact follows_forStatement complete (Nat.lt_trans fewer enough)
      (followsStatement less fewer) movesStatement keyword
  apply follows_accept complete
  · intro keyword less fewer
    exact follows_ifStatement complete (Nat.lt_trans fewer enough)
      (followsStatement less fewer) movesStatement keyword
  apply follows_accept complete
  · intro keyword less fewer
    exact follows_printStatement complete (Nat.lt_trans fewer enough)
  apply follows_accept complete
  · intro keyword less fewer
    exact follows_returnStatement complete (Nat.lt_trans fewer enough) keyword
  apply follows_accept complete
  · intro keyword less fewer
    exact follows_whileStatement complete (Nat.lt_trans fewer enough)
      (followsStatement less fewer) movesStatement keyword
  apply follows_accept complete
  · intro brace less fewer
    have blocks := follows_block complete (Nat.lt_trans fewer enough) movesDeclaration progresses
      (followsDeclaration less fewer)
    exact follows_bind blocks (Parser.moves_block movesDeclaration) fun _ => follows_pure _
  · exact follows_expressionStatement complete enough

theorem follows_declarationOver
    (progressesOver : (Parser.declarationOver statement' declaration').Progresses) :
    Follows tokens count (declarationOver statement declaration bound)
      (.declarationOver statement' declaration') := by
  refine follows_progressing (follows_production ?_) progressesOver
  have statements := follows_statementOver complete enough followsStatement movesStatement
    followsDeclaration movesDeclaration progresses
  rw [Parser.declarationOver_eq_accept]
  apply follows_accept complete
  · intro keyword less fewer
    exact follows_functionDeclaration complete (Nat.lt_trans fewer enough) movesDeclaration
      progresses (followsDeclaration less fewer)
  apply follows_accept complete
  · intro keyword less fewer
    exact follows_variableDeclaration complete (Nat.lt_trans fewer enough)
  · exact statements

end Over

end Nested

/-! ## Whole parses -/

section Whole

variable (complete : Complete tokens)

include complete

/-- The bound counts how deep uses of the two parsers are nested: there are
fewer tokens ahead of each than of the one around it. -/
theorem follows_within : ∀ {count limit : Nat}, count < bound → count ≤ limit →
    Follows tokens count (statement bound) (Parser.statementWithin limit) ∧
      Follows tokens count (declaration bound) (Parser.declarationWithin limit) := by
  induction bound with
  | zero => exact fun few => absurd few (Nat.not_lt_zero _)
  | succ bound ih =>
      intro count limit few le
      -- Without tokens ahead the limit may be used up, and then nothing is nested at all.
      have inside : ∀ less < count,
          Follows tokens less (statement bound) (Parser.statementWithin (limit - 1)) ∧
            Follows tokens less (declaration bound) (Parser.declarationWithin (limit - 1)) :=
        fun less lt => ih (by omega) (by omega)
      obtain ⟨movesStatement, movesDeclaration⟩ := Parser.moves_within (limit - 1)
      obtain ⟨soundStatement, soundDeclaration⟩ := Parser.within_sound (limit - 1)
      obtain ⟨sameStatement, sameDeclaration⟩ := Parser.within_agrees_over le
      constructor
      · have statements := follows_statementOver complete few (fun less lt => (inside less lt).1)
          movesStatement (fun less lt => (inside less lt).2) movesDeclaration
          soundDeclaration.progresses
        exact statements.congr sameStatement
      · have declarations := follows_declarationOver complete few
          (fun less lt => (inside less lt).1) movesStatement (fun less lt => (inside less lt).2)
          movesDeclaration soundDeclaration.progresses
          (Parser.declarationOver_sound soundStatement soundDeclaration).progresses
        exact declarations.congr sameDeclaration

theorem follows_declaration (enough : count < bound) :
    Follows tokens count (declaration bound) .declaration := by
  intro place cursor stands few
  have counted : cursor.rest.length ≤ cursor.remaining := Nat.le_of_eq cursor.remaining_eq.symm
  exact (follows_within complete (Nat.lt_of_le_of_lt few enough) counted).2 place cursor stands
    (Nat.le_refl _)

theorem program_of_nil (stands : place.Stands tokens cursor) (ended : cursor.rest = [])
    (passes : Nat) : program bound (passes + 1) tokens place = some (.ok ([], none), place) := by
  have atEnd := isAtEnd_eq complete stands
  rw [ended] at atEnd
  exact bind_of_ok atEnd

/-- Every pass reads a declaration, so there are no more of them than tokens. -/
theorem program_eq (limit : Nat) : ∀ {passes : Nat} {place : Place} {cursor : Cursor},
    place.Stands tokens cursor → cursor.rest.length ≤ limit → limit < passes → limit < bound →
    ∃ reached, program bound passes tokens place =
        some (.ok ((Parse.within limit cursor).statements,
          (Parse.within limit cursor).failure.map (Failure.toError (endingOf tokens))), reached) ∧
      reached.rewinds = place.rewinds ++ indexed tokens (Parse.within limit cursor).rewinds := by
  induction limit with
  | zero =>
      intro passes place cursor stands none ample _
      obtain ⟨passes, rfl⟩ := Nat.exists_eq_succ_of_ne_zero (Nat.ne_zero_of_lt ample)
      have ended : cursor.rest = [] := List.length_eq_zero_iff.mp (Nat.le_zero.mp none)
      rw [program_of_nil complete stands ended]
      exact ⟨place, rfl, (List.append_nil _).symm⟩
  | succ limit ih =>
      intro passes place cursor stands few ample enough
      obtain ⟨passes, rfl⟩ := Nat.exists_eq_succ_of_ne_zero (Nat.ne_zero_of_lt ample)
      rw [Parse.within]
      cases ahead : cursor.rest with
      | nil =>
          rw [program_of_nil complete stands ahead]
          exact ⟨place, rfl, (List.append_nil _).symm⟩
      | cons token later =>
          have more := isAtEnd_eq complete stands
          rw [ahead] at more
          obtain ⟨middle, ended, standsMiddle, depth, rewound⟩ :=
            follows_declaration complete enough place cursor stands few
          rw [program, bind_of_ok more, if_neg (by simp), if_neg (by simp),
            bind_of_ok (outcome_eq ended)]
          rcases reply : Parser.declaration cursor with ⟨failure | first, stopped, rewinds⟩
          · rw [reply] at rewound
            exact ⟨middle, rfl, rewound⟩
          · rw [reply] at standsMiddle rewound
            have shorter := Parser.declaration_sound.progresses cursor first stopped
              (by simp [Parser.Reads, reply])
            have fewer := Nat.le_of_lt_succ (Nat.lt_of_lt_of_le shorter few)
            obtain ⟨reached, read, rewoundReached⟩ := ih standsMiddle fewer
              (Nat.lt_of_succ_lt_succ ample) (Nat.lt_of_succ_lt enough)
            refine ⟨reached, bind_of_ok read, ?_⟩
            rw [rewoundReached, rewound, indexed_append, List.append_assoc]

end Whole

end Guarded

/-! ## The end of the source -/

theorem complete_append {tokens : List Token} {ending : Token} (ends : ending.isEnding = true) :
    Complete (tokens ++ [ending]) :=
  ⟨ending, by simp, ends⟩

theorem bodyOf_append_ending {tokens : List Token} {ending : Token}
    (ends : ending.isEnding = true) : bodyOf (tokens ++ [ending]) = bodyOf tokens := by
  rw [bodyOf, bodyOf, List.takeWhile_append]
  split
  · next all =>
    rw [(List.takeWhile_prefix _).eq_of_length all]
    simp [ends]
  · rfl

theorem complete_completed (tokens : List Token) : Complete (completed tokens) := by
  unfold completed
  split
  · next last isLast =>
    split
    · next ends => exact ⟨last, List.mem_of_getLast? isLast, ends⟩
    · exact complete_append rfl
  · exact ⟨Token.ending 1, by simp, rfl⟩

theorem bodyOf_completed (tokens : List Token) : bodyOf (completed tokens) = bodyOf tokens := by
  unfold completed
  split
  · split
    · rfl
    · exact bodyOf_append_ending rfl
  · next none =>
    rw [List.getLast?_eq_none_iff.mp none]
    rfl

theorem endingOf_completed (tokens : List Token) :
    endingOf (completed tokens) = endingOf tokens := by
  unfold completed
  split
  · next last isLast =>
    split
    · rfl
    · simp only [endingOf, List.find?_append, isLast, Option.map_some, Option.getD_some]
      cases tokens.find? Token.isEnding with
      | none => rfl
      | some ending => rfl
  · next none =>
    rw [List.getLast?_eq_none_iff.mp none]
    rfl

theorem parseTokens_congr {tokens others : List Token} (sameBody : bodyOf tokens = bodyOf others)
    (sameEnding : endingOf tokens = endingOf others) : parseTokens tokens = parseTokens others := by
  simp only [parseTokens, sameBody, sameEnding]

theorem parseGuarded_eq (tokens : List Token) {bound : Nat} (enough : tokens.length < bound) :
    parseGuarded bound tokens = some (parseTokens tokens) := by
  have complete := complete_completed tokens
  have few : (bodyOf tokens).length ≤ tokens.length := (List.takeWhile_prefix _).length_le
  have stands : Place.Stands (completed tokens) ⟨0, 0, []⟩ (.ofTokens (bodyOf tokens) 0) :=
    ⟨by rw [bodyOf_completed]; rfl, Nat.zero_le _, rfl⟩
  obtain ⟨reached, ended, rewound⟩ := Guarded.program_eq complete (bodyOf tokens).length stands
    (Nat.le_refl _) (Nat.lt_of_le_of_lt few enough) (Nat.lt_of_le_of_lt few enough)
  rw [endingOf_completed] at ended
  rw [Guarded.indexed, bodyOf_completed] at rewound
  simp only [parseGuarded, ended, rewound, List.nil_append, parseTokens, Parse.ofBody]

/-- No token behind the first end of the source has a part in a parse. -/
theorem parseTokens_take (tokens later : List Token) :
    parseTokens
      ((completed tokens).take ((completed tokens).findIdx Token.isEnding + 1) ++ later) =
        parseTokens tokens := by
  obtain ⟨front, ending, behind, same, noneEnds, ends⟩ := (complete_completed tokens).split
  have kept : (completed tokens).take ((completed tokens).findIdx Token.isEnding + 1) ++ later =
      front ++ ending :: later := by
    rw [same, findIdx_append noneEnds ends]
    simp [List.take_append, List.take_of_length_le]
  apply parseTokens_congr
  · rw [kept, bodyOf_append noneEnds ends, ← bodyOf_completed, same, bodyOf_append noneEnds ends]
  · rw [kept, endingOf_append noneEnds ends, ← endingOf_completed, same,
      endingOf_append noneEnds ends]

/-- Where a parser stops there are as many function bodies around as where it began. -/
def Motion.level : Motion where
  allows start reached := reached.depth = start.depth
  refl _ := rfl
  trans first second := second.trans first
  skip _ _ := rfl
  inBody entered := congrArg (· - 1) entered

/-- No guard fails on any token list, so a parse ends with its index inside the
list. From every cursor a declaration stops at the same depth, further on if it
succeeds. Only the tokens up to the first end of the source matter. -/
theorem parser_never_breaks_off (tokens : List Token) :
    (∀ extra, parseGuarded (tokens.length + 1 + extra) tokens = some (parseTokens tokens)) ∧
      (∀ start : Cursor,
        (Parser.declaration start).cursor.rest <:+ start.rest ∧
        (Parser.declaration start).cursor.depth = start.depth ∧
        ∀ stmt, (Parser.declaration start).outcome = .ok stmt →
          (Parser.declaration start).cursor.rest.length < start.rest.length) ∧
      ∀ later, parseTokens
        ((completed tokens).take ((completed tokens).findIdx Token.isEnding + 1) ++ later) =
          parseTokens tokens := by
  refine ⟨fun extra => parseGuarded_eq tokens (by omega), fun start => ⟨?_, ?_, ?_⟩,
    parseTokens_take tokens⟩
  · have moves : Parser.declaration.Moves .onward := Parser.moves_declaration
    exact moves start
  · have moves : Parser.declaration.Moves .level := Parser.moves_declaration
    exact moves start
  · intro stmt succeeded
    exact Parser.declaration_sound.progresses start stmt _ ⟨succeeded, rfl⟩

/-- An expression statement, and an end of the source that is not the last token. -/
theorem declaration_moves_over_its_tokens :
    let tokens : List Token := [⟨.name, "a", 1, 1⟩, ⟨.symbol .semicolon, ";", 1, 2⟩, .ending 1,
      ⟨.symbol .rightBrace, "\x7d", 2, 1⟩]
    let reply := Parser.declaration (.ofTokens (bodyOf tokens) 0)
    parseGuarded 5 tokens = some (parseTokens tokens) ∧
      ∃ stmt, reply.outcome = .ok stmt ∧ reply.cursor.rest.length < (bodyOf tokens).length := by
  intro tokens reply
  have succeeds : reply.outcome.toOption.isSome = true := by decide +kernel
  obtain ⟨whole, declarations, _⟩ := parser_never_breaks_off tokens
  obtain ⟨_, _, moves⟩ := declarations (.ofTokens (bodyOf tokens) 0)
  cases result : reply.outcome with
  | ok stmt => exact ⟨whole 0, stmt, rfl, moves stmt result⟩
  | error failure => simp [result, Except.toOption] at succeeds

end Lox
