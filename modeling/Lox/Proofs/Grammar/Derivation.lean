import Lox.Grammar.Fault
import Lox.Syntax.Tree

/-!
# The grammar

The grammar of the language as relations between a tree and two token lists:
the first list begins with a phrase that has this tree, and the second is what
follows the phrase. No rule looks at what follows, so each relation is a set
of phrases. Nothing here refers to a parser, to a cursor, or to a bound.
-/

set_option autoImplicit false

namespace Lox

/-- The levels of precedence, the loosest first. -/
inductive Level where
  | assignment | disjunction | conjunction | equality | comparison | term | factor
  | unary | call | primary
  deriving DecidableEq, Repr

namespace Level

def tighter : Level → Level
  | assignment => disjunction
  | disjunction => conjunction
  | conjunction => equality
  | equality => comparison
  | comparison => term
  | term => factor
  | factor => unary
  | unary => call
  | call => primary
  | primary => primary

def operators : Level → List TokenKind
  | disjunction => [.keyword .orWord]
  | conjunction => [.keyword .andWord]
  | equality => [.symbol .bangEqual, .symbol .equalEqual]
  | comparison => [.symbol .greater, .symbol .greaterEqual, .symbol .less, .symbol .lessEqual]
  | term => [.symbol .minus, .symbol .plus]
  | factor => [.symbol .star, .symbol .slash]
  | assignment | unary | call | primary => []

/-- The tree of two operands of a level with an operator between them. -/
def node : Level → Expr → Token → Expr → Expr
  | disjunction | conjunction => .logical
  | _ => .binary

end Level

namespace Grammar

section Lists

variable {α : Type} (item : α → List Token → List Token → Prop)

/-- One item or more with a comma between any two. -/
inductive CommaSeparated : List α → List Token → List Token → Prop where
  | single {value tokens rest} :
      item value tokens rest → CommaSeparated [value] tokens rest
  | cons {value values tokens comma middle rest} :
      item value tokens (comma :: middle) → comma.kind = .symbol .comma →
      CommaSeparated values middle rest → CommaSeparated (value :: values) tokens rest

/-- Any number of items with a comma between any two. -/
inductive Listed : List α → List Token → List Token → Prop where
  | none {tokens} : Listed [] tokens tokens
  | some {values tokens rest} :
      CommaSeparated item values tokens rest → Listed values tokens rest

end Lists

/-- Expressions of a level. Operators of one level group to the left, unary
operators and assignments to the right. -/
inductive Expression : Level → Expr → List Token → List Token → Prop where
  | literal {token value rest} :
      token.literal? = some value → Expression .primary (.literal value) (token :: rest) rest
  | named {name rest} :
      name.kind = .name → Expression .primary (.variable name) (name :: rest) rest
  | grouping {opening inner tokens closing rest} :
      opening.kind = .symbol .leftParen → Expression .assignment inner tokens (closing :: rest) →
      closing.kind = .symbol .rightParen →
      Expression .primary (.grouping inner) (opening :: tokens) rest
  | call {callee tokens opening arguments middle paren rest} :
      Expression .call callee tokens (opening :: middle) → opening.kind = .symbol .leftParen →
      Listed (Expression .assignment) arguments middle (paren :: rest) →
      paren.kind = .symbol .rightParen → arguments.length ≤ argumentLimit →
      Expression .call (.call callee paren arguments) tokens rest
  | unary {operator operand tokens rest} :
      operator.kind = .symbol .bang ∨ operator.kind = .symbol .minus →
      Expression .unary operand tokens rest →
      Expression .unary (.unary (some operator) operand) (operator :: tokens) rest
  | binary {level left tokens operator right middle rest} :
      Expression level left tokens (operator :: middle) → operator.kind ∈ level.operators →
      Expression level.tighter right middle rest →
      Expression level (level.node left operator right) tokens rest
  | assign {name equals value tokens rest} :
      name.kind = .name → equals.kind = .symbol .equal →
      Expression .assignment value tokens rest →
      Expression .assignment (.assign (some name) value) (name :: equals :: tokens) rest
  | tighter {level expr tokens rest} :
      Expression level.tighter expr tokens rest → Expression level expr tokens rest

inductive OptionalExpression : Option Expr → List Token → List Token → Prop where
  | none {tokens} : OptionalExpression none tokens tokens
  | some {expr tokens rest} :
      Expression .assignment expr tokens rest → OptionalExpression (some expr) tokens rest

inductive Initializer : Option Expr → List Token → List Token → Prop where
  | none {tokens} : Initializer none tokens tokens
  | some {equals expr tokens rest} :
      equals.kind = .symbol .equal → Expression .assignment expr tokens rest →
      Initializer (some expr) (equals :: tokens) rest

inductive VariableDeclaration : Stmt → List Token → List Token → Prop where
  | intro {keyword name value tokens semicolon rest} :
      keyword.kind = .keyword .varWord → name.kind = .name →
      Initializer value tokens (semicolon :: rest) → semicolon.kind = .symbol .semicolon →
      VariableDeclaration (.variable name value) (keyword :: name :: tokens) rest

/-- Expressions that stand as statements. A missing one is the literal `nil`. -/
inductive ExpressionStatement : Stmt → List Token → List Token → Prop where
  | intro {value tokens semicolon rest} :
      OptionalExpression value tokens (semicolon :: rest) → semicolon.kind = .symbol .semicolon →
      ExpressionStatement (.expression (value.getD (.literal .nil))) tokens rest

inductive LoopInitializer : Stmt → List Token → List Token → Prop where
  | declared {stmt tokens rest} :
      VariableDeclaration stmt tokens rest → LoopInitializer stmt tokens rest
  | expression {stmt tokens rest} :
      ExpressionStatement stmt tokens rest → LoopInitializer stmt tokens rest

inductive Parameter : Token → List Token → List Token → Prop where
  | intro {name rest} : name.kind = .name → Parameter name (name :: rest) rest

/-- The body of a counting loop with the increment behind it, if there is one. -/
def withIncrement (body : Stmt) : Option Expr → Stmt
  | none => body
  | some increment => .block [body, .expression increment]

/-- What a statement is read as. A statement is complete unless it ends with a
conditional that has no alternative. -/
inductive Phrase where
  | declaration
  | statement (complete : Bool)
  deriving DecidableEq, Repr

mutual

/-- Declarations and statements, and whether they stand inside a function body.
A statement with an alternative behind it is complete, so an alternative
belongs to the nearest conditional that has none. -/
inductive Statement : Phrase → Bool → Stmt → List Token → List Token → Prop where
  | function {inBody keyword name opening parameters middle closing brace body tokens ending rest} :
      keyword.kind = .keyword .funWord → name.kind = .name →
      opening.kind = .symbol .leftParen →
      Listed Parameter parameters middle (closing :: brace :: tokens) →
      parameters.length ≤ argumentLimit → closing.kind = .symbol .rightParen →
      brace.kind = .symbol .leftBrace →
      Declarations true body tokens (ending :: rest) →
      ending.kind = .symbol .rightBrace →
      Statement .declaration inBody (.function name parameters body)
        (keyword :: name :: opening :: middle) rest
  | declared {inBody stmt tokens rest} :
      VariableDeclaration stmt tokens rest → Statement .declaration inBody stmt tokens rest
  | statement {complete inBody stmt tokens rest} :
      Statement (.statement complete) inBody stmt tokens rest →
      Statement .declaration inBody stmt tokens rest
  | counting {complete inBody keyword opening first tokens condition clauses semicolon increment
      steps closing body middle rest} :
      keyword.kind = .keyword .forWord → opening.kind = .symbol .leftParen →
      LoopInitializer first tokens clauses →
      OptionalExpression condition clauses (semicolon :: steps) →
      semicolon.kind = .symbol .semicolon →
      OptionalExpression increment steps (closing :: middle) →
      closing.kind = .symbol .rightParen →
      Statement (.statement complete) inBody body middle rest →
      Statement (.statement complete) inBody
        (.block [first, .loop keyword (condition.getD (.literal (.bool true)))
          (withIncrement body increment)])
        (keyword :: opening :: tokens) rest
  | conditional {complete inBody keyword opening condition tokens closing branch middle rest} :
      keyword.kind = .keyword .ifWord → opening.kind = .symbol .leftParen →
      Expression .assignment condition tokens (closing :: middle) →
      closing.kind = .symbol .rightParen →
      Statement (.statement complete) inBody branch middle rest →
      Statement (.statement false) inBody (.branch keyword condition branch none)
        (keyword :: opening :: tokens) rest
  | alternative {complete inBody keyword opening condition tokens closing branch middle word
      other later rest} :
      keyword.kind = .keyword .ifWord → opening.kind = .symbol .leftParen →
      Expression .assignment condition tokens (closing :: middle) →
      closing.kind = .symbol .rightParen →
      Statement (.statement true) inBody branch middle (word :: later) →
      word.kind = .keyword .elseWord →
      Statement (.statement complete) inBody other later rest →
      Statement (.statement complete) inBody (.branch keyword condition branch (some other))
        (keyword :: opening :: tokens) rest
  | print {inBody keyword value tokens semicolon rest} :
      keyword.kind = .keyword .printWord → OptionalExpression value tokens (semicolon :: rest) →
      semicolon.kind = .symbol .semicolon →
      Statement (.statement true) inBody (.print (value.getD (.literal .nil)))
        (keyword :: tokens) rest
  | returning {keyword value tokens semicolon rest} :
      keyword.kind = .keyword .returnWord → OptionalExpression value tokens (semicolon :: rest) →
      semicolon.kind = .symbol .semicolon →
      Statement (.statement true) true (.returning keyword value) (keyword :: tokens) rest
  | loop {complete inBody keyword opening condition tokens closing body middle rest} :
      keyword.kind = .keyword .whileWord → opening.kind = .symbol .leftParen →
      Expression .assignment condition tokens (closing :: middle) →
      closing.kind = .symbol .rightParen →
      Statement (.statement complete) inBody body middle rest →
      Statement (.statement complete) inBody (.loop keyword condition body)
        (keyword :: opening :: tokens) rest
  | block {inBody opening statements tokens ending rest} :
      opening.kind = .symbol .leftBrace →
      Declarations inBody statements tokens (ending :: rest) →
      ending.kind = .symbol .rightBrace →
      Statement (.statement true) inBody (.block statements) (opening :: tokens) rest
  | expression {inBody stmt tokens rest} :
      ExpressionStatement stmt tokens rest → Statement (.statement true) inBody stmt tokens rest

inductive Declarations : Bool → List Stmt → List Token → List Token → Prop where
  | nil {inBody tokens} : Declarations inBody [] tokens tokens
  | cons {inBody first others tokens middle rest} :
      Statement .declaration inBody first tokens middle → Declarations inBody others middle rest →
      Declarations inBody (first :: others) tokens rest

end

/-- Whole programs: declarations outside every function body, and nothing behind them. -/
def Program (statements : List Stmt) (tokens : List Token) : Prop :=
  Declarations false statements tokens []

/-! ## Induction -/

/-- Induction over an expression, with the arguments of a call as a list of
expressions of which the statement is known. -/
@[elab_as_elim]
theorem Expression.induct
    {motive : ∀ level expr tokens rest, Expression level expr tokens rest → Prop}
    (literal : ∀ {token : Token} {value rest} (denoted : token.literal? = some value),
      motive _ _ _ rest (.literal denoted))
    (named : ∀ {name : Token} {rest} (isName : name.kind = .name),
      motive _ _ _ rest (.named isName))
    (grouping : ∀ {opening : Token} {inner tokens closing rest} (opened : opening.kind = _)
      (derived : Expression .assignment inner tokens (closing :: rest)) (closed : closing.kind = _),
      motive _ _ _ _ derived → motive _ _ _ rest (.grouping opened derived closed))
    (call : ∀ {callee tokens opening arguments middle paren rest}
      (derived : Expression .call callee tokens (opening :: middle)) (opened : opening.kind = _)
      (listed : Listed (Expression .assignment) arguments middle (paren :: rest))
      (closed : paren.kind = _) (few : arguments.length ≤ argumentLimit),
      motive _ _ _ _ derived →
      Listed (fun value tokens rest => ∃ derived, motive .assignment value tokens rest derived)
        arguments middle (paren :: rest) →
      motive _ _ _ rest (.call derived opened listed closed few))
    (unary : ∀ {operator : Token} {operand tokens rest}
      (isUnary : operator.kind = _ ∨ operator.kind = _) (derived : Expression .unary operand tokens rest),
      motive _ _ _ _ derived → motive _ _ _ _ (.unary isUnary derived))
    (binary : ∀ {level left tokens operator right middle rest}
      (derivedLeft : Expression level left tokens (operator :: middle))
      (joins : operator.kind ∈ level.operators)
      (derivedRight : Expression level.tighter right middle rest),
      motive _ _ _ _ derivedLeft → motive _ _ _ _ derivedRight →
      motive _ _ _ _ (.binary derivedLeft joins derivedRight))
    (assign : ∀ {name equals : Token} {value tokens rest} (isName : name.kind = _)
      (isEqual : equals.kind = _) (derived : Expression .assignment value tokens rest),
      motive _ _ _ _ derived → motive _ _ _ _ (.assign isName isEqual derived))
    (tighter : ∀ {level expr tokens rest} (derived : Expression level.tighter expr tokens rest),
      motive _ _ _ _ derived → motive level _ _ _ (.tighter derived))
    {level : Level} {expr : Expr} {tokens rest : List Token}
    (derived : Expression level expr tokens rest) : motive level expr tokens rest derived :=
  @Expression.rec motive
    (fun values tokens rest _ =>
      Listed (fun value tokens rest => ∃ derived, motive .assignment value tokens rest derived)
        values tokens rest)
    (fun values tokens rest _ =>
      CommaSeparated
        (fun value tokens rest => ∃ derived, motive .assignment value tokens rest derived)
        values tokens rest)
    literal named grouping call unary binary assign tighter
    .none (fun _ held => .some held) (fun derived held => .single ⟨derived, held⟩)
    (fun derived comma _ held heldRest => .cons ⟨derived, held⟩ comma heldRest)
    level expr tokens rest derived

/-! ## What follows a phrase

A phrase takes at least one token, unless it may be missing.
-/

theorem CommaSeparated.length_le {α : Type} {item : α → List Token → List Token → Prop}
    (shrinks : ∀ {value tokens rest}, item value tokens rest → rest.length < tokens.length)
    {values : List α} {tokens rest : List Token}
    (derived : CommaSeparated item values tokens rest) : rest.length < tokens.length := by
  induction derived with
  | single first => exact shrinks first
  | cons first _ _ ih =>
      have shorter := shrinks first
      simp only [List.length_cons] at shorter
      omega

theorem Listed.length_le {α : Type} {item : α → List Token → List Token → Prop}
    (shrinks : ∀ {value tokens rest}, item value tokens rest → rest.length < tokens.length)
    {values : List α} {tokens rest : List Token}
    (derived : Listed item values tokens rest) : rest.length ≤ tokens.length := by
  cases derived with
  | none => exact Nat.le_refl _
  | some items => exact Nat.le_of_lt (items.length_le shrinks)

theorem Expression.length_lt {level : Level} {expr : Expr} {tokens rest : List Token}
    (derived : Expression level expr tokens rest) : rest.length < tokens.length := by
  induction derived using Expression.induct with
  | literal _ | named _ => simp
  | grouping _ _ _ ih => simp only [List.length_cons] at ih ⊢; omega
  | call _ _ _ _ _ ihCallee ihArguments =>
      have := ihArguments.length_le (fun ⟨_, held⟩ => held)
      simp only [List.length_cons] at ihCallee this
      omega
  | unary _ _ ih => simp only [List.length_cons]; omega
  | binary _ _ _ ihLeft ihRight => simp only [List.length_cons] at ihLeft; omega
  | assign _ _ _ ih => simp only [List.length_cons]; omega
  | tighter _ ih => exact ih

theorem OptionalExpression.length_le {value : Option Expr} {tokens rest : List Token}
    (derived : OptionalExpression value tokens rest) : rest.length ≤ tokens.length := by
  cases derived with
  | none => exact Nat.le_refl _
  | some expr => exact Nat.le_of_lt expr.length_lt

theorem Initializer.length_le {value : Option Expr} {tokens rest : List Token}
    (derived : Initializer value tokens rest) : rest.length ≤ tokens.length := by
  cases derived with
  | none => exact Nat.le_refl _
  | some _ expr =>
      have := expr.length_lt
      simp only [List.length_cons]
      omega

theorem VariableDeclaration.length_lt {stmt : Stmt} {tokens rest : List Token}
    (derived : VariableDeclaration stmt tokens rest) : rest.length < tokens.length := by
  cases derived with
  | intro _ _ value _ =>
      have := value.length_le
      simp only [List.length_cons] at this ⊢
      omega

theorem ExpressionStatement.length_lt {stmt : Stmt} {tokens rest : List Token}
    (derived : ExpressionStatement stmt tokens rest) : rest.length < tokens.length := by
  cases derived with
  | intro value _ => exact value.length_le

theorem LoopInitializer.length_lt {stmt : Stmt} {tokens rest : List Token}
    (derived : LoopInitializer stmt tokens rest) : rest.length < tokens.length := by
  cases derived with
  | declared declaration => exact declaration.length_lt
  | expression value => exact value.length_lt

theorem Parameter.length_lt {name : Token} {tokens rest : List Token}
    (derived : Parameter name tokens rest) : rest.length < tokens.length := by
  cases derived with
  | intro _ => simp

mutual

theorem Statement.length_lt : ∀ {phrase : Phrase} {inBody : Bool} {stmt : Stmt}
    {tokens rest : List Token}, Statement phrase inBody stmt tokens rest →
    rest.length < tokens.length
  | _, _, _, _, _, .function _ _ _ parameters _ _ _ body _ => by
      have := parameters.length_le Parameter.length_lt
      have := body.length_le
      simp only [List.length_cons] at *
      omega
  | _, _, _, _, _, .declared declaration => declaration.length_lt
  | _, _, _, _, _, .statement derived => derived.length_lt
  | _, _, _, _, _, .counting _ _ first condition _ increment _ body => by
      have := first.length_lt
      have := condition.length_le
      have := increment.length_le
      have := body.length_lt
      simp only [List.length_cons] at *
      omega
  | _, _, _, _, _, .conditional _ _ condition _ branch => by
      have := condition.length_lt
      have := branch.length_lt
      simp only [List.length_cons] at *
      omega
  | _, _, _, _, _, .alternative _ _ condition _ branch _ other => by
      have := condition.length_lt
      have := branch.length_lt
      have := other.length_lt
      simp only [List.length_cons] at *
      omega
  | _, _, _, _, _, .print _ value _ => by
      have := value.length_le
      simp only [List.length_cons] at *
      omega
  | _, _, _, _, _, .returning _ value _ => by
      have := value.length_le
      simp only [List.length_cons] at *
      omega
  | _, _, _, _, _, .loop _ _ condition _ body => by
      have := condition.length_lt
      have := body.length_lt
      simp only [List.length_cons] at *
      omega
  | _, _, _, _, _, .block _ statements _ => by
      have := statements.length_le
      simp only [List.length_cons] at *
      omega
  | _, _, _, _, _, .expression value => value.length_lt

theorem Declarations.length_le : ∀ {inBody : Bool} {statements : List Stmt}
    {tokens rest : List Token}, Declarations inBody statements tokens rest →
    rest.length ≤ tokens.length
  | _, _, _, _, .nil => Nat.le_refl _
  | _, _, _, _, .cons first others => by
      have := first.length_lt
      have := others.length_le
      omega

end

/-! ## How a phrase begins -/

end Grammar

/-- Whether a token of this kind can begin the operand of a unary operator. -/
def TokenKind.opensOperand : TokenKind → Bool
  | .name | .number _ | .string _ | .symbol .leftParen => true
  | .keyword .trueWord | .keyword .falseWord | .keyword .nilWord => true
  | _ => false

def TokenKind.opensExpression : TokenKind → Bool
  | .symbol .bang | .symbol .minus => true
  | kind => kind.opensOperand

theorem TokenKind.opensExpression_of_opensOperand {kind : TokenKind}
    (opens : kind.opensOperand = true) : kind.opensExpression = true := by
  unfold opensExpression
  split
  · rfl
  · rfl
  · exact opens

theorem Token.opensOperand_of_literal? {token : Token} {value : Literal}
    (denoted : token.literal? = some value) : token.kind.opensOperand = true := by
  unfold literal? TokenKind.literal? at denoted
  split at denoted <;> simp_all [TokenKind.opensOperand]

namespace Grammar

theorem Expression.opens {level : Level} {expr : Expr} {tokens rest : List Token}
    (derived : Expression level expr tokens rest) :
    ∃ first later, tokens = first :: later ∧ first.kind.opensExpression = true ∧
      (level = .call ∨ level = .primary → first.kind.opensOperand = true) := by
  induction derived using Expression.induct with
  | literal denoted =>
      have opens := Token.opensOperand_of_literal? denoted
      exact ⟨_, _, rfl, TokenKind.opensExpression_of_opensOperand opens, fun _ => opens⟩
  | named isName => exact ⟨_, _, rfl, by rw [isName]; rfl, fun _ => by rw [isName]; rfl⟩
  | grouping opened => exact ⟨_, _, rfl, by rw [opened]; rfl, fun _ => by rw [opened]; rfl⟩
  | call _ _ _ _ _ ih _ => exact ih
  | unary isUnary _ _ =>
      refine ⟨_, _, rfl, ?_, by simp⟩
      rcases isUnary with isBang | isMinus
      · rw [isBang]; rfl
      · rw [isMinus]; rfl
  | @binary level _ _ _ _ _ _ _ joins _ ihLeft _ =>
      obtain ⟨first, later, split, opens, _⟩ := ihLeft
      refine ⟨first, later, split, opens, ?_⟩
      rintro (rfl | rfl) <;> simp [Level.operators] at joins
  | assign isName _ _ _ => exact ⟨_, _, rfl, by rw [isName]; rfl, by simp⟩
  | @tighter level _ _ _ _ ih =>
      obtain ⟨first, later, split, opens, operand⟩ := ih
      refine ⟨first, later, split, opens, ?_⟩
      rintro (rfl | rfl)
      · exact operand (.inr rfl)
      · exact operand (.inr rfl)

theorem ExpressionStatement.opens {stmt : Stmt} {tokens rest : List Token}
    (derived : ExpressionStatement stmt tokens rest) :
    ∃ first later, tokens = first :: later ∧
      (first.kind.opensExpression = true ∨ first.kind = .symbol .semicolon) := by
  cases derived with
  | intro value semicolon =>
      cases value with
      | none => exact ⟨_, _, rfl, .inr semicolon⟩
      | some expr =>
          obtain ⟨first, later, split, opens, _⟩ := expr.opens
          exact ⟨first, later, split, .inl opens⟩

/-- Whether a token of this kind neither ends a block nor begins an alternative. -/
def goesOn (kind : TokenKind) : Prop :=
  kind ≠ .keyword .elseWord ∧ kind ≠ .symbol .rightBrace

theorem Statement.opens {complete inBody : Bool} {stmt : Stmt} {tokens rest : List Token}
    (derived : Statement (.statement complete) inBody stmt tokens rest) :
    ∃ first later, tokens = first :: later ∧ goesOn first.kind ∧
      first.kind ≠ .keyword .funWord ∧ first.kind ≠ .keyword .varWord := by
  cases derived with
  | counting word | conditional word | alternative word | print word | returning word
  | loop word | block word => exact ⟨_, _, rfl, by simp [goesOn, word]⟩
  | expression value =>
      obtain ⟨first, later, split, opens⟩ := value.opens
      refine ⟨first, later, split, ⟨?_, ?_⟩, ?_, ?_⟩
      all_goals
        intro same
        simp [same, TokenKind.opensExpression, TokenKind.opensOperand] at opens

theorem Statement.declaration_opens {inBody : Bool} {stmt : Stmt} {tokens rest : List Token}
    (derived : Statement .declaration inBody stmt tokens rest) :
    ∃ first later, tokens = first :: later ∧ goesOn first.kind := by
  cases derived with
  | function word => exact ⟨_, _, rfl, by simp [goesOn, word]⟩
  | declared declaration =>
      cases declaration with
      | intro word => exact ⟨_, _, rfl, by simp [goesOn, word]⟩
  | statement derived =>
      obtain ⟨first, later, split, opens, _⟩ := derived.opens
      exact ⟨first, later, split, opens⟩

end Grammar

end Lox
