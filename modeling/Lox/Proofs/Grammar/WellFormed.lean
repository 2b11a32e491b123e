import Lox.Proofs.Grammar.Acceptance
import Lox.Proofs.Syntax.Parsed
import Lox.Program

/-!
# What is parsed is well formed

Every tree of the grammar is made of the tokens of its phrase, wherever the
phrase stands, and it is well formed. So a source that is not rejected gives
well-formed statements, with tokens of the source only.
-/

set_option autoImplicit false

namespace Lox

section Levels

variable {origin : Token → Prop}

theorem Level.operators_logical :
    ∀ level ∈ [disjunction, conjunction], ∀ kind ∈ level.operators,
      kind ∈ TokenKind.logicalOperators := by
  decide

theorem Level.operators_binary :
    ∀ level ∈ [equality, comparison, term, factor], ∀ kind ∈ level.operators,
      kind ∈ TokenKind.binaryOperators := by
  decide

theorem Level.node_parsed {level : Level} {operator : Token} {left right : Expr}
    (joins : operator.kind ∈ level.operators) (known : origin operator)
    (parsedLeft : left.Parsed origin) (parsedRight : right.Parsed origin) :
    (level.node left operator right).Parsed origin := by
  cases level with
  | assignment | unary | call | primary => simp [Level.operators] at joins
  | disjunction | conjunction =>
      have isLogical := Level.operators_logical _ (by decide) _ joins
      exact .logical isLogical known parsedLeft parsedRight
  | equality | comparison | term | factor =>
      have isBinary := Level.operators_binary _ (by decide) _ joins
      exact .binary isBinary known parsedLeft parsedRight

end Levels

namespace Grammar

/-- Of a phrase whose tokens are all of an origin something holds, and the
tokens behind it are of the origin too. -/
def Yields (origin : Token → Prop) (tokens rest : List Token) (holds : Prop) : Prop :=
  (∀ token ∈ tokens, origin token) → holds ∧ ∀ token ∈ rest, origin token

variable {origin : Token → Prop}

theorem CommaSeparated.yields {α : Type} {item : α → List Token → List Token → Prop}
    {good : α → Prop}
    (each : ∀ value tokens rest, item value tokens rest → Yields origin tokens rest (good value))
    {values : List α} {tokens rest : List Token} (derived : CommaSeparated item values tokens rest) :
    Yields origin tokens rest (∀ value ∈ values, good value) := by
  induction derived with
  | single first =>
      intro known
      simpa using each _ _ _ first known
  | cons first _ _ ih =>
      intro known
      obtain ⟨goodFirst, later⟩ := each _ _ _ first known
      obtain ⟨goodOthers, later⟩ := ih (List.forall_mem_cons.mp later).2
      exact ⟨List.forall_mem_cons.mpr ⟨goodFirst, goodOthers⟩, later⟩

theorem Listed.yields {α : Type} {item : α → List Token → List Token → Prop} {good : α → Prop}
    (each : ∀ value tokens rest, item value tokens rest → Yields origin tokens rest (good value))
    {values : List α} {tokens rest : List Token} (derived : Listed item values tokens rest) :
    Yields origin tokens rest (∀ value ∈ values, good value) := by
  cases derived with
  | none => exact fun known => ⟨by simp, known⟩
  | some items => exact items.yields each

theorem Expression.parsed {level : Level} {expr : Expr} {tokens rest : List Token}
    (derived : Expression level expr tokens rest) :
    Yields origin tokens rest (expr.Parsed origin) := by
  induction derived using Expression.induct with
  | literal denoted =>
      intro known
      obtain ⟨token, later⟩ := List.forall_mem_cons.mp known
      exact ⟨.literal (.inl ⟨_, token, denoted⟩), later⟩
  | named isName =>
      intro known
      obtain ⟨name, later⟩ := List.forall_mem_cons.mp known
      exact ⟨.variable name isName, later⟩
  | grouping _ _ _ ih =>
      intro known
      obtain ⟨inner, later⟩ := ih (List.forall_mem_cons.mp known).2
      exact ⟨.grouping inner, (List.forall_mem_cons.mp later).2⟩
  | call _ _ _ _ _ ihCallee ihArguments =>
      intro known
      obtain ⟨callee, later⟩ := ihCallee known
      obtain ⟨arguments, later⟩ :=
        ihArguments.yields (fun _ _ _ ⟨_, held⟩ => held) (List.forall_mem_cons.mp later).2
      obtain ⟨paren, later⟩ := List.forall_mem_cons.mp later
      exact ⟨.call paren callee arguments, later⟩
  | unary isUnary _ ih =>
      intro known
      obtain ⟨operator, later⟩ := List.forall_mem_cons.mp known
      obtain ⟨operand, later⟩ := ih later
      exact ⟨.unary (by simpa [TokenKind.unaryOperators] using isUnary) operator operand, later⟩
  | binary _ joins _ ihLeft ihRight =>
      intro known
      obtain ⟨left, later⟩ := ihLeft known
      obtain ⟨operator, later⟩ := List.forall_mem_cons.mp later
      obtain ⟨right, later⟩ := ihRight later
      exact ⟨Level.node_parsed joins operator left right, later⟩
  | assign isName _ _ ih =>
      intro known
      obtain ⟨name, later⟩ := List.forall_mem_cons.mp known
      obtain ⟨value, later⟩ := ih (List.forall_mem_cons.mp later).2
      exact ⟨.assign name isName value, later⟩
  | tighter _ ih => exact ih

theorem OptionalExpression.parsed {value : Option Expr} {tokens rest : List Token}
    (derived : OptionalExpression value tokens rest) :
    Yields origin tokens rest (∀ expr ∈ value, expr.Parsed origin) := by
  cases derived with
  | none => exact fun known => ⟨by simp, known⟩
  | some expr =>
      intro known
      simpa using expr.parsed known

theorem OptionalExpression.getD_parsed {value : Option Expr} {tokens rest : List Token}
    (derived : OptionalExpression value tokens rest) {default : Literal}
    (leftOut : default = .nil ∨ default = .bool true) :
    Yields origin tokens rest ((value.getD (.literal default)).Parsed origin) := by
  cases derived with
  | none => exact fun known => ⟨.literal (.inr leftOut), known⟩
  | some expr => exact expr.parsed

theorem Initializer.parsed {value : Option Expr} {tokens rest : List Token}
    (derived : Initializer value tokens rest) :
    Yields origin tokens rest (∀ expr ∈ value, expr.Parsed origin) := by
  cases derived with
  | none => exact fun known => ⟨by simp, known⟩
  | some _ expr =>
      intro known
      simpa using expr.parsed (List.forall_mem_cons.mp known).2

variable {inBody : Bool}

theorem VariableDeclaration.parsed {stmt : Stmt} {tokens rest : List Token}
    (derived : VariableDeclaration stmt tokens rest) :
    Yields origin tokens rest (stmt.Parsed origin inBody) := by
  cases derived with
  | intro _ isName value _ =>
      intro known
      obtain ⟨_, name, known⟩ :=
        List.forall_mem_cons.mp known |>.imp_right List.forall_mem_cons.mp
      obtain ⟨value, later⟩ := value.parsed known
      exact ⟨.variable name isName value, (List.forall_mem_cons.mp later).2⟩

theorem ExpressionStatement.parsed {stmt : Stmt} {tokens rest : List Token}
    (derived : ExpressionStatement stmt tokens rest) :
    Yields origin tokens rest (stmt.Parsed origin inBody) := by
  cases derived with
  | intro value _ =>
      intro known
      obtain ⟨value, later⟩ := value.getD_parsed (.inl rfl) known
      exact ⟨.expression value, (List.forall_mem_cons.mp later).2⟩

theorem LoopInitializer.parsed {stmt : Stmt} {tokens rest : List Token}
    (derived : LoopInitializer stmt tokens rest) :
    Yields origin tokens rest (stmt.Parsed origin inBody) := by
  cases derived with
  | declared declaration => exact declaration.parsed
  | expression value => exact value.parsed

theorem Parameter.yields {name : Token} {tokens rest : List Token}
    (derived : Parameter name tokens rest) :
    Yields origin tokens rest (origin name ∧ name.kind = .name) := by
  cases derived with
  | intro isName =>
      intro known
      obtain ⟨name, later⟩ := List.forall_mem_cons.mp known
      exact ⟨⟨name, isName⟩, later⟩

theorem withIncrement_parsed {body : Stmt} {increment : Option Expr}
    (parsed : body.Parsed origin inBody)
    (given : ∀ expr ∈ increment, expr.Parsed origin) :
    (withIncrement body increment).Parsed origin inBody := by
  cases increment with
  | none => exact parsed
  | some increment => exact .pair parsed (.expression (given increment rfl))

mutual

theorem Statement.parsed : ∀ {phrase : Phrase} {inBody : Bool} {stmt : Stmt}
    {tokens rest : List Token}, Statement phrase inBody stmt tokens rest →
    Yields origin tokens rest (stmt.Parsed origin inBody)
  | _, _, _, _, _, .function _ isName _ parameters _ _ _ body _ => by
      intro known
      simp only [List.forall_mem_cons] at known
      obtain ⟨parameters, later⟩ := parameters.yields (fun _ _ _ name => Parameter.yields name) known.2.2.2
      simp only [List.forall_mem_cons] at later
      obtain ⟨body, later⟩ := body.parsed later.2.2
      exact ⟨.function known.2.1 isName parameters body, (List.forall_mem_cons.mp later).2⟩
  | _, _, _, _, _, .declared declaration => declaration.parsed
  | _, _, _, _, _, .statement derived => derived.parsed
  | _, inBody, _, _, _, .counting _ _ first condition _ increment _ body => by
      intro known
      simp only [List.forall_mem_cons] at known
      obtain ⟨first, later⟩ := @LoopInitializer.parsed origin inBody _ _ _ first known.2.2
      obtain ⟨condition, later⟩ := condition.getD_parsed (.inr rfl) later
      obtain ⟨increment, later⟩ := increment.parsed (List.forall_mem_cons.mp later).2
      obtain ⟨body, later⟩ := body.parsed (List.forall_mem_cons.mp later).2
      have body := withIncrement_parsed body increment
      exact ⟨.pair first (.loop known.1 condition body), later⟩
  | _, _, _, _, _, .conditional _ _ condition _ branch => by
      intro known
      simp only [List.forall_mem_cons] at known
      obtain ⟨condition, later⟩ := condition.parsed known.2.2
      obtain ⟨branch, later⟩ := branch.parsed (List.forall_mem_cons.mp later).2
      exact ⟨.branch known.1 condition branch (by simp), later⟩
  | _, _, _, _, _, .alternative _ _ condition _ branch _ other => by
      intro known
      simp only [List.forall_mem_cons] at known
      obtain ⟨condition, later⟩ := condition.parsed known.2.2
      obtain ⟨branch, later⟩ := branch.parsed (List.forall_mem_cons.mp later).2
      obtain ⟨other, later⟩ := other.parsed (List.forall_mem_cons.mp later).2
      exact ⟨.branch known.1 condition branch (by simpa using other), later⟩
  | _, _, _, _, _, .print _ value _ => by
      intro known
      obtain ⟨value, later⟩ := value.getD_parsed (.inl rfl) (List.forall_mem_cons.mp known).2
      exact ⟨.print value, (List.forall_mem_cons.mp later).2⟩
  | _, _, _, _, _, .returning _ value _ => by
      intro known
      obtain ⟨value, later⟩ := value.parsed (List.forall_mem_cons.mp known).2
      exact ⟨.returning value, (List.forall_mem_cons.mp later).2⟩
  | _, _, _, _, _, .loop _ _ condition _ body => by
      intro known
      simp only [List.forall_mem_cons] at known
      obtain ⟨condition, later⟩ := condition.parsed known.2.2
      obtain ⟨body, later⟩ := body.parsed (List.forall_mem_cons.mp later).2
      exact ⟨.loop known.1 condition body, later⟩
  | _, _, _, _, _, .block _ statements _ => by
      intro known
      obtain ⟨statements, later⟩ := statements.parsed (List.forall_mem_cons.mp known).2
      exact ⟨.block statements, (List.forall_mem_cons.mp later).2⟩
  | _, _, _, _, _, .expression value => value.parsed

theorem Declarations.parsed : ∀ {inBody : Bool} {statements : List Stmt}
    {tokens rest : List Token}, Declarations inBody statements tokens rest →
    Yields origin tokens rest (∀ stmt ∈ statements, stmt.Parsed origin inBody)
  | _, _, _, _, .nil => fun known => ⟨by simp, known⟩
  | _, _, _, _, .cons first others => by
      intro known
      obtain ⟨first, later⟩ := first.parsed known
      obtain ⟨others, later⟩ := others.parsed later
      exact ⟨List.forall_mem_cons.mpr ⟨first, others⟩, later⟩

end

/-- Programs are well formed. -/
theorem Program.wellFormed {statements : List Stmt} {tokens : List Token}
    (derived : Program statements tokens) (known : ∀ token ∈ tokens, origin token) :
    ∀ stmt ∈ statements, stmt.WellFormed origin false := fun stmt member =>
  ((Declarations.parsed derived known).1 stmt member).wellFormed

end Grammar

/-- What a token list is parsed as is well formed, and points at tokens of the list only. -/
theorem parseTokens_wellFormed {tokens : List Token} (accepted : (parseTokens tokens).error = none) :
    ∀ stmt ∈ (parseTokens tokens).statements, stmt.WellFormed (· ∈ tokens) false := by
  have succeeded : (Parse.ofBody (bodyOf tokens)).failure = none := by
    simpa [parseTokens] using accepted
  have derived := Parse.ofBody_iff_program.mp ⟨succeeded, rfl⟩
  have known : ∀ token ∈ bodyOf tokens, token ∈ tokens :=
    fun _ member => (List.takeWhile_sublist _).subset member
  exact derived.wellFormed known

def tokensOf (source : String) : List Token := Item.tokens (Scanner.ofSource source).scan.items

/-! ## Sources -/

theorem ParsedTokens.result_eq_ok_iff {parsed : ParsedTokens} {statements : List Stmt} :
    parsed.result = .ok statements ↔ parsed.error = none ∧ parsed.statements = statements := by
  rw [result]
  cases parsed.error <;> simp

theorem ParsedTokens.result_eq_error_iff {parsed : ParsedTokens} {errors : List Error} :
    parsed.result = .error errors ↔
      ∃ error, parsed.error = some error ∧ errors = [.syntactic error] := by
  rw [result]
  cases parsed.error <;> simp [eq_comm]

theorem parse_accepts_iff {source : String} {statements : List Stmt} :
    parse source = .ok statements ↔
      Item.errors (Scanner.ofSource source).scan.items = [] ∧
        (parseTokens (tokensOf source)).error = none ∧
          (parseTokens (tokensOf source)).statements = statements := by
  simp only [parse, check, tokensOf]
  split
  · next noErrors =>
    rw [ParsedTokens.result_eq_ok_iff]
    simp only [noErrors, true_and]
  · next hasErrors =>
    simp only [reduceCtorEq, false_iff, not_and]
    exact fun noErrors => absurd noErrors hasErrors

/-- A source is rejected for its lexical errors, or if there are none for a syntax error. -/
theorem parse_rejects_iff {source : String} {errors : List Error} :
    parse source = .error errors ↔
      let lexical := Item.errors (Scanner.ofSource source).scan.items
      (lexical ≠ [] ∧ errors = lexical.map .lexical) ∨
        (lexical = [] ∧ ∃ error, (parseTokens (tokensOf source)).error = some error ∧
          errors = [.syntactic error]) := by
  simp only [parse, check, tokensOf]
  split
  · next noErrors => simp [noErrors, ParsedTokens.result_eq_error_iff]
  · next hasErrors =>
    constructor
    · intro rejected
      exact .inl ⟨hasErrors, (Except.error.inj rejected).symm⟩
    · rintro (⟨-, rfl⟩ | ⟨noErrors, -⟩)
      · rfl
      · exact absurd noErrors hasErrors

/-- What a source is parsed as is well formed, and points at tokens of the source only. -/
theorem parse_wellFormed {source : String} {statements : List Stmt}
    (parsed : parse source = .ok statements) :
    ∀ stmt ∈ statements, stmt.WellFormed (· ∈ tokensOf source) false := by
  obtain ⟨-, accepted, rfl⟩ := parse_accepts_iff.mp parsed
  exact parseTokens_wellFormed accepted

theorem isStatic_of_parse {source : String} {errors : List Error}
    (rejected : parse source = .error errors) : ∀ error ∈ errors, error.isStatic = true := by
  obtain ⟨-, rfl⟩ | ⟨-, error, -, rfl⟩ := parse_rejects_iff.mp rejected
  · simp [Error.isStatic]
  · simp [Error.isStatic]

end Lox
