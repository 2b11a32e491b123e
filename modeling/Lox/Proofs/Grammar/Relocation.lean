import Lox.Proofs.Grammar.Acceptance
import Lox.Proofs.Grammar.Layout

/-!
# Phrases elsewhere

The grammar looks at nothing behind a phrase and at nothing of a token but its
kind and text. So a phrase stays one with more tokens behind it, and a program
stays one with the same tokens at other places; its statements are then alike.
-/

set_option autoImplicit false

namespace Lox

namespace Grammar

/-! ## More tokens behind a phrase -/

section Behind

theorem CommaSeparated.append {α : Type} {item item' : α → List Token → List Token → Prop}
    {more : List Token}
    (each : ∀ value tokens rest, item value tokens rest →
      item' value (tokens ++ more) (rest ++ more))
    {values : List α} {tokens rest : List Token}
    (derived : CommaSeparated item values tokens rest) :
    CommaSeparated item' values (tokens ++ more) (rest ++ more) := by
  induction derived with
  | single first => exact .single (each _ _ _ first)
  | cons first isComma _ ih => exact .cons (each _ _ _ first) isComma ih

theorem Listed.append {α : Type} {item item' : α → List Token → List Token → Prop}
    {more : List Token}
    (each : ∀ value tokens rest, item value tokens rest →
      item' value (tokens ++ more) (rest ++ more))
    {values : List α} {tokens rest : List Token} (derived : Listed item values tokens rest) :
    Listed item' values (tokens ++ more) (rest ++ more) := by
  cases derived with
  | none => exact .none
  | some items => exact .some (items.append each)

variable (more : List Token)

theorem Expression.append {level : Level} {expr : Expr} {tokens rest : List Token}
    (derived : Expression level expr tokens rest) :
    Expression level expr (tokens ++ more) (rest ++ more) := by
  induction derived using Expression.induct with
  | literal denoted => exact .literal denoted
  | named isName => exact .named isName
  | grouping opened _ closed ih => exact .grouping opened ih closed
  | call _ opened _ closed few ihCallee ihArguments =>
      exact .call ihCallee opened (ihArguments.append fun _ _ _ ⟨_, held⟩ => held) closed few
  | unary isUnary _ ih => exact .unary isUnary ih
  | binary _ joins _ ihLeft ihRight => exact .binary ihLeft joins ihRight
  | assign isName isEqual _ ih => exact .assign isName isEqual ih
  | tighter _ ih => exact .tighter ih

theorem OptionalExpression.append {value : Option Expr} {tokens rest : List Token}
    (derived : OptionalExpression value tokens rest) :
    OptionalExpression value (tokens ++ more) (rest ++ more) := by
  cases derived with
  | none => exact .none
  | some expr => exact .some (expr.append more)

theorem Initializer.append {value : Option Expr} {tokens rest : List Token}
    (derived : Initializer value tokens rest) :
    Initializer value (tokens ++ more) (rest ++ more) := by
  cases derived with
  | none => exact .none
  | some isEqual expr => exact .some isEqual (expr.append more)

theorem VariableDeclaration.append {stmt : Stmt} {tokens rest : List Token}
    (derived : VariableDeclaration stmt tokens rest) :
    VariableDeclaration stmt (tokens ++ more) (rest ++ more) := by
  cases derived with
  | intro word isName value ended => exact .intro word isName (value.append more) ended

theorem ExpressionStatement.append {stmt : Stmt} {tokens rest : List Token}
    (derived : ExpressionStatement stmt tokens rest) :
    ExpressionStatement stmt (tokens ++ more) (rest ++ more) := by
  cases derived with
  | intro value ended => exact .intro (value.append more) ended

theorem LoopInitializer.append {stmt : Stmt} {tokens rest : List Token}
    (derived : LoopInitializer stmt tokens rest) :
    LoopInitializer stmt (tokens ++ more) (rest ++ more) := by
  cases derived with
  | declared declaration => exact .declared (declaration.append more)
  | expression value => exact .expression (value.append more)

theorem Parameter.append {name : Token} {tokens rest : List Token}
    (derived : Parameter name tokens rest) : Parameter name (tokens ++ more) (rest ++ more) := by
  cases derived with
  | intro isName => exact .intro isName

mutual

theorem Statement.append : ∀ {phrase : Phrase} {inBody : Bool} {stmt : Stmt}
    {tokens rest : List Token}, Statement phrase inBody stmt tokens rest →
    Statement phrase inBody stmt (tokens ++ more) (rest ++ more)
  | _, _, _, _, _, .function word isName opened parameters few closed brace body ended => by
      have parameters := @Listed.append Token Parameter Parameter more
        (fun _ _ _ => Parameter.append more) _ _ _ parameters
      exact .function word isName opened parameters few closed brace body.append ended
  | _, _, _, _, _, .declared declaration => .declared (declaration.append more)
  | _, _, _, _, _, .statement derived => .statement derived.append
  | _, _, _, _, _, .counting word opened first condition ended increment closed body =>
      .counting word opened (first.append more) (condition.append more) ended
        (increment.append more) closed body.append
  | _, _, _, _, _, .conditional word opened condition closed branch =>
      .conditional word opened (condition.append more) closed branch.append
  | _, _, _, _, _, .alternative word opened condition closed branch otherwise other =>
      .alternative word opened (condition.append more) closed branch.append otherwise other.append
  | _, _, _, _, _, .print word value ended => .print word (value.append more) ended
  | _, _, _, _, _, .returning word value ended => .returning word (value.append more) ended
  | _, _, _, _, _, .loop word opened condition closed body =>
      .loop word opened (condition.append more) closed body.append
  | _, _, _, _, _, .block opened statements ended => .block opened statements.append ended
  | _, _, _, _, _, .expression value => .expression (value.append more)

/-- Declarations stay declarations with more tokens behind them. -/
theorem Declarations.append : ∀ {inBody : Bool} {statements : List Stmt}
    {tokens rest : List Token}, Declarations inBody statements tokens rest →
    Declarations inBody statements (tokens ++ more) (rest ++ more)
  | _, _, _, _, .nil => .nil
  | _, _, _, _, .cons first others => .cons first.append others.append

end

end Behind

/-! ## The same tokens elsewhere -/

/-- A program elsewhere is a program, of alike statements. -/
theorem Program.relocates {like : Token → Token → Prop} (written : Token.WrittenAlike like)
    {statements : List Stmt} {tokens tokens' : List Token} (derived : Program statements tokens)
    (likely : List.Forall₂ like tokens tokens') :
    ∃ statements', Program statements' tokens' ∧
      List.Forall₂ (Stmt.Alike like) statements statements' := by
  obtain ⟨succeeded, parsed⟩ := Parse.ofBody_iff_program.mpr derived
  have parses := Parse.ofBody_alike written likely
  refine ⟨_, Parse.ofBody_iff_program.mp ⟨?_, rfl⟩, parsed ▸ parses.statements⟩
  exact parses.succeeds succeeded

/-! ## Programs behind programs -/

theorem Declarations.followed {inBody : Bool} {first second : List Stmt}
    {tokens middle rest : List Token} (derived : Declarations inBody first tokens middle)
    (later : Declarations inBody second middle rest) :
    Declarations inBody (first ++ second) tokens rest := by
  induction first generalizing tokens with
  | nil =>
      cases derived with
      | nil => exact later
  | cons stmt others ih =>
      cases derived with
      | cons begun others => exact .cons begun (ih others)

/-- Of two programs, one behind the other is a program. -/
theorem Program.followed {first second : List Stmt} {tokens more : List Token}
    (derived : Program first tokens) (later : Program second more) :
    Program (first ++ second) (tokens ++ more) :=
  (Declarations.append more derived).followed later

end Grammar

end Lox
