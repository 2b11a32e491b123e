import Mathlib.Data.List.Forall2
import Lox.Syntax.Tree

/-!
# Alike trees

Two trees are alike if they differ in their tokens only, each token being
related to the one in its place. The relation on tokens is left open; what is
said of evaluation needs no more than that related tokens are written alike,
so that trees read from two places of a source can be compared.
-/

set_option autoImplicit false

namespace Lox

/-- Related tokens differ in their places at most. -/
def Token.WrittenAlike (like : Token → Token → Prop) : Prop :=
  ∀ left right, like left right → right.kind = left.kind ∧ right.lexeme = left.lexeme

section Definitions

variable (like : Token → Token → Prop)

inductive Expr.Alike : Expr → Expr → Prop where
  | literal {value} : Alike (.literal value) (.literal value)
  | variable {name name'} : like name name' → Alike (.variable name) (.variable name')
  | assign {name name' value value'} :
      Option.Rel like name name' → Alike value value' →
      Alike (.assign name value) (.assign name' value')
  | unary {operator operator' operand operand'} :
      Option.Rel like operator operator' → Alike operand operand' →
      Alike (.unary operator operand) (.unary operator' operand')
  | binary {left left' operator operator' right right'} :
      Alike left left' → like operator operator' → Alike right right' →
      Alike (.binary left operator right) (.binary left' operator' right')
  | logical {left left' operator operator' right right'} :
      Alike left left' → like operator operator' → Alike right right' →
      Alike (.logical left operator right) (.logical left' operator' right')
  | call {callee callee' paren paren' arguments arguments'} :
      Alike callee callee' → like paren paren' → List.Forall₂ Alike arguments arguments' →
      Alike (.call callee paren arguments) (.call callee' paren' arguments')
  | grouping {inner inner'} : Alike inner inner' → Alike (.grouping inner) (.grouping inner')

inductive Stmt.Alike : Stmt → Stmt → Prop where
  | expression {value value'} :
      Expr.Alike like value value' → Alike (.expression value) (.expression value')
  | print {value value'} : Expr.Alike like value value' → Alike (.print value) (.print value')
  | variable {name name' initializer initializer'} :
      like name name' → Option.Rel (Expr.Alike like) initializer initializer' →
      Alike (.variable name initializer) (.variable name' initializer')
  | block {statements statements'} :
      List.Forall₂ Alike statements statements' → Alike (.block statements) (.block statements')
  | branch {keyword keyword' condition condition' thenBranch thenBranch' elseBranch elseBranch'} :
      like keyword keyword' → Expr.Alike like condition condition' →
      Alike thenBranch thenBranch' → Option.Rel Alike elseBranch elseBranch' →
      Alike (.branch keyword condition thenBranch elseBranch)
        (.branch keyword' condition' thenBranch' elseBranch')
  | loop {keyword keyword' condition condition' body body'} :
      like keyword keyword' → Expr.Alike like condition condition' → Alike body body' →
      Alike (.loop keyword condition body) (.loop keyword' condition' body')
  | function {name name' parameters parameters' body body'} :
      like name name' → List.Forall₂ like parameters parameters' → List.Forall₂ Alike body body' →
      Alike (.function name parameters body) (.function name' parameters' body')
  | returning {keyword keyword' value value'} :
      like keyword keyword' → Option.Rel (Expr.Alike like) value value' →
      Alike (.returning keyword value) (.returning keyword' value')

end Definitions

/-! ## Related options -/

section Options

variable {α β γ δ : Type} {related : α → β → Prop} {value? : Option α} {value'? : Option β}

theorem optionRel_refl {related : α → α → Prop} (reflexive : ∀ value, related value value) :
    ∀ value? : Option α, Option.Rel related value? value?
  | none => .none
  | some value => .some (reflexive value)

theorem optionRel_mono {wider : α → β → Prop} (values : Option.Rel related value? value'?)
    (wide : ∀ value value', related value value' → wider value value') :
    Option.Rel wider value? value'? := by
  cases values with
  | none => exact .none
  | some value => exact .some (wide _ _ value)

theorem optionRel_isSome (values : Option.Rel related value? value'?) :
    value?.isSome = value'?.isSome := by
  cases values <;> rfl

theorem optionRel_map {related' : γ → δ → Prop} {image : α → γ} {image' : β → δ}
    (values : Option.Rel related value? value'?)
    (images : ∀ value value', related value value' → related' (image value) (image' value')) :
    Option.Rel related' (value?.map image) (value'?.map image') := by
  cases values with
  | none => exact .none
  | some value => exact .some (images _ _ value)

theorem optionRel_bind {related' : γ → δ → Prop} {next : α → Option γ} {next' : β → Option δ}
    (values : Option.Rel related value? value'?)
    (follows : ∀ value ∈ value?, ∀ value', related value value' →
      Option.Rel related' (next value) (next' value')) :
    Option.Rel related' (value?.bind next) (value'?.bind next') := by
  cases values with
  | none => exact .none
  | some value => exact follows _ rfl _ value

end Options

/-! ## Trees are like themselves -/

variable {like : Token → Token → Prop}

mutual

theorem Expr.Alike.refl (reflexive : ∀ token, like token token) :
    ∀ expr : Expr, expr.Alike like expr
  | .literal _ => .literal
  | .variable name => .variable (reflexive name)
  | .assign name value => .assign (optionRel_refl reflexive name) (refl reflexive value)
  | .unary operator operand => .unary (optionRel_refl reflexive operator) (refl reflexive operand)
  | .binary left operator right =>
      .binary (refl reflexive left) (reflexive operator) (refl reflexive right)
  | .logical left operator right =>
      .logical (refl reflexive left) (reflexive operator) (refl reflexive right)
  | .call callee paren arguments =>
      .call (refl reflexive callee) (reflexive paren) (reflList reflexive arguments)
  | .grouping inner => .grouping (refl reflexive inner)

theorem Expr.Alike.reflList (reflexive : ∀ token, like token token) :
    ∀ exprs : List Expr, List.Forall₂ (Expr.Alike like) exprs exprs
  | [] => .nil
  | expr :: rest => .cons (refl reflexive expr) (reflList reflexive rest)

end

theorem Expr.Alike.reflOption (reflexive : ∀ token, like token token) (value : Option Expr) :
    Option.Rel (Expr.Alike like) value value :=
  optionRel_refl (Expr.Alike.refl reflexive) value

mutual

theorem Stmt.Alike.refl (reflexive : ∀ token, like token token) :
    ∀ stmt : Stmt, stmt.Alike like stmt
  | .expression value => .expression (.refl reflexive value)
  | .print value => .print (.refl reflexive value)
  | .variable name initializer =>
      .variable (reflexive name) (Expr.Alike.reflOption reflexive initializer)
  | .block statements => .block (reflList reflexive statements)
  | .branch keyword condition thenBranch none =>
      .branch (reflexive keyword) (.refl reflexive condition) (refl reflexive thenBranch) .none
  | .branch keyword condition thenBranch (some elseBranch) =>
      .branch (reflexive keyword) (.refl reflexive condition) (refl reflexive thenBranch)
        (.some (refl reflexive elseBranch))
  | .loop keyword condition body =>
      .loop (reflexive keyword) (.refl reflexive condition) (refl reflexive body)
  | .function name _ body =>
      .function (reflexive name) (List.forall₂_same.mpr fun name _ => reflexive name)
        (reflList reflexive body)
  | .returning keyword value =>
      .returning (reflexive keyword) (Expr.Alike.reflOption reflexive value)

theorem Stmt.Alike.reflList (reflexive : ∀ token, like token token) :
    ∀ statements : List Stmt, List.Forall₂ (Stmt.Alike like) statements statements
  | [] => .nil
  | stmt :: rest => .cons (refl reflexive stmt) (reflList reflexive rest)

end

/-! ## Statements that declare nothing -/

/-- Statements that give no name to the scope that they are executed in. -/
inductive Stmt.DeclaresNothing : Stmt → Prop where
  | expression {value} : DeclaresNothing (.expression value)
  | print {value} : DeclaresNothing (.print value)
  | block {statements} : DeclaresNothing (.block statements)
  | branch {keyword condition thenBranch elseBranch} :
      DeclaresNothing thenBranch → (∀ stmt ∈ elseBranch, DeclaresNothing stmt) →
      DeclaresNothing (.branch keyword condition thenBranch elseBranch)
  | loop {keyword condition body} :
      DeclaresNothing body → DeclaresNothing (.loop keyword condition body)
  | returning {keyword value} : DeclaresNothing (.returning keyword value)

end Lox
