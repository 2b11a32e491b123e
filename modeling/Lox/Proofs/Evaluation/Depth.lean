import Lox.Evaluation.Evaluate

/-!
# Raising the bound on the depth

An evaluation that stops within a bound on its depth is the same under every
greater bound. The only thing that the bound decides is whether an evaluation
stops for being too deep.
-/

set_option autoImplicit false

namespace Lox

namespace Action

variable {α β : Type}

/-- The first action stops for being too deep, or the second one does what it does. -/
def Approximates (left right : Action α) : Prop :=
  ∀ machine, (∃ after, left machine = .error .tooDeep after) ∨ left machine = right machine

theorem approximates_refl (action : Action α) : action.Approximates action := fun _ => .inr rfl

theorem approximates_tooDeep (action : Action α) :
    (throw .tooDeep : Action α).Approximates action :=
  fun machine => .inl ⟨machine, rfl⟩

/-! ## Combinations -/

theorem approximates_bind {first first' : Action α} {next next' : α → Action β}
    (approximates : first.Approximates first')
    (approximatesNext : ∀ value, (next value).Approximates (next' value)) :
    (first >>= next).Approximates (first' >>= next') := by
  intro machine
  simp only [bind, EStateM.bind]
  obtain ⟨after, deep⟩ | same := approximates machine
  · exact .inl ⟨after, by rw [deep]⟩
  · rw [same]
    cases first' machine with
    | ok value middle => exact approximatesNext value middle
    | error fault middle => exact .inr rfl

theorem approximates_within {action action' : Action α} (enclosing : ScopeId) (bindings : Bindings)
    (approximates : action.Approximates action') :
    (within enclosing bindings action).Approximates (within enclosing bindings action') := by
  intro machine
  simp only [within]
  obtain ⟨after, deep⟩ | same := approximates
    { machine with heap := machine.heap.create enclosing bindings, current := machine.heap.nextId }
  · exact .inl ⟨{ after with current := machine.current }, by rw [deep]⟩
  · exact .inr (by rw [same])

theorem approximates_mapM {action action' : α → Action β}
    (approximates : ∀ value, (action value).Approximates (action' value)) :
    ∀ values : List α, (values.mapM action).Approximates (values.mapM action')
  | [] => approximates_refl _
  | value :: rest => by
      simp only [List.mapM_cons]
      apply approximates_bind (approximates value)
      intro result
      exact approximates_bind (approximates_mapM approximates rest) fun _ => approximates_refl _

section Statements

variable {execute execute' : Stmt → Action Completion}
  (approximates : ∀ stmt, (execute stmt).Approximates (execute' stmt))

include approximates

theorem approximates_sequence : ∀ statements : List Stmt,
    (sequence execute statements).Approximates (sequence execute' statements)
  | [] => approximates_refl _
  | stmt :: rest => by
      apply approximates_bind (approximates stmt)
      intro completion
      cases completion with
      | normal => exact approximates_sequence rest
      | returned value => exact approximates_refl _

theorem approximates_call (paren : Token) (arguments : List Value) (callee : Value) :
    (call execute paren arguments callee).Approximates
      (call execute' paren arguments callee) := by
  cases callee with
  | nil | bool | number | string | builtin => exact approximates_refl _
  | function closure =>
      simp only [call]
      split
      · apply approximates_bind (approximates_refl _)
        intro _
        have body := approximates_sequence approximates closure.body
        exact approximates_bind (approximates_within _ _ body) fun _ => approximates_refl _
      · exact approximates_refl _

end Statements

/-- The passes through a loop are bounded too. -/
theorem approximates_loop {condition condition' : Action Bool} {body body' : Action Completion}
    (approximatesCondition : condition.Approximates condition')
    (approximatesBody : body.Approximates body') :
    ∀ {bound bound' : Nat}, bound ≤ bound' →
      (loop condition body bound).Approximates (loop condition' body' bound')
  | 0, _, _ => approximates_tooDeep _
  | bound + 1, bound' + 1, lower => by
      apply approximates_bind approximatesCondition
      intro continues
      cases continues with
      | false => exact approximates_refl _
      | true =>
          apply approximates_bind approximatesBody
          intro completion
          cases completion with
          | normal =>
              exact approximates_loop approximatesCondition approximatesBody
                (Nat.le_of_succ_le_succ lower)
          | returned value => exact approximates_refl _

/-! ## Evaluation -/

section Evaluation

variable {depth depth' : Nat}
  (expressions : ∀ expr, (evaluate depth expr).Approximates (evaluate depth' expr))
  (statements : ∀ stmt, (execute depth stmt).Approximates (execute depth' stmt))

include expressions

theorem approximates_condition (keyword : Token) (condition : Expr) :
    (do ofExcept (Operator.condition keyword (← evaluate depth condition)) :
      Action Bool).Approximates
      (do ofExcept (Operator.condition keyword (← evaluate depth' condition))) :=
  approximates_bind (expressions condition) fun _ => approximates_refl _

include statements

theorem approximates_expression (expr : Expr) :
    (evaluate (depth + 1) expr).Approximates (evaluate (depth' + 1) expr) := by
  cases expr with
  | literal | «variable» => exact approximates_refl _
  | grouping inner => exact expressions inner
  | assign name value => exact approximates_bind (expressions value) fun _ => approximates_refl _
  | unary operator operand =>
      exact approximates_bind (expressions operand) fun _ => approximates_refl _
  | binary left operator right =>
      apply approximates_bind (expressions left)
      intro _
      exact approximates_bind (expressions right) fun _ => approximates_refl _
  | logical left operator right =>
      apply approximates_bind (expressions left)
      intro _
      apply approximates_bind (approximates_refl _)
      intro truth
      split
      · exact approximates_refl _
      · split
        · exact approximates_refl _
        · exact approximates_bind (expressions right) fun _ => approximates_refl _
  | call callee paren arguments =>
      apply approximates_bind (expressions callee)
      intro callee
      apply approximates_bind (approximates_mapM expressions arguments)
      intro arguments
      exact approximates_call statements paren arguments callee

theorem approximates_statement (lower : depth ≤ depth') (stmt : Stmt) :
    (execute (depth + 1) stmt).Approximates (execute (depth' + 1) stmt) := by
  cases stmt with
  | expression value => exact approximates_bind (expressions value) fun _ => approximates_refl _
  | print value => exact approximates_bind (expressions value) fun _ => approximates_refl _
  | «variable» name initializer =>
      cases initializer with
      | none => exact approximates_refl _
      | some initializer =>
          exact approximates_bind (expressions initializer) fun _ => approximates_refl _
  | block inner =>
      apply approximates_bind (approximates_refl _)
      intro machine
      exact approximates_within _ _ (approximates_sequence statements inner)
  | branch keyword condition thenBranch elseBranch =>
      apply approximates_bind (expressions condition)
      intro _
      apply approximates_bind (approximates_refl _)
      intro holds
      cases holds with
      | true => exact statements thenBranch
      | false =>
          cases elseBranch with
          | none => exact approximates_refl _
          | some elseBranch => exact statements elseBranch
  | loop keyword condition body =>
      exact approximates_loop (approximates_condition expressions keyword condition)
        (statements body) lower
  | function name parameters body => exact approximates_refl _
  | returning keyword value =>
      cases value with
      | none => exact approximates_refl _
      | some value => exact approximates_bind (expressions value) fun _ => approximates_refl _

end Evaluation

end Action

open Lox.Action

/-- Under a greater bound an evaluation does what it did, unless it was too deep. -/
theorem evaluation_approximates : ∀ {depth depth' : Nat}, depth ≤ depth' →
    (∀ expr, (evaluate depth expr).Approximates (evaluate depth' expr)) ∧
      ∀ stmt, (execute depth stmt).Approximates (execute depth' stmt)
  | 0, _, _ => ⟨fun _ => approximates_tooDeep _, fun _ => approximates_tooDeep _⟩
  | depth + 1, depth' + 1, lower => by
      have lower := Nat.le_of_succ_le_succ lower
      obtain ⟨expressions, statements⟩ := evaluation_approximates lower
      exact ⟨approximates_expression expressions statements,
        approximates_statement expressions statements lower⟩

end Lox
