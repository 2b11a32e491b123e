import Lox.Proofs.Evaluation.Contract

/-!
# Effects of evaluation

All that evaluation can do to a machine, as a relation between the machine
before and after. A name is given to the current scope only by a statement in
that scope; everything else assigns to names that are bound, creates a scope
and acts in there, or leaves the scopes alone. Whatever an evaluation ends
with, its effect is of this kind, so what holds of every effect holds of every
evaluation.
-/

set_option autoImplicit false

namespace Lox

/-- What may happen to a machine. The flag tells whether names may be given to
the current scope. -/
inductive Effect : Bool → Machine → Machine → Prop where
  | beside {defines before after} :
      after.heap = before.heap → after.current = before.current → Effect defines before after
  | trans {defines first second third} :
      Effect defines first second → Effect defines second third → Effect defines first third
  | assign {defines machine name value heap} :
      machine.heap.assign? machine.current name value = some heap →
      Effect defines machine { machine with heap }
  | define {machine name value} :
      Effect true machine
        { machine with heap := machine.heap.define machine.current name value }
  | within {defines machine enclosing bindings after} :
      Effect true
        { machine with
          heap := machine.heap.create enclosing bindings, current := machine.heap.nextId }
        after →
      Effect defines machine { after with current := machine.current }

namespace Effect

theorem refl {defines : Bool} (machine : Machine) : Effect defines machine machine :=
  .beside rfl rfl

theorem ofExpression {defines : Bool} {before after : Machine} (effect : Effect false before after) :
    Effect defines before after := by
  generalize same : false = flag at effect
  induction effect with
  | beside heap current => exact .beside heap current
  | trans _ _ first second => exact .trans (first same) (second same)
  | assign assigned => exact .assign assigned
  | define => cases same
  | within inner _ => exact .within inner

theorem current {defines : Bool} {before after : Machine} (effect : Effect defines before after) :
    after.current = before.current := by
  induction effect with
  | beside _ current => exact current
  | trans _ _ first second => exact second.trans first
  | assign _ => rfl
  | define => rfl
  | within _ _ => rfl

end Effect

/-- The contract of having an effect, whatever the machine and the fault. -/
def Contract.effect (defines : Bool) : Contract where
  invariant _ := True
  allows := Effect defines
  expected _ := True
  refl := .refl
  trans := .trans

namespace Action

variable {α : Type} {defines : Bool}

/-- However the action ends, it has had an effect. -/
def Causes (defines : Bool) (action : Action α) : Prop :=
  action.Keeps (.effect defines) fun _ => True

/-- The machine in which an action ends, with a value or a fault. -/
def finish (action : Action α) (machine : Machine) : Machine :=
  match action machine with
  | .ok _ after => after
  | .error _ after => after

theorem finish_within (enclosing : ScopeId) (bindings : Bindings) (action : Action α)
    (machine : Machine) :
    (within enclosing bindings action).finish machine =
      { action.finish (enter enclosing bindings machine) with current := machine.current } := by
  rw [finish, within_eq, finish]
  cases action (enter enclosing bindings machine) with
  | ok value after => rfl
  | error fault after => rfl

theorem causes_iff {action : Action α} :
    action.Causes defines ↔ ∀ machine, Effect defines machine (action.finish machine) := by
  simp only [Causes, Keeps, Contract.effect, finish, true_and, forall_const]
  apply forall_congr'
  intro machine
  cases action machine with
  | ok value after => exact Iff.rfl
  | error fault after => exact Iff.rfl

theorem Causes.ofExpression {action : Action α} (caused : action.Causes false) :
    action.Causes defines :=
  causes_iff.mpr fun machine => (causes_iff.mp caused machine).ofExpression

/-! ## Single actions -/

theorem causes_ofExcept (outcome : Except Fault α) : (ofExcept outcome).Causes defines :=
  keeps_ofExcept (by cases outcome <;> trivial)

theorem causes_read (name : Token) : (read name).Causes defines := by
  apply keeps_bind keeps_get
  intro _ _
  apply keeps_bind keeps_get
  intro _ _
  split
  · exact keeps_pure trivial
  · exact keeps_throw trivial

theorem causes_assign (name : Token) (value : Value) : (assign name value).Causes defines := by
  apply causes_iff.mpr
  intro machine
  simp only [finish, assign]
  cases assigned : machine.heap.assign? machine.current name.lexeme value with
  | none => exact .refl machine
  | some heap => exact .assign assigned

theorem causes_define (name : Token) (value : Value) : (define name value).Causes true :=
  causes_iff.mpr fun _ => .define

theorem causes_makeFunction (name : Token) (parameters : List Token) (body : List Stmt) :
    (makeFunction name parameters body).Causes defines :=
  causes_iff.mpr fun _ => .beside rfl rfl

theorem causes_readClock : readClock.Causes defines :=
  causes_iff.mpr fun _ => .beside rfl rfl

theorem causes_note (added : Note) : (note added).Causes defines :=
  causes_iff.mpr fun _ => .beside rfl rfl

theorem causes_writeLine (text : String) : (writeLine text).Causes defines := by
  apply causes_iff.mpr
  intro machine
  simp only [finish, writeLine]
  rcases machine.output.write (text ++ "\n").toUTF8 with ⟨output, _ | _⟩
  · exact .beside rfl rfl
  · exact .beside rfl rfl

/-- Whatever happens in a new scope is no definition in the scope around it. -/
theorem causes_within {action : Action α} (caused : action.Causes true) (enclosing : ScopeId)
    (bindings : Bindings) : (within enclosing bindings action).Causes defines := by
  apply causes_iff.mpr
  intro machine
  rw [finish_within]
  exact .within (causes_iff.mp caused (enter enclosing bindings machine))

theorem causes_sequence {execute : Stmt → Action Completion}
    (caused : ∀ stmt, (execute stmt).Causes true) (statements : List Stmt) :
    (sequence execute statements).Causes true :=
  keeps_sequence trivial fun stmt _ => caused stmt

theorem causes_call {execute : Stmt → Action Completion}
    (caused : ∀ stmt, (execute stmt).Causes true) (paren : Token) (arguments : List Value)
    (callee : Value) : (call execute paren arguments callee).Causes defines := by
  unfold call
  split
  · split
    · apply keeps_bind (causes_note _)
      intro _ _
      apply keeps_bind (causes_within (causes_sequence caused _) _ _)
      intro _ _
      exact keeps_pure trivial
    · exact keeps_throw trivial
  · split
    · exact causes_readClock
    · exact keeps_throw trivial
  · exact keeps_throw trivial

/-! ## Evaluation -/

section Evaluation

variable {depth : Nat} (expressions : ∀ expr, (evaluate depth expr).Causes false)
  (statements : ∀ stmt, (execute depth stmt).Causes true)

include expressions in
theorem causes_condition (keyword : Token) (condition : Expr) :
    (do ofExcept (Operator.condition keyword (← evaluate depth condition)) : Action Bool).Causes
      true :=
  keeps_bind (expressions condition).ofExpression fun _ _ => causes_ofExcept _

include expressions statements in
theorem causes_expression (expr : Expr) : (evaluate (depth + 1) expr).Causes false := by
  cases expr with
  | literal value => exact keeps_pure trivial
  | «variable» name => exact causes_read name
  | grouping inner => exact expressions inner
  | assign name value =>
      apply keeps_bind (expressions value)
      intro value _
      cases name with
      | none => exact keeps_pure trivial
      | some name => exact keeps_bind (causes_assign name value) fun _ _ => keeps_pure trivial
  | unary operator operand =>
      apply keeps_bind (expressions operand)
      intro value _
      cases operator with
      | none => exact keeps_pure trivial
      | some operator => exact causes_ofExcept _
  | binary left operator right =>
      apply keeps_bind (expressions left)
      intro _ _
      exact keeps_bind (expressions right) fun _ _ => causes_ofExcept _
  | logical left operator right =>
      apply keeps_bind (expressions left)
      intro _ _
      apply keeps_bind (causes_ofExcept _)
      intro _ _
      split
      · exact keeps_throw trivial
      · split
        · exact keeps_pure trivial
        · apply keeps_bind (expressions right)
          intro _ _
          exact keeps_bind (causes_ofExcept _) fun _ _ => keeps_pure trivial
  | call callee paren arguments =>
      apply keeps_bind (expressions callee)
      intro callee _
      apply keeps_bind (keeps_mapM fun argument _ => expressions argument)
      intro arguments _
      exact causes_call statements paren arguments callee

include expressions statements in
theorem causes_statement (stmt : Stmt) : (execute (depth + 1) stmt).Causes true := by
  cases stmt with
  | expression value =>
      exact keeps_bind (expressions value).ofExpression fun _ _ => keeps_pure trivial
  | print value =>
      apply keeps_bind (expressions value).ofExpression
      intro _ _
      exact keeps_bind (causes_writeLine _) fun _ _ => keeps_pure trivial
  | «variable» name initializer =>
      have defined : ∀ value, (do define name value; return .normal : Action Completion).Causes true :=
        fun value => keeps_bind (causes_define name value) fun _ _ => keeps_pure trivial
      cases initializer with
      | none => exact defined .nil
      | some initializer =>
          exact keeps_bind (expressions initializer).ofExpression fun value _ => defined value
  | block inner =>
      apply keeps_bind keeps_get
      intro machine _
      exact causes_within (causes_sequence statements inner) _ _
  | branch keyword condition thenBranch elseBranch =>
      apply keeps_bind (expressions condition).ofExpression
      intro _ _
      apply keeps_bind (causes_ofExcept _)
      intro holds _
      cases holds with
      | true => exact statements thenBranch
      | false =>
          cases elseBranch with
          | none => exact keeps_pure trivial
          | some elseBranch => exact statements elseBranch
  | loop keyword condition body =>
      have tested := causes_condition expressions keyword condition
      exact keeps_loop trivial trivial tested (statements body) depth
  | function name parameters body =>
      apply keeps_bind (causes_makeFunction name parameters body)
      intro function _
      exact keeps_bind (causes_define name function) fun _ _ => keeps_pure trivial
  | returning keyword value =>
      cases value with
      | none => exact keeps_pure trivial
      | some value => exact keeps_bind (expressions value).ofExpression fun _ _ => keeps_pure trivial

end Evaluation

end Action

open Lox.Action

/-- Every evaluation and every execution is an effect, however it ends. -/
theorem causes_evaluation (depth : Nat) :
    (∀ expr, (evaluate depth expr).Causes false) ∧ (∀ stmt, (execute depth stmt).Causes true) := by
  induction depth with
  | zero => exact ⟨fun _ => keeps_throw trivial, fun _ => keeps_throw trivial⟩
  | succ depth ih => exact ⟨causes_expression ih.1 ih.2, causes_statement ih.1 ih.2⟩

theorem effect_evaluate (depth : Nat) (expr : Expr) (machine : Machine) :
    Effect false machine ((evaluate depth expr).finish machine) :=
  causes_iff.mp ((causes_evaluation depth).1 expr) machine

theorem effect_execute (depth : Nat) (stmt : Stmt) (machine : Machine) :
    Effect true machine ((execute depth stmt).finish machine) :=
  causes_iff.mp ((causes_evaluation depth).2 stmt) machine

/-- A block has no effect on the names of the scope around it. -/
theorem effect_block (depth : Nat) (statements : List Stmt) (machine : Machine) :
    Effect false machine ((execute depth (.block statements)).finish machine) := by
  apply causes_iff.mp
  cases depth with
  | zero => exact keeps_throw trivial
  | succ depth =>
      apply keeps_bind keeps_get
      intro machine _
      exact causes_within (causes_sequence (causes_evaluation depth).2 statements) _ _

theorem effect_executeProgram (depth : Nat) (statements : List Stmt) (machine : Machine) :
    Effect true machine (executeProgram depth statements machine).2 := by
  have keeps : ∀ stmt ∈ statements, (execute depth stmt).Causes true :=
    fun stmt _ => (causes_evaluation depth).2 stmt
  have noted : ∀ (machine : Machine) note, Effect true machine (machine.addNote note) :=
    fun _ _ => .beside rfl rfl
  have ended := keeps_executeProgram (fun machine note _ => ⟨trivial, noted machine note⟩)
    (fun _ _ => trivial) keeps machine trivial
  exact ended.2.2

/-- A machine after executing some programs in turn, each under its own bound
on the depth and none stopped by the faults of those before it. -/
def Machine.executing (programs : List (Nat × List Stmt)) (machine : Machine) : Machine :=
  programs.foldl (fun machine (depth, statements) => (executeProgram depth statements machine).2)
    machine

theorem Machine.executing_current (programs : List (Nat × List Stmt)) :
    ∀ machine : Machine, (machine.executing programs).current = machine.current := by
  induction programs with
  | nil => exact fun machine => rfl
  | cons program rest ih =>
      intro machine
      obtain ⟨depth, statements⟩ := program
      have first := (effect_executeProgram depth statements machine).current
      exact (ih _).trans first

/-- The current scope is put back on every way out of an evaluation, and so a
machine that started with its global scope has it current after any programs. -/
theorem evaluation_restores_scope :
    (∀ depth expr machine, ((evaluate depth expr).finish machine).current = machine.current) ∧
      (∀ depth stmt machine, ((execute depth stmt).finish machine).current = machine.current) ∧
      ∀ clock output programs,
        let fresh : Machine := { Machine.start clock none with output }
        (fresh.executing programs).current = fresh.current := by
  refine ⟨?_, ?_, ?_⟩
  · intro depth expr machine
    exact (effect_evaluate depth expr machine).current
  · intro depth stmt machine
    exact (effect_execute depth stmt machine).current
  · intro clock output programs fresh
    exact fresh.executing_current programs

end Lox
